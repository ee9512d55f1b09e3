/-
# The register checks of `data_proc_op`

Before it reads a register `data_proc_op` compares `rd` with the number of
registers, twice, and in register mode `rm`; a comparison that fails writes
`ERROR_INVALID_REGISTER_INDEX` and returns `ERROR`. Nothing compares `rn`, so
an index from 16 on is left to the assertion of `cpu_get_reg`, and a call
that passes its checks ends without a returned status. `handlesErrors_iff`
says which instructions get the error handling that is meant.

`checks` is this part of the call, over any cell for `*fault_out`. On a number
it is what `data_proc_op` does (`dataProcOp_eq_checks`), on a list it is the
codes written, in order (`faultWrites`).
-/
import SimpleArm.ResultRegister

namespace SimpleArm

/-! ### The checks -/

/-- `if (p) *fault_out = WARNING_PC_USED_AS_OPERAND`. -/
def warnIf {α : Type} (write : ErrorCode → α → α) (p : Prop) [Decidable p] (cell : α) : α :=
  if p then write .warningPcUsedAsOperand cell else cell

/-- Whether the checks pass, and what they leave in the cell. They are given no state to read
a register from. -/
def checks {α : Type} (write : ErrorCode → α → α) (inst : DecodedDataProcessing) (cell : α) :
    Bool × α :=
  -- the source compares rd twice and does not check rn
  if registerCount ≤ inst.rd.toNat ∨ registerCount ≤ inst.rd.toNat then
    (false, write .errorInvalidRegisterIndex cell)
  else
    let cell := warnIf write
      (inst.rd.toNat = pcRegisterIndex ∨ inst.rn.toNat = pcRegisterIndex) cell
    if inst.immediateMode = false ∧ registerCount ≤ inst.operand2.rm.toNat then
      (false, write .errorInvalidRegisterIndex cell)
    else
      (true, warnIf write
        (inst.immediateMode = false ∧ inst.operand2.rm.toNat = pcRegisterIndex) cell)

/-- `*fault_out = code`. -/
def writeCode (code : ErrorCode) (_ : FaultOut) : FaultOut := code.value

/-- The code is added to the codes written before it. -/
def logCode (code : ErrorCode) (codes : List ErrorCode) : List ErrorCode := codes ++ [code]

def afterChecks (cpu : CpuState) (inst : DecodedDataProcessing) (faultOut : FaultOut) :
    Except Abort DataProcResult := do
  let operand1 ← cpuGetReg cpu inst.rn.toNat
  let operand2 ← readOperand2 cpu inst
  let cpu ← dataProcSwitch cpu inst operand1 operand2
  return ⟨none, cpu, faultOut⟩

/-- The codes that a call writes to `*fault_out`, oldest first. -/
def faultWrites (inst : DecodedDataProcessing) : List ErrorCode :=
  (checks logCode inst []).2

/-- R15 is one of the operands, or the destination. -/
def UsesPc (inst : DecodedDataProcessing) : Prop :=
  inst.rd.toNat = 15 ∨ inst.rn.toNat = 15 ∨
    (inst.immediateMode = false ∧ inst.operand2.rm.toNat = 15)

section Checks

variable {α β : Type} {write : ErrorCode → α → α} (inst : DecodedDataProcessing)

/-- **The checks come first.** A call is its checks, and with them passed the rest. -/
theorem dataProcOp_eq_checks (cpu : CpuState) (f : FaultOut) : dataProcOp cpu inst f =
    match checks writeCode inst f with
    | (true, g) => afterChecks cpu inst g
    | (false, g) => .ok ⟨some .error, cpu, g⟩ := by
  unfold dataProcOp checks warnIf
  split_ifs <;> rfl

/-- After the checks no status is returned and no code is written. -/
theorem afterChecks_eq_ok {inst : DecodedDataProcessing} {cpu : CpuState} {f : FaultOut}
    {out : DataProcResult} (h : afterChecks cpu inst f = .ok out) :
    out.status = none ∧ out.faultOut = f := by
  obtain ⟨_, -, h⟩ := Run.bind_eq_ok.mp h
  obtain ⟨_, -, h⟩ := Run.bind_eq_ok.mp h
  obtain ⟨_, -, h⟩ := Run.bind_eq_ok.mp h
  rw [← Except.ok.inj h]
  exact ⟨rfl, rfl⟩

/-- Cells that are written alike are left alike. -/
theorem checks_map {write' : ErrorCode → β → β} {g : α → β}
    (h : ∀ code a, g (write code a) = write' code (g a)) (a : α) :
    checks write' inst (g a) = Prod.map id g (checks write inst a) := by
  unfold checks warnIf
  split_ifs <;> simp [h]

theorem warnIf_eq (p : Prop) [Decidable p] (a : α) :
    warnIf write p a = (write .warningPcUsedAsOperand)^[if p then 1 else 0] a := by
  unfold warnIf
  split_ifs <;> rfl

variable (write) {inst}

/-- An index that is compared and is no register: the error is written last. -/
theorem checks_of_rejects (h : RejectsIndex inst) (a : α) : ∃ n, checks write inst a =
    (false, write .errorInvalidRegisterIndex ((write .warningPcUsedAsOperand)^[n] a)) := by
  unfold checks
  by_cases hrd : 16 ≤ inst.rd.toNat
  · exact ⟨0, if_pos (Or.inl hrd)⟩
  · have hrm := h.resolve_left hrd
    rw [if_neg (by rwa [or_self]), warnIf_eq]
    exact ⟨_, if_pos hrm⟩

theorem checks_of_not_rejects (h : ¬ RejectsIndex inst) (a : α) :
    ∃ n, checks write inst a = (true, (write .warningPcUsedAsOperand)^[n] a) ∧
      (n = 0 ↔ ¬ UsesPc inst) := by
  have hrd := rd_accepted (rd_lt_of_not_rejects h)
  have hrm := rm_accepted (rm_lt_of_not_rejects h)
  refine ⟨(if inst.immediateMode = false ∧ inst.operand2.rm.toNat = pcRegisterIndex then 1 else 0) +
    (if inst.rd.toNat = pcRegisterIndex ∨ inst.rn.toNat = pcRegisterIndex then 1 else 0), ?_, ?_⟩
  · unfold checks
    rw [if_neg hrd, Function.iterate_add_apply, ← warnIf_eq, ← warnIf_eq]
    exact if_neg hrm
  · have hzero : ∀ (p : Prop) [Decidable p], (if p then 1 else 0) = 0 ↔ ¬ p := by
      intro p _
      by_cases hp : p <;> simp [hp]
    rw [Nat.add_eq_zero_iff, hzero, hzero, and_comm, ← not_or, or_assoc]
    rfl

end Checks

/-! ### The codes written -/

theorem iterate_logCode (code : ErrorCode) (n : ℕ) :
    (logCode code)^[n] [] = List.replicate n code := by
  induction n with
  | zero => rfl
  | succ n ih => rw [Function.iterate_succ_apply', ih, logCode, List.replicate_succ']

section Writes

variable {inst : DecodedDataProcessing}

theorem faultWrites_of_rejects (h : RejectsIndex inst) : ∃ n, faultWrites inst =
    List.replicate n .warningPcUsedAsOperand ++ [.errorInvalidRegisterIndex] := by
  obtain ⟨n, hn⟩ := checks_of_rejects logCode h []
  refine ⟨n, ?_⟩
  rw [faultWrites, hn, iterate_logCode]
  rfl

theorem faultWrites_of_not_rejects (h : ¬ RejectsIndex inst) : ∃ n, faultWrites inst =
    List.replicate n .warningPcUsedAsOperand ∧ (n = 0 ↔ ¬ UsesPc inst) := by
  obtain ⟨n, hn, hpc⟩ := checks_of_not_rejects logCode h []
  refine ⟨n, ?_, hpc⟩
  rw [faultWrites, hn, iterate_logCode]

/-- A warning is written over warnings only. -/
theorem faultWrites_pairwise (inst : DecodedDataProcessing) : (faultWrites inst).Pairwise
    fun c d => d = .warningPcUsedAsOperand → c = .warningPcUsedAsOperand := by
  by_cases h : RejectsIndex inst
  · obtain ⟨n, hn⟩ := faultWrites_of_rejects h
    rw [hn, List.pairwise_append]
    refine ⟨List.pairwise_replicate.mpr (Or.inr id), List.pairwise_singleton _ _, ?_⟩
    intro c _ d hd hwarn
    rw [List.mem_singleton.mp hd] at hwarn
    cases hwarn
  · obtain ⟨n, hn, -⟩ := faultWrites_of_not_rejects h
    rw [hn]
    exact List.pairwise_replicate.mpr (Or.inr id)

/-- A call that returns leaves the last code written, or what it found. -/
theorem dataProcOp_faultOut {cpu : CpuState} {f : FaultOut} {out : DataProcResult}
    (h : dataProcOp cpu inst f = .ok out) :
    out.faultOut = (faultWrites inst).getLast?.elim f ErrorCode.value := by
  have hwrite : ∀ (code : ErrorCode) (codes : List ErrorCode),
      (logCode code codes).getLast?.elim f ErrorCode.value =
        writeCode code (codes.getLast?.elim f ErrorCode.value) := by
    intro code codes
    rw [logCode, List.getLast?_concat]
    rfl
  have hmap := checks_map (g := fun codes => codes.getLast?.elim f ErrorCode.value) inst hwrite []
  have hlast : (checks writeCode inst f).2 = (faultWrites inst).getLast?.elim f ErrorCode.value :=
    congrArg Prod.snd hmap
  rw [← hlast]
  rw [dataProcOp_eq_checks] at h
  rcases hc : checks writeCode inst f with ⟨_ | _, g⟩
  · rw [hc] at h
    rw [← Except.ok.inj h]
  · rw [hc] at h
    exact (afterChecks_eq_ok h).2

end Writes

/-! ### What the caller is told -/

/-- An index of the instruction is no register. -/
def HasInvalidIndex (inst : DecodedDataProcessing) : Prop :=
  16 ≤ inst.rn.toNat ∨ RejectsIndex inst

/-- The switch has a case for the instruction. -/
def Dispatched (inst : DecodedDataProcessing) : Prop :=
  ∃ op, OpCode.ofValue inst.op = some op ∧ op.dispatched = true

/-- An instruction with an invalid index, and no other, is answered with `ERROR`, its code and
an unchanged state, before a register is read: the call ends in its checks, with every state
alike. And a dispatched one whose indices are valid is answered with some other status. -/
structure HandlesErrors (cpu : CpuState) (inst : DecodedDataProcessing) (f : FaultOut) :
    Prop where
  error : dataProcOp cpu inst f =
      .ok ⟨some .error, cpu, ErrorCode.errorInvalidRegisterIndex.value⟩ ↔ HasInvalidIndex inst
  beforeReads : HasInvalidIndex inst → ∃ g, checks writeCode inst f = (false, g) ∧
    ∀ cpu', dataProcOp cpu' inst f = .ok ⟨some .error, cpu', g⟩
  status : ¬ HasInvalidIndex inst → Dispatched inst →
    ∃ out s, dataProcOp cpu inst f = .ok out ∧ out.status = some s ∧ s ≠ .error

section Status

variable {inst : DecodedDataProcessing} (cpu : CpuState) (f : FaultOut)

theorem status_of_not_rejects (h : ¬ RejectsIndex inst) {out : DataProcResult}
    (ho : dataProcOp cpu inst f = .ok out) : out.status = none := by
  obtain ⟨n, hn, -⟩ := checks_of_not_rejects writeCode h f
  rw [dataProcOp_eq_checks, hn] at ho
  exact (afterChecks_eq_ok ho).1

/-- An invalid index that no check compares ends the call at an assertion. -/
theorem rejectsIndex_of_ok {out : DataProcResult} (ho : dataProcOp cpu inst f = .ok out)
    (h : HasInvalidIndex inst) : RejectsIndex inst := by
  by_contra hrej
  rw [dataProcOp_of_rn_ge hrej (h.resolve_right hrej)] at ho
  cases ho

end Status

/-- **The error handling of `data_proc_op`.** It is as meant exactly where `rd`, or in register
mode `rm`, is no register, or else `rn` is one and the switch has no case for the opcode. -/
theorem handlesErrors_iff (cpu : CpuState) (inst : DecodedDataProcessing) (f : FaultOut) :
    HandlesErrors cpu inst f ↔
      RejectsIndex inst ∨ (inst.rn.toNat < 16 ∧ ¬ Dispatched inst) := by
  by_cases h : RejectsIndex inst
  · refine iff_of_true ⟨?_, ?_, ?_⟩ (Or.inl h)
    · exact iff_of_true (dataProcOp_of_rejects h cpu f) (Or.inr h)
    · intro _
      obtain ⟨n, hn⟩ := checks_of_rejects writeCode h f
      refine ⟨_, hn, fun cpu' => ?_⟩
      rw [dataProcOp_eq_checks, hn]
    · intro hvalid
      exact absurd (Or.inr h) hvalid
  · have hstatus : ∀ out, dataProcOp cpu inst f = .ok out → out.status = none :=
      fun out => status_of_not_rejects cpu f h
    constructor
    · intro hhandles
      have hrn : inst.rn.toNat < 16 := by
        by_contra hge
        have hret := hhandles.error.mpr (Or.inl (Nat.le_of_not_lt hge))
        cases hstatus _ hret
      refine Or.inr ⟨hrn, fun hd => ?_⟩
      have hvalid : ¬ HasInvalidIndex inst := not_or.mpr ⟨Nat.not_le.mpr hrn, h⟩
      obtain ⟨out, s, ho, hs, -⟩ := hhandles.status hvalid hd
      rw [hstatus out ho] at hs
      cases hs
    · intro hcond
      obtain ⟨hrn, hd⟩ := hcond.resolve_left h
      have hvalid : ¬ HasInvalidIndex inst := not_or.mpr ⟨Nat.not_le.mpr hrn, h⟩
      refine ⟨iff_of_false (fun hret => ?_) hvalid, fun hinv => absurd hinv hvalid,
        fun _ hdisp => absurd hdisp hd⟩
      cases hstatus _ hret

/-- `ADDEQ r0, r1, r2` returns no status, and with `rn` = 16 it reaches the assertion. -/
theorem handlesErrors_add :
    (dataProcOp constructCpuState (decode 0x00610002#32 0).1 0).map DataProcResult.status =
        .ok none ∧
      ¬ HandlesErrors constructCpuState (decode 0x00610002#32 0).1 0 ∧
      dataProcOp constructCpuState { (decode 0x00610002#32 0).1 with rn := 16#8 } 0 =
        .error .registerIndex ∧
      ¬ HandlesErrors constructCpuState { (decode 0x00610002#32 0).1 with rn := 16#8 } 0 := by
  have hadd : (dataProcOp constructCpuState (decode 0x00610002#32 0).1 0).map
      DataProcResult.status = .ok none := by
    decide
  have hrn : dataProcOp constructCpuState { (decode 0x00610002#32 0).1 with rn := 16#8 } 0 =
      .error .registerIndex := by
    decide
  refine ⟨hadd, fun h => ?_, hrn, fun h => ?_⟩
  · have hvalid : ¬ HasInvalidIndex (decode 0x00610002#32 0).1 := by
      unfold HasInvalidIndex RejectsIndex
      decide
    obtain ⟨out, s, ho, hs, -⟩ := h.status hvalid ⟨.opAdd, by decide, by decide⟩
    rw [ho] at hadd
    have hnone : out.status = none := Except.ok.inj hadd
    rw [hnone] at hs
    cases hs
  · have hret := h.error.mpr (Or.inl (by decide))
    rw [hrn] at hret
    cases hret

end SimpleArm
