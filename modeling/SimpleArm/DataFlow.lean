/-
# What instructions read and write

The registers and the flags that `b_op`, `bx_op` and `data_proc_op` read and
write, as lists that are computed from the decoded instruction. A conditional
write reads what it may leave (`ifMayFail`), and so does `MOV`, which updates N
and Z when its second operand is not 0. `CMP` writes N and Z and no other flag.

The lists are footprints of the execution (`CondInstr.footprint`), from which
the results on programs follow: what a program reads before it writes it
decides everything it does (`program_depends`), instructions that do not touch
each other's lists can be executed in any order (`independent_any_order`), and
one whose writes are overwritten unread can be removed (`dead_instruction`).
They are about registers and flags: returned statuses and `*fault_out` are no
locations.
-/
import SimpleArm.AluFrame
import SimpleArm.CondExec
import SimpleArm.Lib.Footprint

namespace SimpleArm

open Effect

/-- A register, or a bit of the status word. -/
inductive Loc
  | reg (i : ℕ)
  | bit (k : ℕ)
deriving DecidableEq, Repr

def CpuState.get (cpu : CpuState) : Loc → Word ⊕ Bool
  | .reg i => .inl (cpu.reg i)
  | .bit k => .inr (cpu.cpsr.bit k)

theorem CpuState.eq_of_get (cpu cpu' : CpuState) (h : ∀ l, cpu.get l = cpu'.get l) :
    cpu = cpu' :=
  CpuState.eq_of_reg (fun i _ => Sum.inl.inj (h (.reg i)))
    (Cpsr.eq_of_bit fun k _ => Sum.inr.inj (h (.bit k)))

section EqOn

variable {cpu cpu' : CpuState} {R : Set Loc} (h : Set.EqOn cpu.get cpu'.get R)

include h

theorem reg_of_eqOn {i : ℕ} (hi : .reg i ∈ R) : cpu.reg i = cpu'.reg i := Sum.inl.inj (h hi)

theorem bit_of_eqOn {k : ℕ} (hk : .bit k ∈ R) : cpu.cpsr.bit k = cpu'.cpsr.bit k :=
  Sum.inr.inj (h hk)

end EqOn

/-! ### The ALU -/

/-- The flags that an update of the operation writes. -/
def AluOp.flagLocs : AluOp → List Loc
  | sub | rsb | add | adc | sbc | rsc => [.bit 31, .bit 30, .bit 29, .bit 28]
  | _ => [.bit 31, .bit 30]

/-- The operations with carry read C, the others no flag. -/
def AluOp.carryLocs : AluOp → List Loc
  | adc | sbc | rsc => [.bit 29]
  | _ => []

def AluCall.writes (k : AluCall) : List Loc :=
  (if k.op.stores then [.reg k.reg.toNat] else []) ++
    if k.op.updates k.risesCpsr then k.op.flagLocs else []

theorem AluOp.reg_notMem_flagLocs (op : AluOp) (i : ℕ) : .reg i ∉ op.flagLocs := by
  cases op <;> simp [AluOp.flagLocs]

namespace AluCall

@[simp] theorem reg_mem_writes {k : AluCall} {i : ℕ} :
    .reg i ∈ k.writes ↔ k.op.stores = true ∧ i = k.reg.toNat := by
  unfold writes
  cases k.op.stores <;> cases k.op.updates k.risesCpsr <;> simp [AluOp.reg_notMem_flagLocs]

@[simp] theorem bit_mem_writes {k : AluCall} {i : ℕ} :
    .bit i ∈ k.writes ↔ k.op.updates k.risesCpsr = true ∧ .bit i ∈ k.op.flagLocs := by
  unfold writes
  cases k.op.stores <;> cases k.op.updates k.risesCpsr <;> simp

end AluCall

theorem AluOp.flags_of_notMem {op : AluOp} {i : ℕ} (h : .bit i ∉ op.flagLocs)
    (carry a b : Word) (c : Cpsr) : (op.flags carry a b c).bit i = c.bit i := by
  unfold AluOp.flagLocs at h
  unfold AluOp.flags
  cases op <;> simp only [List.mem_cons, Loc.bit.injEq, List.not_mem_nil, not_or] at h <;>
    simp [bit_addFlags, bit_subFlags, bit_nzFlags, h]

theorem AluOp.flags_of_mem {op : AluOp} {i : ℕ} (h : .bit i ∈ op.flagLocs) (carry a b : Word)
    (c c' : Cpsr) : (op.flags carry a b c).bit i = (op.flags carry a b c').bit i := by
  unfold AluOp.flagLocs at h
  unfold AluOp.flags
  cases op <;> simp only [List.mem_cons, Loc.bit.injEq, List.not_mem_nil, or_false] at h <;>
    rcases h with rfl | rfl | rfl | rfl <;> simp [bit_addFlags, bit_subFlags, bit_nzFlags]

theorem AluOp.carryIn_congr {cpu cpu' : CpuState} {op : AluOp}
    (h : Set.EqOn cpu.get cpu'.get {l | l ∈ op.carryLocs}) (a b : Word) (c : Cpsr) :
    op.result (carryIn cpu) a b = op.result (carryIn cpu') a b ∧
      op.flags (carryIn cpu) a b c = op.flags (carryIn cpu') a b c := by
  by_cases hmem : .bit 29 ∈ op.carryLocs
  · have hcarry : carryIn cpu = carryIn cpu' := by
      unfold carryIn
      rw [cpsrGetCarry_eq, cpsrGetCarry_eq, bit_of_eqOn h hmem]
    rw [hcarry]
    exact ⟨rfl, rfl⟩
  · cases op <;> first | exact ⟨rfl, rfl⟩ | exact absurd List.mem_cons_self hmem

namespace AluCall

variable {k : AluCall} {cpu cpu' : CpuState}

theorem bit_after (i : ℕ) : (k.after cpu).cpsr.bit i =
    if .bit i ∈ k.writes then
      (k.op.flags (carryIn cpu) k.operand1 k.operand2 cpu.cpsr).bit i
    else cpu.cpsr.bit i := by
  show (k.cpsrAfter cpu).bit i = _
  unfold cpsrAfter
  simp only [bit_mem_writes]
  cases hu : k.op.updates k.risesCpsr
  · simp
  · by_cases hmem : Loc.bit i ∈ k.op.flagLocs
    · simp [hmem]
    · simp [hmem, AluOp.flags_of_notMem hmem]

theorem footprint (k : AluCall) : Footprint CpuState.get (fun cpu => k.exec cpu)
    {l | l ∈ k.op.carryLocs} {l | l ∈ k.writes} where
  frame cpu cpu' h := by
    obtain ⟨rfl, hreg⟩ := exec_cases h
    rintro (i | i) hl
    · refine congrArg Sum.inl ?_
      rw [reg_after cpu k hreg, if_neg fun hmem => hl (reg_mem_writes.mpr hmem)]
    · exact congrArg Sum.inr ((bit_after i).trans (if_neg hl))
  depends cpu cpu' heq := by
    obtain ⟨hres, hflags⟩ := AluOp.carryIn_congr heq k.operand1 k.operand2 cpu.cpsr
    by_cases hreg : k.op.stores = true → k.reg.toNat < 16
    · rw [(exec_eq_ok_iff cpu _ k).mpr ⟨hreg, rfl⟩, (exec_eq_ok_iff cpu' _ k).mpr ⟨hreg, rfl⟩]
      rintro (i | i) hl
      · refine congrArg Sum.inl ?_
        have hl' := reg_mem_writes.mp hl
        rw [reg_after cpu k hreg, reg_after cpu' k hreg, if_pos hl', if_pos hl']
        exact hres
      · refine congrArg Sum.inr ?_
        have hl : .bit i ∈ k.writes := hl
        have hmem := (bit_mem_writes.mp hl).2
        rw [bit_after, bit_after, if_pos hl, if_pos hl, hflags]
        exact AluOp.flags_of_mem hmem _ _ _ _ _
    · obtain ⟨hs, hge⟩ := Classical.not_imp.mp hreg
      have hge := Nat.le_of_not_lt hge
      show Agree CpuState.get _ (k.exec cpu) (k.exec cpu')
      rw [exec_of_ge cpu k hs hge, exec_of_ge cpu' k hs hge]
      rfl

end AluCall

/-! ### Data processing -/

/-- The flags that a dispatched operation may write. -/
def OpCode.flagLocs (op : OpCode) (s : Bool) : List Loc :=
  match op with
  | .opAdd | .opSub => if s then [.bit 31, .bit 30, .bit 29, .bit 28] else []
  | .opAnd => if s then [.bit 31, .bit 30] else []
  | .opCmp | .opMov => [.bit 31, .bit 30]
  | _ => []

/-- The flags that it may also keep. -/
def OpCode.keptLocs : OpCode → List Loc
  | .opMov => [.bit 31, .bit 30]
  | _ => []

namespace DecodedDataProcessing

instance (inst : DecodedDataProcessing) : Decidable (RejectsIndex inst) :=
  inferInstanceAs (Decidable (_ ∨ _))

def reads (inst : DecodedDataProcessing) : List Loc :=
  .reg inst.rn.toNat :: (if inst.immediateMode then [] else [.reg inst.operand2.rm.toNat]) ++
    match OpCode.ofValue inst.op with
    | some op => op.keptLocs
    | none => []

def writes (inst : DecodedDataProcessing) : List Loc :=
  if RejectsIndex inst then [] else
    match OpCode.ofValue inst.op with
    | some op => (if op.writes then [.reg (resultReg inst).toNat] else []) ++
        op.flagLocs inst.setConditionCodes
    | none => []

variable {inst : DecodedDataProcessing}

/-- The call of an operation writes what the lists say, or keeps it. -/
theorem call_writes {op : OpCode} (hrej : ¬ RejectsIndex inst)
    (hop : OpCode.ofValue inst.op = some op) {a b : Word} {k : AluCall}
    (hk : op.call inst a b = some k) : k.op.carryLocs = [] ∧ (∀ l ∈ k.writes, l ∈ inst.writes) ∧
      ∀ l ∈ inst.writes, l ∉ k.writes → l ∈ inst.reads := by
  unfold writes reads
  rw [if_neg hrej, hop]
  cases op <;> cases hk
  case opMov =>
    refine ⟨rfl, ?_⟩
    unfold AluCall.writes
    by_cases hb : b = 0#32 <;>
      simp [hb, AluOp.updates, AluOp.stores, AluOp.flagLocs, OpCode.writes, OpCode.flagLocs,
        OpCode.keptLocs]
  all_goals
    refine ⟨rfl, fun l hl => ?_, fun l hl hnot => absurd ?_ hnot⟩ <;> exact hl

theorem exec_of_rejects (h : RejectsIndex inst) (cpu : CpuState) (f : FaultOut) :
    (CondInstr.dataProcessing inst f).exec cpu = .ok cpu := by
  show (dataProcOp cpu inst f).map DataProcResult.cpu = _
  rw [dataProcOp_of_rejects h]
  rfl

theorem exec_of_rn_ge (h : ¬ RejectsIndex inst) (hrn : 16 ≤ inst.rn.toNat) (cpu : CpuState)
    (f : FaultOut) : (CondInstr.dataProcessing inst f).exec cpu = .error .registerIndex := by
  show (dataProcOp cpu inst f).map DataProcResult.cpu = _
  rw [dataProcOp_of_rn_ge h hrn]
  rfl

/-- With valid indices the execution is the switch. -/
theorem exec_eq_switch (hv : inst.Valid) (cpu : CpuState) (f : FaultOut) :
    (CondInstr.dataProcessing inst f).exec cpu =
      dataProcSwitch cpu inst (cpu.reg inst.rn.toNat) (operand2Value cpu inst) := by
  obtain ⟨g, hg⟩ := dataProcOp_eq hv cpu f
  show (dataProcOp cpu inst f).map DataProcResult.cpu = _
  rw [hg]
  cases dataProcSwitch cpu inst (cpu.reg inst.rn.toNat) (operand2Value cpu inst) <;> rfl

theorem operands_congr {cpu cpu' : CpuState} (h : Set.EqOn cpu.get cpu'.get {l | l ∈ inst.reads}) :
    cpu.reg inst.rn.toNat = cpu'.reg inst.rn.toNat ∧
      operand2Value cpu inst = operand2Value cpu' inst := by
  refine ⟨reg_of_eqOn h List.mem_cons_self, ?_⟩
  unfold operand2Value
  cases hi : inst.immediateMode
  · have hrm : Loc.reg inst.operand2.rm.toNat ∈ inst.reads := by simp [reads, hi]
    rw [reg_of_eqOn h hrm]
  · rfl

theorem footprint_switch (hrej : ¬ RejectsIndex inst) (a b : Word) :
    Footprint CpuState.get (fun cpu => dataProcSwitch cpu inst a b) {l | l ∈ inst.reads}
      {l | l ∈ inst.writes} := by
  cases hop : OpCode.ofValue inst.op with
  | none =>
    simp only [dataProcSwitch_none _ hop]
    exact Footprint.fail _
  | some op =>
    simp only [dataProcSwitch_eq hop]
    cases hk : op.call inst a b with
    | none => exact Footprint.fail _
    | some k =>
      obtain ⟨hcarry, hsub, hkept⟩ := call_writes hrej hop hk
      refine (AluCall.footprint k).weaken (fun l hl => ?_) hsub hkept
      rw [hcarry] at hl
      cases hl

theorem footprint (inst : DecodedDataProcessing) (f : FaultOut) :
    Footprint CpuState.get (fun cpu => (CondInstr.dataProcessing inst f).exec cpu)
      {l | l ∈ inst.reads} {l | l ∈ inst.writes} := by
  by_cases hrej : RejectsIndex inst
  · have hnil : inst.writes = [] := if_pos hrej
    simp only [exec_of_rejects hrej, hnil]
    exact Footprint.ok.weaken (Set.empty_subset _) (Set.empty_subset _) fun l hl => by cases hl
  · rcases Nat.lt_or_ge inst.rn.toNat 16 with hrn | hrn
    · simp only [exec_eq_switch (valid_of_not_rejects hrej hrn)]
      refine Footprint.of_value
        (k := fun a cpu => dataProcSwitch cpu inst a (operand2Value cpu inst))
        (fun _ _ h => (operands_congr h).1) fun a => ?_
      exact Footprint.of_value (k := fun b cpu => dataProcSwitch cpu inst a b)
        (fun _ _ h => (operands_congr h).2) fun b => footprint_switch hrej a b
    · simp only [exec_of_rn_ge hrej hrn]
      exact Footprint.fail _

end DecodedDataProcessing

/-! ### Branches -/

/-- The flags that a condition reads. -/
def CondCode.flagLocs : CondCode → List Loc
  | .eq | .ne => [.bit 30]
  | .cs | .cc => [.bit 29]
  | .mi | .pl => [.bit 31]
  | .vs | .vc => [.bit 28]
  | .hi | .ls => [.bit 29, .bit 30]
  | .ge | .lt => [.bit 31, .bit 28]
  | .gt | .le => [.bit 30, .bit 31, .bit 28]
  | .al => []

/-- The flags that `cond_passed` reads. -/
def condLocs (cond : Word) : List Loc :=
  match CondCode.ofValue cond with
  | some c => c.flagLocs
  | none => []

/-- What a write under a condition may leave, unless the condition is `AL`. -/
def ifMayFail (cond : Word) (locs : List Loc) : List Loc :=
  if cond = CondCode.al.value then [] else locs

theorem condPassed_congr {cpu cpu' : CpuState} {cond : Word}
    (h : ∀ l ∈ condLocs cond, cpu.get l = cpu'.get l) :
    condPassed cond cpu.cpsr = condPassed cond cpu'.cpsr := by
  unfold condLocs at h
  unfold condPassed
  cases hc : CondCode.ofValue cond with
  | none => rfl
  | some c =>
    rw [hc] at h
    have hbit : ∀ k, .bit k ∈ c.flagLocs → cpu.cpsr.bit k = cpu'.cpsr.bit k :=
      fun k hk => Sum.inr.inj (h _ hk)
    refine congrArg Except.ok ?_
    cases c <;> simp only [CondCode.flagLocs, List.mem_cons, Loc.bit.injEq, List.not_mem_nil,
      or_false, forall_eq_or_imp, forall_eq, IsEmpty.forall_iff] at hbit <;>
      simp [condSwitch, hbit]

/-- The footprint of a computation under a condition. -/
theorem footprint_cond {g : CpuState → Except Abort CpuState} {cond : Word} {R W : List Loc}
    (hg : Footprint CpuState.get g {l | l ∈ R} {l | l ∈ W}) :
    Footprint CpuState.get
      (fun cpu => condPassed cond cpu.cpsr >>= fun passed => if passed then g cpu else .ok cpu)
      {l | l ∈ condLocs cond ++ R ++ ifMayFail cond W} {l | l ∈ W} := by
  by_cases hal : cond = CondCode.al.value
  · have htrue : ∀ cpu : CpuState, condPassed cond cpu.cpsr = .ok true := by
      intro cpu
      rw [hal]
      exact condPassed_value .al cpu.cpsr
    simp only [htrue, Run.ok_bind, if_true]
    exact hg.weaken (fun l hl => by simp [show l ∈ R from hl]) subset_rfl
      fun l hl hnot => absurd hl hnot
  · refine Footprint.of_value (v := fun cpu : CpuState => condPassed cond cpu.cpsr)
      (k := fun x cpu => x >>= fun passed => if passed then g cpu else .ok cpu) ?_ fun x => ?_
    · intro cpu cpu' h
      exact condPassed_congr fun l hl => h (by simp [hl])
    have hkept : ∀ l ∈ W, l ∈ condLocs cond ++ R ++ ifMayFail cond W := by
      intro l hl
      simp [ifMayFail, hal, hl]
    rcases x with e | passed
    · exact Footprint.fail e
    · cases passed
      · exact Footprint.ok.weaken (Set.empty_subset _) (Set.empty_subset _) fun l hl _ => hkept l hl
      · exact hg.weaken (fun l hl => by simp [show l ∈ R from hl]) subset_rfl
          fun l hl _ => hkept l hl

theorem footprint_setReg {i : ℕ} (hi : i < 16) (v : Word) :
    Footprint CpuState.get (fun cpu => (.ok (cpu.setReg i v) : Except Abort CpuState)) ∅
      {l | l ∈ [Loc.reg i]} where
  frame cpu cpu' h := by
    obtain rfl := Except.ok.inj h
    rintro (j | j) hl
    · exact congrArg Sum.inl (CpuState.reg_setReg_ne hi (fun h => hl (by simp [h])) cpu v)
    · rfl
  depends cpu cpu' _ := by
    intro l hl
    obtain rfl : l = .reg i := List.mem_singleton.mp hl
    show Sum.inl _ = Sum.inl _
    rw [CpuState.reg_setReg_self hi, CpuState.reg_setReg_self hi]

namespace DecodedB

def writes (inst : DecodedB) : List Loc := .reg 15 :: if inst.link then [.reg 14] else []

def reads (inst : DecodedB) : List Loc :=
  condLocs inst.cond ++ [.reg 15] ++ ifMayFail inst.cond inst.writes

theorem mem_writes {inst : DecodedB} {l : Loc} :
    l ∈ inst.writes ↔ l = .reg 15 ∨ l = .reg 14 ∧ inst.link = true := by
  unfold writes
  cases inst.link <;> simp

theorem footprint_taken (inst : DecodedB) :
    Footprint CpuState.get (fun cpu => (.ok (bTaken cpu inst) : Except Abort CpuState))
      {l | l ∈ [Loc.reg 15]} {l | l ∈ inst.writes} where
  frame cpu cpu' h := by
    obtain rfl := Except.ok.inj h
    rintro (i | i) hl
    · have hne : ¬ (Loc.reg i = .reg 15 ∨ Loc.reg i = .reg 14 ∧ inst.link = true) :=
        fun h => hl (mem_writes.mpr h)
      simp only [Loc.reg.injEq, not_or] at hne
      refine congrArg Sum.inl ?_
      rw [bTaken_reg, if_neg hne.1, if_neg hne.2]
    · exact congrArg (fun c => Sum.inr (c.bit i)) (bTaken_cpsr cpu inst)
  depends cpu cpu' h := by
    have hpc : cpu.reg 15 = cpu'.reg 15 := reg_of_eqOn h List.mem_cons_self
    intro l hl
    obtain rfl | ⟨rfl, hlink⟩ := mem_writes.mp hl
    · refine congrArg Sum.inl ?_
      rw [bTaken_reg, bTaken_reg, if_pos rfl, if_pos rfl, hpc]
    · refine congrArg Sum.inl ?_
      rw [bTaken_reg, bTaken_reg]
      simp [hlink, hpc]

theorem footprint (inst : DecodedB) (f : FaultOut) :
    Footprint CpuState.get (fun cpu => (CondInstr.b inst f).exec cpu) {l | l ∈ inst.reads}
      {l | l ∈ inst.writes} := by
  have hexec : (fun cpu => (CondInstr.b inst f).exec cpu) = fun cpu =>
      condPassed inst.cond cpu.cpsr >>= fun passed =>
        if passed then .ok (bTaken cpu inst) else .ok cpu := by
    funext cpu
    show (bOp cpu inst f).map Prod.fst = _
    rw [bOp_eq]
    rcases condPassed inst.cond cpu.cpsr with e | passed
    · rfl
    · cases passed <;> rfl
  rw [hexec]
  exact footprint_cond inst.footprint_taken

end DecodedB

namespace DecodedBx

def writes (_inst : DecodedBx) : List Loc := [.reg 15]

def reads (inst : DecodedBx) : List Loc :=
  condLocs inst.cond ++ [.reg inst.rn] ++ ifMayFail inst.cond inst.writes

/-- What `bx_op` does when the condition holds. -/
def jump (inst : DecodedBx) (cpu : CpuState) : Except Abort CpuState := do
  let targetAddress ← cpuGetReg cpu inst.rn
  let isThumb := (targetAddress &&& 1#32) != 0#32
  require (isThumb == false) .thumbTarget
  cpuSetReg cpu pcRegisterIndex (targetAddress &&& ~~~3#32)

theorem footprint_jump (inst : DecodedBx) :
    Footprint CpuState.get inst.jump {l | l ∈ [Loc.reg inst.rn]} {l | l ∈ inst.writes} := by
  refine Footprint.of_value (v := fun cpu => cpuGetReg cpu inst.rn) (k := fun x cpu =>
    x >>= fun target => require (((target &&& 1#32) != 0#32) == false) .thumbTarget >>= fun _ =>
      cpuSetReg cpu pcRegisterIndex (target &&& ~~~3#32)) ?_ fun x => ?_
  · intro cpu cpu' h
    have hreg : cpu.reg inst.rn = cpu'.reg inst.rn := reg_of_eqOn h List.mem_cons_self
    rcases Nat.lt_or_ge inst.rn 16 with hrn | hrn
    · rw [cpuGetReg_eq hrn, cpuGetReg_eq hrn, hreg]
    · rw [cpuGetReg_of_ge hrn, cpuGetReg_of_ge hrn]
  · rcases x with e | target
    · exact Footprint.fail e
    · simp only [Run.ok_bind, cpuSetReg_pc]
      cases ((target &&& 1#32) != 0#32) == false
      · exact Footprint.fail _
      · exact (footprint_setReg (by decide) _).weaken (Set.empty_subset _) subset_rfl
          fun l hl hnot => absurd hl hnot

theorem footprint (inst : DecodedBx) :
    Footprint CpuState.get (fun cpu => (CondInstr.bx inst).exec cpu) {l | l ∈ inst.reads}
      {l | l ∈ inst.writes} := by
  by_cases hpc : inst.rn = 15
  · have hexec : (fun cpu => (CondInstr.bx inst).exec cpu) = fun _ => .error .pcOperand := by
      funext cpu
      show bxOp cpu inst = _
      simp [bxOp, hpc, pcRegisterIndex]
    rw [hexec]
    exact Footprint.fail _
  · have hexec : (fun cpu => (CondInstr.bx inst).exec cpu) = fun cpu =>
        condPassed inst.cond cpu.cpsr >>= fun passed =>
          if passed then inst.jump cpu else .ok cpu := by
      funext cpu
      have hne : (inst.rn != pcRegisterIndex) = true := bne_iff_ne.mpr hpc
      show bxOp cpu inst = _
      simp only [bxOp, hne, require_true, Run.ok_bind]
      rcases condPassed inst.cond cpu.cpsr with e | passed
      · rfl
      · cases passed <;> rfl
    rw [hexec]
    exact footprint_cond inst.footprint_jump

end DecodedBx

/-! ### Programs -/

namespace CondInstr

def reads : CondInstr → List Loc
  | b inst _ => inst.reads
  | bx inst => inst.reads
  | dataProcessing inst _ => inst.reads

def writes : CondInstr → List Loc
  | b inst _ => inst.writes
  | bx inst => inst.writes
  | dataProcessing inst _ => inst.writes

theorem footprint (i : CondInstr) : Footprint CpuState.get (fun cpu => i.exec cpu)
    {l | l ∈ i.reads} {l | l ∈ i.writes} := by
  cases i with
  | b inst f => exact inst.footprint f
  | bx inst => exact inst.footprint
  | dataProcessing inst f => exact inst.footprint f

/-- What a program reads before it writes it. -/
def inputs (is : List CondInstr) : List Loc := exposed reads writes is

/-- What it may write. -/
def outputs (is : List CondInstr) : List Loc := is.flatMap writes

theorem footprint_run (is : List CondInstr) :
    Footprint CpuState.get (fun cpu => Run.run CondInstr.exec cpu is) {l | l ∈ inputs is}
      {l | l ∈ outputs is} :=
  Effect.footprint_run reads writes footprint is

/-- Neither writes what the other reads or writes. -/
def Independent (i j : CondInstr) : Prop :=
  (∀ l ∈ i.writes, l ∉ j.reads ∧ l ∉ j.writes) ∧ ∀ l ∈ j.writes, l ∉ i.reads ∧ l ∉ i.writes

instance (i j : CondInstr) : Decidable (Independent i j) := inferInstanceAs (Decidable (_ ∧ _))

theorem commute_of_independent {i j : CondInstr} (h : Independent i j) :
    Run.Commute CondInstr.exec i j :=
  Footprint.commute CpuState.eq_of_get i.footprint j.footprint h.1 h.2

end CondInstr

open CondInstr

/-- `CMP r1, r2` and `BEQ`. -/
def cmpBeq : List CondInstr :=
  [.dataProcessing (decode 0xE1710002#32 0).1 0, .b (decodeB 0x0A000002#32 0).1 0]

/-- **Data flow.** From two states that agree on what a program reads before it writes it, the
program stops at the same assertion, or it returns with the same values in everything it may
write; what it does not write is kept. -/
theorem program_depends (is : List CondInstr) (cpu cpu' : CpuState)
    (h : ∀ l ∈ inputs is, cpu.get l = cpu'.get l) :
    (∀ e, Run.run exec cpu is = .error e ↔ Run.run exec cpu' is = .error e) ∧
      ∀ c, Run.run exec cpu is = .ok c → (∀ l, l ∉ outputs is → c.get l = cpu.get l) ∧
        ∃ c', Run.run exec cpu' is = .ok c' ∧ ∀ l ∈ outputs is, c.get l = c'.get l := by
  have hfoot := footprint_run is
  have hagree := hfoot.depends cpu cpu' h
  have hagree' := hfoot.depends cpu' cpu (fun l hl => (h l hl).symm)
  refine ⟨fun e => ⟨hagree.error, hagree'.error⟩, fun c hc => ⟨hfoot.frame cpu c hc, ?_⟩⟩
  obtain ⟨c', hc', hout⟩ := hagree.ok hc
  exact ⟨c', hc', hout⟩

/-- `CMP r1, r2` and `BEQ` read `r1`, `r2` and the PC, and no flag. -/
theorem program_depends_cmp_beq :
    (∀ e, Run.run exec constructCpuState cmpBeq = .error e ↔
        Run.run exec { constructCpuState with cpsr := ⟨0xF0000000#32⟩ } cmpBeq = .error e) ∧
      ∀ c, Run.run exec constructCpuState cmpBeq = .ok c →
        (∀ l, l ∉ outputs cmpBeq → c.get l = constructCpuState.get l) ∧
        ∃ c', Run.run exec { constructCpuState with cpsr := ⟨0xF0000000#32⟩ } cmpBeq = .ok c' ∧
          ∀ l ∈ outputs cmpBeq, c.get l = c'.get l :=
  program_depends cmpBeq _ _ (by decide)

/-- **Order.** Instructions that are pairwise independent can be executed in any order. -/
theorem independent_any_order {is is' : List CondInstr} (hind : is.Pairwise Independent)
    (hperm : is.Perm is') (cpu : CpuState) :
    (Run.run exec cpu is).toOption = (Run.run exec cpu is').toOption := by
  have hcomm : is.Pairwise (Run.Commute exec) := hind.imp commute_of_independent
  exact Run.run_perm hperm hcomm cpu

/-- `CMP r1, r2` and a branch on V, in both orders. -/
theorem independent_any_order_cmp_bvs :
    (Run.run exec constructCpuState [.dataProcessing (decode 0xE1710002#32 0).1 0,
        .b ⟨0#32, CondCode.vs.value, true, 8#32⟩ 0]).toOption =
      (Run.run exec constructCpuState [.b ⟨0#32, CondCode.vs.value, true, 8#32⟩ 0,
        .dataProcessing (decode 0xE1710002#32 0).1 0]).toOption :=
  independent_any_order (by decide) (List.Perm.swap _ _ _) constructCpuState

/-- **Dead writes.** If an instruction stops at no assertion and the rest of the program
overwrites, without reading it, all that it writes, then without it the program leaves the same
registers and status word, or stops at the same assertion. What the instruction returns and
writes to `*fault_out` goes with it. -/
theorem dead_instruction (before : List CondInstr) (i : CondInstr) (after : List CondInstr)
    (hreturns : ∀ cpu, ∃ c, i.exec cpu = .ok c)
    (hdead : ∀ l ∈ i.writes, l ∉ inputs after ∧ l ∈ outputs after) (cpu : CpuState) :
    Run.run exec cpu (before ++ i :: after) = Run.run exec cpu (before ++ after) := by
  rw [Run.run_append, Run.run_append]
  refine congrArg _ (funext fun c => ?_)
  obtain ⟨c', hc'⟩ := hreturns c
  rw [Run.run_cons, hc', Run.ok_bind]
  exact Footprint.bind_of_dead CpuState.eq_of_get i.footprint (footprint_run after)
    (fun l hl => (hdead l hl).1) (fun l hl => (hdead l hl).2) hc'

/-- `AND` of `r0` and 2 into `r2` before `r1 + 2` is written there. -/
theorem dead_instruction_and_add :
    Run.run exec constructCpuState ([] ++ .dataProcessing (decode 0xE2000002#32 0).1 0 ::
        [.dataProcessing (decode 0xE2610002#32 0).1 0]) =
      Run.run exec constructCpuState ([] ++ [.dataProcessing (decode 0xE2610002#32 0).1 0]) :=
  dead_instruction [] _ _
    (fun cpu => ⟨_,
      (DecodedDataProcessing.exec_eq_switch (decode_valid 0xE2000002#32 0) cpu 0).trans
      (AluCall.exec_eq cpu ⟨.and, 2#8, cpu.reg 0, 2#32, false⟩ (show 2 < 16 by decide))⟩)
    (by decide) constructCpuState

end SimpleArm
