/-
# Conditional execution

An instruction whose condition fails is to do nothing. `b_op` and `bx_op` test
the condition before they write, and `data_proc_op` does not test it at all.
A data-processing instruction does nothing then only if it does nothing
anyway: it is refused for its register indices, or the register it writes
gets its own value back (`KeepsSelf`) and no flags are updated (`KeepsFlags`).
For every other one there is a state in which the condition fails and the
instruction changes a register or a flag (`skips_iff`).
-/
import SimpleArm.Branch
import SimpleArm.ResultRegister

namespace SimpleArm

/-- A decoded instruction of the three classes, with the `fault_out` it is executed with. -/
inductive CondInstr
  | b (inst : DecodedB) (faultOut : FaultOut)
  | bx (inst : DecodedBx)
  | dataProcessing (inst : DecodedDataProcessing) (faultOut : FaultOut)
deriving DecidableEq, Repr

namespace CondInstr

def cond : CondInstr → Word
  | b inst _ => inst.cond
  | bx inst => inst.cond
  | dataProcessing inst _ => inst.cond

/-- The registers and the status word that the execution leaves; the status that `data_proc_op`
returns and `*fault_out` are dropped. -/
def exec (cpu : CpuState) : CondInstr → Except Abort CpuState
  | b inst faultOut => (bOp cpu inst faultOut).map Prod.fst
  | bx inst => bxOp cpu inst
  | dataProcessing inst faultOut => (dataProcOp cpu inst faultOut).map DataProcResult.cpu

end CondInstr

/-- In every state in which the condition of the instruction fails, it returns and leaves
the state as it is. -/
def Skips (i : CondInstr) : Prop :=
  ∀ cpu, condPassed i.cond cpu.cpsr = .ok false → i.exec cpu = .ok cpu

/-! ### The branches -/

theorem skips_b (inst : DecodedB) (f : FaultOut) : Skips (.b inst f) := by
  intro cpu h
  exact congrArg (Except.map Prod.fst) (bOp_not_taken h f)

theorem skips_bx {inst : DecodedBx} (hrn : inst.rn ≠ 15) : Skips (.bx inst) := by
  intro cpu h
  have hpc : (inst.rn != pcRegisterIndex) = true := bne_iff_ne.mpr hrn
  have hcond : condPassed inst.cond cpu.cpsr = .ok false := h
  show bxOp cpu inst = .ok cpu
  simp only [bxOp, hpc, require_true, Run.ok_bind, hcond]
  rfl

/-! ### States in which a condition fails -/

theorem constructCpuState_reg (i : ℕ) : constructCpuState.reg i = 0#32 := by
  simp only [CpuState.reg, constructCpuState, constructRegisters, Vector.getElem?_replicate]
  split_ifs <;> rfl

/-- A status word in which the condition `c` fails, and which is not that of the result 0. -/
def CondCode.failing : CondCode → Cpsr
  | .ne => ⟨0xC0000000#32⟩
  | .cc | .ls => ⟨0x20000000#32⟩
  | .pl | .ge | .gt => ⟨0x80000000#32⟩
  | .vc => ⟨0x10000000#32⟩
  | _ => ⟨0#32⟩

theorem CondCode.failing_spec {c : CondCode} (hc : c ≠ .al) :
    condPassed c.value c.failing = .ok false ∧
      ¬ (c.failing.bit 31 = false ∧ c.failing.bit 30 = true) := by
  rw [condPassed_value]
  cases c <;> first | exact absurd rfl hc | exact ⟨by decide, by decide⟩

/-- The initial state with that status word. -/
def CondCode.failingState (c : CondCode) : CpuState := { constructCpuState with cpsr := c.failing }

theorem CondCode.failingState_cpsr (c : CondCode) : c.failingState.cpsr = c.failing := rfl

/-- And with the value `v` in the register `r`. -/
def CondCode.failingStateAt (c : CondCode) (r : RegisterIndexT) (v : Word) : CpuState :=
  { constructCpuState.setReg r.toNat v with cpsr := c.failing }

theorem CondCode.failingStateAt_cpsr (c : CondCode) (r : RegisterIndexT) (v : Word) :
    (c.failingStateAt r v).cpsr = c.failing := rfl

theorem CondCode.failingStateAt_reg {r : RegisterIndexT} (hr : r.toNat < 16) (c : CondCode)
    (v : Word) (i : ℕ) : (c.failingStateAt r v).reg i = if i = r.toNat then v else 0#32 := by
  rw [failingStateAt, CpuState.reg_withCpsr, CpuState.reg_setReg hr, constructCpuState_reg]

theorem CondCode.failingStateAt_reg_self {r : RegisterIndexT} (hr : r.toNat < 16) (c : CondCode)
    (v : Word) : (c.failingStateAt r v).reg r.toNat = v := by
  rw [failingStateAt_reg hr, if_pos rfl]

/-! ### Data processing -/

/-- An operation that would store updates no flags: `ORR` never does, `MOV` takes its second
operand for the S flag, and the others have the S flag. -/
def KeepsFlags (inst : DecodedDataProcessing) (op : OpCode) : Prop :=
  match op with
  | .opOrr => True
  | .opMov => inst.immediateMode = true ∧ resultReg inst = 0#8
  | _ => inst.setConditionCodes = false

/-- The instruction does nothing in any state. -/
def Harmless (inst : DecodedDataProcessing) : Prop :=
  16 ≤ inst.rd.toNat ∨ (inst.immediateMode = false ∧ 16 ≤ inst.operand2.rm.toNat) ∨
    (inst.rn.toNat < 16 ∧
      ∃ op, OpCode.ofValue inst.op = some op ∧ KeepsSelf inst op ∧ KeepsFlags inst op)

section Execution

variable {inst : DecodedDataProcessing} {op : OpCode}

theorem KeepsSelf.writes (h : KeepsSelf inst op) : op.writes = true := by
  obtain ⟨-, rfl | ⟨-, rfl | rfl⟩ | ⟨-, -, rfl | rfl | rfl⟩⟩ := h <;> rfl

theorem KeepsFlags.updates {cpu : CpuState} {a : Word} {k : AluCall} (h : KeepsFlags inst op)
    (hk : op.call inst a (operand2Value cpu inst) = some k) (hw : op.writes = true) :
    k.op.updates k.risesCpsr = false := by
  cases op <;> cases hw <;> cases hk
  case opOrr => rfl
  case opMov =>
    obtain ⟨hi, h0⟩ := h
    have hzero : operand2Value cpu inst = 0#32 := by
      rw [operand2Value, hi, if_pos rfl, Operand2.imm8_eq_rm, show inst.operand2.rm = 0#8 from h0]
      rfl
    rw [hzero]
    rfl
  all_goals exact h

/-- The call of an instruction that does not keep the flags updates them, from a first operand
that is not 0. -/
theorem updates_of_not_keepsFlags {cpu : CpuState} {a : Word} {k : AluCall}
    (h : ¬ KeepsFlags inst op) (hself : KeepsSelf inst op) (hrn : cpu.reg inst.rn.toNat ≠ 0#32)
    (hk : op.call inst a (operand2Value cpu inst) = some k) :
    k.op.updates k.risesCpsr = true := by
  have hw := hself.writes
  cases op <;> cases hw <;> cases hk
  case opOrr => exact absurd trivial h
  case opMov =>
    have hne : operand2Value cpu inst ≠ 0#32 := by
      unfold operand2Value
      cases hi : inst.immediateMode
      · have hrm : inst.operand2.rm.toNat = inst.rn.toNat := hself.1
        simpa [hrm] using hrn
      · intro hzero
        refine h ⟨hi, BitVec.eq_of_toNat_eq ?_⟩
        have hnat := congrArg BitVec.toNat hzero
        have hlt := inst.operand2.rm.isLt
        rw [if_pos rfl, Operand2.imm8_eq_rm, BitVec.toNat_setWidth] at hnat
        rw [resultReg]
        simp only [BitVec.toNat_ofNat] at hnat ⊢
        omega
    exact bne_iff_ne.mpr hne
  all_goals exact Bool.eq_true_of_not_eq_false h

theorem after_eq_self {cpu : CpuState} {k : AluCall} (hs : k.op.stores = true)
    (hres : k.result cpu = cpu.reg k.reg.toNat) (hu : k.op.updates k.risesCpsr = false) :
    k.after cpu = cpu := by
  rw [AluCall.after, hs, if_pos rfl, hres, CpuState.setReg_reg, AluCall.cpsrAfter, hu]
  rfl

theorem exec_of_harmless (h : Harmless inst) (cpu : CpuState) (f : FaultOut) :
    (CondInstr.dataProcessing inst f).exec cpu = .ok cpu := by
  show (dataProcOp cpu inst f).map DataProcResult.cpu = .ok cpu
  by_cases hrej : RejectsIndex inst
  · rw [dataProcOp_of_rejects hrej]
    rfl
  · obtain ⟨hrn, op, hop, hself, hflags⟩ := (or_assoc.mpr h).resolve_left hrej
    have hv := valid_of_not_rejects hrej hrn
    obtain ⟨k, hk, hs, hreg, hres⟩ := OpCode.call_of_stored (storedBy_keepsSelf hself cpu) inst
    have hafter : k.after cpu = cpu :=
      after_eq_self hs ((hres cpu).trans (by rw [hreg])) (hflags.updates hk hself.writes)
    have hfit : k.reg.toNat < 16 := by
      rw [hreg, hself.1]
      exact hrn
    obtain ⟨out, ho, hout⟩ := (dataProcOp_eq_ok_iff hop cpu hv f cpu).mpr
      ⟨k, hk, (AluCall.exec_eq_ok_iff cpu cpu k).mpr ⟨fun _ => hfit, hafter⟩⟩
    rw [ho, ← hout]
    rfl

end Execution

/-! ### An instruction that is not harmless -/

section Harmful

variable {inst : DecodedDataProcessing} {op : OpCode} {c : CondCode} {f : FaultOut}

/-- A skipped instruction is, in any state with the failing status word, a call that changes
nothing, if its indices are valid. -/
theorem call_of_skips (hskips : Skips (.dataProcessing inst f)) (hcond : inst.cond = c.value)
    (hc : c ≠ .al) (hv : inst.Valid) (hop : OpCode.ofValue inst.op = some op) {cpu : CpuState}
    (hcpsr : cpu.cpsr = c.failing) :
    ∃ k, op.call inst (cpu.reg inst.rn.toNat) (operand2Value cpu inst) = some k ∧
      (k.op.stores = true → k.reg.toNat < 16) ∧ k.after cpu = cpu := by
  have hfail : condPassed inst.cond cpu.cpsr = .ok false := by
    rw [hcond, hcpsr]
    exact (CondCode.failing_spec hc).1
  obtain ⟨out, ho, hout⟩ := Run.map_eq_ok.mp (hskips cpu hfail)
  obtain ⟨k, hk, hexec⟩ := (dataProcOp_eq_ok_iff hop cpu hv f cpu).mp ⟨out, ho, hout⟩
  exact ⟨k, hk, (AluCall.exec_eq_ok_iff cpu cpu k).mp hexec⟩

theorem flags_of_after_eq {cpu : CpuState} {k : AluCall} (hafter : k.after cpu = cpu)
    (hu : k.op.updates k.risesCpsr = true) : cpu.cpsr.bit 31 = (k.result cpu).msb ∧
      cpu.cpsr.bit 30 = (k.result cpu == 0#32) := by
  have hcpsr : k.cpsrAfter cpu = cpu.cpsr := congrArg CpuState.cpsr hafter
  obtain ⟨hn, hz⟩ := k.op.flags_nz (carryIn cpu) k.operand1 k.operand2 cpu.cpsr
  rw [AluCall.cpsrAfter, hu, if_pos rfl] at hcpsr
  rw [hcpsr] at hn hz
  exact ⟨hn, hz⟩

theorem result_of_after_eq {cpu : CpuState} {k : AluCall} (hafter : k.after cpu = cpu)
    (hs : k.op.stores = true) (hreg : k.reg.toNat < 16) :
    k.result cpu = cpu.reg k.reg.toNat := by
  have hr := k.reg_after cpu (fun _ => hreg) k.reg.toNat
  rw [hafter, if_pos ⟨hs, rfl⟩] at hr
  exact hr.symm

variable (hskips : Skips (.dataProcessing inst f)) (hcond : inst.cond = c.value) (hc : c ≠ .al)
  (hv : inst.Valid) (hop : OpCode.ofValue inst.op = some op)

include hskips hcond hc hv hop

/-- `CMP` of equal operands sets Z and clears N. -/
theorem ne_cmp_of_skips : op ≠ .opCmp := by
  rintro rfl
  -- the immediate, or the 0 that is in every other register
  obtain ⟨b, hb⟩ : ∃ b, operand2Value (c.failingStateAt inst.rn b) inst = b := by
    unfold operand2Value
    cases inst.immediateMode
    · refine ⟨0#32, ?_⟩
      rw [if_neg Bool.false_ne_true, CondCode.failingStateAt_reg hv.rn, ite_self]
    · exact ⟨inst.operand2.imm8.setWidth 32, if_pos rfl⟩
  have hcpsr := c.failingStateAt_cpsr inst.rn b
  obtain ⟨k, hk, -, hafter⟩ := call_of_skips hskips hcond hc hv hop hcpsr
  rw [CondCode.failingStateAt_reg_self hv.rn, hb] at hk
  obtain rfl := Option.some.inj hk
  obtain ⟨hn, hz⟩ := flags_of_after_eq hafter rfl
  have hzero : AluCall.result (c.failingStateAt inst.rn b)
      ⟨.cmp, resultReg inst, b, b, inst.setConditionCodes⟩ = 0#32 := BitVec.sub_self b
  rw [hzero, hcpsr] at hn hz
  exact (CondCode.failing_spec hc).2 ⟨hn, hz⟩

theorem keepsSelf_of_skips (hw : op.writes = true) : KeepsSelf inst op := by
  have hcall : ∀ cpu : CpuState, cpu.cpsr = c.failing →
      (resultReg inst).toNat < 16 ∧
        storedBy inst op cpu = some (cpu.reg (resultReg inst).toNat) := by
    intro cpu hcpsr
    obtain ⟨k, hk, hfit, hafter⟩ := call_of_skips hskips hcond hc hv hop hcpsr
    obtain ⟨v, hst⟩ := Option.isSome_iff_exists.mp
      ((op.stored_isSome (cpu.reg inst.rn.toNat) (operand2Value cpu inst)).trans hw)
    obtain ⟨k', hk', hs, hreg, hres⟩ := OpCode.call_of_stored hst inst
    obtain rfl := Option.some.inj (hk.symm.trans hk')
    have hresult := result_of_after_eq hafter hs (hfit hs)
    rw [hres, hreg] at hresult
    exact ⟨hreg ▸ hfit hs, hst.trans (congrArg some hresult)⟩
  have ht := (hcall c.failingState c.failingState_cpsr).1
  by_contra hself
  obtain ⟨cpu, hcpu⟩ := exists_storedBy_ne hw ht hv hself
  exact hcpu (hcall { cpu with cpsr := c.failing } rfl).2

/-- A skipped operation updates no flags: a first operand of the other sign would change N. -/
theorem keepsFlags_of_skips (hself : KeepsSelf inst op) : KeepsFlags inst op := by
  by_contra hflags
  obtain ⟨a, ha0, hsign⟩ : ∃ a : Word, a ≠ 0#32 ∧ c.failing.bit 31 ≠ a.msb := by
    cases c.failing.bit 31
    · exact ⟨0x80000000#32, by decide, by decide⟩
    · exact ⟨1#32, by decide, by decide⟩
  have hcpsr := c.failingStateAt_cpsr inst.rn a
  have hrn : (c.failingStateAt inst.rn a).reg inst.rn.toNat = a :=
    CondCode.failingStateAt_reg_self hv.rn c a
  obtain ⟨k, hk, hfit, hafter⟩ := call_of_skips hskips hcond hc hv hop hcpsr
  obtain ⟨k', hk', hs, hreg, hres⟩ := OpCode.call_of_stored (storedBy_keepsSelf hself _) inst
  obtain rfl := Option.some.inj (hk.symm.trans hk')
  have hu := updates_of_not_keepsFlags hflags hself (hrn.symm ▸ ha0) hk
  have hn := (flags_of_after_eq hafter hu).1
  rw [hres, hself.1, hrn, hcpsr] at hn
  exact hsign hn

end Harmful

theorem harmless_of_skips {inst : DecodedDataProcessing} {c : CondCode} {f : FaultOut}
    (hskips : Skips (.dataProcessing inst f)) (hcond : inst.cond = c.value) (hc : c ≠ .al) :
    Harmless inst := by
  by_cases hrej : RejectsIndex inst
  · exact or_assoc.mp (Or.inl hrej)
  have hfail : condPassed inst.cond c.failing = .ok false := by
    rw [hcond]
    exact (CondCode.failing_spec hc).1
  have hskip : (dataProcOp c.failingState inst f).map DataProcResult.cpu = .ok c.failingState :=
    hskips c.failingState hfail
  have hrn : inst.rn.toNat < 16 := by
    by_contra hge
    rw [dataProcOp_of_rn_ge hrej (Nat.le_of_not_lt hge)] at hskip
    cases hskip
  have hv := valid_of_not_rejects hrej hrn
  cases hop : OpCode.ofValue inst.op with
  | none =>
    obtain ⟨g, hg⟩ := dataProcOp_eq hv c.failingState f
    rw [hg, dataProcSwitch_none _ hop] at hskip
    cases hskip
  | some op =>
    have hcmp := ne_cmp_of_skips hskips hcond hc hv hop
    have hw : op.writes = true := by
      obtain ⟨k, hk, -⟩ := call_of_skips hskips hcond hc hv hop c.failingState_cpsr
      have hd := op.call_isSome inst (c.failingState.reg inst.rn.toNat)
        (operand2Value c.failingState inst)
      rw [hk] at hd
      simpa [OpCode.dispatched, hcmp] using hd.symm
    have hself := keepsSelf_of_skips hskips hcond hc hv hop hw
    exact Or.inr (Or.inr ⟨hrn, op, hop, hself, keepsFlags_of_skips hskips hcond hc hv hop hself⟩)

/-- Whether an instruction with the condition `c` is skipped when it fails. -/
def SkippedClass (c : CondCode) : CondInstr → Prop
  | .b .. | .bx .. => True
  | .dataProcessing inst _ => c = .al ∨ Harmless inst

/-- **Conditional execution.** For every instruction whose condition is an enumerator, the
state is left alone in all states in which the condition fails exactly when the instruction
is a branch, or its condition is `AL`, or it does nothing in any state. -/
theorem skips_iff (i : CondInstr) (c : CondCode) (hcond : i.cond = c.value)
    (hrn : ∀ inst, i = .bx inst → inst.rn ≠ 15) : Skips i ↔ SkippedClass c i := by
  cases i with
  | b inst f => exact iff_of_true (skips_b inst f) trivial
  | bx inst => exact iff_of_true (skips_bx (hrn inst rfl)) trivial
  | dataProcessing inst f =>
    constructor
    · intro hskips
      by_cases hc : c = .al
      · exact Or.inl hc
      · exact Or.inr (harmless_of_skips hskips hcond hc)
    · rintro (rfl | h) cpu hfail
      · rw [hcond, condPassed_value] at hfail
        cases hfail
      · exact exec_of_harmless h cpu f

/-- `ORRNE r1, r1, r1`, which does nothing. -/
def orrSelf : DecodedDataProcessing := (decode 0x10211001#32 0).1

theorem orrSelf_harmless : Harmless orrSelf := by
  have hself : KeepsSelf orrSelf .opOrr := ⟨rfl, Or.inr (Or.inl ⟨rfl, Or.inr rfl⟩)⟩
  exact Or.inr (Or.inr ⟨by decide, .opOrr, by decide, hself, trivial⟩)

theorem skips_orrSelf : Skips (.dataProcessing orrSelf 0) :=
  (skips_iff (.dataProcessing orrSelf 0) .ne (by decide) (fun _ h => by cases h)).mpr
    (Or.inr orrSelf_harmless)

/-- `ADDEQ r0, r1, r2` with Z clear: `r2` is overwritten. -/
theorem add_not_skipped :
    condPassed (decode 0x00610002#32 0).1.cond constructCpsr = .ok false ∧
      (dataProcOp (constructCpuState.setReg 1 5#32) (decode 0x00610002#32 0).1 0).map
        (fun out => out.cpu.reg 2) = .ok 5#32 ∧
      ¬ Skips (.dataProcessing (decode 0x00610002#32 0).1 0) := by
  have hrun : (dataProcOp (constructCpuState.setReg 1 5#32) (decode 0x00610002#32 0).1 0).map
      (fun out => out.cpu.reg 2) = .ok 5#32 := by
    decide
  refine ⟨by decide, hrun, fun hskips => ?_⟩
  have hskip : (dataProcOp (constructCpuState.setReg 1 5#32) (decode 0x00610002#32 0).1 0).map
      DataProcResult.cpu = .ok (constructCpuState.setReg 1 5#32) :=
    hskips (constructCpuState.setReg 1 5#32) (by decide)
  obtain ⟨out, ho, hcpu⟩ := Run.map_eq_ok.mp hskip
  rw [ho] at hrun
  have h2 : out.cpu.reg 2 = 5#32 := Except.ok.inj hrun
  rw [hcpu] at h2
  exact absurd h2 (by decide)

end SimpleArm
