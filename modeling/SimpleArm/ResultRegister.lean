/-
# The register that `data_proc_op` writes

`data_proc_op` gives its operations `reg_operand.rm` to write, not `rd`. In
register mode that is the second operand's register. In immediate mode it is
the immediate itself, any byte: from 16 on it fails the assertion of
`cpu_set_reg` (`no_registerIndex_iff`), below 16 it is the register of that
number. So the destination is `rd` only where `rm` happens to be `rd`; the
other instructions that change nothing but `rd` are `CMP` and the few that
write a register's own value back to it (`KeepsSelf`, `keepsOthers_iff`).
-/
import SimpleArm.DataProcessing

namespace SimpleArm

open BitField

/-! ### The register-index assertions -/

/-- A call with valid indices stops at a register index only to write to one from 16 on. -/
theorem dataProcOp_registerIndex_iff {inst : DecodedDataProcessing} {op : OpCode}
    (hv : inst.Valid) (hop : OpCode.ofValue inst.op = some op) (cpu : CpuState) (f : FaultOut) :
    dataProcOp cpu inst f = .error .registerIndex ↔
      op.writes = true ∧ 16 ≤ (resultReg inst).toNat := by
  obtain ⟨g, hg⟩ := dataProcOp_eq hv cpu f
  rw [hg]
  have hs := op.stored_isSome (cpu.reg inst.rn.toNat) (operand2Value cpu inst)
  rcases hst : op.stored (cpu.reg inst.rn.toNat) (operand2Value cpu inst) with _ | v
  · rw [hst] at hs
    refine iff_of_false (fun he => ?_) fun h => by simp [← hs] at h
    by_cases hc : op = .opCmp
    · rw [dataProcSwitch_cmp hop cpu hc] at he
      cases he
    · rw [dataProcSwitch_other hop cpu hst hc] at he
      cases he
  · rw [hst] at hs
    rcases Nat.lt_or_ge (resultReg inst).toNat 16 with ht | ht
    · obtain ⟨c, hc⟩ := dataProcSwitch_stored hop cpu hst ht
      rw [hc]
      refine iff_of_false (fun he => ?_) fun h => absurd ht (Nat.not_lt.mpr h.2)
      cases he
    · rw [dataProcSwitch_of_ge hop cpu hst ht]
      exact iff_of_true rfl ⟨hs.symm, ht⟩

/-- **When the indices stay in range.** `data_proc_op` on a decoded word runs into no
register-index assertion exactly when the word is in register form, or its immediate is
below 16, or its opcode is not one of the five that are dispatched and write. -/
theorem no_registerIndex_iff (w : Word) (f g : FaultOut) (cpu : CpuState) :
    dataProcOp cpu (decode w f).1 g ≠ .error .registerIndex ↔
      w.getLsbD 25 = false ∨ (field w 0 8).toNat < 16 ∨
        (OpCode.ofField (field w 21 4)).writes = false := by
  have hop : OpCode.ofValue (decode w f).1.op = some (OpCode.ofField (field w 21 4)) := by
    rw [decode_op, OpCode.ofValue_field]
  rw [ne_eq, dataProcOp_registerIndex_iff (decode_valid w f) hop, resultReg, decode_rm]
  have hr := (field w 0 4).isLt
  cases w.getLsbD 25
  · simp only [Bool.false_eq_true, if_false, true_or, iff_true]
    omega
  · cases (OpCode.ofField (field w 21 4)).writes <;> simp

/-- `ANDEQ r0, r0, #16` writes to register 16. -/
theorem registerIndex_and_imm16 :
    dataProcOp constructCpuState (decode 0x02000010#32 0).1 0 = .error .registerIndex := by
  decide

/-! ### The frame -/

/-- The operations that the switch dispatches to. -/
def OpCode.dispatched (op : OpCode) : Bool := op.writes || op == .opCmp

theorem OpCode.call_isSome (op : OpCode) (inst : DecodedDataProcessing) (a b : Word) :
    (op.call inst a b).isSome = op.dispatched := by
  cases op <;> rfl

/-- A call leaves every register but `rd` alone, and `CMP` leaves all of them alone. -/
def KeepsOthers (inst : DecodedDataProcessing) (cpu : CpuState) (f : FaultOut) : Prop :=
  ∀ out, dataProcOp cpu inst f = .ok out →
    (∀ i, i < 16 → i ≠ inst.rd.toNat → out.cpu.reg i = cpu.reg i) ∧
      (OpCode.ofValue inst.op = some .opCmp → ∀ i, i < 16 → out.cpu.reg i = cpu.reg i)

/-- The instruction stores what its result register holds, whatever that is: it is given
its first operand's register to write, and the operation returns its first operand. -/
def KeepsSelf (inst : DecodedDataProcessing) (op : OpCode) : Prop :=
  (resultReg inst).toNat = inst.rn.toNat ∧
    (op = .opMov ∨
      (inst.immediateMode = false ∧ (op = .opAnd ∨ op = .opOrr)) ∨
      (inst.immediateMode = true ∧ resultReg inst = 0#8 ∧
        (op = .opAdd ∨ op = .opSub ∨ op = .opOrr)))

section Frame

variable {inst : DecodedDataProcessing} {op : OpCode} (hv : inst.Valid)
  (hop : OpCode.ofValue inst.op = some op)

/-- The value stored, in the state `cpu`. -/
def storedBy (inst : DecodedDataProcessing) (op : OpCode) (cpu : CpuState) : Option Word :=
  op.stored (cpu.reg inst.rn.toNat) (operand2Value cpu inst)

include hv hop

theorem dataProcOp_regs {cpu : CpuState} {v : Word} (hst : storedBy inst op cpu = some v)
    (ht : (resultReg inst).toNat < 16) (f : FaultOut) : ∃ out, dataProcOp cpu inst f = .ok out ∧
      ∀ i, out.cpu.reg i = if i = (resultReg inst).toNat then v else cpu.reg i := by
  obtain ⟨g, hg⟩ := dataProcOp_eq hv cpu f
  obtain ⟨c, hc⟩ := dataProcSwitch_stored hop cpu hst ht
  rw [hg, hc]
  exact ⟨_, rfl, fun i => CpuState.reg_setReg ht cpu v i⟩

theorem dataProcOp_cmp (hc : op = .opCmp) (cpu : CpuState) (f : FaultOut) :
    ∃ out, dataProcOp cpu inst f = .ok out ∧ ∀ i, out.cpu.reg i = cpu.reg i := by
  obtain ⟨g, hg⟩ := dataProcOp_eq hv cpu f
  rw [hg, dataProcSwitch_cmp hop cpu hc]
  exact ⟨_, rfl, fun i => rfl⟩

/-- In one state: the frame holds of a writing instruction when it writes `rd`, when it
stops before it writes, or when the register it writes keeps its value. -/
theorem keepsOthers_iff_state (hw : op.writes = true) (cpu : CpuState) (f : FaultOut) :
    KeepsOthers inst cpu f ↔ (resultReg inst).toNat = inst.rd.toNat ∨
      16 ≤ (resultReg inst).toNat ∨
        storedBy inst op cpu = some (cpu.reg (resultReg inst).toNat) := by
  have hnc : op ≠ .opCmp := by
    rintro rfl
    cases hw
  obtain ⟨v, hst⟩ : ∃ v, storedBy inst op cpu = some v := by
    rw [← Option.isSome_iff_exists, storedBy, op.stored_isSome, hw]
  rcases Nat.lt_or_ge (resultReg inst).toNat 16 with ht | ht
  · obtain ⟨out, ho, hregs⟩ := dataProcOp_regs hv hop hst ht f
    have hcmp : OpCode.ofValue inst.op ≠ some .opCmp := fun h =>
      hnc (Option.some.inj (hop.symm.trans h))
    constructor
    · intro h
      by_cases hrd : (resultReg inst).toNat = inst.rd.toNat
      · exact Or.inl hrd
      · have hkeep := (h out ho).1 _ ht hrd
        rw [hregs, if_pos rfl] at hkeep
        exact Or.inr (Or.inr (hst.trans (congrArg some hkeep)))
    · intro h out' ho'
      obtain rfl : out' = out := Except.ok.inj (ho'.symm.trans ho)
      refine ⟨fun i _ hi => ?_, fun hc => absurd hc hcmp⟩
      rw [hregs]
      split_ifs with hit
      · rcases h with h | h | h
        · exact absurd (hit.trans h) hi
        · omega
        · rw [hit]
          exact Option.some.inj (hst.symm.trans h)
      · rfl
  · have herr := (dataProcOp_registerIndex_iff hv hop cpu f).mpr ⟨hw, ht⟩
    refine iff_of_true (fun out ho => ?_) (Or.inr (Or.inl ht))
    rw [herr] at ho
    cases ho

end Frame

/-! ### Instructions that write a register back to itself -/

theorem Operand2.imm8_eq_rm (o : Operand2) : o.imm8 = o.rm := by
  cases o <;> rfl

theorem storedBy_keepsSelf {inst : DecodedDataProcessing} {op : OpCode} (h : KeepsSelf inst op)
    (cpu : CpuState) : storedBy inst op cpu = some (cpu.reg (resultReg inst).toNat) := by
  obtain ⟨ht, h⟩ := h
  unfold storedBy operand2Value
  rw [ht]
  rcases h with rfl | ⟨hi, h⟩ | ⟨hi, h0, h⟩
  · rfl
  · -- the second operand is the same register
    have hrm : inst.operand2.rm.toNat = inst.rn.toNat := ht
    rw [hi, hrm]
    rcases h with rfl | rfl <;> simp [OpCode.stored]
  · have himm : inst.operand2.imm8 = 0#8 := (Operand2.imm8_eq_rm _).trans h0
    rw [hi, himm]
    rcases h with rfl | rfl | rfl <;> simp [OpCode.stored]

theorem exists_stored_ne {op : OpCode} (hw : op.writes = true) :
    ∃ a b, op.stored a b ≠ some b := by
  cases op <;> cases hw
  case opAnd => exact ⟨0#32, 1#32, by decide⟩
  all_goals exact ⟨1#32, 0#32, by decide⟩

/-- An operation that gives back any first operand, when that is the second too, is
`AND`, `ORR` or `MOV`. -/
theorem stored_self_ne {op : OpCode} (hw : op.writes = true)
    (h : ¬ (op = .opMov ∨ op = .opAnd ∨ op = .opOrr)) : op.stored 1#32 1#32 ≠ some 1#32 := by
  cases op <;> cases hw
  case opAdd => decide
  case opSub => decide
  all_goals exact absurd (by simp) h

/-- An operation that gives back any first operand, when the second is the constant `k`, is
`MOV`, or `k` is neutral for it. -/
theorem exists_stored_const_ne {op : OpCode} {k : Word} (hw : op.writes = true)
    (hk : k.toNat < 16)
    (h : ¬ (op = .opMov ∨ k = 0#32 ∧ (op = .opAdd ∨ op = .opSub ∨ op = .opOrr))) :
    ∃ a, op.stored a k ≠ some a := by
  cases op <;> cases hw
  case opMov => exact absurd (Or.inl rfl) h
  case opAnd =>
    refine ⟨BitVec.allOnes 32, fun he => ?_⟩
    have hka : k = BitVec.allOnes 32 := BitVec.allOnes_and.symm.trans (Option.some.inj he)
    rw [hka] at hk
    exact absurd hk (by decide)
  all_goals
    have hne : k ≠ 0#32 := fun h0 => h (Or.inr ⟨h0, by simp⟩)
    exact ⟨0#32, by simpa [OpCode.stored] using hne⟩

section Changes

variable {inst : DecodedDataProcessing} {op : OpCode} (hw : op.writes = true)
  (ht : (resultReg inst).toNat < 16)

/-- The state with `a` in the first operand's register and then `b` in the result register. -/
def operandState (inst : DecodedDataProcessing) (a b : Word) : CpuState :=
  (constructCpuState.setReg inst.rn.toNat a).setReg (resultReg inst).toNat b

include ht in
theorem operandState_result (a b : Word) :
    (operandState inst a b).reg (resultReg inst).toNat = b :=
  CpuState.reg_setReg_self ht _ b

include ht in
theorem operand2Value_operandState (a b : Word) : operand2Value (operandState inst a b) inst =
    if inst.immediateMode then inst.operand2.imm8.setWidth 32 else b := by
  have h := operandState_result ht a b
  simp only [operand2Value]
  rw [show (operandState inst a b).reg inst.operand2.rm.toNat = b from h]

include ht in
theorem operandState_operand1 (hv : inst.Valid)
    (hrn : (resultReg inst).toNat ≠ inst.rn.toNat) (a b : Word) :
    (operandState inst a b).reg inst.rn.toNat = a := by
  rw [operandState, CpuState.reg_setReg_ne ht (Ne.symm hrn), CpuState.reg_setReg_self hv.rn]

include hw ht

/-- The result register is not the first operand's: it can hold anything else. -/
theorem exists_storedBy_ne_of_ne (hv : inst.Valid)
    (hrn : (resultReg inst).toNat ≠ inst.rn.toNat) :
    ∃ cpu, storedBy inst op cpu ≠ some (cpu.reg (resultReg inst).toNat) := by
  suffices hex : ∃ a b, op.stored a (if inst.immediateMode then inst.operand2.imm8.setWidth 32
      else b) ≠ some b by
    obtain ⟨a, b, hab⟩ := hex
    refine ⟨operandState inst a b, ?_⟩
    rwa [storedBy, operandState_result ht, operandState_operand1 ht hv hrn,
      operand2Value_operandState ht]
  cases inst.immediateMode
  · exact exists_stored_ne hw
  · obtain ⟨v, hst⟩ := Option.isSome_iff_exists.mp
      ((op.stored_isSome 0#32 (inst.operand2.imm8.setWidth 32)).trans hw)
    refine ⟨0#32, v + 1#32, ?_⟩
    rw [if_pos rfl, hst]
    intro he
    have := Option.some.inj he
    bv_omega

theorem exists_storedBy_ne_of_eq (hrn : (resultReg inst).toNat = inst.rn.toNat)
    (h : ¬ KeepsSelf inst op) :
    ∃ cpu, storedBy inst op cpu ≠ some (cpu.reg (resultReg inst).toNat) := by
  suffices hex : ∃ a, op.stored a (if inst.immediateMode then inst.operand2.imm8.setWidth 32
      else a) ≠ some a by
    obtain ⟨a, ha⟩ := hex
    refine ⟨operandState inst a a, ?_⟩
    rw [storedBy, operand2Value_operandState ht, ← hrn]
    rwa [operandState_result ht]
  cases hi : inst.immediateMode
  · refine ⟨1#32, stored_self_ne hw fun ho => h ⟨hrn, ?_⟩⟩
    rcases ho with ho | ho
    · exact Or.inl ho
    · exact Or.inr (Or.inl ⟨hi, ho⟩)
  · have hk : (inst.operand2.imm8.setWidth 32).toNat = (resultReg inst).toNat := by
      have := inst.operand2.imm8.isLt
      rw [BitVec.toNat_setWidth, resultReg, ← Operand2.imm8_eq_rm]
      exact Nat.mod_eq_of_lt (by omega)
    simp only [if_true]
    refine exists_stored_const_ne hw (hk ▸ ht) fun ho => h ⟨hrn, ?_⟩
    rcases ho with ho | ⟨h0, ho⟩
    · exact Or.inl ho
    · have h8 : resultReg inst = 0#8 := BitVec.eq_of_toNat_eq (by rw [← hk, h0]; rfl)
      exact Or.inr (Or.inr ⟨hi, h8, ho⟩)

theorem exists_storedBy_ne (hv : inst.Valid) (h : ¬ KeepsSelf inst op) :
    ∃ cpu, storedBy inst op cpu ≠ some (cpu.reg (resultReg inst).toNat) := by
  by_cases hrn : (resultReg inst).toNat = inst.rn.toNat
  · exact exists_storedBy_ne_of_eq hw ht hrn h
  · exact exists_storedBy_ne_of_ne hw ht hv hrn

end Changes

/-- **Which instructions write no register but `rd`.** For a dispatched instruction with
valid indices the frame holds in every state exactly when it is `CMP`, or the register it
is given to write is `rd`, or that is no register, or the register keeps its value. -/
theorem keepsOthers_iff (inst : DecodedDataProcessing) (op : OpCode) (hv : inst.Valid)
    (hop : OpCode.ofValue inst.op = some op) (hd : op.dispatched = true) :
    (∀ cpu f, KeepsOthers inst cpu f) ↔ op = .opCmp ∨
      (resultReg inst).toNat = inst.rd.toNat ∨ 16 ≤ (resultReg inst).toNat ∨
        KeepsSelf inst op := by
  by_cases hc : op = .opCmp
  · refine iff_of_true (fun cpu f out ho => ?_) (Or.inl hc)
    obtain ⟨out', ho', hregs⟩ := dataProcOp_cmp hv hop hc cpu f
    obtain rfl : out = out' := Except.ok.inj (ho.symm.trans ho')
    exact ⟨fun i _ _ => hregs i, fun _ i _ => hregs i⟩
  · have hw : op.writes = true := by
      simpa [OpCode.dispatched, hc] using hd
    constructor
    · intro h
      refine Or.inr ?_
      by_cases hrd : (resultReg inst).toNat = inst.rd.toNat
      · exact Or.inl hrd
      rcases Nat.lt_or_ge (resultReg inst).toNat 16 with ht | ht
      · refine Or.inr (Or.inr ?_)
        by_contra hself
        obtain ⟨cpu, hcpu⟩ := exists_storedBy_ne hw ht hv hself
        rcases (keepsOthers_iff_state hv hop hw cpu 0).mp (h cpu 0) with h | h | h
        · exact hrd h
        · omega
        · exact hcpu h
      · exact Or.inr (Or.inl ht)
    · rintro (h | h | h | h) cpu f
      · exact absurd h hc
      · exact (keepsOthers_iff_state hv hop hw cpu f).mpr (Or.inl h)
      · exact (keepsOthers_iff_state hv hop hw cpu f).mpr (Or.inr (Or.inl h))
      · exact (keepsOthers_iff_state hv hop hw cpu f).mpr
          (Or.inr (Or.inr (storedBy_keepsSelf h cpu)))

/-- `ADDEQ r2, r1, r2` is given `rd` to write. -/
theorem keepsOthers_iff_rd : KeepsOthers (decode 0x00612002#32 0).1 constructCpuState 0 :=
  (keepsOthers_iff (decode 0x00612002#32 0).1 .opAdd
    (decode_valid _ _) (by decide) (by decide)).mpr (Or.inr (Or.inl (by decide)))
      constructCpuState 0

/-- `ADDEQ r0, r1, r2` overwrites its operand `r2` and leaves `r0` as it was. -/
theorem add_overwrites_rm :
    (dataProcOp ((constructCpuState.setReg 1 5#32).setReg 2 7#32) (decode 0x00610002#32 0).1 0).map
        (fun out => (out.cpu.reg 0, out.cpu.reg 1, out.cpu.reg 2)) = .ok (0#32, 5#32, 12#32) ∧
      ¬ KeepsOthers (decode 0x00610002#32 0).1
        ((constructCpuState.setReg 1 5#32).setReg 2 7#32) 0 := by
  have hrun : (dataProcOp ((constructCpuState.setReg 1 5#32).setReg 2 7#32)
      (decode 0x00610002#32 0).1 0).map (fun out => (out.cpu.reg 0, out.cpu.reg 1, out.cpu.reg 2)) =
        .ok (0#32, 5#32, 12#32) := by
    decide
  refine ⟨hrun, fun h => ?_⟩
  rcases ho : dataProcOp ((constructCpuState.setReg 1 5#32).setReg 2 7#32)
      (decode 0x00610002#32 0).1 0 with e | out
  · rw [ho] at hrun
    cases hrun
  · have h2 := (h out ho).1 2 (by decide) (by decide)
    rw [ho] at hrun
    have h12 : out.cpu.reg 2 = 12#32 := congrArg (fun r => r.2.2) (Except.ok.inj hrun)
    exact absurd (h12.symm.trans h2) (by decide)

end SimpleArm
