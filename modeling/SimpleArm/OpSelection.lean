/-
# Which operation an opcode selects

The decoder stores the opcode field as it is, and `data_proc_op` switches on
it as an `OpCode`, whose enumerators are in another order than the opcodes of
the encoding (`a32Op`). Of the sixteen fields ten reach the assertion, among
them `SUB`, `ADD`, `CMP` and `MOV`; `AND` runs as `AND`; the other five run some
other operation: `EOR` runs as `ORR`, `RSB` as `ADD`, `ADC` as `SUB`, `CMN` as
`CMP` and `BIC` as `MOV`. Two operations can agree on some operands, and
`SelectedRight` says on which (`selects_iff`).
-/
import SimpleArm.Compare
import SimpleArm.MultiWord
import SimpleArm.ResultRegister

namespace SimpleArm

open BitField Overflow

/-! ### The operations of the encoding -/

/-- The operation of an opcode field. -/
def a32Op (n : BitVec 4) : AluOp :=
  match n with
  | 0b0000#4 => .and
  | 0b0001#4 => .eor
  | 0b0010#4 => .sub
  | 0b0011#4 => .rsb
  | 0b0100#4 => .add
  | 0b0101#4 => .adc
  | 0b0110#4 => .sbc
  | 0b0111#4 => .rsc
  | 0b1000#4 => .tst
  | 0b1001#4 => .teq
  | 0b1010#4 => .cmp
  | 0b1011#4 => .cmn
  | 0b1100#4 => .orr
  | 0b1101#4 => .mov
  | 0b1110#4 => .bic
  | _ => .mvn

def a32Operand1 (w : Word) (cpu : CpuState) : Word := cpu.reg (field w 16 4).toNat

/-- The value of Rm, or the immediate, of a word without shift and rotation. -/
def a32Operand2 (w : Word) (cpu : CpuState) : Word :=
  if w.getLsbD 25 then (field w 0 8).setWidth 32 else cpu.reg (field w 0 4).toNat

/-- The call that a word asks for, but for the register, which is the one that
`data_proc_op` writes. -/
def a32Call (w : Word) (f : FaultOut) (cpu : CpuState) : AluCall where
  op := a32Op (field w 21 4)
  reg := resultReg (decode w f).1
  operand1 := a32Operand1 w cpu
  operand2 := a32Operand2 w cpu
  risesCpsr := w.getLsbD 20

/-- `data_proc_op` on the decoded word returns the result and the status word of the
operation that the word asks for. -/
def SelectsOperation (w : Word) (f g : FaultOut) (cpu : CpuState) : Prop :=
  ∃ out, dataProcOp cpu (decode w f).1 g = .ok out ∧ out.cpu = (a32Call w f cpu).after cpu

/-- The register that `data_proc_op` writes is one: `rm`, or the immediate. -/
def ResultFits (w : Word) : Prop := w.getLsbD 25 = false ∨ (field w 0 8).toNat < 16

/-- When an opcode field selects the right operation: the S bit, the status word before, the
two operands, and whether there is a register to write. -/
def SelectedRight (n : BitVec 4) (s : Bool) (cpsr : Cpsr) (a b : Word) (fits : Prop) : Prop :=
  match n with
  | 0b0000#4 => fits
  -- EOR runs as ORR, which updates no flags
  | 0b0001#4 => fits ∧ a &&& b = 0#32 ∧ (s = true →
      cpsrGetNegative cpsr = (a.msb || b.msb) ∧ (cpsrGetZero cpsr = true ↔ a = 0#32 ∧ b = 0#32))
  -- RSB runs as ADD
  | 0b0011#4 => fits ∧ s = false ∧ (a = 0#32 ∨ a = 0x80000000#32)
  -- ADC runs as SUB
  | 0b0101#4 => fits ∧ s = false ∧ cpsrGetCarry cpsr = false ∧ (b = 0#32 ∨ b = 0x80000000#32)
  -- CMN runs as CMP: the carry and the borrow into bit 31 agree, and so does the zero test
  | 0b1011#4 => (2 ^ 31 ≤ a.toNat % 2 ^ 31 + b.toNat % 2 ^ 31 ↔
      a.toNat % 2 ^ 31 < b.toNat % 2 ^ 31) ∧ (a = -b ↔ a = b)
  -- BIC runs as MOV of the first operand, with the second for the S flag
  | 0b1110#4 => fits ∧ a &&& b = 0#32 ∧ (b ≠ 0#32 →
      cpsrGetNegative cpsr = a.msb ∧ (cpsrGetZero cpsr = true ↔ a = 0#32))
  | _ => False

/-! ### Where two operations agree -/

section Operands

variable (a b : Word) (c : Cpsr)

theorem add_eq_sub_iff : a + b = a - b ↔ b = 0#32 ∨ b = 0x80000000#32 := by
  bv_omega

theorem msb_add_eq_msb_sub_iff : (a + b).msb = (a - b).msb ↔
    (2 ^ 31 ≤ a.toNat % 2 ^ 31 + b.toNat % 2 ^ 31 ↔ a.toNat % 2 ^ 31 < b.toNat % 2 ^ 31) := by
  have ha := a.isLt
  have hb := b.isLt
  rw [BitVec.msb_eq_decide, BitVec.msb_eq_decide, decide_eq_decide, BitVec.toNat_add,
    BitVec.toNat_sub]
  omega

theorem nzFlags_eq_iff : nzFlags a c = nzFlags b c ↔ a.msb = b.msb ∧ (a = 0#32 ↔ b = 0#32) := by
  constructor
  · intro h
    have hn := congrArg (fun x => Cpsr.bit x 31) h
    have hz := congrArg (fun x => Cpsr.bit x 30) h
    simp only [bit_nzFlags] at hn hz
    refine ⟨hn, ?_⟩
    rw [← beq_iff_eq (a := a), ← beq_iff_eq (a := b)]
    exact Bool.eq_iff_iff.mp hz
  · rintro ⟨hn, hz⟩
    have hbeq : (a == 0#32) = (b == 0#32) := by
      rw [Bool.eq_iff_iff, beq_iff_eq, beq_iff_eq]
      exact hz
    rw [nzFlags_eq, nzFlags_eq, hn, hbeq]

theorem addFlags_comm : addFlags a b c = addFlags b a c := by
  have hover : a.saddOverflow b = b.saddOverflow a := by
    rw [Bool.eq_iff_iff, saddOverflow_iff, saddOverflow_iff, Int.add_comm]
  rw [addFlags, addFlags, BitVec.add_comm a b, uaddOverflow_comm, hover]

/-- A sum and a difference with the same result differ in C or in V. -/
theorem addFlags_ne_subFlags (hb : b = 0#32 ∨ b = 0x80000000#32) :
    addFlags a b c ≠ subFlags a b (a - b) c := by
  intro h
  rcases hb with rfl | rfl
  · -- adding 0 gives no carry, subtracting it no borrow
    have hcarry := congrArg (fun x => Cpsr.bit x 29) h
    simp only [bit29_addFlags, bit29_subFlags, BitVec.uaddOverflow] at hcarry
    have ha := a.isLt
    simp only [BitVec.toNat_ofNat, BitVec.le_def] at hcarry
    rw [decide_eq_decide] at hcarry
    omega
  · -- adding the least number overflows below, subtracting it above
    have hover := congrArg (fun x => Cpsr.bit x 28) h
    simp only [bit_addFlags, bit_subFlags, if_true] at hover
    rw [Bool.eq_iff_iff, saddOverflow_iff, ssubOverflow_iff] at hover
    have hmin : (0x80000000#32 : Word).toInt = -2 ^ 31 := by decide
    have hlo := BitVec.le_toInt a
    have hhi := BitVec.toInt_lt (x := a)
    simp only [InRange, hmin] at hover
    omega

end Operands

section Calls

variable {r : RegisterIndexT} (hr : r.toNat < 16) (cpu : CpuState) (a b : Word) (s : Bool)

include hr

theorem orr_after_eq_eor : AluCall.after cpu ⟨.orr, r, a, b, s⟩ =
    AluCall.after cpu ⟨.eor, r, a, b, s⟩ ↔ a &&& b = 0#32 ∧ (s = true →
      cpsrGetNegative cpu.cpsr = (a.msb || b.msb) ∧
        (cpsrGetZero cpu.cpsr = true ↔ a = 0#32 ∧ b = 0#32)) := by
  refine Iff.trans (AluCall.after_eq_iff cpu rfl rfl rfl hr) ?_
  show a ||| b = a ^^^ b ∧ cpu.cpsr = (if s then nzFlags (a ^^^ b) cpu.cpsr else cpu.cpsr) ↔ _
  rw [or_eq_xor_iff]
  refine and_congr_right fun hab => ?_
  rw [← (or_eq_xor_iff a b).mpr hab]
  cases s
  · simp
  · rw [if_pos rfl, eq_comm, nzFlags_eq_self_iff, BitVec.msb_or, BitVec.or_eq_zero_iff]
    simp

theorem add_after_eq_rsb : AluCall.after cpu ⟨.add, r, a, b, s⟩ =
    AluCall.after cpu ⟨.rsb, r, a, b, s⟩ ↔ s = false ∧ (a = 0#32 ∨ a = 0x80000000#32) := by
  refine Iff.trans (AluCall.after_eq_iff cpu rfl rfl rfl hr) ?_
  show a + b = b - a ∧ (if s then addFlags a b cpu.cpsr else cpu.cpsr) =
    (if s then subFlags b a (b - a) cpu.cpsr else cpu.cpsr) ↔ _
  rw [BitVec.add_comm a b, add_eq_sub_iff, addFlags_comm, and_comm]
  refine and_congr_left fun ha => ?_
  cases s
  · simp
  · simpa using addFlags_ne_subFlags b a cpu.cpsr ha

theorem sub_after_eq_adc : AluCall.after cpu ⟨.sub, r, a, b, s⟩ =
    AluCall.after cpu ⟨.adc, r, a, b, s⟩ ↔
      s = false ∧ cpsrGetCarry cpu.cpsr = false ∧ (b = 0#32 ∨ b = 0x80000000#32) := by
  refine Iff.trans (AluCall.after_eq_iff cpu rfl rfl rfl hr) ?_
  show a - b = a + (b + carryIn cpu) ∧ (if s then subFlags a b (a - b) cpu.cpsr else cpu.cpsr) =
    (if s then addFlags a (b + carryIn cpu) cpu.cpsr else cpu.cpsr) ↔ _
  rw [carryIn_eq, cpsrGetCarry_eq]
  cases hc : cpu.cpsr.bit 29
  · have hcarry : b + carryWord false = b := BitVec.add_zero b
    rw [hcarry, eq_comm (a := a - b), add_eq_sub_iff, and_comm]
    simp only [true_and]
    refine and_congr_left fun hb => ?_
    cases s
    · simp
    · simpa using (addFlags_ne_subFlags a b cpu.cpsr hb).symm
  · refine iff_of_false (fun h => ?_) fun h => by cases h.2.1
    have hodd := h.1
    simp only [carryWord, if_true] at hodd
    bv_omega

theorem mov_after_eq_bic : AluCall.after cpu ⟨.mov, r, b, a, b != 0#32⟩ =
    AluCall.after cpu ⟨.bic, r, a, b, s⟩ ↔ a &&& b = 0#32 ∧ (b ≠ 0#32 →
      cpsrGetNegative cpu.cpsr = a.msb ∧ (cpsrGetZero cpu.cpsr = true ↔ a = 0#32)) := by
  refine Iff.trans (AluCall.after_eq_iff cpu rfl rfl rfl hr) ?_
  show a = a &&& ~~~b ∧ (if b != 0#32 then nzFlags a cpu.cpsr else cpu.cpsr) = cpu.cpsr ↔ _
  rw [eq_and_not_iff]
  refine and_congr_right fun _ => ?_
  by_cases hb : b = 0#32
  · simp [hb]
  · rw [if_pos (bne_iff_ne.mpr hb), nzFlags_eq_self_iff]
    simp [hb]

omit hr in
theorem cmp_after_eq_cmn : AluCall.after cpu ⟨.cmp, r, a, b, s⟩ =
    AluCall.after cpu ⟨.cmn, r, a, b, s⟩ ↔
      (2 ^ 31 ≤ a.toNat % 2 ^ 31 + b.toNat % 2 ^ 31 ↔ a.toNat % 2 ^ 31 < b.toNat % 2 ^ 31) ∧
        (a = -b ↔ a = b) := by
  have hneg : a + b = 0#32 ↔ a = -b := by
    constructor <;> intro h <;> bv_omega
  have hsub : a - b = 0#32 ↔ a = b := by
    constructor <;> intro h <;> bv_omega
  rw [← hneg, ← hsub, ← msb_add_eq_msb_sub_iff, ← nzFlags_eq_iff (c := cpu.cpsr), eq_comm]
  constructor
  · intro h
    exact congrArg CpuState.cpsr h
  · intro h
    show flagsOp cpu (a + b) = flagsOp cpu (a - b)
    rw [flagsOp, flagsOp, h]

end Calls

/-! ### The dispatch on a decoded word -/

section Decode

variable (w : Word) (f : FaultOut) (cpu : CpuState)

theorem decode_operand1 : cpu.reg (decode w f).1.rn.toNat = a32Operand1 w cpu := by
  rw [decode_rn, a32Operand1]

theorem decode_operand2 : operand2Value cpu (decode w f).1 = a32Operand2 w cpu := by
  have hrm := decode_rm w f
  unfold operand2Value a32Operand2
  rw [decode_immediateMode, Operand2.imm8_eq_rm]
  cases hi : w.getLsbD 25
  · rw [hi] at hrm
    rw [hrm]
    rfl
  · rw [hi, if_pos rfl] at hrm
    refine BitVec.eq_of_toNat_eq ?_
    simp only [if_true, BitVec.toNat_setWidth, hrm]

theorem resultFits_iff : ResultFits w ↔ (resultReg (decode w f).1).toNat < 16 := by
  have hr := (field w 0 4).isLt
  unfold ResultFits
  rw [resultReg, decode_rm]
  cases w.getLsbD 25
  · simp only [Bool.false_eq_true, if_false, true_or, true_iff]
    omega
  · simp

end Decode

/-- The six opcode fields that the switch has a case for. -/
theorem dispatched_ofField : ∀ n : BitVec 4, (OpCode.ofField n).dispatched = true →
    n = 0b0000#4 ∨ n = 0b0001#4 ∨ n = 0b0011#4 ∨ n = 0b0101#4 ∨ n = 0b1011#4 ∨ n = 0b1110#4 := by
  decide

theorem storing_call_iff {op : OpCode} {inst : DecodedDataProcessing} {a b : Word}
    {cpu c : CpuState} {k : AluCall} {P : Prop} (hk : op.call inst a b = some k)
    (hs : k.op.stores = true) (hreg : k.reg = resultReg inst)
    (hP : (resultReg inst).toNat < 16 → (k.after cpu = c ↔ P)) :
    (∃ k, op.call inst a b = some k ∧ (k.op.stores = true → k.reg.toNat < 16) ∧
      k.after cpu = c) ↔ (resultReg inst).toNat < 16 ∧ P := by
  rw [hk]
  constructor
  · rintro ⟨k', hk', hfit, hafter⟩
    obtain rfl := Option.some.inj hk'
    have h16 := hreg ▸ hfit hs
    exact ⟨h16, (hP h16).mp hafter⟩
  · rintro ⟨h16, hp⟩
    exact ⟨k, rfl, fun _ => hreg ▸ h16, (hP h16).mpr hp⟩

theorem selectedRight_iff (n : BitVec 4) (inst : DecodedDataProcessing) (cpu : CpuState)
    (a b : Word) : (∃ k, (OpCode.ofField n).call inst a b = some k ∧
        (k.op.stores = true → k.reg.toNat < 16) ∧ k.after cpu =
          AluCall.after cpu ⟨a32Op n, resultReg inst, a, b, inst.setConditionCodes⟩) ↔
      SelectedRight n inst.setConditionCodes cpu.cpsr a b ((resultReg inst).toNat < 16) := by
  unfold SelectedRight
  split
  · exact (storing_call_iff rfl rfl rfl fun _ => iff_true_intro rfl).trans (and_iff_left trivial)
  · exact storing_call_iff rfl rfl rfl fun hr => orr_after_eq_eor hr cpu a b _
  · exact storing_call_iff rfl rfl rfl fun hr => add_after_eq_rsb hr cpu a b _
  · exact storing_call_iff rfl rfl rfl fun hr => sub_after_eq_adc hr cpu a b _
  · rw [← cmp_after_eq_cmn (r := resultReg inst) cpu a b inst.setConditionCodes]
    constructor
    · rintro ⟨k, hk, -, hafter⟩
      obtain rfl := Option.some.inj hk
      exact hafter
    · intro hafter
      exact ⟨_, rfl, (fun hs => by cases hs), hafter⟩
  · exact storing_call_iff rfl rfl rfl fun hr => mov_after_eq_bic hr cpu a b _
  · rename_i h0 h1 h3 h5 h11 h14
    refine iff_of_false (fun h => ?_) id
    obtain ⟨k, hk, -⟩ := h
    have hd := OpCode.call_isSome (OpCode.ofField n) inst a b
    rw [hk] at hd
    rcases dispatched_ofField n hd.symm with h | h | h | h | h | h
    · exact h0 h
    · exact h1 h
    · exact h3 h
    · exact h5 h
    · exact h11 h
    · exact h14 h

/-- **Operation selection.** On a decoded word `data_proc_op` gives the result and the status
word of the operation that the encoding names exactly when the opcode field is one of the
six that are dispatched and the two operations agree on the operands. -/
theorem selects_iff (w : Word) (f g : FaultOut) (cpu : CpuState) : SelectsOperation w f g cpu ↔
    SelectedRight (field w 21 4) (w.getLsbD 20) cpu.cpsr (a32Operand1 w cpu) (a32Operand2 w cpu)
      (ResultFits w) := by
  have hop : OpCode.ofValue (decode w f).1.op = some (OpCode.ofField (field w 21 4)) := by
    rw [decode_op, OpCode.ofValue_field]
  unfold SelectsOperation
  rw [dataProcOp_eq_ok_iff hop cpu (decode_valid w f), decode_operand1, decode_operand2,
    propext (resultFits_iff w f), ← decode_setConditionCodes w f, ← selectedRight_iff]
  refine exists_congr fun k => and_congr_right fun _ => ?_
  rw [AluCall.exec_eq_ok_iff, a32Call, decode_setConditionCodes]

/-- `MOV r0, r2` reaches the assertion. -/
theorem mov_not_selected :
    field 0xE1A00002#32 26 2 = 0b00#2 ∧ field 0xE1A00002#32 4 8 = 0#8 ∧
      constructCpsr.flags.holds (field 0xE1A00002#32 28 4) = true ∧
      dataProcOp constructCpuState (decode 0xE1A00002#32 0).1 0 = .error .unknownOpcode ∧
      ¬ SelectsOperation 0xE1A00002#32 0 0 constructCpuState := by
  have hrun : dataProcOp constructCpuState (decode 0xE1A00002#32 0).1 0 =
      .error .unknownOpcode := by
    decide
  refine ⟨by decide, by decide, by decide, hrun, ?_⟩
  rintro ⟨out, ho, -⟩
  rw [hrun] at ho
  cases ho

/-- `EOR r0, r1, r2` of 3 and 1 gives 3. -/
example : (dataProcOp ((constructCpuState.setReg 1 3#32).setReg 2 1#32)
    (decode 0xE0210002#32 0).1 0).map (fun out => out.cpu.reg 2) = .ok 3#32 := by
  decide

end SimpleArm
