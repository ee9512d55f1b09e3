/-
# The second operand

The encoding's documentation has the second operand shifted, or rotated for
an immediate (`shifterOperand`). The decoder reduces the shift of a register
and the rotation of an immediate to whether they are 0, and `data_proc_op`
does not look at either: it reads the register or the immediate as it is
(`decode_operand2`) and passes it to the operation (`PassesOperand2`). So the
operand is the documented one exactly when the shift happens to leave the value
alone (`operand2_iff`), which `Shift` says of each kind.
-/
import SimpleArm.Lib.Shift
import SimpleArm.OpSelection

namespace SimpleArm

open BitField Shift

/-! ### The documented operand -/

/-- A shift by the type of a shift field: LSL, LSR, ASR, ROR. -/
def shiftBy (type : BitVec 2) (value : Word) (amount : ℕ) : Word :=
  match type with
  | 0b00#2 => value <<< amount
  | 0b01#2 => value >>> amount
  | 0b10#2 => value.sshiftRight amount
  | _ => value.rotateRight amount

/-- The low byte of the register Rs. -/
def shiftRegister (w : Word) (cpu : CpuState) : ℕ :=
  (field (cpu.reg (field w 8 4).toNat) 0 8).toNat

/-- The amount of the shift of a register: an immediate, or the low byte of Rs. -/
def shiftAmount (w : Word) (cpu : CpuState) : ℕ :=
  if w.getLsbD 4 then shiftRegister w cpu else (field w 7 5).toNat

/-- The words that shift a register by a documented amount: an immediate from 1 to 31, or a
register's low byte below 32. -/
def ShiftDocumented (w : Word) (cpu : CpuState) : Prop :=
  (w.getLsbD 4 = false ∧ field w 7 5 ≠ 0#5) ∨
    (w.getLsbD 4 = true ∧ w.getLsbD 7 = false ∧ shiftRegister w cpu < 32)

instance (w : Word) (cpu : CpuState) : Decidable (ShiftDocumented w cpu) :=
  inferInstanceAs (Decidable (_ ∨ _))

/-- The documented second operand, where there is one. -/
def shifterOperand (w : Word) (cpu : CpuState) : Option Word :=
  let value := cpu.reg (field w 0 4).toNat
  if w.getLsbD 25 then
    some (((field w 0 8).setWidth 32).rotateRight (2 * (field w 8 4).toNat))
  else if field w 4 8 = 0#8 then some value
  else if ShiftDocumented w cpu then some (shiftBy (field w 5 2) value (shiftAmount w cpu))
  else none

theorem shiftAmount_of_none {w : Word} (h : field w 4 8 = 0#8) (cpu : CpuState) :
    shiftAmount w cpu = 0 := by
  obtain ⟨h4, -, himm5⟩ := shift_fields_of_zero h
  rw [shiftAmount, h4, himm5]
  rfl

/-! ### Where the shift changes nothing -/

/-- The shift of this type and amount leaves the value alone. -/
def ShiftFixes (type : BitVec 2) (value : Word) (amount : ℕ) : Prop :=
  match type with
  | 0b00#2 => amount = 0 ∨ value = 0#32
  | 0b01#2 => amount = 0 ∨ value = 0#32
  | 0b10#2 => amount = 0 ∨ value = 0#32 ∨ value = 0xFFFFFFFF#32
  | _ => Repeats value (amount.gcd 32)

theorem shiftBy_eq_self_iff (type : BitVec 2) (value : Word) (amount : ℕ) :
    shiftBy type value amount = value ↔ ShiftFixes type value amount := by
  unfold shiftBy ShiftFixes
  split
  · exact shiftLeft_eq_self_iff value amount
  · exact ushiftRight_eq_self_iff value amount
  · exact sshiftRight_eq_self_iff value amount
  · exact rotateRight_eq_self_iff

theorem shiftBy_zero (type : BitVec 2) (value : Word) : shiftBy type value 0 = value := by
  unfold shiftBy
  split
  · exact BitVec.shiftLeft_zero value
  · exact BitVec.ushiftRight_zero value
  · exact BitVec.sshiftRight_zero
  · exact rotateRight_eq_self_iff.mpr fun i hi => by simp at hi

/-- A rotation by an even amount below 32 has a period of 16. -/
theorem gcd_rotate_dvd : ∀ rotate : BitVec 4, rotate ≠ 0#4 → (2 * rotate.toNat).gcd 32 ∣ 16 := by
  decide

/-- The rotation of an immediate leaves it alone: the upper bits of the word are 0, so
everything that a period repeats is. -/
theorem rotate_imm_eq_self_iff (imm8 : BitVec 8) (rotate : BitVec 4) :
    (imm8.setWidth 32).rotateRight (2 * rotate.toNat) = imm8.setWidth 32 ↔
      rotate = 0#4 ∨ imm8 = 0#8 := by
  rw [rotateRight_eq_self_iff]
  constructor
  · intro h
    by_cases hr : rotate = 0#4
    · exact Or.inl hr
    · refine Or.inr (BitVec.eq_of_getLsbD_eq fun i hi => ?_)
      obtain ⟨m, hm⟩ := gcd_rotate_dvd rotate hr
      have hlow : (imm8.setWidth 32).getLsbD i = imm8.getLsbD i := by
        rw [BitVec.getLsbD_setWidth, decide_eq_true (by omega), Bool.true_and]
      have hhigh : (imm8.setWidth 32).getLsbD (i + 16) = false := by
        rw [BitVec.getLsbD_setWidth, BitVec.getLsbD_of_ge imm8 (i + 16) (by omega), Bool.and_false]
      rw [h.getLsbD_mod (by omega), hm, Nat.add_mul_mod_self_left, ← h.getLsbD_mod (by omega),
        hlow] at hhigh
      rw [hhigh, BitVec.getLsbD_zero]
  · rintro (rfl | rfl) i hi
    · simp at hi
    · simp

/-- The second operand of a word is the documented one. -/
def OperandSurvives (w : Word) (cpu : CpuState) : Prop :=
  if w.getLsbD 25 then field w 8 4 = 0#4 ∨ field w 0 8 = 0#8
  else ShiftFixes (field w 5 2) (cpu.reg (field w 0 4).toNat) (shiftAmount w cpu)

/-- `data_proc_op` computes `v` for `operand2`, and its call is that of the selected operation on
it and the first operand. -/
structure PassesOperand2 (cpu : CpuState) (inst : DecodedDataProcessing) (f : FaultOut)
    (v : Word) : Prop where
  computes : readOperand2 cpu inst = .ok v
  passes : ∃ operand1 g, cpuGetReg cpu inst.rn.toNat = .ok operand1 ∧ dataProcOp cpu inst f =
    (dataProcSwitch cpu inst operand1 v).map fun cpu' => ⟨none, cpu', g⟩

theorem passesOperand2_iff {inst : DecodedDataProcessing} (hv : inst.Valid) (cpu : CpuState)
    (f : FaultOut) (v : Word) : PassesOperand2 cpu inst f v ↔ operand2Value cpu inst = v := by
  constructor
  · intro h
    exact Except.ok.inj ((readOperand2_eq hv cpu).symm.trans h.computes)
  · rintro rfl
    obtain ⟨g, hg⟩ := dataProcOp_eq hv cpu f
    exact ⟨readOperand2_eq hv cpu, _, g, cpuGetReg_eq hv.rn cpu, hg⟩

/-- **The second operand.** Where the encoding documents an operand, `data_proc_op` computes it
from the decoded word and passes it to the operation exactly when its shift or rotation leaves
the value alone. -/
theorem operand2_iff (w : Word) (f : FaultOut) (cpu : CpuState) (v : Word)
    (hdoc : shifterOperand w cpu = some v) :
    PassesOperand2 cpu (decode w f).1 f v ↔ OperandSurvives w cpu := by
  rw [passesOperand2_iff (decode_valid w f), decode_operand2]
  unfold shifterOperand at hdoc
  unfold a32Operand2 OperandSurvives
  cases hi : w.getLsbD 25
  · simp only [hi, Bool.false_eq_true, if_false] at hdoc ⊢
    rw [← shiftBy_eq_self_iff]
    split_ifs at hdoc with hnone
    · rw [shiftAmount_of_none hnone, shiftBy_zero]
      exact iff_of_true (Option.some.inj hdoc) rfl
    · rw [Option.some.inj hdoc]
      exact eq_comm
  · simp only [hi, if_true] at hdoc ⊢
    rw [← rotate_imm_eq_self_iff, Option.some.inj hdoc]
    exact eq_comm

/-- The `ADD` of `r1` and `r2, LSL #4` with 0 in `r2`. -/
theorem operand2_lsl_zero :
    PassesOperand2 constructCpuState (decode 0x00610202#32 0).1 0 0#32 :=
  (operand2_iff 0x00610202#32 0 constructCpuState 0#32 (by decide)).mpr
    (show _ ∨ _ from Or.inr rfl)

/-- With 1 in `r2` the operand is 1 and not 16, and the sum with the 0 in `r1` is 1. -/
theorem operand2_lsl_one :
    shifterOperand 0x00610202#32 (constructCpuState.setReg 2 1#32) = some 16#32 ∧
      readOperand2 (constructCpuState.setReg 2 1#32) (decode 0x00610202#32 0).1 = .ok 1#32 ∧
      (dataProcOp (constructCpuState.setReg 2 1#32) (decode 0x00610202#32 0).1 0).map
        (fun out => out.cpu.reg 2) = .ok 1#32 ∧
      ¬ (∀ v, shifterOperand 0x00610202#32 (constructCpuState.setReg 2 1#32) = some v →
        PassesOperand2 (constructCpuState.setReg 2 1#32) (decode 0x00610202#32 0).1 0 v) := by
  refine ⟨by decide, by decide, by decide, fun h => ?_⟩
  exact absurd (h 16#32 (by decide)).computes (by decide)

end SimpleArm
