/-
# Carry and overflow of wrapped arithmetic

A machine that keeps only the low `w` bits of a sum or a difference tells the
rest in two flags: the carry, for the operands read as naturals, and the
overflow, for the operands read in two's complement. The overflow is usually
computed from sign bits alone. `sadd_xor` and `ssub_xor` say that these
sign-bit tests are `BitVec.saddOverflow` and `BitVec.ssubOverflow`, which are
stated on the exact integers, and `slt_eq` that after a wrapped difference
the sign corrected by the overflow decides the signed comparison. Subtracting
is adding the negated operand in the flags too, with one exception for each
(`uaddOverflow_neg_iff`, `saddOverflow_neg_iff`).
-/
import Mathlib.Tactic

namespace Overflow

variable {w : ℕ}

/-- Operands of one sign and a result of the other: the signed sum is out of range. -/
theorem sadd_xor (a b : BitVec w) :
    (!(a ^^^ b).msb && (a ^^^ (a + b)).msb) = a.saddOverflow b := by
  rw [BitVec.saddOverflow_eq, BitVec.msb_xor, BitVec.msb_xor]
  cases a.msb <;> cases b.msb <;> cases (a + b).msb <;> rfl

/-- Operands of different signs and a result of the second's: the signed
difference is out of range. -/
theorem ssub_xor (a b : BitVec w) :
    ((a ^^^ b).msb && (a ^^^ (a - b)).msb) = a.ssubOverflow b := by
  rw [BitVec.ssubOverflow_eq, BitVec.msb_xor, BitVec.msb_xor]
  cases a.msb <;> cases b.msb <;> cases (a - b).msb <;> rfl

/-- The integers that `w` bits represent in two's complement. -/
def InRange (w : ℕ) (z : ℤ) : Prop := -2 ^ (w - 1) ≤ z ∧ z < 2 ^ (w - 1)

theorem saddOverflow_iff (a b : BitVec w) :
    a.saddOverflow b = true ↔ ¬ InRange w (a.toInt + b.toInt) := by
  simp only [BitVec.saddOverflow, Bool.or_eq_true, decide_eq_true_eq, InRange]
  omega

theorem ssubOverflow_iff (a b : BitVec w) :
    a.ssubOverflow b = true ↔ ¬ InRange w (a.toInt - b.toInt) := by
  simp only [BitVec.ssubOverflow, Bool.or_eq_true, decide_eq_true_eq, InRange]
  omega

/-- The carry of a sum is the part above the low `w` bits. -/
theorem add_carry (a b : BitVec w) :
    (a + b).toNat + 2 ^ w * (a.uaddOverflow b).toNat = a.toNat + b.toNat := by
  have ha := a.isLt
  have hb := b.isLt
  rw [BitVec.toNat_add, BitVec.uaddOverflow]
  by_cases h : 2 ^ w ≤ a.toNat + b.toNat
  · rw [Nat.mod_eq_sub_mod h, Nat.mod_eq_of_lt (by omega)]
    simp [h]
  · rw [Nat.mod_eq_of_lt (by omega)]
    simp [h]

theorem uaddOverflow_comm (a b : BitVec w) : a.uaddOverflow b = b.uaddOverflow a := by
  rw [BitVec.uaddOverflow, BitVec.uaddOverflow, Nat.add_comm]

/-- The borrow of a difference is the wrap it needs. -/
theorem sub_borrow (a b : BitVec w) :
    (a - b).toNat + b.toNat = a.toNat + 2 ^ w * (a.usubOverflow b).toNat := by
  have ha := a.isLt
  have hb := b.isLt
  rw [BitVec.toNat_sub, BitVec.usubOverflow]
  by_cases h : a.toNat < b.toNat
  · rw [Nat.mod_eq_of_lt (by omega)]
    simp [h]
    omega
  · rw [Nat.mod_eq_sub_mod (by omega), Nat.mod_eq_of_lt (by omega)]
    simp [h]
    omega

/-- Signed comparison: the sign of the wrapped difference, unless it overflows. -/
theorem slt_eq (a b : BitVec w) : a.slt b = ((a - b).msb ^^ a.ssubOverflow b) := by
  rw [BitVec.slt_eq_decide, BitVec.msb_eq_toInt]
  by_cases ho : a.ssubOverflow b
  · -- the difference wraps, so its sign is the wrong one
    have hlo := BitVec.toInt_sub_toInt_lt_twoPow_iff (x := a) (y := b)
    have hhi := BitVec.twoPow_le_toInt_sub_toInt_iff (x := a) (y := b)
    have hc := ho
    simp only [BitVec.ssubOverflow, Bool.or_eq_true, decide_eq_true_eq] at hc
    rw [ho, Bool.xor_true, BitVec.toInt_sub, ← decide_not, decide_eq_decide]
    rcases hc with hc | hc
    · have := hhi.mp hc
      omega
    · have := hlo.mp hc
      omega
  · rw [BitVec.toInt_sub_of_not_ssubOverflow ho, Bool.not_eq_true _ |>.mp ho, Bool.xor_false,
      decide_eq_decide]
    omega

/-! ### Negated operands -/

/-- The carry of adding the negated operand is that there is no borrow, except for 0. -/
theorem uaddOverflow_neg_iff (a b : BitVec w) :
    a.uaddOverflow (-b) = decide (b ≤ a) ↔ b ≠ 0#w := by
  have ha := a.isLt
  have hb := b.isLt
  rw [Bool.eq_iff_iff, BitVec.uaddOverflow, decide_eq_true_iff, decide_eq_true_iff, BitVec.le_def,
    BitVec.toNat_neg]
  by_cases h : b = 0#w
  · subst h
    simp [ha]
  · have hpos : b.toNat ≠ 0 := fun h0 => h (BitVec.eq_of_toNat_eq h0)
    rw [Nat.mod_eq_of_lt (by omega)]
    exact iff_of_true (by omega) h

/-- The overflows agree, except for the least number, which is its own negation. -/
theorem saddOverflow_neg_iff (hw : 0 < w) (a b : BitVec w) :
    a.saddOverflow (-b) = a.ssubOverflow b ↔ b ≠ BitVec.intMin w := by
  have hlo := BitVec.le_toInt a
  have hhi := BitVec.toInt_lt (x := a)
  rw [Bool.eq_iff_iff, saddOverflow_iff, ssubOverflow_iff]
  by_cases h : b = BitVec.intMin w
  · subst h
    rw [BitVec.neg_intMin, BitVec.toInt_intMin_of_pos hw]
    refine iff_of_false ?_ (not_not.mpr rfl)
    unfold InRange
    omega
  · rw [BitVec.toInt_neg_of_ne_intMin h, ← sub_eq_add_neg]
    exact iff_of_true Iff.rfl h

end Overflow
