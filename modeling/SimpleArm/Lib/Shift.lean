/-
# Words that a shift leaves alone

Which words each of the four shifts maps to themselves. Shifting by `n > 0`
towards one end runs out of bits: the left shift and the logical right shift
fix 0 only, and the arithmetic right shift, which copies the sign, fixes the
word of ones as well. A rotation runs out of nothing: it fixes the words
whose bits repeat, with a period that divides both the amount and the width
(`rotateRight_eq_self_iff`).
-/
import Mathlib.Tactic

namespace Shift

variable {w : ℕ} (x : BitVec w) (n : ℕ)

theorem shiftLeft_eq_self_iff : x <<< n = x ↔ n = 0 ∨ x = 0#w := by
  constructor
  · intro h
    rcases Nat.eq_zero_or_pos n with hn | hn
    · exact Or.inl hn
    · refine Or.inr (BitVec.eq_of_getLsbD_eq fun i hi => ?_)
      rw [BitVec.getLsbD_zero]
      -- the bits below `n` are 0, and each other bit is the one `n` below it
      induction i using Nat.strong_induction_on with
      | _ i ih =>
        rw [← h, BitVec.getLsbD_shiftLeft]
        by_cases hin : i < n
        · simp [hin]
        · rw [ih (i - n) (by omega) (by omega), Bool.and_false]
  · rintro (rfl | rfl)
    · exact BitVec.shiftLeft_zero x
    · exact BitVec.zero_shiftLeft n

theorem ushiftRight_eq_self_iff : x >>> n = x ↔ n = 0 ∨ x = 0#w := by
  rw [← BitVec.toNat_inj, BitVec.toNat_ushiftRight, Nat.shiftRight_eq_div_pow, Nat.div_eq_self,
    ← BitVec.toNat_inj, or_comm]
  simp

theorem sshiftRight_eq_self_iff :
    x.sshiftRight n = x ↔ n = 0 ∨ x = 0#w ∨ x = BitVec.allOnes w := by
  constructor
  · intro h
    rcases Nat.eq_zero_or_pos n with hn | hn
    · exact Or.inl hn
    · -- the bits from `w - n` on are the sign, and each other bit is the one `n` above it
      have hmsb : ∀ j i, i + j = w → 0 < j → x.getLsbD i = x.msb := by
        intro j
        induction j using Nat.strong_induction_on with
        | _ j ih =>
          intro i hij hj
          rw [← h, BitVec.getLsbD_sshiftRight, decide_eq_false (by omega), Bool.not_false,
            Bool.true_and, BitVec.msb_sshiftRight]
          by_cases hlt : n + i < w
          · rw [if_pos hlt]
            exact ih (j - n) (by omega) (n + i) (by omega) (by omega)
          · rw [if_neg hlt]
      refine Or.inr ?_
      cases hb : x.msb
      · refine Or.inl (BitVec.eq_of_getLsbD_eq fun i hi => ?_)
        rw [hmsb (w - i) i (by omega) (by omega), hb, BitVec.getLsbD_zero]
      · refine Or.inr (BitVec.eq_of_getLsbD_eq fun i hi => ?_)
        rw [hmsb (w - i) i (by omega) (by omega), hb, BitVec.getLsbD_allOnes, decide_eq_true hi]
  · rintro (rfl | rfl | rfl)
    · exact BitVec.sshiftRight_zero
    · exact BitVec.zero_sshiftRight
    · refine BitVec.eq_of_getLsbD_eq fun i hi => ?_
      simp [BitVec.getLsbD_sshiftRight, BitVec.msb_allOnes (Nat.zero_lt_of_lt hi), hi]

/-! ### Rotation -/

theorem getLsbD_rotateRight_eq {i : ℕ} (hi : i < w) :
    (x.rotateRight n).getLsbD i = x.getLsbD ((i + n) % w) := by
  have hr := Nat.mod_lt n (Nat.zero_lt_of_lt hi)
  rw [BitVec.getLsbD_rotateRight, Nat.add_mod, Nat.mod_eq_of_lt hi]
  generalize n % w = r at hr
  by_cases hlt : i < w - r
  · have hsum : (i + r) % w = r + i := by
      rw [Nat.mod_eq_of_lt (by omega), Nat.add_comm]
    rw [decide_eq_true hlt, cond_true, hsum]
  · have hsum : (i + r) % w = i - (w - r) := by
      rw [Nat.mod_eq_sub_mod (by omega), Nat.mod_eq_of_lt (by omega)]
      omega
    rw [decide_eq_false hlt, cond_false, decide_eq_true hi, Bool.true_and, hsum]

/-- The bits of `x` repeat with the period `p`. -/
def Repeats (p : ℕ) : Prop := ∀ i, i + p < w → x.getLsbD (i + p) = x.getLsbD i

variable {x n}

theorem Repeats.getLsbD_mod {p : ℕ} (h : Repeats x p) {i : ℕ} (hi : i < w) :
    x.getLsbD i = x.getLsbD (i % p) := by
  induction i using Nat.strong_induction_on with
  | _ i ih =>
    rcases Nat.lt_or_ge i p with hlt | hge
    · rw [Nat.mod_eq_of_lt hlt]
    · rcases Nat.eq_zero_or_pos p with rfl | hp
      · rw [Nat.mod_zero]
      · obtain ⟨j, rfl⟩ : ∃ j, i = j + p := ⟨i - p, by omega⟩
        rw [h j hi, ih j (by omega) (by omega), Nat.add_mod_right]

/-- The bits as a function on the integers, with the period `w`. -/
def cyclic (x : BitVec w) (i : ℤ) : Bool := x.getLsbD (i % w).toNat

theorem cyclic_natCast {i : ℕ} (hi : i < w) : cyclic x i = x.getLsbD i := by
  rw [cyclic, ← Int.natCast_mod, Int.toNat_natCast, Nat.mod_eq_of_lt hi]

theorem cyclic_periodic : Function.Periodic (cyclic x) w := by
  intro i
  rw [cyclic, Int.add_emod_right, cyclic]

/-- The amount of a rotation that fixes `x` is a period too. -/
theorem cyclic_periodic_of_rotate (hw : 0 < w) (h : x.rotateRight n = x) :
    Function.Periodic (cyclic x) n := by
  intro i
  obtain ⟨j, hj⟩ := Int.eq_ofNat_of_zero_le (Int.emod_nonneg i (show (w : ℤ) ≠ 0 by omega))
  have hjw : j < w := by
    have := Int.emod_lt_of_pos i (show (0 : ℤ) < w by omega)
    omega
  have hsum : ((i + n) % w).toNat = (j + n) % w := by
    rw [Int.add_emod, hj, ← Int.natCast_mod, ← Int.natCast_add, ← Int.natCast_mod,
      Int.toNat_natCast, Nat.add_mod_mod]
  rw [cyclic, cyclic, hsum, hj, Int.toNat_natCast, ← getLsbD_rotateRight_eq x n hjw, h]

/-- **Fixed by a rotation.** -/
theorem rotateRight_eq_self_iff : x.rotateRight n = x ↔ Repeats x (n.gcd w) := by
  constructor
  · intro h i hi
    have hper : Function.Periodic (cyclic x) (n.gcd w : ℕ) := by
      rw [Nat.gcd_eq_gcd_ab, mul_comm (n : ℤ), mul_comm (w : ℤ)]
      exact ((cyclic_periodic_of_rotate (by omega) h).int_mul _).add_period
        (cyclic_periodic.int_mul _)
    have hcast := hper i
    rw [← Int.natCast_add] at hcast
    rwa [cyclic_natCast hi, cyclic_natCast (by omega)] at hcast
  · intro h
    refine BitVec.eq_of_getLsbD_eq fun i hi => ?_
    have hmod : (i + n) % w % n.gcd w = i % n.gcd w := by
      rw [Nat.mod_mod_of_dvd _ (Nat.gcd_dvd_right n w), Nat.add_mod,
        Nat.mod_eq_zero_of_dvd (Nat.gcd_dvd_left n w), Nat.add_zero, Nat.mod_mod]
    rw [getLsbD_rotateRight_eq x n hi, h.getLsbD_mod (Nat.mod_lt _ (Nat.zero_lt_of_lt hi)), hmod,
      ← h.getLsbD_mod hi]

end Shift
