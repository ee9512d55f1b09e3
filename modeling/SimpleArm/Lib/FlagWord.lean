/-
# Flags kept in the bits of a word

A status word keeps each flag in a bit of its own. Programs set a flag with
`x ||| mask`, clear it with `x &&& ~~~mask` and test it with
`(x &&& mask) != 0`, where `mask` has that one bit. `put` is the first two
in one, and it is a field update: it is read back at its own bit, leaves
every other bit alone (`getLsbD_put`), and changes nothing exactly when the
flag has the value already (`put_eq_self_iff`).
-/
import Mathlib.Tactic

namespace FlagWord

variable {w : ℕ}

/-- The word `x` with flag `k` equal to `b`. -/
def put (x : BitVec w) (k : ℕ) (b : Bool) : BitVec w :=
  if b then x ||| BitVec.twoPow w k else x &&& ~~~BitVec.twoPow w k

@[simp] theorem put_true (x : BitVec w) (k : ℕ) : put x k true = x ||| BitVec.twoPow w k := rfl

@[simp] theorem put_false (x : BitVec w) (k : ℕ) :
    put x k false = x &&& ~~~BitVec.twoPow w k := rfl

theorem and_twoPow_ne_zero (x : BitVec w) (k : ℕ) :
    ((x &&& BitVec.twoPow w k) != 0#w) = x.getLsbD k := by
  rw [BitVec.and_twoPow]
  cases h : x.getLsbD k with
  | false => simp
  | true =>
    have hk : k < w := BitVec.lt_of_getLsbD h
    have hne : BitVec.twoPow w k ≠ 0#w := by
      intro he
      have := congrArg (fun y => y.getLsbD k) he
      simp [hk] at this
    simpa using hne

theorem getLsbD_put {k : ℕ} (hk : k < w) (x : BitVec w) (b : Bool) (i : ℕ) :
    (put x k b).getLsbD i = if i = k then b else x.getLsbD i := by
  by_cases hi : i = k
  · subst hi
    cases b <;> simp [hk]
  · have hne : (k = i) = False := eq_false (Ne.symm hi)
    cases b <;> simp only [put_true, put_false, BitVec.getLsbD_or, BitVec.getLsbD_and,
      BitVec.getLsbD_not, BitVec.getLsbD_twoPow, hk, hi, hne, decide_true, decide_false,
      Bool.true_and, Bool.or_false, Bool.not_false, Bool.and_true, if_false]
    by_cases hiw : i < w
    · simp [hiw]
    · simp [hiw, BitVec.getLsbD_of_ge x i (by omega)]

@[simp] theorem getLsbD_put_self {k : ℕ} (hk : k < w) (x : BitVec w) (b : Bool) :
    (put x k b).getLsbD k = b := by
  simp [getLsbD_put hk]

theorem put_eq_self_iff {k : ℕ} (hk : k < w) (x : BitVec w) (b : Bool) :
    put x k b = x ↔ x.getLsbD k = b := by
  constructor
  · intro h
    rw [← h, getLsbD_put_self hk]
  · intro h
    refine BitVec.eq_of_getLsbD_eq fun i _ => ?_
    rw [getLsbD_put hk]
    split_ifs with hi
    · rw [hi, h]
    · rfl

end FlagWord
