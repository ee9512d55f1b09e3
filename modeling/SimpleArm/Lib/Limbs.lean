/-
# Digit chains: multi-word arithmetic one limb at a time

A number of many words is a list of `w`-bit limbs, lowest first, and is added
limb by limb: each digit step takes the carry of the one before. `chain` is
such a computation for any digit step `f`.

A digit step that keeps everything satisfies `digit + 2^w * carry' = x + y + carry`.
The theorem here is about steps that may lose: if `f` is exact except at the
digits `Bad`, where digit and carry together are too small, then the whole
chain is exact if and only if no limb is bad for the carry that enters it
(`chain_exact_iff`). A later loss never makes up for an earlier one, because
the chain never exceeds the sum (`chain_le`).
-/
import Mathlib.Tactic
import Mathlib.Data.Nat.Digits.Defs

namespace Limbs

variable {w : ℕ}

/-- The number a list of limbs stands for, lowest limb first. -/
def value (l : List (BitVec w)) : ℕ := Nat.ofDigits (2 ^ w) (l.map BitVec.toNat)

@[simp] theorem value_nil : value ([] : List (BitVec w)) = 0 := rfl

@[simp] theorem value_cons (x : BitVec w) (l : List (BitVec w)) :
    value (x :: l) = x.toNat + 2 ^ w * value l := by
  simp [value, Nat.ofDigits_cons]

theorem pow_succ_limb (n : ℕ) : (2 ^ w) ^ (n + 1) = 2 ^ w * (2 ^ w) ^ n := by
  rw [pow_succ, mul_comm]

theorem value_lt : ∀ l : List (BitVec w), value l < (2 ^ w) ^ l.length
  | [] => by simp
  | x :: l => by
    have hx := x.isLt
    have hl := value_lt l
    rw [value_cons, List.length_cons, pow_succ_limb]
    calc x.toNat + 2 ^ w * value l < 2 ^ w + 2 ^ w * value l := Nat.add_lt_add_right hx _
      _ = 2 ^ w * (value l + 1) := by ring
      _ ≤ 2 ^ w * (2 ^ w) ^ l.length := Nat.mul_le_mul_left _ hl

/-! ### Chains -/

/-- A digit step: the carry in and the two digits, to the digit and the carry out. -/
abbrev Step (w : ℕ) := Bool → BitVec w → BitVec w → BitVec w × Bool

/-- The limbs and the last carry of the chain `f` from carry `c`. -/
def chain (f : Step w) : Bool → List (BitVec w × BitVec w) → List (BitVec w) × Bool
  | c, [] => ([], c)
  | c, (x, y) :: l =>
    ((f c x y).1 :: (chain f (f c x y).2 l).1, (chain f (f c x y).2 l).2)

theorem chain_length (f : Step w) : ∀ c l, (chain f c l).1.length = l.length
  | _, [] => rfl
  | c, (x, y) :: l => by simp [chain, chain_length f _ l]

/-- All that a chain hands on: its limbs and, above them, its carry. -/
def total (r : List (BitVec w) × Bool) : ℕ := value r.1 + (2 ^ w) ^ r.1.length * r.2.toNat

theorem total_chain_cons (f : Step w) (c : Bool) (x y : BitVec w) (l : List (BitVec w × BitVec w)) :
    total (chain f c ((x, y) :: l)) =
      (f c x y).1.toNat + 2 ^ w * total (chain f (f c x y).2 l) := by
  simp only [total, chain, value_cons, List.length_cons, pow_succ_limb]
  ring

/-- The sum a chain should hand on. -/
def sum (c : Bool) (l : List (BitVec w × BitVec w)) : ℕ :=
  value (l.map Prod.fst) + value (l.map Prod.snd) + c.toNat

theorem sum_cons (c : Bool) (x y : BitVec w) (l : List (BitVec w × BitVec w)) :
    sum c ((x, y) :: l) = x.toNat + y.toNat + c.toNat + 2 ^ w * sum false l := by
  simp only [sum, List.map_cons, value_cons, Bool.toNat_false]
  ring

theorem sum_carry (c : Bool) (l : List (BitVec w × BitVec w)) :
    sum c l = sum false l + c.toNat := by
  simp [sum]

/-- The carry of the exact sum into limb `i`. -/
def carryInto (c : Bool) (l : List (BitVec w × BitVec w)) (i : ℕ) : Bool :=
  decide ((2 ^ w) ^ i ≤ sum c (l.take i))

theorem carryInto_zero (c : Bool) (l : List (BitVec w × BitVec w)) : carryInto c l 0 = c := by
  cases c <;> simp [carryInto, sum]

/-- A digit that is exact hands on the exact carry. -/
theorem carryInto_succ {c d : Bool} {x y r : BitVec w} {l : List (BitVec w × BitVec w)}
    (h : r.toNat + 2 ^ w * d.toNat = x.toNat + y.toNat + c.toNat) (i : ℕ) :
    carryInto c ((x, y) :: l) (i + 1) = carryInto d l i := by
  have hr := r.isLt
  simp only [carryInto, List.take_succ_cons, sum_cons, decide_eq_decide]
  rw [← h, pow_succ_limb, sum_carry d]
  generalize (2 ^ w) ^ i = q
  generalize sum false (l.take i) = s
  have e : r.toNat + 2 ^ w * d.toNat + 2 ^ w * s = r.toNat + 2 ^ w * (s + d.toNat) := by ring
  rw [e]
  constructor
  · intro hq
    have : 2 ^ w * q < 2 ^ w * (s + d.toNat + 1) := by rw [Nat.mul_add _ _ 1]; omega
    exact Nat.lt_succ_iff.mp (Nat.lt_of_mul_lt_mul_left this)
  · intro hq
    exact le_trans (Nat.mul_le_mul_left _ hq) (Nat.le_add_left _ _)

/-! ### Steps that lose at some digits -/

section Lossy

variable {f : Step w} {Bad : Bool → BitVec w → BitVec w → Prop}

/-- `f` adds a digit exactly, except at the digits `Bad`, where it loses. -/
structure Lossy (f : Step w) (Bad : Bool → BitVec w → BitVec w → Prop) : Prop where
  exact : ∀ c x y, ¬ Bad c x y →
    (f c x y).1.toNat + 2 ^ w * (f c x y).2.toNat = x.toNat + y.toNat + c.toNat
  loss : ∀ c x y, Bad c x y →
    (f c x y).1.toNat + 2 ^ w * (f c x y).2.toNat < x.toNat + y.toNat + c.toNat

theorem Lossy.le (h : Lossy f Bad) (c : Bool) (x y : BitVec w) :
    (f c x y).1.toNat + 2 ^ w * (f c x y).2.toNat ≤ x.toNat + y.toNat + c.toNat := by
  by_cases hb : Bad c x y
  · exact (h.loss c x y hb).le
  · exact (h.exact c x y hb).le

theorem chain_le (h : Lossy f Bad) : ∀ c l, total (chain f c l) ≤ sum c l
  | c, [] => by simp [total, chain, sum]
  | c, (x, y) :: l => by
    have hd := h.le c x y
    have ih := Nat.mul_le_mul_left (2 ^ w) (chain_le h (f c x y).2 l)
    rw [sum_carry, Nat.mul_add] at ih
    rw [total_chain_cons, sum_cons]
    omega

/-- **A lossy chain is exact where it meets no bad limb.** -/
theorem chain_exact_iff (h : Lossy f Bad) : ∀ (c : Bool) (l : List (BitVec w × BitVec w)),
    total (chain f c l) = sum c l ↔
      ∀ i (hi : i < l.length), ¬ Bad (carryInto c l i) l[i].1 l[i].2
  | c, [] => by simp [total, chain, sum]
  | c, (x, y) :: l => by
    have ih := chain_exact_iff h (f c x y).2 l
    rw [total_chain_cons, sum_cons]
    by_cases hb : Bad c x y
    · -- the digit lost here is lost for good
      have hd := h.loss c x y hb
      have hle := Nat.mul_le_mul_left (2 ^ w) (chain_le h (f c x y).2 l)
      rw [sum_carry, Nat.mul_add] at hle
      refine iff_of_false (by omega) fun hall => hall 0 (by simp) ?_
      simpa [carryInto_zero] using hb
    · have hd := h.exact c x y hb
      have hcarry := carryInto_succ (l := l) hd
      have hpos : 0 < 2 ^ w := Nat.two_pow_pos w
      have hhead : (f c x y).1.toNat + 2 ^ w * total (chain f (f c x y).2 l) =
          x.toNat + y.toNat + c.toNat + 2 ^ w * sum false l ↔
            total (chain f (f c x y).2 l) = sum (f c x y).2 l := by
        rw [← hd, sum_carry (f c x y).2 l]
        constructor
        · intro he
          refine Nat.eq_of_mul_eq_mul_left hpos ?_
          rw [Nat.mul_add]
          omega
        · intro he
          rw [he, Nat.mul_add]
          omega
      rw [hhead, ih]
      constructor
      · intro hall i hi
        cases i with
        | zero => simpa [carryInto_zero] using hb
        | succ i =>
          rw [hcarry i]
          exact hall i (by simpa using hi)
      · intro hall i hi
        have := hall (i + 1) (by simpa using hi)
        rwa [hcarry i] at this

end Lossy

/-! ### Reading a total back -/

/-- Limbs and carry are the sum's residue and quotient. -/
theorem total_eq_iff {r : List (BitVec w)} {c : Bool} {s : ℕ} (hs : s < 2 * (2 ^ w) ^ r.length) :
    total (r, c) = s ↔ value r = s % (2 ^ w) ^ r.length ∧ (c = true ↔ (2 ^ w) ^ r.length ≤ s) := by
  have hr := value_lt r
  simp only [total]
  generalize (2 ^ w) ^ r.length = m at *
  by_cases hm : m ≤ s
  · rw [Nat.mod_eq_sub_mod hm, Nat.mod_eq_of_lt (by omega)]
    cases c
    · simp [hm]
      omega
    · simp [hm]
      omega
  · rw [Nat.mod_eq_of_lt (by omega)]
    cases c
    · simp [hm]
    · simp [hm]
      omega

theorem sum_lt (l : List (BitVec w × BitVec w)) : sum false l < 2 * (2 ^ w) ^ l.length := by
  have h1 := value_lt (l.map Prod.fst)
  have h2 := value_lt (l.map Prod.snd)
  simp only [List.length_map] at h1 h2
  simp only [sum, Bool.toNat_false]
  omega

end Limbs
