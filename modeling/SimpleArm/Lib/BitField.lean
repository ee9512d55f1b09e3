/-
# Fields of an instruction word

A decoder takes a field out of a word with a mask and a shift,
`(x &&& mask) >>> k`, where `mask` has the `n` bits from `k` on. `field`
names what comes out: the bits `k` to `k + n - 1` as a number of their own.
An encoder puts fields side by side (`place`, `assemble`), and a word is known
by the fields that cover it (`eq_of_fields`). The rest is about bits that two words
share or do not, signs, and alignment.
-/
import Mathlib.Tactic

namespace BitField

variable {w : ℕ}

/-- The `n` bits of `x` from bit `k` on. -/
abbrev field (x : BitVec w) (k n : ℕ) : BitVec n := x.extractLsb' k n

/-- The mask of the `n` bits from bit `k` on. -/
def mask (w k n : ℕ) : BitVec w := (BitVec.allOnes n).setWidth w <<< k

theorem getLsbD_mask (k n i : ℕ) :
    (mask w k n).getLsbD i = (decide (i < w) && decide (k ≤ i) && decide (i < k + n)) := by
  simp only [mask, BitVec.getLsbD_shiftLeft, BitVec.getLsbD_setWidth, BitVec.getLsbD_allOnes]
  rw [Bool.eq_iff_iff]
  simp only [Bool.and_eq_true, Bool.not_eq_true', decide_eq_true_eq, decide_eq_false_iff_not]
  omega

theorem and_mask_shiftRight (x : BitVec w) (k n : ℕ) :
    (x &&& mask w k n) >>> k = (field x k n).setWidth w := by
  refine BitVec.eq_of_getLsbD_eq fun i hi => ?_
  simp only [BitVec.getLsbD_ushiftRight, BitVec.getLsbD_and, getLsbD_mask,
    BitVec.getLsbD_setWidth, BitVec.getLsbD_extractLsb']
  by_cases hk : k + i < w
  · simp [hk, hi, Bool.and_comm]
  · simp [BitVec.getLsbD_of_ge x (k + i) (by omega)]

theorem shiftRight_eq_field {k n : ℕ} (h : w = k + n) (x : BitVec w) :
    x >>> k = (field x k n).setWidth w := by
  refine BitVec.eq_of_getLsbD_eq fun i hi => ?_
  simp only [BitVec.getLsbD_ushiftRight, BitVec.getLsbD_setWidth, BitVec.getLsbD_extractLsb']
  by_cases hn : i < n
  · simp [hi, hn]
  · simp [hn, BitVec.getLsbD_of_ge x (k + i) (by omega)]

theorem and_mask_eq_field (x : BitVec w) (n : ℕ) : x &&& mask w 0 n = (field x 0 n).setWidth w := by
  rw [← and_mask_shiftRight, BitVec.ushiftRight_zero]

theorem getLsbD_of_field {x : BitVec w} {k n : ℕ} {v : BitVec n} (h : field x k n = v) {i : ℕ}
    (hi : i < n) : x.getLsbD (k + i) = v.getLsbD i := by
  rw [← h, BitVec.getLsbD_extractLsb', decide_eq_true hi, Bool.true_and]

theorem field_one (x : BitVec w) (k : ℕ) : field x k 1 = BitVec.ofBool (x.getLsbD k) := by
  refine BitVec.eq_of_getLsbD_eq fun i hi => ?_
  obtain rfl : i = 0 := by omega
  rw [BitVec.getLsbD_extractLsb']
  simp

theorem field_field {k n j m : ℕ} (h : j + m ≤ n) (x : BitVec w) :
    field (field x k n) j m = field x (k + j) m := by
  refine BitVec.eq_of_getLsbD_eq fun i hi => ?_
  have hin : j + i < n := by omega
  simp only [BitVec.getLsbD_extractLsb', hi, hin, decide_true, Bool.true_and, Nat.add_assoc]

theorem getLsbD_congr {x y : BitVec w} {k n : ℕ} (h : field x k n = field y k n) {i : ℕ}
    (hk : k ≤ i) (hn : i < k + n) : x.getLsbD i = y.getLsbD i := by
  obtain ⟨j, rfl⟩ : ∃ j, i = k + j := ⟨i - k, by omega⟩
  rw [getLsbD_of_field h (by omega), BitVec.getLsbD_extractLsb', decide_eq_true (by omega),
    Bool.true_and]

theorem field_congr {x y : BitVec w} {k n j m : ℕ} (h : field x k n = field y k n) (hk : k ≤ j)
    (hn : j + m ≤ k + n) : field x j m = field y j m := by
  refine BitVec.eq_of_getLsbD_eq fun i hi => ?_
  rw [BitVec.getLsbD_extractLsb', BitVec.getLsbD_extractLsb',
    getLsbD_congr h (by omega) (by omega)]

/-! ### Words from fields -/

/-- A field of `n` bits put at bit `k` of a word of zeros. -/
def place {n : ℕ} (w : ℕ) (v : BitVec n) (k : ℕ) : BitVec w := v.setWidth w <<< k

theorem getLsbD_place {n : ℕ} (v : BitVec n) (k i : ℕ) : (place w v k).getLsbD i =
    (decide (i < w) && decide (k ≤ i) && v.getLsbD (i - k)) := by
  rw [place, BitVec.getLsbD_shiftLeft, BitVec.getLsbD_setWidth]
  by_cases hi : i < w
  · have hik : i - k < w := by omega
    by_cases hk : k ≤ i
    · simp [hi, hk, hik]
    · simp [hk]
  · simp [hi]

theorem field_place {n k : ℕ} (h : k + n ≤ w) (v : BitVec n) : field (place w v k) k n = v := by
  refine BitVec.eq_of_getLsbD_eq fun i hi => ?_
  have hik : k + i < w := by omega
  rw [BitVec.getLsbD_extractLsb', getLsbD_place]
  simp [hi, hik]

theorem field_place_of_disjoint {n k j m : ℕ} (h : k + n ≤ j ∨ j + m ≤ k) (v : BitVec n) :
    field (place w v k) j m = 0#m := by
  refine BitVec.eq_of_getLsbD_eq fun i hi => ?_
  rw [BitVec.getLsbD_extractLsb', getLsbD_place, BitVec.getLsbD_zero]
  rcases h with h | h
  · rw [BitVec.getLsbD_of_ge v (j + i - k) (by omega)]
    simp
  · have hk : ¬ k ≤ j + i := by omega
    simp [hk]

/-- A shift past the rest of the word puts the low bits there. -/
theorem shiftLeft_eq_place {k n : ℕ} (h : w = k + n) (x : BitVec w) :
    x <<< k = place w (x.setWidth n) k := by
  refine BitVec.eq_of_getLsbD_eq fun i hi => ?_
  rw [BitVec.getLsbD_shiftLeft, getLsbD_place, BitVec.getLsbD_setWidth]
  by_cases hk : k ≤ i
  · have hin : i - k < n := by omega
    simp [hi, hk, hin]
  · simp [hk]

/-- Words are equal when every bit is in a field on which they agree. -/
theorem eq_of_fields {x y : BitVec w}
    (h : ∀ i, i < w → ∃ k n, k ≤ i ∧ i < k + n ∧ field x k n = field y k n) : x = y := by
  refine BitVec.eq_of_getLsbD_eq fun i hi => ?_
  obtain ⟨k, n, hk, hn, hf⟩ := h i hi
  exact getLsbD_congr hf hk hn

/-- A field and the bit it starts at. -/
structure Placed where
  {width : ℕ}
  value : BitVec width
  start : ℕ

/-- The first bit of a field and its width. -/
def Placed.span (p : Placed) : ℕ × ℕ := (p.start, p.width)

/-- Two fields have no bit in common. -/
def Apart (p q : ℕ × ℕ) : Prop := p.1 + p.2 ≤ q.1 ∨ q.1 + q.2 ≤ p.1

instance : DecidableRel Apart := fun p q => by unfold Apart; infer_instance

/-- The word with these fields, and zeros elsewhere. -/
def assemble (w : ℕ) (l : List Placed) : BitVec w :=
  l.foldr (fun p x => place w p.value p.start ||| x) 0#w

theorem assemble_cons (p : Placed) (l : List Placed) :
    assemble w (p :: l) = place w p.value p.start ||| assemble w l := rfl

theorem field_assemble_of_disjoint {l : List Placed} {j m : ℕ}
    (h : ∀ p ∈ l, p.start + p.width ≤ j ∨ j + m ≤ p.start) :
    field (assemble w l) j m = 0#m := by
  induction l with
  | nil => exact BitVec.extractLsb'_zero
  | cons p l ih =>
    rw [assemble_cons, field, BitVec.extractLsb'_or]
    have hp := field_place_of_disjoint (w := w) (h p List.mem_cons_self) p.value
    have hl := ih fun q hq => h q (List.mem_cons_of_mem p hq)
    rw [field] at hp hl
    rw [hp, hl, BitVec.or_zero]

/-- Fields apart from each other are read back. -/
theorem field_assemble {l : List Placed} {n k : ℕ} {v : BitVec n}
    (hl : (l.map Placed.span).Pairwise Apart) (hp : ⟨v, k⟩ ∈ l) (hw : k + n ≤ w) :
    field (assemble w l) k n = v := by
  induction l with
  | nil => cases hp
  | cons q l ih =>
    rw [List.map_cons, List.pairwise_cons] at hl
    have hq : ∀ r ∈ l, q.start + q.width ≤ r.start ∨ r.start + r.width ≤ q.start :=
      fun r hr => hl.1 _ (List.mem_map_of_mem hr)
    rw [assemble_cons, field, BitVec.extractLsb'_or]
    rcases List.mem_cons.mp hp with rfl | hp
    · have hself := field_place hw v
      have hrest := field_assemble_of_disjoint (w := w) (j := k) (m := n)
        fun r hr => (hq r hr).symm
      rw [field] at hself hrest
      rw [hself, hrest, BitVec.or_zero]
    · have hother := field_place_of_disjoint (w := w) (hq _ hp) q.value
      have hback := ih hl.2 hp
      rw [field] at hother hback
      rw [hother, hback, BitVec.zero_or]

/-! ### Disjoint words -/

/-- Words have no common bit when their union is their symmetric difference. -/
theorem or_eq_xor_iff (x y : BitVec w) : x ||| y = x ^^^ y ↔ x &&& y = 0#w := by
  rw [BitVec.eq_of_getElem_eq_iff, BitVec.eq_of_getElem_eq_iff]
  refine forall₂_congr fun i hi => ?_
  rw [BitVec.getElem_or, BitVec.getElem_xor, BitVec.getElem_and, BitVec.getElem_zero]
  cases x[i] <;> cases y[i] <;> decide

theorem eq_and_not_iff (x y : BitVec w) : x = x &&& ~~~y ↔ x &&& y = 0#w := by
  rw [BitVec.eq_of_getElem_eq_iff, BitVec.eq_of_getElem_eq_iff]
  refine forall₂_congr fun i hi => ?_
  rw [BitVec.getElem_and, BitVec.getElem_not, BitVec.getElem_and, BitVec.getElem_zero]
  cases x[i] <;> cases y[i] <;> decide

theorem and_not_eq_zero_iff (x y : BitVec w) : x &&& ~~~y = 0#w ↔ x &&& y = x := by
  rw [← eq_and_not_iff, BitVec.not_not, eq_comm]

/-! ### Sign extension -/

/-- Shifting a field to the top and back by an arithmetic shift copies its sign. -/
theorem shiftLeft_sshiftRight_eq_signExtend {n : ℕ} (hpos : 0 < n) (hn : n ≤ w) (b : BitVec n) :
    (b.setWidth w <<< (w - n)).sshiftRight (w - n) = b.signExtend w := by
  have hmsb : (b.setWidth w <<< (w - n)).msb = b.msb := by
    have h1 : w - 1 < w := by omega
    have h2 : ¬ w - 1 < w - n := by omega
    have h3 : w - 1 - (w - n) = n - 1 := by omega
    simp [BitVec.msb_eq_getLsbD_last, h1, h2, h3]
  refine BitVec.eq_of_getLsbD_eq fun i hi => ?_
  rw [BitVec.getLsbD_sshiftRight, BitVec.getLsbD_signExtend, hmsb, BitVec.getLsbD_shiftLeft]
  by_cases hin : i < n
  · have h1 : w - n + i < w := by omega
    have h2 : ¬ w - n + i < w - n := by omega
    simp [hi, hin, h1, h2]
  · have h1 : ¬ w - n + i < w := by omega
    simp [hi, hin, h1]

theorem toNat_add_ofInt (x : BitVec w) (z : ℤ) :
    ((x + BitVec.ofInt w z).toNat : ℤ) = (x.toNat + z) % 2 ^ w := by
  rw [BitVec.toNat_add, BitVec.toNat_ofInt]
  have hpos : (0 : ℤ) < 2 ^ w := by positivity
  have hz := Int.emod_nonneg z hpos.ne'
  push_cast
  rw [Int.toNat_of_nonneg hz, Int.add_emod_emod]

/-! ### Putting fields side by side -/

/-- A field of `n` bits shifted above a number that ends below it is added to it. -/
theorem toNat_or_shiftLeft {n s : ℕ} (x : BitVec w) (b : BitVec n) (hx : x.toNat < 2 ^ s)
    (hs : s + n ≤ w) : (x ||| (b.setWidth w <<< s)).toNat = x.toNat + 2 ^ s * b.toNat ∧
      x.toNat + 2 ^ s * b.toNat < 2 ^ (s + n) := by
  have hb := b.isLt
  have hlt : x.toNat + 2 ^ s * b.toNat < 2 ^ (s + n) := by
    calc x.toNat + 2 ^ s * b.toNat < 2 ^ s + 2 ^ s * b.toNat := Nat.add_lt_add_right hx _
      _ = 2 ^ s * (b.toNat + 1) := by ring
      _ ≤ 2 ^ s * 2 ^ n := Nat.mul_le_mul_left _ hb
      _ = 2 ^ (s + n) := (pow_add 2 s n).symm
  have hw : 2 ^ (s + n) ≤ 2 ^ w := Nat.pow_le_pow_right (by decide) hs
  have hnw : 2 ^ n ≤ 2 ^ w := Nat.pow_le_pow_right (by decide) (by omega)
  refine ⟨?_, hlt⟩
  rw [BitVec.toNat_or, BitVec.toNat_shiftLeft, BitVec.toNat_setWidth,
    Nat.mod_eq_of_lt (hb.trans_le hnw), Nat.shiftLeft_eq, Nat.mul_comm,
    Nat.mod_eq_of_lt ((Nat.le_add_left _ _).trans_lt (hlt.trans_le hw)), Nat.or_comm,
    ← Nat.two_pow_add_eq_or_of_lt hx, Nat.add_comm]

/-! ### Alignment -/

/-- The mask of the `k` low bits. -/
def lowMask (w k : ℕ) : BitVec w := BitVec.ofNat w (2 ^ k - 1)

theorem toNat_and_lowMask {k : ℕ} (hk : k ≤ w) (x : BitVec w) :
    (x &&& lowMask w k).toNat = x.toNat % 2 ^ k := by
  have hpow : 2 ^ k ≤ 2 ^ w := Nat.pow_le_pow_right (by decide) hk
  have hpos := Nat.two_pow_pos k
  rw [lowMask, BitVec.toNat_and, BitVec.toNat_ofNat, Nat.mod_eq_of_lt (by omega),
    Nat.and_two_pow_sub_one_eq_mod]

/-- The test of the low bits is alignment. -/
theorem and_lowMask_eq_zero_iff {k : ℕ} (hk : k ≤ w) (x : BitVec w) :
    x &&& lowMask w k = 0#w ↔ x.toNat % 2 ^ k = 0 := by
  rw [← BitVec.toNat_inj, toNat_and_lowMask hk]
  simp

theorem toNat_and_not_lowMask {k : ℕ} (hk : k ≤ w) (x : BitVec w) :
    (x &&& ~~~lowMask w k).toNat = x.toNat - x.toNat % 2 ^ k := by
  have hdisj : (x &&& ~~~lowMask w k) &&& (x &&& lowMask w k) = 0#w := by
    refine BitVec.eq_of_getElem_eq fun i hi => ?_
    cases hb : (lowMask w k)[i] <;> simp [hb]
  have hsum : (x &&& ~~~lowMask w k) + (x &&& lowMask w k) = x := by
    rw [BitVec.add_eq_or_of_and_eq_zero _ _ hdisj]
    refine BitVec.eq_of_getElem_eq fun i hi => ?_
    cases hb : (lowMask w k)[i] <;> simp [hb]
  have h := BitVec.toNat_add_of_and_eq_zero hdisj
  rw [hsum, toNat_and_lowMask hk] at h
  omega

end BitField
