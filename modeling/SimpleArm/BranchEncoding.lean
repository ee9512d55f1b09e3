/-
# The encoding of branches

`decode_b` against the documented encoding. A branch word is its condition, the
class bits `101`, the link bit and a 24-bit immediate side by side
(`branchWord`), and the immediate of an offset is a quarter of it modulo
`2^24` (`encodeB`). The sign extension and scaling of the decoder undo that on
the offsets that are multiples of 4 from `-2^25` to below `2^25`, and give no
others, so decoding and encoding are inverse to each other
(`branch_encoding_exact`).
-/
import SimpleArm.BranchTarget
import SimpleArm.CondField

namespace SimpleArm

open BitField

/-! ### The encoder -/

/-- A branch word of the documented encoding. -/
def branchWord (cond : Word) (link : Bool) (imm24 : BitVec 24) : Word :=
  cond <<< 28 ||| place 32 0b101#3 25 ||| place 32 (BitVec.ofBool link) 24 ||| place 32 imm24 0

def encodeB (cond : Word) (link : Bool) (offset : ℤ) : Word :=
  branchWord cond link (BitVec.ofInt 24 (offset / 4))

/-- The offsets that an immediate encodes. -/
structure BranchOffset (offset : ℤ) : Prop where
  aligned : offset % 4 = 0
  lower : -2 ^ 25 ≤ offset
  upper : offset < 2 ^ 25

section Fields

variable (cond : Word) (link : Bool) (imm24 : BitVec 24)

theorem field_branchWord {k n : ℕ} : field (branchWord cond link imm24) k n =
    field (place 32 (cond.setWidth 4) 28) k n ||| field (place 32 0b101#3 25) k n |||
      field (place 32 (BitVec.ofBool link) 24) k n ||| field (place 32 imm24 0) k n := by
  rw [branchWord, shiftLeft_eq_place (n := 4) rfl]
  simp only [field, BitVec.extractLsb'_or]

theorem branchWord_cond : field (branchWord cond link imm24) 28 4 = cond.setWidth 4 := by
  rw [field_branchWord, field_place (by decide), field_place_of_disjoint (by decide),
    field_place_of_disjoint (by decide), field_place_of_disjoint (by decide)]
  simp

theorem branchWord_class : field (branchWord cond link imm24) 25 3 = 0b101#3 := by
  rw [field_branchWord, field_place_of_disjoint (by decide), field_place (by decide),
    field_place_of_disjoint (by decide), field_place_of_disjoint (by decide)]
  simp

theorem branchWord_link : field (branchWord cond link imm24) 24 1 = BitVec.ofBool link := by
  rw [field_branchWord, field_place_of_disjoint (by decide), field_place_of_disjoint (by decide),
    field_place (by decide), field_place_of_disjoint (by decide)]
  simp

theorem branchWord_imm : field (branchWord cond link imm24) 0 24 = imm24 := by
  rw [field_branchWord, field_place_of_disjoint (by decide), field_place_of_disjoint (by decide),
    field_place_of_disjoint (by decide), field_place (by decide)]
  simp

end Fields

theorem field_link (w : Word) : field w 24 1 = BitVec.ofBool (w.getLsbD 24) := by
  refine BitVec.eq_of_getLsbD_eq fun i hi => ?_
  obtain rfl : i = 0 := by omega
  rw [BitVec.getLsbD_extractLsb']
  simp

/-- A word of the class is made of the fields that it has. -/
theorem branchWord_fields {w : Word} (hw : field w 25 3 = 0b101#3) {cond : Word}
    (hcond : cond.setWidth 4 = field w 28 4) :
    branchWord cond (w.getLsbD 24) (field w 0 24) = w := by
  refine eq_of_fields fun i hi => ?_
  rcases Nat.lt_or_ge i 24 with h24 | h24
  · exact ⟨0, 24, Nat.zero_le i, by omega, branchWord_imm cond _ _⟩
  rcases Nat.lt_or_ge i 25 with h25 | h25
  · exact ⟨24, 1, h24, h25, (branchWord_link cond _ _).trans (field_link w).symm⟩
  rcases Nat.lt_or_ge i 28 with h28 | h28
  · exact ⟨25, 3, h25, h28, (branchWord_class cond _ _).trans hw.symm⟩
  · exact ⟨28, 4, h28, hi, (branchWord_cond cond _ _).trans hcond⟩

/-! ### The decoder on encoded words -/

section Decode

variable (w : Word) (f : FaultOut)

theorem branchImm_bounds : -2 ^ 23 ≤ branchImm w ∧ branchImm w < 2 ^ 23 :=
  ⟨BitVec.le_toInt _, BitVec.toInt_lt⟩

theorem decodeB_offset_toInt : (decodeB w f).1.offset.toInt = 4 * branchImm w := by
  obtain ⟨hlo, hhi⟩ := branchImm_bounds w
  rw [decodeB_offset]
  exact BitVec.toInt_ofInt_eq_self (by decide) (by omega) (by omega)

theorem decodeB_offset_range : BranchOffset (decodeB w f).1.offset.toInt := by
  obtain ⟨hlo, hhi⟩ := branchImm_bounds w
  rw [decodeB_offset_toInt]
  exact ⟨by omega, by omega, by omega⟩

theorem decodeB_cond : (decodeB w f).1.cond = (field w 28 4).setWidth 32 :=
  Decoder.cond_eq .b w f

theorem decodeB_branchWord_offset (cond : Word) (link : Bool) (imm24 : BitVec 24) :
    (decodeB (branchWord cond link imm24) f).1.offset = BitVec.ofInt 32 (4 * imm24.toInt) := by
  rw [decodeB_offset, branchImm, branchWord_imm]

end Decode

theorem toInt_branchOffset {offset : ℤ} (h : BranchOffset offset) :
    4 * (BitVec.ofInt 24 (offset / 4)).toInt = offset := by
  obtain ⟨h4, hlo, hhi⟩ := h
  rw [BitVec.toInt_ofInt_eq_self (by decide) (by omega) (by omega)]
  omega

theorem setWidth_nibble (cond : BitVec 4) : (cond.setWidth 32).setWidth 4 = cond := by
  rw [BitVec.setWidth_setWidth_of_le cond (by decide), BitVec.setWidth_eq]

/-- Decoding undoes encoding. -/
theorem decodeB_encodeB (f : FaultOut) (cond : BitVec 4) (link : Bool) {offset : ℤ}
    (h : BranchOffset offset) :
    (decodeB (encodeB (cond.setWidth 32) link offset) f).1.cond = cond.setWidth 32 ∧
      (decodeB (encodeB (cond.setWidth 32) link offset) f).1.link = link ∧
      (decodeB (encodeB (cond.setWidth 32) link offset) f).1.offset.toInt = offset := by
  unfold encodeB
  refine ⟨?_, ?_, ?_⟩
  · rw [decodeB_cond, branchWord_cond, setWidth_nibble]
  · have hlink := field_link (branchWord (cond.setWidth 32) link (BitVec.ofInt 24 (offset / 4)))
    rw [branchWord_link] at hlink
    rw [decodeB_link]
    exact (BitVec.ofBool_eq_iff_eq.mp hlink).symm
  · rw [decodeB_offset_toInt, branchImm, branchWord_imm]
    exact toInt_branchOffset h

/-- Encoding undoes decoding, on the words of the class. -/
theorem encodeB_decodeB {w : Word} (hw : field w 25 3 = 0b101#3) (f : FaultOut) :
    encodeB (decodeB w f).1.cond (decodeB w f).1.link (decodeB w f).1.offset.toInt = w := by
  have himm : BitVec.ofInt 24 ((decodeB w f).1.offset.toInt / 4) = field w 0 24 := by
    rw [decodeB_offset_toInt, Int.mul_ediv_cancel_left _ (by decide), branchImm,
      BitVec.ofInt_toInt]
  rw [encodeB, himm, decodeB_link]
  refine branchWord_fields hw ?_
  rw [decodeB_cond, setWidth_nibble]

/-! ### Targets -/

/-- The signed distance of two words that agree modulo 4 is a multiple of 4. -/
theorem distance_aligned {pc target : Word} (h : target.toNat % 4 = pc.toNat % 4) :
    (target - pc).toInt % 4 = 0 := by
  have hsub : ((target - pc).toNat) % 4 = 0 := by
    have hpc := pc.isLt
    rw [BitVec.toNat_sub]
    omega
  rw [BitVec.toInt_eq_toNat_cond]
  split_ifs <;> omega

/-- A target in range is reached by one immediate only. -/
theorem existsUnique_imm (f : FaultOut) (cond : Word) (link : Bool) {pc target : Word}
    (h : BranchOffset (target - pc).toInt) :
    ∃! imm24 : BitVec 24, pc + (decodeB (branchWord cond link imm24) f).1.offset = target := by
  have hiff : ∀ imm24 : BitVec 24, pc + (decodeB (branchWord cond link imm24) f).1.offset =
      target ↔ 4 * imm24.toInt = (target - pc).toInt := by
    intro imm24
    have hlo := BitVec.le_toInt imm24
    have hhi := BitVec.toInt_lt (x := imm24)
    have hself : (BitVec.ofInt 32 (4 * imm24.toInt)).toInt = 4 * imm24.toInt :=
      BitVec.toInt_ofInt_eq_self (by decide) (by omega) (by omega)
    rw [← hself, BitVec.toInt_inj, decodeB_branchWord_offset]
    constructor
    · intro hpc
      rw [← hpc, BitVec.add_comm, BitVec.add_sub_cancel]
    · intro hoffset
      rw [hoffset, BitVec.add_comm, BitVec.sub_add_cancel]
  refine ⟨BitVec.ofInt 24 ((target - pc).toInt / 4), (hiff _).mpr (toInt_branchOffset h), ?_⟩
  intro imm24 himm
  rw [← (hiff imm24).mp himm, Int.mul_ediv_cancel_left _ (by decide), BitVec.ofInt_toInt]

/-- **The encoding of branches.** Decoding and encoding are inverse to each other, the decoded
offsets are the multiples of 4 from `-2^25` to below `2^25`, and a target at such a distance
is reached by exactly one immediate. -/
theorem branch_encoding_exact (f : FaultOut) :
    (∀ (cond : BitVec 4) (link : Bool) (offset : ℤ), BranchOffset offset →
      (decodeB (encodeB (cond.setWidth 32) link offset) f).1.cond = cond.setWidth 32 ∧
        (decodeB (encodeB (cond.setWidth 32) link offset) f).1.link = link ∧
        (decodeB (encodeB (cond.setWidth 32) link offset) f).1.offset.toInt = offset) ∧
    (∀ w : Word, field w 25 3 = 0b101#3 →
      encodeB (decodeB w f).1.cond (decodeB w f).1.link (decodeB w f).1.offset.toInt = w ∧
        BranchOffset (decodeB w f).1.offset.toInt) ∧
    ∀ (cond : Word) (link : Bool) (pc target : Word), target.toNat % 4 = pc.toNat % 4 →
      -2 ^ 25 ≤ (target - pc).toInt → (target - pc).toInt < 2 ^ 25 →
        ∃! imm24 : BitVec 24,
          pc + (decodeB (branchWord cond link imm24) f).1.offset = target := by
  refine ⟨fun cond link offset h => decodeB_encodeB f cond link h, fun w hw => ?_, ?_⟩
  · exact ⟨encodeB_decodeB hw f, decodeB_offset_range w f⟩
  · intro cond link pc target halign hlo hhi
    exact existsUnique_imm f cond link ⟨distance_aligned halign, hlo, hhi⟩

/-- `BL` by the most negative offset, from 0. -/
theorem branch_encoding_exact_lowest :
    ((decodeB (encodeB ((0xE#4).setWidth 32) true (-2 ^ 25)) 0).1.cond = (0xE#4).setWidth 32 ∧
        (decodeB (encodeB ((0xE#4).setWidth 32) true (-2 ^ 25)) 0).1.link = true ∧
        (decodeB (encodeB ((0xE#4).setWidth 32) true (-2 ^ 25)) 0).1.offset.toInt = -2 ^ 25) ∧
      (encodeB (decodeB 0xEB800000#32 0).1.cond (decodeB 0xEB800000#32 0).1.link
          (decodeB 0xEB800000#32 0).1.offset.toInt = 0xEB800000#32 ∧
        BranchOffset (decodeB 0xEB800000#32 0).1.offset.toInt) ∧
      ∃! imm24 : BitVec 24,
        0#32 + (decodeB (branchWord 0xE#32 true imm24) 0).1.offset = 0xFE000000#32 := by
  obtain ⟨hdec, henc, htarget⟩ := branch_encoding_exact 0
  refine ⟨hdec 0xE#4 true (-2 ^ 25) ⟨by decide, by decide, by decide⟩, ?_, ?_⟩
  · exact henc 0xEB800000#32 (by decide)
  · exact htarget 0xE#32 true 0#32 0xFE000000#32 (by decide) (by decide) (by decide)

end SimpleArm
