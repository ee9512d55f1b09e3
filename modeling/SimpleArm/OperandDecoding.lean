/-
# What the decoder keeps of the second operand

Twelve bits of a data-processing word encode its second operand: an immediate
with a rotation, or a register with a shift by an immediate or by a register
(`encodedOperand2`). The decoder keeps the immediate and the register. The
rotation and the shift go into a `RegShift` through a scalar, which initialises
its first member only, the truth value `shift_by_reg`: what is left of them is
whether they are 0 (`decode_operand2_eq`). So the operand is decoded exactly on
the words that have none, and on every other word it is lost
(`decodesOperand2_iff`).
-/
import SimpleArm.CondField

namespace SimpleArm

open BitField

/-! ### The encoded operand -/

/-- The second operand of the encoding. -/
inductive EncodedOperand2
  | imm (rotate : BitVec 4) (imm8 : BitVec 8)
  | byImm (rm : BitVec 4) (type : BitVec 2) (imm5 : BitVec 5)
  | byReg (rm : BitVec 4) (type : BitVec 2) (rs : BitVec 4)
deriving DecidableEq, Repr

/-- Bit 7 has no meaning in a shift by a register. -/
def encodedOperand2 (w : Word) : EncodedOperand2 :=
  if w.getLsbD 25 then .imm (field w 8 4) (field w 0 8)
  else if w.getLsbD 4 then .byReg (field w 0 4) (field w 5 2) (field w 8 4)
  else .byImm (field w 0 4) (field w 5 2) (field w 7 5)

/-- The first byte of the union in a `RegShift`, the type in both members. -/
def ShiftBy.type : ShiftBy → Word
  | byImm type _ => type
  | byReg type _ => type

/-- The second byte of the union, `imm5` or `rs`. -/
def ShiftBy.amount : ShiftBy → Byte
  | byImm _ imm5 => imm5
  | byReg _ rs => rs

/-- The decoded operand has the fields of the encoded one. A rotation is in the first member
of its `RegShift`. -/
def Operand2.Carries (o : Operand2) (e : EncodedOperand2) : Prop :=
  match e, o with
  | .imm rotate imm8, .immOperand o =>
    o.imm8 = imm8 ∧ o.rotate.shiftByReg.toNat = rotate.toNat
  | .byImm rm type imm5, .regOperand o =>
    o.rm = rm.setWidth 8 ∧ o.shift.shiftByReg = false ∧
      o.shift.shiftBy.type = type.setWidth 32 ∧ o.shift.shiftBy.amount = imm5.setWidth 8
  | .byReg rm type rs, .regOperand o =>
    o.rm = rm.setWidth 8 ∧ o.shift.shiftByReg = true ∧
      o.shift.shiftBy.type = type.setWidth 32 ∧ o.shift.shiftBy.amount = rs.setWidth 8
  | _, _ => False

/-- Two decoded instructions differ in `raw` at most. -/
def DecodedDataProcessing.SameButRaw (d d' : DecodedDataProcessing) : Prop :=
  { d with raw := d'.raw } = d'

section Forms

variable {w : Word}

theorem encodedOperand2_imm (hi : w.getLsbD 25 = true) :
    encodedOperand2 w = .imm (field w 8 4) (field w 0 8) := by
  rw [encodedOperand2, if_pos hi]

theorem encodedOperand2_byReg (hi : w.getLsbD 25 = false) (h4 : w.getLsbD 4 = true) :
    encodedOperand2 w = .byReg (field w 0 4) (field w 5 2) (field w 8 4) := by
  rw [encodedOperand2, if_neg (Bool.eq_false_iff.mp hi), if_pos h4]

theorem encodedOperand2_byImm (hi : w.getLsbD 25 = false) (h4 : w.getLsbD 4 = false) :
    encodedOperand2 w = .byImm (field w 0 4) (field w 5 2) (field w 7 5) := by
  rw [encodedOperand2, if_neg (Bool.eq_false_iff.mp hi), if_neg (Bool.eq_false_iff.mp h4)]

theorem decode_operand2_imm (hi : w.getLsbD 25 = true) (f : FaultOut) :
    (decode w f).1.operand2 =
      .immOperand ⟨field w 0 8, .ofScalar ((field w 8 4).setWidth 8)⟩ := by
  rw [decode_operand2_eq, if_pos hi]

theorem decode_operand2_reg (hi : w.getLsbD 25 = false) (f : FaultOut) :
    (decode w f).1.operand2 =
      .regOperand ⟨(field w 0 4).setWidth 8, .ofScalar (field w 4 8)⟩ := by
  rw [decode_operand2_eq, if_neg (Bool.eq_false_iff.mp hi)]

end Forms

/-- The word's second operand is decoded, and no word that differs in it decodes to the same
instruction. -/
structure DecodesOperand2 (w : Word) (f : FaultOut) : Prop where
  carries : (decode w f).1.operand2.Carries (encodedOperand2 w)
  determines : ∀ w', field w' 12 20 = field w 12 20 → encodedOperand2 w' ≠ encodedOperand2 w →
    ¬ (decode w f).1.SameButRaw (decode w' f).1

/-! ### What decides the decoded instruction -/

section Words

variable {w w' : Word} (f : FaultOut)

/-- The upper bits and the decoded second operand decide everything but `raw`. -/
theorem sameButRaw_decode_iff (h : field w' 12 20 = field w 12 20) :
    (decode w f).1.SameButRaw (decode w' f).1 ↔
      (decode w f).1.operand2 = (decode w' f).1.operand2 := by
  constructor
  · intro hsame
    unfold DecodedDataProcessing.SameButRaw at hsame
    have hop := congrArg DecodedDataProcessing.operand2 hsame
    exact hop
  · intro hop
    have hcond : (decode w f).1.cond = (decode w' f).1.cond := by
      have hw := Decoder.cond_eq .dataProcessing w f
      rw [← field_congr h (j := 28) (m := 4) (by decide) (by decide)] at hw
      exact hw.trans (Decoder.cond_eq .dataProcessing w' f).symm
    have himm : (decode w f).1.immediateMode = (decode w' f).1.immediateMode := by
      rw [decode_immediateMode, decode_immediateMode, getLsbD_congr h (by decide) (by decide)]
    have hopcode : (decode w f).1.op = (decode w' f).1.op := by
      rw [decode_op, decode_op, field_congr h (by decide) (by decide)]
    have hs : (decode w f).1.setConditionCodes = (decode w' f).1.setConditionCodes := by
      rw [decode_setConditionCodes, decode_setConditionCodes,
        getLsbD_congr h (by decide) (by decide)]
    have hrn : (decode w f).1.rn = (decode w' f).1.rn := by
      refine BitVec.eq_of_toNat_eq ?_
      rw [decode_rn, decode_rn, field_congr h (by decide) (by decide)]
    have hrd : (decode w f).1.rd = (decode w' f).1.rd := by
      refine BitVec.eq_of_toNat_eq ?_
      rw [decode_rd, decode_rd, field_congr h (by decide) (by decide)]
    unfold DecodedDataProcessing.SameButRaw
    rw [hcond, himm, hopcode, hs, hrn, hrd, hop]

theorem encodedOperand2_congr (hi : w.getLsbD 25 = false) (hi' : w'.getLsbD 25 = false)
    (hrm : field w' 0 4 = field w 0 4) (hshift : field w' 4 8 = field w 4 8) :
    encodedOperand2 w' = encodedOperand2 w := by
  have htype : field w' 5 2 = field w 5 2 := field_congr hshift (by decide) (by decide)
  have hrs : field w' 8 4 = field w 8 4 := field_congr hshift (by decide) (by decide)
  have himm5 : field w' 7 5 = field w 7 5 := field_congr hshift (by decide) (by decide)
  have h4' : w'.getLsbD 4 = w.getLsbD 4 := getLsbD_congr hshift (by decide) (by decide)
  cases h4 : w.getLsbD 4
  · rw [encodedOperand2_byImm hi h4, encodedOperand2_byImm hi' (h4'.trans h4), hrm, htype, himm5]
  · rw [encodedOperand2_byReg hi h4, encodedOperand2_byReg hi' (h4'.trans h4), hrm, htype, hrs]

end Words

/-! ### Words without shift and rotation -/

/-- The word has no rotation and no shift. -/
def Unshifted (w : Word) : Prop :=
  if w.getLsbD 25 then field w 8 4 = 0#4 else field w 4 8 = 0#8

theorem ofScalar_inj_zero {s : Byte} (h : RegShift.ofScalar s = RegShift.ofScalar 0#8) :
    s = 0#8 := by
  have hbool := congrArg RegShift.shiftByReg h
  simpa [RegShift.ofScalar] using hbool

theorem setWidth_setWidth_nibble (v : BitVec 4) : (v.setWidth 8).setWidth 4 = v := by
  rw [BitVec.setWidth_setWidth_of_le _ (by decide), BitVec.setWidth_eq]

/-- The scalar 0 says that there is no shift. -/
theorem decodesOperand2_of_noShift {w : Word} (hi : w.getLsbD 25 = false)
    (h : field w 4 8 = 0#8) (f : FaultOut) : DecodesOperand2 w f := by
  obtain ⟨h4, htype, himm5⟩ := shift_fields_of_zero h
  refine ⟨?_, fun w' hw' hne hsame => hne ?_⟩
  · rw [decode_operand2_reg hi, encodedOperand2_byImm hi h4, htype, himm5, h]
    exact ⟨rfl, rfl, rfl, rfl⟩
  · have hi' : w'.getLsbD 25 = false := (getLsbD_congr hw' (by decide) (by decide)).trans hi
    have hop := (sameButRaw_decode_iff f hw').mp hsame
    rw [decode_operand2_reg hi, decode_operand2_reg hi', h] at hop
    obtain ⟨hrm, hscalar⟩ := Operand2Reg.mk.inj (Operand2.regOperand.inj hop)
    have hback := congrArg (BitVec.setWidth 4) hrm
    rw [setWidth_setWidth_nibble, setWidth_setWidth_nibble] at hback
    have hshift : field w' 4 8 = field w 4 8 := (ofScalar_inj_zero hscalar.symm).trans h.symm
    exact encodedOperand2_congr hi hi' hback.symm hshift

theorem decodesOperand2_of_noRotate {w : Word} (hi : w.getLsbD 25 = true)
    (h : field w 8 4 = 0#4) (f : FaultOut) : DecodesOperand2 w f := by
  refine ⟨?_, fun w' hw' hne hsame => hne ?_⟩
  · rw [decode_operand2_imm hi, encodedOperand2_imm hi, h]
    exact ⟨rfl, rfl⟩
  · have hi' : w'.getLsbD 25 = true := (getLsbD_congr hw' (by decide) (by decide)).trans hi
    have hop := (sameButRaw_decode_iff f hw').mp hsame
    rw [decode_operand2_imm hi, decode_operand2_imm hi', h] at hop
    obtain ⟨himm8, hscalar⟩ := Operand2Imm.mk.inj (Operand2.immOperand.inj hop)
    have hback := congrArg (BitVec.setWidth 4) (ofScalar_inj_zero hscalar.symm)
    have hrotate : field w' 8 4 = 0#4 := (setWidth_setWidth_nibble _).symm.trans hback
    rw [encodedOperand2_imm hi, encodedOperand2_imm hi', h, hrotate, himm8]

/-! ### The other words -/

/-- The word with other low bits. -/
def withOperand2 (w : Word) (low : BitVec 12) : Word := field w 12 20 ++ low

section WithOperand2

variable (w : Word) (low : BitVec 12)

theorem field_withOperand2_high : field (withOperand2 w low) 12 20 = field w 12 20 :=
  BitVec.extractLsb'_append_eq_left

theorem field_withOperand2_low {k n : ℕ} (h : k + n ≤ 12) :
    field (withOperand2 w low) k n = field low k n :=
  BitVec.extractLsb'_append_eq_of_add_le h

theorem getLsbD_withOperand2_high {i : ℕ} (hi : 12 ≤ i) (hi32 : i < 32) :
    (withOperand2 w low).getLsbD i = w.getLsbD i :=
  getLsbD_congr (field_withOperand2_high w low) hi hi32

end WithOperand2

/-- Two words that differ in the operand and decode like `w` show that it is lost. -/
theorem not_decodesOperand2 {w : Word} {f : FaultOut} {low low' : BitVec 12}
    (hne : encodedOperand2 (withOperand2 w low) ≠ encodedOperand2 (withOperand2 w low'))
    (h : (decode w f).1.operand2 = (decode (withOperand2 w low) f).1.operand2)
    (h' : (decode w f).1.operand2 = (decode (withOperand2 w low') f).1.operand2) :
    ¬ DecodesOperand2 w f := by
  intro hdec
  have hlost : ∀ l, (decode w f).1.operand2 = (decode (withOperand2 w l) f).1.operand2 →
      encodedOperand2 (withOperand2 w l) = encodedOperand2 w := by
    intro l hl
    by_contra hn
    refine hdec.determines _ (field_withOperand2_high w l) hn ?_
    exact (sameButRaw_decode_iff f (field_withOperand2_high w l)).mpr hl
  exact hne ((hlost low h).trans (hlost low' h').symm)

theorem ofScalar_of_ne_zero {s : Byte} (h : s ≠ 0#8) : RegShift.ofScalar s = .ofScalar 1#8 := by
  rw [RegShift.ofScalar, bne_iff_ne.mpr h]
  rfl

/-- A shift decodes like the shifts of the same register by 2 and by 4. -/
theorem not_decodesOperand2_of_shift {w : Word} (hi : w.getLsbD 25 = false)
    (hshift : field w 4 8 ≠ 0#8) (f : FaultOut) : ¬ DecodesOperand2 w f := by
  have hi' : ∀ low, (withOperand2 w low).getLsbD 25 = false := fun low =>
    (getLsbD_withOperand2_high w low (by decide) (by decide)).trans hi
  have hbyte : ∀ s : BitVec 8, field (withOperand2 w (s ++ field w 0 4)) 4 8 = s := by
    intro s
    rw [field_withOperand2_low _ _ (by decide)]
    exact BitVec.extractLsb'_append_eq_left
  have hdecode : ∀ s : BitVec 8, s ≠ 0#8 → (decode w f).1.operand2 =
      (decode (withOperand2 w (s ++ field w 0 4)) f).1.operand2 := by
    intro s hs
    have hrm : field (withOperand2 w (s ++ field w 0 4)) 0 4 = field w 0 4 := by
      rw [field_withOperand2_low _ _ (by decide)]
      exact BitVec.extractLsb'_append_eq_right
    rw [decode_operand2_reg hi, decode_operand2_reg (hi' _), hrm, hbyte,
      ofScalar_of_ne_zero hshift, ofScalar_of_ne_zero hs]
  refine not_decodesOperand2 ?_ (hdecode 0x10#8 (by decide)) (hdecode 0x20#8 (by decide))
  have hbit : ∀ (s : BitVec 8) (i : ℕ), i < 8 →
      (withOperand2 w (s ++ field w 0 4)).getLsbD (4 + i) = s.getLsbD i :=
    fun s i hi => getLsbD_of_field (hbyte s) hi
  have h4 := hbit 0x10#8 0 (by decide)
  have h4' := hbit 0x20#8 0 (by decide)
  rw [encodedOperand2_byImm (hi' _) h4, encodedOperand2_byImm (hi' _) h4']
  intro h
  have himm5 := (EncodedOperand2.byImm.inj h).2.2
  have h8 := getLsbD_congr himm5 (i := 4 + 4) (by decide) (by decide)
  rw [hbit _ 4 (by decide), hbit _ 4 (by decide)] at h8
  cases h8

theorem not_decodesOperand2_of_rotate {w : Word} (hi : w.getLsbD 25 = true)
    (hrotate : field w 8 4 ≠ 0#4) (f : FaultOut) : ¬ DecodesOperand2 w f := by
  have hi' : ∀ low, (withOperand2 w low).getLsbD 25 = true := fun low =>
    (getLsbD_withOperand2_high w low (by decide) (by decide)).trans hi
  have hfield : ∀ r : BitVec 4, field (withOperand2 w (r ++ field w 0 8)) 8 4 = r := by
    intro r
    rw [field_withOperand2_low _ _ (by decide)]
    exact BitVec.extractLsb'_append_eq_left
  have hbyte : ∀ r : BitVec 4, r ≠ 0#4 → r.setWidth 8 ≠ 0#8 := by decide
  have hdecode : ∀ r : BitVec 4, r ≠ 0#4 → (decode w f).1.operand2 =
      (decode (withOperand2 w (r ++ field w 0 8)) f).1.operand2 := by
    intro r hr
    have himm8 : field (withOperand2 w (r ++ field w 0 8)) 0 8 = field w 0 8 := by
      rw [field_withOperand2_low _ _ (by decide)]
      exact BitVec.extractLsb'_append_eq_right
    rw [decode_operand2_imm hi, decode_operand2_imm (hi' _), himm8, hfield,
      ofScalar_of_ne_zero (hbyte _ hrotate), ofScalar_of_ne_zero (hbyte r hr)]
  refine not_decodesOperand2 ?_ (hdecode 1#4 (by decide)) (hdecode 2#4 (by decide))
  rw [encodedOperand2_imm (hi' _), encodedOperand2_imm (hi' _), hfield, hfield]
  intro h
  have hr := (EncodedOperand2.imm.inj h).1
  exact absurd hr (by decide)

/-- **What the decoder keeps of the second operand.** It is decoded, and no other operand
decodes to the same instruction, exactly on the words without shift and rotation. -/
theorem decodesOperand2_iff (w : Word) (f : FaultOut) : DecodesOperand2 w f ↔ Unshifted w := by
  unfold Unshifted
  cases hi : w.getLsbD 25
  · rw [if_neg Bool.false_ne_true]
    constructor
    · intro h
      by_contra hshift
      exact not_decodesOperand2_of_shift hi hshift f h
    · intro h
      exact decodesOperand2_of_noShift hi h f
  · rw [if_pos rfl]
    constructor
    · intro h
      by_contra hrotate
      exact not_decodesOperand2_of_rotate hi hrotate f h
    · intro h
      exact decodesOperand2_of_noRotate hi h f

/-- `ADD r0, r1, r2, LSL #4` and `LSL #8` decode to the same instruction. -/
theorem decodesOperand2_lsl :
    field 0xE0810402#32 12 20 = field 0xE0810202#32 12 20 ∧
      encodedOperand2 0xE0810402#32 ≠ encodedOperand2 0xE0810202#32 ∧
      (decode 0xE0810202#32 0).1.SameButRaw (decode 0xE0810402#32 0).1 ∧
      ¬ DecodesOperand2 0xE0810202#32 0 := by
  have hsame : (decode 0xE0810202#32 0).1.SameButRaw (decode 0xE0810402#32 0).1 := by
    unfold DecodedDataProcessing.SameButRaw
    decide
  refine ⟨by decide, by decide, hsame, fun h => ?_⟩
  exact h.determines 0xE0810402#32 (by decide) (by decide) hsame

end SimpleArm
