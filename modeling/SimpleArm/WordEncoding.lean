/-
# Words in normal form

`instructions_enums.h` documents how an instruction is encoded. Encoding what a
decoder makes of a word gives a word again (`Decoder.normalize`): the fields
that the decoder keeps stand where they stood, its class bits are those of the
class, and of a shift or a rotation there is one bit left. The new word is
decoded to the same instruction, so it is executed alike; two words are decoded
alike exactly when they have the same normal form; and a word is its own
normal form exactly when it is of the class and all but one of the bits of its
shift or rotation are 0 (`normalize_exact`). So what the decoders lose is what
the normal form of a word does not have.
-/
import SimpleArm.BranchEncoding
import SimpleArm.CondExec
import SimpleArm.Encoding
import SimpleArm.OperandDecoding
import SimpleArm.WordBits

namespace SimpleArm

open BitField

/-! ### The encoders -/

/-- The instruction that the decoder makes of a word. -/
def Decoder.instr (d : Decoder) (w : Word) : CondInstr :=
  match d with
  | .b => .b (decodeB w 0).1 0
  | .bx => .bx (decodeBx w 0).1
  | .dataProcessing => .dataProcessing (decode w 0).1 0

def encodeBx (inst : DecodedBx) : Word :=
  assemble 32 [⟨inst.cond.setWidth 4, 28⟩, ⟨bxPattern, 4⟩, ⟨BitVec.ofNat 4 inst.rn, 0⟩]

/-- The second operand. A shift has its kind, its type and its amount; a rotation is a number. -/
def Operand2.encode : Operand2 → BitVec 12
  | regOperand o =>
    assemble 12 [⟨o.rm.setWidth 4, 0⟩, ⟨BitVec.ofBool o.shift.shiftByReg, 4⟩,
      ⟨o.shift.shiftBy.type.setWidth 2, 5⟩,
      if o.shift.shiftByReg then ⟨o.shift.shiftBy.amount.setWidth 4, 8⟩
      else ⟨o.shift.shiftBy.amount.setWidth 5, 7⟩]
  | immOperand o => assemble 12 [⟨o.imm8, 0⟩, ⟨BitVec.ofBool o.rotate.shiftByReg, 8⟩]

def DecodedDataProcessing.fields (inst : DecodedDataProcessing) : List Placed :=
  [⟨inst.cond.setWidth 4, 28⟩, ⟨0b00#2, 26⟩, ⟨BitVec.ofBool inst.immediateMode, 25⟩,
    ⟨inst.op.setWidth 4, 21⟩, ⟨BitVec.ofBool inst.setConditionCodes, 20⟩,
    ⟨inst.rn.setWidth 4, 16⟩, ⟨inst.rd.setWidth 4, 12⟩, ⟨inst.operand2.encode, 0⟩]

def encodeDataProcessing (inst : DecodedDataProcessing) : Word := assemble 32 inst.fields

def CondInstr.encode : CondInstr → Word
  | b inst _ => encodeB inst.cond inst.link inst.offset.toInt
  | bx inst => encodeBx inst
  | dataProcessing inst _ => encodeDataProcessing inst

/-- An instruction without the word that it was decoded from. -/
def CondInstr.content : CondInstr → CondInstr
  | b inst faultOut => .b { inst with raw := 0#32 } faultOut
  | bx inst => .bx { inst with raw := 0#32 }
  | dataProcessing inst faultOut => .dataProcessing { inst with raw := 0#32 } faultOut

/-- A word, decoded and encoded. -/
def Decoder.normalize (d : Decoder) (w : Word) : Word := (d.instr w).encode

/-- The class bits are those of the class. A shift has at most bit 4, a rotation at most bit 8. -/
def Decoder.Normal (d : Decoder) (w : Word) : Prop :=
  match d with
  | .b => field w 25 3 = 0b101#3
  | .bx => field w 4 24 = bxPattern
  | .dataProcessing =>
    field w 26 2 = 0b00#2 ∧ if w.getLsbD 25 then field w 9 3 = 0#3 else field w 5 7 = 0#7

section Content

variable (i : CondInstr)

theorem CondInstr.encode_content : i.content.encode = i.encode := by
  cases i <;> rfl

/-- What is executed does not depend on the word itself. -/
theorem Decoder.execute_of_content {d : Decoder} {w w' : Word}
    (h : (d.instr w).content = (d.instr w').content) (cpu : CpuState) (f : FaultOut) :
    d.execute w cpu f = d.execute w' cpu f := by
  cases d with
  | b =>
    obtain ⟨-, hcond, hlink, hoffset⟩ := DecodedB.mk.inj (CondInstr.b.inj h).1
    exact congrArg (Except.map _) (bOp_congr cpu f hcond hlink hoffset)
  | bx =>
    obtain ⟨-, hcond, hrn⟩ := DecodedBx.mk.inj (CondInstr.bx.inj h)
    exact congrArg (Except.map _) (bxOp_congr cpu hcond hrn)
  | dataProcessing =>
    obtain ⟨-, -, himm, hop, hs, hrn, hrd, hoperand2⟩ :=
      DecodedDataProcessing.mk.inj (CondInstr.dataProcessing.inj h).1
    exact dataProcOp_congr cpu f himm hop hs hrn hrd (congrArg Operand2.rm hoperand2)

end Content

/-! ### Branches -/

theorem content_encode_b (w : Word) :
    (Decoder.b.instr (Decoder.b.normalize w)).content = (Decoder.b.instr w).content := by
  have hcond := decodeB_cond w 0
  obtain ⟨hc, hl, ho⟩ := decodeB_encodeB 0 (field w 28 4) (decodeB w 0).1.link
    (decodeB_offset_range w 0)
  rw [← hcond] at hc hl ho
  have hw : Decoder.b.normalize w =
    encodeB (decodeB w 0).1.cond (decodeB w 0).1.link (decodeB w 0).1.offset.toInt := rfl
  simp only [Decoder.instr, CondInstr.content, hw, hc, hl, BitVec.eq_of_toInt_eq ho]

theorem normalize_b_iff (w : Word) : Decoder.b.normalize w = w ↔ Decoder.b.Normal w := by
  constructor
  · intro h
    show field w 25 3 = 0b101#3
    rw [← h]
    exact branchWord_class _ _ _
  · intro h
    exact encodeB_decodeB h 0

/-! ### Exchanges -/

section Bx

variable (inst : DecodedBx)

theorem field_encodeBx : field (encodeBx inst) 28 4 = inst.cond.setWidth 4 ∧
    field (encodeBx inst) 4 24 = bxPattern ∧
    field (encodeBx inst) 0 4 = BitVec.ofNat 4 inst.rn := by
  have happart : [(28, 4), (4, 24), (0, 4)].Pairwise Apart := by decide
  refine ⟨?_, ?_, ?_⟩
  · exact field_assemble happart (by simp) (by decide)
  · exact field_assemble happart (by simp) (by decide)
  · exact field_assemble happart (by simp) (by decide)

end Bx

theorem decodeBx_cond (w : Word) : (decodeBx w 0).1.cond = (field w 28 4).setWidth 32 :=
  Decoder.cond_eq .bx w 0

theorem field_normalize_bx (w : Word) : field (Decoder.bx.normalize w) 28 4 = field w 28 4 ∧
    field (Decoder.bx.normalize w) 4 24 = bxPattern ∧
    field (Decoder.bx.normalize w) 0 4 = field w 0 4 := by
  obtain ⟨hcond, hclass, hrn⟩ := field_encodeBx (decodeBx w 0).1
  rw [decodeBx_cond, setWidth_nibble] at hcond
  rw [decodeBx_rn, BitVec.ofNat_toNat, BitVec.setWidth_eq] at hrn
  exact ⟨hcond, hclass, hrn⟩

theorem content_encode_bx (w : Word) :
    (Decoder.bx.instr (Decoder.bx.normalize w)).content = (Decoder.bx.instr w).content := by
  obtain ⟨hcond, -, hrn⟩ := field_normalize_bx w
  have hc : (decodeBx (Decoder.bx.normalize w) 0).1.cond = (decodeBx w 0).1.cond := by
    rw [decodeBx_cond, decodeBx_cond, hcond]
  have hr : (decodeBx (Decoder.bx.normalize w) 0).1.rn = (decodeBx w 0).1.rn := by
    rw [decodeBx_rn, decodeBx_rn, hrn]
  simp only [Decoder.instr, CondInstr.content, hc, hr]

theorem normalize_bx_iff (w : Word) : Decoder.bx.normalize w = w ↔ Decoder.bx.Normal w := by
  obtain ⟨hcond, hclass, hrn⟩ := field_normalize_bx w
  constructor
  · intro h
    rw [h] at hclass
    exact hclass
  · intro h
    have h : field w 4 24 = bxPattern := h
    refine eq_of_fields fun i hi => ?_
    rcases Nat.lt_or_ge i 4 with h4 | h4
    · exact ⟨0, 4, Nat.zero_le i, by omega, hrn⟩
    rcases Nat.lt_or_ge i 28 with h28 | h28
    · exact ⟨4, 24, h4, h28, hclass.trans h.symm⟩
    · exact ⟨28, 4, h28, hi, hcond⟩

/-! ### Data processing -/

section DataProcessing

theorem fields_apart (inst : DecodedDataProcessing) :
    (inst.fields.map Placed.span).Pairwise Apart := by
  have hspans : [(28, 4), (26, 2), (25, 1), (21, 4), (20, 1), (16, 4), (12, 4), (0, 12)].Pairwise
      Apart := by
    decide
  exact hspans

/-- What the decoder leaves of a second operand: one bit of its shift or its rotation. -/
def normalOperand2 (w : Word) : BitVec 12 :=
  if w.getLsbD 25 then (BitVec.ofBool (field w 8 4 != 0#4)).setWidth 4 ++ field w 0 8
  else (BitVec.ofBool (field w 4 8 != 0#8)).setWidth 8 ++ field w 0 4

theorem encode_regOperand : ∀ (rm : BitVec 4) (b : Bool),
    (Operand2.regOperand ⟨rm.setWidth 8, b, .byImm 0#32 0#8⟩).encode =
      (BitVec.ofBool b).setWidth 8 ++ rm := by
  decide

theorem encode_immOperand : ∀ (imm8 : BitVec 8) (b : Bool),
    (Operand2.immOperand ⟨imm8, b, .byImm 0#32 0#8⟩).encode =
      (BitVec.ofBool b).setWidth 4 ++ imm8 := by
  decide

theorem encode_decode_operand2 (w : Word) :
    (decode w 0).1.operand2.encode = normalOperand2 w := by
  rw [decode_operand2_eq, normalOperand2]
  cases w.getLsbD 25
  · exact encode_regOperand (field w 0 4) _
  · have hzero : ((field w 8 4).setWidth 8 != 0#8) = (field w 8 4 != 0#4) := by
      generalize field w 8 4 = r
      revert r
      decide
    rw [if_pos rfl, if_pos rfl, ← hzero]
    exact encode_immOperand (field w 0 8) _

theorem setWidth_index {r : RegisterIndexT} {v : BitVec 4} (h : r.toNat = v.toNat) :
    r.setWidth 4 = v := by
  have hv := v.isLt
  refine BitVec.eq_of_toNat_eq ?_
  rw [BitVec.toNat_setWidth, h]
  omega

theorem decode_fields (w : Word) : (decode w 0).1.fields =
    [⟨field w 28 4, 28⟩, ⟨0b00#2, 26⟩, ⟨field w 25 1, 25⟩, ⟨field w 21 4, 21⟩, ⟨field w 20 1, 20⟩,
      ⟨field w 16 4, 16⟩, ⟨field w 12 4, 12⟩, ⟨normalOperand2 w, 0⟩] := by
  have hcond : (decode w 0).1.cond = (field w 28 4).setWidth 32 :=
    Decoder.cond_eq .dataProcessing w 0
  rw [DecodedDataProcessing.fields, hcond, setWidth_nibble, decode_immediateMode, decode_op,
    setWidth_nibble, decode_setConditionCodes, setWidth_index (decode_rn w 0),
    setWidth_index (decode_rd w 0), encode_decode_operand2, field_one, field_one]

theorem append_eq_field_iff {m n : ℕ} {high : BitVec m} {low : BitVec n} {x : Word} :
    high ++ low = field x 0 (m + n) ↔ high = field x n m ∧ low = field x 0 n := by
  have hhigh : field (field x 0 (m + n)) n m = field x n m := by
    rw [field_field (by omega), Nat.zero_add]
  have hlow : field (field x 0 (m + n)) 0 n = field x 0 n := field_field (by omega) x
  have hhigh' : field (high ++ low) n m = high := BitVec.extractLsb'_append_eq_left
  have hlow' : field (high ++ low) 0 n = low := BitVec.extractLsb'_append_eq_right
  constructor
  · intro h
    rw [h] at hhigh' hlow'
    exact ⟨hhigh'.symm.trans hhigh, hlow'.symm.trans hlow⟩
  · rintro ⟨rfl, rfl⟩
    refine eq_of_fields fun i hi => ?_
    rcases Nat.lt_or_ge i n with hlt | hge
    · exact ⟨0, n, Nat.zero_le i, by omega, hlow'.trans hlow.symm⟩
    · exact ⟨n, m, hge, by omega, hhigh'.trans hhigh.symm⟩

/-- The second operand of a word is the one that is left exactly when it has no other bit. -/
theorem normalOperand2_eq_iff (w : Word) : normalOperand2 w = field w 0 12 ↔
    if w.getLsbD 25 then field w 9 3 = 0#3 else field w 5 7 = 0#7 := by
  have hrotate : field (field w 8 4) 1 3 = field w 9 3 := field_field (by decide) w
  have hshift : field (field w 4 8) 1 7 = field w 5 7 := field_field (by decide) w
  rw [normalOperand2, ← hrotate, ← hshift]
  cases w.getLsbD 25
  · have hone : ∀ s : BitVec 8, (BitVec.ofBool (s != 0#8)).setWidth 8 = s ↔
        field s 1 7 = 0#7 := by
      decide
    rw [if_neg Bool.false_ne_true, if_neg Bool.false_ne_true, ← hone]
    exact append_eq_field_iff.trans (and_iff_left rfl)
  · have hone : ∀ r : BitVec 4, (BitVec.ofBool (r != 0#4)).setWidth 4 = r ↔
        field r 1 3 = 0#3 := by
      decide
    rw [if_pos rfl, if_pos rfl, ← hone]
    exact append_eq_field_iff.trans (and_iff_left rfl)

/-- The fields above the second operand that the decoder keeps, by their first bit. -/
def keptFields : List (ℕ × ℕ) := [(28, 4), (25, 1), (21, 4), (20, 1), (16, 4), (12, 4)]

theorem content_congr {w w' : Word} (hkept : ∀ p ∈ keptFields, field w p.1 p.2 = field w' p.1 p.2)
    (hop : (decode w 0).1.operand2 = (decode w' 0).1.operand2) :
    (Decoder.dataProcessing.instr w).content = (Decoder.dataProcessing.instr w').content := by
  have hbit : ∀ k, (k, 1) ∈ keptFields → w.getLsbD k = w'.getLsbD k :=
    fun k hk => getLsbD_congr (hkept _ hk) (Nat.le_refl k) (Nat.lt_succ_self k)
  have hcond : (decode w 0).1.cond = (decode w' 0).1.cond :=
    (Decoder.cond_eq .dataProcessing w 0).trans
      (hkept (28, 4) (by decide) ▸ (Decoder.cond_eq .dataProcessing w' 0).symm)
  obtain ⟨himm, hopcode, hs, hrn, hrd⟩ := decode_kept_congr 0 (hbit 25 (by decide))
    (hkept (21, 4) (by decide)) (hbit 20 (by decide)) (hkept (16, 4) (by decide))
    (hkept (12, 4) (by decide))
  simp only [Decoder.instr, CondInstr.content, hcond, himm, hopcode, hs, hrn, hrd, hop]

section Normalized

variable (w : Word)

theorem field_normalize {n k : ℕ} {v : BitVec n} (hv : ⟨v, k⟩ ∈ (decode w 0).1.fields)
    (hw : k + n ≤ 32) : field (Decoder.dataProcessing.normalize w) k n = v :=
  field_assemble (fields_apart _) hv hw

theorem field_normalize_kept {p : ℕ × ℕ} (hp : p ∈ keptFields) :
    field (Decoder.dataProcessing.normalize w) p.1 p.2 = field w p.1 p.2 := by
  have hw : ∀ q ∈ keptFields, q.1 + q.2 ≤ 32 := by decide
  have hmem : ∀ q ∈ keptFields, ⟨field w q.1 q.2, q.1⟩ ∈ (decode w 0).1.fields := by
    simp [keptFields, decode_fields]
  exact field_normalize w (hmem p hp) (hw p hp)

theorem field_normalize_class : field (Decoder.dataProcessing.normalize w) 26 2 = 0b00#2 :=
  field_normalize w (by simp [decode_fields]) (by decide)

theorem field_normalize_operand2 :
    field (Decoder.dataProcessing.normalize w) 0 12 = normalOperand2 w :=
  field_normalize w (by simp [decode_fields]) (by decide)

theorem bit25_normalize : (Decoder.dataProcessing.normalize w).getLsbD 25 = w.getLsbD 25 :=
  getLsbD_congr (field_normalize_kept w (p := (25, 1)) (by decide)) (by decide) (by decide)

/-- The second operand is decoded from a normalized word as it is from the word. -/
theorem operand2_normalize : (decode (Decoder.dataProcessing.normalize w) 0).1.operand2 =
    (decode w 0).1.operand2 := by
  have hlow := field_normalize_operand2 w
  rw [decode_operand2_eq, decode_operand2_eq, bit25_normalize]
  unfold normalOperand2 at hlow
  cases hi : w.getLsbD 25
  · rw [hi, if_neg Bool.false_ne_true] at hlow
    obtain ⟨hshift, hrm⟩ := append_eq_field_iff.mp hlow.symm
    have hscalar : ∀ s : BitVec 8,
        RegShift.ofScalar ((BitVec.ofBool (s != 0#8)).setWidth 8) = .ofScalar s := by
      decide
    rw [if_neg Bool.false_ne_true, if_neg Bool.false_ne_true, ← hshift, ← hrm, hscalar]
  · rw [hi, if_pos rfl] at hlow
    obtain ⟨hrotate, himm8⟩ := append_eq_field_iff.mp hlow.symm
    have hscalar : ∀ r : BitVec 4,
        RegShift.ofScalar (((BitVec.ofBool (r != 0#4)).setWidth 4).setWidth 8) =
          .ofScalar (r.setWidth 8) := by
      decide
    rw [if_pos rfl, if_pos rfl, ← hrotate, ← himm8, hscalar]

theorem content_encode_dataProcessing :
    (Decoder.dataProcessing.instr (Decoder.dataProcessing.normalize w)).content =
      (Decoder.dataProcessing.instr w).content :=
  content_congr (fun _ hp => field_normalize_kept w hp) (operand2_normalize w)

theorem normalize_dataProcessing_iff :
    Decoder.dataProcessing.normalize w = w ↔ Decoder.dataProcessing.Normal w := by
  unfold Decoder.Normal
  rw [← normalOperand2_eq_iff]
  constructor
  · intro h
    have hclass := field_normalize_class w
    have hlow := field_normalize_operand2 w
    rw [h] at hclass hlow
    exact ⟨hclass, hlow.symm⟩
  · rintro ⟨hclass, hlow⟩
    refine eq_of_fields fun i hi => ?_
    -- the second operand, the class bits, and the fields between and above them
    rcases Nat.lt_or_ge i 12 with h12 | h12
    · exact ⟨0, 12, Nat.zero_le i, by omega, (field_normalize_operand2 w).trans hlow⟩
    by_cases h26 : 26 ≤ i ∧ i < 28
    · exact ⟨26, 2, h26.1, h26.2, (field_normalize_class w).trans hclass.symm⟩
    obtain ⟨p, hp, hle, hlt⟩ : ∃ p ∈ keptFields, p.1 ≤ i ∧ i < p.1 + p.2 := by
      simp [keptFields]
      omega
    exact ⟨p.1, p.2, hle, hlt, field_normalize_kept w hp⟩

end Normalized

end DataProcessing

/-! ### Normal forms -/

section NormalForm

variable (d : Decoder)

theorem content_normalize (w : Word) : (d.instr (d.normalize w)).content = (d.instr w).content := by
  cases d with
  | b => exact content_encode_b w
  | bx => exact content_encode_bx w
  | dataProcessing => exact content_encode_dataProcessing w

theorem normalize_eq_self_iff (w : Word) : d.normalize w = w ↔ d.Normal w := by
  cases d with
  | b => exact normalize_b_iff w
  | bx => exact normalize_bx_iff w
  | dataProcessing => exact normalize_dataProcessing_iff w

/-- The normal form tells what is decoded. -/
theorem normalize_eq_iff (w w' : Word) :
    d.normalize w = d.normalize w' ↔ (d.instr w).content = (d.instr w').content := by
  constructor
  · intro h
    rw [← content_normalize d w, h, content_normalize]
  · intro h
    unfold Decoder.normalize
    rw [← CondInstr.encode_content, h, CondInstr.encode_content]

/-- **Normal forms of words.** For each of the decoders a word and its normal form are decoded
to the same instruction and executed alike. Words are decoded alike exactly when they have the
same normal form, and the words in normal form are those of the class with at most one bit of
a shift or a rotation. -/
theorem normalize_exact (d : Decoder) :
    (∀ w, (d.instr (d.normalize w)).content = (d.instr w).content ∧
      ∀ cpu f, d.execute (d.normalize w) cpu f = d.execute w cpu f) ∧
    (∀ w w', d.normalize w = d.normalize w' ↔ (d.instr w).content = (d.instr w').content) ∧
    ∀ w, d.normalize w = w ↔ d.Normal w := by
  refine ⟨fun w => ⟨content_normalize d w, fun cpu f => ?_⟩, normalize_eq_iff d,
    normalize_eq_self_iff d⟩
  exact Decoder.execute_of_content (content_normalize d w) cpu f

end NormalForm

/-- `ADD r0, r1, r2, LSL #4` comes back as `ADD r0, r1, r2, LSL r0`. -/
example : Decoder.dataProcessing.normalize 0xE0810202#32 = 0xE0810012#32 := by decide

end SimpleArm
