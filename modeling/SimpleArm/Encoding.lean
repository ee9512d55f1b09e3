/-
# Encodings: which words a decoder accepts

The three instruction classes have fixed bits that tell them apart
(`Decoder.encodes_unique`), and every decoder has a `fault_out` in which to
report a word of another class. None of them checks the fixed bits or writes
there (`Decoder.faultOut_eq`), so each accepts every word, and is right to do
so on the words of its own class only (`decoders_accept_iff`).
-/
import SimpleArm.CondField

namespace SimpleArm

open BitField

/-- What a decoder leaves in `*fault_out`. -/
def Decoder.faultOut (d : Decoder) (rawInst : Word) (faultOut : FaultOut) : FaultOut :=
  match d with
  | .b => (decodeB rawInst faultOut).2
  | .bx => (decodeBx rawInst faultOut).2
  | .dataProcessing => (decode rawInst faultOut).2

def bxPattern : BitVec 24 := 0b000100101111111111110001#24

/-- The word has the fixed bits of the decoder's class. -/
def Decoder.Encodes (d : Decoder) (w : Word) : Prop :=
  match d with
  | .b => field w 25 3 = 0b101#3
  | .bx => field w 4 24 = bxPattern
  | .dataProcessing => field w 26 2 = 0b00#2 ∧ field w 4 24 ≠ bxPattern

theorem Decoder.faultOut_eq (d : Decoder) (w : Word) (f : FaultOut) : d.faultOut w f = f := by
  cases d <;> rfl

/-- Bit 27 tells the branches from the other classes. -/
theorem Decoder.bit27_of_encodes {d : Decoder} {w : Word} (h : d.Encodes w) :
    w.getLsbD 27 = decide (d = .b) := by
  cases d with
  | b => exact getLsbD_of_field h (show 2 < 3 by decide)
  | bx => exact getLsbD_of_field h (show 23 < 24 by decide)
  | dataProcessing => exact getLsbD_of_field h.1 (show 1 < 2 by decide)

theorem Decoder.encodes_unique {d d' : Decoder} {w : Word} (h : d.Encodes w)
    (h' : d'.Encodes w) : d = d' := by
  have hbit : decide (d = .b) = decide (d' = .b) :=
    (Decoder.bit27_of_encodes h).symm.trans (Decoder.bit27_of_encodes h')
  cases d <;> cases d' <;> first | rfl | exact absurd h h'.2 | exact absurd h' h.2 | cases hbit

/-- **Which words a decoder may accept.** At every word, accepting only its own encoding
holds of a decoder exactly when the word is of that encoding. It never holds of all three
decoders, and a word is never accepted by one of them alone. -/
theorem decoders_accept_iff (w : Word) (f : FaultOut) :
    (∀ d : Decoder, (d.faultOut w f = f → d.Encodes w) ↔ d.Encodes w) ∧
      (¬ ∀ d : Decoder, d.faultOut w f = f → d.Encodes w) ∧
      ¬ ∀ d d' : Decoder, d.faultOut w f = f → d'.faultOut w f = f → d = d' := by
  refine ⟨fun d => ?_, fun h => ?_, fun h => ?_⟩
  · constructor
    · intro h
      exact h (d.faultOut_eq w f)
    · intro h _
      exact h
  · have hb := h .b (Decoder.faultOut_eq .b w f)
    have hbx := h .bx (Decoder.faultOut_eq .bx w f)
    cases Decoder.encodes_unique hb hbx
  · cases h .b .bx (Decoder.faultOut_eq .b w f) (Decoder.faultOut_eq .bx w f)

/-- The word 0 is `ANDEQ r0, r0, r0`. The decoder of branches and that of BX accept it too. -/
theorem decoders_accept_zero :
    Decoder.dataProcessing.Encodes 0#32 ∧ (∀ d : Decoder, d.faultOut 0#32 1 = 1) ∧
      ¬ (∀ d : Decoder, d.faultOut 0#32 1 = 1 → d.Encodes 0#32) := by
  have huntouched : ∀ d : Decoder, d.faultOut 0#32 1 = 1 := fun d => by cases d <;> rfl
  refine ⟨⟨by decide, by decide⟩, huntouched, fun h => ?_⟩
  exact absurd (show field 0#32 25 3 = 0b101#3 from h .b rfl) (by decide)

end SimpleArm
