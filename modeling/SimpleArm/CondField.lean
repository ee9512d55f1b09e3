/-
# The condition field: decoders against `cond_passed`

All three decoders put bits 31 to 28 of the word, as they are, into `cond`
(`Decoder.cond_eq`), numbers from 0 to 15. The switch of `cond_passed`
compares with the enumerators, whose numbers are those bits read as
hexadecimal digits. Only 0 and 1 read the same both ways (`field_of_ofValue`):
on the other conditions the switch falls through to its assertion.
-/
import SimpleArm.Lib.BitField
import SimpleArm.A32
import SimpleArm.Branch
import SimpleArm.DataProcessing

namespace SimpleArm

open BitField

inductive Decoder
  | b
  | bx
  | dataProcessing
deriving DecidableEq, Repr

def Decoder.cond (d : Decoder) (rawInst : Word) (faultOut : FaultOut) : Word :=
  match d with
  | .b => (decodeB rawInst faultOut).1.cond
  | .bx => (decodeBx rawInst faultOut).1.cond
  | .dataProcessing => (decode rawInst faultOut).1.cond

theorem Decoder.cond_eq (d : Decoder) (w : Word) (f : FaultOut) :
    d.cond w f = (field w 28 4).setWidth 32 := by
  have hmask : (w &&& 0xF0000000#32) >>> 28 = (field w 28 4).setWidth 32 :=
    and_mask_shiftRight w 28 4
  cases d
  · exact hmask
  · exact shiftRight_eq_field (by decide) w
  · exact hmask

/-- A condition field that is the number of an enumerator is 0 or 1. -/
theorem field_of_ofValue : ∀ n : BitVec 4, CondCode.ofValue (n.setWidth 32) ≠ none →
    n = 0#4 ∨ n = 1#4 := by
  decide

theorem ofValue_field_of_lt_two (n : BitVec 4) (hn : n = 0#4 ∨ n = 1#4) :
    ∃ c : CondCode, c.value = n.setWidth 32 ∧ c.encoding = n := by
  rcases hn with rfl | rfl
  · exact ⟨.eq, rfl, rfl⟩
  · exact ⟨.ne, rfl, rfl⟩

/-- A decoded condition that `cond_passed` evaluates at all is the A32 condition. -/
theorem Decoder.condPassed_eq (d : Decoder) {w : Word} (f : FaultOut) {cpsr : Cpsr} {passed : Bool}
    (h : condPassed (d.cond w f) cpsr = .ok passed) : passed = cpsr.flags.holds (field w 28 4) := by
  rw [d.cond_eq] at h
  have hlt : field w 28 4 = 0#4 ∨ field w 28 4 = 1#4 := by
    apply field_of_ofValue
    intro hnone
    rw [condPassed, hnone] at h
    cases h
  obtain ⟨c, hc, he⟩ := ofValue_field_of_lt_two _ hlt
  rw [← hc, condPassed_value, condSwitch_eq_holds, he] at h
  exact (Except.ok.inj h).symm

/-- **Where decoders and `cond_passed` agree.** A decoder's `cond` is handled by the
switch and evaluated as the A32 condition of the word exactly for the conditions `EQ`
and `NE`, whatever the status word holds. -/
theorem decoded_cond_iff (d : Decoder) (w : Word) (f : FaultOut) (cpsr : Cpsr) :
    ((∃ c : CondCode, c.value = d.cond w f) ∧
      condPassed (d.cond w f) cpsr = .ok (cpsr.flags.holds (field w 28 4))) ↔
        field w 28 4 = 0b0000#4 ∨ field w 28 4 = 0b0001#4 := by
  rw [d.cond_eq]
  constructor
  · rintro ⟨⟨c, hc⟩, -⟩
    apply field_of_ofValue
    rw [← hc, CondCode.ofValue_value]
    exact Option.some_ne_none c
  · intro hn
    obtain ⟨c, hc, he⟩ := ofValue_field_of_lt_two _ hn
    refine ⟨⟨c, hc⟩, ?_⟩
    rw [← hc, condPassed_value, condSwitch_eq_holds, he]

/-- `B` with the condition `AL`, which always holds: evaluating it reaches the assertion. -/
theorem decoded_cond_bal_aborts :
    field 0xEA000000#32 28 4 ≠ 0b1111#4 ∧
      constructCpsr.flags.holds (field 0xEA000000#32 28 4) = true ∧
      condPassed (Decoder.b.cond 0xEA000000#32 0) constructCpsr = .error .unexpectedCondition ∧
      ¬ ((∃ c : CondCode, c.value = Decoder.b.cond 0xEA000000#32 0) ∧
        condPassed (Decoder.b.cond 0xEA000000#32 0) constructCpsr =
          .ok (constructCpsr.flags.holds (field 0xEA000000#32 28 4))) :=
  ⟨by decide, by decide, by decide, fun h => absurd h.2 (by decide)⟩

end SimpleArm
