/-
# Operations on complemented operands

An assembler writes `SUB` of a constant as `ADD` of its negation, `CMP` as `CMN`,
`AND` as `BIC` of its complement and `MOV` as `MVN`, where only one of the two
can be encoded. The stored results always agree. The flags of a sum and of a
difference do not: C differs when the operand is 0 and V when it is the least
number (`subFlags_eq_addFlags_iff`). So exactly there a substitution changes the
state (`complemented_operands`). In `sbc_op` the operand is the one that the
carry has been taken from, and since that operation adds the carry to the
difference, it is `adc_op` of the negated operand and not of the complement.
`cmp_op` and `cmn_op` leave C and V alone, so they always agree; and `bic_op` and
`mvn_op` update no flags, so they agree with `and_op` and `mov_op` when these do
not either, or leave N and Z as they are.
-/
import SimpleArm.Operations

namespace SimpleArm

open Overflow

/-- N and Z are those of the word. -/
def HasNz (r : Word) (c : Cpsr) : Prop :=
  cpsrGetNegative c = r.msb ∧ (cpsrGetZero c = true ↔ r = 0#32)

/-- The operand is its own negation: 0 or the least number. -/
def SelfNegated (b : Word) : Prop := b = 0#32 ∨ b = BitVec.intMin 32

/-- The flags of a difference are those of the sum with the negated operand, unless that is
the operand itself. -/
theorem subFlags_eq_addFlags_iff (a b : Word) (c : Cpsr) :
    subFlags a b (a - b) c = addFlags a (-b) c ↔ ¬ SelfNegated b := by
  have hcarry := uaddOverflow_neg_iff a b
  have hoverflow := saddOverflow_neg_iff (show 0 < 32 by decide) a b
  unfold SelfNegated
  rw [not_or]
  constructor
  · intro h
    have h29 := congrArg (Cpsr.bit · 29) h
    have h28 := congrArg (Cpsr.bit · 28) h
    simp only [bit_subFlags, bit_addFlags, if_true] at h29 h28
    exact ⟨hcarry.mp h29.symm, hoverflow.mp h28.symm⟩
  · rintro ⟨hzero, hmin⟩
    rw [subFlags_eq, addFlags, ← BitVec.sub_eq_add_neg, hcarry.mpr hzero, hoverflow.mpr hmin]

section StoreOp

variable (cpu : CpuState) (reg : RegisterIndexT) (r : Word) (s : Bool)

theorem storeOp_congr_iff (u v : Cpsr → Cpsr) :
    storeOp cpu reg r s u = storeOp cpu reg r s v ↔
      16 ≤ reg.toNat ∨ s = false ∨ u cpu.cpsr = v cpu.cpsr := by
  rw [storeOp_eq_set, storeOp_eq_set]
  rcases Nat.lt_or_ge reg.toNat 16 with hreg | hreg
  · have hlt : ¬ 16 ≤ reg.toNat := Nat.not_le.mpr hreg
    rw [cpuSetReg_eq hreg]
    cases s
    · simp
    · simp [Except.map, hlt]
  · rw [cpuSetReg_of_ge hreg]
    exact iff_of_true rfl (Or.inl hreg)

theorem storeOp_nzFlags_eq_iff : storeOp cpu reg r s (nzFlags r) = cpuSetReg cpu reg.toNat r ↔
    16 ≤ reg.toNat ∨ s = false ∨ HasNz r cpu.cpsr := by
  have hset : cpuSetReg cpu reg.toNat r = storeOp cpu reg r s id := by
    rw [storeOp_eq_set]
    show _ = (cpuSetReg cpu reg.toNat r).map fun c =>
      { c with cpsr := if s then cpu.cpsr else cpu.cpsr }
    rw [ite_self]
    exact cpuSetReg_eq_set cpu reg.toNat r
  rw [hset, storeOp_congr_iff]
  exact or_congr_right (or_congr_right (nzFlags_eq_self_iff r cpu.cpsr))

end StoreOp

/-- **Complemented operands.** `sub_op` is `add_op` of the negated operand and `sbc_op` is `adc_op`
of it, in the flags too unless the operand, less the carry for `sbc_op`, is its own negation;
`cmp_op` is `cmn_op` of it. `and_op` is `bic_op` of the complement, and `mov_op` is `mvn_op` of
it, unless they change N or Z. -/
theorem complemented_operands (cpu : CpuState) (reg : RegisterIndexT) (a b : Word) (s : Bool) :
    (subOp cpu reg a b s = addOp cpu reg a (-b) s ↔
      16 ≤ reg.toNat ∨ s = false ∨ ¬ SelfNegated b) ∧
    (sbcOp cpu reg a b s = adcOp cpu reg a (-b) s ↔
      16 ≤ reg.toNat ∨ s = false ∨ ¬ SelfNegated (b - carryIn cpu)) ∧
    cmpOp cpu reg a b = cmnOp cpu reg a (-b) ∧
    (andOp cpu reg a b s = bicOp cpu reg a (~~~b) ↔
      16 ≤ reg.toNat ∨ s = false ∨ HasNz (a &&& b) cpu.cpsr) ∧
    (movOp cpu reg b s = mvnOp cpu reg (~~~b) s ↔
      16 ≤ reg.toNat ∨ s = false ∨ HasNz b cpu.cpsr) := by
  -- a difference and the sum with the negated operand, of any operand
  have hdifference : ∀ x : Word, storeOp cpu reg (a - x) s (subFlags a x (a - x)) =
      storeOp cpu reg (a + -x) s (addFlags a (-x)) ↔
        16 ≤ reg.toNat ∨ s = false ∨ ¬ SelfNegated x := by
    intro x
    rw [← BitVec.sub_eq_add_neg, storeOp_congr_iff]
    exact or_congr_right (or_congr_right (subFlags_eq_addFlags_iff a x cpu.cpsr))
  have hcarry : -b + carryIn cpu = -(b - carryIn cpu) := by
    rw [BitVec.neg_sub]
  refine ⟨?_, ?_, ?_, ?_, ?_⟩
  · rw [addOp_eq]
    exact hdifference b
  · rw [adcOp_eq, hcarry]
    exact hdifference (b - carryIn cpu)
  · unfold cmpOp cmnOp
    rw [BitVec.sub_eq_add_neg]
  · unfold andOp bicOp
    rw [BitVec.not_not]
    exact storeOp_nzFlags_eq_iff cpu reg (a &&& b) s
  · unfold movOp mvnOp
    rw [BitVec.not_not]
    exact storeOp_nzFlags_eq_iff cpu reg b s

end SimpleArm
