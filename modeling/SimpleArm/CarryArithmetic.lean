/-
# Arithmetic with the carry

What an operation of the ALU computes, against the exact integer: the stored
word is that integer modulo `2^32`, and the flags are those of the exact
result and not of the wrapped one (`Computes`).

`adc_op` adds the carry to its second operand first, modulo `2^32`. The stored
word is right all the same, and so are the flags unless that addition wraps:
past `0xFFFFFFFF` it loses the carry out, past `0x7FFFFFFF` it changes the sign
of the operand (`adcOp_exact_iff`).
-/
import SimpleArm.MultiWord

namespace SimpleArm

open Overflow

/-- The flags of the result `r` of an operation whose exact result has the carry `carry` and
the signed value `signed`. -/
structure FlagsOf (cpsr : Cpsr) (r : Word) (carry : Prop) (signed : ℤ) : Prop where
  n : cpsrGetNegative cpsr = r.getLsbD 31
  z : cpsrGetZero cpsr = true ↔ r = 0#32
  c : cpsrGetCarry cpsr = true ↔ carry
  v : cpsrGetOverflow cpsr = true ↔ ¬ InRange 32 signed

/-- A call has returned with `exact` modulo `2^32` in the register `reg` and, if it was to
update the flags, with the flags of the exact result. -/
def ComputesExactly (call : Except Abort CpuState) (reg : RegisterIndexT) (s : Bool) (exact : ℤ)
    (carry : Prop) (signed : ℤ) : Prop :=
  ∃ cpu, call = .ok cpu ∧ ((cpu.reg reg.toNat).toNat : ℤ) = exact % 2 ^ 32 ∧
    (s = true → FlagsOf cpu.cpsr (cpu.reg reg.toNat) carry signed)

theorem computesExactly_storeOp_iff {reg : RegisterIndexT} (hreg : reg.toNat < 16) (cpu : CpuState)
    (r : Word) (s : Bool) (u : Cpsr → Cpsr) (exact : ℤ) (carry : Prop) (signed : ℤ) :
    ComputesExactly (storeOp cpu reg r s u) reg s exact carry signed ↔
      (r.toNat : ℤ) = exact % 2 ^ 32 ∧ (s = true → FlagsOf (u cpu.cpsr) r carry signed) := by
  have hr : ∀ c, CpuState.reg { cpu.setReg reg.toNat r with cpsr := c } reg.toNat = r :=
    fun c => CpuState.reg_setReg_self hreg cpu r
  unfold ComputesExactly
  rw [storeOp_eq hreg]
  constructor
  · rintro ⟨cpu', h, hexact, hflags⟩
    obtain rfl := Except.ok.inj h
    rw [hr] at hexact hflags
    refine ⟨hexact, fun hs => ?_⟩
    have hf := hflags hs
    rwa [hs] at hf
  · rintro ⟨hexact, hflags⟩
    refine ⟨_, rfl, ?_, fun hs => ?_⟩
    · rw [hr]
      exact hexact
    · rw [hr, hs]
      exact hflags hs

/-- N and Z are taken from the result, so the flags are right when C and V are. -/
theorem flagsOf_put_iff (r : Word) (c v : Bool) (cpsr : Cpsr) (carry : Prop) (signed : ℤ) :
    FlagsOf (((nzFlags r cpsr).put 29 c).put 28 v) r carry signed ↔
      (c = true ↔ carry) ∧ (v = true ↔ ¬ InRange 32 signed) := by
  have hbit : ∀ i, (((nzFlags r cpsr).put 29 c).put 28 v).bit i =
      if i = 28 then v else if i = 29 then c else if i = 31 then r.msb else
        if i = 30 then r == 0#32 else cpsr.bit i := fun i => by
    rw [Cpsr.bit_put (by decide), Cpsr.bit_put (by decide), bit_nzFlags]
  constructor
  · intro h
    have hc := h.c
    have hv := h.v
    rw [cpsrGetCarry_eq, hbit] at hc
    rw [cpsrGetOverflow_eq, hbit] at hv
    exact ⟨hc, hv⟩
  · rintro ⟨hc, hv⟩
    refine ⟨?_, ?_, ?_, ?_⟩
    · rw [cpsrGetNegative_eq, hbit]
      exact BitVec.msb_eq_getLsbD_last r
    · rw [cpsrGetZero_eq, hbit]
      exact beq_iff_eq
    · rw [cpsrGetCarry_eq, hbit]
      exact hc
    · rw [cpsrGetOverflow_eq, hbit]
      exact hv

theorem flagsOf_addFlags_iff (a b : Word) (cpsr : Cpsr) (carry : Prop) (signed : ℤ) :
    FlagsOf (addFlags a b cpsr) (a + b) carry signed ↔
      (a.uaddOverflow b = true ↔ carry) ∧ (a.saddOverflow b = true ↔ ¬ InRange 32 signed) :=
  flagsOf_put_iff (a + b) _ _ cpsr carry signed

theorem flagsOf_subFlags_iff (a b : Word) (cpsr : Cpsr) (carry : Prop) (signed : ℤ) :
    FlagsOf (subFlags a b (a - b) cpsr) (a - b) carry signed ↔
      (b ≤ a ↔ carry) ∧ (a.ssubOverflow b = true ↔ ¬ InRange 32 signed) := by
  rw [subFlags_eq, flagsOf_put_iff, decide_eq_true_iff]

/-! ### Addition with the carry -/

/-- The stored word is the exact sum modulo `2^32`, although the carry is added first. -/
theorem toNat_add_carry (a b : Word) (c : Bool) :
    ((a + (b + carryWord c)).toNat : ℤ) = (a.toNat + b.toNat + c.toNat : ℤ) % 2 ^ 32 := by
  rw [BitVec.toNat_add, BitVec.toNat_add, toNat_carryWord]
  omega

/-- The carry out is lost exactly where adding the carry to the operand wraps. -/
theorem carry_add_carry_iff (a b : Word) (c : Bool) :
    (a.uaddOverflow (b + carryWord c) = true ↔ 2 ^ 32 ≤ a.toNat + b.toNat + c.toNat) ↔
      ¬ (c = true ∧ b = 0xFFFFFFFF#32) := by
  have hr := (a + (b + carryWord c)).isLt
  by_cases hbad : c = true ∧ b = 0xFFFFFFFF#32
  · refine iff_of_false (fun h => ?_) (not_not.mpr hbad)
    obtain ⟨rfl, rfl⟩ := hbad
    have hfold : (0xFFFFFFFF#32 : Word) + carryWord true = 0#32 := by decide
    have ha := a.isLt
    have hcarry := h.mpr (by simp)
    rw [hfold, BitVec.uaddOverflow, decide_eq_true_eq, BitVec.toNat_ofNat] at hcarry
    omega
  · have hexact := adcStep_lossy.exact c a b hbad
    refine iff_of_true ?_ hbad
    simp only [adcStep] at hexact
    cases ho : a.uaddOverflow (b + carryWord c)
    · simp only [ho, Bool.toNat_false] at hexact
      simp only [Bool.false_eq_true, false_iff]
      omega
    · simp only [ho, Bool.toNat_true] at hexact
      simp only [true_iff]
      omega

/-- The operand with the carry, as a signed number: it changes sign at `0x7FFFFFFF`. -/
theorem toInt_add_carry (b : Word) (c : Bool) : (b + carryWord c).toInt =
    b.toInt + c.toNat - if c = true ∧ b = 0x7FFFFFFF#32 then 2 ^ 32 else 0 := by
  cases c
  · simp [carryWord]
  · have hb := b.isLt
    by_cases hmax : b = 0x7FFFFFFF#32
    · rw [hmax]
      decide
    · have hne : b.toNat ≠ 0x7FFFFFFF := fun h => hmax (BitVec.eq_of_toNat_eq h)
      rw [if_neg fun h => hmax h.2]
      simp only [carryWord, if_true, BitVec.toInt_eq_toNat_cond, BitVec.toNat_add,
        BitVec.toNat_ofNat, Bool.toNat_true]
      split_ifs <;> omega

/-- The overflow is wrong exactly where adding the carry to the operand changes its sign. -/
theorem overflow_add_carry_iff (a b : Word) (c : Bool) :
    (a.saddOverflow (b + carryWord c) = true ↔ ¬ InRange 32 (a.toInt + b.toInt + c.toNat)) ↔
      ¬ (c = true ∧ b = 0x7FFFFFFF#32) := by
  have hlo := BitVec.le_toInt a
  have hhi := BitVec.toInt_lt (x := a)
  rw [saddOverflow_iff, toInt_add_carry]
  by_cases hbad : c = true ∧ b = 0x7FFFFFFF#32
  · rw [if_pos hbad]
    refine iff_of_false (fun h => ?_) (not_not.mpr hbad)
    obtain ⟨rfl, rfl⟩ := hbad
    have hmax : (0x7FFFFFFF#32 : Word).toInt = 2 ^ 31 - 1 := by decide
    simp only [InRange, hmax, Bool.toNat_true] at h
    omega
  · rw [if_neg hbad, sub_zero, add_assoc]
    exact iff_of_true Iff.rfl hbad

/-- The exact sum that `adc_op` is documented to compute. -/
def AddsWithCarry (cpu : CpuState) (reg : RegisterIndexT) (a b : Word) (s : Bool) : Prop :=
  ComputesExactly (adcOp cpu reg a b s) reg s
    (a.toNat + b.toNat + (cpsrGetCarry cpu.cpsr).toNat)
    (2 ^ 32 ≤ a.toNat + b.toNat + (cpsrGetCarry cpu.cpsr).toNat)
    (a.toInt + b.toInt + (cpsrGetCarry cpu.cpsr).toNat)

/-- **When `adc_op` is exact.** It stores the sum with the carry and leaves the flags of the
exact sum unless it is to update them, the carry is set, and the second operand is the
largest unsigned or the largest signed word. -/
theorem adcOp_exact_iff (cpu : CpuState) (reg : RegisterIndexT) (a b : Word) (s : Bool)
    (hreg : reg.toNat < 16) : AddsWithCarry cpu reg a b s ↔
      s = false ∨ cpsrGetCarry cpu.cpsr = false ∨ (b ≠ 0xFFFFFFFF#32 ∧ b ≠ 0x7FFFFFFF#32) := by
  unfold AddsWithCarry
  rw [cpsrGetCarry_eq, adcOp_eq, carryIn_eq, computesExactly_storeOp_iff hreg,
    flagsOf_addFlags_iff, carry_add_carry_iff, overflow_add_carry_iff]
  have hsum := toNat_add_carry a b (cpu.cpsr.bit 29)
  cases s
  · exact iff_of_true ⟨hsum, fun h => by cases h⟩ (Or.inl rfl)
  · cases hc : cpu.cpsr.bit 29
    · rw [hc] at hsum
      exact iff_of_true ⟨hsum, fun _ => by simp⟩ (Or.inr (Or.inl rfl))
    · rw [hc] at hsum
      constructor
      · rintro ⟨-, h⟩
        obtain ⟨h1, h2⟩ := h rfl
        exact Or.inr (Or.inr ⟨fun hb => h1 ⟨rfl, hb⟩, fun hb => h2 ⟨rfl, hb⟩⟩)
      · rintro (h | h | ⟨h1, h2⟩)
        · cases h
        · cases h
        · exact ⟨hsum, fun _ => ⟨fun hb => h1 hb.2, fun hb => h2 hb.2⟩⟩

/-- The carry is added to an operand that has room for it. -/
theorem adcOp_exact_carry :
    AddsWithCarry { constructCpuState with cpsr := ⟨0x20000000#32⟩ } 3#8 0xFFFFFFFF#32 5#32 true :=
  (adcOp_exact_iff { constructCpuState with cpsr := ⟨0x20000000#32⟩ } 3#8 0xFFFFFFFF#32 5#32 true
    (by decide)).mpr (by decide)

/-- `0 + 0xFFFFFFFF` with the carry set is `2^32`, and the C flag comes out clear. -/
theorem adcOp_loses_carry :
    (adcOp { constructCpuState with cpsr := ⟨0x20000000#32⟩ } 3#8 0#32 0xFFFFFFFF#32 true).map
        (fun cpu => cpsrGetCarry cpu.cpsr) = .ok false ∧
      ¬ AddsWithCarry { constructCpuState with cpsr := ⟨0x20000000#32⟩ } 3#8 0#32 0xFFFFFFFF#32
        true := by
  have hrun : (adcOp { constructCpuState with cpsr := ⟨0x20000000#32⟩ } 3#8 0#32 0xFFFFFFFF#32
      true).map (fun cpu => cpsrGetCarry cpu.cpsr) = .ok false := by
    decide
  refine ⟨hrun, ?_⟩
  rintro ⟨cpu, h, -, hflags⟩
  rw [h] at hrun
  have hset := (hflags rfl).c.mpr (by decide)
  exact absurd (hset.symm.trans (Except.ok.inj hrun)) (by decide)

end SimpleArm
