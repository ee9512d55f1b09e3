/-
# Sums and differences against the integers

The rest of the arithmetic. `add_op` and `rsb_op` read no carry, and what they
store and the flags they leave are those of the exact sum and the exact
difference, from any state (`addOp_rsbOp_exact`).

The operations that subtract with the C flag are documented as `x - y - (1 - C)`:
the flag stands for no borrow. `sbc_op` takes the flag away from the
subtrahend and stores `x - y + C`, `rsc_op` adds it there and stores `x - y - C`.
Neither is the documented difference for any operands and either flag
(`sbcOp_never`, `rscOp_never`).
-/
import SimpleArm.CarryArithmetic

namespace SimpleArm

open Overflow

/-! ### Addition and reverse subtraction -/

theorem addOp_exact {reg : RegisterIndexT} (hreg : reg.toNat < 16) (cpu : CpuState) (a b : Word)
    (s : Bool) : ComputesExactly (addOp cpu reg a b s) reg s (a.toNat + b.toNat)
      (2 ^ 32 ≤ a.toNat + b.toNat) (a.toInt + b.toInt) := by
  rw [addOp_eq, computesExactly_storeOp_iff hreg, flagsOf_addFlags_iff, saddOverflow_iff,
    BitVec.uaddOverflow, decide_eq_true_iff]
  refine ⟨?_, fun _ => ⟨Iff.rfl, Iff.rfl⟩⟩
  rw [BitVec.toNat_add]
  push_cast
  rfl

theorem toNat_sub_eq (x y : Word) : ((x - y).toNat : ℤ) = (x.toNat - y.toNat : ℤ) % 2 ^ 32 := by
  have hx := x.isLt
  have hy := y.isLt
  rw [BitVec.toNat_sub]
  omega

theorem subOp_exact {reg : RegisterIndexT} (hreg : reg.toNat < 16) (cpu : CpuState) (x y : Word)
    (s : Bool) : ComputesExactly (subOp cpu reg x y s) reg s (x.toNat - y.toNat)
      (y.toNat ≤ x.toNat) (x.toInt - y.toInt) := by
  have hop : subOp cpu reg x y s = storeOp cpu reg (x - y) s (subFlags x y (x - y)) := rfl
  rw [hop, computesExactly_storeOp_iff hreg, flagsOf_subFlags_iff, ssubOverflow_iff]
  exact ⟨toNat_sub_eq x y, fun _ => ⟨Iff.rfl, Iff.rfl⟩⟩

/-- **Addition and reverse subtraction.** `add_op` and `rsb_op` store the exact sum and
difference modulo `2^32` and leave their flags, and `rsb_op` is `sub_op` with its operands
swapped. -/
theorem addOp_rsbOp_exact (cpu : CpuState) (reg : RegisterIndexT) (a b : Word) (s : Bool)
    (hreg : reg.toNat < 16) :
    ComputesExactly (addOp cpu reg a b s) reg s (a.toNat + b.toNat)
        (2 ^ 32 ≤ a.toNat + b.toNat) (a.toInt + b.toInt) ∧
      ComputesExactly (rsbOp cpu reg a b s) reg s (b.toNat - a.toNat)
        (a.toNat ≤ b.toNat) (b.toInt - a.toInt) ∧
      rsbOp cpu reg a b s = subOp cpu reg b a s := by
  have hswap : rsbOp cpu reg a b s = subOp cpu reg b a s := rfl
  refine ⟨addOp_exact hreg cpu a b s, ?_, hswap⟩
  rw [hswap]
  exact subOp_exact hreg cpu b a s

/-- The least number from 1: the difference wraps both ways. -/
theorem addOp_rsbOp_exact_min :
    ComputesExactly (addOp constructCpuState 3#8 1#32 0x80000000#32 true) 3#8 true
        (1 + 0x80000000) (2 ^ 32 ≤ 1 + 0x80000000) (1 + -2 ^ 31) ∧
      ComputesExactly (rsbOp constructCpuState 3#8 1#32 0x80000000#32 true) 3#8 true
        (0x80000000 - 1) (1 ≤ 0x80000000) (-2 ^ 31 - 1) ∧
      rsbOp constructCpuState 3#8 1#32 0x80000000#32 true =
        subOp constructCpuState 3#8 0x80000000#32 1#32 true :=
  addOp_rsbOp_exact constructCpuState 3#8 1#32 0x80000000#32 true (by decide)

/-! ### Subtraction with the borrow -/

/-- The call returns the difference `x - y - (1 - C)` that the carry flag of `cpu` asks for. -/
def SubtractsWithBorrow (call : Except Abort CpuState) (cpu : CpuState) (reg : RegisterIndexT)
    (x y : Word) (s : Bool) : Prop :=
  ComputesExactly call reg s (x.toNat - y.toNat - (1 - (cpsrGetCarry cpu.cpsr).toNat))
    ((y.toNat : ℤ) + (1 - (cpsrGetCarry cpu.cpsr).toNat) ≤ x.toNat)
    (x.toInt - y.toInt - (1 - (cpsrGetCarry cpu.cpsr).toNat))

theorem not_computesExactly_storeOp (cpu : CpuState) (reg : RegisterIndexT) {r : Word} (s : Bool)
    (u : Cpsr → Cpsr) {exact : ℤ} (h : (r.toNat : ℤ) ≠ exact % 2 ^ 32) (carry : Prop)
    (signed : ℤ) : ¬ ComputesExactly (storeOp cpu reg r s u) reg s exact carry signed := by
  rcases Nat.lt_or_ge reg.toNat 16 with hreg | hreg
  · rw [computesExactly_storeOp_iff hreg]
    exact fun hc => h hc.1
  · rintro ⟨cpu', hcall, -⟩
    rw [storeOp_eq_set, cpuSetReg_of_ge hreg] at hcall
    cases hcall

theorem toNat_sub_sub_carry (x y : Word) (c : Bool) :
    ((x - (y - carryWord c)).toNat : ℤ) = (x.toNat - y.toNat + c.toNat : ℤ) % 2 ^ 32 := by
  have hy := toNat_sub_eq y (carryWord c)
  rw [toNat_carryWord] at hy
  rw [toNat_sub_eq, hy]
  omega

theorem toNat_sub_add_carry (x y : Word) (c : Bool) :
    ((x - (y + carryWord c)).toNat : ℤ) = (x.toNat - y.toNat - c.toNat : ℤ) % 2 ^ 32 := by
  rw [toNat_sub_eq, BitVec.toNat_add, toNat_carryWord]
  push_cast
  omega

/-- **Subtraction with the borrow.** `sbc_op` stores one more than the documented difference,
whatever the carry. -/
theorem sbcOp_never (cpu : CpuState) (reg : RegisterIndexT) (a b : Word) (s : Bool) :
    ¬ SubtractsWithBorrow (sbcOp cpu reg a b s) cpu reg a b s := by
  refine not_computesExactly_storeOp cpu reg s _ ?_ _ _
  rw [carryIn_eq, toNat_sub_sub_carry, cpsrGetCarry_eq]
  omega

/-- `SBC` of 5 and 3 with the carry set, which stands for no borrow, gives 3. -/
theorem sbcOp_five_three :
    (sbcOp { constructCpuState with cpsr := ⟨0x20000000#32⟩ } 3#8 5#32 3#32 true).map
        (fun cpu => cpu.reg 3) = .ok 3#32 ∧
      ¬ SubtractsWithBorrow
        (sbcOp { constructCpuState with cpsr := ⟨0x20000000#32⟩ } 3#8 5#32 3#32 true)
        { constructCpuState with cpsr := ⟨0x20000000#32⟩ } 3#8 5#32 3#32 true := by
  have hrun : (sbcOp { constructCpuState with cpsr := ⟨0x20000000#32⟩ } 3#8 5#32 3#32 true).map
      (fun cpu => cpu.reg 3) = .ok 3#32 := by
    decide
  refine ⟨hrun, ?_⟩
  rintro ⟨cpu, h, hexact, -⟩
  rw [h] at hrun
  have h3 : cpu.reg 3 = 3#32 := Except.ok.inj hrun
  rw [show (3#8 : RegisterIndexT).toNat = 3 from rfl, h3] at hexact
  exact absurd hexact (by decide)

/-- **Reverse subtraction with the borrow.** `rsc_op` stores one more than the documented
difference when the carry is clear, and one less when it is set. -/
theorem rscOp_never (cpu : CpuState) (reg : RegisterIndexT) (a b : Word) (s : Bool) :
    ¬ SubtractsWithBorrow (rscOp cpu reg a b s) cpu reg b a s := by
  refine not_computesExactly_storeOp cpu reg s _ ?_ _ _
  rw [carryIn_eq, toNat_sub_add_carry, cpsrGetCarry_eq]
  omega

/-- `RSC` of 3 from 5 with the carry set gives 1. -/
theorem rscOp_three_five :
    (rscOp { constructCpuState with cpsr := ⟨0x20000000#32⟩ } 3#8 3#32 5#32 true).map
        (fun cpu => cpu.reg 3) = .ok 1#32 ∧
      ¬ SubtractsWithBorrow
        (rscOp { constructCpuState with cpsr := ⟨0x20000000#32⟩ } 3#8 3#32 5#32 true)
        { constructCpuState with cpsr := ⟨0x20000000#32⟩ } 3#8 5#32 3#32 true := by
  have hrun : (rscOp { constructCpuState with cpsr := ⟨0x20000000#32⟩ } 3#8 3#32 5#32 true).map
      (fun cpu => cpu.reg 3) = .ok 1#32 := by
    decide
  refine ⟨hrun, ?_⟩
  rintro ⟨cpu, h, hexact, -⟩
  rw [h] at hrun
  have h3 : cpu.reg 3 = 1#32 := Except.ok.inj hrun
  rw [show (3#8 : RegisterIndexT).toNat = 3 from rfl, h3] at hexact
  exact absurd hexact (by decide)

end SimpleArm
