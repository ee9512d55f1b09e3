/-
# Comparisons

What the flags of a difference tell. After `sub_op` with the S flag the N, Z,
C and V bits are those of `a - b` (`flags_subFlags`), and each relational
condition decides the comparison it is named after (`subOp_compares`): the
unsigned ones read the borrow, the signed ones the sign, which the overflow
corrects.

`cmp_op` and `cmn_op` are documented as `sub_op` and `add_op` without the
store, but they update N and Z only. They leave the status word of their twin
exactly when C and V have the right values before the call
(`flagsOnly_agrees_iff`).
-/
import SimpleArm.A32
import SimpleArm.Operations

namespace SimpleArm

open Overflow

/-! ### Conditions after a subtraction -/

/-- What an enumerator says of a subtraction. -/
def CondCode.Compares (c : CondCode) (a b : Word) : Prop :=
  match c with
  | .eq => a = b
  | .ne => a ≠ b
  | .cs => b.toNat ≤ a.toNat
  | .cc => a.toNat < b.toNat
  | .mi => (a - b).getLsbD 31 = true
  | .pl => (a - b).getLsbD 31 = false
  | .vs => ¬ InRange 32 (a.toInt - b.toInt)
  | .vc => InRange 32 (a.toInt - b.toInt)
  | .hi => b.toNat < a.toNat
  | .ls => a.toNat ≤ b.toNat
  | .ge => b.toInt ≤ a.toInt
  | .lt => a.toInt < b.toInt
  | .gt => b.toInt < a.toInt
  | .le => a.toInt ≤ b.toInt
  | .al => True

theorem flags_subFlags (a b : Word) (c : Cpsr) : (subFlags a b (a - b) c).flags =
    ⟨(a - b).msb, a - b == 0#32, decide (b ≤ a), a.ssubOverflow b⟩ := by
  simp [Cpsr.flags, bit_subFlags, bit_nzFlags]

theorem sub_beq_zero (a b : Word) : (a - b == 0#32) = decide (a = b) := by
  rw [Bool.eq_iff_iff, beq_iff_eq, decide_eq_true_eq]
  bv_omega

/-- N equals V after a difference exactly when it is not negative as an integer. -/
theorem msb_sub_beq_ssubOverflow (a b : Word) :
    ((a - b).msb == a.ssubOverflow b) = decide (b.toInt ≤ a.toInt) := by
  have hlt := slt_eq a b
  rw [BitVec.slt_eq_decide] at hlt
  have hbeq : ∀ x y : Bool, (x == y) = !(x ^^ y) := by decide
  rw [hbeq, ← hlt, ← decide_not, decide_eq_decide]
  exact Int.not_lt

theorem condSwitch_subFlags (c : CondCode) (a b : Word) (cpsr : Cpsr) :
    condSwitch c (subFlags a b (a - b) cpsr) = true ↔ c.Compares a b := by
  have hz : a = b ↔ a.toNat = b.toNat := BitVec.toNat_inj.symm
  have hzi : a = b ↔ a.toInt = b.toInt := BitVec.toInt_inj.symm
  have hle : b ≤ a ↔ b.toNat ≤ a.toNat := Iff.rfl
  have hv := ssubOverflow_iff a b
  have hn : (a - b).msb = (a - b).getLsbD 31 := BitVec.msb_eq_getLsbD_last _
  obtain ⟨h31, h30, h29, h28⟩ := Flags.mk.inj (flags_subFlags a b cpsr)
  simp only [condSwitch, cpsrGetNegative_eq, cpsrGetZero_eq, cpsrGetCarry_eq, cpsrGetOverflow_eq,
    h31, h30, h29, h28, msb_sub_beq_ssubOverflow, sub_beq_zero]
  cases c <;> simp only [CondCode.Compares, Bool.not_eq_true', Bool.and_eq_true, Bool.or_eq_true,
    decide_eq_true_eq, decide_eq_false_iff_not, ← hn]
  case cs => exact hle
  case cc => rw [hle, Nat.not_le]
  case vs => exact hv
  case vc => rw [← Bool.not_eq_true, hv, not_not]
  case hi =>
    rw [hle, hz]
    omega
  case ls =>
    rw [hle, hz]
    omega
  case lt => exact Int.not_le
  case gt =>
    rw [hzi]
    omega
  case le =>
    rw [hzi]
    omega

/-- **Conditions after a subtraction.** After `sub_op` with the S flag each enumerator is
handled, and decides the exact comparison of the operands. -/
theorem subOp_compares (cpu : CpuState) (reg : RegisterIndexT) (a b : Word) (c : CondCode)
    (hreg : reg.toNat < 16) : ∃ cpu' passed, subOp cpu reg a b true = .ok cpu' ∧
      condPassed c.value cpu'.cpsr = .ok passed ∧ (passed = true ↔ c.Compares a b) := by
  refine ⟨_, _, storeOp_eq hreg cpu (a - b) true _, condPassed_value c _, ?_⟩
  exact condSwitch_subFlags c a b cpu.cpsr

/-- `-2^31` is less than 1, though the difference wraps to a positive number. -/
theorem subOp_compares_lt : ∃ cpu' passed,
    subOp constructCpuState 3#8 0x80000000#32 1#32 true = .ok cpu' ∧
      condPassed CondCode.lt.value cpu'.cpsr = .ok passed ∧
      (passed = true ↔ CondCode.lt.Compares 0x80000000#32 1#32) :=
  subOp_compares constructCpuState 3#8 0x80000000#32 1#32 .lt (by decide)

/-! ### The flags-only operations and their twins -/

/-- The flags-only operations. -/
inductive FlagsOnly
  | tst
  | teq
  | cmp
  | cmn
deriving DecidableEq, Repr

namespace FlagsOnly

def op : FlagsOnly → CpuState → RegisterIndexT → Word → Word → CpuState
  | tst => tstOp
  | teq => teqOp
  | cmp => cmpOp
  | cmn => cmnOp

/-- The operation that does the same and stores the result. -/
def twin : FlagsOnly → BinOp
  | tst => andOp
  | teq => eorOp
  | cmp => subOp
  | cmn => addOp

/-- The status word's C and V are already those of the result. -/
def CarryOverflowRight (f : FlagsOnly) (cpsr : Cpsr) (a b : Word) : Prop :=
  match f with
  | tst | teq => True
  | cmp => (cpsrGetCarry cpsr = true ↔ b.toNat ≤ a.toNat) ∧
      (cpsrGetOverflow cpsr = true ↔ ¬ InRange 32 (a.toInt - b.toInt))
  | cmn => (cpsrGetCarry cpsr = true ↔ 2 ^ 32 ≤ a.toNat + b.toNat) ∧
      (cpsrGetOverflow cpsr = true ↔ ¬ InRange 32 (a.toInt + b.toInt))

/-- The operation keeps the registers and leaves its twin's status word. -/
def AgreesWithTwin (f : FlagsOnly) (cpu : CpuState) (reg : RegisterIndexT) (a b : Word) : Prop :=
  ∃ cpu', f.twin cpu reg a b true = .ok cpu' ∧
    (∀ i, i < 16 → (f.op cpu reg a b).reg i = cpu.reg i) ∧ (f.op cpu reg a b).cpsr = cpu'.cpsr

end FlagsOnly

/-- With one result for both, the agreement is that of the two flag updates. -/
theorem FlagsOnly.agreesWithTwin_iff {f : FlagsOnly} {cpu : CpuState} {reg : RegisterIndexT}
    {a b r : Word} {u : Cpsr → Cpsr} (hreg : reg.toNat < 16)
    (hop : f.op cpu reg a b = flagsOp cpu r)
    (htwin : f.twin cpu reg a b true = storeOp cpu reg r true u) :
    f.AgreesWithTwin cpu reg a b ↔ nzFlags r cpu.cpsr = u cpu.cpsr := by
  rw [storeOp_eq hreg] at htwin
  unfold AgreesWithTwin
  rw [hop, htwin]
  constructor
  · rintro ⟨cpu', h, -, hc⟩
    obtain rfl := Except.ok.inj h
    exact hc
  · intro h
    exact ⟨_, rfl, fun i _ => rfl, h⟩

theorem nzFlags_eq_put_put_iff (r : Word) (cpsr : Cpsr) (x y : Bool) :
    nzFlags r cpsr = ((nzFlags r cpsr).put 29 x).put 28 y ↔
      (cpsrGetCarry cpsr = true ↔ x = true) ∧ (cpsrGetOverflow cpsr = true ↔ y = true) := by
  rw [eq_comm, Cpsr.put_put_eq_self_iff (by decide) (by decide) (by decide), bit_nzFlags,
    bit_nzFlags, cpsrGetCarry_eq, cpsrGetOverflow_eq, ← Bool.eq_iff_iff, ← Bool.eq_iff_iff]
  exact Iff.rfl

/-- **Flags-only operations against their twins.** `tst_op` and `teq_op` leave the status
word of their twins; `cmp_op` and `cmn_op` do exactly when C and V were right before. -/
theorem flagsOnly_agrees_iff (f : FlagsOnly) (cpu : CpuState) (reg : RegisterIndexT) (a b : Word)
    (hreg : reg.toNat < 16) : f.AgreesWithTwin cpu reg a b ↔ f.CarryOverflowRight cpu.cpsr a b := by
  cases f with
  | tst => exact iff_of_true ((FlagsOnly.agreesWithTwin_iff hreg rfl rfl).mpr rfl) trivial
  | teq => exact iff_of_true ((FlagsOnly.agreesWithTwin_iff hreg rfl rfl).mpr rfl) trivial
  | cmp =>
    have hsub : FlagsOnly.cmp.twin cpu reg a b true =
        storeOp cpu reg (a - b) true (subFlags a b (a - b)) := rfl
    rw [FlagsOnly.agreesWithTwin_iff hreg rfl hsub, subFlags_eq, nzFlags_eq_put_put_iff,
      ssubOverflow_iff, decide_eq_true_iff]
    exact Iff.rfl
  | cmn =>
    have hadd : FlagsOnly.cmn.twin cpu reg a b true =
        storeOp cpu reg (a + b) true (addFlags a b) := addOp_eq cpu reg a b true
    rw [FlagsOnly.agreesWithTwin_iff hreg rfl hadd, addFlags, nzFlags_eq_put_put_iff,
      saddOverflow_iff, BitVec.uaddOverflow, decide_eq_true_iff]
    exact Iff.rfl

theorem flagsOnly_agrees_tst : FlagsOnly.tst.AgreesWithTwin constructCpuState 2#8 6#32 3#32 :=
  (flagsOnly_agrees_iff .tst constructCpuState 2#8 6#32 3#32 (by decide)).mpr trivial

/-- `CMP` of 0 with 0 in the initial state leaves C clear, so `CS` fails after it; `SUBS`
sets C. -/
theorem cmp_zero_keeps_carry :
    condPassed CondCode.cs.value (cmpOp constructCpuState 0#8 0#32 0#32).cpsr = .ok false ∧
      (subOp constructCpuState 0#8 0#32 0#32 true).map (fun cpu => cpsrGetCarry cpu.cpsr) =
        .ok true ∧
      ¬ FlagsOnly.cmp.AgreesWithTwin constructCpuState 0#8 0#32 0#32 := by
  have htwin : (subOp constructCpuState 0#8 0#32 0#32 true).map (fun cpu => cpsrGetCarry cpu.cpsr) =
      .ok true := by
    decide
  refine ⟨by decide, htwin, ?_⟩
  rintro ⟨cpu', h, -, hc⟩
  have h' : subOp constructCpuState 0#8 0#32 0#32 true = .ok cpu' := h
  rw [h'] at htwin
  have hset : cpsrGetCarry cpu'.cpsr = true := Except.ok.inj htwin
  rw [← hc] at hset
  exact absurd hset (by decide)

end SimpleArm
