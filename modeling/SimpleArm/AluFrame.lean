/-
# What the ALU leaves alone

The frame of the sixteen operations (`alu_frame`): the registers other than the
destination, the status bits below V, C and V under the bitwise operations, and
the whole status word without the S flag, which does not change what is stored.

The S flag is where the bitwise operations differ from each other. `mov_op`,
`and_op` and `eor_op` set N and Z when it asks for them. `orr_op` and `bic_op`
have no such argument and `mvn_op` does not read its own, so with S they are
right only when N and Z already are those of the result (`logical_sBit_iff`).
-/
import SimpleArm.Lib.BitField
import SimpleArm.Alu

namespace SimpleArm

open BitField

/-! ### The frame -/

namespace AluOp

/-- The operations on bits, which have no carry and no overflow. -/
def bitwise : AluOp → Bool
  | mov | and | eor | tst | teq | orr | bic | mvn => true
  | _ => false

/-- The operations with the argument `rises_cpsr`. -/
def takesRises : AluOp → Bool
  | tst | teq | cmp | cmn | orr | bic => false
  | _ => true

theorem flags_of_bitwise {op : AluOp} (h : op.bitwise = true) (carry a b : Word) (c : Cpsr) :
    op.flags carry a b c = nzFlags (op.result carry a b) c := by
  cases op <;> first | rfl | cases h

theorem updates_of_takesRises {op : AluOp} (h : op.takesRises = true) :
    op.updates false = false := by
  cases op <;> first | rfl | cases h

end AluOp

/-- What a call leaves alone. -/
structure AluFrame (cpu : CpuState) (k : AluCall) (cpu' : CpuState) : Prop where
  others : ∀ i, i ≠ k.reg.toNat → cpu'.reg i = cpu.reg i
  flagsOnly : k.op.stores = false → ∀ i, cpu'.reg i = cpu.reg i
  reserved : ∀ i, i < 28 → cpu'.cpsr.bit i = cpu.cpsr.bit i
  carry : k.op.bitwise = true → cpsrGetCarry cpu'.cpsr = cpsrGetCarry cpu.cpsr
  overflow : k.op.bitwise = true → cpsrGetOverflow cpu'.cpsr = cpsrGetOverflow cpu.cpsr

namespace AluCall

variable (cpu : CpuState) (k : AluCall)

theorem cpsrAfter_reserved {i : ℕ} (hi : i < 28) : (k.cpsrAfter cpu).bit i = cpu.cpsr.bit i := by
  unfold cpsrAfter
  split_ifs
  · exact k.op.flags_reserved _ _ _ _ hi
  · rfl

theorem cpsrAfter_bitwise (h : k.op.bitwise = true) {i : ℕ} (hi : i < 30) :
    (k.cpsrAfter cpu).bit i = cpu.cpsr.bit i := by
  unfold cpsrAfter
  split_ifs
  · rw [AluOp.flags_of_bitwise h, bit_nzFlags, if_neg (by omega), if_neg (by omega)]
  · rfl

theorem after_frame (hreg : k.reg.toNat < 16) : AluFrame cpu k (k.after cpu) where
  others i hi := by
    rw [k.reg_after cpu (fun _ => hreg), if_neg fun h => hi h.2]
  flagsOnly hs i := by
    rw [k.reg_after cpu (fun _ => hreg), if_neg fun h => absurd (hs.symm.trans h.1) (by decide)]
  reserved _ hi := k.cpsrAfter_reserved cpu hi
  carry h := by
    rw [cpsrGetCarry_eq, cpsrGetCarry_eq]
    exact k.cpsrAfter_bitwise cpu h (by decide)
  overflow h := by
    rw [cpsrGetOverflow_eq, cpsrGetOverflow_eq]
    exact k.cpsrAfter_bitwise cpu h (by decide)

end AluCall

/-- **The frame of the ALU.** A call with a destination below 16 returns and changes nothing
outside its frame; and an operation that takes `rises_cpsr` keeps the status word without
it, and stores the same with and without it. -/
theorem alu_frame (cpu : CpuState) (k : AluCall) (hreg : k.reg.toNat < 16) :
    (∃ cpu', k.exec cpu = .ok cpu' ∧ AluFrame cpu k cpu') ∧
      (k.op.takesRises = true → ∃ cpu₀ cpu₁,
        AluCall.exec cpu { k with risesCpsr := false } = .ok cpu₀ ∧
          AluCall.exec cpu { k with risesCpsr := true } = .ok cpu₁ ∧
            cpu₀.cpsr = cpu.cpsr ∧ cpu₀.regs = cpu₁.regs) := by
  refine ⟨⟨_, k.exec_eq cpu hreg, k.after_frame cpu hreg⟩, fun h => ?_⟩
  refine ⟨_, _, AluCall.exec_eq cpu { k with risesCpsr := false } hreg,
    AluCall.exec_eq cpu { k with risesCpsr := true } hreg, ?_, rfl⟩
  show AluCall.cpsrAfter cpu { k with risesCpsr := false } = cpu.cpsr
  rw [AluCall.cpsrAfter, AluOp.updates_of_takesRises h]
  rfl

/-- `MVN r3, #1`. -/
theorem alu_frame_mvn :
    (∃ cpu', AluCall.exec constructCpuState ⟨.mvn, 3#8, 0#32, 1#32, true⟩ = .ok cpu' ∧
        AluFrame constructCpuState ⟨.mvn, 3#8, 0#32, 1#32, true⟩ cpu') ∧
      ∃ cpu₀ cpu₁, AluCall.exec constructCpuState ⟨.mvn, 3#8, 0#32, 1#32, false⟩ = .ok cpu₀ ∧
        AluCall.exec constructCpuState ⟨.mvn, 3#8, 0#32, 1#32, true⟩ = .ok cpu₁ ∧
          cpu₀.cpsr = constructCpuState.cpsr ∧ cpu₀.regs = cpu₁.regs := by
  obtain ⟨hframe, hrises⟩ := alu_frame constructCpuState ⟨.mvn, 3#8, 0#32, 1#32, true⟩ (by decide)
  exact ⟨hframe, hrises rfl⟩

/-! ### The S flag of the bitwise operations -/

/-- The operations that store a bitwise result. -/
inductive LogicalOp
  | mov
  | mvn
  | and
  | eor
  | orr
  | bic
deriving DecidableEq, Repr

namespace LogicalOp

def op : LogicalOp → AluOp
  | mov => .mov
  | mvn => .mvn
  | and => .and
  | eor => .eor
  | orr => .orr
  | bic => .bic

/-- The documented result; `mov_op` and `mvn_op` have one operand. -/
def result (o : LogicalOp) (a b : Word) : Word :=
  match o with
  | mov => b
  | mvn => ~~~b
  | and => a &&& b
  | eor => a ^^^ b
  | orr => a ||| b
  | bic => a &&& ~~~b

/-- The call returns with the result in its register and, for an instruction with the S flag,
with N and Z of the result and nothing else of the status word changed. Without the S flag
none of it is. -/
def FollowsS (o : LogicalOp) (cpu : CpuState) (reg : RegisterIndexT) (a b : Word) (s : Bool) :
    Prop :=
  ∃ cpu', AluCall.exec cpu ⟨o.op, reg, a, b, s⟩ = .ok cpu' ∧
    cpu'.reg reg.toNat = o.result a b ∧
    (s = true → cpsrGetNegative cpu'.cpsr = (o.result a b).msb ∧
      (cpsrGetZero cpu'.cpsr = true ↔ o.result a b = 0#32) ∧
      ∀ i, i < 30 → cpu'.cpsr.bit i = cpu.cpsr.bit i) ∧
    (s = false → cpu'.cpsr = cpu.cpsr)

/-- N and Z need no update, or the operation makes it. -/
def FlagsRight (o : LogicalOp) (cpsr : Cpsr) (a b : Word) (s : Bool) : Prop :=
  match o with
  | mov | and | eor => True
  | orr => s = true → cpsrGetNegative cpsr = (a.msb || b.msb) ∧
      (cpsrGetZero cpsr = true ↔ a = 0#32 ∧ b = 0#32)
  | bic => s = true → cpsrGetNegative cpsr = (a.msb && !b.msb) ∧
      (cpsrGetZero cpsr = true ↔ a &&& b = a)
  | mvn => s = true → cpsrGetNegative cpsr = !b.msb ∧
      (cpsrGetZero cpsr = true ↔ b = 0xFFFFFFFF#32)

end LogicalOp

section Logical

variable {reg : RegisterIndexT} (hreg : reg.toNat < 16) (cpu : CpuState) (o : LogicalOp)
  (a b : Word) (s : Bool)

include hreg

/-- The result is always stored, so the call is right when its status word is. -/
theorem followsS_iff : o.FollowsS cpu reg a b s ↔
    (s = true → AluCall.cpsrAfter cpu ⟨o.op, reg, a, b, s⟩ = nzFlags (o.result a b) cpu.cpsr) ∧
      (s = false → AluCall.cpsrAfter cpu ⟨o.op, reg, a, b, s⟩ = cpu.cpsr) := by
  have hresult : (AluCall.after cpu ⟨o.op, reg, a, b, s⟩).reg reg.toNat = o.result a b := by
    rw [AluCall.reg_after cpu ⟨o.op, reg, a, b, s⟩ (fun _ => hreg)]
    cases o <;> exact if_pos ⟨rfl, rfl⟩
  unfold LogicalOp.FollowsS
  rw [AluCall.exec_eq cpu ⟨o.op, reg, a, b, s⟩ hreg]
  constructor
  · rintro ⟨cpu', h, -, hset, hkeep⟩
    obtain rfl := Except.ok.inj h
    exact ⟨fun hs => (eq_nzFlags_iff _ _ _).mpr (hset hs), hkeep⟩
  · rintro ⟨hset, hkeep⟩
    exact ⟨_, rfl, hresult, fun hs => (eq_nzFlags_iff _ _ _).mp (hset hs), hkeep⟩

theorem followsS_of_updates (hu : ∀ s, o.op.updates s = s)
    (hflags : ∀ carry c, o.op.flags carry a b c = nzFlags (o.result a b) c) :
    o.FollowsS cpu reg a b s := by
  rw [followsS_iff hreg]
  unfold AluCall.cpsrAfter
  rw [hu, hflags]
  exact ⟨fun hs => if_pos hs, fun hs => if_neg (by simp [hs])⟩

theorem followsS_iff_of_not_updates (hu : ∀ s, o.op.updates s = false) :
    o.FollowsS cpu reg a b s ↔ (s = true → cpsrGetNegative cpu.cpsr = (o.result a b).msb ∧
      (cpsrGetZero cpu.cpsr = true ↔ o.result a b = 0#32)) := by
  rw [followsS_iff hreg, ← nzFlags_eq_self_iff]
  unfold AluCall.cpsrAfter
  rw [hu, if_neg Bool.false_ne_true]
  refine (and_iff_left fun _ => rfl).trans ?_
  exact forall_congr' fun _ => eq_comm

end Logical

/-- **The S flag of the bitwise operations.** `mov_op`, `and_op` and `eor_op` always follow
it. `orr_op`, `bic_op` and `mvn_op` do without it, and with it exactly when N and Z were
right before. -/
theorem logical_sBit_iff (o : LogicalOp) (cpu : CpuState) (reg : RegisterIndexT) (a b : Word)
    (s : Bool) (hreg : reg.toNat < 16) :
    o.FollowsS cpu reg a b s ↔ o.FlagsRight cpu.cpsr a b s := by
  cases o with
  | mov | and | eor =>
    refine iff_of_true (followsS_of_updates hreg cpu _ a b s ?_ ?_) trivial
    · exact fun _ => rfl
    · exact fun _ _ => rfl
  | orr =>
    rw [followsS_iff_of_not_updates hreg cpu .orr a b s fun _ => rfl]
    simp only [LogicalOp.result, LogicalOp.FlagsRight, BitVec.msb_or, BitVec.or_eq_zero_iff]
  | bic =>
    rw [followsS_iff_of_not_updates hreg cpu .bic a b s fun _ => rfl]
    simp only [LogicalOp.result, LogicalOp.FlagsRight, BitVec.msb_and, and_not_eq_zero_iff]
    simp
  | mvn =>
    have hzero : ~~~b = 0#32 ↔ b = 0xFFFFFFFF#32 := by
      rw [BitVec.not_eq_comm]
      exact Iff.rfl
    rw [followsS_iff_of_not_updates hreg cpu .mvn a b s fun _ => rfl]
    simp only [LogicalOp.result, LogicalOp.FlagsRight, hzero]
    simp

/-- `ORRS r3` of two words that are not negative, from the initial state: N and Z are clear
already. -/
theorem logical_sBit_orr : LogicalOp.orr.FollowsS constructCpuState 3#8 6#32 1#32 true :=
  (logical_sBit_iff .orr constructCpuState 3#8 6#32 1#32 true (by decide)).mpr (by
    unfold LogicalOp.FlagsRight
    decide)

/-- `MVNS r3, #0` stores a negative number and leaves N clear. -/
theorem mvns_keeps_negative :
    (mvnOp constructCpuState 3#8 0#32 true).map (fun cpu => (cpu.reg 3, cpsrGetNegative cpu.cpsr)) =
        .ok (0xFFFFFFFF#32, false) ∧
      ¬ LogicalOp.mvn.FollowsS constructCpuState 3#8 0#32 0#32 true := by
  have hrun : (mvnOp constructCpuState 3#8 0#32 true).map
      (fun cpu => (cpu.reg 3, cpsrGetNegative cpu.cpsr)) = .ok (0xFFFFFFFF#32, false) := by
    decide
  refine ⟨hrun, ?_⟩
  rintro ⟨cpu, h, -, hflags, -⟩
  have hcall : mvnOp constructCpuState 3#8 0#32 true = .ok cpu := h
  rw [hcall] at hrun
  have hclear : cpsrGetNegative cpu.cpsr = false := (Prod.mk.inj (Except.ok.inj hrun)).2
  have hset := (hflags rfl).1
  exact absurd (hclear.symm.trans hset) (by decide)

end SimpleArm
