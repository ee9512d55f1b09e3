/-
# Registers, status register and CPU state

`cpu/registers.h`, `cpu/cpsr.h` and `cpu/cpu.h`. The flag functions are field
updates of the status word (`FlagWord.put`), one bit each, and the
`cpsr_extract_*` functions put a flag there that is stated on the exact
operands: a carry is `BitVec.uaddOverflow`, an overflow is
`BitVec.saddOverflow` or `BitVec.ssubOverflow`.
-/
import SimpleArm.Lib.FlagWord
import SimpleArm.Lib.Overflow
import SimpleArm.Basic

namespace SimpleArm

open FlagWord

/-! ### The status register -/

structure Cpsr where
  value : Word
deriving DecidableEq, Repr

/-- `CPSR_FLAG_N`: the result is negative. -/
def cpsrFlagN : Word := 1#32 <<< 31
/-- `CPSR_FLAG_Z`: the result is zero. -/
def cpsrFlagZ : Word := 1#32 <<< 30
/-- `CPSR_FLAG_C`: a carry, or no borrow. -/
def cpsrFlagC : Word := 1#32 <<< 29
/-- `CPSR_FLAG_V`: a signed overflow. -/
def cpsrFlagV : Word := 1#32 <<< 28
/-- `CPSR_FLAG_T`: Thumb state. -/
def cpsrFlagT : Word := 1#32 <<< 5

def constructCpsr : Cpsr := ⟨0#32⟩

/-- The getters differ in their mask only. -/
def cpsrGet (flag : Word) (c : Cpsr) : Bool := (c.value &&& flag) != 0#32
/-- The clearing functions differ in their mask only. -/
def cpsrClear (flag : Word) (c : Cpsr) : Cpsr := ⟨c.value &&& ~~~flag⟩
/-- The setting functions differ in their mask only. -/
def cpsrSet (flag : Word) (c : Cpsr) : Cpsr := ⟨c.value ||| flag⟩

def cpsrGetNegative (c : Cpsr) : Bool := cpsrGet cpsrFlagN c
def cpsrGetZero (c : Cpsr) : Bool := cpsrGet cpsrFlagZ c
def cpsrGetCarry (c : Cpsr) : Bool := cpsrGet cpsrFlagC c
def cpsrGetOverflow (c : Cpsr) : Bool := cpsrGet cpsrFlagV c
def cpsrGetThumb (c : Cpsr) : Bool := cpsrGet cpsrFlagT c

def cpsrClearNegative (c : Cpsr) : Cpsr := cpsrClear cpsrFlagN c
def cpsrClearZero (c : Cpsr) : Cpsr := cpsrClear cpsrFlagZ c
def cpsrClearCarry (c : Cpsr) : Cpsr := cpsrClear cpsrFlagC c
def cpsrClearOverflow (c : Cpsr) : Cpsr := cpsrClear cpsrFlagV c

def cpsrSetNegative (c : Cpsr) : Cpsr := cpsrSet cpsrFlagN c
def cpsrSetZero (c : Cpsr) : Cpsr := cpsrSet cpsrFlagZ c
def cpsrSetCarry (c : Cpsr) : Cpsr := cpsrSet cpsrFlagC c
def cpsrSetOverflow (c : Cpsr) : Cpsr := cpsrSet cpsrFlagV c

def cpsrExtractNegative (c : Cpsr) (value : Word) : Cpsr :=
  if (value &&& 0x80000000#32) != 0#32 then cpsrSetNegative c else cpsrClearNegative c

def cpsrExtractZero (c : Cpsr) (value : Word) : Cpsr :=
  if value == 0#32 then cpsrSetZero c else cpsrClearZero c

def cpsrExtractOverflowAdd (c : Cpsr) (operand1 operand2 result : Word) : Cpsr :=
  let signExtractMask := 0x80000000#32
  let abDifference := operand1 ^^^ operand2
  let arDifference := operand1 ^^^ result
  let sameSignOperands := (abDifference &&& signExtractMask) == 0#32
  let resultDiffers := (arDifference &&& signExtractMask) != 0#32
  if sameSignOperands && resultDiffers then cpsrSetOverflow c else cpsrClearOverflow c

def cpsrExtractOverflowSub (c : Cpsr) (operand1 operand2 result : Word) : Cpsr :=
  let signExtractMask := 0x80000000#32
  let abDifference := operand1 ^^^ operand2
  let arDifference := operand1 ^^^ result
  let differentSignOperands := (abDifference &&& signExtractMask) != 0#32
  let resultDiffers := (arDifference &&& signExtractMask) != 0#32
  if differentSignOperands && resultDiffers then cpsrSetOverflow c else cpsrClearOverflow c

def cpsrExtractCarryAdd (c : Cpsr) (operand1 operand2 : Word) : Cpsr :=
  let wideResult : BitVec 64 := operand1.setWidth 64 + operand2.setWidth 64
  if (wideResult >>> 32) != 0#64 then cpsrSetCarry c else cpsrClearCarry c

/-- C is set when there is no borrow. -/
def cpsrExtractCarrySub (c : Cpsr) (operand1 operand2 : Word) : Cpsr :=
  if operand2 ≤ operand1 then cpsrSetCarry c else cpsrClearCarry c

/-! ### The flag functions as field updates -/

/-- The status word with bit `k` equal to `b`. -/
def Cpsr.put (c : Cpsr) (k : ℕ) (b : Bool) : Cpsr := ⟨FlagWord.put c.value k b⟩

def Cpsr.bit (c : Cpsr) (k : ℕ) : Bool := c.value.getLsbD k

theorem Cpsr.eq_of_bit {c c' : Cpsr} (h : ∀ i, i < 32 → c.bit i = c'.bit i) : c = c' :=
  congrArg Cpsr.mk (BitVec.eq_of_getLsbD_eq h)

theorem Cpsr.bit_put {k : ℕ} (hk : k < 32) (c : Cpsr) (b : Bool) (i : ℕ) :
    (c.put k b).bit i = if i = k then b else c.bit i :=
  getLsbD_put hk c.value b i

theorem Cpsr.put_eq_self_iff {k : ℕ} (hk : k < 32) (c : Cpsr) (b : Bool) :
    c.put k b = c ↔ c.bit k = b := by
  rw [show c.bit k = c.value.getLsbD k from rfl, ← FlagWord.put_eq_self_iff hk c.value b]
  exact ⟨congrArg Cpsr.value, congrArg Cpsr.mk⟩

theorem Cpsr.put_put_eq_self_iff {j k : ℕ} (hj : j < 32) (hk : k < 32) (hjk : j ≠ k) (c : Cpsr)
    (x y : Bool) : (c.put j x).put k y = c ↔ c.bit j = x ∧ c.bit k = y := by
  constructor
  · intro h
    have hb : ∀ i, ((c.put j x).put k y).bit i = c.bit i := fun i => by rw [h]
    have hbj := hb j
    have hbk := hb k
    simp only [Cpsr.bit_put hj, Cpsr.bit_put hk, hjk, if_true, if_false] at hbj hbk
    exact ⟨hbj.symm, hbk.symm⟩
  · rintro ⟨hx, hy⟩
    rw [(Cpsr.put_eq_self_iff hj c x).mpr hx, (Cpsr.put_eq_self_iff hk c y).mpr hy]

theorem cpsrGet_twoPow (k : ℕ) (c : Cpsr) : cpsrGet (BitVec.twoPow 32 k) c = c.bit k :=
  and_twoPow_ne_zero c.value k

@[simp] theorem cpsrGetNegative_eq (c : Cpsr) : cpsrGetNegative c = c.bit 31 := cpsrGet_twoPow 31 c
@[simp] theorem cpsrGetZero_eq (c : Cpsr) : cpsrGetZero c = c.bit 30 := cpsrGet_twoPow 30 c
@[simp] theorem cpsrGetCarry_eq (c : Cpsr) : cpsrGetCarry c = c.bit 29 := cpsrGet_twoPow 29 c
@[simp] theorem cpsrGetOverflow_eq (c : Cpsr) : cpsrGetOverflow c = c.bit 28 := cpsrGet_twoPow 28 c

/-- A flag is set or cleared by a test: it is put to the outcome. -/
theorem ite_set_clear (k : ℕ) (c : Cpsr) (b : Bool) :
    (if b = true then cpsrSet (BitVec.twoPow 32 k) c else cpsrClear (BitVec.twoPow 32 k) c) =
      c.put k b := by
  cases b <;> rfl

theorem and_signMask (v : Word) : ((v &&& 0x80000000#32) != 0#32) = v.msb :=
  (and_twoPow_ne_zero v 31).trans (BitVec.msb_eq_getLsbD_last v).symm

theorem cpsrExtractNegative_eq (c : Cpsr) (v : Word) :
    cpsrExtractNegative c v = c.put 31 v.msb := by
  rw [← ite_set_clear, cpsrExtractNegative, and_signMask]
  rfl

theorem cpsrExtractZero_eq (c : Cpsr) (v : Word) : cpsrExtractZero c v = c.put 30 (v == 0#32) := by
  rw [← ite_set_clear]
  rfl

theorem cpsrExtractOverflowAdd_eq (c : Cpsr) (a b : Word) :
    cpsrExtractOverflowAdd c a b (a + b) = c.put 28 (a.saddOverflow b) := by
  have hsame : (((a ^^^ b) &&& 0x80000000#32) == 0#32) = !(a ^^^ b).msb := by
    rw [← and_signMask, bne, Bool.not_not]
  rw [← ite_set_clear, ← Overflow.sadd_xor, ← hsame, ← and_signMask]
  rfl

theorem cpsrExtractOverflowSub_eq (c : Cpsr) (a b : Word) :
    cpsrExtractOverflowSub c a b (a - b) = c.put 28 (a.ssubOverflow b) := by
  rw [← ite_set_clear, ← Overflow.ssub_xor, ← and_signMask, ← and_signMask]
  rfl

/-- The 64-bit sum of two words does not wrap, so its upper half is the carry. -/
theorem wide_carry (a b : Word) :
    ((a.setWidth 64 + b.setWidth 64) >>> 32 != 0#64) = a.uaddOverflow b := by
  have ha := a.isLt
  have hb := b.isLt
  have hsum : (a.setWidth 64 + b.setWidth 64).toNat = a.toNat + b.toNat := by
    simp only [BitVec.toNat_add, BitVec.toNat_setWidth]
    omega
  have hz : ((a.setWidth 64 + b.setWidth 64) >>> 32 = 0#64) ↔ a.toNat + b.toNat < 2 ^ 32 := by
    rw [← BitVec.toNat_inj, BitVec.toNat_ushiftRight, hsum, Nat.shiftRight_eq_div_pow]
    simp only [BitVec.toNat_ofNat, Nat.zero_mod]
    omega
  rw [BitVec.uaddOverflow, bne, Bool.eq_iff_iff]
  simp [hz]

theorem cpsrExtractCarryAdd_eq (c : Cpsr) (a b : Word) :
    cpsrExtractCarryAdd c a b = c.put 29 (a.uaddOverflow b) := by
  rw [← ite_set_clear, ← wide_carry]
  rfl

theorem cpsrExtractCarrySub_eq (c : Cpsr) (a b : Word) :
    cpsrExtractCarrySub c a b = c.put 29 (decide (b ≤ a)) := by
  rw [← ite_set_clear]
  simp only [decide_eq_true_eq]
  rfl

/-! ### Registers -/

def registerCount : ℕ := 16

abbrev RegisterIndexT := BitVec 8

/-- The number a `RegisterIndex` holds. -/
abbrev RegisterIndex := ℕ

def linkRegisterIndex : RegisterIndex := 14
def pcRegisterIndex : RegisterIndex := 15

structure Registers where
  regs : Vector Word registerCount
deriving DecidableEq

def constructRegisters : Registers := ⟨Vector.replicate registerCount 0#32⟩

def regsGet (registers : Registers) (index : RegisterIndex) : Except Abort Word :=
  match registers.regs[index]? with
  | some v => .ok v
  | none => .error .undefinedAccess

def regsSet (registers : Registers) (index : RegisterIndex) (value : Word) :
    Except Abort Registers :=
  if h : index < registerCount then .ok ⟨registers.regs.set index value⟩
  else .error .undefinedAccess

/-! ### The CPU state -/

structure CpuState where
  regs : Registers
  cpsr : Cpsr
deriving DecidableEq

def initialPc : Word := 0#32

def constructCpuState : CpuState := ⟨constructRegisters, constructCpsr⟩

def cpuSetReg (cpu : CpuState) (index : RegisterIndex) (value : Word) : Except Abort CpuState := do
  require (decide (index < registerCount)) .registerIndex
  let regs ← regsSet cpu.regs index value
  return { cpu with regs := regs }

def cpuGetReg (cpu : CpuState) (index : RegisterIndex) : Except Abort Word := do
  require (decide (index < registerCount)) .registerIndex
  regsGet cpu.regs index

namespace CpuState

/-- Register `i` of the state; 0 past the last. -/
def reg (cpu : CpuState) (i : ℕ) : Word := (cpu.regs.regs[i]?).getD 0#32

/-- The state with register `i` equal to `v`. -/
def setReg (cpu : CpuState) (i : ℕ) (v : Word) : CpuState :=
  { cpu with regs := ⟨cpu.regs.regs.setIfInBounds i v⟩ }

@[simp] theorem setReg_cpsr (cpu : CpuState) (i : ℕ) (v : Word) :
    (cpu.setReg i v).cpsr = cpu.cpsr := rfl

@[simp] theorem reg_withCpsr (cpu : CpuState) (c : Cpsr) (i : ℕ) :
    reg { cpu with cpsr := c } i = cpu.reg i := rfl

theorem reg_setReg {i : ℕ} (hi : i < 16) (cpu : CpuState) (v : Word) (j : ℕ) :
    (cpu.setReg i v).reg j = if j = i then v else cpu.reg j := by
  simp only [reg, setReg, Vector.getElem?_setIfInBounds]
  by_cases h : j = i
  · simp [h, registerCount, hi]
  · simp [h, Ne.symm h]

@[simp] theorem reg_setReg_self {i : ℕ} (hi : i < 16) (cpu : CpuState) (v : Word) :
    (cpu.setReg i v).reg i = v := by
  simp [reg_setReg hi]

theorem reg_setReg_ne {i j : ℕ} (hi : i < 16) (h : j ≠ i) (cpu : CpuState) (v : Word) :
    (cpu.setReg i v).reg j = cpu.reg j := by
  simp [reg_setReg hi, h]

theorem setReg_reg (cpu : CpuState) (i : ℕ) : cpu.setReg i (cpu.reg i) = cpu := by
  have hregs : cpu.regs.regs.setIfInBounds i (cpu.reg i) = cpu.regs.regs := by
    ext j hj
    rw [Vector.getElem_setIfInBounds]
    split_ifs with hij
    · subst hij
      simp [reg, hj]
    · rfl
  unfold setReg
  rw [hregs]

theorem eq_of_reg {cpu cpu' : CpuState} (hreg : ∀ i, i < 16 → cpu.reg i = cpu'.reg i)
    (hcpsr : cpu.cpsr = cpu'.cpsr) : cpu = cpu' := by
  obtain ⟨⟨regs⟩, cpsr⟩ := cpu
  obtain ⟨⟨regs'⟩, cpsr'⟩ := cpu'
  obtain rfl : cpsr = cpsr' := hcpsr
  have hregs : regs = regs' := by
    refine Vector.ext fun i hi => ?_
    have h := hreg i hi
    simp only [reg, Vector.getElem?_eq_getElem hi, Option.getD_some] at h
    exact h
  rw [hregs]

theorem setReg_setReg {i : ℕ} (hi : i < 16) (cpu : CpuState) (v u : Word) :
    (cpu.setReg i v).setReg i u = cpu.setReg i u := by
  refine eq_of_reg (fun j _ => ?_) rfl
  rw [reg_setReg hi, reg_setReg hi, reg_setReg hi]
  split_ifs <;> rfl

theorem setReg_comm {i j : ℕ} (hi : i < 16) (hj : j < 16) (hij : i ≠ j) (cpu : CpuState)
    (v u : Word) : (cpu.setReg i v).setReg j u = (cpu.setReg j u).setReg i v := by
  refine eq_of_reg (fun k _ => ?_) rfl
  simp only [reg_setReg hi, reg_setReg hj]
  split_ifs with h h'
  · exact absurd (h'.symm.trans h) hij
  all_goals rfl

end CpuState

theorem cpuGetReg_eq {i : ℕ} (hi : i < 16) (cpu : CpuState) :
    cpuGetReg cpu i = .ok (cpu.reg i) := by
  have hi' : i < registerCount := hi
  simp [cpuGetReg, hi', regsGet, CpuState.reg]

theorem cpuSetReg_eq {i : ℕ} (hi : i < 16) (cpu : CpuState) (v : Word) :
    cpuSetReg cpu i v = .ok (cpu.setReg i v) := by
  have hi' : i < registerCount := hi
  have hset : cpu.regs.regs.set i v hi' = cpu.regs.regs.setIfInBounds i v := by
    ext j hj
    simp [Vector.getElem_set, Vector.getElem_setIfInBounds]
  simp [cpuSetReg, hi', regsSet, CpuState.setReg, hset, pure, Except.pure]

theorem cpuGetReg_pc (cpu : CpuState) : cpuGetReg cpu pcRegisterIndex = .ok (cpu.reg 15) :=
  cpuGetReg_eq (by decide) cpu

theorem cpuSetReg_pc (cpu : CpuState) (v : Word) :
    cpuSetReg cpu pcRegisterIndex v = .ok (cpu.setReg 15 v) :=
  cpuSetReg_eq (by decide) cpu v

theorem cpuGetReg_of_ge {i : ℕ} (hi : 16 ≤ i) (cpu : CpuState) :
    cpuGetReg cpu i = .error .registerIndex := by
  have hi' : ¬ i < registerCount := Nat.not_lt.mpr hi
  simp [cpuGetReg, hi']

theorem cpuSetReg_of_ge {i : ℕ} (hi : 16 ≤ i) (cpu : CpuState) (v : Word) :
    cpuSetReg cpu i v = .error .registerIndex := by
  have hi' : ¬ i < registerCount := Nat.not_lt.mpr hi
  simp [cpuSetReg, hi']

end SimpleArm
