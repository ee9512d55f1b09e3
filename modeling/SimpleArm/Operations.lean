/-
# The operations of the ALU

`instructions/data_processing/operations.h`. The operations that write store
their result and then, when the S flag asks for it, run flag updates over the
status register; `storeOp` is that skeleton, and each operation gives it its
result and its updates in the source's order. `orr_op` and `bic_op` have no S
argument and `mvn_op` has one that it does not read. The flags-only operations
never store.

Each flag update is a field update (`nzFlags_eq`, `subFlags_eq`, `addFlags`), so
what an operation does is two facts: the register it stores (`storeOp_eq`)
and the word those updates leave.
-/
import SimpleArm.Cpu

namespace SimpleArm

/-- Store the result, then update the flags unless `rises_cpsr` is false. -/
def storeOp (cpu : CpuState) (reg : RegisterIndexT) (result : Word) (risesCpsr : Bool)
    (update : Cpsr → Cpsr) : Except Abort CpuState := do
  let cpu ← cpuSetReg cpu reg.toNat result
  if !risesCpsr then return cpu
  return { cpu with cpsr := update cpu.cpsr }

/-- N and Z of a result. -/
def nzFlags (result : Word) (cpsr : Cpsr) : Cpsr :=
  let cpsr := cpsrExtractZero cpsr result
  cpsrExtractNegative cpsr result

/-- The flags of `minuend - subtrahend`. -/
def subFlags (minuend subtrahend result : Word) (cpsr : Cpsr) : Cpsr :=
  let cpsr := cpsrExtractZero cpsr result
  let cpsr := cpsrExtractNegative cpsr result
  let cpsr := cpsrExtractCarrySub cpsr minuend subtrahend
  cpsrExtractOverflowSub cpsr minuend subtrahend result

def movOp (cpu : CpuState) (reg : RegisterIndexT) (value : Word) (risesCpsr : Bool) :
    Except Abort CpuState :=
  storeOp cpu reg value risesCpsr (nzFlags value)

def andOp (cpu : CpuState) (reg : RegisterIndexT) (operand1 operand2 : Word) (risesCpsr : Bool) :
    Except Abort CpuState :=
  let result := operand1 &&& operand2
  storeOp cpu reg result risesCpsr (nzFlags result)

def eorOp (cpu : CpuState) (reg : RegisterIndexT) (operand1 operand2 : Word) (risesCpsr : Bool) :
    Except Abort CpuState :=
  let result := operand1 ^^^ operand2
  storeOp cpu reg result risesCpsr (nzFlags result)

def subOp (cpu : CpuState) (reg : RegisterIndexT) (operand1 operand2 : Word) (risesCpsr : Bool) :
    Except Abort CpuState :=
  let result := operand1 - operand2
  storeOp cpu reg result risesCpsr (subFlags operand1 operand2 result)

def rsbOp (cpu : CpuState) (reg : RegisterIndexT) (operand1 operand2 : Word) (risesCpsr : Bool) :
    Except Abort CpuState :=
  let result := operand2 - operand1
  storeOp cpu reg result risesCpsr (subFlags operand2 operand1 result)

/-- The carry is extracted from the operands in the other order. -/
def addOp (cpu : CpuState) (reg : RegisterIndexT) (operand1 operand2 : Word) (risesCpsr : Bool) :
    Except Abort CpuState :=
  let result := operand1 + operand2
  storeOp cpu reg result risesCpsr fun cpsr =>
    let cpsr := cpsrExtractZero cpsr result
    let cpsr := cpsrExtractNegative cpsr result
    let cpsr := cpsrExtractCarryAdd cpsr operand2 operand1
    cpsrExtractOverflowAdd cpsr operand1 operand2 result

/-- The C flag as a number, which the operations with carry read before they store. -/
def carryIn (cpu : CpuState) : Word := if cpsrGetCarry cpu.cpsr then 1#32 else 0#32

/-- The carry is added to the second operand first, modulo `2^32`. -/
def adcOp (cpu : CpuState) (reg : RegisterIndexT) (operand1 operand2 : Word) (risesCpsr : Bool) :
    Except Abort CpuState :=
  let carry := carryIn cpu
  let operand2WithCarry := operand2 + carry
  let result := operand1 + operand2WithCarry
  storeOp cpu reg result risesCpsr fun cpsr =>
    let cpsr := cpsrExtractZero cpsr result
    let cpsr := cpsrExtractNegative cpsr result
    let cpsr := cpsrExtractCarryAdd cpsr operand1 operand2WithCarry
    cpsrExtractOverflowAdd cpsr operand1 operand2WithCarry result

/-- The carry is subtracted from the second operand. -/
def sbcOp (cpu : CpuState) (reg : RegisterIndexT) (operand1 operand2 : Word) (risesCpsr : Bool) :
    Except Abort CpuState :=
  let carry := carryIn cpu
  let operand2WithCarry := operand2 - carry
  let result := operand1 - operand2WithCarry
  storeOp cpu reg result risesCpsr (subFlags operand1 operand2WithCarry result)

/-- The carry is added to the first operand. -/
def rscOp (cpu : CpuState) (reg : RegisterIndexT) (operand1 operand2 : Word) (risesCpsr : Bool) :
    Except Abort CpuState :=
  let carry := carryIn cpu
  let operand1WithCarry := operand1 + carry
  let result := operand2 - operand1WithCarry
  storeOp cpu reg result risesCpsr (subFlags operand2 operand1WithCarry result)

/-- The flags-only operations update N and Z whatever the S flag, and take a register
they do not use. -/
def flagsOp (cpu : CpuState) (result : Word) : CpuState :=
  { cpu with cpsr := nzFlags result cpu.cpsr }

def tstOp (cpu : CpuState) (_reg : RegisterIndexT) (operand1 operand2 : Word) : CpuState :=
  flagsOp cpu (operand1 &&& operand2)

def teqOp (cpu : CpuState) (_reg : RegisterIndexT) (operand1 operand2 : Word) : CpuState :=
  flagsOp cpu (operand1 ^^^ operand2)

def cmpOp (cpu : CpuState) (_reg : RegisterIndexT) (operand1 operand2 : Word) : CpuState :=
  flagsOp cpu (operand1 - operand2)

def cmnOp (cpu : CpuState) (_reg : RegisterIndexT) (operand1 operand2 : Word) : CpuState :=
  flagsOp cpu (operand1 + operand2)

def orrOp (cpu : CpuState) (reg : RegisterIndexT) (operand1 operand2 : Word) :
    Except Abort CpuState :=
  cpuSetReg cpu reg.toNat (operand1 ||| operand2)

def bicOp (cpu : CpuState) (reg : RegisterIndexT) (operand1 operand2 : Word) :
    Except Abort CpuState :=
  cpuSetReg cpu reg.toNat (operand1 &&& ~~~operand2)

def mvnOp (cpu : CpuState) (reg : RegisterIndexT) (operand2 : Word) (_risesCpsr : Bool) :
    Except Abort CpuState :=
  cpuSetReg cpu reg.toNat (~~~operand2)

/-- An operation of the ALU with two operands and the S flag. -/
abbrev BinOp := CpuState → RegisterIndexT → Word → Word → Bool → Except Abort CpuState

/-! ### The flag updates -/

theorem nzFlags_eq (r : Word) (c : Cpsr) : nzFlags r c = (c.put 30 (r == 0#32)).put 31 r.msb := by
  simp only [nzFlags, cpsrExtractZero_eq, cpsrExtractNegative_eq]

theorem subFlags_eq (a b : Word) (c : Cpsr) :
    subFlags a b (a - b) c =
      ((nzFlags (a - b) c).put 29 (decide (b ≤ a))).put 28 (a.ssubOverflow b) := by
  simp only [subFlags, nzFlags, cpsrExtractCarrySub_eq, cpsrExtractOverflowSub_eq]

/-- The flags of `a + b`. -/
def addFlags (a b : Word) (c : Cpsr) : Cpsr :=
  ((nzFlags (a + b) c).put 29 (a.uaddOverflow b)).put 28 (a.saddOverflow b)

theorem addOp_eq (cpu : CpuState) (reg : RegisterIndexT) (a b : Word) (s : Bool) :
    addOp cpu reg a b s = storeOp cpu reg (a + b) s (addFlags a b) := by
  simp only [addOp, cpsrExtractCarryAdd_eq, cpsrExtractOverflowAdd_eq,
    Overflow.uaddOverflow_comm b a]
  rfl

theorem adcOp_eq (cpu : CpuState) (reg : RegisterIndexT) (a b : Word) (s : Bool) :
    adcOp cpu reg a b s =
      storeOp cpu reg (a + (b + carryIn cpu)) s (addFlags a (b + carryIn cpu)) := by
  simp only [adcOp, cpsrExtractCarryAdd_eq, cpsrExtractOverflowAdd_eq]
  rfl

/-! ### The bits of the updated word -/

theorem bit_nzFlags (r : Word) (c : Cpsr) (i : ℕ) :
    (nzFlags r c).bit i = if i = 31 then r.msb else if i = 30 then r == 0#32 else c.bit i := by
  rw [nzFlags_eq, Cpsr.bit_put (by omega), Cpsr.bit_put (by omega)]

theorem bit_subFlags (a b : Word) (c : Cpsr) (i : ℕ) :
    (subFlags a b (a - b) c).bit i = if i = 28 then a.ssubOverflow b else
      if i = 29 then decide (b ≤ a) else (nzFlags (a - b) c).bit i := by
  rw [subFlags_eq, Cpsr.bit_put (by omega), Cpsr.bit_put (by omega)]

theorem bit_addFlags (a b : Word) (c : Cpsr) (i : ℕ) :
    (addFlags a b c).bit i = if i = 28 then a.saddOverflow b else
      if i = 29 then a.uaddOverflow b else (nzFlags (a + b) c).bit i := by
  rw [addFlags, Cpsr.bit_put (by omega), Cpsr.bit_put (by omega)]

theorem nzFlags_eq_self_iff (r : Word) (c : Cpsr) : nzFlags r c = c ↔
    cpsrGetNegative c = r.msb ∧ (cpsrGetZero c = true ↔ r = 0#32) := by
  rw [nzFlags_eq, Cpsr.put_put_eq_self_iff (by decide) (by decide) (by decide), and_comm,
    cpsrGetNegative_eq, cpsrGetZero_eq, Bool.eq_iff_iff (b := r == 0#32), beq_iff_eq]

/-- The word that N and Z of a result leave: these two bits, and the others as before. -/
theorem eq_nzFlags_iff (r : Word) (c c' : Cpsr) : c' = nzFlags r c ↔
    cpsrGetNegative c' = r.msb ∧ (cpsrGetZero c' = true ↔ r = 0#32) ∧
      ∀ i, i < 30 → c'.bit i = c.bit i := by
  rw [cpsrGetNegative_eq, cpsrGetZero_eq]
  constructor
  · rintro rfl
    refine ⟨bit_nzFlags r c 31, ?_, fun i hi => ?_⟩
    · rw [bit_nzFlags, if_neg (by decide), if_pos rfl, beq_iff_eq]
    · rw [bit_nzFlags, if_neg (by omega), if_neg (by omega)]
  · rintro ⟨hn, hz, hlow⟩
    refine Cpsr.eq_of_bit fun i hi => ?_
    rw [bit_nzFlags]
    split_ifs with h31 h30
    · rw [h31, hn]
    · rw [h30, Bool.eq_iff_iff, hz, beq_iff_eq]
    · exact hlow i (by omega)

/-! ### What a storing operation does -/

theorem cpuSetReg_eq_set (cpu : CpuState) (i : ℕ) (v : Word) : cpuSetReg cpu i v =
    (cpuSetReg cpu i v).map fun c => { c with cpsr := cpu.cpsr } := by
  rcases Nat.lt_or_ge i 16 with hi | hi
  · rw [cpuSetReg_eq hi]
    rfl
  · rw [cpuSetReg_of_ge hi]
    rfl

theorem storeOp_eq_set (cpu : CpuState) (reg : RegisterIndexT) (s : Bool) (r : Word)
    (u : Cpsr → Cpsr) : storeOp cpu reg r s u = (cpuSetReg cpu reg.toNat r).map fun c =>
      { c with cpsr := if s then u cpu.cpsr else cpu.cpsr } := by
  rw [storeOp, cpuSetReg_eq_set]
  rcases cpuSetReg cpu reg.toNat r with e | c
  · rfl
  · cases s <;> rfl

theorem storeOp_eq {reg : RegisterIndexT} (hr : reg.toNat < 16) (cpu : CpuState) (r : Word)
    (s : Bool) (u : Cpsr → Cpsr) :
    storeOp cpu reg r s u =
      .ok { cpu.setReg reg.toNat r with cpsr := if s then u cpu.cpsr else cpu.cpsr } := by
  rw [storeOp_eq_set, cpuSetReg_eq hr]
  rfl

end SimpleArm
