/-
# The ALU as one function

The sixteen operations as calls with an operation code, so that a run may take
any of them. What a call does is the value it stores (`AluOp.result`), the
status word it leaves (`AluOp.flags`) and the two cases of each: whether the
operation stores at all, and whether it updates the flags. `AluCall.exec_eq`
says so of every call; results about the ALU follow from it without opening
an operation again.
-/
import SimpleArm.Operations

namespace SimpleArm

/-- The operations of `operations.h`. -/
inductive AluOp
  | mov | and | eor | sub | rsb | add | adc | sbc | rsc | tst | teq | cmp | cmn | orr | bic | mvn
deriving DecidableEq, Repr

/-- A call of an operation. -/
structure AluCall where
  op : AluOp
  reg : RegisterIndexT
  operand1 : Word
  operand2 : Word
  risesCpsr : Bool
deriving DecidableEq, Repr

/-- The call. The operations with one operand are given the second. -/
def AluCall.exec (cpu : CpuState) (k : AluCall) : Except Abort CpuState :=
  match k.op with
  | .mov => movOp cpu k.reg k.operand2 k.risesCpsr
  | .and => andOp cpu k.reg k.operand1 k.operand2 k.risesCpsr
  | .eor => eorOp cpu k.reg k.operand1 k.operand2 k.risesCpsr
  | .sub => subOp cpu k.reg k.operand1 k.operand2 k.risesCpsr
  | .rsb => rsbOp cpu k.reg k.operand1 k.operand2 k.risesCpsr
  | .add => addOp cpu k.reg k.operand1 k.operand2 k.risesCpsr
  | .adc => adcOp cpu k.reg k.operand1 k.operand2 k.risesCpsr
  | .sbc => sbcOp cpu k.reg k.operand1 k.operand2 k.risesCpsr
  | .rsc => rscOp cpu k.reg k.operand1 k.operand2 k.risesCpsr
  | .tst => .ok (tstOp cpu k.reg k.operand1 k.operand2)
  | .teq => .ok (teqOp cpu k.reg k.operand1 k.operand2)
  | .cmp => .ok (cmpOp cpu k.reg k.operand1 k.operand2)
  | .cmn => .ok (cmnOp cpu k.reg k.operand1 k.operand2)
  | .orr => orrOp cpu k.reg k.operand1 k.operand2
  | .bic => bicOp cpu k.reg k.operand1 k.operand2
  | .mvn => mvnOp cpu k.reg k.operand2 k.risesCpsr

/-! ### What a call does -/

namespace AluOp

def stores : AluOp → Bool
  | tst | teq | cmp | cmn => false
  | _ => true

/-- The operation updates flags, given the S argument. -/
def updates (op : AluOp) (s : Bool) : Bool :=
  match op with
  | tst | teq | cmp | cmn => true
  | orr | bic | mvn => false
  | _ => s

/-- The result on operands `a` and `b`, with the C flag as the number `carry`. -/
def result (op : AluOp) (carry a b : Word) : Word :=
  match op with
  | mov => b
  | and | tst => a &&& b
  | eor | teq => a ^^^ b
  | sub | cmp => a - b
  | rsb => b - a
  | add | cmn => a + b
  | adc => a + (b + carry)
  | sbc => a - (b - carry)
  | rsc => b - (a + carry)
  | orr => a ||| b
  | bic => a &&& ~~~b
  | mvn => ~~~b

/-- The status word that an update leaves. -/
def flags (op : AluOp) (carry a b : Word) (cpsr : Cpsr) : Cpsr :=
  match op with
  | sub => subFlags a b (a - b) cpsr
  | rsb => subFlags b a (b - a) cpsr
  | add => addFlags a b cpsr
  | adc => addFlags a (b + carry) cpsr
  | sbc => subFlags a (b - carry) (a - (b - carry)) cpsr
  | rsc => subFlags b (a + carry) (b - (a + carry)) cpsr
  | _ => nzFlags (op.result carry a b) cpsr

theorem flags_reserved (op : AluOp) (carry a b : Word) (c : Cpsr) {i : ℕ} (hi : i < 28) :
    (op.flags carry a b c).bit i = c.bit i := by
  have h31 : i ≠ 31 := by omega
  have h30 : i ≠ 30 := by omega
  have h29 : i ≠ 29 := by omega
  have h28 : i ≠ 28 := by omega
  unfold flags
  cases op <;> simp only [bit_addFlags, bit_subFlags, bit_nzFlags, h31, h30, h29, h28, if_false]

theorem flags_nz (op : AluOp) (carry a b : Word) (c : Cpsr) :
    (op.flags carry a b c).bit 31 = (op.result carry a b).msb ∧
      (op.flags carry a b c).bit 30 = (op.result carry a b == 0#32) := by
  unfold flags
  cases op <;> simp [bit_addFlags, bit_subFlags, bit_nzFlags, result]

end AluOp

namespace AluCall

def result (cpu : CpuState) (k : AluCall) : Word :=
  k.op.result (carryIn cpu) k.operand1 k.operand2

def cpsrAfter (cpu : CpuState) (k : AluCall) : Cpsr :=
  if k.op.updates k.risesCpsr then k.op.flags (carryIn cpu) k.operand1 k.operand2 cpu.cpsr
  else cpu.cpsr

def after (cpu : CpuState) (k : AluCall) : CpuState :=
  { (if k.op.stores then cpu.setReg k.reg.toNat (k.result cpu) else cpu) with
    cpsr := k.cpsrAfter cpu }

theorem exec_eq_set (cpu : CpuState) (k : AluCall) (h : k.op.stores = true) : k.exec cpu =
    (cpuSetReg cpu k.reg.toNat (k.result cpu)).map fun c => { c with cpsr := k.cpsrAfter cpu } := by
  obtain ⟨op, reg, a, b, s⟩ := k
  have hstore : ∀ r u, storeOp cpu reg r s u = (cpuSetReg cpu reg.toNat r).map fun c =>
      { c with cpsr := if s then u cpu.cpsr else cpu.cpsr } := storeOp_eq_set cpu reg s
  have hset : ∀ r, cpuSetReg cpu reg.toNat r = (cpuSetReg cpu reg.toNat r).map fun c =>
      { c with cpsr := cpu.cpsr } := cpuSetReg_eq_set cpu reg.toNat
  cases op
  case add => exact (addOp_eq cpu reg a b s).trans (hstore _ _)
  case adc => exact (adcOp_eq cpu reg a b s).trans (hstore _ _)
  case tst => cases h
  case teq => cases h
  case cmp => cases h
  case cmn => cases h
  case orr => exact hset _
  case bic => exact hset _
  case mvn => exact hset _
  all_goals exact hstore _ _

theorem exec_eq_of_not_stores (cpu : CpuState) (k : AluCall) (h : k.op.stores = false) :
    k.exec cpu = .ok (k.after cpu) := by
  obtain ⟨op, reg, a, b, s⟩ := k
  cases op <;> first | rfl | cases h

/-- **The ALU.** A call with a destination register gives the state `after`. -/
theorem exec_eq (cpu : CpuState) (k : AluCall) (hreg : k.reg.toNat < 16) :
    k.exec cpu = .ok (k.after cpu) := by
  cases hs : k.op.stores
  · exact exec_eq_of_not_stores cpu k hs
  · rw [exec_eq_set cpu k hs, cpuSetReg_eq hreg, after, hs]
    rfl

theorem exec_of_ge (cpu : CpuState) (k : AluCall) (h : k.op.stores = true)
    (hreg : 16 ≤ k.reg.toNat) : k.exec cpu = .error .registerIndex := by
  rw [exec_eq_set cpu k h, cpuSetReg_of_ge hreg]
  rfl

theorem exec_cases {cpu cpu' : CpuState} {k : AluCall} (h : k.exec cpu = .ok cpu') :
    cpu' = k.after cpu ∧ (k.op.stores = true → k.reg.toNat < 16) := by
  rcases Nat.lt_or_ge k.reg.toNat 16 with hreg | hreg
  · exact ⟨Except.ok.inj (h.symm.trans (exec_eq cpu k hreg)), fun _ => hreg⟩
  · cases hs : k.op.stores
    · refine ⟨Except.ok.inj (h.symm.trans (exec_eq_of_not_stores cpu k hs)), fun hn => ?_⟩
      cases hn
    · have herr := exec_of_ge cpu k hs hreg
      rw [h] at herr
      cases herr

theorem exec_eq_ok_iff (cpu c : CpuState) (k : AluCall) : k.exec cpu = .ok c ↔
    (k.op.stores = true → k.reg.toNat < 16) ∧ k.after cpu = c := by
  constructor
  · intro h
    obtain ⟨hc, hreg⟩ := exec_cases h
    exact ⟨hreg, hc.symm⟩
  · rintro ⟨hreg, rfl⟩
    cases hs : k.op.stores
    · exact exec_eq_of_not_stores cpu k hs
    · exact exec_eq cpu k (hreg hs)

/-- Two calls that store to one register have the same effect when they store the same value
and leave the same status word. -/
theorem after_eq_iff (cpu : CpuState) {k k' : AluCall} (hs : k.op.stores = true)
    (hs' : k'.op.stores = true) (hk : k.reg = k'.reg) (hreg : k.reg.toNat < 16) :
    k.after cpu = k'.after cpu ↔
      k.result cpu = k'.result cpu ∧ k.cpsrAfter cpu = k'.cpsrAfter cpu := by
  unfold after
  rw [hs, hs', ← hk]
  constructor
  · intro h
    refine ⟨?_, congrArg CpuState.cpsr h⟩
    have hr := congrArg (fun c => CpuState.reg c k.reg.toNat) h
    simpa only [if_true, CpuState.reg_withCpsr, CpuState.reg_setReg_self hreg] using hr
  · rintro ⟨hr, hc⟩
    rw [hr, hc]

theorem reg_after (cpu : CpuState) (k : AluCall) (hreg : k.op.stores = true → k.reg.toNat < 16)
    (i : ℕ) : (k.after cpu).reg i =
      if k.op.stores = true ∧ i = k.reg.toNat then k.result cpu else cpu.reg i := by
  cases hs : k.op.stores
  · simp [after, hs]
  · rw [after, hs]
    simp [CpuState.reg_setReg (hreg hs)]

end AluCall

end SimpleArm
