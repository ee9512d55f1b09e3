/-
# Condition codes

`instructions/cond.h`. The enumerators are numbered in hexadecimal, so `CS` is
16 and `AL` is 4368. A `CondCode` object holds whatever number was stored in
it, so the model's `cond` fields are words, and `CondCode.ofValue` finds the
enumerator of a word as the switch of `cond_passed` does.
-/
import SimpleArm.Cpu

namespace SimpleArm

inductive CondCode
  | eq | ne | cs | cc | mi | pl | vs | vc | hi | ls | ge | lt | gt | le | al
deriving DecidableEq, Repr

namespace CondCode

def value : CondCode → Word
  | eq => 0x0000#32
  | ne => 0x0001#32
  | cs => 0x0010#32
  | cc => 0x0011#32
  | mi => 0x0100#32
  | pl => 0x0101#32
  | vs => 0x0110#32
  | vc => 0x0111#32
  | hi => 0x1000#32
  | ls => 0x1001#32
  | ge => 0x1010#32
  | lt => 0x1011#32
  | gt => 0x1100#32
  | le => 0x1101#32
  | al => 0x1110#32

/-- The cases of the switch, in order. -/
def cases : List CondCode := [eq, ne, cs, cc, mi, pl, vs, vc, hi, ls, ge, lt, gt, le, al]

/-- The case of the switch that a number takes. -/
def ofValue (v : Word) : Option CondCode := cases.find? fun c => c.value == v

theorem ofValue_value (c : CondCode) : ofValue c.value = some c := by
  cases c <;> rfl

end CondCode

/-- The switch of `cond_passed`, at an enumerator. -/
def condSwitch (cond : CondCode) (cpsr : Cpsr) : Bool :=
  let n := cpsrGetNegative cpsr
  let z := cpsrGetZero cpsr
  let c := cpsrGetCarry cpsr
  let v := cpsrGetOverflow cpsr
  let isGe := n == v
  match cond with
  | .eq => z
  | .ne => !z
  | .cs => c
  | .cc => !c
  | .mi => n
  | .pl => !n
  | .vs => v
  | .vc => !v
  | .hi => c && !z
  | .ls => !c || z
  | .ge => isGe
  | .lt => !isGe
  | .gt => !z && isGe
  | .le => z || !isGe
  | .al => true

def condPassed (cond : Word) (cpsr : Cpsr) : Except Abort Bool :=
  match CondCode.ofValue cond with
  | some c => .ok (condSwitch c cpsr)
  | none => .error .unexpectedCondition

theorem condPassed_value (c : CondCode) (cpsr : Cpsr) :
    condPassed c.value cpsr = .ok (condSwitch c cpsr) := by
  rw [condPassed, CondCode.ofValue_value]

end SimpleArm
