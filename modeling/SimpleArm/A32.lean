/-
# What the instructions are for: the A32 conditions

The abstract side of the conditional instructions, in the terms of the
encoding's documentation and not of the code: the four flags, and which of
the sixteen values of the condition field holds of them. `Cpsr.flags` is the
projection of a status word.
-/
import SimpleArm.Cond

namespace SimpleArm

/-- The condition flags. -/
structure Flags where
  n : Bool
  z : Bool
  c : Bool
  v : Bool
deriving DecidableEq, Repr

/-- The flags of a status word: its bits 31 to 28. -/
def Cpsr.flags (cpsr : Cpsr) : Flags := ⟨cpsr.bit 31, cpsr.bit 30, cpsr.bit 29, cpsr.bit 28⟩

/-- The A32 condition of a condition field. The value 15 is not a condition. -/
def Flags.holds (f : Flags) (cond : BitVec 4) : Bool :=
  match cond with
  | 0b0000#4 => f.z
  | 0b0001#4 => !f.z
  | 0b0010#4 => f.c
  | 0b0011#4 => !f.c
  | 0b0100#4 => f.n
  | 0b0101#4 => !f.n
  | 0b0110#4 => f.v
  | 0b0111#4 => !f.v
  | 0b1000#4 => f.c && !f.z
  | 0b1001#4 => !f.c || f.z
  | 0b1010#4 => f.n == f.v
  | 0b1011#4 => f.n != f.v
  | 0b1100#4 => !f.z && f.n == f.v
  | 0b1101#4 => f.z || f.n != f.v
  | _ => true

/-- The field value of an enumerator: its place in the enumeration. -/
def CondCode.encoding (c : CondCode) : BitVec 4 := BitVec.ofNat 4 (CondCode.cases.idxOf c)

/-- The switch of `cond_passed` is the A32 condition of its enumerator. -/
theorem condSwitch_eq_holds (c : CondCode) (cpsr : Cpsr) :
    condSwitch c cpsr = cpsr.flags.holds c.encoding := by
  simp only [condSwitch, cpsrGetNegative_eq, cpsrGetZero_eq, cpsrGetCarry_eq, cpsrGetOverflow_eq]
  cases c <;> rfl

end SimpleArm
