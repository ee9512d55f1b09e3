/-
# The machine types, and how a call ends

The widths of `memory.h`, the status and fault codes of `faults/codes.h` and
`executor/executor.h`, and the assertions the functions make. A call either
returns or stops at an assertion, so a function that asserts something
returns `Except Abort`; `Abort` says which assertion it was. A pointer
argument becomes a value (a state passed in and returned), so the assertions
that a pointer is not null have no counterpart.
-/
import SimpleArm.Lib.Run

namespace SimpleArm

abbrev Byte := BitVec 8

abbrev Halfword := BitVec 16

abbrev Word := BitVec 32

/-- The places at which a call stops. -/
inductive Abort
  /-- `index < REGISTER_COUNT` in `cpu_get_reg` and `cpu_set_reg` -/
  | registerIndex
  /-- the default of `cond_passed`'s switch -/
  | unexpectedCondition
  /-- the default of `data_proc_op`'s switch -/
  | unknownOpcode
  /-- `bx_op`: the operand is R15 -/
  | pcOperand
  /-- `bx_op`: the target has bit 0 set -/
  | thumbTarget
  /-- `mem_in_bounds` in the memory accesses -/
  | memoryBounds
  /-- the alignment of a memory access -/
  | memoryAlignment
  /-- no assertion: an array is indexed outside its bounds, which C leaves undefined -/
  | undefinedAccess
deriving DecidableEq, Repr

def require (p : Bool) (a : Abort) : Except Abort Unit := if p then .ok () else .error a

@[simp] theorem require_true (a : Abort) : require true a = .ok () := rfl

@[simp] theorem require_false (a : Abort) : require false a = .error a := rfl

/-! ### Codes -/

/-- `ReturnStatus` of `faults/codes.h`. -/
inductive ReturnStatus
  | ok
  | fault
  | error
  | halt
deriving DecidableEq, Repr

/-- `ErrorCode` of `executor/executor.h`. -/
inductive ErrorCode
  | errorNone
  | errorUnknownOpcode
  | errorInvalidRegisterIndex
  | warningPcUsedAsOperand
deriving DecidableEq, Repr

/-- What a `fault_out` pointer points at. Enumerators of several enumerations
are stored there, so it is the number and not an enumerator. -/
abbrev FaultOut := ℤ

def ErrorCode.value : ErrorCode → FaultOut
  | .errorNone => 0
  | .errorUnknownOpcode => -1
  | .errorInvalidRegisterIndex => -2
  | .warningPcUsedAsOperand => -999

end SimpleArm
