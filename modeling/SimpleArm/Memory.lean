/-
# Memory

`memory.h`. The buffer behind `bytes` has the `byte_count` bytes that the
struct says it has, which is the invariant `ProgramMemory` carries. Addresses
are words, and `addr + 1` wraps as it does in C. An access outside the
buffer is `Abort.undefinedAccess`: that the bounds assertions rule it out is
a theorem, not part of the model.
-/
import SimpleArm.Basic

namespace SimpleArm

/-- `ProgramMemory`: the bytes, and the `size_t` that counts them. -/
structure ProgramMemory where
  bytes : Array Byte
  byteCount : BitVec 64
  size_eq : bytes.size = byteCount.toNat
deriving DecidableEq

def byteSizeBytes : Word := 1#32
def halfwordSizeBytes : Word := 2#32
def wordSizeBytes : Word := 4#32
def halfwordAlignMask : Word := halfwordSizeBytes - 1#32
def wordAlignMask : Word := wordSizeBytes - 1#32

def memorySize : ℕ := 1024

def constructMemory : ProgramMemory :=
  ⟨Array.replicate memorySize 0#8, BitVec.ofNat 64 memorySize, by simp [memorySize]⟩

/-- The size is compared in 64 bits, the address with a difference taken in 32. -/
def memInBounds (m : ProgramMemory) (addr sizeBytes : Word) : Bool :=
  decide (sizeBytes.setWidth 64 ≤ m.byteCount) &&
    decide (addr ≤ m.byteCount.setWidth 32 - sizeBytes)

/-- `m->bytes[index]`. -/
def loadByte (m : ProgramMemory) (index : Word) : Except Abort Byte :=
  match m.bytes[index.toNat]? with
  | some b => .ok b
  | none => .error .undefinedAccess

/-- `m->bytes[index] = b`. -/
def storeByte (m : ProgramMemory) (index : Word) (b : Byte) : Except Abort ProgramMemory :=
  if h : index.toNat < m.bytes.size then
    .ok ⟨m.bytes.set index.toNat b, m.byteCount, by simpa using m.size_eq⟩
  else .error .undefinedAccess

/-! ### Reads -/

def memRead8 (m : ProgramMemory) (addr : Word) : Except Abort Byte := do
  require (memInBounds m addr byteSizeBytes) .memoryBounds
  loadByte m addr

def memRead16 (m : ProgramMemory) (addr : Word) : Except Abort Halfword := do
  require (memInBounds m addr halfwordSizeBytes) .memoryBounds
  require (addr &&& halfwordAlignMask == 0#32) .memoryAlignment
  let b0 ← loadByte m (addr + 0#32)
  let b1 ← loadByte m (addr + 1#32)
  return b0.setWidth 16 ||| (b1.setWidth 16 <<< 8)

def memRead32 (m : ProgramMemory) (addr : Word) : Except Abort Word := do
  require (memInBounds m addr wordSizeBytes) .memoryBounds
  require (addr &&& wordAlignMask == 0#32) .memoryAlignment
  let b0 ← loadByte m (addr + 0#32)
  let b1 ← loadByte m (addr + 1#32)
  let b2 ← loadByte m (addr + 2#32)
  let b3 ← loadByte m (addr + 3#32)
  return b0.setWidth 32 ||| (b1.setWidth 32 <<< 8) ||| (b2.setWidth 32 <<< 16) |||
    (b3.setWidth 32 <<< 24)

/-! ### Writes -/

def memWrite8 (m : ProgramMemory) (addr value : Word) : Except Abort ProgramMemory := do
  require (memInBounds m addr byteSizeBytes) .memoryBounds
  storeByte m (addr + 0#32) (((value >>> 0) &&& 0xFF#32).setWidth 8)

/-- The value is promoted to `int` before it is shifted, which its sign bit does not reach. -/
def memWrite16 (m : ProgramMemory) (addr : Word) (value : Halfword) :
    Except Abort ProgramMemory := do
  require (memInBounds m addr halfwordSizeBytes) .memoryBounds
  require (addr &&& halfwordAlignMask == 0#32) .memoryAlignment
  let m ← storeByte m (addr + 0#32) (((value >>> 0) &&& 0xFF#16).setWidth 8)
  storeByte m (addr + 1#32) (((value >>> 8) &&& 0xFF#16).setWidth 8)

def memWrite32 (m : ProgramMemory) (addr value : Word) : Except Abort ProgramMemory := do
  require (memInBounds m addr wordSizeBytes) .memoryBounds
  require (addr &&& wordAlignMask == 0#32) .memoryAlignment
  let m ← storeByte m (addr + 0#32) (((value >>> 0) &&& 0xFF#32).setWidth 8)
  let m ← storeByte m (addr + 1#32) (((value >>> 8) &&& 0xFF#32).setWidth 8)
  let m ← storeByte m (addr + 2#32) (((value >>> 16) &&& 0xFF#32).setWidth 8)
  storeByte m (addr + 3#32) (((value >>> 24) &&& 0xFF#32).setWidth 8)

end SimpleArm
