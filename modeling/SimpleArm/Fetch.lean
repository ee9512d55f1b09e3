/-
# Instruction fetch

`fetch` of `main.c`. It reads the fields `words` and `word_count`, which
`ProgramMemory` does not have: they are taken as the little-endian words of
its bytes, and as many as fit. `fetch` divides the address and compares it
with the number of words, where `mem_read32` subtracts the size of the access
from the number of bytes; on memories of less than `2^32` bytes both accept
the same addresses and read the same word (`fetch_agrees`).
-/
import SimpleArm.MemoryMap

namespace SimpleArm

open BitField

/-- The places at which `main` stops: its own assertion, or one of a function it calls. -/
inductive MainAbort
  /-- `*fault_out == FAULT_NONE` in `fetch` -/
  | faultPending
  | call (a : Abort)
deriving DecidableEq, Repr

/-- `FAULT_ALIGNMENT`, the first enumerator of `FaultCodeFetch`. -/
def faultAlignment : FaultOut := 0

/-- `FAULT_OUT_OF_BOUNDS`, the first enumerator of `FaultCodeExecute`. -/
def faultOutOfBounds : FaultOut := 0

def ProgramMemory.wordCount (m : ProgramMemory) : BitVec 64 := m.byteCount / 4#64

def loadWord (m : ProgramMemory) (index : Word) : Except MainAbort Word :=
  if 4 * index.toNat + 4 ≤ m.bytes.size then
    .ok (BitVec.ofNat 32 (littleEndian m.byte (4 * index.toNat) 4))
  else .error (.call .undefinedAccess)

inductive FetchExit
  | faultAlignment
  | faultOutOfBounds
  | word (value : Word)
deriving DecidableEq, Repr

namespace FetchExit

/-- The word that `fetch` returns, 0 with a fault. -/
def value : FetchExit → Word
  | word value => value
  | _ => 0#32

/-- What `fetch` leaves in `*fault_out`. -/
def faultOut (before : FaultOut) : FetchExit → FaultOut
  | faultAlignment => SimpleArm.faultAlignment
  | faultOutOfBounds => SimpleArm.faultOutOfBounds
  | word _ => before

def faults : FetchExit → Bool
  | word _ => false
  | _ => true

end FetchExit

/-- `FAULT_NONE` is not defined in the repository. -/
def fetch (faultNone : FaultOut) (mem : ProgramMemory) (pc : Word) (faultOut : FaultOut) :
    Except MainAbort FetchExit := do
  if faultOut != faultNone then throw .faultPending
  if (pc &&& 3#32) != 0#32 then return .faultAlignment
  let index := pc >>> 2
  if mem.wordCount ≤ index.setWidth 64 then return .faultOutOfBounds
  let value ← loadWord mem index
  return .word value

/-! ### What `fetch` does -/

def fetchExit (mem : ProgramMemory) (pc : Word) : FetchExit :=
  if pc.toNat % 4 ≠ 0 then .faultAlignment
  else if mem.byteCount.toNat < pc.toNat + 4 then .faultOutOfBounds
  else .word (BitVec.ofNat 32 (littleEndian mem.byte pc.toNat 4))

theorem and_three_eq_zero_iff (pc : Word) : pc &&& 3#32 = 0#32 ↔ pc.toNat % 4 = 0 :=
  and_lowMask_eq_zero_iff (k := 2) (by decide) pc

theorem wordCount_le_iff (m : ProgramMemory) {pc : Word} (hpc : pc.toNat % 4 = 0) :
    m.wordCount ≤ (pc >>> 2).setWidth 64 ↔ m.byteCount.toNat < pc.toNat + 4 := by
  have hlt := pc.isLt
  have hindex : ((pc >>> 2).setWidth 64).toNat = pc.toNat / 4 := by
    rw [BitVec.toNat_setWidth, BitVec.toNat_ushiftRight, Nat.shiftRight_eq_div_pow]
    omega
  have hcount : m.wordCount.toNat = m.byteCount.toNat / 4 := BitVec.toNat_udiv
  rw [BitVec.le_def, hindex, hcount]
  omega

/-- A fetch with no fault pending leaves by `fetchExit`, and reads no word outside the memory. -/
theorem fetch_eq (faultNone : FaultOut) (mem : ProgramMemory) (pc : Word) :
    fetch faultNone mem pc faultNone = .ok (fetchExit mem pc) := by
  unfold fetch fetchExit
  rw [bne_self_eq_false]
  by_cases halign : pc.toNat % 4 = 0
  · have hmask : ((pc &&& 3#32) != 0#32) = false := by
      rw [(and_three_eq_zero_iff pc).mpr halign]
      rfl
    rw [hmask, if_neg (not_not.mpr halign)]
    by_cases hcount : mem.byteCount.toNat < pc.toNat + 4
    · rw [if_pos hcount]
      simp only [Bool.false_eq_true, if_false, (wordCount_le_iff mem halign).mpr hcount, if_true]
      rfl
    · have hle : ¬ mem.wordCount ≤ (pc >>> 2).setWidth 64 :=
        fun h => hcount ((wordCount_le_iff mem halign).mp h)
      have hindex : 4 * (pc >>> 2).toNat = pc.toNat := by
        rw [BitVec.toNat_ushiftRight, Nat.shiftRight_eq_div_pow]
        omega
      have hload : loadWord mem (pc >>> 2) =
          .ok (BitVec.ofNat 32 (littleEndian mem.byte pc.toNat 4)) := by
        rw [loadWord, hindex, if_pos]
        rw [mem.size_eq]
        omega
      rw [if_neg hcount]
      simp only [Bool.false_eq_true, if_false, hle, hload]
      rfl
  · have hmask : ((pc &&& 3#32) != 0#32) = true :=
      bne_iff_ne.mpr fun h => halign ((and_three_eq_zero_iff pc).mp h)
    rw [hmask, if_pos halign]
    rfl

/-! ### Fetches and data reads -/

theorem memInBounds_word_iff {m : ProgramMemory} (hcount : m.byteCount.toNat < 2 ^ 32)
    (pc : Word) : memInBounds m pc wordSizeBytes = true ↔ pc.toNat + 4 ≤ m.byteCount.toNat :=
  memInBounds_iff hcount pc wordSizeBytes

theorem memRead32_eq {m : ProgramMemory} {pc : Word} (hcount : m.byteCount.toNat < 2 ^ 32)
    (halign : pc.toNat % 4 = 0) (hfit : pc.toNat + 4 ≤ m.byteCount.toNat) :
    memRead32 m pc = .ok (BitVec.ofNat 32 (littleEndian m.byte pc.toNat 4)) := by
  have hasserts : asserts m pc .word = .ok () := asserts_of_fits hcount halign hfit
  obtain ⟨v, hv, hval⟩ := Run.map_eq_ok.mp (MemRead.apply_of_asserts (r := .read32 pc) hasserts)
  have hvalue : v.toNat = littleEndian m.byte pc.toNat 4 := hval
  rw [hv, ← hvalue, BitVec.ofNat_toNat, BitVec.setWidth_eq]

/-- What a fetch and a data read of the same address have in common. -/
structure AgreesWithRead (m : ProgramMemory) (pc : Word) (exit : FetchExit) : Prop where
  success : (∃ v, exit = .word v) ↔
    memInBounds m pc wordSizeBytes = true ∧ pc &&& wordAlignMask = 0#32
  value : ∀ v, exit = .word v → memRead32 m pc = .ok v
  alignment : exit = .faultAlignment ↔ pc.toNat % 4 ≠ 0
  outOfBounds : exit = .faultOutOfBounds ↔ pc.toNat % 4 = 0 ∧ m.byteCount.toNat < pc.toNat + 4

/-- **Fetches agree with data reads.** On a memory of less than `2^32` bytes a fetch succeeds
exactly where the assertions of `mem_read32` pass, and gives the same word. -/
theorem fetch_agrees (faultNone : FaultOut) (m : ProgramMemory) (pc : Word)
    (hcount : m.byteCount.toNat < 2 ^ 32) :
    ∃ exit, fetch faultNone m pc faultNone = .ok exit ∧ AgreesWithRead m pc exit := by
  refine ⟨_, fetch_eq faultNone m pc, ?_⟩
  have hb := memInBounds_word_iff hcount pc
  have ha : pc &&& wordAlignMask = 0#32 ↔ pc.toNat % 4 = 0 := and_three_eq_zero_iff pc
  unfold fetchExit
  split_ifs with halign hlt
  · constructor <;> simp [ha, halign]
  · rw [not_not] at halign
    constructor <;> simp [hb, halign, hlt]
  · rw [not_not] at halign
    have hle : pc.toNat + 4 ≤ m.byteCount.toNat := Nat.le_of_not_lt hlt
    have hread := memRead32_eq hcount halign hle
    constructor <;> simp [hb, ha, halign, hlt, hle, hread]

/-- The last, partial word of a memory of six bytes. -/
theorem fetch_agrees_partial_word :
    ∃ exit, fetch 1 ⟨Array.replicate 6 7#8, 6#64, by simp⟩ 4#32 1 = .ok exit ∧
      AgreesWithRead ⟨Array.replicate 6 7#8, 6#64, by simp⟩ 4#32 exit :=
  fetch_agrees 1 ⟨Array.replicate 6 7#8, 6#64, by simp⟩ 4#32 (by decide)

end SimpleArm
