/-
# The bounds check of the memory accesses

`mem_in_bounds` compares the size in 64 bits and the address with a difference
that is truncated to 32 bits, which can wrap. On a memory of less than `2^32`
bytes it is exact all the same, for every size (`memInBounds_iff`). On a larger
one it may accept an address whose last bytes would wrap, and it is the
alignment that rules these out (`memInBounds_sound`). So every call whose
assertions pass stays in the buffer, whatever the memory (`accesses_in_buffer`).
-/
import SimpleArm.MemoryMap

namespace SimpleArm

/-- The addresses of the bytes of an access, taken in 32 bits, do not wrap and are in the
buffer. -/
def InBuffer (m : ProgramMemory) (addr : Word) (n : Width) : Prop :=
  ∀ k, k < n.size → (addr + BitVec.ofNat 32 k).toNat = addr.toNat + k ∧
    (addr + BitVec.ofNat 32 k).toNat < m.byteCount.toNat

/-- A call does not stop at its assertions. -/
def Passes {α : Type} (call : Except Abort α) : Prop := ∀ e, StopsAtAssertion e → call ≠ .error e

/-- A call that starts with the assertions of an access passes only if the access does. -/
theorem inBuffer_of_passes {α : Type} {m : ProgramMemory} {addr : Word} {n : Width}
    {call : Except Abort α} {rest : Unit → Except Abort α}
    (hcall : call = asserts m addr n >>= rest) (hpass : Passes call) : InBuffer m addr n := by
  rcases asserts_cases m addr n with ⟨e, he, h⟩ | ⟨-, hcount, hwrap⟩
  · refine absurd ?_ (hpass e he)
    rw [hcall, h]
    rfl
  · intro k hk
    have haddr := toNat_addr_add hwrap hk
    refine ⟨haddr, ?_⟩
    omega

theorem passes_of_map {α β : Type} {call : Except Abort α} {g : α → β}
    (h : Passes (call.map g)) : Passes call := by
  rintro e he rfl
  exact h e he rfl

theorem MemRead.inBuffer (r : MemRead) {m : ProgramMemory} (h : Passes (r.apply m)) :
    InBuffer m r.addr r.width := by
  cases r with
  | read8 addr => exact inBuffer_of_passes (memRead8_eq_asserts m addr) (passes_of_map h)
  | read16 addr => exact inBuffer_of_passes (memRead16_eq_asserts m addr) (passes_of_map h)
  | read32 addr => exact inBuffer_of_passes (memRead32_eq_asserts m addr) (passes_of_map h)

theorem MemWrite.inBuffer (w : MemWrite) {m : ProgramMemory} (h : Passes (w.apply m)) :
    InBuffer m w.addr w.width :=
  inBuffer_of_passes (w.apply_eq m) h

/-- **The bounds check.** A read or a write of any width whose assertions pass touches only
bytes of the buffer, for every memory; and on a memory of less than `2^32` bytes the check
accepts exactly the accesses that fit, for every size. -/
theorem accesses_in_buffer (m : ProgramMemory) :
    (∀ r : MemRead, Passes (r.apply m) → InBuffer m r.addr r.width) ∧
      (∀ w : MemWrite, Passes (w.apply m) → InBuffer m w.addr w.width) ∧
      (m.byteCount.toNat < 2 ^ 32 → ∀ addr size : Word,
        memInBounds m addr size = true ↔ addr.toNat + size.toNat ≤ m.byteCount.toNat) :=
  ⟨fun r => r.inBuffer, fun w => w.inBuffer, memInBounds_iff⟩

/-- The last word and the last byte of four bytes, and a size past the end. -/
theorem accesses_in_buffer_fourBytes :
    InBuffer fourBytes 0#32 .word ∧ InBuffer fourBytes 3#32 .byte ∧
      (memInBounds fourBytes 0xFFFFFFFF#32 5#32 = true ↔ 0xFFFFFFFF + 5 ≤ 4) := by
  obtain ⟨hread, hwrite, hexact⟩ := accesses_in_buffer fourBytes
  refine ⟨hread (.read32 0#32) ?_, hwrite (.write8 3#32 7#32) ?_, ?_⟩
  · rintro e (rfl | rfl) <;> decide
  · rintro e (rfl | rfl) <;> decide
  · exact hexact (by decide) 0xFFFFFFFF#32 5#32

end SimpleArm
