/-
# Memory is a map from addresses to bytes

The abstract memory is a function from addresses to bytes, and its history the
cells (address, byte) that the writes make, a write of a value `v` at `a`
putting byte `k` of `v` at `a + k` (`MemWrite.cells`). `memory.h` refines it:
one call replays its own cells (`MemWrite.apply_cases`), a run of calls of any
widths replays its history (`writes_cases`), and a read returns the
little-endian number of the bytes it covers (`MemRead.apply_cases`).

All of it rests on the assertions: one that passes keeps the access inside the
buffer and below `2^32` (`memInBounds_sound`), although the check truncates
`byte_count` to 32 bits.
-/
import SimpleArm.Lib.BitField
import SimpleArm.Lib.History
import SimpleArm.Lib.Limbs
import SimpleArm.Memory

namespace SimpleArm

open BitField History

/-! ### The assertions of an access -/

inductive Width
  | byte
  | halfword
  | word
deriving DecidableEq, Repr

def Width.size : Width → ℕ
  | byte => 1
  | halfword => 2
  | word => 4

/-- The size that the assertions are about. -/
def Width.sizeBytes (n : Width) : Word := BitVec.ofNat 32 n.size

/-- The assertions of an access. That of a byte's alignment, which the code leaves out,
always holds. -/
def asserts (m : ProgramMemory) (addr : Word) (n : Width) : Except Abort Unit := do
  require (memInBounds m addr n.sizeBytes) .memoryBounds
  require (addr &&& (n.sizeBytes - 1#32) == 0#32) .memoryAlignment

theorem and_sizeMask (n : Width) (addr : Word) :
    addr &&& (n.sizeBytes - 1#32) = 0#32 ↔ addr.toNat % n.size = 0 := by
  cases n
  · exact and_lowMask_eq_zero_iff (k := 0) (by decide) addr
  · exact and_lowMask_eq_zero_iff (k := 1) (by decide) addr
  · exact and_lowMask_eq_zero_iff (k := 2) (by decide) addr

theorem asserts_byte (m : ProgramMemory) (addr : Word) :
    asserts m addr .byte = require (memInBounds m addr byteSizeBytes) .memoryBounds := by
  have halign : (addr &&& (Width.byte.sizeBytes - 1#32) == 0#32) = true :=
    beq_iff_eq.mpr ((and_sizeMask .byte addr).mpr (Nat.mod_one _))
  rw [asserts, halign]
  exact bind_pure _

/-- **The assertions are sound.** An access that passes them lies in the buffer, and its
last address does not wrap. -/
theorem memInBounds_sound {m : ProgramMemory} {addr : Word} {n : Width}
    (hb : memInBounds m addr n.sizeBytes = true) (ha : addr &&& (n.sizeBytes - 1#32) = 0#32) :
    addr.toNat + n.size ≤ m.byteCount.toNat ∧ addr.toNat + n.size ≤ 2 ^ 32 := by
  have haddr := addr.isLt
  rw [and_sizeMask] at ha
  simp only [memInBounds, Bool.and_eq_true, decide_eq_true_eq, BitVec.le_def, BitVec.toNat_sub,
    BitVec.toNat_setWidth] at hb
  cases n <;> simp only [Width.sizeBytes, Width.size, BitVec.toNat_ofNat] at * <;> omega

/-- On a memory of less than `2^32` bytes the check is exact, for every size: nothing is
truncated, and the difference does not wrap when the size fits. -/
theorem memInBounds_iff {m : ProgramMemory} (hcount : m.byteCount.toNat < 2 ^ 32)
    (addr size : Word) :
    memInBounds m addr size = true ↔ addr.toNat + size.toNat ≤ m.byteCount.toNat := by
  have haddr := addr.isLt
  have hsize := size.isLt
  simp only [memInBounds, Bool.and_eq_true, decide_eq_true_eq, BitVec.le_def, BitVec.toNat_sub,
    BitVec.toNat_setWidth]
  omega

/-- The errors of an assertion of the memory accesses. -/
def StopsAtAssertion (e : Abort) : Prop := e = .memoryBounds ∨ e = .memoryAlignment

theorem asserts_cases (m : ProgramMemory) (addr : Word) (n : Width) :
    (∃ e, StopsAtAssertion e ∧ asserts m addr n = .error e) ∨
      (asserts m addr n = .ok () ∧ addr.toNat + n.size ≤ m.byteCount.toNat ∧
        addr.toNat + n.size ≤ 2 ^ 32) := by
  unfold asserts
  cases hb : memInBounds m addr n.sizeBytes
  · exact Or.inl ⟨_, Or.inl rfl, rfl⟩
  · cases ha : addr &&& (n.sizeBytes - 1#32) == 0#32
    · exact Or.inl ⟨_, Or.inr rfl, rfl⟩
    · exact Or.inr ⟨rfl, memInBounds_sound hb (beq_iff_eq.mp ha)⟩

theorem asserts_sound {m : ProgramMemory} {addr : Word} {n : Width}
    (h : asserts m addr n = .ok ()) :
    addr.toNat + n.size ≤ m.byteCount.toNat ∧ addr.toNat + n.size ≤ 2 ^ 32 := by
  rcases asserts_cases m addr n with ⟨e, -, he⟩ | ⟨-, hsound⟩
  · rw [h] at he
    cases he
  · exact hsound

/-- On a memory of less than `2^32` bytes an aligned access passes exactly when it fits, and
stops at the bounds assertion otherwise. -/
theorem asserts_of_aligned {m : ProgramMemory} (hcount : m.byteCount.toNat < 2 ^ 32) {addr : Word}
    {n : Width} (ha : addr.toNat % n.size = 0) : asserts m addr n =
      if addr.toNat + n.size ≤ m.byteCount.toNat then .ok () else .error .memoryBounds := by
  have hsize : n.sizeBytes.toNat = n.size := by
    cases n <;> rfl
  have hb := memInBounds_iff hcount addr n.sizeBytes
  have hmask : (addr &&& (n.sizeBytes - 1#32) == 0#32) = true :=
    beq_iff_eq.mpr ((and_sizeMask n addr).mpr ha)
  rw [hsize] at hb
  unfold asserts
  rw [hmask]
  split_ifs with hfit
  · rw [hb.mpr hfit]
    rfl
  · rw [Bool.eq_false_iff.mpr fun h => hfit (hb.mp h)]
    rfl

/-! ### Bytes -/

namespace ProgramMemory

/-- The byte map of a memory; 0 from `byte_count` on. -/
def byte (m : ProgramMemory) (a : ℕ) : Byte := (m.bytes[a]?).getD 0#8

/-- The memory has `n` bytes and the byte map `bytes`. -/
structure Refines (m : ProgramMemory) (n : BitVec 64) (bytes : ℕ → Byte) : Prop where
  byteCount : m.byteCount = n
  byte : m.byte = bytes

end ProgramMemory

theorem loadByte_eq {m : ProgramMemory} {i : Word} (hi : i.toNat < m.byteCount.toNat) :
    loadByte m i = .ok (m.byte i.toNat) := by
  have hi' : i.toNat < m.bytes.size := m.size_eq ▸ hi
  simp [loadByte, ProgramMemory.byte, hi']

theorem storeByte_eq {m : ProgramMemory} {i : Word} (hi : i.toNat < m.byteCount.toNat) (b : Byte) :
    ∃ m', storeByte m i b = .ok m' ∧
      m'.Refines m.byteCount (Function.update m.byte i.toNat b) := by
  have hi' : i.toNat < m.bytes.size := m.size_eq ▸ hi
  refine ⟨⟨m.bytes.set i.toNat b, m.byteCount, by simpa using m.size_eq⟩, dif_pos hi', rfl, ?_⟩
  refine funext fun a => ?_
  by_cases ha : a = i.toNat
  · subst ha
    simp [ProgramMemory.byte, hi']
  · simp [ProgramMemory.byte, Function.update_of_ne ha, Array.getElem?_set_ne hi' (Ne.symm ha)]

theorem storeBytes_eq : ∀ (cs : List (Word × Byte)) (m : ProgramMemory),
    (∀ c ∈ cs, c.1.toNat < m.byteCount.toNat) → ∃ m',
      Run.run (fun m c => storeByte m c.1 c.2) m cs = .ok m' ∧
        m'.Refines m.byteCount (replay m.byte (cs.map fun c => (c.1.toNat, c.2)))
  | [], m, _ => ⟨m, rfl, rfl, rfl⟩
  | c :: cs, m, h => by
    obtain ⟨m1, h1, hn1, hb1⟩ := storeByte_eq (h c List.mem_cons_self) c.2
    obtain ⟨m2, h2, hn2, hb2⟩ := storeBytes_eq cs m1 fun d hd =>
      hn1 ▸ h d (List.mem_cons_of_mem _ hd)
    refine ⟨m2, ?_, hn2.trans hn1, ?_⟩
    · rw [Run.run_cons, h1, Run.ok_bind, h2]
    · rw [hb2, hb1, List.map_cons, replay_cons]

/-! ### Writes -/

/-- A call of a write function. -/
inductive MemWrite
  | write8 (addr value : Word)
  | write16 (addr : Word) (value : Halfword)
  | write32 (addr value : Word)
deriving DecidableEq, Repr

namespace MemWrite

def apply (m : ProgramMemory) : MemWrite → Except Abort ProgramMemory
  | write8 addr value => memWrite8 m addr value
  | write16 addr value => memWrite16 m addr value
  | write32 addr value => memWrite32 m addr value

def width : MemWrite → Width
  | write8 .. => .byte
  | write16 .. => .halfword
  | write32 .. => .word

def addr : MemWrite → Word
  | write8 addr _ | write16 addr _ | write32 addr _ => addr

def value : MemWrite → ℕ
  | write8 _ value | write32 _ value => value.toNat
  | write16 _ value => value.toNat

def valueByte (w : MemWrite) (k : ℕ) : Byte := BitVec.ofNat 8 (w.value / 2 ^ (8 * k))

/-- The cells that a write makes: byte `k` of its value at its address plus `k`. -/
def cells (w : MemWrite) : List (ℕ × Byte) :=
  (List.range w.width.size).map fun k => (w.addr.toNat + k, w.valueByte k)

/-- The stores of a call, at 32-bit addresses. -/
def stores (w : MemWrite) : List (Word × Byte) :=
  (List.range w.width.size).map fun k => (w.addr + BitVec.ofNat 32 k, w.valueByte k)

end MemWrite

theorem shift_mask_byte {w : ℕ} (hw : 8 ≤ w) (v : BitVec w) (s : ℕ) :
    ((v >>> s) &&& BitVec.ofNat w 0xFF).setWidth 8 = BitVec.ofNat 8 (v.toNat / 2 ^ s) := by
  refine BitVec.eq_of_toNat_eq ?_
  have h := toNat_and_lowMask hw (v >>> s)
  rw [lowMask] at h
  rw [BitVec.toNat_setWidth, show 0xFF = 2 ^ 8 - 1 from rfl, h, BitVec.toNat_ushiftRight,
    Nat.shiftRight_eq_div_pow, BitVec.toNat_ofNat, Nat.mod_mod]

/-- A call is its assertions and its stores. -/
theorem MemWrite.apply_eq (w : MemWrite) (m : ProgramMemory) : w.apply m =
    asserts m w.addr w.width >>= fun _ => Run.run (fun m c => storeByte m c.1 c.2) m w.stores := by
  have h32 := shift_mask_byte (w := 32) (by decide)
  have h16 := shift_mask_byte (w := 16) (by decide)
  cases w with
  | write8 addr value =>
    have hst : (write8 addr value).stores =
        [(addr + 0#32, ((value >>> 0) &&& 0xFF#32).setWidth 8)] := by
      rw [h32 value 0]
      rfl
    rw [hst]
    rw [Run.run_singleton]
    exact congrArg (fun a => a >>= fun _ => _) (asserts_byte m addr).symm
  | write16 addr value =>
    have hst : (write16 addr value).stores =
        [(addr + 0#32, ((value >>> 0) &&& 0xFF#16).setWidth 8),
          (addr + 1#32, ((value >>> 8) &&& 0xFF#16).setWidth 8)] := by
      rw [h16 value 0, h16 value 8]
      rfl
    rw [hst]
    simp only [apply, memWrite16, asserts, bind_assoc, Run.run_cons_cons, Run.run_singleton]
    rfl
  | write32 addr value =>
    have hst : (write32 addr value).stores =
        [(addr + 0#32, ((value >>> 0) &&& 0xFF#32).setWidth 8),
          (addr + 1#32, ((value >>> 8) &&& 0xFF#32).setWidth 8),
          (addr + 2#32, ((value >>> 16) &&& 0xFF#32).setWidth 8),
          (addr + 3#32, ((value >>> 24) &&& 0xFF#32).setWidth 8)] := by
      rw [h32 value 0, h32 value 8, h32 value 16, h32 value 24]
      rfl
    rw [hst]
    simp only [apply, memWrite32, asserts, bind_assoc, Run.run_cons_cons, Run.run_singleton]
    rfl

theorem toNat_addr_add {addr : Word} {n k : ℕ} (h : addr.toNat + n ≤ 2 ^ 32) (hk : k < n) :
    (addr + BitVec.ofNat 32 k).toNat = addr.toNat + k := by
  rw [BitVec.toNat_add, BitVec.toNat_ofNat]
  omega

theorem MemWrite.apply_of_asserts {w : MemWrite} {m : ProgramMemory}
    (h : asserts m w.addr w.width = .ok ()) :
    ∃ m', w.apply m = .ok m' ∧ m'.Refines m.byteCount (replay m.byte w.cells) := by
  obtain ⟨hcount, hwrap⟩ := asserts_sound h
  have haddr : ∀ k, k < w.width.size → (w.addr + BitVec.ofNat 32 k).toNat = w.addr.toNat + k :=
    fun k hk => toNat_addr_add hwrap hk
  have hin : ∀ c ∈ w.stores, c.1.toNat < m.byteCount.toNat := by
    intro c hc
    obtain ⟨k, hk, rfl⟩ := List.mem_map.mp hc
    have hlt := List.mem_range.mp hk
    rw [haddr k hlt]
    omega
  have hcells : w.stores.map (fun c => (c.1.toNat, c.2)) = w.cells := by
    rw [stores, cells, List.map_map]
    exact List.map_congr_left fun k hk => by
      rw [Function.comp_apply, haddr k (List.mem_range.mp hk)]
  rw [w.apply_eq, h, Run.ok_bind, ← hcells]
  exact storeBytes_eq w.stores m hin

theorem MemWrite.apply_of_asserts_error {w : MemWrite} {m : ProgramMemory} {e : Abort}
    (h : asserts m w.addr w.width = .error e) : w.apply m = .error e := by
  rw [w.apply_eq, h]
  rfl

/-- A call stops at an assertion, or replays its cells on the byte map. -/
theorem MemWrite.apply_cases (w : MemWrite) (m : ProgramMemory) :
    (∃ e, StopsAtAssertion e ∧ w.apply m = .error e) ∨
      ∃ m', w.apply m = .ok m' ∧ m'.Refines m.byteCount (replay m.byte w.cells) := by
  rcases asserts_cases m w.addr w.width with ⟨e, he, h⟩ | ⟨h, -⟩
  · exact Or.inl ⟨e, he, apply_of_asserts_error h⟩
  · exact Or.inr (apply_of_asserts h)

/-- The cells of a list of writes, in order. -/
def history (ws : List MemWrite) : List (ℕ × Byte) := ws.flatMap MemWrite.cells

/-- A run stops at an assertion, or replays its history on the byte map. -/
theorem writes_cases (ws : List MemWrite) (m : ProgramMemory) :
    (∃ e, StopsAtAssertion e ∧ Run.run MemWrite.apply m ws = .error e) ∨
      ∃ m', Run.run MemWrite.apply m ws = .ok m' ∧
        m'.Refines m.byteCount (replay m.byte (history ws)) := by
  rw [history, replay_flatMap]
  refine Run.run_simulates (R := fun m' bytes => m'.Refines m.byteCount bytes) ?_ ws m _ ⟨rfl, rfl⟩
  rintro m1 bytes w ⟨hn, rfl⟩
  rw [← hn]
  exact w.apply_cases m1

/-! ### Reads -/

/-- The number of the `n` bytes from `a` on, lowest first. -/
def littleEndian (bytes : ℕ → Byte) (a n : ℕ) : ℕ :=
  Limbs.value ((List.range n).map fun k => bytes (a + k))

theorem loadByte_addr_add {m : ProgramMemory} {addr : Word} {n : ℕ}
    (hcount : addr.toNat + n ≤ m.byteCount.toNat) (hwrap : addr.toNat + n ≤ 2 ^ 32) {k : ℕ}
    (hk : k < n) : loadByte m (addr + BitVec.ofNat 32 k) = .ok (m.byte (addr.toNat + k)) := by
  have haddr := toNat_addr_add hwrap hk
  rw [loadByte_eq (by omega), haddr]

theorem memRead8_eq_asserts (m : ProgramMemory) (addr : Word) :
    memRead8 m addr = asserts m addr .byte >>= fun _ => loadByte m (addr + 0#32) := by
  rw [asserts_byte, BitVec.add_zero]
  rfl

theorem memRead16_eq_asserts (m : ProgramMemory) (addr : Word) :
    memRead16 m addr = asserts m addr .halfword >>= fun _ => do
      let b0 ← loadByte m (addr + 0#32)
      let b1 ← loadByte m (addr + 1#32)
      return b0.setWidth 16 ||| (b1.setWidth 16 <<< 8) := by
  simp only [memRead16, asserts, bind_assoc]
  rfl

theorem memRead32_eq_asserts (m : ProgramMemory) (addr : Word) :
    memRead32 m addr = asserts m addr .word >>= fun _ => do
      let b0 ← loadByte m (addr + 0#32)
      let b1 ← loadByte m (addr + 1#32)
      let b2 ← loadByte m (addr + 2#32)
      let b3 ← loadByte m (addr + 3#32)
      return b0.setWidth 32 ||| (b1.setWidth 32 <<< 8) ||| (b2.setWidth 32 <<< 16) |||
        (b3.setWidth 32 <<< 24) := by
  simp only [memRead32, asserts, bind_assoc]
  rfl

theorem toNat_halfword (b0 b1 : Byte) :
    (b0.setWidth 16 ||| (b1.setWidth 16 <<< 8)).toNat = Limbs.value [b0, b1] := by
  have h0 : (b0.setWidth 16).toNat = b0.toNat := BitVec.toNat_setWidth_of_le (by decide)
  obtain ⟨h1, -⟩ := toNat_or_shiftLeft (b0.setWidth 16) b1 (s := 8) (h0 ▸ b0.isLt) (by decide)
  rw [h1, h0]
  simp

theorem toNat_word (b0 b1 b2 b3 : Byte) :
    (b0.setWidth 32 ||| (b1.setWidth 32 <<< 8) ||| (b2.setWidth 32 <<< 16) |||
      (b3.setWidth 32 <<< 24)).toNat = Limbs.value [b0, b1, b2, b3] := by
  have h0 : (b0.setWidth 32).toNat = b0.toNat := BitVec.toNat_setWidth_of_le (by decide)
  obtain ⟨h1, l1⟩ := toNat_or_shiftLeft (b0.setWidth 32) b1 (s := 8) (h0 ▸ b0.isLt) (by decide)
  obtain ⟨h2, l2⟩ := toNat_or_shiftLeft _ b2 (s := 16) (h1 ▸ l1) (by decide)
  obtain ⟨h3, -⟩ := toNat_or_shiftLeft _ b3 (s := 24) (h2 ▸ l2) (by decide)
  rw [h3, h2, h1, h0]
  simp only [Limbs.value_cons, Limbs.value_nil]
  omega

/-- A call of a read function. -/
inductive MemRead
  | read8 (addr : Word)
  | read16 (addr : Word)
  | read32 (addr : Word)
deriving DecidableEq, Repr

namespace MemRead

/-- The call, and the number it returns. -/
def apply (m : ProgramMemory) : MemRead → Except Abort ℕ
  | read8 addr => (memRead8 m addr).map BitVec.toNat
  | read16 addr => (memRead16 m addr).map BitVec.toNat
  | read32 addr => (memRead32 m addr).map BitVec.toNat

def width : MemRead → Width
  | read8 _ => .byte
  | read16 _ => .halfword
  | read32 _ => .word

def addr : MemRead → Word
  | read8 addr | read16 addr | read32 addr => addr

end MemRead

theorem MemRead.apply_of_asserts {r : MemRead} {m : ProgramMemory}
    (h : asserts m r.addr r.width = .ok ()) :
    r.apply m = .ok (littleEndian m.byte r.addr.toNat r.width.size) := by
  obtain ⟨hcount, hwrap⟩ := asserts_sound h
  have hload : ∀ k, k < r.width.size → loadByte m (r.addr + BitVec.ofNat 32 k) =
      .ok (m.byte (r.addr.toNat + k)) := fun k hk => loadByte_addr_add hcount hwrap hk
  cases r with
  | read8 addr =>
    have hok : asserts m addr .byte = .ok () := h
    have h0 : loadByte m (addr + 0#32) = .ok (m.byte (addr.toNat + 0)) := hload 0 Nat.one_pos
    rw [MemRead.apply, memRead8_eq_asserts, hok, Run.ok_bind, h0]
    simp [MemRead.addr, MemRead.width, littleEndian, Width.size, Except.map]
  | read16 addr =>
    have hok : asserts m addr .halfword = .ok () := h
    have h0 : loadByte m (addr + 0#32) = .ok (m.byte (addr.toNat + 0)) := hload 0 Nat.two_pos
    have h1 : loadByte m (addr + 1#32) = .ok (m.byte (addr.toNat + 1)) := hload 1 Nat.one_lt_two
    rw [MemRead.apply, memRead16_eq_asserts, hok, Run.ok_bind, h0, h1]
    exact congrArg Except.ok (toNat_halfword _ _)
  | read32 addr =>
    have hok : asserts m addr .word = .ok () := h
    have hb : ∀ k, k < 4 → loadByte m (addr + BitVec.ofNat 32 k) = .ok (m.byte (addr.toNat + k)) :=
      hload
    rw [MemRead.apply, memRead32_eq_asserts, hok, Run.ok_bind, hb 0 (by decide), hb 1 (by decide),
      hb 2 (by decide), hb 3 (by decide)]
    exact congrArg Except.ok (toNat_word _ _ _ _)

theorem MemRead.apply_of_asserts_error {r : MemRead} {m : ProgramMemory} {e : Abort}
    (h : asserts m r.addr r.width = .error e) : r.apply m = .error e := by
  cases r with
  | read8 addr =>
    have herr : asserts m addr .byte = .error e := h
    rw [MemRead.apply, memRead8_eq_asserts, herr]
    rfl
  | read16 addr =>
    have herr : asserts m addr .halfword = .error e := h
    rw [MemRead.apply, memRead16_eq_asserts, herr]
    rfl
  | read32 addr =>
    have herr : asserts m addr .word = .error e := h
    rw [MemRead.apply, memRead32_eq_asserts, herr]
    rfl

/-- A call stops at an assertion, or returns the number of the bytes it covers. -/
theorem MemRead.apply_cases (r : MemRead) (m : ProgramMemory) :
    (∃ e, StopsAtAssertion e ∧ r.apply m = .error e) ∨
      r.apply m = .ok (littleEndian m.byte r.addr.toNat r.width.size) := by
  rcases asserts_cases m r.addr r.width with ⟨e, he, h⟩ | ⟨h, -⟩
  · exact Or.inl ⟨e, he, apply_of_asserts_error h⟩
  · exact Or.inr (apply_of_asserts h)

/-! ### The refinement -/

/-- The addresses that a write covers. -/
def MemWrite.Covers (w : MemWrite) (a : ℕ) : Prop :=
  w.addr.toNat ≤ a ∧ a < w.addr.toNat + w.width.size

/-- What the writes `ws` make of the memory `m`: reads see the last byte written to each
address, or the initial one, and uncovered bytes are the initial ones. -/
structure AfterWrites (m : ProgramMemory) (ws : List MemWrite) (m' : ProgramMemory) : Prop where
  byteCount : m'.byteCount = m.byteCount
  read : ∀ r : MemRead, (∀ e, StopsAtAssertion e → r.apply m' ≠ .error e) →
    r.apply m' = .ok (littleEndian (fun a => (lastWrite (history ws) a).getD (m.byte a))
      r.addr.toNat r.width.size)
  frame : ∀ a, (∀ w ∈ ws, ¬ w.Covers a) → m'.byte a = m.byte a

theorem lastWrite_history_eq_none {ws : List MemWrite} {a : ℕ} (h : ∀ w ∈ ws, ¬ w.Covers a) :
    lastWrite (history ws) a = none := by
  rw [lastWrite_eq_none_iff]
  rintro c hc rfl
  obtain ⟨w, hw, hcw⟩ := List.mem_flatMap.mp hc
  obtain ⟨k, hk, rfl⟩ := List.mem_map.mp hcw
  have hlt := List.mem_range.mp hk
  refine h w hw ⟨?_, ?_⟩
  · exact Nat.le_add_right _ _
  · exact Nat.add_lt_add_left hlt _

theorem asserts_of_fits {m : ProgramMemory} (hcount : m.byteCount.toNat < 2 ^ 32) {addr : Word}
    {n : Width} (ha : addr.toNat % n.size = 0) (hfit : addr.toNat + n.size ≤ m.byteCount.toNat) :
    asserts m addr n = .ok () := by
  rw [asserts_of_aligned hcount ha, if_pos hfit]

/-- **Aligned accesses return.** On a memory of less than `2^32` bytes, writes that are aligned
and in bounds all return, and an aligned read in bounds returns the number of the bytes last
written to the addresses that it covers. -/
theorem aligned_accesses_return (m : ProgramMemory) (hcount : m.byteCount.toNat < 2 ^ 32)
    (ws : List MemWrite) (hws : ∀ w ∈ ws, w.addr.toNat % w.width.size = 0 ∧
      w.addr.toNat + w.width.size ≤ m.byteCount.toNat) :
    ∃ m', Run.run MemWrite.apply m ws = .ok m' ∧ ∀ r : MemRead,
      r.addr.toNat % r.width.size = 0 → r.addr.toNat + r.width.size ≤ m.byteCount.toNat →
        r.apply m' = .ok (littleEndian (fun a => (lastWrite (history ws) a).getD (m.byte a))
          r.addr.toNat r.width.size) := by
  have hreturns : ∀ (m' : ProgramMemory) (w : MemWrite), m'.byteCount = m.byteCount →
      w.addr.toNat % w.width.size = 0 ∧ w.addr.toNat + w.width.size ≤ m.byteCount.toNat →
      ∃ m'', w.apply m' = .ok m'' ∧ m''.byteCount = m.byteCount := by
    rintro m' w hm' ⟨ha, hfit⟩
    rw [← hm'] at hcount hfit
    obtain ⟨m'', hok, href⟩ := MemWrite.apply_of_asserts (asserts_of_fits hcount ha hfit)
    exact ⟨m'', hok, href.byteCount.trans hm'⟩
  rcases writes_cases ws m with ⟨e, -, herr⟩ | ⟨m', hrun, hn, hbyte⟩
  · exfalso
    refine Run.run_error (P := fun m' => m'.byteCount = m.byteCount) (E := fun _ => False)
      (fun m1 w m2 hw h1 hok => ?_) (fun m1 w e hw h1 herr => ?_) ws m e hws rfl herr
    · obtain ⟨m'', hok', hcount'⟩ := hreturns m1 w h1 hw
      rw [hok] at hok'
      rw [Except.ok.inj hok', hcount']
    · obtain ⟨m'', hok', -⟩ := hreturns m1 w h1 hw
      rw [herr] at hok'
      cases hok'
  · refine ⟨m', hrun, fun r ha hfit => ?_⟩
    rw [← hn] at hcount hfit
    have hlast := funext (replay_apply m.byte (history ws))
    rw [MemRead.apply_of_asserts (asserts_of_fits hcount ha hfit), hbyte, hlast]

/-- **Memory is a byte map.** Writes of any widths whose assertions pass return, and later
reads whose assertions pass see the byte last written to each address they cover. -/
theorem memory_afterWrites (m : ProgramMemory) (ws : List MemWrite)
    (hpass : ∀ e, StopsAtAssertion e → Run.run MemWrite.apply m ws ≠ .error e) :
    ∃ m', Run.run MemWrite.apply m ws = .ok m' ∧ AfterWrites m ws m' := by
  rcases writes_cases ws m with ⟨e, he, h⟩ | ⟨m', h, hcount, hbyte⟩
  · exact absurd h (hpass e he)
  · have hmap : m'.byte = fun a => (lastWrite (history ws) a).getD (m.byte a) := by
      rw [hbyte]
      exact funext fun a => replay_apply m.byte (history ws) a
    refine ⟨m', h, hcount, fun r hr => ?_, fun a ha => ?_⟩
    · rw [← hmap]
      rcases r.apply_cases m' with ⟨e, he, hre⟩ | hok
      · exact absurd hre (hr e he)
      · exact hok
    · simp only [hmap, lastWrite_history_eq_none ha, Option.getD_none]

def fourBytes : ProgramMemory := ⟨#[1#8, 2#8, 3#8, 4#8], 4#64, rfl⟩

/-- A halfword and a byte written into a word. -/
def mixedWrites : List MemWrite :=
  [.write32 0#32 0xAABBCCDD#32, .write16 2#32 0x1234#16, .write8 3#32 0x156#32]

/-- The word reads as `0x5634CCDD`, and its upper half as `0x5634`. -/
theorem memory_afterWrites_word_byte : ∃ m', Run.run MemWrite.apply fourBytes mixedWrites = .ok m' ∧
    (MemRead.read32 0#32).apply m' = .ok 0x5634CCDD ∧
    (MemRead.read16 2#32).apply m' = .ok 0x5634 := by
  obtain ⟨m', hrun, hafter⟩ := memory_afterWrites fourBytes mixedWrites (by
    rintro e (rfl | rfl)
    · decide
    · decide)
  obtain rfl : ⟨#[0xDD#8, 0xCC#8, 0x34#8, 0x56#8], 4#64, rfl⟩ = m' := Except.ok.inj hrun
  refine ⟨_, hrun, ?_, ?_⟩
  · exact hafter.read (.read32 0#32) (by rintro e (rfl | rfl) <;> decide)
  · exact hafter.read (.read16 2#32) (by rintro e (rfl | rfl) <;> decide)

end SimpleArm
