/-
# Exactly the reachable memories

Which contents the write functions can give a memory, from any contents it has.
On a memory of less than `2^32` bytes these are all. On a larger one the bounds
assertions truncate the number of bytes, so that only as many bytes can be
written as are left modulo `2^32`. If these are fewer than four, though, the
difference that a word access is compared with wraps, and every byte with a
32-bit address can be written (`memory_reachable_iff`).
-/
import SimpleArm.Lib.Reach
import SimpleArm.MemoryWrites

namespace SimpleArm

open History

/-- The address past the last byte that can be written, in a memory of `n` bytes. -/
def writableEnd (n : BitVec 64) : ℕ :=
  if 2 ^ 32 ≤ n.toNat ∧ n.toNat % 2 ^ 32 < 4 then 2 ^ 32 else n.toNat % 2 ^ 32

theorem asserts_eq_ok_iff {m : ProgramMemory} {addr : Word} {n : Width} :
    asserts m addr n = .ok () ↔ (n.size ≤ m.byteCount.toNat ∧
      addr.toNat ≤ (2 ^ 32 - n.size + m.byteCount.toNat % 2 ^ 32) % 2 ^ 32) ∧
        addr.toNat % n.size = 0 := by
  have hsize : n.sizeBytes.toNat = n.size := by cases n <;> rfl
  have hbounds : memInBounds m addr n.sizeBytes = true ↔ n.size ≤ m.byteCount.toNat ∧
      addr.toNat ≤ (2 ^ 32 - n.size + m.byteCount.toNat % 2 ^ 32) % 2 ^ 32 := by
    have hwide : n.size % 2 ^ 64 = n.size := by cases n <;> rfl
    simp only [memInBounds, Bool.and_eq_true, decide_eq_true_eq, BitVec.le_def, BitVec.toNat_sub,
      BitVec.toNat_setWidth, hsize, hwide]
  rw [← hbounds, ← and_sizeMask]
  unfold asserts
  cases memInBounds m addr n.sizeBytes
  · simp
  · cases ha : addr &&& (n.sizeBytes - 1#32) == 0#32
    · simp [beq_eq_false_iff_ne.mp ha]
    · simp [beq_iff_eq.mp ha]

/-- What passes its assertions is below it. -/
theorem asserts_below {m : ProgramMemory} {addr : Word} {n : Width}
    (h : asserts m addr n = .ok ()) : addr.toNat + n.size ≤ writableEnd m.byteCount := by
  have haddr := addr.isLt
  obtain ⟨⟨hfit, hle⟩, halign⟩ := asserts_eq_ok_iff.mp h
  unfold writableEnd
  cases n <;> simp only [Width.size] at * <;> split_ifs <;> omega

/-- The write that copies the byte at `a` from `bytes`, alone or with its word. -/
def copyWrite (n : BitVec 64) (bytes : ℕ → Byte) (a : ℕ) : MemWrite :=
  if 2 ^ 32 ≤ n.toNat ∧ n.toNat % 2 ^ 32 < 4 then
    .write32 (BitVec.ofNat 32 (a - a % 4)) (BitVec.ofNat 32 (littleEndian bytes (a - a % 4) 4))
  else .write8 (BitVec.ofNat 32 a) ((bytes a).setWidth 32)

theorem littleEndian_byte (bytes : ℕ → Byte) (a : ℕ) {k : ℕ} (hk : k < 4) :
    BitVec.ofNat 8 ((BitVec.ofNat 32 (littleEndian bytes a 4)).toNat / 2 ^ (8 * k)) =
      bytes (a + k) := by
  have hvalue : littleEndian bytes a 4 = (bytes (a + 0)).toNat + 2 ^ 8 * ((bytes (a + 1)).toNat +
      2 ^ 8 * ((bytes (a + 2)).toNat + 2 ^ 8 * (bytes (a + 3)).toNat)) := by
    show Limbs.value [bytes (a + 0), bytes (a + 1), bytes (a + 2), bytes (a + 3)] = _
    simp only [Limbs.value_cons, Limbs.value_nil, Nat.mul_zero, Nat.add_zero]
  have h0 := (bytes (a + 0)).isLt
  have h1 := (bytes (a + 1)).isLt
  have h2 := (bytes (a + 2)).isLt
  have h3 := (bytes (a + 3)).isLt
  refine BitVec.eq_of_toNat_eq ?_
  rw [BitVec.toNat_ofNat, BitVec.toNat_ofNat, hvalue]
  interval_cases k <;> omega

section CopyWrite

variable {n : BitVec 64} {a : ℕ} (ha : a < writableEnd n) (bytes : ℕ → Byte)

include ha

theorem writable_lt : a < 2 ^ 32 := by
  unfold writableEnd at ha
  split_ifs at ha <;> omega

theorem copyWrite_passes : (copyWrite n bytes a).PassesOn n := by
  intro m hm
  have hlt := writable_lt ha
  unfold writableEnd at ha
  unfold copyWrite
  rw [asserts_eq_ok_iff, hm]
  split_ifs at ha ⊢ with hlarge
  · show (4 ≤ _ ∧ (BitVec.ofNat 32 (a - a % 4)).toNat ≤ (2 ^ 32 - 4 + _) % _) ∧
      (BitVec.ofNat 32 (a - a % 4)).toNat % 4 = 0
    rw [BitVec.toNat_ofNat]
    omega
  · show (1 ≤ _ ∧ (BitVec.ofNat 32 a).toNat ≤ (2 ^ 32 - 1 + _) % _) ∧
      (BitVec.ofNat 32 a).toNat % 1 = 0
    rw [BitVec.toNat_ofNat]
    omega

theorem copyWrite_covers : a ∈ (copyWrite n bytes a).cells.map Prod.fst := by
  have hlt := writable_lt ha
  unfold copyWrite MemWrite.cells
  rw [List.map_map, List.mem_map]
  split_ifs
  · refine ⟨a % 4, List.mem_range.mpr (Nat.mod_lt a (by decide)), ?_⟩
    show (BitVec.ofNat 32 (a - a % 4)).toNat + a % 4 = a
    rw [BitVec.toNat_ofNat]
    omega
  · refine ⟨0, List.mem_range.mpr Nat.one_pos, ?_⟩
    show (BitVec.ofNat 32 a).toNat + 0 = a
    rw [BitVec.toNat_ofNat]
    omega

theorem copyWrite_cells : ∀ c ∈ (copyWrite n bytes a).cells, c.2 = bytes c.1 := by
  intro c hc
  have hlt := writable_lt ha
  unfold copyWrite at hc
  split_ifs at hc
  · obtain ⟨k, hk, rfl⟩ := List.mem_map.mp hc
    have hbase : (BitVec.ofNat 32 (a - a % 4)).toNat = a - a % 4 := by
      rw [BitVec.toNat_ofNat]
      omega
    refine (littleEndian_byte bytes (a - a % 4) (List.mem_range.mp hk)).trans ?_
    show bytes (a - a % 4 + k) = bytes ((BitVec.ofNat 32 (a - a % 4)).toNat + k)
    rw [hbase]
  · obtain ⟨k, hk, rfl⟩ := List.mem_map.mp hc
    obtain rfl : k = 0 := Nat.lt_one_iff.mp (List.mem_range.mp hk)
    have hbase : (BitVec.ofNat 32 a).toNat = a := by
      rw [BitVec.toNat_ofNat]
      omega
    have hbyte : BitVec.ofNat 8 (((bytes a).setWidth 32).toNat / 2 ^ (8 * 0)) = bytes a := by
      have hlt8 := (bytes a).isLt
      refine BitVec.eq_of_toNat_eq ?_
      simp only [BitVec.toNat_ofNat, BitVec.toNat_setWidth]
      omega
    refine hbyte.trans ?_
    show bytes a = bytes ((BitVec.ofNat 32 a).toNat + 0)
    rw [hbase, Nat.add_zero]

end CopyWrite

/-- **The reachable memories.** Runs of writes of any widths lead from a memory to exactly the
memories of as many bytes that hold the same from `writableEnd` on. -/
theorem memory_reachable_iff (m m' : ProgramMemory) :
    Run.Reachable MemWrite.apply (fun _ => True) m m' ↔
      m'.byteCount = m.byteCount ∧ ∀ a, writableEnd m.byteCount ≤ a → m'.byte a = m.byte a := by
  constructor
  · intro h
    refine h.bound (P := fun u => u.byteCount = m.byteCount ∧
      ∀ a, writableEnd m.byteCount ≤ a → u.byte a = m.byte a) ?_ ⟨rfl, fun _ _ => rfl⟩
    intro u w v _ hu hw
    obtain ⟨hasserts, href⟩ := MemWrite.apply_eq_ok_iff.mp hw
    refine ⟨href.byteCount.trans hu.1, fun a ha => ?_⟩
    have hend := asserts_below hasserts
    rw [hu.1] at hend
    have hcovers : ¬ w.Covers a := fun hc => Nat.not_lt.mpr (hend.trans ha) hc.2
    rw [href.byte, MemWrite.replay_cells, if_neg hcovers, hu.2 a ha]
  · rintro ⟨hcount, hbyte⟩
    have hmem : ∀ w ∈ (List.range (writableEnd m.byteCount)).map (copyWrite m.byteCount m'.byte),
        ∃ a, a < writableEnd m.byteCount ∧ copyWrite m.byteCount m'.byte a = w := by
      intro w hw
      obtain ⟨a, ha, rfl⟩ := List.mem_map.mp hw
      exact ⟨a, List.mem_range.mp ha, rfl⟩
    refine ⟨(List.range (writableEnd m.byteCount)).map (copyWrite m.byteCount m'.byte),
      fun _ _ => trivial, (writes_eq_ok_iff rfl).mpr ⟨fun w hw => ?_, hcount, ?_⟩⟩
    · obtain ⟨a, ha, rfl⟩ := hmem w hw
      exact copyWrite_passes ha _
    · have hagree : ∀ c ∈ history ((List.range (writableEnd m.byteCount)).map
          (copyWrite m.byteCount m'.byte)), c.2 = m'.byte c.1 := by
        intro c hc
        obtain ⟨w, hw, hcw⟩ := List.mem_flatMap.mp hc
        obtain ⟨a, ha, rfl⟩ := hmem w hw
        exact copyWrite_cells ha _ c hcw
      funext a
      rw [replay_of_agree hagree]
      split_ifs with hin
      · rfl
      · refine hbyte a (Nat.le_of_not_lt fun ha => hin ?_)
        obtain ⟨c, hc, rfl⟩ := List.mem_map.mp (copyWrite_covers ha m'.byte)
        refine List.mem_map.mpr ⟨c, List.mem_flatMap.mpr ⟨_, List.mem_map.mpr ?_, hc⟩, rfl⟩
        exact ⟨_, List.mem_range.mpr ha, rfl⟩

end SimpleArm
