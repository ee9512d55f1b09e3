/-
# Programs of writes

What a write does depends on the number of bytes of the memory and is a
change of the byte map on the addresses it covers (`MemWrite.apply_eq_ok_iff`,
`MemWrite.replay_cells`), and a memory is its bytes (`ProgramMemory.eq_of_byte`).
So programs of writes are compared through their histories: two of them are
the same on all memories of a size exactly when they pass together and end
with the same bytes (`writes_equivalent_iff`), disjoint writes can be made in
any order (`writes_any_order`), and a wide access is the accesses of its
bytes, error and all (`accesses_bytewise`).
-/
import SimpleArm.Lib.Reorder
import SimpleArm.MemoryMap

namespace SimpleArm

open History

/-! ### Memories as byte maps -/

theorem ProgramMemory.eq_of_byte {m m' : ProgramMemory} (hcount : m.byteCount = m'.byteCount)
    (hbyte : m.byte = m'.byte) : m = m' := by
  obtain ⟨bytes, count, hsize⟩ := m
  obtain ⟨bytes', count', hsize'⟩ := m'
  obtain rfl : count = count' := hcount
  have hbytes : bytes = bytes' := by
    refine Array.ext (hsize.trans hsize'.symm) fun i hi hi' => ?_
    have h := congrFun hbyte i
    simpa [ProgramMemory.byte, hi, hi'] using h
  subst hbytes
  rfl

theorem ProgramMemory.Refines.eq {m m' : ProgramMemory} {n : BitVec 64} {bytes : ℕ → Byte}
    (h : m.Refines n bytes) (h' : m'.Refines n bytes) : m = m' :=
  ProgramMemory.eq_of_byte (h.byteCount.trans h'.byteCount.symm) (h.byte.trans h'.byte.symm)

/-- The assertions of an access depend on the number of bytes only. -/
theorem asserts_congr {m m' : ProgramMemory} (h : m'.byteCount = m.byteCount) (addr : Word)
    (n : Width) : asserts m' addr n = asserts m addr n := by
  unfold asserts memInBounds
  rw [h]

namespace MemWrite

/-! ### What a write does -/

variable {m m' : ProgramMemory} {w : MemWrite}

/-- **What a write does.** -/
theorem apply_eq_ok_iff : w.apply m = .ok m' ↔
    asserts m w.addr w.width = .ok () ∧ m'.Refines m.byteCount (replay m.byte w.cells) := by
  rcases h : asserts m w.addr w.width with e | u
  · rw [apply_of_asserts_error h]
    simp
  · obtain ⟨m1, hok, href⟩ := apply_of_asserts h
    rw [hok]
    constructor
    · intro heq
      rw [← Except.ok.inj heq]
      exact ⟨rfl, href⟩
    · rintro ⟨-, href'⟩
      rw [href.eq href']

theorem apply_byteCount (h : w.apply m = .ok m') : m'.byteCount = m.byteCount :=
  (apply_eq_ok_iff.mp h).2.byteCount

instance (w : MemWrite) (a : ℕ) : Decidable (w.Covers a) :=
  inferInstanceAs (Decidable (_ ∧ _))

theorem replay_cells (w : MemWrite) (bytes : ℕ → Byte) (a : ℕ) : replay bytes w.cells a =
    if w.Covers a then w.valueByte (a - w.addr.toNat) else bytes a :=
  replay_range bytes w.addr.toNat w.width.size w.valueByte a

/-- The write returns on every memory of `n` bytes. -/
def PassesOn (n : BitVec 64) (w : MemWrite) : Prop :=
  ∀ m : ProgramMemory, m.byteCount = n → asserts m w.addr w.width = .ok ()

theorem passesOn_iff {n : BitVec 64} (hm : m.byteCount = n) :
    w.PassesOn n ↔ asserts m w.addr w.width = .ok () := by
  constructor
  · intro h
    exact h m hm
  · intro h m' hm'
    rw [asserts_congr (hm'.trans hm.symm), h]

end MemWrite

/-! ### Programs of writes -/

/-- **What a run of writes does.** Every write passes, and the history is replayed. -/
theorem writes_eq_ok_iff {n : BitVec 64} : ∀ {ws : List MemWrite} {m m' : ProgramMemory},
    m.byteCount = n → (Run.run MemWrite.apply m ws = .ok m' ↔
      (∀ w ∈ ws, w.PassesOn n) ∧ m'.Refines n (replay m.byte (history ws)))
  | [], m, m', hm => by
    constructor
    · intro h
      obtain rfl : m = m' := Except.ok.inj h
      exact ⟨fun _ hw => absurd hw List.not_mem_nil, hm, rfl⟩
    · rintro ⟨-, href⟩
      rw [href.eq ⟨hm, rfl⟩]
      rfl
  | w :: ws, m, m', hm => by
    rw [Run.run_cons_eq_ok, List.forall_mem_cons, MemWrite.passesOn_iff hm, history,
      List.flatMap_cons, replay_append]
    constructor
    · rintro ⟨u, hu, hrun⟩
      obtain ⟨hw, href⟩ := MemWrite.apply_eq_ok_iff.mp hu
      obtain ⟨hws, href'⟩ := (writes_eq_ok_iff (href.byteCount.trans hm)).mp hrun
      rw [href.byte] at href'
      exact ⟨⟨hw, hws⟩, href'⟩
    · rintro ⟨⟨hw, hws⟩, href'⟩
      obtain ⟨u, hu, href⟩ := MemWrite.apply_of_asserts hw
      refine ⟨u, hu, (writes_eq_ok_iff (href.byteCount.trans hm)).mpr ⟨hws, ?_⟩⟩
      rw [href.byte]
      exact href'

theorem exists_writes {n : BitVec 64} : ∀ (ws : List MemWrite) {m : ProgramMemory},
    m.byteCount = n → (∀ w ∈ ws, w.PassesOn n) → ∃ m', Run.run MemWrite.apply m ws = .ok m'
  | [], m, _, _ => ⟨m, rfl⟩
  | w :: ws, m, hm, hpass => by
    obtain ⟨hw, hws⟩ := List.forall_mem_cons.mp hpass
    obtain ⟨u, hu, href⟩ := MemWrite.apply_of_asserts ((MemWrite.passesOn_iff hm).mp hw)
    obtain ⟨m', hm'⟩ := exists_writes ws (href.byteCount.trans hm) hws
    exact ⟨m', (Run.run_cons_eq_ok _).mpr ⟨u, hu, hm'⟩⟩

/-- The byte map after a run is read from its history. -/
theorem replay_history_congr {ws ws' : List MemWrite}
    (h : lastWrite (history ws) = lastWrite (history ws')) (bytes : ℕ → Byte) :
    replay bytes (history ws) = replay bytes (history ws') := by
  funext a
  rw [replay_apply, replay_apply, h]

/-! ### Equivalent programs -/

/-- The memory of `n` bytes that are all `b`. -/
def filled (n : BitVec 64) (b : Byte) : ProgramMemory := ⟨Array.replicate n.toNat b, n, by simp⟩

theorem filled_byteCount (n : BitVec 64) (b : Byte) : (filled n b).byteCount = n := rfl

theorem filled_byte {n : BitVec 64} {a : ℕ} (ha : a < n.toNat) (b : Byte) :
    (filled n b).byte a = b := by
  simp [filled, ProgramMemory.byte, ha]

theorem lastWrite_history_of_ge {n : BitVec 64} {ws : List MemWrite}
    (hpass : ∀ w ∈ ws, w.PassesOn n) {a : ℕ} (ha : n.toNat ≤ a) :
    lastWrite (history ws) a = none := by
  refine lastWrite_history_eq_none fun w hw hcovers => ?_
  have hok := hpass w hw (filled n 0#8) (filled_byteCount n 0#8)
  rcases asserts_cases (filled n 0#8) w.addr w.width with ⟨e, -, he⟩ | ⟨-, hfit, -⟩
  · rw [hok] at he
    cases he
  · have hend := hcovers.2
    have hn : (filled n 0#8).byteCount.toNat = n.toNat := rfl
    omega

/-- Different last writes are told apart by what was there before. -/
theorem exists_getD_ne {x y : Option Byte} (h : x ≠ y) : ∃ b, x.getD b ≠ y.getD b := by
  cases x with
  | none =>
    cases y with
    | none => exact absurd rfl h
    | some v => exact ⟨v + 1#8, by simp⟩
  | some u =>
    cases y with
    | none => exact ⟨u + 1#8, by simp⟩
    | some v => exact ⟨0#8, fun huv => h (congrArg some huv)⟩

/-- **Equivalent programs of writes.** Two programs of writes end alike on all memories of `n`
bytes exactly when they pass together and, if so, write the same byte last at each address. -/
theorem writes_equivalent_iff (n : BitVec 64) (ws ws' : List MemWrite) :
    (∀ m : ProgramMemory, m.byteCount = n →
      (Run.run MemWrite.apply m ws).toOption = (Run.run MemWrite.apply m ws').toOption) ↔
      ((∀ w ∈ ws, w.PassesOn n) ↔ ∀ w ∈ ws', w.PassesOn n) ∧
        ((∀ w ∈ ws, w.PassesOn n) → lastWrite (history ws) = lastWrite (history ws')) := by
  constructor
  · intro h
    have hiff : ∀ (b : Byte) (m' : ProgramMemory), ((∀ w ∈ ws, w.PassesOn n) ∧
        m'.Refines n (replay (filled n b).byte (history ws))) ↔ (∀ w ∈ ws', w.PassesOn n) ∧
          m'.Refines n (replay (filled n b).byte (history ws')) := by
      intro b m'
      rw [← writes_eq_ok_iff (filled_byteCount n b), ← writes_eq_ok_iff (filled_byteCount n b)]
      exact Run.toOption_eq_iff.mp (h (filled n b) rfl) m'
    have hleft : (∀ w ∈ ws, w.PassesOn n) → ∀ b, ∃ m', (∀ w ∈ ws, w.PassesOn n) ∧
        ProgramMemory.Refines m' n (replay (filled n b).byte (history ws)) := by
      intro hws b
      obtain ⟨m', hm'⟩ := exists_writes ws (filled_byteCount n b) hws
      exact ⟨m', (writes_eq_ok_iff (filled_byteCount n b)).mp hm'⟩
    have hpass : (∀ w ∈ ws, w.PassesOn n) ↔ ∀ w ∈ ws', w.PassesOn n := by
      constructor
      · intro hws
        obtain ⟨m', hm'⟩ := hleft hws 0#8
        exact ((hiff 0#8 m').mp hm').1
      · intro hws'
        obtain ⟨m', hm'⟩ := exists_writes ws' (filled_byteCount n 0#8) hws'
        exact ((hiff 0#8 m').mpr ((writes_eq_ok_iff (filled_byteCount n 0#8)).mp hm')).1
    refine ⟨hpass, fun hws => funext fun a => ?_⟩
    rcases Nat.lt_or_ge a n.toNat with ha | ha
    · by_contra hne
      obtain ⟨b, hb⟩ := exists_getD_ne hne
      obtain ⟨m', hm'⟩ := hleft hws b
      have hbyte := congrFun (hm'.2.byte.symm.trans ((hiff b m').mp hm').2.byte) a
      rw [replay_apply, replay_apply, filled_byte ha] at hbyte
      exact hb hbyte
    · rw [lastWrite_history_of_ge hws ha, lastWrite_history_of_ge (hpass.mp hws) ha]
  · rintro ⟨hpass, hlast⟩ m hm
    rw [Run.toOption_eq_iff]
    intro m'
    rw [writes_eq_ok_iff hm, writes_eq_ok_iff hm, ← hpass]
    refine and_congr_right fun hws => ?_
    rw [replay_history_congr (hlast hws)]

/-! ### The order of writes -/

/-- No address is covered by both writes. -/
def MemWrite.Disjoint (w w' : MemWrite) : Prop := ∀ a, ¬ (w.Covers a ∧ w'.Covers a)

theorem replay_cells_comm {w w' : MemWrite} (h : w.Disjoint w') (bytes : ℕ → Byte) :
    replay (replay bytes w.cells) w'.cells = replay (replay bytes w'.cells) w.cells := by
  funext a
  simp only [MemWrite.replay_cells]
  by_cases hw : w.Covers a
  · have hw' : ¬ w'.Covers a := fun hc => h a ⟨hw, hc⟩
    rw [if_neg hw', if_pos hw, if_pos hw]
  · rw [if_neg hw, if_neg hw]

theorem commute_of_disjoint {w w' : MemWrite} (h : w.Disjoint w') :
    Run.Commute MemWrite.apply w w' := by
  have hhistory : ∀ v v' : MemWrite, history [v, v'] = v.cells ++ v'.cells := by
    intro v v'
    simp [history]
  intro m
  rw [Run.toOption_eq_iff]
  intro m'
  rw [writes_eq_ok_iff rfl, writes_eq_ok_iff rfl, hhistory, hhistory, replay_append, replay_append,
    replay_cells_comm h]
  refine and_congr_left fun _ => ?_
  simp only [List.mem_cons, List.not_mem_nil, or_false, forall_eq_or_imp, forall_eq]
  exact and_comm

/-- **The order of disjoint writes.** Writes no two of which cover a common address leave the
same memory in every order, or fail in every order. -/
theorem writes_any_order {ws ws' : List MemWrite} (hperm : ws.Perm ws')
    (hdisjoint : ws.Pairwise MemWrite.Disjoint) (m : ProgramMemory) :
    (Run.run MemWrite.apply m ws).toOption = (Run.run MemWrite.apply m ws').toOption := by
  have hcomm : ws.Pairwise (Run.Commute MemWrite.apply) := hdisjoint.imp commute_of_disjoint
  exact Run.run_perm hperm hcomm m

/-- The two halves of a word, in both orders. -/
theorem writes_any_order_halves :
    (Run.run MemWrite.apply fourBytes [.write16 0#32 7#16, .write16 2#32 9#16]).toOption =
      (Run.run MemWrite.apply fourBytes [.write16 2#32 9#16, .write16 0#32 7#16]).toOption :=
  writes_any_order (List.Perm.swap _ _ _) (by
    refine List.pairwise_pair.mpr fun a ha => ?_
    have hlt : a < 0 + 2 := ha.1.2
    have hle : 2 ≤ a := ha.2.1
    omega) fourBytes

/-! ### Wide accesses and their bytes -/

/-- The writes of the bytes of a write, lowest first. -/
def MemWrite.bytes (w : MemWrite) : List MemWrite :=
  (List.range w.width.size).map fun k =>
    .write8 (w.addr + BitVec.ofNat 32 k) (BitVec.ofNat 32 (w.value / 2 ^ (8 * k)))

theorem addr_add_size_le {addr : Word} {n : Width} (ha : addr.toNat % n.size = 0) :
    addr.toNat + n.size ≤ 2 ^ 32 := by
  have hlt := addr.isLt
  cases n <;> simp only [Width.size] at * <;> omega

theorem valueByte_write8 (addr : Word) (v k : ℕ) :
    (MemWrite.write8 addr (BitVec.ofNat 32 (v / 2 ^ (8 * k)))).valueByte 0 =
      BitVec.ofNat 8 (v / 2 ^ (8 * k)) := by
  refine BitVec.eq_of_toNat_eq ?_
  simp only [MemWrite.valueByte, MemWrite.value, BitVec.toNat_ofNat, Nat.mul_zero, pow_zero,
    Nat.div_one]
  omega

theorem history_bytes {w : MemWrite} (ha : w.addr.toNat % w.width.size = 0) :
    history w.bytes = w.cells := by
  have hcell : ∀ k ∈ List.range w.width.size,
      (MemWrite.write8 (w.addr + BitVec.ofNat 32 k)
        (BitVec.ofNat 32 (w.value / 2 ^ (8 * k)))).cells =
        [(w.addr.toNat + k, w.valueByte k)] := by
    intro k hk
    have haddr := toNat_addr_add (addr_add_size_le ha) (List.mem_range.mp hk)
    show [((w.addr + BitVec.ofNat 32 k).toNat + 0, _)] = _
    rw [valueByte_write8, haddr]
    rfl
  unfold history MemWrite.bytes MemWrite.cells
  rw [List.flatMap_map, List.map_eq_flatMap]
  exact List.flatMap_congr hcell

section Bytes

variable {m : ProgramMemory} (hcount : m.byteCount.toNat < 2 ^ 32)

include hcount

theorem asserts_byte_of_count (addr : Word) : asserts m addr .byte =
    if addr.toNat < m.byteCount.toNat then .ok () else .error .memoryBounds :=
  asserts_of_aligned hcount (Nat.mod_one addr.toNat)

theorem write8_passesOn_iff (addr value : Word) :
    (MemWrite.write8 addr value).PassesOn m.byteCount ↔ addr.toNat < m.byteCount.toNat := by
  rw [MemWrite.passesOn_iff rfl]
  show asserts m addr .byte = .ok () ↔ _
  rw [asserts_byte_of_count hcount]
  split_ifs with h <;> simp [h]

/-- Byte writes stop at the bounds assertion, if they stop. -/
theorem bytes_error {w : MemWrite} {e : Abort} (h : Run.run MemWrite.apply m w.bytes = .error e) :
    e = .memoryBounds := by
  refine Run.run_error (P := fun m' => m'.byteCount = m.byteCount)
    (A := fun v => v.width = .byte) (E := fun e => e = .memoryBounds) ?_ ?_ w.bytes m e ?_ rfl h
  · intro m' v m'' _ hm' happly
    exact (MemWrite.apply_byteCount happly).trans hm'
  · intro m' v e hv hm' herr
    have hbyte := asserts_byte_of_count hcount v.addr
    rw [← hv, ← asserts_congr hm'] at hbyte
    split_ifs at hbyte
    · obtain ⟨m'', hok, -⟩ := MemWrite.apply_of_asserts hbyte
      rw [herr] at hok
      cases hok
    · rw [MemWrite.apply_of_asserts_error hbyte] at herr
      exact (Except.error.inj herr).symm
  · intro v hv
    obtain ⟨k, -, rfl⟩ := List.mem_map.mp hv
    rfl

theorem run_bytes {w : MemWrite} (ha : w.addr.toNat % w.width.size = 0) :
    Run.run MemWrite.apply m w.bytes = w.apply m := by
  have hsize : 0 < w.width.size := by
    cases w.width <;> decide
  have hpass : (∀ v ∈ w.bytes, v.PassesOn m.byteCount) ↔
      w.addr.toNat + w.width.size ≤ m.byteCount.toNat := by
    unfold MemWrite.bytes
    rw [List.forall_mem_map]
    constructor
    · intro h
      have hlast := (write8_passesOn_iff hcount _ _).mp
        (h (w.width.size - 1) (List.mem_range.mpr (Nat.sub_one_lt hsize.ne')))
      rw [toNat_addr_add (addr_add_size_le ha) (Nat.sub_one_lt hsize.ne')] at hlast
      omega
    · intro h k hk
      have hlt := List.mem_range.mp hk
      rw [write8_passesOn_iff hcount, toNat_addr_add (addr_add_size_le ha) hlt]
      omega
  have hasserts := asserts_of_aligned hcount ha
  split_ifs at hasserts with hfit
  · obtain ⟨m', hok, href⟩ := MemWrite.apply_of_asserts hasserts
    rw [hok, writes_eq_ok_iff rfl, history_bytes ha]
    exact ⟨hpass.mpr hfit, href⟩
  · rw [MemWrite.apply_of_asserts_error hasserts]
    cases hrun : Run.run MemWrite.apply m w.bytes with
    | error e => rw [bytes_error hcount hrun]
    | ok m' => exact absurd (hpass.mp ((writes_eq_ok_iff rfl).mp hrun).1) hfit

end Bytes

/-! ### Reads -/

/-- The bytes that a read covers, read one by one. -/
def MemRead.readBytes (m : ProgramMemory) (r : MemRead) : Except Abort (List Byte) :=
  (List.range r.width.size).mapM fun k => memRead8 m (r.addr + BitVec.ofNat 32 k)

theorem memRead8_of_count {m : ProgramMemory} (hcount : m.byteCount.toNat < 2 ^ 32) (addr : Word) :
    memRead8 m addr =
      if addr.toNat < m.byteCount.toNat then .ok (m.byte addr.toNat) else .error .memoryBounds := by
  rw [memRead8_eq_asserts, asserts_byte_of_count hcount, BitVec.add_zero]
  split_ifs with h
  · exact loadByte_eq h
  · rfl

theorem MemRead.apply_eq_readBytes {m : ProgramMemory} (hcount : m.byteCount.toNat < 2 ^ 32)
    {r : MemRead} (ha : r.addr.toNat % r.width.size = 0) :
    r.apply m = (r.readBytes m).map Limbs.value := by
  have hasserts := asserts_of_aligned hcount ha
  have hread : ∀ k, k < r.width.size → memRead8 m (r.addr + BitVec.ofNat 32 k) =
      if r.addr.toNat + k < m.byteCount.toNat then .ok (m.byte (r.addr.toNat + k))
      else .error .memoryBounds := by
    intro k hk
    rw [memRead8_of_count hcount, toNat_addr_add (addr_add_size_le ha) hk]
  unfold readBytes
  split_ifs at hasserts with hfit
  · have hall : ∀ k ∈ List.range r.width.size, memRead8 m (r.addr + BitVec.ofNat 32 k) =
        .ok (m.byte (r.addr.toNat + k)) := by
      intro k hk
      have hlt := List.mem_range.mp hk
      rw [hread k hlt, if_pos (by omega)]
    rw [apply_of_asserts hasserts, Run.mapM_eq_ok hall]
    rfl
  · have hsize : 0 < r.width.size := by
      cases r.width <;> decide
    have hlast : r.width.size - 1 ∈ List.range r.width.size :=
      List.mem_range.mpr (Nat.sub_one_lt hsize.ne')
    have hany : ∀ k ∈ List.range r.width.size,
        (∃ b, memRead8 m (r.addr + BitVec.ofNat 32 k) = .ok b) ∨
          memRead8 m (r.addr + BitVec.ofNat 32 k) = .error .memoryBounds := by
      intro k hk
      rw [hread k (List.mem_range.mp hk)]
      split_ifs
      · exact Or.inl ⟨_, rfl⟩
      · exact Or.inr rfl
    have herr : memRead8 m (r.addr + BitVec.ofNat 32 (r.width.size - 1)) =
        .error .memoryBounds := by
      rw [hread _ (List.mem_range.mp hlast), if_neg (by omega)]
    rw [apply_of_asserts_error hasserts, Run.mapM_eq_error hany ⟨_, hlast, herr⟩]
    rfl

/-- **Wide accesses and their bytes.** On a memory of less than `2^32` bytes every program of
aligned writes is the program of their byte writes, and every aligned read is the number of its
byte reads; where one stops at an assertion, so does the other, at the same one. -/
theorem accesses_bytewise (m : ProgramMemory) (hcount : m.byteCount.toNat < 2 ^ 32) :
    (∀ ws : List MemWrite, (∀ w ∈ ws, w.addr.toNat % w.width.size = 0) →
      Run.run MemWrite.apply m (ws.flatMap MemWrite.bytes) = Run.run MemWrite.apply m ws) ∧
      ∀ r : MemRead, r.addr.toNat % r.width.size = 0 →
        r.apply m = (r.readBytes m).map Limbs.value := by
  refine ⟨fun ws hws => ?_, fun r hr => MemRead.apply_eq_readBytes hcount hr⟩
  refine Run.run_flatMap MemWrite.apply (P := fun m' => m'.byteCount = m.byteCount)
    (A := fun w => w.addr.toNat % w.width.size = 0) ?_ ?_ ws m hws rfl
  · intro m' w m'' _ hm' happly
    exact (MemWrite.apply_byteCount happly).trans hm'
  · intro m' w hw hm'
    exact run_bytes (hm' ▸ hcount) hw

/-- A word that runs over the end of six bytes, and one that does not. -/
theorem accesses_bytewise_six :
    Run.run MemWrite.apply (filled 6#64 0#8)
        ([.write32 0#32 0x01020304#32, .write32 4#32 5#32].flatMap MemWrite.bytes) =
      Run.run MemWrite.apply (filled 6#64 0#8) [.write32 0#32 0x01020304#32, .write32 4#32 5#32] :=
  (accesses_bytewise (filled 6#64 0#8) (by decide)).1 _ (by decide)

end SimpleArm
