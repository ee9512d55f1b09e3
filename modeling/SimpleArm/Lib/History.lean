/-
# Histories of writes

A store maps addresses to values. A history is the list of the cells written
to it, oldest first. `replay` is the store they leave, and `lastWrite` reads
an address from the history alone. The two agree (`replay_apply`): an address
holds the value last written to it, or what it held before the history if
there is none.
-/
import Mathlib.Tactic

namespace History

variable {α β : Type} [DecidableEq α]

/-- The store that `m` becomes by the writes of `h`. -/
def replay (m : α → β) (h : List (α × β)) : α → β :=
  h.foldl (fun m c => Function.update m c.1 c.2) m

/-- The value of the last cell with address `a`. -/
def lastWrite (h : List (α × β)) (a : α) : Option β :=
  (h.reverse.find? fun c => c.1 = a).map Prod.snd

@[simp] theorem replay_nil (m : α → β) : replay m [] = m := rfl

theorem replay_cons (m : α → β) (c : α × β) (h : List (α × β)) :
    replay m (c :: h) = replay (Function.update m c.1 c.2) h := rfl

theorem replay_append (m : α → β) (h k : List (α × β)) :
    replay m (h ++ k) = replay (replay m h) k :=
  List.foldl_append

theorem replay_flatMap {ι : Type} (cells : ι → List (α × β)) (l : List ι) (m : α → β) :
    replay m (l.flatMap cells) = l.foldl (fun m i => replay m (cells i)) m := by
  induction l generalizing m with
  | nil => rfl
  | cons i l ih => rw [List.flatMap_cons, replay_append, ih, List.foldl_cons]

@[simp] theorem lastWrite_nil (a : α) : lastWrite ([] : List (α × β)) a = none := rfl

theorem lastWrite_cons (c : α × β) (h : List (α × β)) (a : α) :
    lastWrite (c :: h) a = (lastWrite h a).or (if c.1 = a then some c.2 else none) := by
  unfold lastWrite
  rw [List.reverse_cons, List.find?_append, Option.map_or]
  by_cases hc : c.1 = a
  · simp [hc]
  · simp [hc]

/-- **Reading a replayed store.** -/
theorem replay_apply (m : α → β) (h : List (α × β)) (a : α) :
    replay m h a = (lastWrite h a).getD (m a) := by
  induction h generalizing m with
  | nil => rfl
  | cons c h ih =>
    rw [replay_cons, ih, lastWrite_cons]
    rcases lastWrite h a with _ | v
    · by_cases hc : c.1 = a
      · subst hc
        simp
      · simp [hc, Function.update_of_ne (Ne.symm hc)]
    · rfl

/-- Cells that all agree with a store copy it to their addresses. -/
theorem replay_of_agree {target : α → β} {h : List (α × β)} (hagree : ∀ c ∈ h, c.2 = target c.1)
    (m : α → β) (a : α) :
    replay m h a = if a ∈ h.map Prod.fst then target a else m a := by
  induction h generalizing m with
  | nil => rfl
  | cons c h ih =>
    rw [replay_cons, ih fun d hd => hagree d (List.mem_cons_of_mem c hd), List.map_cons]
    by_cases ha : a = c.1
    · subst ha
      simp [hagree c List.mem_cons_self]
    · have hmem : a ∈ c.1 :: h.map Prod.fst ↔ a ∈ h.map Prod.fst := by simp [ha]
      rw [Function.update_of_ne ha, if_congr hmem rfl rfl]

theorem lastWrite_eq_none_iff {h : List (α × β)} {a : α} :
    lastWrite h a = none ↔ ∀ c ∈ h, c.1 ≠ a := by
  simp [lastWrite]

theorem replay_range (m : ℕ → β) (start n : ℕ) (value : ℕ → β) (a : ℕ) :
    replay m ((List.range n).map fun k => (start + k, value k)) a =
      if start ≤ a ∧ a < start + n then value (a - start) else m a := by
  induction n with
  | zero =>
    have hempty : ¬ (start ≤ a ∧ a < start + 0) := by omega
    rw [if_neg hempty]
    rfl
  | succ n ih =>
    rw [List.range_succ, List.map_append, replay_append, List.map_singleton, replay_cons,
      replay_nil]
    by_cases ha : a = start + n
    · subst ha
      have hin : start ≤ start + n ∧ start + n < start + (n + 1) := by omega
      rw [Function.update_self, if_pos hin, Nat.add_sub_cancel_left]
    · have hiff : (start ≤ a ∧ a < start + (n + 1)) ↔ (start ≤ a ∧ a < start + n) := by omega
      rw [Function.update_of_ne ha, ih]
      simp only [hiff]

end History
