/-
# Runs of a step that may fail

A step takes a state and a label to the next state, or fails. `run` takes the
labels of a list in order and stops at the first that fails. What every step
of a kind preserves, a run of such steps preserves (`run_inv`), and where
every step does what an abstract step does, a run does what the abstract
steps do in a row (`run_simulates`). These are the only inductions over runs
that safety and refinement proofs need.
-/
import Mathlib.Tactic

namespace Run

variable {ε σ ι α β : Type}

theorem bind_eq_ok {x : Except ε α} {f : α → Except ε β} {b : β} :
    (x >>= f) = .ok b ↔ ∃ a, x = .ok a ∧ f a = .ok b := by
  cases x <;> simp [bind, Except.bind]

theorem map_eq_ok {x : Except ε α} {f : α → β} {b : β} :
    x.map f = .ok b ↔ ∃ a, x = .ok a ∧ f a = b := by
  cases x <;> simp [Except.map]

@[simp] theorem ok_bind (a : α) (f : α → Except ε β) : (Except.ok a >>= f) = f a := rfl

@[simp] theorem error_bind (e : ε) (f : α → Except ε β) : (Except.error e >>= f) = .error e := rfl

theorem mapM_eq_ok {f : ι → Except ε α} {g : ι → α} :
    ∀ {l : List ι}, (∀ i ∈ l, f i = .ok (g i)) → l.mapM f = .ok (l.map g)
  | [], _ => rfl
  | i :: l, h => by
    rw [List.mapM_cons, h i List.mem_cons_self, ok_bind,
      mapM_eq_ok fun j hj => h j (List.mem_cons_of_mem _ hj)]
    rfl

/-- A traversal whose calls all return or stop with `e`, and one of which stops. -/
theorem mapM_eq_error {f : ι → Except ε α} {e : ε} :
    ∀ {l : List ι}, (∀ i ∈ l, (∃ a, f i = .ok a) ∨ f i = .error e) → (∃ i ∈ l, f i = .error e) →
      l.mapM f = .error e
  | [], _, hex => by
    obtain ⟨i, hi, -⟩ := hex
    cases hi
  | i :: l, hall, hex => by
    rw [List.mapM_cons]
    rcases hall i List.mem_cons_self with ⟨a, ha⟩ | he
    · have hrest : ∃ j ∈ l, f j = .error e := by
        obtain ⟨j, hj, hje⟩ := hex
        rcases List.mem_cons.mp hj with rfl | hj
        · rw [ha] at hje
          cases hje
        · exact ⟨j, hj, hje⟩
      rw [ha, ok_bind, mapM_eq_error (fun j hj => hall j (List.mem_cons_of_mem _ hj)) hrest]
      rfl
    · rw [he]
      rfl

variable (step : σ → ι → Except ε σ)

/-- The labels of `l` in order, from `s`. -/
def run (s : σ) (l : List ι) : Except ε σ := l.foldlM step s

@[simp] theorem run_nil (s : σ) : run step s [] = .ok s := rfl

theorem run_cons (s : σ) (i : ι) (l : List ι) :
    run step s (i :: l) = step s i >>= fun u => run step u l := rfl

theorem run_cons_cons (s : σ) (i j : ι) (l : List ι) :
    run step s (i :: j :: l) = step s i >>= fun u => run step u (j :: l) := rfl

theorem run_singleton (s : σ) (i : ι) : run step s [i] = step s i := by
  rw [run_cons]
  cases step s i <;> rfl

theorem run_cons_eq_ok {s t : σ} {i : ι} {l : List ι} :
    run step s (i :: l) = .ok t ↔ ∃ u, step s i = .ok u ∧ run step u l = .ok t :=
  bind_eq_ok

variable {step}

/-- **The invariant rule.** If every step whose label is `Allowed` keeps `P`, so does
every run of such labels. -/
theorem run_inv {P : σ → Prop} {Allowed : ι → Prop}
    (hstep : ∀ s i t, Allowed i → P s → step s i = .ok t → P t) :
    ∀ (l : List ι) (s t : σ), (∀ i ∈ l, Allowed i) → P s → run step s l = .ok t → P t
  | [], s, t, _, hs, h => by
    obtain rfl : s = t := by simpa using h
    exact hs
  | i :: l, s, t, hl, hs, h => by
    obtain ⟨u, hu, ht⟩ := (run_cons_eq_ok step).mp h
    exact run_inv hstep l u t (fun j hj => hl j (List.mem_cons_of_mem _ hj))
      (hstep s i u (hl i List.mem_cons_self) hs hu) ht

/-- **The simulation rule.** If every step from a state related to an abstract one fails
with a permitted error or follows the abstract step, so does every run. -/
theorem run_simulates {R : σ → α → Prop} {Stop : ε → Prop} {abstractStep : α → ι → α}
    (hstep : ∀ s a i, R s a → (∃ e, Stop e ∧ step s i = .error e) ∨
      ∃ t, step s i = .ok t ∧ R t (abstractStep a i)) :
    ∀ (l : List ι) (s : σ) (a : α), R s a → (∃ e, Stop e ∧ run step s l = .error e) ∨
      ∃ t, run step s l = .ok t ∧ R t (l.foldl abstractStep a)
  | [], s, a, hR => Or.inr ⟨s, rfl, hR⟩
  | i :: l, s, a, hR => by
    rw [run_cons, List.foldl_cons]
    rcases hstep s a i hR with ⟨e, he, h⟩ | ⟨u, h, hRu⟩
    · exact Or.inl ⟨e, he, by rw [h, error_bind]⟩
    · rw [h, ok_bind]
      exact run_simulates hstep l u _ hRu

/-- **The error rule.** A run that stops has stopped at a step of an allowed label, from a state
with the invariant. -/
theorem run_error {P : σ → Prop} {A : ι → Prop} {E : ε → Prop}
    (hinv : ∀ s i t, A i → P s → step s i = .ok t → P t)
    (hstep : ∀ s i e, A i → P s → step s i = .error e → E e) :
    ∀ (l : List ι) (s : σ) (e : ε), (∀ i ∈ l, A i) → P s → run step s l = .error e → E e
  | [], s, e, _, _, h => by cases h
  | i :: l, s, e, hl, hs, h => by
    have hi := hl i List.mem_cons_self
    rw [run_cons] at h
    cases hu : step s i with
    | error e' =>
      rw [hu] at h
      obtain rfl : e' = e := Except.error.inj h
      exact hstep s i e' hi hs hu
    | ok u =>
      rw [hu] at h
      exact run_error hinv hstep l u e (fun j hj => hl j (List.mem_cons_of_mem _ hj))
        (hinv s i u hi hs hu) h

/-! ### Runs in parts -/

variable (step)

theorem run_append (s : σ) (l k : List ι) :
    run step s (l ++ k) = run step s l >>= fun t => run step t k :=
  List.foldlM_append

/-- **The expansion rule.** If every step is a run of finer ones, so is every run, as long as
the steps keep what this rests on. -/
theorem run_flatMap {κ : Type} {fine : σ → κ → Except ε σ} {P : σ → Prop} {A : ι → Prop}
    {parts : ι → List κ} (hinv : ∀ s i t, A i → P s → step s i = .ok t → P t)
    (hstep : ∀ s i, A i → P s → run fine s (parts i) = step s i) :
    ∀ (l : List ι) (s : σ), (∀ i ∈ l, A i) → P s →
      run fine s (l.flatMap parts) = run step s l
  | [], s, _, _ => rfl
  | i :: l, s, hl, hs => by
    have hi := hl i List.mem_cons_self
    rw [List.flatMap_cons, run_append, run_cons, hstep s i hi hs]
    cases hu : step s i with
    | error e => rfl
    | ok u =>
      exact run_flatMap hinv hstep l u (fun j hj => hl j (List.mem_cons_of_mem _ hj))
        (hinv s i u hi hs hu)

end Run
