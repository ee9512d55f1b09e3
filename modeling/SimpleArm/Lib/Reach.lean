/-
# Reachable states

The states that runs of permitted labels reach. From above they are bounded by
a relation that every step keeps (`Reachable.bound`), and from below they are
built step by step (`Reachable.single`, `trans`, `iterate`), or one component of
the state after the other (`Reachable.fold`). Where both meet, the set is exact.
-/
import SimpleArm.Lib.Run

namespace Run

variable {ε σ ι κ : Type} {step : σ → ι → Except ε σ} {A : ι → Prop}

/-- A run of permitted labels from `s` ends in `t`. -/
def Reachable (step : σ → ι → Except ε σ) (A : ι → Prop) (s t : σ) : Prop :=
  ∃ l : List ι, (∀ i ∈ l, A i) ∧ run step s l = .ok t

namespace Reachable

theorem refl (s : σ) : Reachable step A s s := ⟨[], by simp, rfl⟩

theorem single {i : ι} {s t : σ} (hi : A i) (h : step s i = .ok t) : Reachable step A s t :=
  ⟨[i], by simpa using hi, (run_singleton _ s i).trans h⟩

theorem trans {s t u : σ} (h : Reachable step A s t) (h' : Reachable step A t u) :
    Reachable step A s u := by
  obtain ⟨l, hl, hrun⟩ := h
  obtain ⟨k, hk, hrun'⟩ := h'
  refine ⟨l ++ k, fun i hi => ?_, ?_⟩
  · exact (List.mem_append.mp hi).elim (hl i) (hk i)
  · rw [run_append, hrun, ok_bind, hrun']

theorem iterate {f : σ → σ} (h : ∀ s, Reachable step A s (f s)) :
    ∀ (n : ℕ) (s : σ), Reachable step A s (f^[n] s)
  | 0, s => refl s
  | n + 1, s => (h s).trans (iterate h n (f s))

theorem fold {f : σ → κ → σ} : ∀ (l : List κ) (s : σ),
    (∀ k ∈ l, ∀ s, Reachable step A s (f s k)) → Reachable step A s (l.foldl f s)
  | [], s, _ => refl s
  | k :: l, s, h =>
    (h k List.mem_cons_self s).trans
      (fold l (f s k) fun j hj => h j (List.mem_cons_of_mem k hj))

/-- **The bound.** A relation to the start that holds there and that every step keeps. -/
theorem bound {P : σ → Prop} (hstep : ∀ u i v, A i → P u → step u i = .ok v → P v) {s t : σ}
    (h : Reachable step A s t) (hs : P s) : P t := by
  obtain ⟨l, hl, hrun⟩ := h
  exact run_inv hstep l s t hl hs hrun

end Reachable

end Run
