/-
# Runs in another order

Two labels commute when both orders of them end in the same state from every
state, or both fail. In a list whose labels commute pairwise the order does
not matter (`run_perm`). What may differ is the error, since a run stops at
its first: outcomes are compared through `Except.toOption`.
-/
import SimpleArm.Lib.Run

namespace Run

variable {ε σ ι α β : Type}

theorem toOption_bind (x : Except ε α) (f : α → Except ε β) :
    (x >>= f).toOption = x.toOption.bind fun a => (f a).toOption := by
  cases x <;> rfl

theorem toOption_eq_iff {x y : Except ε α} :
    x.toOption = y.toOption ↔ ∀ a, x = .ok a ↔ y = .ok a := by
  constructor
  · intro h a
    cases x <;> cases y <;> simp_all [Except.toOption]
  · intro h
    cases x with
    | error e =>
      cases y with
      | error e' => rfl
      | ok b => exact absurd ((h b).mpr rfl) (by simp)
    | ok a =>
      rw [(h a).mp rfl]

variable (step : σ → ι → Except ε σ)

/-- The two labels can be taken in either order. -/
def Commute (i j : ι) : Prop :=
  ∀ s, (run step s [i, j]).toOption = (run step s [j, i]).toOption

theorem Commute.refl (i : ι) : Commute step i i := fun _ => rfl

instance : Std.Symm (Commute step) := ⟨fun _ _ h s => (h s).symm⟩

theorem toOption_run_cons (s : σ) (i : ι) (l : List ι) :
    (run step s (i :: l)).toOption =
      (step s i).toOption.bind fun u => (run step u l).toOption :=
  toOption_bind (step s i) _

theorem toOption_run_append (s : σ) (l k : List ι) :
    (run step s (l ++ k)).toOption =
      (run step s l).toOption.bind fun u => (run step u k).toOption := by
  rw [run_append, toOption_bind]

variable {step}

theorem run_perm_of_forall {l l' : List ι} (hperm : l.Perm l')
    (hcomm : ∀ i ∈ l, ∀ j ∈ l, Commute step i j) (s : σ) :
    (run step s l).toOption = (run step s l').toOption := by
  induction hperm generalizing s with
  | nil => rfl
  | cons i _ ih =>
    have hrest := fun j hj k hk => hcomm j (List.mem_cons_of_mem i hj) k (List.mem_cons_of_mem i hk)
    rw [toOption_run_cons, toOption_run_cons]
    exact congrArg _ (funext fun u => ih hrest u)
  | swap i j l =>
    have hij : Commute step j i :=
      hcomm j List.mem_cons_self i (List.mem_cons_of_mem j List.mem_cons_self)
    calc (run step s ([j, i] ++ l)).toOption
        = (run step s [j, i]).toOption.bind fun u => (run step u l).toOption :=
          toOption_run_append step s [j, i] l
      _ = (run step s [i, j]).toOption.bind fun u => (run step u l).toOption := by rw [hij s]
      _ = (run step s ([i, j] ++ l)).toOption := (toOption_run_append step s [i, j] l).symm
  | trans h₁ _ ih₁ ih₂ =>
    have hmid := fun i hi j hj => hcomm i (h₁.mem_iff.mpr hi) j (h₁.mem_iff.mpr hj)
    exact (ih₁ hcomm s).trans (ih₂ hmid s)

/-- **The reordering rule.** Labels that commute pairwise can be taken in any order. -/
theorem run_perm {l l' : List ι} (hperm : l.Perm l') (hcomm : l.Pairwise (Commute step)) (s : σ) :
    (run step s l).toOption = (run step s l').toOption := by
  refine run_perm_of_forall hperm (fun i hi j hj => ?_) s
  by_cases hij : i = j
  · rw [hij]
    exact Commute.refl step j
  · exact hcomm.forall hi hj hij

end Run
