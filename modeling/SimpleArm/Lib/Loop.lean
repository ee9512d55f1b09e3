/-
# Loops that go on or end

The body of a loop takes a state to the state of the next iteration or to the
loop's result, or fails. `loop` runs it with a bound on the iterations, and
`Steps` counts iterations that all go on. What the loop does after `n` of them
is what it does from the state they reach (`loop_add`), so that a statement
about some iteration of a run is one about the body (`loop_of_end`,
`loop_one`). A loop has three outcomes, each told by the iteration it ends in
(`loop_cases`). Two loops whose bodies do alike on related states have alike
outcomes (`loop_alike`).
-/
import SimpleArm.Lib.Run

namespace Loop

variable {ε σ ρ : Type} (body : σ → Except ε (σ ⊕ ρ))

/-- At most `fuel` iterations from `s`: the result, or `none` if the loop has not ended. -/
def loop : ℕ → σ → Except ε (Option ρ)
  | 0, _ => .ok none
  | n + 1, s => body s >>= fun
    | .inl t => loop n t
    | .inr r => .ok (some r)

/-- `n` iterations that go on lead from one state to another. -/
inductive Steps : ℕ → σ → σ → Prop
  | refl (s : σ) : Steps 0 s s
  | step {n : ℕ} {s t u : σ} : body s = .ok (.inl t) → Steps n t u → Steps (n + 1) s u

variable {body} {s t : σ} {r : ρ} {n : ℕ}

theorem loop_succ_of_continue (h : body s = .ok (.inl t)) (n : ℕ) :
    loop body (n + 1) s = loop body n t := by
  rw [loop, h]
  rfl

theorem loop_of_end (h : body s = .ok (.inr r)) (n : ℕ) :
    loop body (n + 1) s = .ok (some r) := by
  rw [loop, h]
  rfl

theorem loop_one : loop body 1 s = .ok (some r) ↔ body s = .ok (.inr r) := by
  constructor
  · intro h
    obtain ⟨t | r', hb, ht⟩ := Run.bind_eq_ok.mp (show (body s >>= _) = _ from h)
    · cases ht
    · obtain rfl : r' = r := Option.some.inj (Except.ok.inj ht)
      exact hb
  · intro h
    exact loop_of_end h 0

theorem loop_add (h : Steps body n s t) (k : ℕ) : loop body (n + k) s = loop body k t := by
  induction h with
  | refl s => rw [Nat.zero_add]
  | step hb _ ih => rw [Nat.add_right_comm, loop_succ_of_continue hb, ih]

/-- **The iteration that ends a run.** After `n` iterations that go on, every longer run has
the result `r` exactly when the next iteration ends with it. -/
theorem loop_eq_some_iff (h : Steps body n s t) :
    (∀ fuel, n < fuel → loop body fuel s = .ok (some r)) ↔ body t = .ok (.inr r) := by
  constructor
  · intro hall
    rw [← loop_one, ← loop_add h]
    exact hall (n + 1) (Nat.lt_succ_self n)
  · intro hend fuel hfuel
    obtain ⟨k, rfl⟩ : ∃ k, fuel = n + (k + 1) := ⟨fuel - n - 1, by omega⟩
    rw [loop_add h, loop_of_end hend]

/-! ### Every outcome -/

/-- What every iteration that goes on preserves. -/
theorem Steps.inv {P : σ → Prop} (hstep : ∀ s t, P s → body s = .ok (.inl t) → P t)
    (h : Steps body n s t) (hs : P s) : P t := by
  induction h with
  | refl s => exact hs
  | step hb _ ih => exact ih (hstep _ _ hs hb)

variable (body) in
/-- A loop is still running after `fuel` iterations that go on, or it ended in an earlier
one: with an error of the body, or with its result. -/
theorem loop_cases (s : σ) (fuel : ℕ) :
    (∃ t, Steps body fuel s t ∧ loop body fuel s = .ok none) ∨
      ∃ n t, n < fuel ∧ Steps body n s t ∧
        ((∃ e, body t = .error e ∧ loop body fuel s = .error e) ∨
          ∃ r, body t = .ok (.inr r) ∧ loop body fuel s = .ok (some r)) := by
  induction fuel generalizing s with
  | zero => exact Or.inl ⟨s, Steps.refl s, rfl⟩
  | succ fuel ih =>
    rcases hb : body s with e | (t | r)
    · refine Or.inr ⟨0, s, Nat.succ_pos fuel, Steps.refl s, Or.inl ⟨e, hb, ?_⟩⟩
      rw [loop, hb]
      rfl
    · rw [loop_succ_of_continue hb]
      rcases ih t with ⟨u, hu, hnone⟩ | ⟨n, u, hn, hu, hend⟩
      · exact Or.inl ⟨u, Steps.step hb hu, hnone⟩
      · exact Or.inr ⟨n + 1, u, Nat.succ_lt_succ hn, Steps.step hb hu, hend⟩
    · exact Or.inr ⟨0, s, Nat.succ_pos fuel, Steps.refl s, Or.inr ⟨r, hb, loop_of_end hb fuel⟩⟩

/-- **When a loop returns.** -/
theorem loop_eq_ok_some_iff {fuel : ℕ} : loop body fuel s = .ok (some r) ↔
    ∃ n t, n < fuel ∧ Steps body n s t ∧ body t = .ok (.inr r) := by
  constructor
  · intro h
    rcases loop_cases body s fuel with ⟨t, -, hnone⟩ | ⟨n, t, hn, hsteps, hend⟩
    · rw [h] at hnone
      cases hnone
    · rcases hend with ⟨e, -, herr⟩ | ⟨r', hr, hloop⟩
      · rw [h] at herr
        cases herr
      · rw [h] at hloop
        obtain rfl : r = r' := Option.some.inj (Except.ok.inj hloop)
        exact ⟨n, t, hn, hsteps, hr⟩
  · rintro ⟨n, t, hn, hsteps, hend⟩
    exact (loop_eq_some_iff hsteps).mpr hend fuel hn

/-- **When a loop stops with an error.** -/
theorem loop_eq_error_iff {fuel : ℕ} {e : ε} : loop body fuel s = .error e ↔
    ∃ n t, n < fuel ∧ Steps body n s t ∧ body t = .error e := by
  constructor
  · intro h
    rcases loop_cases body s fuel with ⟨t, -, hnone⟩ | ⟨n, t, hn, hsteps, hend⟩
    · rw [h] at hnone
      cases hnone
    · rcases hend with ⟨e', he, herr⟩ | ⟨r, -, hloop⟩
      · rw [h] at herr
        obtain rfl : e = e' := Except.error.inj herr
        exact ⟨n, t, hn, hsteps, he⟩
      · rw [h] at hloop
        cases hloop
  · rintro ⟨n, t, hn, hsteps, hend⟩
    obtain ⟨k, rfl⟩ : ∃ k, fuel = n + (k + 1) := ⟨fuel - n - 1, by omega⟩
    rw [loop_add hsteps, loop, hend]
    rfl

/-! ### Two runs -/

/-- The same error, or values in the relation. -/
inductive Alike {α β : Type} (Q : α → β → Prop) : Except ε α → Except ε β → Prop
  | error (e : ε) : Alike Q (.error e) (.error e)
  | ok {a : α} {b : β} : Q a b → Alike Q (.ok a) (.ok b)

/-- **Simulation.** Bodies that do alike on related states, as far as the first run goes, have
alike outcomes. -/
theorem loop_alike {τ π : Type} {body' : τ → Except ε (τ ⊕ π)} {R : σ → τ → Prop}
    {Q : ρ → π → Prop} {t : τ} {fuel : ℕ}
    (hbody : ∀ n s' t', n < fuel → Steps body n s s' → R s' t' →
      Alike (Sum.LiftRel R Q) (body s') (body' t')) (hR : R s t) :
    Alike (Option.Rel Q) (loop body fuel s) (loop body' fuel t) := by
  induction fuel generalizing s t with
  | zero => exact .ok .none
  | succ fuel ih =>
    have hs := hbody 0 s t (Nat.succ_pos fuel) (Steps.refl s) hR
    rw [loop, loop]
    generalize hb : body s = r, body' t = r' at hs
    cases hs with
    | error e => exact .error e
    | ok hq =>
      cases hq with
      | inl hR' =>
        exact ih (fun n s' t' hn hsteps =>
          hbody (n + 1) s' t' (Nat.succ_lt_succ hn) (Steps.step hb hsteps)) hR'
      | inr hQ => exact .ok (.some hQ)

end Loop
