/-
# Footprints

`get` reads the locations of a state. A computation that may fail has the
footprint `R`, `W` when it leaves the locations off `W` as they are, and what
is in `R` decides whether it fails, with which error, and what is in `W` after
it. A location in `W` that may keep its value is therefore in `R` too.

Footprints compose as the live variables of a straight-line program do: a
location that is written before it is read is no input of the whole
(`Footprint.bind`, `exposed`). Computations that do not touch each other's
footprints can be swapped (`Footprint.commute`), and one whose writes are
overwritten unread can be left out (`Footprint.bind_of_dead`).
-/
import Mathlib.Data.Set.Function
import SimpleArm.Lib.Reorder

namespace Effect

variable {ε σ L V α : Type}

/-- The same error, or states with the same values in `W`. -/
def Agree (get : σ → L → V) (W : Set L) : Except ε σ → Except ε σ → Prop
  | .ok t, .ok t' => Set.EqOn (get t) (get t') W
  | .error e, .error e' => e = e'
  | _, _ => False

structure Footprint (get : σ → L → V) (f : σ → Except ε σ) (R W : Set L) : Prop where
  frame : ∀ s t, f s = .ok t → Set.EqOn (get t) (get s) (Compl.compl W)
  depends : ∀ s s', Set.EqOn (get s) (get s') R → Agree get W (f s) (f s')

variable {get : σ → L → V} {f g : σ → Except ε σ} {R R' W W' : Set L}

theorem Agree.ok {x y : Except ε σ} {t : σ} (h : Agree get W x y) (hx : x = .ok t) :
    ∃ t', y = .ok t' ∧ Set.EqOn (get t) (get t') W := by
  subst hx
  cases y with
  | error e => exact h.elim
  | ok t' => exact ⟨t', rfl, h⟩

theorem Agree.error {x y : Except ε σ} {e : ε} (h : Agree get W x y) (hx : x = .error e) :
    y = .error e := by
  subst hx
  cases y with
  | error e' =>
    obtain rfl : e = e' := h
    rfl
  | ok t' => exact h.elim

/-! ### Small computations -/

theorem Footprint.ok : Footprint get (Except.ok : σ → Except ε σ) ∅ ∅ where
  frame s t h := by
    obtain rfl : s = t := Except.ok.inj h
    exact fun _ _ => rfl
  depends _ _ _ := fun _ hl => hl.elim

theorem Footprint.fail (e : ε) : Footprint get (fun _ => .error e) R W where
  frame s t h := by cases h
  depends _ _ _ := rfl

/-- More may be read; more may be said to be written, if it is read. -/
theorem Footprint.weaken (h : Footprint get f R W) (hR : R ⊆ R') (hW : W ⊆ W')
    (hkeep : ∀ l ∈ W', l ∉ W → l ∈ R') : Footprint get f R' W' where
  frame s t hf l hl := h.frame s t hf fun hmem => hl (hW hmem)
  depends s s' heq := by
    have hagree := h.depends s s' (heq.mono hR)
    cases hs : f s with
    | error e =>
      rw [hagree.error hs]
      rfl
    | ok t =>
      obtain ⟨t', ht', htt⟩ := hagree.ok hs
      rw [ht']
      intro l hl
      by_cases hlW : l ∈ W
      · exact htt hlW
      · rw [h.frame s t hs hlW, h.frame s' t' ht' hlW]
        exact heq (hkeep l hl hlW)

/-- A value that is read decides what is done. -/
theorem Footprint.of_value {k : α → σ → Except ε σ} {v : σ → α}
    (hv : ∀ s s', Set.EqOn (get s) (get s') R → v s = v s')
    (hk : ∀ a, Footprint get (k a) R W) : Footprint get (fun s => k (v s) s) R W where
  frame s t h := (hk (v s)).frame s t h
  depends s s' heq := by
    show Agree get W (k (v s) s) (k (v s') s')
    rw [← hv s s' heq]
    exact (hk (v s)).depends s s' heq

/-! ### One after the other -/

/-- **The composition rule.** Of what the second reads, the whole reads what the first does not
write. -/
theorem Footprint.bind (hf : Footprint get f R W) (hg : Footprint get g R' W') :
    Footprint get (fun s => f s >>= g) (R ∪ R' \ W) (W ∪ W') where
  frame s t h := by
    obtain ⟨u, hu, ht⟩ := Run.bind_eq_ok.mp h
    intro l hl
    rw [hg.frame u t ht fun hmem => hl (Or.inr hmem), hf.frame s u hu fun hmem => hl (Or.inl hmem)]
  depends s s' heq := by
    have hagree := hf.depends s s' (heq.mono Set.subset_union_left)
    show Agree get _ (f s >>= g) (f s' >>= g)
    cases hs : f s with
    | error e =>
      rw [hagree.error hs]
      rfl
    | ok u =>
      obtain ⟨u', hu', huu⟩ := hagree.ok hs
      rw [hu', Run.ok_bind, Run.ok_bind]
      have hread : Set.EqOn (get u) (get u') R' := by
        intro l hl
        by_cases hlW : l ∈ W
        · exact huu hlW
        · rw [hf.frame s u hs hlW, hf.frame s' u' hu' hlW]
          exact heq (Or.inr ⟨hl, hlW⟩)
      have hagree' := hg.depends u u' hread
      cases ht : g u with
      | error e =>
        rw [hagree'.error ht]
        rfl
      | ok t =>
        obtain ⟨t', ht', htt⟩ := hagree'.ok ht
        rw [ht']
        intro l hl
        by_cases hlW' : l ∈ W'
        · exact htt hlW'
        · rw [hg.frame u t ht hlW', hg.frame u' t' ht' hlW']
          exact huu (hl.resolve_right hlW')

theorem Footprint.agree_after (hf : Footprint get f R W) (hg : Footprint get g R' W')
    (hdisj : ∀ l ∈ W, l ∉ R') {s t : σ} (h : f s = .ok t) : Agree get W' (g s) (g t) :=
  hg.depends s t fun l hl => (hf.frame s t h fun hmem => hdisj l hmem hl).symm

section Ext

variable (hext : ∀ s s' : σ, (∀ l, get s l = get s' l) → s = s')

include hext

/-- **The dead-write rule.** What is overwritten without being read need not be written. -/
theorem Footprint.bind_of_dead (hf : Footprint get f R W) (hg : Footprint get g R' W')
    (hdisj : ∀ l ∈ W, l ∉ R') (hW : W ⊆ W') {s t : σ} (h : f s = .ok t) : g t = g s := by
  have hagree := hf.agree_after hg hdisj h
  cases hs : g s with
  | error e => exact hagree.error hs
  | ok u =>
    obtain ⟨u', hu', huu⟩ := hagree.ok hs
    rw [hu']
    refine congrArg Except.ok (hext _ _ fun l => ?_)
    by_cases hl : l ∈ W'
    · exact (huu hl).symm
    · rw [hg.frame t u' hu' hl, hg.frame s u hs hl, hf.frame s t h fun hmem => hl (hW hmem)]

theorem Footprint.swap (hf : Footprint get f R W) (hg : Footprint get g R' W')
    (hfg : ∀ l ∈ W, l ∉ R' ∧ l ∉ W') (hgf : ∀ l ∈ W', l ∉ R ∧ l ∉ W) {s u : σ}
    (h : (f s >>= g) = .ok u) : (g s >>= f) = .ok u := by
  have hWR' : ∀ l ∈ W, l ∉ R' := fun l hl => (hfg l hl).1
  have hW'R : ∀ l ∈ W', l ∉ R := fun l hl => (hgf l hl).1
  obtain ⟨t, ht, hu⟩ := Run.bind_eq_ok.mp h
  -- `g` returns from `s` as it does after `f`, and then `f` as it does from `s`
  cases hs : g s with
  | error e =>
    rw [(hf.agree_after hg hWR' ht).error hs] at hu
    cases hu
  | ok t' =>
    obtain ⟨u₁, hu₁, hgu⟩ := (hf.agree_after hg hWR' ht).ok hs
    obtain rfl := Except.ok.inj (hu.symm.trans hu₁)
    obtain ⟨u', hu', hfu⟩ := (hg.agree_after hf hW'R hs).ok ht
    rw [Run.ok_bind, hu']
    refine congrArg Except.ok (hext _ _ fun l => ?_)
    by_cases hl : l ∈ W
    · rw [← hfu hl, hg.frame t u hu (hfg l hl).2]
    · rw [hf.frame t' u' hu' hl]
      by_cases hl' : l ∈ W'
      · exact hgu hl'
      · rw [hg.frame s t' hs hl', hg.frame t u hu hl', hf.frame s t ht hl]

/-- **The commutation rule.** Two computations neither of which writes what the other reads or
writes can be made in either order. -/
theorem Footprint.commute {ι : Type} {step : σ → ι → Except ε σ} {i j : ι}
    (hi : Footprint get (fun s => step s i) R W) (hj : Footprint get (fun s => step s j) R' W')
    (hij : ∀ l ∈ W, l ∉ R' ∧ l ∉ W') (hji : ∀ l ∈ W', l ∉ R ∧ l ∉ W) :
    Run.Commute step i j := by
  intro s
  have hpair : ∀ a b : ι, Run.run step s [a, b] = step s a >>= fun t => step t b := by
    intro a b
    rw [Run.run_cons]
    refine congrArg _ (funext fun t => ?_)
    exact Run.run_singleton step t b
  rw [Run.toOption_eq_iff]
  intro u
  rw [hpair, hpair]
  exact ⟨hi.swap hext hj hij hji, hj.swap hext hi hji hij⟩

end Ext

/-! ### Runs -/

section Run

variable {ι : Type} [DecidableEq L] (reads writes : ι → List L)

/-- What a list of labels reads before it writes it. -/
def exposed : List ι → List L
  | [] => []
  | i :: l => reads i ++ (exposed l).filter fun x => x ∉ writes i

theorem footprint_run {step : σ → ι → Except ε σ}
    (hstep : ∀ i, Footprint get (fun s => step s i) {x | x ∈ reads i} {x | x ∈ writes i}) :
    ∀ l : List ι, Footprint get (fun s => Run.run step s l) {x | x ∈ exposed reads writes l}
      {x | x ∈ l.flatMap writes}
  | [] => by
    have hreads : {x | x ∈ exposed reads writes ([] : List ι)} = (∅ : Set L) := by simp [exposed]
    have hwrites : {x | x ∈ ([] : List ι).flatMap writes} = (∅ : Set L) := by simp
    rw [hreads, hwrites]
    exact Footprint.ok
  | i :: l => by
    have hreads : {x | x ∈ exposed reads writes (i :: l)} =
        {x | x ∈ reads i} ∪ {x | x ∈ exposed reads writes l} \ {x | x ∈ writes i} := by
      ext x
      simp [exposed]
    have hwrites : {x | x ∈ (i :: l).flatMap writes} =
        {x | x ∈ writes i} ∪ {x | x ∈ l.flatMap writes} := by
      ext x
      simp
    rw [hreads, hwrites]
    exact (hstep i).bind (footprint_run hstep l)

end Run

end Effect
