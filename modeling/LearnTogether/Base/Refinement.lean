import LearnTogether.Base.Exec

/-!
# Refinement of runs

A concrete system refines an abstract one when a relation `R` between their states is kept: whatever concrete step is
taken in a reachable state, the abstract system can take the actions that the step shows, and ends in a related state.
A step that shows nothing is matched by staying where one is.  Then every concrete run is matched by an abstract run
with the actions that it shows (`ForwardSimulation.run`).
-/

namespace Refinement

open Exec

variable {σ τ α β : Type*}

/-- `shows s s'` are the abstract actions of a concrete step from `s` to `s'`. -/
structure ForwardSimulation (step : σ → α → Option σ) (s₀ : σ) (astep : τ → β → Option τ) (t₀ : τ)
    (shows : σ → σ → List β) (R : σ → τ → Prop) : Prop where
  init : R s₀ t₀
  step : ∀ s t a s', Reachable step s₀ s → R s t → step s a = some s' →
    ∃ t', exec astep t (shows s s') = some t' ∧ R s' t'

/-- The abstract actions of a run from `s`. -/
def trace (step : σ → α → Option σ) (shows : σ → σ → List β) : σ → List α → List β
  | _, [] => []
  | s, a :: as =>
    match step s a with
    | some s' => shows s s' ++ trace step shows s' as
    | none => []

variable {step : σ → α → Option σ} {s₀ : σ} {astep : τ → β → Option τ} {t₀ : τ} {shows : σ → σ → List β}
  {R : σ → τ → Prop}

private theorem trace_concat {s t u : σ} {as : List α} {a : α} (h : exec step s as = some t) (ha : step t a = some u) :
    trace step shows s (as ++ [a]) = trace step shows s as ++ shows t u := by
  induction as generalizing s with
  | nil =>
    obtain rfl : s = t := by simpa using h
    simp [trace, ha]
  | cons b as ih =>
    obtain ⟨v, hv, h⟩ := exec_cons_some.1 h
    simp only [List.cons_append, trace, hv, ih h, List.append_assoc]

/-- Every concrete run is matched by the abstract run with the actions that it shows. -/
theorem ForwardSimulation.run (hsim : ForwardSimulation step s₀ astep t₀ shows R) {as : List α} {s : σ}
    (h : exec step s₀ as = some s) :
    ∃ t, exec astep t₀ (trace step shows s₀ as) = some t ∧ R s t := by
  refine exec_induction_trace (I := fun as s => ∃ t, exec astep t₀ (trace step shows s₀ as) = some t ∧ R s t)
    ⟨t₀, rfl, hsim.init⟩ ?_ h
  rintro as s a s' hs ha ⟨t, ht, hR⟩
  obtain ⟨t', ht', hR'⟩ := hsim.step s t a s' ⟨as, hs⟩ hR ha
  refine ⟨t', ?_, hR'⟩
  rw [trace_concat hs ha, exec_append, ht]
  exact ht'

end Refinement
