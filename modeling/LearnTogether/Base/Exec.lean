import Mathlib.Algebra.GroupWithZero.Nat
import Mathlib.Data.List.Induction

/-!
# Runs of a partial step function

A system is given by `step : σ → α → Option σ`: in the state `s` the action `a` is either not enabled (`none`) or
leads to one state.  `exec step s as` takes the actions `as` one after the other.  A property that every step keeps
holds at the end of every run; the premise may use the actions taken so far (`exec_induction_trace`), that the state
is itself reachable (`Reachable.induction`), or that the step was taken under a guard (`exec_induction_along`).
-/

namespace Exec

variable {σ α : Type*} (step : σ → α → Option σ)

/-- The state after the actions `as`, `none` when one of them is not enabled. -/
def exec (s : σ) (as : List α) : Option σ := as.foldlM step s

/-- Some run leads from `s` to `t`. -/
def Reachable (s t : σ) : Prop := ∃ as, exec step s as = some t

/-- Every action of `as`, run from `s`, is taken in a state in which `G` allows it. -/
def Along (G : σ → α → Prop) : σ → List α → Prop
  | _, [] => True
  | s, a :: as => G s a ∧ ∀ t, step s a = some t → Along G t as

/-- Every state that the run of `as` from `s` passes through has the property `P`. -/
def Throughout (P : σ → Prop) (s : σ) (as : List α) : Prop :=
  ∀ bs t, bs <+: as → exec step s bs = some t → P t

variable {step}

@[simp] theorem exec_nil (s : σ) : exec step s [] = some s := rfl

@[simp] theorem exec_cons (s : σ) (a : α) (as : List α) :
    exec step s (a :: as) = (step s a).bind fun t => exec step t as := rfl

theorem exec_cons_some {s u : σ} {a : α} {as : List α} :
    exec step s (a :: as) = some u ↔ ∃ t, step s a = some t ∧ exec step t as = some u := by
  rw [exec_cons, Option.bind_eq_some_iff]

theorem exec_append (s : σ) (as bs : List α) :
    exec step s (as ++ bs) = (exec step s as).bind fun t => exec step t bs := by
  unfold exec; rw [List.foldlM_append]; rfl

theorem exec_concat {s u : σ} {as : List α} {a : α} :
    exec step s (as ++ [a]) = some u ↔ ∃ t, exec step s as = some t ∧ step t a = some u := by
  rw [exec_append, Option.bind_eq_some_iff]
  simp

theorem Reachable.refl (s : σ) : Reachable step s s := ⟨[], rfl⟩

theorem Reachable.tail {s t u : σ} {a : α} (h : Reachable step s t) (ha : step t a = some u) :
    Reachable step s u := by
  obtain ⟨as, has⟩ := h
  exact ⟨as ++ [a], exec_concat.2 ⟨t, has, ha⟩⟩

theorem Reachable.trans {s t u : σ} (h₁ : Reachable step s t) (h₂ : Reachable step t u) :
    Reachable step s u := by
  obtain ⟨as, has⟩ := h₁
  obtain ⟨bs, hbs⟩ := h₂
  exact ⟨as ++ bs, by rw [exec_append, has]; exact hbs⟩

/-- The induction on a run, from its last step: the premise sees the run up to the step. -/
theorem exec_induction_trace {s : σ} {I : List α → σ → Prop} (h0 : I [] s)
    (hstep : ∀ as t a u, exec step s as = some t → step t a = some u → I as t → I (as ++ [a]) u)
    {as : List α} {t : σ} (h : exec step s as = some t) : I as t := by
  induction as using List.reverseRecOn generalizing t with
  | nil =>
    obtain rfl : s = t := by simpa using h
    exact h0
  | append_singleton as a ih =>
    obtain ⟨u, hu, ha⟩ := exec_concat.1 h
    exact hstep as u a t hu ha (ih hu)

/-- An invariant of the reachable states; the step may use that it starts in a reachable state. -/
theorem Reachable.induction {s : σ} {I : σ → Prop} (h0 : I s)
    (hstep : ∀ t a u, Reachable step s t → step t a = some u → I t → I u) {t : σ} (h : Reachable step s t) :
    I t := by
  obtain ⟨as, has⟩ := h
  exact exec_induction_trace (I := fun _ t => I t) h0 (fun as t a u ht ha hi => hstep t a u ⟨as, ht⟩ ha hi) has

/-- While the measure `μ` is positive, some action with `A` lowers it and keeps `I`: then a run of such actions brings
it down to zero, in at most `μ s` steps. -/
theorem exists_run {I : σ → Prop} {A : α → Prop} {μ : σ → Nat}
    (hstep : ∀ s, I s → 0 < μ s → ∃ a t, A a ∧ step s a = some t ∧ I t ∧ μ t < μ s) {s : σ} (hs : I s) :
    ∃ as t, (∀ a ∈ as, A a) ∧ exec step s as = some t ∧ I t ∧ μ t = 0 ∧ as.length ≤ μ s := by
  induction hn : μ s using Nat.strongRecOn generalizing s with
  | ind n ih =>
    by_cases h0 : 0 < μ s
    · obtain ⟨a, t, ha, hst, ht, hlt⟩ := hstep s hs h0
      obtain ⟨as, u, has, hu, hIu, hμ, hlen⟩ := ih (μ t) (by omega) ht rfl
      refine ⟨a :: as, u, ?_, exec_cons_some.2 ⟨t, hst, hu⟩, hIu, hμ, ?_⟩
      · intro b hb
        rcases List.mem_cons.1 hb with rfl | hb
        · exact ha
        · exact has b hb
      · rw [List.length_cons]
        omega
    · exact ⟨[], s, by simp, rfl, hs, by omega, Nat.zero_le _⟩

/-- Every action pays its cost out of the potential `μ`: then so do the actions of a run together. -/
theorem sum_cost_le {cost : α → Nat} {μ : σ → Nat} (hstep : ∀ s a t, step s a = some t → cost a + μ t ≤ μ s)
    {s t : σ} {as : List α} (h : exec step s as = some t) : (as.map cost).sum + μ t ≤ μ s := by
  induction as generalizing s with
  | nil =>
    obtain rfl : s = t := by simpa using h
    simp
  | cons a as ih =>
    obtain ⟨u, hu, h⟩ := exec_cons_some.1 h
    have ha := hstep s a u hu
    have has := ih h
    rw [List.map_cons, List.sum_cons]
    omega

/-- Whether a run keeps to a guard can be computed. -/
instance decidableAlong {G : σ → α → Prop} [∀ s a, Decidable (G s a)] :
    (s : σ) → (as : List α) → Decidable (Along step G s as)
  | _, [] => isTrue trivial
  | s, a :: as =>
    match h : step s a with
    | none => decidable_of_iff (G s a) (by simp [Along, h])
    | some t =>
      haveI : Decidable (Along step G t as) := decidableAlong t as
      decidable_of_iff (G s a ∧ Along step G t as) (by simp [Along, h])

theorem along_of_forall {G : σ → α → Prop} {s : σ} {as : List α} (h : ∀ a ∈ as, ∀ t, G t a) : Along step G s as := by
  induction as generalizing s with
  | nil => trivial
  | cons a as ih =>
    exact ⟨h a (List.mem_cons_self ..) s, fun _ _ => ih fun b hb => h b (List.mem_cons_of_mem _ hb)⟩

/-- A guard that keeps an invariant may be replaced by what the two imply together. -/
theorem along_of_invariant {G H : σ → α → Prop} {I : σ → Prop} {s : σ} (h0 : I s)
    (hkeep : ∀ t a u, Reachable step s t → step t a = some u → G t a → I t → I u)
    (hGH : ∀ t a, Reachable step s t → I t → G t a → H t a) {as : List α} (h : Along step G s as) :
    Along step H s as := by
  induction as generalizing s with
  | nil => trivial
  | cons a as ih =>
    obtain ⟨hG, hrest⟩ := h
    refine ⟨hGH s a (Reachable.refl s) h0 hG, fun t ht => ?_⟩
    have hreach : ∀ {u}, Reachable step t u → Reachable step s u := fun hu =>
      ((Reachable.refl s).tail ht).trans hu
    exact ih (hkeep s a t (Reachable.refl s) ht hG h0) (fun u b v hu => hkeep u b v (hreach hu))
      (fun u b hu => hGH u b (hreach hu)) (hrest t ht)

/-- A guard may be replaced by another one that it implies in the reachable states. -/
theorem along_mono {G H : σ → α → Prop} {s : σ} {as : List α} (hGH : ∀ t a, Reachable step s t → G t a → H t a)
    (h : Along step G s as) : Along step H s as :=
  along_of_invariant (I := fun _ => True) trivial (fun _ _ _ _ _ _ _ => trivial) (fun t a ht _ => hGH t a ht) h

theorem along_append {G : σ → α → Prop} {s t : σ} {as bs : List α} (h : exec step s as = some t) :
    Along step G s (as ++ bs) ↔ Along step G s as ∧ Along step G t bs := by
  induction as generalizing s with
  | nil =>
    obtain rfl : s = t := by simpa using h
    simp [Along]
  | cons a as ih =>
    obtain ⟨u, hu, h⟩ := exec_cons_some.1 h
    simp only [List.cons_append, Along, hu, Option.some.injEq, forall_eq', ih h, and_assoc]

private theorem along_concat {G : σ → α → Prop} {s t u : σ} {as : List α} {a : α} (h : exec step s as = some t)
    (ha : step t a = some u) : Along step G s (as ++ [a]) ↔ Along step G s as ∧ G t a := by
  rw [along_append h]
  simp [Along, ha]

/-- A property that every step under the guard `G` keeps holds at the end of every run that keeps to `G`. -/
theorem exec_induction_along {G : σ → α → Prop} {s : σ} {I : σ → Prop} (h0 : I s)
    (hstep : ∀ t a u, Reachable step s t → step t a = some u → G t a → I t → I u) {as : List α} {t : σ}
    (h : exec step s as = some t) (hG : Along step G s as) : I t := by
  refine exec_induction_trace (I := fun as t => Along step G s as → I t) (fun _ => h0) ?_ h hG
  intro as t a u ht ha hi hG
  obtain ⟨hG, hGa⟩ := (along_concat ht ha).1 hG
  exact hstep t a u ⟨as, ht⟩ ha hGa (hi hG)

private theorem Throughout.concat {P : σ → Prop} {s t u : σ} {as : List α} {a : α} (h : exec step s as = some t)
    (ha : step t a = some u) : Throughout step P s (as ++ [a]) ↔ Throughout step P s as ∧ P u := by
  constructor
  · intro hP
    refine ⟨fun bs v hb hv => hP bs v (hb.trans (List.prefix_append ..)) hv, ?_⟩
    exact hP _ u (List.prefix_refl _) (exec_concat.2 ⟨t, h, ha⟩)
  · rintro ⟨hP, hu⟩ bs v hb hv
    rcases List.prefix_concat_iff.1 hb with rfl | hb
    · obtain ⟨t', ht', ha'⟩ := exec_concat.1 hv
      rw [h] at ht'
      cases ht'
      rw [ha] at ha'
      cases ha'
      exact hu
    · exact hP bs v hb hv

/-- A run that keeps to `G` passes only through states with `P`, when `G` keeps the invariant `I` that gives `P`. -/
theorem throughout_of_along {P I : σ → Prop} {G : σ → α → Prop} {s : σ} (hI : ∀ t, I t → P t) (h0 : I s)
    (hkeep : ∀ t a u, Reachable step s t → step t a = some u → G t a → I t → I u) {as : List α}
    (hG : Along step G s as) : Throughout step P s as := by
  intro bs v hb hv
  obtain ⟨cs, rfl⟩ := hb
  have hGb := ((along_append hv).1 hG).1
  exact hI v (exec_induction_along h0 hkeep hv hGb)

/-- A run passes only through states with `P` exactly if all its steps keep to `G`, when `G` keeps the invariant
`I` that gives `P`, and when a step against `G` leaves `P` at once. -/
theorem throughout_iff_along {P I : σ → Prop} {G : σ → α → Prop} {s : σ} (hI : ∀ t, I t → P t) (h0 : I s)
    (hkeep : ∀ t a u, Reachable step s t → step t a = some u → G t a → I t → I u)
    (hleave : ∀ t a u, step t a = some u → P u → G t a) {as : List α} {t : σ}
    (h : exec step s as = some t) : Throughout step P s as ↔ Along step G s as := by
  constructor
  · refine exec_induction_trace (I := fun as _ => Throughout step P s as → Along step G s as)
      (fun _ => trivial) ?_ h
    intro as t a u ht ha ih hP
    obtain ⟨hP, hu⟩ := (Throughout.concat ht ha).1 hP
    exact (along_concat ht ha).2 ⟨ih hP, hleave t a u ha hu⟩
  · exact throughout_of_along hI h0 hkeep

end Exec
