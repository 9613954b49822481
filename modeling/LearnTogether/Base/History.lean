import Mathlib.Data.List.Basic

/-!
# The order of events in a history

A history is the list of the events so far, so what happened first stands first.  `Precedes h a b` says that `b` is
recorded after `a`.  The only new pairs that a new event makes are those with the event itself on the right.
-/

namespace History

variable {ε : Type*}

/-- `b` happened after `a`. -/
def Precedes (h : List ε) (a b : ε) : Prop := [a, b].Sublist h

instance [DecidableEq ε] (h : List ε) (a b : ε) : Decidable (Precedes h a b) :=
  inferInstanceAs (Decidable ([a, b].Sublist h))

theorem Precedes.mem_left {h : List ε} {a b : ε} (hp : Precedes h a b) : a ∈ h := hp.mem (by simp)

theorem Precedes.mem_right {h : List ε} {a b : ε} (hp : Precedes h a b) : b ∈ h := hp.mem (by simp)

theorem precedes_concat {h : List ε} {a b c : ε} : Precedes (h ++ [c]) a b ↔ Precedes h a b ∨ a ∈ h ∧ b = c := by
  unfold Precedes
  constructor
  · intro hp
    obtain ⟨l₁, l₂, hl, h₁, h₂⟩ := List.sublist_append_iff.1 hp
    rcases List.sublist_singleton.1 h₂ with rfl | rfl
    · rw [List.append_nil] at hl
      exact Or.inl (hl ▸ h₁)
    · obtain ⟨hl, hc⟩ := List.append_inj' (show [a] ++ [b] = l₁ ++ [c] from hl) rfl
      subst hl
      exact Or.inr ⟨List.singleton_sublist.1 h₁, List.singleton_inj.1 hc⟩
  · rintro (hp | ⟨ha, rfl⟩)
    · exact hp.trans (List.sublist_append_left ..)
    · exact (List.singleton_sublist.2 ha).append (List.Sublist.refl [b])

theorem Precedes.append {h : List ε} {a b : ε} (hp : Precedes h a b) (l : List ε) : Precedes (h ++ l) a b :=
  hp.trans (List.sublist_append_left ..)

end History
