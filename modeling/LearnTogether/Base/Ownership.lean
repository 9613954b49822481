import Mathlib.Logic.Equiv.Basic
import Mathlib.Logic.Function.Basic

/-!
# Cells with one owner

A store has cells, and holders that each hold at most one cell.  It is sound when a cell is held by exactly one holder
as long as it is there: then no holder is left with a cell that is gone, and no cell is left without a holder.  To get
a cell, to give it up, to write it and to exchange it with another holder keeps a store sound, and what the holders
have changes for those that take part and for nobody else.
-/

namespace Ownership

variable {H A V : Type*}

/-- `H` are the holders, `A` the addresses, `V` what a cell contains. -/
@[ext]
structure Store (H A V : Type*) where
  cells : A → Option V
  holds : H → Option A

structure Sound (s : Store H A V) : Prop where
  live : ∀ {h a}, s.holds h = some a → s.cells a ≠ none
  single : ∀ {h k a}, s.holds h = some a → s.holds k = some a → h = k
  held : ∀ {a}, s.cells a ≠ none → ∃ h, s.holds h = some a

namespace Store

/-- What a holder has. -/
def value (s : Store H A V) (h : H) : Option V := (s.holds h).bind s.cells

/-- The holder `h` gets the new cell `a`. -/
def alloc [DecidableEq H] [DecidableEq A] (s : Store H A V) (h : H) (a : A) (v : V) : Store H A V :=
  ⟨Function.update s.cells a (some v), Function.update s.holds h (some a)⟩

/-- The holder `h` gives up the cell `a`. -/
def free [DecidableEq H] [DecidableEq A] (s : Store H A V) (h : H) (a : A) : Store H A V :=
  ⟨Function.update s.cells a none, Function.update s.holds h none⟩

def write [DecidableEq A] (s : Store H A V) (a : A) (v : V) : Store H A V :=
  { s with cells := Function.update s.cells a (some v) }

def swap [DecidableEq H] (s : Store H A V) (h k : H) : Store H A V :=
  { s with holds := fun l => s.holds (Equiv.swap h k l) }

end Store

open Store

variable {s : Store H A V} {h k : H} {a : A} {v : V}

theorem value_of_holds (hh : s.holds h = some a) : s.value h = s.cells a := by
  unfold value
  rw [hh]
  rfl

theorem value_of_none (hh : s.holds h = none) : s.value h = none := by
  unfold value
  rw [hh]
  rfl

/-- Another holder has another cell. -/
private theorem Sound.ne (hs : Sound s) (hh : s.holds h = some a) (hk : k ≠ h) : s.holds k ≠ some a :=
  fun hka => hk (hs.single hka hh)

/-- A cell that is not there is held by nobody. -/
private theorem Sound.ne_of_free (hs : Sound s) (ha : s.cells a = none) : s.holds k ≠ some a :=
    fun hka => hs.live hka ha

section Swap

variable [DecidableEq H]

theorem value_swap (s : Store H A V) (h k l : H) : (s.swap h k).value l = s.value (Equiv.swap h k l) := rfl

theorem Sound.swap (hs : Sound s) (h k : H) : Sound (s.swap h k) where
  live hl := hs.live hl
  single hl hm := (Equiv.swap h k).injective (hs.single hl hm)
  held {b} hb := by
    obtain ⟨l, hl⟩ := hs.held hb
    refine ⟨Equiv.swap h k l, ?_⟩
    simp only [Store.swap, Equiv.swap_apply_self]
    exact hl

/-- To hand a cell over is to exchange it with nothing. -/
theorem swap_eq_update (hh : s.holds h = some a) (hk : s.holds k = none) :
    s.swap h k = { s with holds := Function.update (Function.update s.holds h none) k (some a) } := by
  refine Store.ext rfl (funext fun l => ?_)
  simp only [Store.swap]
  by_cases hl : l = k
  · rw [hl, Function.update_self, Equiv.swap_apply_right, hh]
  · rw [Function.update_of_ne hl]
    by_cases hlh : l = h
    · rw [hlh, Function.update_self, Equiv.swap_apply_left, hk]
    · rw [Function.update_of_ne hlh, Equiv.swap_apply_of_ne_of_ne hlh hl]

end Swap

variable [DecidableEq A]

/-- A holder of another cell does not see a change of the cell `a`. -/
private theorem bind_update (c : Option V) {b : Option A} (hb : b ≠ some a) :
    b.bind (Function.update s.cells a c) = b.bind s.cells := by
  cases b with
  | none => rfl
  | some b =>
    have hba : b ≠ a := fun h => hb (by rw [h])
    exact Function.update_of_ne hba ..

theorem Sound.write (hs : Sound s) (hh : s.holds h = some a) : Sound (s.write a v) where
  live {k b} hk := by
    simp only [Store.write]
    by_cases hb : b = a
    · rw [hb, Function.update_self]
      exact Option.some_ne_none v
    · rw [Function.update_of_ne hb]
      exact hs.live hk
  single hk hl := hs.single hk hl
  held {b} hb := by
    by_cases hba : b = a
    · exact ⟨h, by rw [hba]; exact hh⟩
    · simp only [Store.write, Function.update_of_ne hba] at hb
      exact hs.held hb

variable [DecidableEq H]

theorem value_write (hs : Sound s) (hh : s.holds h = some a) :
    (s.write a v).value = Function.update s.value h (some v) := by
  funext k
  by_cases hk : k = h
  · subst hk
    simp [value, write, hh]
  · simp only [value, write, Function.update_of_ne hk]
    exact bind_update _ (hs.ne hh hk)

/-! ### A new cell -/

theorem value_alloc (hs : Sound s) (ha : s.cells a = none) :
    (s.alloc h a v).value = Function.update s.value h (some v) := by
  funext k
  by_cases hk : k = h
  · subst hk
    simp [value, alloc]
  · simp only [value, alloc, Function.update_of_ne hk]
    exact bind_update _ (hs.ne_of_free ha)

theorem Sound.alloc (hs : Sound s) (ha : s.cells a = none) (hh : s.holds h = none) : Sound (s.alloc h a v) where
  live {k b} hk := by
    simp only [Store.alloc] at hk ⊢
    by_cases hb : b = a
    · rw [hb, Function.update_self]
      exact Option.some_ne_none v
    · rw [Function.update_of_ne hb]
      by_cases hkh : k = h
      · rw [hkh, Function.update_self, Option.some.injEq] at hk
        exact absurd hk.symm hb
      · rw [Function.update_of_ne hkh] at hk
        exact hs.live hk
  single {k l b} hk hl := by
    simp only [Store.alloc] at hk hl
    by_cases hkh : k = h <;> by_cases hlh : l = h
    · rw [hkh, hlh]
    · rw [hkh, Function.update_self, Option.some.injEq] at hk
      rw [Function.update_of_ne hlh, ← hk] at hl
      exact absurd hl (hs.ne_of_free ha)
    · rw [hlh, Function.update_self, Option.some.injEq] at hl
      rw [Function.update_of_ne hkh, ← hl] at hk
      exact absurd hk (hs.ne_of_free ha)
    · rw [Function.update_of_ne hkh] at hk
      rw [Function.update_of_ne hlh] at hl
      exact hs.single hk hl
  held {b} hb := by
    simp only [Store.alloc] at hb ⊢
    by_cases hba : b = a
    · exact ⟨h, by rw [hba, Function.update_self]⟩
    · rw [Function.update_of_ne hba] at hb
      obtain ⟨k, hk⟩ := hs.held hb
      have hkh : k ≠ h := by
        rintro rfl
        rw [hh] at hk
        cases hk
      exact ⟨k, by rw [Function.update_of_ne hkh, hk]⟩

/-! ### Giving a cell up -/

theorem value_free (hs : Sound s) (hh : s.holds h = some a) :
    (s.free h a).value = Function.update s.value h none := by
  funext k
  by_cases hk : k = h
  · subst hk
    simp [value, free]
  · simp only [value, free, Function.update_of_ne hk]
    exact bind_update _ (hs.ne hh hk)

theorem Sound.free (hs : Sound s) (hh : s.holds h = some a) : Sound (s.free h a) where
  live {k b} hk := by
    simp only [Store.free] at hk ⊢
    have hkh : k ≠ h := by
      rintro rfl
      rw [Function.update_self] at hk
      cases hk
    rw [Function.update_of_ne hkh] at hk
    have hba : b ≠ a := by
      rintro rfl
      exact hs.ne hh hkh hk
    rw [Function.update_of_ne hba]
    exact hs.live hk
  single {k l b} hk hl := by
    simp only [Store.free] at hk hl
    by_cases hkh : k = h <;> by_cases hlh : l = h
    · rw [hkh, hlh]
    · rw [hkh, Function.update_self] at hk
      cases hk
    · rw [hlh, Function.update_self] at hl
      cases hl
    · rw [Function.update_of_ne hkh] at hk
      rw [Function.update_of_ne hlh] at hl
      exact hs.single hk hl
  held {b} hb := by
    simp only [Store.free] at hb ⊢
    have hba : b ≠ a := by
      rintro rfl
      rw [Function.update_self] at hb
      exact hb rfl
    rw [Function.update_of_ne hba] at hb
    obtain ⟨k, hk⟩ := hs.held hb
    have hkh : k ≠ h := by
      rintro rfl
      rw [hh, Option.some.injEq] at hk
      exact hba hk.symm
    exact ⟨k, by rw [Function.update_of_ne hkh, hk]⟩

end Ownership
