import Mathlib.Algebra.BigOperators.Fin

/-!
# A counter behind a lock

Threads add one to a shared variable: a thread takes the lock, loads the variable, stores what it has loaded plus one,
and releases the lock.  Load and store are steps of their own, so it is the lock that keeps additions from being lost:
at any time the value and the additions that are still to come make up the ones that were wanted (`inv_start`,
`inv_step`).
-/

namespace LockedCounter

/-- Where a thread stands: it is `waiting` for the lock when it wants to add one, and has it up to `stored`. -/
inductive Phase
  | outside
  | waiting
  | inside
  | loaded (seen : Int)
  | stored

namespace Phase

/-- The addition is still to come. -/
def pending : Phase → Int
  | .waiting | .inside | .loaded _ => 1
  | .outside | .stored => 0

def holds : Phase → Bool
  | .inside | .loaded _ | .stored => true
  | .outside | .waiting => false

end Phase

structure Shared (n : Nat) where
  holder : Option (Fin n) := none
  value : Int
  phase : Fin n → Phase

inductive Act (n : Nat)
  | want (i : Fin n)
  | lock (i : Fin n)
  | load (i : Fin n)
  | store (i : Fin n)
  | unlock (i : Fin n)

/-- The additions that an action asks for. -/
def Act.wants {n : Nat} : Act n → Int
  | .want _ => 1
  | .lock _ | .load _ | .store _ | .unlock _ => 0

variable {n : Nat}

namespace Shared

def start (n : Nat) (value : Int) : Shared n := { value, phase := fun _ => .outside }

def step (s : Shared n) : Act n → Option (Shared n)
  | .want i =>
    match s.phase i with
    | .outside => some { s with phase := Function.update s.phase i .waiting }
    | _ => none
  | .lock i =>
    match s.phase i, s.holder with
    | .waiting, none => some { s with holder := some i, phase := Function.update s.phase i .inside }
    | _, _ => none
  | .load i =>
    match s.phase i with
    | .inside => some { s with phase := Function.update s.phase i (.loaded s.value) }
    | _ => none
  | .store i =>
    match s.phase i with
    | .loaded seen => some { s with value := seen + 1, phase := Function.update s.phase i .stored }
    | _ => none
  | .unlock i =>
    match s.phase i with
    | .stored => some { s with holder := none, phase := Function.update s.phase i .outside }
    | _ => none

end Shared

/-- What a sum over the threads becomes when one of them changes. -/
theorem sum_update {α : Type*} (f : α → Int) (x : Fin n → α) (i : Fin n) (a : α) :
    ∑ j, f (Function.update x i a j) = (∑ j, f (x j)) - f (x i) + f a := by
  have hnew := Finset.add_sum_erase Finset.univ (fun j => f (Function.update x i a j)) (Finset.mem_univ i)
  have hold := Finset.add_sum_erase Finset.univ (fun j => f (x j)) (Finset.mem_univ i)
  have hrest : ∑ j ∈ Finset.univ.erase i, f (Function.update x i a j) = ∑ j ∈ Finset.univ.erase i, f (x j) :=
    Finset.sum_congr rfl fun j hj => by rw [Function.update_of_ne (Finset.ne_of_mem_erase hj)]
  simp only [Function.update_self] at hnew
  omega

/-- The lock is held by the thread that is inside, a loaded value is the current one, and no addition is lost. -/
structure Inv (s : Shared n) (wanted : Int) : Prop where
  holder : ∀ i, (s.phase i).holds = true ↔ s.holder = some i
  seen : ∀ {i v}, s.phase i = .loaded v → v = s.value
  count : s.value + ∑ i, (s.phase i).pending = wanted

theorem inv_start (n : Nat) (value : Int) : Inv (.start n value) value := by
  refine ⟨fun i => by simp [Shared.start, Phase.holds], fun h => by simp [Shared.start] at h, ?_⟩
  simp [Shared.start, Phase.pending]

/-- No two threads have the lock. -/
private theorem Inv.exclusive {s : Shared n} {wanted : Int} (hs : Inv s wanted) {i j : Fin n}
    (hi : (s.phase i).holds = true) (hj : (s.phase j).holds = true) : i = j := by
  have hi' := (hs.holder i).1 hi
  have hj' := (hs.holder j).1 hj
  rw [hi'] at hj'
  exact Option.some.inj hj'

/-- The invariant when the thread `i` goes on to the phase `p`. -/
private theorem Inv.goto {s : Shared n} {wanted d : Int} (hs : Inv s wanted) (i : Fin n) {p : Phase} {value : Int}
    {holder : Option (Fin n)} (hself : p.holds = true ↔ holder = some i)
    (hothers : ∀ j, j ≠ i → (s.holder = some j ↔ holder = some j))
    (hseen : ∀ {j v}, j ≠ i → s.phase j = .loaded v → v = value) (hown : ∀ {v}, p = .loaded v → v = value)
    (hcount : value + p.pending = s.value + (s.phase i).pending + d) :
    Inv ⟨holder, value, Function.update s.phase i p⟩ (wanted + d) where
  holder j := by
    by_cases hj : j = i
    · subst hj
      simp only [Function.update_self]
      exact hself
    · simp only [Function.update_of_ne hj]
      exact (hs.holder j).trans (hothers j hj)
  seen {j v} h := by
    by_cases hj : j = i
    · subst hj
      simp only [Function.update_self] at h
      exact hown h
    · simp only [Function.update_of_ne hj] at h
      exact hseen hj h
  count := by
    have hsum := sum_update Phase.pending s.phase i p
    have hold := hs.count
    show value + ∑ j, (Function.update s.phase i p j).pending = wanted + d
    omega

theorem inv_step {s t : Shared n} {a : Act n} {wanted : Int} (h : s.step a = some t) (hs : Inv s wanted) :
    Inv t (wanted + a.wants) := by
  have hsame : ∀ {i j v}, j ≠ i → s.phase j = .loaded v → v = s.value := fun _ => hs.seen
  cases a with
  | want i =>
    cases hp : s.phase i with
    | outside =>
      simp only [Shared.step, hp, Option.some.injEq] at h
      have hno := hs.holder i
      rw [hp] at hno
      rw [← h]
      exact hs.goto i (by simpa [Phase.holds] using hno) (fun _ _ => Iff.rfl) hsame (by simp)
        (by simp [hp, Phase.pending, Act.wants])
    | waiting | inside | loaded seen | stored => simp [Shared.step, hp] at h
  | lock i =>
    cases hp : s.phase i with
    | waiting =>
      cases hh : s.holder with
      | some j => simp [Shared.step, hp, hh] at h
      | none =>
        simp only [Shared.step, hp, hh, Option.some.injEq] at h
        rw [← h]
        refine hs.goto i (by simp [Phase.holds]) (fun j hj => ?_) hsame (by simp)
          (by simp [hp, Phase.pending, Act.wants])
        rw [hh]
        simp [Ne.symm hj]
    | outside | inside | loaded seen | stored => simp [Shared.step, hp] at h
  | load i =>
    cases hp : s.phase i with
    | inside =>
      simp only [Shared.step, hp, Option.some.injEq] at h
      have hheld := (hs.holder i).1 (by rw [hp]; rfl)
      rw [← h]
      exact hs.goto i (by simp [Phase.holds, hheld]) (fun _ _ => Iff.rfl) hsame (by simp)
        (by simp [hp, Phase.pending, Act.wants])
    | outside | waiting | loaded seen | stored => simp [Shared.step, hp] at h
  | store i =>
    cases hp : s.phase i with
    | loaded seen =>
      simp only [Shared.step, hp, Option.some.injEq] at h
      have hheld : (s.phase i).holds = true := by rw [hp]; rfl
      have hholder := (hs.holder i).1 hheld
      have hv := hs.seen hp
      rw [← h]
      refine hs.goto i (by simp [Phase.holds, hholder]) (fun _ _ => Iff.rfl) (fun {j v} hj hl => ?_) (by simp) ?_
      · -- the lock keeps the others from having loaded
        have hj' : (s.phase j).holds = true := by rw [hl]; rfl
        exact absurd (hs.exclusive hj' hheld) hj
      · simp [hp, Phase.pending, Act.wants, hv]
    | outside | waiting | inside | stored => simp [Shared.step, hp] at h
  | unlock i =>
    cases hp : s.phase i with
    | stored =>
      simp only [Shared.step, hp, Option.some.injEq] at h
      have hholder := (hs.holder i).1 (by rw [hp]; rfl)
      rw [← h]
      refine hs.goto i (by simp [Phase.holds]) (fun j hj => ?_) hsame (by simp)
        (by simp [hp, Phase.pending, Act.wants])
      rw [hholder]
      simp [Ne.symm hj]
    | outside | waiting | inside | loaded seen => simp [Shared.step, hp] at h

end LockedCounter
