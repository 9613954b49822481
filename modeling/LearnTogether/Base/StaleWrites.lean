import LearnTogether.Base.Exec
import Mathlib.Algebra.BigOperators.Fin
import Mathlib.Algebra.Order.BigOperators.Group.Finset

/-!
# Stale writes to a shared register

Workers share a register that holds a rank.  A worker reads the register, is busy for a while, and then drops what it
was doing or writes a rank below the one that it has read.  Others may have written in between, so a late write can
raise the register again, and all workers start over from there.  Still, `n` workers that read a register of rank `k`
write at most `n * weight n k` times in all (`writes_le`).
-/

namespace StaleWrites

open Exec

/-- The register, and for each worker the rank that it has read when it is busy. -/
structure Shared (n : Nat) where
  register : Nat
  busy : Fin n → Option Nat

inductive Act (n : Nat)
  | read (i : Fin n)
  | write (i : Fin n) (rank : Nat)
  | drop (i : Fin n)

namespace Act

variable {n : Nat}

/-- The number of writes. -/
def writes : Act n → Nat
  | .write _ _ => 1
  | .read _ | .drop _ => 0

end Act

/-- What a worker that has read a rank can cost, when there are `n` of them. -/
def weight (n : Nat) : Nat → Nat
  | 0 => 0
  | k + 1 => n * weight n k + 1

variable {n : Nat}

namespace Shared

def idle (n rank : Nat) : Shared n := ⟨rank, fun _ => none⟩

def step (s : Shared n) : Act n → Option (Shared n)
  | .read i =>
    match s.busy i with
    | none => some { s with busy := Function.update s.busy i (some s.register) }
    | some _ => none
  | .write i rank =>
    match s.busy i with
    | some k => if rank < k then some ⟨rank, Function.update s.busy i none⟩ else none
    | none => none
  | .drop i => some { s with busy := Function.update s.busy i none }

/-- What the worker `i` can cost: a busy one goes by what it has read, and all go by the register. -/
def cost (s : Shared n) (i : Fin n) : Nat := weight n (max ((s.busy i).getD 0) s.register)

def potential (s : Shared n) : Nat := ∑ i, s.cost i

end Shared

private theorem weight_mono (n : Nat) : Monotone (weight (n + 1)) := by
  refine monotone_nat_of_le_succ fun k => ?_
  show weight (n + 1) k ≤ (n + 1) * weight (n + 1) k + 1
  rw [Nat.add_mul]
  omega

/-- A sum decreases when one summand pays for what all others gain. -/
private theorem sum_add_le {f g : Fin (n + 1) → Nat} {i : Fin (n + 1)} {c d : Nat}
    (hrest : ∀ j, j ≠ i → g j ≤ f j + d) (hi : c + g i + n * d ≤ f i) : c + ∑ j, g j ≤ ∑ j, f j := by
  have hle : ∑ j ∈ Finset.univ.erase i, g j ≤ ∑ j ∈ Finset.univ.erase i, (f j + d) :=
    Finset.sum_le_sum fun j hj => hrest j (Finset.ne_of_mem_erase hj)
  have hcard : (Finset.univ.erase i).card = n := by
    rw [Finset.card_erase_of_mem (Finset.mem_univ i), Finset.card_univ, Fintype.card_fin]
    rfl
  rw [Finset.sum_add_distrib, Finset.sum_const, hcard, smul_eq_mul] at hle
  have hg := Finset.add_sum_erase Finset.univ g (Finset.mem_univ i)
  have hf := Finset.add_sum_erase Finset.univ f (Finset.mem_univ i)
  omega

/-- Every write is paid for. -/
private theorem potential_step {s t : Shared (n + 1)} {a : Act (n + 1)} (h : s.step a = some t) :
    a.writes + t.potential ≤ s.potential := by
  have hmono := weight_mono n
  cases a with
  | read i =>
    cases hb : s.busy i with
    | some k => simp [Shared.step, hb] at h
    | none =>
      simp only [Shared.step, hb, Option.some.injEq] at h
      subst h
      refine sum_add_le (i := i) (c := 0) (d := 0) (fun j hj => ?_) ?_
      · simp [Shared.cost, hj]
      · simp [Shared.cost, hb]
  | drop i =>
    simp only [Shared.step, Option.some.injEq] at h
    subst h
    refine sum_add_le (i := i) (c := 0) (d := 0) (fun j hj => ?_) ?_
    · simp [Shared.cost, hj]
    · have hle : s.register ≤ max ((s.busy i).getD 0) s.register := Nat.le_max_right ..
      simpa [Shared.cost] using hmono hle
  | write i rank =>
    cases hb : s.busy i with
    | none => simp [Shared.step, hb] at h
    | some k =>
      simp only [Shared.step, hb] at h
      by_cases hk : rank < k
      · rw [if_pos hk, Option.some.injEq] at h
        subst h
        refine sum_add_le (i := i) (c := 1) (d := weight (n + 1) rank) (fun j hj => ?_) ?_
        · -- the write may have raised the register for the others
          have hcost : s.cost j = weight (n + 1) (max ((s.busy j).getD 0) s.register) := rfl
          simp only [Shared.cost, Function.update_of_ne hj]
          by_cases hr : rank ≤ (s.busy j).getD 0
          · rw [Nat.max_eq_left hr]
            have hle : weight (n + 1) ((s.busy j).getD 0) ≤ s.cost j := hmono (Nat.le_max_left ..)
            omega
          · rw [Nat.max_eq_right (by omega)]
            omega
        · have hle : weight (n + 1) (rank + 1) ≤ s.cost i := by
            refine hmono ?_
            rw [hb, Option.getD_some]
            omega
          have hw : weight (n + 1) (rank + 1) = (n + 1) * weight (n + 1) rank + 1 := rfl
          have hi : Shared.cost ⟨rank, Function.update s.busy i none⟩ i = weight (n + 1) rank := by
            simp [Shared.cost]
          rw [hw, Nat.add_mul] at hle
          rw [hi]
          omega
      · rw [if_neg hk] at h
        cases h

/-- However the workers take turns, they write only so often. -/
theorem writes_le {rank : Nat} {as : List (Act n)} {s : Shared n} (h : exec Shared.step (.idle n rank) as = some s) :
    (as.map Act.writes).sum ≤ n * weight n rank := by
  cases n with
  | zero =>
    cases as with
    | nil => simp
    | cons a as => exact (match a with | .read i | .write i _ | .drop i => i.elim0)
  | succ n =>
    have hsum := sum_cost_le (fun _ _ _ => potential_step) h
    have hidle : (Shared.idle (n + 1) rank).potential = (n + 1) * weight (n + 1) rank := by
      simp [Shared.potential, Shared.cost, Shared.idle]
    omega

end StaleWrites
