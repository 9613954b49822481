import LearnTogether.Base.Replay
import Mathlib.Algebra.Ring.Int.Defs

/-!
# Wrapped sums of 64-bit integers

`wrapSum ds` adds the integers of `ds` without bound and then wraps the sum to 64 bits in two's complement.  A
counter that adds the deltas one by one in 64-bit arithmetic holds this value (`stateAt_add`), however often it
wrapped around on the way.
-/

namespace WrapSum

/-- The sum of `ds` over the integers, wrapped to 64 bits. -/
def wrapSum (ds : List Int64) : Int64 := Int64.ofInt (ds.map Int64.toInt).sum

@[simp] theorem wrapSum_nil : wrapSum [] = 0 := rfl

theorem wrapSum_cons (d : Int64) (ds : List Int64) : wrapSum (d :: ds) = d + wrapSum ds := by
  simp [wrapSum, Int64.ofInt_add]

theorem wrapSum_append (ds es : List Int64) : wrapSum (ds ++ es) = wrapSum ds + wrapSum es := by
  simp [wrapSum, Int64.ofInt_add]

private theorem foldl_add (v : Int64) (ds : List Int64) : ds.foldl (· + ·) v = v + wrapSum ds := by
  induction ds generalizing v with
  | nil => simp
  | cons d ds ih => rw [List.foldl_cons, ih, wrapSum_cons, Int64.add_assoc]

/-- Adding the deltas of a log one by one from zero gives the wrapped sum of the deltas. -/
theorem stateAt_add {ε : Type*} (delta : ε → Int64) (log : List ε) (k : Nat) :
    Replay.stateAt (fun v e => v + delta e) 0 log k = wrapSum ((log.take k).map delta) := by
  have h := foldl_add 0 ((log.take k).map delta)
  rw [List.foldl_map, Int64.zero_add] at h
  exact h

/-- The wrapped sum of a slice is the difference of the wrapped sums of two prefixes. -/
theorem wrapSum_take_sub (ds : List Int64) {i j : Nat} (hij : i ≤ j) :
    wrapSum (ds.take j) - wrapSum (ds.take i) = wrapSum ((ds.take j).drop i) := by
  have h := congrArg wrapSum (List.take_append_drop i (ds.take j))
  rw [wrapSum_append, List.take_take, Nat.min_eq_left hij] at h
  rw [← h, Int64.sub_eq_iff_eq_add, Int64.add_comm]

end WrapSum
