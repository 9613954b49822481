import Mathlib.Data.List.Basic

/-!
# Replaying a log

A replica of a replicated state machine is a pair of an index and a state.  It agrees with the log when its state is
what the first `index` entries make of the initial state.  Agreement survives the growth of the log, the application
of the next entry, and the replacement of the replica by another one that agrees; two replicas that agree with one
log have equal states at equal indexes.
-/

namespace Replay

variable {σ ε : Type*} (f : σ → ε → σ) (s₀ : σ)

/-- The state after the first `k` entries of the log. -/
def stateAt (log : List ε) (k : Nat) : σ := (log.take k).foldl f s₀

/-- `s` is the state of a replica that has applied the first `k` entries of the log. -/
structure Agrees (log : List ε) (k : Nat) (s : σ) : Prop where
  bound : k ≤ log.length
  state : s = stateAt f s₀ log k

variable {f s₀}

theorem stateAt_succ {log : List ε} {k : Nat} {e : ε} (h : log[k]? = some e) :
    stateAt f s₀ log (k + 1) = f (stateAt f s₀ log k) e := by
  unfold stateAt
  rw [List.take_add_one, h, Option.toList_some, List.foldl_concat]

/-- What is appended to the log does not change the states before it. -/
theorem stateAt_append {log : List ε} {k : Nat} (h : k ≤ log.length) (l : List ε) :
    stateAt f s₀ (log ++ l) k = stateAt f s₀ log k := by
  unfold stateAt; rw [List.take_append_of_le_length h]

theorem Agrees.zero (log : List ε) : Agrees f s₀ log 0 s₀ := ⟨Nat.zero_le _, rfl⟩

theorem Agrees.append {log : List ε} {k : Nat} {s : σ} (h : Agrees f s₀ log k s) (l : List ε) :
    Agrees f s₀ (log ++ l) k s :=
  ⟨by rw [List.length_append]; exact Nat.le_add_right_of_le h.bound, by rw [stateAt_append h.bound]; exact h.state⟩

theorem Agrees.next {log : List ε} {k : Nat} {s : σ} {e : ε} (h : Agrees f s₀ log k s) (he : log[k]? = some e) :
    Agrees f s₀ log (k + 1) (f s e) :=
  ⟨(List.getElem?_eq_some_iff.1 he).1, by rw [stateAt_succ he, h.state]⟩

theorem Agrees.unique {log : List ε} {k : Nat} {s t : σ} (h : Agrees f s₀ log k s) (h' : Agrees f s₀ log k t) :
    s = t := h.state.trans h'.state.symm

end Replay
