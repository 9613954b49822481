import LearnTogether.Base.Exec
import LearnTogether.Counter.Call
import Mathlib.Logic.Function.Basic

/-!
# What the counter is for

One counter that is changed in a single place, one addition at a time, and that nobody else sees.  A client invokes a
call and is answered once.  The addition of a `fetch_add` is taken at most once, and if the call succeeds it is taken
between the two; the success gives the value just before it.  What the service does not promise is visible here, too:
an addition that was refused may be taken after the refusal, and a `get` may give any value that the counter has had.
-/

namespace LearnTogether

/-- What the clients see of the calls. -/
inductive Visible (ι : Type)
  | invoke (id : ι) (request : Request)
  | answer (id : ι) (response : CounterResponse)
  deriving DecidableEq

/-- A counter with the values that it has had, the requests, and the value just before the addition of each call. -/
structure AtomicCounter (ι : Type) where
  value : Int64 := 0
  values : List Int64 := [0]
  asked : ι → Option Request := fun _ => none
  taken : ι → Option Int64 := fun _ => none
  history : List (Visible ι) := []

inductive AtomicAct (ι : Type)
  | invoke (id : ι) (request : Request)
  | take (id : ι)
  | answer (id : ι) (response : CounterResponse)
  deriving DecidableEq

namespace AtomicCounter

variable {ι : Type} [DecidableEq ι]

/-- The call was answered. -/
def answered (s : AtomicCounter ι) (id : ι) : Bool :=
  s.history.any fun
    | .answer i _ => decide (i = id)
    | .invoke _ _ => false

/-- The call was answered with a refusal. -/
def refused (s : AtomicCounter ι) (id : ι) : Bool :=
  s.history.any fun
    | .answer i response => decide (i = id) && decide (response.success = some false)
    | .invoke _ _ => false

/-- A value that a success may have. -/
def gives (s : AtomicCounter ι) (id : ι) : Request → Int64 → Bool
  | .fetchAdd _, v => decide (s.taken id = some v)
  | .get, v => decide (v ∈ s.values)

def allows (s : AtomicCounter ι) (id : ι) (request : Request) (response : CounterResponse) : Bool :=
  match response.success, response.value with
  | some true, some v => response.redirect.isNone && s.gives id request v
  | some false, none => true
  | _, _ => false

def step (s : AtomicCounter ι) : AtomicAct ι → Option (AtomicCounter ι)
  | .invoke id request =>
    match s.asked id with
    | none =>
      some { s with
        asked := Function.update s.asked id (some request)
        history := s.history ++ [.invoke id request] }
    | some _ => none
  | .take id =>
    match s.asked id, s.taken id with
    | some (.fetchAdd request), none =>
      -- after its answer only a refused addition is taken
      if s.answered id = true ∧ s.refused id = false then none
      else
        some { s with
          value := s.value + request.value
          values := s.values ++ [s.value + request.value]
          taken := Function.update s.taken id (some s.value) }
    | _, _ => none
  | .answer id response =>
    match s.asked id with
    | some request =>
      if s.answered id = false ∧ s.allows id request response = true then
        some { s with history := s.history ++ [.answer id response] }
      else none
    | none => none

/-- The counter before any call. -/
def init : AtomicCounter ι := {}

theorem answered_eq_false {s : AtomicCounter ι} {id : ι} (h : ∀ response, Visible.answer id response ∉ s.history) :
    s.answered id = false := by
  unfold answered
  rw [List.any_eq_false]
  intro e he
  cases e with
  | invoke i request => simp
  | answer i response =>
    have hne : i ≠ id := by
      rintro rfl
      exact h response he
    simp [hne]

theorem refused_of_answered {s : AtomicCounter ι} {id : ι}
    (h : ∀ response, Visible.answer id response ∈ s.history → response.success = some false)
    (ha : s.answered id = true) : s.refused id = true := by
  obtain ⟨e, he, hd⟩ := List.any_eq_true.1 ha
  cases e with
  | invoke i request => cases hd
  | answer i response =>
    obtain rfl : i = id := of_decide_eq_true hd
    exact List.any_eq_true.2 ⟨_, he, by simp [h response he]⟩

end AtomicCounter

end LearnTogether
