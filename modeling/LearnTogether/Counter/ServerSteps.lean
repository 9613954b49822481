import LearnTogether.Counter.Server

/-!
# What a step of the server can do

`Outcome rt s act s'` lists the ways in which the action `act` can lead from `s` to `s'`, each with all that is known
when it happens; every step has one of them (`step_outcome`).  The invariants are proved by cases on the outcome and
do not unfold the step.  Two summaries follow: a property of all calls (`step_calls_induction`) and what can happen to
a given call (`step_call_change`).
-/

namespace LearnTogether.Server

variable {P : Type} {rt : Runtime P} {s s' : Server}

inductive Outcome (rt : Runtime P) (s : Server) : ServerAct P → Server → Prop
  | start {a : StartAct} {start : Start} : s.start.step a = some start →
      Outcome rt s (.start a)
        { s with start, counter := { s.counter with node := s.counter.node || decide (a = .storeNode) } }
  | invoke {request : Request} : Outcome rt s (.invoke request) (s.invoke request)
  | nullNode {id : Nat} {a : CallAct P} {call call' : Call} : s.calls id = some call →
      call.step rt s.counter a = some call' → a.isApply = true → s.counter.node = false →
      Outcome rt s (.call id a) { s with fault := some .nullNode }
  | call {id : Nat} {a : CallAct P} {call call' : Call} : s.calls id = some call →
      call.step rt s.counter a = some call' → (a.isApply = true → s.counter.node = true) →
      Outcome rt s (.call id a) (s.setCall id call')
  | save {i : Nat} {a : SaveAct} {save save' : SnapshotSave} : s.saves[i]? = some save → save.step a = some save' →
      Outcome rt s (.save i a) { s with saves := s.saves.set i save' }
  | applyBegin : s.fsm = .idle → Outcome rt s (.callback .applyBegin) { s with fsm := .applying }
  | applyEnd : Outcome rt s (.callback .applyEnd) { s with fsm := .idle }
  | applyDone {data : Bytes} {id : Nat} {call : Call} {task : Task} {request : FetchAddRequest} :
      s.calls id = some call → call.closure = .inBraft task → call.request = .fetchAdd request →
      Outcome rt s (.callback (.applyNext data (some id)))
        ((s.fetchAddValue request.value).setCall id (call.onApply s.counter.value))
  | applyParse {data : Bytes} {request : FetchAddRequest} : rt.parse data = some request →
      Outcome rt s (.callback (.applyNext data none)) (s.fetchAddValue request.value)
  | applyAbort {data : Bytes} : rt.parse data = none →
      Outcome rt s (.callback (.applyNext data none)) { s with fault := some .check }
  | leaderStart {term : Int} : 0 < term →
      Outcome rt s (.callback (.leaderStart term)) { s with counter := { s.counter with leaderTerm := term } }
  | leaderStop : Outcome rt s (.callback .leaderStop) { s with counter := { s.counter with leaderTerm := -1 } }
  | snapshotSave {b : Bool} : Outcome rt s (.callback (.snapshotSave b))
        { s with saves := s.saves ++ [.onSnapshotSave s.applied s.counter.value b] }
  | load {reader : SnapshotReader} {snap : Snapshot} : s.counter.isLeader = false → reader.file = some snap →
      Outcome rt s (.callback (.snapshotLoad reader))
        { s with counter := { s.counter with value := snap.value }, applied := reader.index }
  | loadFail {reader : SnapshotReader} : Outcome rt s (.callback (.snapshotLoad reader)) s
  | loadAbort {reader : SnapshotReader} : s.counter.isLeader = true →
      Outcome rt s (.callback (.snapshotLoad reader)) { s with fault := some .check }

theorem step_actStep {act : ServerAct P} (h : step rt s act = some s') :
    s.fault = none ∧ s.actStep rt act = some s' := by
  unfold step at h
  cases hf : s.fault with
  | none => exact ⟨rfl, by simpa [hf] using h⟩
  | some f => simp [hf] at h

private theorem callStep_outcome {id : Nat} {a : CallAct P} (h : s.callStep rt id a = some s') :
    Outcome rt s (.call id a) s' := by
  unfold callStep at h
  split at h
  · cases h
  · rename_i call hc
    split at h
    · cases h
    · rename_i call' hs
      split at h
      · rename_i hn
        rw [Bool.and_eq_true, Bool.not_eq_true'] at hn
        cases h
        exact .nullNode hc hs hn.1 hn.2
      · rename_i hn
        rw [Bool.and_eq_true, Bool.not_eq_true', not_and, Bool.not_eq_false] at hn
        cases h
        exact .call hc hs hn

private theorem applyNext_outcome {data : Bytes} {done : Option Nat} (h : s.applyNext rt data done = some s') :
    Outcome rt s (.callback (.applyNext data done)) s' := by
  unfold applyNext at h
  split at h
  · split at h
    · rename_i call hc
      split at h
      · rename_i task request ht hr
        cases h
        exact .applyDone hc ht hr
      · cases h
    · cases h
  · split at h
    · rename_i request hp
      cases h
      exact .applyParse hp
    · rename_i hp
      cases h
      exact .applyAbort hp

private theorem snapshotLoad_outcome (s : Server) (reader : SnapshotReader) :
    Outcome rt s (.callback (.snapshotLoad reader)) (s.snapshotLoad reader) := by
  unfold snapshotLoad Counter.onSnapshotLoad
  cases hl : s.counter.isLeader with
  | true => exact .loadAbort hl
  | false =>
    cases hd : reader.hasData with
    | false => exact .loadFail
    | true =>
      cases hf : reader.file with
      | none => exact .loadFail
      | some snap => exact .load hl hf

private theorem callbackStep_outcome {a : Callback} (h : s.callbackStep rt a = some s') :
    Outcome rt s (.callback a) s' := by
  unfold callbackStep at h
  split at h
  · rename_i hf
    cases h
    exact .applyBegin hf
  · exact applyNext_outcome h
  · cases h
    exact .applyEnd
  · split at h
    · rename_i ht
      cases h
      exact .leaderStart ht
    · cases h
  · cases h
    exact .leaderStop
  · cases h
    exact .snapshotSave
  · cases h
    exact snapshotLoad_outcome s _
  · cases h

theorem step_outcome {act : ServerAct P} (h : step rt s act = some s') : Outcome rt s act s' := by
  have h := (step_actStep h).2
  cases act with
  | start a =>
    obtain ⟨start, hs, rfl⟩ := Option.map_eq_some_iff.1 h
    exact .start hs
  | invoke request =>
    cases h
    exact .invoke
  | call id a => exact callStep_outcome h
  | callback a =>
    simp only [actStep] at h
    split at h
    · exact callbackStep_outcome h
    · cases h
  | save i a =>
    simp only [actStep, saveStep] at h
    split at h
    · cases h
    · rename_i save hi
      obtain ⟨save', hs, rfl⟩ := Option.map_eq_some_iff.1 h
      exact .save hi hs

/-- A property of all calls survives the replacement of one of them. -/
theorem forall_calls_update {Q : Call → Prop} {calls : Nat → Option Call} {i : Nat} {c : Call}
    (hcalls : ∀ id call, calls id = some call → Q call) (hc : Q c) (id : Nat) (call : Call)
    (h : Function.update calls i (some c) id = some call) : Q call := by
  by_cases hi : id = i
  · subst hi
    rw [Function.update_self] at h
    cases h
    exact hc
  · rw [Function.update_of_ne hi] at h
    exact hcalls id call h

/-- A property of calls that a new call has, and that the steps of a call and `on_apply` keep, is kept by every step
of the server for all its calls. -/
theorem step_calls_induction {Q : Call → Prop} (hnew : ∀ request, Q { request })
    (hstep : ∀ (c : Counter) (call : Call) (a : CallAct P) (call' : Call),
      call.step rt c a = some call' → Q call → Q call')
    (happly : ∀ (call : Call) (task : Task) (request : FetchAddRequest) (prev : Int64), call.closure = .inBraft task →
      call.request = .fetchAdd request → Q call → Q (call.onApply prev))
    {act : ServerAct P} (h : step rt s act = some s') (hQ : ∀ id call, s.calls id = some call → Q call) :
    ∀ id call, s'.calls id = some call → Q call := by
  cases step_outcome h with
  | invoke => exact forall_calls_update hQ (hnew _)
  | call hc hs _ => exact forall_calls_update hQ (hstep _ _ _ _ hs (hQ _ _ hc))
  | applyDone hc ht hr => exact forall_calls_update hQ (happly _ _ _ _ ht hr (hQ _ _ hc))
  | _ => exact hQ

/-- The calls that have arrived are numbered below `nextCall`. -/
def Fresh (s : Server) : Prop := ∀ id, s.nextCall ≤ id → s.calls id = none

private theorem fresh_setCall {s : Server} {id : Nat} {call call' : Call} (hs : s.Fresh)
    (hc : s.calls id = some call) : (s.setCall id call').Fresh := by
  intro i hi
  have hne : i ≠ id := by
    rintro rfl
    rw [hs i hi] at hc
    cases hc
  exact (Function.update_of_ne hne _ _).trans (hs i hi)

theorem step_fresh {act : ServerAct P} (h : step rt s act = some s') (hs : s.Fresh) : s'.Fresh := by
  cases step_outcome h with
  | invoke =>
    intro i hi
    have hi : s.nextCall + 1 ≤ i := hi
    exact (Function.update_of_ne (by omega) _ _).trans (hs i (by omega))
  | call hc _ _ => exact fresh_setCall hs hc
  | applyDone hc _ _ => exact fresh_setCall (s := s.fetchAddValue _) hs hc
  | _ => exact hs

/-- What a step of the server can do to a given call. -/
theorem step_call_change {act : ServerAct P} (h : step rt s act = some s') (hs : s.Fresh) {id : Nat} {call : Call}
    (hc : s.calls id = some call) :
    ∃ call', s'.calls id = some call' ∧
      (call' = call ∨ (∃ a, act = .call id a ∧ call.step rt s.counter a = some call') ∨
        ∃ task prev, call.closure = .inBraft task ∧ call' = call.onApply prev) := by
  have hset : ∀ {i : Nat} (c : Call), i ≠ id → Function.update s.calls i (some c) id = some call :=
    fun c hi => by rw [Function.update_of_ne (Ne.symm hi)]; exact hc
  cases step_outcome h with
  | invoke =>
    have hi : s.nextCall ≠ id := fun hi => by rw [hs id (by omega)] at hc; cases hc
    exact ⟨call, hset _ hi, Or.inl rfl⟩
  | @call i a c c' hi hst _ =>
    by_cases he : i = id
    · subst he
      rw [hc] at hi
      cases hi
      exact ⟨c', Function.update_self .., Or.inr (Or.inl ⟨a, rfl, hst⟩)⟩
    · exact ⟨call, hset _ he, Or.inl rfl⟩
  | @applyDone data i c task request hi ht _ =>
    by_cases he : i = id
    · subst he
      rw [hc] at hi
      cases hi
      exact ⟨_, Function.update_self .., Or.inr (Or.inr ⟨task, _, ht, rfl⟩)⟩
    · exact ⟨call, hset _ he, Or.inl rfl⟩
  | _ => exact ⟨call, hc, Or.inl rfl⟩

end LearnTogether.Server
