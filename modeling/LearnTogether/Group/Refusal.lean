import LearnTogether.Group.Ledger

/-!
# Refused additions

A `fetch_add` whose handler returns with `done_guard` still holding `done` has handed nothing to braft, and never
will, so a refusal that the handler gives is final.  A refusal by `FetchAddClosure::Run` says only that this node gave
the entry up: the entry may be replicated already, and the next leader may commit it (`lostLeadership`).  What remains
true is that a call adds its delta at most once, and not at all if its entry was gone when it was answered.
-/

namespace LearnTogether

namespace Call

variable {P : Type} {rt : Runtime P}

private theorem step_working {c : Counter} {call call' : Call} {a : CallAct P} (h : call.step rt c a = some call')
    (hw : call.working = false) : call'.working = false := by
  have hne : ∀ {hd : Handler}, call.handler = hd → hd ≠ .leaving → hd ≠ .gone → False := by
    intro hd hh h₁ h₂
    rw [Call.working, hh] at hw
    cases hd with
    | leaving => exact h₁ rfl
    | gone => exact h₂ rfl
    | _ => cases hw
  cases step_outcome h with
  | notLeader hh | passed hh | getPassed hh | getRefused hh | redirect hh | serialized hh | notSerialized hh
  | apply hh | load hh => exact (hne hh (by simp) (by simp)).elim
  | leave => rfl
  | fail | run | runRedirect | finish => exact hw

private theorem Moves.working {c : Counter} {call call' : Call} (h : Moves rt c call call')
    (hw : call.working = false) : call'.working = false := by
  rcases h with rfl | ⟨a, hs⟩ | ⟨_, rfl⟩
  · exact hw
  · exact step_working hs hw
  · exact hw

/-- The step that runs `done` leaves no work for the handler. -/
private theorem working_of_answer {c : Counter} {call call' : Call} {a : CallAct P} (h : call.step rt c a = some call')
    (ho : call.Owned rt) (hd : call.doneRuns < call'.doneRuns) : call'.working = false := by
  cases step_outcome h with
  | leave => rfl
  | finish hc => exact (ho.held (by rw [hc]; rfl)).2.2
  | _ => exact absurd hd (Nat.lt_irrefl _)

/-- `done_guard` is released when the closure is made. -/
private theorem guard_step {c : Counter} {call call' : Call} {a : CallAct P} (h : call.step rt c a = some call')
    (hi : call.guard = true → call.closure = .none) : call'.guard = true → call'.closure = .none := by
  cases step_outcome h with
  | apply | leave => nofun
  | fail hc | run hc | runRedirect hc | finish hc =>
    intro hg
    rw [hi hg] at hc
    cases hc
  | _ => exact hi

private theorem guard_onApply {call : Call} {task : Task} (hc : call.closure = .inBraft task) (prev : Int64)
    (hi : call.guard = true → call.closure = .none) :
    (call.onApply prev).guard = true → (call.onApply prev).closure = .none := by
  intro hg
  rw [hi hg] at hc
  cases hc

end Call

namespace Group

variable {P : Type}

/-- The call is over for the handler: it will not hand over a task any more. -/
def Spent (g : Group P) (id : P × Nat) : Prop :=
  id.2 < (g.servers id.1).nextCall ∧ ∀ call, g.callOf id = some call → call.working = false

/-- The call `id` of `fetch_add` was answered with `success = false`. -/
structure Refused (g : Group P) (id : P × Nat) (response : CounterResponse) : Prop where
  invoked : ∃ request k, Event.invoke id (.fetchAdd request) k ∈ g.history
  answered : Event.answer id response ∈ g.history
  refused : response.success = some false

variable [DecidableEq P] {rt : Runtime P} {g g' : Group P} {act : GroupAct P}

def entriesOf (g : Group P) (id : P × Nat) : List (Entry P) := g.log.filter fun e => decide (e.owner = id)

private theorem Change.spent (h : Change rt g act g') (hn : ∀ n, (g.servers n).nextCall ≤ (g'.servers n).nextCall)
    {id : P × Nat} (hs : g.Spent id) : g'.Spent id := by
  refine ⟨Nat.lt_of_lt_of_le hs.1 (hn id.1), fun call' hc' => ?_⟩
  rcases h.callOf hc' with ⟨call, hc, hm⟩ | ⟨hid, _⟩
  · exact hm.working (hs.2 call hc)
  · have := hs.1
    omega

/-- A call that is spent gets no new entry. -/
private theorem Change.entries_of_spent (h : Change rt g act g') {e : Entry P} (hs : g.Spent e.owner)
    (he : e ∈ g'.entries) : e ∈ g.entries := by
  rcases h.mem_entries he with he | ⟨_, call, term, hc, hh⟩
  · exact he
  · have hw := hs.2 call hc
    simp [Call.working, hh] at hw

private theorem reachable_spent (h : Exec.Reachable (step rt) init g) {id : P × Nat} {response : CounterResponse}
    (ha : Event.answer id response ∈ g.history) : g.Spent id := by
  refine Exec.Reachable.induction (I := fun g => ∀ id response, Event.answer id response ∈ g.history → g.Spent id)
    ?_ ?_ h id response ha
  · simp [init]
  · intro t act u hr hst hi id response ha
    have hc := step_change hst
    have hn := step_nextCall hst
    rcases hc.mem_answer ha with ha | ⟨a, call, call', hcall, hs, _, hd, hcall', _⟩
    · exact hc.spent hn (hi id response ha)
    · -- `done` was held by the guard or by the closure, and in both cases the handler has done its work
      refine ⟨Nat.lt_of_lt_of_le (lt_nextCall_of_callOf hr hcall) (hn id.1), fun call'' hc'' => ?_⟩
      rw [hcall'] at hc''
      cases hc''
      exact Call.working_of_answer hs (reachable_owned hr hcall) hd

/-- Along a run, a call that is spent keeps at most the entries it has. -/
private theorem entries_of_spent {id : P × Nat} (hs : g.Spent id) (h : Exec.Reachable (step rt) g g') :
    ∀ e ∈ g'.entries, e.owner = id → e ∈ g.entries := by
  have hi : g'.Spent id ∧ ∀ e ∈ g'.entries, e.owner = id → e ∈ g.entries := by
    refine Exec.Reachable.induction (I := fun u => u.Spent id ∧ ∀ e ∈ u.entries, e.owner = id → e ∈ g.entries)
      ⟨hs, fun _ he _ => he⟩ ?_ h
    rintro t act u - hst ⟨ht, hold⟩
    have hc := step_change hst
    refine ⟨hc.spent (step_nextCall hst) ht, fun e he ho => ?_⟩
    subst ho
    exact hold e (hc.entries_of_spent ht he) rfl
  exact hi.2

/-- The handler of the call `id` gave the answer: on the way to `g` it returned with `done_guard` holding `done`. -/
def AnsweredByHandler (rt : Runtime P) (g : Group P) (id : P × Nat) (response : CounterResponse) : Prop :=
  ∃ g₀ g₁ call, Exec.Reachable (step rt) init g₀ ∧ g₀.callOf id = some call ∧ call.guard = true ∧
    call.response = response ∧ step rt g₀ (.node id.1 (.call id.2 .leave)) = some g₁ ∧ Exec.Reachable (step rt) g₁ g

/-- A handler that still holds `done` has handed nothing to braft. -/
private theorem not_proposed_of_guard (h : Exec.Reachable (step rt) init g) {id : P × Nat} {call : Call}
    (hc : g.callOf id = some call) (hg : call.guard = true) : Event.propose id ∉ g.history := by
  have hclosure : call.guard = true → call.closure = .none :=
    reachable_call (fun _ _ => rfl) (fun _ _ _ _ => Call.guard_step)
      (fun _ _ _ prev hcl _ => Call.guard_onApply hcl prev) h hc
  intro hp
  exact ((reachable_recorded h).handed id hp).2 call hc (hclosure hg)

private theorem leaving_of_leave {id : P × Nat} {call : Call} (hc : g.callOf id = some call)
    (h : step rt g (.node id.1 (.call id.2 .leave)) = some g') : call.handler = .leaving := by
  obtain ⟨-, s', hs, -⟩ := step_node h
  cases Server.step_outcome hs with
  | nullNode _ _ ha => cases ha
  | call hc' hst _ =>
    rw [callOf, hc'] at hc
    cases hc
    cases Call.step_outcome hst with
    | leave hh => exact hh

/-- A call that its handler has answered has no entry, and never gets one. -/
private theorem AnsweredByHandler.no_entry {id : P × Nat} {response : CounterResponse}
    (ha : AnsweredByHandler rt g id response) (h : Exec.Reachable (step rt) g g') : ∀ e ∈ g'.entries, e.owner ≠ id := by
  obtain ⟨g₀, g₁, call, hr, hc, hg, -, hst, h₁⟩ := ha
  have hspent : g₀.Spent id := by
    refine ⟨lt_nextCall_of_callOf hr hc, fun call' hc' => ?_⟩
    rw [hc] at hc'
    cases hc'
    rw [Call.working, leaving_of_leave hc hst]
  intro e he ho
  have hold := entries_of_spent hspent (((Exec.Reachable.refl g₀).tail hst).trans (h₁.trans h)) e he ho
  have hp := (reachable_recorded hr).owned e hold
  rw [ho] at hp
  exact not_proposed_of_guard hr hc hg hp

private theorem entriesOf_length (hr : Recorded rt g) (id : P × Nat) : (g.entriesOf id).length ≤ 1 := by
  have hn : ((g.entriesOf id).map Entry.owner).Nodup := (List.filter_sublist.map Entry.owner).nodup hr.log_nodup
  have howner : ∀ e ∈ g.entriesOf id, e.owner = id := fun e he => of_decide_eq_true (List.mem_filter.1 he).2
  rcases hl : g.entriesOf id with _ | ⟨e, _ | ⟨e', l⟩⟩
  · exact Nat.zero_le 1
  · exact Nat.le_refl 1
  · rw [hl] at hn howner
    have heq : e.owner = e'.owner := by rw [howner e (by simp), howner e' (by simp)]
    simp [heq] at hn

private theorem entriesOf_eq_nil {id : P × Nat} (h : ∀ e ∈ g.entries, e.owner ≠ id) : g.entriesOf id = [] := by
  refine List.filter_eq_nil_iff.2 fun e he hd => ?_
  exact h e (List.mem_append_left _ he) (of_decide_eq_true hd)

/-- What a refusal in the state `g` still says in a later state `g'`. -/
structure RefusalHolds (rt : Runtime P) (g g' : Group P) (id : P × Nat) (response : CounterResponse) : Prop where
  /-- The call has added its delta at most once. -/
  atMostOnce : (g'.entriesOf id).length ≤ 1
  /-- It has not added it if the handler gave the answer, that is, was not the leader or could not serialize. -/
  byHandler : AnsweredByHandler rt g id response → g'.entriesOf id = []
  /-- Nor if its entry was neither committed nor proposed any more when it was answered. -/
  gone : (∀ e ∈ g.entries, e.owner ≠ id) → g'.entriesOf id = []
  /-- Another call that sends the request again adds the delta at most once, too, and after a refusal by the handler
  both calls together do. -/
  again : ∀ id', (g'.entriesOf id').length ≤ 1 ∧
    (AnsweredByHandler rt g id response → (g'.entriesOf id ++ g'.entriesOf id').length ≤ 1)

/-- What is left of the finality of a refusal, in every later state of every run. -/
theorem refusalHolds (rt : Runtime P) {g g' : Group P} (h : Exec.Reachable (step rt) init g) {id : P × Nat}
    {response : CounterResponse} (hr : g.Refused id response) (h' : Exec.Reachable (step rt) g g') :
    RefusalHolds rt g g' id response := by
  have hrec' := reachable_recorded (h.trans h')
  have hspent := entries_of_spent (reachable_spent h hr.answered) h'
  have hgone : (∀ e ∈ g.entries, e.owner ≠ id) → g'.entriesOf id = [] := fun hno =>
    entriesOf_eq_nil fun e he ho => hno e (hspent e he ho) ho
  have hhandler : AnsweredByHandler rt g id response → g'.entriesOf id = [] := fun ha =>
    entriesOf_eq_nil (ha.no_entry h')
  refine ⟨entriesOf_length hrec' id, hhandler, hgone, fun id' => ⟨entriesOf_length hrec' id', fun ha => ?_⟩⟩
  rw [hhandler ha, List.nil_append]
  exact entriesOf_length hrec' id'

/-- Node 1 does not lead, and tells the client to ask node 2. -/
def askedFollower : List (GroupAct Nat) :=
  on 1 Server.startUp ++ on 2 Server.startUp ++ lead 2 1 ++
    on 1 [.invoke (.fetchAdd ⟨5⟩), .call 0 .test, .call 0 (.redirect (some 2))]

/-- Node 2 adds 5 and answers. -/
def sentToLeader : List (GroupAct Nat) :=
  on 2 (Server.propose 0 ⟨5⟩) ++ [.commit 0] ++
    on 2 (Server.applyOne (serializeValue 5) (some 0) ++ [.call 0 (.run none), .call 0 .finish])

theorem refusalHolds_askedFollower : ∃ g g' response,
    Exec.exec (step (protobuf Nat.repr)) init (askedFollower ++ on 1 [.call 0 .leave]) = some g ∧
    Refused g (1, 0) response ∧ AnsweredByHandler (protobuf Nat.repr) g (1, 0) response ∧
    (∀ e ∈ g.entries, e.owner ≠ (1, 0)) ∧ Exec.exec (step (protobuf Nat.repr)) g sentToLeader = some g' ∧
    g'.deltas (protobuf Nat.repr) = [5] ∧ RefusalHolds (protobuf Nat.repr) g g' (1, 0) response := by
  obtain ⟨g₀, call, hg₀, hc, hguard, hresp⟩ : ∃ g₀ call,
      Exec.exec (step (protobuf Nat.repr)) init askedFollower = some g₀ ∧ g₀.callOf (1, 0) = some call ∧
      call.guard = true ∧ call.response = ⟨some false, none, some "2"⟩ := ⟨_, _, rfl, rfl, rfl, rfl⟩
  obtain ⟨g, g', hg, hh, hentries, hg', hd⟩ : ∃ g g',
      Exec.exec (step (protobuf Nat.repr)) init (askedFollower ++ on 1 [.call 0 .leave]) = some g ∧
      g.history = [.invoke (1, 0) (.fetchAdd ⟨5⟩) 0, .answer (1, 0) ⟨some false, none, some "2"⟩] ∧
      g.entries = [] ∧ Exec.exec (step (protobuf Nat.repr)) g sentToLeader = some g' ∧
      g'.deltas (protobuf Nat.repr) = [5] := ⟨_, _, rfl, rfl, rfl, rfl, rfl⟩
  have hr : Refused g (1, 0) ⟨some false, none, some "2"⟩ := ⟨⟨⟨5⟩, 0, by simp [hh]⟩, by simp [hh], rfl⟩
  obtain ⟨g₀', hg₀', hst⟩ := Exec.exec_concat.1 hg
  rw [hg₀] at hg₀'
  cases hg₀'
  have ha : AnsweredByHandler (protobuf Nat.repr) g (1, 0) ⟨some false, none, some "2"⟩ :=
    ⟨g₀, g, call, ⟨_, hg₀⟩, hc, hguard, hresp, hst, Exec.Reachable.refl g⟩
  exact ⟨g, g', _, hg, hr, ha, by simp [hentries], hg', hd,
    refusalHolds (protobuf Nat.repr) ⟨_, hg⟩ hr ⟨sentToLeader, hg'⟩⟩

/-- Node 1 leads, replicates the entry of a call that adds 5, and loses the leadership to node 2 before the entry is
committed.  The client is told to ask node 2. -/
def lostLeadership : List (GroupAct Nat) :=
  on 1 Server.startUp ++ on 2 Server.startUp ++ lead 1 1 ++ on 1 (Server.propose 0 ⟨5⟩) ++ lead 2 2 ++
    on 1 [.callback .leaderStop, .call 0 .fail, .call 0 (.run (some 2)), .call 0 .finish]

/-- Node 2 commits the entry, and then the one of the same request sent again. -/
def sentAgain : List (GroupAct Nat) :=
  [.commit 0] ++ on 2 (Server.applyOne (serializeValue 5) none) ++ sentToLeader

/-- The refused call and the one sent again have both added their delta. -/
theorem lostLeadership_added : ∃ g g', Exec.exec (step (protobuf Nat.repr)) init lostLeadership = some g ∧
    Refused g (1, 0) ⟨some false, none, some "2"⟩ ∧ g.entriesOf (1, 0) = [] ∧
    Exec.exec (step (protobuf Nat.repr)) g sentAgain = some g' ∧ g'.entriesOf (1, 0) ≠ [] ∧
    g'.deltas (protobuf Nat.repr) = [5, 5] := by
  refine ⟨_, _, rfl, ⟨⟨⟨5⟩, 0, by decide⟩, by decide, rfl⟩, rfl, rfl, ?_, rfl⟩
  exact List.cons_ne_nil _ _

end Group

end LearnTogether
