import LearnTogether.Base.History
import LearnTogether.Counter.Answer
import LearnTogether.Group.Steps
import Mathlib.Data.List.Perm.Basic

/-!
# Calls, proposals and entries

The ledger of a group is what ties the calls to the log: the history, the entries that are proposed or committed, and
the states of the calls on all nodes.  `Change` lists what a step can do to it; all steps that only concern one node
fall together.  The invariants say that a call is invoked once, hands over at most one task, and that the entry of the
task carries the bytes of the call's request.
-/

namespace LearnTogether

namespace Call

variable {P : Type} {rt : Runtime P}

/-- What the handler has serialized are the bytes of the request, and only a `get` is answered by a load. -/
structure Typed (rt : Runtime P) (call : Call) : Prop where
  serialized : ∀ term log, call.handler = .serialized term log →
    ∃ request, call.request = .fetchAdd request ∧ log = rt.serialize request
  leading : call.handler = .leading → call.request = .get
  handed : call.closure ≠ .none → ∃ request, call.request = .fetchAdd request

private theorem typed_new (request : Request) : Typed rt { request } :=
  ⟨nofun, nofun, fun hc => absurd rfl hc⟩

private theorem step_request {c : Counter} {call call' : Call} {a : CallAct P} (h : call.step rt c a = some call') :
    call'.request = call.request := by
  cases step_outcome h <;> rfl

private theorem typed_step {c : Counter} {call call' : Call} {a : CallAct P} (h : call.step rt c a = some call')
    (ht : Typed rt call) : Typed rt call' := by
  cases step_outcome h with
  | notLeader | passed | redirect | notSerialized | load | leave | getRefused =>
    exact ⟨nofun, nofun, ht.handed⟩
  | getPassed _ hr => exact ⟨nofun, fun _ => hr, ht.handed⟩
  | serialized _ hr =>
    refine ⟨fun term log hh => ?_, nofun, ht.handed⟩
    cases hh
    exact ⟨_, hr, rfl⟩
  | apply hh =>
    obtain ⟨request, hr, -⟩ := ht.serialized _ _ hh
    exact ⟨nofun, nofun, fun _ => ⟨request, hr⟩⟩
  | fail hc | run hc | runRedirect hc | finish hc =>
    exact ⟨ht.serialized, ht.leading, fun _ => ht.handed (by rw [hc]; nofun)⟩

/-- What one step of the group does to a call that has arrived. -/
def Moves (rt : Runtime P) (c : Counter) (call call' : Call) : Prop :=
  call' = call ∨ (∃ a, call.step rt c a = some call') ∨ (call.pending = true ∧ call' = call.onApply c.value)

theorem Moves.request {c : Counter} {call call' : Call} (h : Moves rt c call call') :
    call'.request = call.request := by
  rcases h with rfl | ⟨a, hs⟩ | ⟨_, rfl⟩
  · rfl
  · exact step_request hs
  · rfl

/-- The closure of a call stays what it is, a closure. -/
private theorem Moves.closure {c : Counter} {call call' : Call} (h : Moves rt c call call')
    (hc : call.closure ≠ .none) : call'.closure ≠ .none := by
  rcases h with rfl | ⟨a, hs⟩ | ⟨_, rfl⟩
  · exact hc
  · cases step_outcome hs with
    | apply | fail | run | runRedirect | finish => nofun
    | _ => exact hc
  · nofun

/-- Apart from `on_apply` and the load of a `get`, only refusals are written into a response. -/
private theorem step_response {c : Counter} {call call' : Call} {a : CallAct P} (h : call.step rt c a = some call') :
    call'.response = call.response ∨ call'.response.success = some false ∨
      (a = .load ∧ call.handler = .leading ∧ call'.response.value = some c.value) := by
  have hr : ∀ leader, (c.redirect rt leader call.response).success = some false := by
    intro leader
    unfold Counter.redirect
    cases c.node <;> cases leader <;> rfl
  cases step_outcome h with
  | redirect | runRedirect => exact Or.inr (Or.inl (hr _))
  | notSerialized => exact Or.inr (Or.inl rfl)
  | load hh => exact Or.inr (Or.inr ⟨rfl, hh, rfl⟩)
  | _ => exact Or.inl rfl

end Call

namespace Group

variable {P : Type}

/-- The state of a call, `none` before it arrives and after its node was restarted. -/
def callOf (g : Group P) (id : P × Nat) : Option Call := (g.servers id.1).calls id.2

/-- The entries that are committed or may still be. -/
def entries (g : Group P) : List (Entry P) := g.log ++ g.proposed

structure Recorded (rt : Runtime P) (g : Group P) : Prop where
  /-- Calls are invoked once, under numbers that the node has given out. -/
  numbered : ∀ id request k, Event.invoke id request k ∈ g.history → id.2 < (g.servers id.1).nextCall
  once : ∀ id request k request' k', Event.invoke id request k ∈ g.history →
    Event.invoke id request' k' ∈ g.history → request = request' ∧ k = k'
  bound : ∀ id request k, Event.invoke id request k ∈ g.history → k ≤ g.log.length
  arrived : ∀ id call, g.callOf id = some call → ∃ k, Event.invoke id call.request k ∈ g.history
  answered : ∀ id response, Event.answer id response ∈ g.history →
    ∃ request k, Event.invoke id request k ∈ g.history
  /-- A call that has handed over its task has its closure. -/
  handed : ∀ id, Event.propose id ∈ g.history → id.2 < (g.servers id.1).nextCall ∧
    ∀ call, g.callOf id = some call → call.closure ≠ .none
  /-- Entries come from the tasks, and carry the bytes of the request. -/
  owned : ∀ e ∈ g.entries, Event.propose e.owner ∈ g.history
  data : ∀ e ∈ g.entries, ∃ request k, Event.invoke e.owner (.fetchAdd request) k ∈ g.history ∧
    e.data = rt.serialize request
  nodup : (g.entries.map Entry.owner).Nodup

/-- The call has the response, a success, or was answered with it. -/
def Got (g : Group P) (id : P × Nat) (request : Request) (response : CounterResponse) : Prop :=
  response.success = some true ∧ ((∃ call, g.callOf id = some call ∧ call.request = request ∧
    call.response = response) ∨ ((∃ k, Event.invoke id request k ∈ g.history) ∧ Event.answer id response ∈ g.history))

/-- A call that has serialized its request has not handed over a task. -/
private theorem Recorded.not_proposed {rt : Runtime P} {g : Group P} (hi : Recorded rt g) {id : P × Nat} {call : Call}
    {term : Int} {log : Bytes} (hc : g.callOf id = some call) (ho : call.Owned rt)
    (hh : call.handler = .serialized term log) : Event.propose id ∉ g.history := by
  intro hp
  have hn := (hi.handed id hp).2 call hc
  exact hn (ho.working (by simp [Call.working, hh])).2.1

theorem Recorded.log_nodup {rt : Runtime P} {g : Group P} (hi : Recorded rt g) : (g.log.map Entry.owner).Nodup := by
  have h := hi.nodup
  rw [entries, List.map_append] at h
  exact (List.nodup_append.1 h).1

/-- A call that has got something was invoked. -/
theorem Got.invoked {rt : Runtime P} {g : Group P} (hr : Recorded rt g) {id : P × Nat} {request : Request}
    {response : CounterResponse} (hgot : g.Got id request response) : ∃ k, Event.invoke id request k ∈ g.history := by
  obtain ⟨-, ⟨call, hc, rfl, -⟩ | ⟨hk, -⟩⟩ := hgot
  · exact hr.arrived id call hc
  · exact hk

variable [DecidableEq P] {rt : Runtime P} {g g' : Group P} {act : GroupAct P}

private theorem callOf_setServer {n : P} {s : Server} (hs : s.calls = (g.servers n).calls) :
    (g.setServer n s).callOf = g.callOf := by
  funext id
  unfold callOf
  by_cases h : id.1 = n
  · rw [h, setServer_self, hs]
  · rw [setServer_of_ne _ _ h]

private theorem callOf_setCall {n : P} {s : Server} {i : Nat} {call : Call}
    (hs : s.calls = Function.update (g.servers n).calls i (some call)) :
    (g.setServer n s).callOf = Function.update g.callOf (n, i) (some call) := by
  funext id
  obtain ⟨m, j⟩ := id
  unfold callOf
  by_cases hm : m = n
  · subst hm
    rw [setServer_self, hs]
    by_cases hj : j = i
    · subst hj
      simp
    · rw [Function.update_of_ne hj, Function.update_of_ne (by simpa using hj)]
  · rw [setServer_of_ne _ _ hm, Function.update_of_ne (by simp [hm])]

private theorem update_some {f : P × Nat → Option Call} {i id : P × Nat} {c call : Call}
    (h : Function.update f i (some c) id = some call) : (id = i ∧ call = c) ∨ (id ≠ i ∧ f id = some call) := by
  by_cases hi : id = i
  · subst hi
    rw [Function.update_self] at h
    cases h
    exact Or.inl ⟨rfl, rfl⟩
  · rw [Function.update_of_ne hi] at h
    exact Or.inr ⟨hi, h⟩

/-- What a step of the group can do to the ledger. -/
inductive Change (rt : Runtime P) (g : Group P) (act : GroupAct P) (g' : Group P) : Prop
  /-- no call is changed, though those of a restarted node are lost -/
  | stay : (∀ id call, g'.callOf id = some call → g.callOf id = some call) → g'.history = g.history →
      g'.log = g.log → g'.proposed.Sublist g.proposed → Change rt g act g'
  | invoke (id : P × Nat) (request : Request) : (g.servers id.1).nextCall = id.2 →
      (g'.servers id.1).nextCall = id.2 + 1 → g'.callOf = Function.update g.callOf id (some { request }) →
      g'.history = g.history ++ [.invoke id request g.log.length] → g'.log = g.log → g'.proposed = g.proposed →
      Change rt g act g'
  | call (id : P × Nat) (a : CallAct P) (call call' : Call) : g.callOf id = some call →
      call.step rt (g.servers id.1).counter a = some call' → a ≠ .apply → call'.doneRuns = call.doneRuns →
      g'.callOf = Function.update g.callOf id (some call') → g'.history = g.history → g'.log = g.log →
      g'.proposed = g.proposed → act = .node id.1 (.call id.2 a) → Change rt g act g'
  | propose (id : P × Nat) (call : Call) (term : Int) (log : Bytes) : g.callOf id = some call →
      call.handler = .serialized term log →
      g'.callOf = Function.update g.callOf id (some { call with
        guard := false, closure := .inBraft (Call.task rt term log), handler := .leaving }) →
      g'.history = g.history ++ [.propose id] → g'.log = g.log → g'.proposed = g.proposed ++ [⟨log, id⟩] →
      Change rt g act g'
  | answer (id : P × Nat) (a : CallAct P) (call call' : Call) : g.callOf id = some call →
      call.step rt (g.servers id.1).counter a = some call' → a ≠ .apply → call.doneRuns < call'.doneRuns →
      g'.callOf = Function.update g.callOf id (some call') →
      g'.history = g.history ++ [.answer id call'.response] → g'.log = g.log → g'.proposed = g.proposed →
      act = .node id.1 (.call id.2 a) → Change rt g act g'
  | applied (n : P) (id : Nat) (e : Entry P) (call : Call) : g.Given n id e call →
      g'.callOf = Function.update g.callOf e.owner (some (call.onApply (g.servers n).counter.value)) →
      g'.history = g.history → g'.log = g.log → g'.proposed = g.proposed →
      (∃ data, act = .node n (.callback (.applyNext data (some id)))) → Change rt g act g'
  | commit (i : Nat) (e : Entry P) : g.proposed[i]? = some e → g'.callOf = g.callOf → g'.history = g.history →
      g'.log = g.log ++ [e] → g'.proposed = g.proposed.eraseIdx i → Change rt g act g'

theorem step_change (h : step rt g act = some g') : Change rt g act g' := by
  have hstay : ∀ {n : P} {s : Server}, s.calls = (g.servers n).calls → Change rt g act (g.setServer n s) :=
    fun hs => .stay (fun id call hc => by rwa [callOf_setServer hs] at hc) rfl rfl (List.Sublist.refl _)
  cases step_outcome h with
  | quiet hs => exact hstay hs.calls
  | invoke => exact .invoke (_, _) _ rfl (by rw [setServer_self]; rfl) (callOf_setCall rfl) rfl rfl rfl
  | call hc hs ha hd => exact .call (_, _) _ _ _ hc hs ha hd (callOf_setCall rfl) rfl rfl rfl rfl
  | propose hc hh => exact .propose (_, _) _ _ _ hc hh (callOf_setCall rfl) rfl rfl rfl
  | answer hc hs ha hd => exact .answer (_, _) _ _ _ hc hs ha hd (callOf_setCall rfl) rfl rfl rfl rfl
  | applyDone hg _ => exact .applied _ _ _ _ hg (by rw [hg.owner]; exact callOf_setCall rfl) rfl rfl rfl ⟨_, rfl⟩
  | applyParse | snapshotSave | save | load => exact hstay rfl
  | @store n i save save' =>
    obtain ⟨snapshots, hs⟩ := store_frame g save'
    rw [hs]
    refine .stay (fun id call hc => ?_) rfl rfl (List.Sublist.refl _)
    refine (congrFun (callOf_setServer (g := { g with snapshots }) ?_) id).symm.trans hc
    rfl
  | commit he => exact .commit _ _ he rfl rfl rfl rfl
  | discard => exact .stay (fun _ _ hc => hc) rfl rfl (List.eraseIdx_sublist ..)
  | elect => exact .stay (fun _ _ hc => hc) rfl rfl (List.Sublist.refl _)
  | @restart n =>
    refine .stay (fun id call hc => ?_) rfl rfl (List.Sublist.refl _)
    unfold callOf at hc ⊢
    by_cases hn : id.1 = n
    · rw [hn, setServer_self] at hc
      cases hc
    · rwa [setServer_of_ne _ _ hn] at hc

theorem Change.history (h : Change rt g act g') : ∃ l, g'.history = g.history ++ l := by
  cases h with
  | stay _ hh | call _ _ _ _ _ _ _ _ _ hh | applied _ _ _ _ _ _ hh | commit _ _ _ _ hh => exact ⟨[], by rw [hh]; simp⟩
  | invoke _ _ _ _ _ hh | propose _ _ _ _ _ _ _ hh | answer _ _ _ _ _ _ _ _ _ hh => exact ⟨_, hh⟩

theorem Change.log (h : Change rt g act g') : ∃ l, g'.log = g.log ++ l := by
  cases h with
  | stay _ _ hl | invoke _ _ _ _ _ _ hl | call _ _ _ _ _ _ _ _ _ _ hl | propose _ _ _ _ _ _ _ _ hl
  | answer _ _ _ _ _ _ _ _ _ _ hl | applied _ _ _ _ _ _ _ hl => exact ⟨[], by rw [hl]; simp⟩
  | commit _ _ _ _ _ hl => exact ⟨_, hl⟩

/-- The numbers of the calls are not used again, not even after a restart. -/
theorem step_nextCall (h : step rt g act = some g') (n : P) :
    (g.servers n).nextCall ≤ (g'.servers n).nextCall := by
  have hset : ∀ (g₁ : Group P) (m : P) (s : Server), g₁.servers = g.servers →
      (g.servers m).nextCall ≤ s.nextCall → (g.servers n).nextCall ≤ ((g₁.setServer m s).servers n).nextCall := by
    intro g₁ m s hg hs
    have hle : ∀ m, (g.servers m).nextCall ≤ (g₁.servers m).nextCall := fun m => by simp [hg]
    exact forall_setServer (Q := fun m s => (g.servers m).nextCall ≤ s.nextCall) hle hs n
  cases step_outcome h with
  | quiet hs => exact hset _ _ _ rfl (Nat.le_of_eq hs.nextCall.symm)
  | invoke => exact hset _ _ _ rfl (Nat.le_succ _)
  | @store m i save save' =>
    obtain ⟨snapshots, hs⟩ := store_frame g save'
    rw [hs]
    exact hset _ _ _ rfl (Nat.le_refl _)
  | commit | discard | elect => exact Nat.le_refl _
  | _ => exact hset _ _ _ rfl (Nat.le_refl _)

/-! ### What is new after a step -/

theorem Change.mem_invoke (h : Change rt g act g') {id : P × Nat} {request : Request} {k : Nat}
    (hm : Event.invoke id request k ∈ g'.history) : Event.invoke id request k ∈ g.history ∨
      ((g.servers id.1).nextCall = id.2 ∧ (g'.servers id.1).nextCall = id.2 + 1 ∧ k = g.log.length ∧
        g'.history = g.history ++ [.invoke id request k]) := by
  cases h with
  | stay _ hh | call _ _ _ _ _ _ _ _ _ hh | applied _ _ _ _ _ _ hh | commit _ _ _ _ hh =>
    rw [hh] at hm
    exact Or.inl hm
  | invoke _ _ hn hn' _ hh =>
    rw [hh, List.mem_append, List.mem_singleton] at hm
    rcases hm with hm | hm
    · exact Or.inl hm
    · cases hm
      exact Or.inr ⟨hn, hn', rfl, hh⟩
  | propose _ _ _ _ _ _ _ hh | answer _ _ _ _ _ _ _ _ _ hh =>
    rw [hh] at hm
    exact Or.inl (by simpa using hm)

/-- What precedes an invocation precedes it from the moment of the invocation on. -/
theorem Change.precedes_invoke (h : Change rt g act g') {e : Event P} {id : P × Nat} {request : Request} {k : Nat}
    (hp : History.Precedes g'.history e (.invoke id request k)) :
    History.Precedes g.history e (.invoke id request k) ∨
      (e ∈ g.history ∧ (g.servers id.1).nextCall = id.2 ∧ k = g.log.length) := by
  cases h with
  | stay _ hh | call _ _ _ _ _ _ _ _ _ hh | applied _ _ _ _ _ _ hh | commit _ _ _ _ hh =>
    rw [hh] at hp
    exact Or.inl hp
  | invoke _ _ hn _ _ hh =>
    rw [hh] at hp
    rcases History.precedes_concat.1 hp with hp | ⟨he, hi⟩
    · exact Or.inl hp
    · cases hi
      exact Or.inr ⟨he, hn, rfl⟩
  | propose _ _ _ _ _ _ _ hh | answer _ _ _ _ _ _ _ _ _ hh =>
    rw [hh] at hp
    rcases History.precedes_concat.1 hp with hp | ⟨_, hi⟩
    · exact Or.inl hp
    · cases hi

private theorem Change.mem_propose (h : Change rt g act g') {id : P × Nat} (hm : Event.propose id ∈ g'.history) :
    Event.propose id ∈ g.history ∨ ∃ call term log, g.callOf id = some call ∧
      call.handler = .serialized term log ∧ ∀ call', g'.callOf id = some call' → call'.closure ≠ .none := by
  cases h with
  | stay _ hh | call _ _ _ _ _ _ _ _ _ hh | applied _ _ _ _ _ _ hh | commit _ _ _ _ hh =>
    rw [hh] at hm
    exact Or.inl hm
  | invoke _ _ _ _ _ hh | answer _ _ _ _ _ _ _ _ _ hh =>
    rw [hh] at hm
    exact Or.inl (by simpa using hm)
  | propose i call term log hc hs hu hh =>
    rw [hh, List.mem_append, List.mem_singleton] at hm
    rcases hm with hm | hm
    · exact Or.inl hm
    · cases hm
      refine Or.inr ⟨call, term, log, hc, hs, fun call' hc' => ?_⟩
      rw [hu, Function.update_self] at hc'
      cases hc'
      nofun

theorem Change.mem_answer (h : Change rt g act g') {id : P × Nat} {response : CounterResponse}
    (hm : Event.answer id response ∈ g'.history) : Event.answer id response ∈ g.history ∨
      ∃ a call call', g.callOf id = some call ∧ call.step rt (g.servers id.1).counter a = some call' ∧ a ≠ .apply ∧
        call.doneRuns < call'.doneRuns ∧ g'.callOf id = some call' ∧ response = call'.response := by
  cases h with
  | stay _ hh | call _ _ _ _ _ _ _ _ _ hh | applied _ _ _ _ _ _ hh | commit _ _ _ _ hh =>
    rw [hh] at hm
    exact Or.inl hm
  | invoke _ _ _ _ _ hh | propose _ _ _ _ _ _ _ hh =>
    rw [hh] at hm
    exact Or.inl (by simpa using hm)
  | answer i a call call' hc hs ha hd hu hh =>
    rw [hh, List.mem_append, List.mem_singleton] at hm
    rcases hm with hm | hm
    · exact Or.inl hm
    · cases hm
      exact Or.inr ⟨a, call, call', hc, hs, ha, hd, by rw [hu, Function.update_self], rfl⟩

theorem Change.mem_entries (h : Change rt g act g') {e : Entry P} (he : e ∈ g'.entries) :
    e ∈ g.entries ∨ Event.propose e.owner ∈ g'.history ∧
      ∃ call term, g.callOf e.owner = some call ∧ call.handler = .serialized term e.data := by
  unfold entries at he ⊢
  rw [List.mem_append] at he ⊢
  cases h with
  | stay _ _ hl hp =>
    rw [hl] at he
    exact Or.inl (he.imp_right fun hm => hp.mem hm)
  | invoke _ _ _ _ _ _ hl hp | call _ _ _ _ _ _ _ _ _ _ hl hp | answer _ _ _ _ _ _ _ _ _ _ hl hp
  | applied _ _ _ _ _ _ _ hl hp =>
    rw [hl, hp] at he
    exact Or.inl he
  | propose id call term log hc hs _ hh hl hp =>
    rw [hl, hp, List.mem_append, List.mem_singleton] at he
    rcases he with hm | hm | rfl
    · exact Or.inl (Or.inl hm)
    · exact Or.inl (Or.inr hm)
    · exact Or.inr ⟨by simp [hh], call, term, hc, hs⟩
  | commit i c hc _ _ hl hp =>
    rw [hl, hp, List.mem_append, List.mem_singleton] at he
    rcases he with (hm | rfl) | hm
    · exact Or.inl (Or.inl hm)
    · exact Or.inl (Or.inr (List.mem_of_getElem? hc))
    · exact Or.inl (Or.inr ((List.eraseIdx_sublist ..).mem hm))

theorem Change.callOf (h : Change rt g act g') {id : P × Nat} {call' : Call} (hc' : g'.callOf id = some call') :
    (∃ call, g.callOf id = some call ∧ call.Moves rt (g.servers id.1).counter call') ∨
      (g.servers id.1).nextCall = id.2 ∧ call' = { request := call'.request } ∧
        ∃ k, Event.invoke id call'.request k ∈ g'.history := by
  have hset : ∀ {i : P × Nat} {c c' : Call}, g'.callOf = Function.update g.callOf i (some c') →
      g.callOf i = some c → c.Moves rt (g.servers i.1).counter c' →
      ∃ call, g.callOf id = some call ∧ call.Moves rt (g.servers id.1).counter call' := by
    intro i c c' hu hc hm
    rw [hu] at hc'
    rcases update_some hc' with ⟨rfl, rfl⟩ | ⟨_, hc'⟩
    · exact ⟨c, hc, hm⟩
    · exact ⟨call', hc', Or.inl rfl⟩
  cases h with
  | stay hs => exact Or.inl ⟨call', hs id call' hc', Or.inl rfl⟩
  | invoke i request hn _ hu hh =>
    rw [hu] at hc'
    rcases update_some hc' with ⟨rfl, rfl⟩ | ⟨_, hc'⟩
    · exact Or.inr ⟨hn, rfl, g.log.length, by rw [hh]; simp⟩
    · exact Or.inl ⟨call', hc', Or.inl rfl⟩
  | call i a c c' hc hs _ _ hu | answer i a c c' hc hs _ _ hu =>
    exact Or.inl (hset hu hc (Or.inr (Or.inl ⟨a, hs⟩)))
  | propose i c term log hc hs hu =>
    exact Or.inl (hset hu hc (Or.inr (Or.inl ⟨.apply, by simp only [Call.step, hs]⟩)))
  | applied n i e c hg hu =>
    rw [hg.owner] at hu
    exact Or.inl (hset hu hg.arrived (Or.inr (Or.inr ⟨hg.pending, rfl⟩)))
  | commit _ _ _ hu =>
    rw [hu] at hc'
    exact Or.inl ⟨call', hc', Or.inl rfl⟩

/-- Where the success of a call comes from. -/
theorem Change.success (h : Change rt g act g') {id : P × Nat} {call' : Call} (hc' : g'.callOf id = some call')
    (hs' : call'.response.success = some true) :
    (∃ call, g.callOf id = some call ∧ call'.request = call.request ∧ call'.response = call.response) ∨
      (∃ e call, g.Given id.1 id.2 e call ∧ (∃ data, act = .node id.1 (.callback (.applyNext data (some id.2)))) ∧
        call' = call.onApply (g.servers id.1).counter.value) ∨
      ∃ call, g.callOf id = some call ∧ call.handler = .leading ∧ call'.request = call.request ∧
        act = .node id.1 (.call id.2 .load) ∧ call'.response.value = some (g.servers id.1).counter.value := by
  have hold : g.callOf id = some call' → ∃ call, g.callOf id = some call ∧ call'.request = call.request ∧
      call'.response = call.response := fun hc => ⟨call', hc, rfl, rfl⟩
  cases h with
  | stay hs => exact Or.inl (hold (hs id call' hc'))
  | invoke i request _ _ hu =>
    rw [hu] at hc'
    rcases update_some hc' with ⟨rfl, rfl⟩ | ⟨_, hc'⟩
    · cases hs'
    · exact Or.inl (hold hc')
  | call i a c c' hc hs _ _ hu _ _ _ ha | answer i a c c' hc hs _ _ hu _ _ _ ha =>
    rw [hu] at hc'
    rcases update_some hc' with ⟨rfl, rfl⟩ | ⟨_, hc'⟩
    · have hr := Call.step_request hs
      rcases Call.step_response hs with he | hf | ⟨rfl, hh, hv⟩
      · exact Or.inl ⟨c, hc, hr, he⟩
      · rw [hf] at hs'
        cases hs'
      · exact Or.inr (Or.inr ⟨c, hc, hh, hr, ha, hv⟩)
    · exact Or.inl (hold hc')
  | propose i c term log hc _ hu =>
    rw [hu] at hc'
    rcases update_some hc' with ⟨rfl, rfl⟩ | ⟨_, hc'⟩
    · exact Or.inl ⟨c, hc, rfl, rfl⟩
    · exact Or.inl (hold hc')
  | applied n i e c hg hu _ _ _ ha =>
    rw [hu, hg.owner] at hc'
    rcases update_some hc' with ⟨rfl, rfl⟩ | ⟨_, hc'⟩
    · exact Or.inr (Or.inl ⟨e, c, hg, ha, rfl⟩)
    · exact Or.inl (hold hc')
  | commit _ _ _ hu =>
    rw [hu] at hc'
    exact Or.inl (hold hc')

/-! ### The invariant of the ledger -/

theorem reachable_fresh (h : Exec.Reachable (step rt) init g) {id : P × Nat}
    (hn : (g.servers id.1).nextCall ≤ id.2) : g.callOf id = none :=
  reachable_servers (fun _ _ _ => rfl) (fun _ _ _ => Server.step_fresh) h id.1 id.2 hn

/-- The number of a call was given out. -/
theorem lt_nextCall_of_callOf (h : Exec.Reachable (step rt) init g) {id : P × Nat} {call : Call}
    (hc : g.callOf id = some call) : id.2 < (g.servers id.1).nextCall := by
  by_contra hge
  rw [reachable_fresh h (by omega)] at hc
  cases hc

theorem reachable_call {Q : Call → Prop} (hnew : ∀ request, Q { request })
    (hstep : ∀ (c : Counter) (call : Call) (a : CallAct P) (call' : Call),
      call.step rt c a = some call' → Q call → Q call')
    (happly : ∀ (call : Call) (task : Task) (request : FetchAddRequest) (prev : Int64), call.closure = .inBraft task →
      call.request = .fetchAdd request → Q call → Q (call.onApply prev))
    (h : Exec.Reachable (step rt) init g) {id : P × Nat} {call : Call} (hc : g.callOf id = some call) : Q call :=
  reachable_servers (I := fun s => ∀ id call, s.calls id = some call → Q call) (fun _ _ _ => nofun)
    (fun _ _ _ hs => Server.step_calls_induction hnew hstep happly hs) h id.1 id.2 call hc

theorem reachable_owned (h : Exec.Reachable (step rt) init g) {id : P × Nat} {call : Call}
    (hc : g.callOf id = some call) : call.Owned rt :=
  reachable_call Call.owned_new (fun _ _ _ _ hs ho => Call.owned_step hs ho)
    (fun _ _ _ prev hc _ ho => Call.owned_onApply hc prev ho) h hc

theorem reachable_typed (h : Exec.Reachable (step rt) init g) {id : P × Nat} {call : Call}
    (hc : g.callOf id = some call) : call.Typed rt :=
  reachable_call Call.typed_new (fun _ _ _ _ hs ht => Call.typed_step hs ht)
    (fun _ _ _ _ hc _ ht => ⟨ht.serialized, ht.leading, fun _ => ht.handed (by rw [hc]; nofun)⟩) h hc

private theorem nodup_step (hi : Recorded rt g) (ho : ∀ {id call}, g.callOf id = some call → call.Owned rt)
    (h : Change rt g act g') : (g'.entries.map Entry.owner).Nodup := by
  unfold entries
  cases h with
  | stay _ _ hl hp =>
    rw [hl]
    exact (((List.Sublist.refl g.log).append hp).map _).nodup hi.nodup
  | invoke _ _ _ _ _ _ hl hp | call _ _ _ _ _ _ _ _ _ _ hl hp | answer _ _ _ _ _ _ _ _ _ _ hl hp
  | applied _ _ _ _ _ _ _ hl hp =>
    rw [hl, hp]
    exact hi.nodup
  | propose id call term log hc hs _ _ hl hp =>
    have hnew : id ∉ g.entries.map Entry.owner := by
      intro hm
      obtain ⟨e, he, rfl⟩ := List.mem_map.1 hm
      exact hi.not_proposed hc (ho hc) hs (hi.owned e he)
    rw [hl, hp, ← List.append_assoc, List.map_append]
    exact List.nodup_append.2 ⟨hi.nodup, by simp, by
      rintro i hm j hj rfl
      rw [List.mem_singleton.1 hj] at hm
      exact hnew hm⟩
  | commit i e he _ _ hl hp =>
    obtain ⟨hlt, rfl⟩ := List.getElem?_eq_some_iff.1 he
    have hperm : (g.log ++ [g.proposed[i]] ++ g.proposed.eraseIdx i).Perm g.entries := by
      rw [List.append_assoc]
      exact (List.getElem_cons_eraseIdx_perm hlt).append_left g.log
    rw [hl, hp]
    exact (hperm.map Entry.owner).nodup_iff.2 hi.nodup

private theorem recorded_step (hi : Recorded rt g) (h : Change rt g act g')
    (hn : ∀ n, (g.servers n).nextCall ≤ (g'.servers n).nextCall)
    (hf : ∀ {id call}, g.callOf id = some call → id.2 < (g.servers id.1).nextCall)
    (ho : ∀ {id call}, g.callOf id = some call → call.Owned rt)
    (ht : ∀ {id call}, g.callOf id = some call → call.Typed rt) : Recorded rt g' := by
  obtain ⟨events, hh⟩ := h.history
  obtain ⟨new, hl⟩ := h.log
  have hmem : ∀ {e}, e ∈ g.history → e ∈ g'.history := fun he => by rw [hh]; exact List.mem_append_left _ he
  have hlen : g.log.length ≤ g'.log.length := by rw [hl, List.length_append]; omega
  refine ⟨?_, ?_, ?_, ?_, ?_, ?_, ?_, ?_, nodup_step hi ho h⟩
  · -- `numbered`: a new call has the number that its node gives out next
    intro id request k hm
    rcases h.mem_invoke hm with hm | ⟨_, hn', _, _⟩
    · have := hi.numbered id request k hm
      have := hn id.1
      omega
    · omega
  · -- `once`: a number below `nextCall` is not given out again
    intro id request k request' k' hm hm'
    rcases h.mem_invoke hm with hm | ⟨hid, _, _, he⟩
    · rcases h.mem_invoke hm' with hm' | ⟨hid, _, _, _⟩
      · exact hi.once id request k request' k' hm hm'
      · have := hi.numbered id request k hm
        omega
    · rw [he, List.mem_append, List.mem_singleton] at hm'
      rcases hm' with hm' | hm'
      · have := hi.numbered id request' k' hm'
        omega
      · cases hm'
        exact ⟨rfl, rfl⟩
  · -- `bound`
    intro id request k hm
    rcases h.mem_invoke hm with hm | ⟨_, _, rfl, _⟩
    · have := hi.bound id request k hm
      omega
    · exact hlen
  · -- `arrived`: no step changes the request of a call
    intro id call' hc'
    rcases h.callOf hc' with ⟨call, hc, hm⟩ | ⟨_, _, hk⟩
    · obtain ⟨k, hk⟩ := hi.arrived id call hc
      exact ⟨k, by rw [hm.request]; exact hmem hk⟩
    · exact hk
  · -- `answered`
    intro id response hm
    rcases h.mem_answer hm with hm | ⟨_, call, _, hc, _⟩
    · obtain ⟨request, k, hk⟩ := hi.answered id response hm
      exact ⟨request, k, hmem hk⟩
    · obtain ⟨k, hk⟩ := hi.arrived id call hc
      exact ⟨call.request, k, hmem hk⟩
  · -- `handed`: the closure stays, and a number that is given out anew has not proposed
    intro id hm
    rcases h.mem_propose hm with hm | ⟨call, term, log, hc, hs, hcl⟩
    · obtain ⟨hid, hcl⟩ := hi.handed id hm
      have := hn id.1
      refine ⟨by omega, fun call' hc' => ?_⟩
      rcases h.callOf hc' with ⟨call, hc, hm⟩ | ⟨hid', _⟩
      · exact hm.closure (hcl call hc)
      · omega
    · exact ⟨Nat.lt_of_lt_of_le (hf hc) (hn id.1), hcl⟩
  · -- `owned`
    intro e he
    rcases h.mem_entries he with he | ⟨hp, _⟩
    · exact hmem (hi.owned e he)
    · exact hp
  · -- `data`: the bytes of a new entry are those that its call has serialized
    intro e he
    rcases h.mem_entries he with he | ⟨_, call, term, hc, hs⟩
    · obtain ⟨request, k, hk, hd⟩ := hi.data e he
      exact ⟨request, k, hmem hk, hd⟩
    · obtain ⟨request, hr, hd⟩ := (ht hc).serialized term e.data hs
      obtain ⟨k, hk⟩ := hi.arrived e.owner call hc
      exact ⟨request, k, by rw [← hr]; exact hmem hk, hd⟩

/-- A call that was answered before a step was invoked before it, with the same request. -/
theorem Recorded.invoked_of_answer (hr : Recorded rt g) (hr' : Recorded rt g') (h : Change rt g act g')
    {id : P × Nat} {request : Request} {k : Nat} {response : CounterResponse}
    (hk : Event.invoke id request k ∈ g'.history) (ha : Event.answer id response ∈ g.history) :
    Event.invoke id request k ∈ g.history := by
  obtain ⟨events, hh⟩ := h.history
  obtain ⟨request', k', hk'⟩ := hr.answered id response ha
  have hm : Event.invoke id request' k' ∈ g'.history := by
    rw [hh]
    exact List.mem_append_left _ hk'
  obtain ⟨rfl, rfl⟩ := hr'.once _ _ _ _ _ hm hk
  exact hk'

/-- An answer is an old one, or the answer of a call that is still there. -/
theorem Change.answered (h : Change rt g act g') (hr : Recorded rt g) (hr' : Recorded rt g') {id : P × Nat}
    {request : Request} {k : Nat} {response : CounterResponse} (hk : Event.invoke id request k ∈ g'.history)
    (ha : Event.answer id response ∈ g'.history) :
    (Event.invoke id request k ∈ g.history ∧ Event.answer id response ∈ g.history) ∨
      ∃ call', g'.callOf id = some call' ∧ call'.request = request ∧ call'.response = response := by
  rcases h.mem_answer ha with ha | ⟨_, _, call', _, _, _, _, hc', rfl⟩
  · exact Or.inl ⟨hr.invoked_of_answer hr' h hk ha, ha⟩
  · obtain ⟨k', hk'⟩ := hr'.arrived id call' hc'
    obtain ⟨hreq, -⟩ := hr'.once _ _ _ _ _ hk' hk
    exact Or.inr ⟨call', hc', hreq, rfl⟩

theorem reachable_recorded (h : Exec.Reachable (step rt) init g) : Recorded rt g := by
  refine h.induction ?_ ?_
  · constructor <;> simp [init, callOf, entries]
  · intro t act u hr ha hi
    exact recorded_step hi (step_change ha) (step_nextCall ha) (lt_nextCall_of_callOf hr) (reachable_owned hr)
      (reachable_typed hr)

/-- Every response that was sent is complete. -/
theorem complete_of_answer (h : Exec.Reachable (step rt) init g) {id : P × Nat} {response : CounterResponse}
    (ha : Event.answer id response ∈ g.history) : response.Complete rt := by
  refine Exec.Reachable.induction
    (I := fun g => ∀ id response, Event.answer id response ∈ g.history → response.Complete rt) ?_ ?_ h id response ha
  · simp [init]
  · intro t act u hr hstep ih id response ha
    rcases (step_change hstep).mem_answer ha with ha | ⟨a, call, call', -, -, -, hlt, hc', rfl⟩
    · exact ih id response ha
    · have hown := reachable_owned (hr.tail hstep) hc'
      have honce := hown.once
      exact Server.doneRuns_complete hown (by omega)

/-! ### Successes -/

/-- A success is an old one, one that `on_apply` fills in, or the load of a `get`. -/
theorem Change.got (h : Change rt g act g') (hr : Recorded rt g) (hr' : Recorded rt g') {id : P × Nat}
    {request : Request} {response : CounterResponse} (hgot : g'.Got id request response) :
    g.Got id request response ∨
      (∃ e call, g.Given id.1 id.2 e call ∧ (∃ data, act = .node id.1 (.callback (.applyNext data (some id.2)))) ∧
        request = call.request ∧ response = (call.onApply (g.servers id.1).counter.value).response) ∨
      ∃ call, g.callOf id = some call ∧ call.handler = .leading ∧ request = call.request ∧
        act = .node id.1 (.call id.2 .load) ∧ response.value = some (g.servers id.1).counter.value := by
  obtain ⟨hs, hgot⟩ := hgot
  have hcases : (∃ call', g'.callOf id = some call' ∧ call'.request = request ∧ call'.response = response) ∨
      ((∃ k, Event.invoke id request k ∈ g.history) ∧ Event.answer id response ∈ g.history) := by
    rcases hgot with hc | ⟨⟨k, hk⟩, ha⟩
    · exact Or.inl hc
    · rcases h.answered hr hr' hk ha with ⟨hk, ha⟩ | hc
      · exact Or.inr ⟨⟨k, hk⟩, ha⟩
      · exact Or.inl hc
  rcases hcases with ⟨call', hc', rfl, rfl⟩ | hold
  · rcases h.success hc' hs with ⟨call, hc, hreq, he⟩ | ⟨e, call, hg, ha, rfl⟩ | ⟨call, hc, hh, hreq, ha, hv⟩
    · exact Or.inl ⟨hs, Or.inl ⟨call, hc, hreq.symm, he.symm⟩⟩
    · exact Or.inr (Or.inl ⟨e, call, hg, ha, rfl, rfl⟩)
    · exact Or.inr (Or.inr ⟨call, hc, hh, hreq, ha, hv⟩)
  · exact Or.inl ⟨hs, Or.inr hold⟩

/-- What precedes an invocation was got before the step that brings the answer to it. -/
theorem Change.got_of_precedes (h : Change rt g act g') (hr : Recorded rt g) (hr' : Recorded rt g') {a b : P × Nat}
    {request request' : Request} {k : Nat} {response : CounterResponse} (hgot : g'.Got a request response)
    (hp : History.Precedes g'.history (.answer a response) (.invoke b request' k)) : g.Got a request response := by
  have ha : Event.answer a response ∈ g.history := by
    rcases h.precedes_invoke hp with hp | ⟨ha, -⟩
    · exact hp.mem_left
    · exact ha
  obtain ⟨k, hk⟩ := hgot.invoked hr'
  exact ⟨hgot.1, Or.inr ⟨⟨k, hr.invoked_of_answer hr' h hk ha⟩, ha⟩⟩

end Group

end LearnTogether
