import LearnTogether.Base.History
import LearnTogether.Group.Replica

/-!
# Successful additions are linearizable

The committed log is the order in which the calls of `fetch_add` take effect.  A call that is answered with success
owns one entry, and its value is what the log made of zero before this entry: `on_apply` fills the response of the
closure in the same iteration in which it adds the delta, on a node that agrees with the log (`Replicated`).  The
order respects real time, because an entry comes behind all that were committed when its call was invoked.
-/

namespace LearnTogether

open WrapSum History

namespace Group

variable {P : Type}

/-- The entry at the index `i` of the log was made by the call `id`. -/
def OwnsAt (g : Group P) (id : P × Nat) (i : Nat) : Prop := ∃ e, g.log[i]? = some e ∧ e.owner = id

/-- The response has the value that the log makes of zero before the entry of the call. -/
def Result (rt : Runtime P) (g : Group P) (id : P × Nat) (response : CounterResponse) : Prop :=
  ∃ i, g.OwnsAt id i ∧ response.value = some (wrapSum ((g.deltas rt).take i))

structure Added (rt : Runtime P) (g : Group P) : Prop where
  calls : ∀ id call request, g.callOf id = some call → call.request = .fetchAdd request →
    call.response.success = some true → g.Result rt id call.response
  answers : ∀ id request k response, Event.invoke id (.fetchAdd request) k ∈ g.history →
    Event.answer id response ∈ g.history → response.success = some true → g.Result rt id response
  /-- An entry is not committed before its call is invoked. -/
  late : ∀ id request k i, Event.invoke id request k ∈ g.history → g.OwnsAt id i → k ≤ i
  /-- An addition that was answered is committed before any later call is invoked. -/
  early : ∀ a request k response b request' k', Event.invoke a (.fetchAdd request) k ∈ g.history →
    Precedes g.history (.answer a response) (.invoke b request' k') → response.success = some true →
    ∃ i, i < k' ∧ g.OwnsAt a i

variable {rt : Runtime P} {g g' : Group P}

theorem OwnsAt.lt_length {id : P × Nat} {i : Nat} (h : g.OwnsAt id i) : i < g.log.length := by
  obtain ⟨e, he, -⟩ := h
  exact (List.getElem?_eq_some_iff.1 he).1

theorem OwnsAt.append {id : P × Nat} {i : Nat} {new : List (Entry P)} (h : g.OwnsAt id i)
    (hl : g'.log = g.log ++ new) : g'.OwnsAt id i := by
  have hi := h.lt_length
  obtain ⟨e, he, ho⟩ := h
  exact ⟨e, by rw [hl, List.getElem?_append_left hi]; exact he, ho⟩

theorem OwnsAt.of_append {id : P × Nat} {i : Nat} {new : List (Entry P)} (h : g'.OwnsAt id i)
    (hl : g'.log = g.log ++ new) (hi : i < g.log.length) : g.OwnsAt id i := by
  obtain ⟨e, he, ho⟩ := h
  rw [hl, List.getElem?_append_left hi] at he
  exact ⟨e, he, ho⟩

private theorem OwnsAt.proposed (hr : Recorded rt g) {id : P × Nat} {i : Nat} (h : g.OwnsAt id i) :
    Event.propose id ∈ g.history := by
  obtain ⟨e, he, rfl⟩ := h
  exact hr.owned e (List.mem_append_left _ (List.mem_of_getElem? he))

/-- A call owns at most one entry. -/
theorem OwnsAt.unique (hr : Recorded rt g) {id : P × Nat} {i j : Nat} (hi : g.OwnsAt id i) (hj : g.OwnsAt id j) :
    i = j := by
  have hlt := hi.lt_length
  obtain ⟨e, he, ho⟩ := hi
  obtain ⟨e', he', ho'⟩ := hj
  refine (List.getElem?_inj (by rwa [List.length_map]) hr.log_nodup).1 ?_
  rw [List.getElem?_map, List.getElem?_map, he, he', Option.map_some, Option.map_some, ho, ho']

private theorem Result.append {id : P × Nat} {response : CounterResponse} {new : List (Entry P)}
    (h : g.Result rt id response) (hl : g'.log = g.log ++ new) : g'.Result rt id response := by
  obtain ⟨i, hi, hv⟩ := h
  have hle := Nat.le_of_lt hi.lt_length
  refine ⟨i, hi.append hl, ?_⟩
  rw [hv, deltas, deltas, ← List.map_take, ← List.map_take, hl, List.take_append_of_le_length hle]

variable [DecidableEq P] {act : GroupAct P}

/-- A new success of a `fetch_add` is the one of `on_apply`, which has the value before the entry. -/
private theorem calls_step (hp : Replicated rt g) (ht : ∀ {id call}, g.callOf id = some call → call.Typed rt)
    (h : Change rt g act g') (hi : Added rt g) {id : P × Nat} {call' : Call} {request : FetchAddRequest}
    (hc' : g'.callOf id = some call') (hr' : call'.request = .fetchAdd request)
    (hs' : call'.response.success = some true) : g'.Result rt id call'.response := by
  obtain ⟨new, hl⟩ := h.log
  rcases h.success hc' hs' with ⟨call, hc, hr, he⟩ | ⟨e, call, hg, -, rfl⟩ | ⟨call, hc, hh, hr, -⟩
  · rw [he] at hs' ⊢
    exact (hi.calls id call request hc (hr.symm.trans hr') hs').append hl
  · have hv := (hp.nodes id.1).value.wrapSum
    refine Result.append ⟨(g.servers id.1).applied, ⟨e, hg.entry, hg.owner⟩, ?_⟩ hl
    rw [deltas, ← List.map_take, ← hv]
    rfl
  · have hget := (ht hc).leading hh
    rw [hr, hget] at hr'
    cases hr'

private theorem answers_step (hr : Recorded rt g) (hr' : Recorded rt g') (h : Change rt g act g') (hi : Added rt g)
    (hcalls : ∀ id call request, g'.callOf id = some call → call.request = .fetchAdd request →
      call.response.success = some true → g'.Result rt id call.response)
    {id : P × Nat} {request : FetchAddRequest} {k : Nat} {response : CounterResponse}
    (hk : Event.invoke id (.fetchAdd request) k ∈ g'.history) (ha : Event.answer id response ∈ g'.history)
    (hs : response.success = some true) : g'.Result rt id response := by
  obtain ⟨new, hl⟩ := h.log
  rcases h.answered hr hr' hk ha with ⟨hk, ha⟩ | ⟨call', hc', hreq, rfl⟩
  · exact (hi.answers id request k response hk ha hs).append hl
  · exact hcalls id call' request hc' hreq hs

private theorem late_step (hr : Recorded rt g) (hr' : Recorded rt g') (h : Change rt g act g') (hi : Added rt g)
    {id : P × Nat} {request : Request} {k i : Nat} (hk : Event.invoke id request k ∈ g'.history)
    (ho : g'.OwnsAt id i) : k ≤ i := by
  obtain ⟨new, hl⟩ := h.log
  rcases h.mem_invoke hk with hk | ⟨hn, _, _, he⟩
  · by_cases hlt : i < g.log.length
    · exact hi.late id request k i hk (ho.of_append hl hlt)
    · have := hr.bound id request k hk
      omega
  · -- a call that is just invoked has no entry
    have hp := ho.proposed hr'
    rw [he] at hp
    have hp : Event.propose id ∈ g.history := by simpa using hp
    have := (hr.handed id hp).1
    omega

private theorem early_step (hr : Recorded rt g) (hr' : Recorded rt g') (h : Change rt g act g') (hi : Added rt g)
    {a b : P × Nat} {request : FetchAddRequest} {request' : Request} {k k' : Nat} {response : CounterResponse}
    (hk : Event.invoke a (.fetchAdd request) k ∈ g'.history)
    (hp : Precedes g'.history (.answer a response) (.invoke b request' k')) (hs : response.success = some true) :
    ∃ i, i < k' ∧ g'.OwnsAt a i := by
  obtain ⟨new, hl⟩ := h.log
  have hinv : Event.answer a response ∈ g.history → Event.invoke a (.fetchAdd request) k ∈ g.history :=
    fun ha => hr.invoked_of_answer hr' h hk ha
  rcases h.precedes_invoke hp with hp | ⟨ha, -, rfl⟩
  · obtain ⟨i, hlt, ho⟩ := hi.early a request k response b request' k' (hinv hp.mem_left) hp hs
    exact ⟨i, hlt, ho.append hl⟩
  · obtain ⟨i, ho, -⟩ := hi.answers a request k response (hinv ha) ha hs
    exact ⟨i, ho.lt_length, ho.append hl⟩

theorem reachable_added (hl : rt.Lossless) (h : Exec.Reachable (step rt) init g) : Added rt g := by
  refine h.induction ?_ ?_
  · constructor <;> simp [init, callOf]
  · intro t act u hr ha hi
    have hc := step_change ha
    have hrt := reachable_recorded hr
    have hru := reachable_recorded (hr.tail ha)
    have hcalls : ∀ id call request, u.callOf id = some call → call.request = .fetchAdd request →
        call.response.success = some true → u.Result rt id call.response := fun _ _ _ =>
      calls_step (reachable_replicated hl hr) (reachable_typed hr) hc hi
    exact ⟨hcalls, fun _ _ _ _ => answers_step hrt hru hc hi hcalls, fun _ _ _ _ => late_step hrt hru hc hi,
      fun _ _ _ _ _ _ _ => early_step hrt hru hc hi⟩

/-! ### Linearizability -/

/-- The call `id` of `fetch_add` with `request` was answered with success and the response `response`. -/
structure Succeeded (g : Group P) (id : P × Nat) (request : FetchAddRequest) (response : CounterResponse) : Prop where
  invoked : ∃ k, Event.invoke id (.fetchAdd request) k ∈ g.history
  answered : Event.answer id response ∈ g.history
  success : response.success = some true

/-- The index of the entry of a call. -/
def index (g : Group P) (id : P × Nat) : Nat := g.log.findIdx fun e => decide (e.owner = id)

structure Linearizable (rt : Runtime P) (g : Group P) : Prop where
  /-- A successful call owns exactly one entry, which carries its delta and is not owned by another call. -/
  owns : ∀ id request response, g.Succeeded id request response → ∀ i, g.OwnsAt id i ↔ i = g.index id
  delta : ∀ id request response, g.Succeeded id request response →
    (g.deltas rt)[g.index id]? = some request.value
  injective : ∀ id request response id' request' response', g.Succeeded id request response →
    g.Succeeded id' request' response' → g.index id = g.index id' → id = id'
  /-- The value is the wrapped sum of the deltas before the entry. -/
  value : ∀ id request response, g.Succeeded id request response →
    response.value = some (wrapSum ((g.deltas rt).take (g.index id)))
  /-- A call that was answered before another one was invoked has the smaller index. -/
  realTime : ∀ a request response b request' response' k, g.Succeeded a request response →
    g.Succeeded b request' response' → Precedes g.history (.answer a response) (.invoke b (.fetchAdd request') k) →
    g.index a < g.index b
  difference : ∀ a request response v b request' response' w, g.Succeeded a request response →
    g.Succeeded b request' response' → g.index a < g.index b → response.value = some v → response'.value = some w →
    w - v = wrapSum (((g.deltas rt).take (g.index b)).drop (g.index a))

theorem index_of_ownsAt (hr : Recorded rt g) {id : P × Nat} {i : Nat} (h : g.OwnsAt id i) : g.index id = i := by
  refine OwnsAt.unique hr ?_ h
  obtain ⟨e, he, ho⟩ := h
  have hex : ∃ x ∈ g.log, decide (x.owner = id) = true := ⟨e, List.mem_of_getElem? he, by simpa using ho⟩
  have hlt := List.findIdx_lt_length_of_exists hex
  refine ⟨g.log[g.index id], List.getElem?_eq_getElem hlt, ?_⟩
  have hp := List.findIdx_getElem (w := hlt)
  exact of_decide_eq_true hp

/-- In every reachable state of the group, the calls of `fetch_add` that were answered with success form a
linearizable fetch-and-add. -/
theorem fetchAdd_linearizable (rt : Runtime P) (hl : rt.Lossless) {g : Group P}
    (h : Exec.Reachable (step rt) init g) : g.Linearizable rt := by
  have hr := reachable_recorded h
  have hi := reachable_added hl h
  have hown : ∀ {id request response}, g.Succeeded id request response → g.OwnsAt id (g.index id) ∧
      response.value = some (wrapSum ((g.deltas rt).take (g.index id))) := by
    rintro id request response ⟨⟨k, hk⟩, ha, hs⟩
    obtain ⟨i, ho, hv⟩ := hi.answers id request k response hk ha hs
    rw [index_of_ownsAt hr ho]
    exact ⟨ho, hv⟩
  refine ⟨?_, ?_, ?_, fun id request response hs => (hown hs).2, ?_, ?_⟩
  · intro id request response hs i
    constructor
    · exact fun ho => (index_of_ownsAt hr ho).symm
    · rintro rfl
      exact (hown hs).1
  · intro id request response hs
    obtain ⟨e, he, ho⟩ := (hown hs).1
    obtain ⟨k, hk⟩ := hs.invoked
    obtain ⟨request', k', hk', hd⟩ := hr.data e (List.mem_append_left _ (List.mem_of_getElem? he))
    rw [ho] at hk'
    have heq := (hr.once _ _ _ _ _ hk' hk).1
    cases heq
    rw [deltas, List.getElem?_map, he, Option.map_some, Runtime.delta_serialize hl hd]
  · intro id request response id' request' response' hs hs' heq
    obtain ⟨e, he, ho⟩ := (hown hs).1
    obtain ⟨e', he', ho'⟩ := (hown hs').1
    rw [heq, he'] at he
    cases he
    exact ho.symm.trans ho'
  · -- the entry of `a` is committed when `b` is invoked, the one of `b` is not
    intro a request response b request' response' k hs hs' hp
    obtain ⟨j, hj⟩ := hs.invoked
    obtain ⟨i, hlt, ho⟩ := hi.early a request j response b (.fetchAdd request') k hj hp hs.success
    have hlate := hi.late b (.fetchAdd request') k (g.index b) hp.mem_right (hown hs').1
    rw [index_of_ownsAt hr ho]
    omega
  · intro a request response v b request' response' w hs hs' hlt hv hw
    have hv' := (hown hs).2
    have hw' := (hown hs').2
    rw [hv] at hv'
    rw [hw] at hw'
    cases hv'
    cases hw'
    exact wrapSum_take_sub _ (Nat.le_of_lt hlt)

/-- Node 1 adds 5, then 7; node 2 follows and becomes the leader. -/
def twoAdds : List (GroupAct Nat) :=
  on 1 Server.startUp ++ on 2 Server.startUp ++ lead 1 1 ++ on 1 (Server.propose 0 ⟨5⟩) ++ [.commit 0] ++
    on 1 (Server.applyOne (serializeValue 5) (some 0) ++ [.call 0 (.run none), .call 0 .finish]) ++
    on 1 (Server.propose 1 ⟨7⟩) ++ [.commit 0] ++
    on 1 (Server.applyOne (serializeValue 7) (some 1) ++ [.call 1 (.run none), .call 1 .finish]) ++
    lead 2 2 ++ on 2 (Server.applyOne (serializeValue 5) none)

theorem fetchAdd_linearizable_twoAdds : ∃ g, Exec.exec (step (protobuf Nat.repr)) init twoAdds = some g ∧
    g.Succeeded (1, 0) ⟨5⟩ ⟨some true, some 0, none⟩ ∧ g.Succeeded (1, 1) ⟨7⟩ ⟨some true, some 5, none⟩ ∧
    g.Linearizable (protobuf Nat.repr) :=
  ⟨_, rfl, ⟨⟨0, by decide⟩, by decide, rfl⟩, ⟨⟨1, by decide⟩, by decide, rfl⟩,
    fetchAdd_linearizable (protobuf Nat.repr) (protobuf_lossless Nat.repr) ⟨twoAdds, rfl⟩⟩

end Group

end LearnTogether
