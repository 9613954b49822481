import LearnTogether.Group.Refinement

/-!
# Sessions with one node

A `get` that goes to another node than the `fetch_add` before it may miss the addition.  What a client can rely on are
the calls that it makes to one node: as long as the process runs and loads no snapshot behind its own state, its
successes are values of longer and longer prefixes of the log.  A later call, whoever makes it, gets a prefix that has
all that the earlier answers were made of, and the entry of the earlier call if that was a `fetch_add`
(`sessionOrder`).  This holds whether or not the node is still the leader, and whether or not the value is stale.
-/

namespace LearnTogether

open WrapSum History

/-- The number of entries that a successful call adds behind what its answer is made of. -/
def Request.adds : Request → Nat
  | .fetchAdd _ => 1
  | .get => 0

namespace Group

variable {P : Type} {rt : Runtime P} {g g' : Group P} {act : GroupAct P} {n : P}

/-- The answer of each call of the node `n` is made of the first `seen` entries, and what comes later sees more. -/
structure SessionOrder (rt : Runtime P) (g : Group P) (n : P) (seen : Nat → Nat) : Prop where
  value : ∀ i request k response, Event.invoke (n, i) request k ∈ g.history →
    Event.answer (n, i) response ∈ g.history → response.success = some true →
    seen i + request.adds ≤ g.log.length ∧ response.value = some (wrapSum ((g.deltas rt).take (seen i)))
  /-- The entry of a successful `fetch_add` comes right behind. -/
  own : ∀ i request k response, Event.invoke (n, i) (.fetchAdd request) k ∈ g.history →
    Event.answer (n, i) response ∈ g.history → response.success = some true → g.OwnsAt (n, i) (seen i)
  later : ∀ a b request request' k k' response response', Event.invoke (n, a) request k ∈ g.history →
    response.success = some true → Precedes g.history (.answer (n, a) response) (.invoke (n, b) request' k') →
    Event.answer (n, b) response' ∈ g.history → response'.success = some true →
    seen a + request.adds ≤ seen b

structure Session (rt : Runtime P) (g : Group P) (n : P) (seen : Nat → Nat) : Prop where
  applied : ∀ i request response, g.Got (n, i) request response → seen i + request.adds ≤ (g.servers n).applied
  value : ∀ i request response, g.Got (n, i) request response →
    response.value = some (wrapSum ((g.deltas rt).take (seen i)))
  own : ∀ i request response, g.Got (n, i) (.fetchAdd request) response → g.OwnsAt (n, i) (seen i)
  later : ∀ a b request request' k response response', g.Got (n, a) request response →
    g.Got (n, b) request' response' → Precedes g.history (.answer (n, a) response) (.invoke (n, b) request' k) →
    seen a + request.adds ≤ seen b

variable [DecidableEq P]

/-- A call that has just got its success: nobody has seen one before, and it has the value that the node holds. -/
structure New (rt : Runtime P) (g g' : Group P) (id : P × Nat) (request : Request) (response : CounterResponse) :
    Prop where
  fresh : ∀ request' response', ¬ g.Got id request' response'
  value : response.value = some (g.servers id.1).counter.value
  adds : (g.servers id.1).applied + request.adds ≤ (g'.servers id.1).applied
  owns : ∀ r, request = .fetchAdd r → g.OwnsAt id (g.servers id.1).applied

/-- A call that is not answered and has an empty response has not got anything. -/
private theorem not_got (ht : Exec.Reachable (step rt) init g) {id : P × Nat} {call : Call}
    (hc : g.callOf id = some call) (hd : call.doneRuns = 0) (hr : call.response = {}) :
    ∀ request response, ¬ g.Got id request response := by
  rintro request response ⟨hs, ⟨call', hc', -, he⟩ | ⟨-, ha⟩⟩
  · rw [hc] at hc'
    cases hc'
    rw [← he, hr] at hs
    cases hs
  · have := reachable_ran ht id response call ha hc
    omega

/-- A success is an old one or a new one. -/
private theorem got_step (ht : Exec.Reachable (step rt) init g) (h : step rt g act = some g')
    (hG : KeepsForward n g act)
    {i : Nat} {request : Request} {response : CounterResponse} (hgot : g'.Got (n, i) request response) :
    g.Got (n, i) request response ∨ New rt g g' (n, i) request response := by
  rcases (step_change h).got (reachable_recorded ht) (reachable_recorded (ht.tail h)) hgot with
    hold | ⟨e, call, hg, ⟨data, rfl⟩, hreq, rfl⟩ | ⟨call, hc, hh, hreq, -, hv⟩
  · exact Or.inl hold
  · refine Or.inr ⟨?_, rfl, ?_, fun r _ => ⟨e, hg.entry, hg.owner⟩⟩
    · have hcl : call.closure.holds = true ∧ call.filled = false := by
        have hp := hg.pending
        unfold Call.pending at hp
        split at hp
        · rename_i task hcl
          simp [Call.filled, hcl, FetchAddClosure.holds]
        · cases hp
      have ho := reachable_owned ht hg.arrived
      exact not_got ht hg.arrived (ho.held hcl.1).2.1 (ho.untouched hcl.2)
    · have hone : request.adds ≤ 1 := by
        unfold Request.adds
        split <;> omega
      have happ := applied_applyNext h
      dsimp only at happ ⊢
      omega
  · have hget : request = .get := hreq.trans ((reachable_typed ht hc).leading hh)
    have ho := (reachable_owned ht hc).working (by simp [Call.working, hh])
    refine Or.inr ⟨not_got ht hc ho.2.2.1 ho.2.2.2, hv, ?_, ?_⟩
    · rw [hget]
      exact applied_step h hG
    · intro r hreq'
      rw [hget] at hreq'
      cases hreq'

/-- A new success is made of what the node has applied; the old ones keep what they are made of. -/
private theorem session_step (hl : rt.Lossless) (ht : Exec.Reachable (step rt) init g) (h : step rt g act = some g')
    (hG : KeepsForward n g act) {seen : Nat → Nat} (hi : Session rt g n seen) :
    ∃ seen', Session rt g' n seen' := by
  classical
  have hr := reachable_recorded ht
  have hr' := reachable_recorded (ht.tail h)
  have hch := step_change h
  have hmono := applied_step h hG
  obtain ⟨new, hlog⟩ := hch.log
  have htake : ∀ j, j ≤ g.log.length → (g'.deltas rt).take j = (g.deltas rt).take j := by
    intro j hj
    rw [deltas, deltas, ← List.map_take, ← List.map_take, hlog, List.take_append_of_le_length hj]
  have hnode := ((reachable_replicated hl ht).nodes n).value
  have hbound := hnode.bound
  -- calls that have got their success keep their prefix
  refine ⟨fun i => if ∃ request response, g.Got (n, i) request response then seen i else (g.servers n).applied, ?_⟩
  have hold : ∀ {i request response}, g.Got (n, i) request response →
      (if ∃ request response, g.Got (n, i) request response then seen i else (g.servers n).applied) = seen i :=
    fun hgot => if_pos ⟨_, _, hgot⟩
  have hnew : ∀ {i request response}, New rt g g' (n, i) request response →
      (if ∃ request response, g.Got (n, i) request response then seen i else (g.servers n).applied) =
        (g.servers n).applied := by
    intro i request response hn
    refine if_neg ?_
    rintro ⟨request', response', hgot⟩
    exact hn.fresh request' response' hgot
  refine ⟨?_, ?_, ?_, ?_⟩
  · intro i request response hgot
    rcases got_step ht h hG hgot with hgot | hn
    · rw [hold hgot]
      have := hi.applied i request response hgot
      omega
    · rw [hnew hn]
      exact hn.adds
  · intro i request response hgot
    rcases got_step ht h hG hgot with hgot | hn
    · have := hi.applied i request response hgot
      rw [hold hgot, htake _ (by omega)]
      exact hi.value i request response hgot
    · rw [hnew hn, htake _ hbound, hn.value, deltas, ← List.map_take, ← hnode.wrapSum]
  · intro i request response hgot
    rcases got_step ht h hG hgot with hgot | hn
    · rw [hold hgot]
      exact (hi.own i request response hgot).append hlog
    · rw [hnew hn]
      exact (hn.owns request rfl).append hlog
  · intro a b request request' k response response' ha hb hp
    have ha := hch.got_of_precedes hr hr' ha hp
    rw [hold ha]
    rcases got_step ht h hG hb with hb | hn
    · rw [hold hb]
      -- a call that has got something is not just invoked
      have hp : Precedes g.history (.answer (n, a) response) (.invoke (n, b) request' k) := by
        rcases hch.precedes_invoke hp with hp | ⟨-, hnext, -⟩
        · exact hp
        · obtain ⟨k', hk'⟩ := hb.invoked hr
          have := hr.numbered _ _ _ hk'
          omega
      exact hi.later a b request request' k response response' ha hb hp
    · rw [hnew hn]
      exact hi.applied a request response ha

/-- In every run in which the process of the node `n` keeps forward, the successes of its calls are in the order of
real time values of longer and longer prefixes of the log, each with the entries of the calls before it. -/
theorem sessionOrder (rt : Runtime P) (hl : rt.Lossless) {as : List (GroupAct P)} {g : Group P}
    (h : Exec.exec (step rt) init as = some g) (hG : Exec.Along (step rt) (KeepsForward n) init as) :
    ∃ seen, g.SessionOrder rt n seen := by
  have hinv : ∃ seen, Session rt g n seen := by
    refine Exec.exec_induction_along (I := fun g => ∃ seen, Session rt g n seen) ?_ ?_ h hG
    · refine ⟨fun _ => 0, ?_, ?_, ?_, ?_⟩ <;> simp [Got, init, callOf]
    · rintro t a u ht ha hG ⟨seen, hi⟩
      exact session_step hl ht ha hG hi
  obtain ⟨seen, hi⟩ := hinv
  have hbound := ((reachable_replicated hl ⟨as, h⟩).nodes n).value.bound
  refine ⟨seen, ?_, ?_, ?_⟩
  · intro i request k response hk ha hs
    have hgot : g.Got (n, i) request response := ⟨hs, Or.inr ⟨⟨k, hk⟩, ha⟩⟩
    have := hi.applied i request response hgot
    exact ⟨by omega, hi.value i request response hgot⟩
  · intro i request k response hk ha hs
    exact hi.own i request response ⟨hs, Or.inr ⟨⟨k, hk⟩, ha⟩⟩
  · intro a b request request' k k' response response' hk hs hp ha' hs'
    exact hi.later a b request request' k' response response' ⟨hs, Or.inr ⟨⟨k, hk⟩, hp.mem_left⟩⟩
      ⟨hs', Or.inr ⟨⟨k', hp.mem_right⟩, ha'⟩⟩ hp

/-- Node 1 leads, adds 5, is deposed without being told, and reads. -/
def sessionRun : List (GroupAct Nat) :=
  on 1 Server.startUp ++ lead 1 1 ++ on 1 (Server.propose 0 ⟨5⟩) ++ [.commit 0] ++
    on 1 (Server.applyOne (serializeValue 5) (some 0) ++ [.call 0 (.run none), .call 0 .finish]) ++ [.elect 2 2] ++
    on 1 [.invoke .get, .call 1 .test, .call 1 .load, .call 1 .leave]

theorem sessionOrder_sessionRun : ∃ g seen, Exec.exec (step (protobuf Nat.repr)) init sessionRun = some g ∧
    Event.answer (1, 1) ⟨some true, some 5, none⟩ ∈ g.history ∧ g.SessionOrder (protobuf Nat.repr) 1 seen := by
  obtain ⟨g, hg, ha⟩ : ∃ g, Exec.exec (step (protobuf Nat.repr)) init sessionRun = some g ∧
      Event.answer (1, 1) ⟨some true, some 5, none⟩ ∈ g.history := ⟨_, rfl, by decide⟩
  obtain ⟨seen, hseen⟩ := sessionOrder (n := 1) (protobuf Nat.repr) (protobuf_lossless Nat.repr) hg
    (Exec.along_of_forall (by simp [KeepsForward, sessionRun, lead, on, Server.startUp, Server.propose,
      Server.applyOne]))
  exact ⟨g, seen, hg, ha, hseen⟩

end Group

end LearnTogether
