import LearnTogether.Group.Linear

/-!
# Reads

`get` loads `_value` on its own node, so its answer is the value of a prefix of the log, the one that the node has
applied.  Whether the answer is stale is settled by the load: it is not, if the node has applied by then all that was
answered before the `get` was invoked (`neverStale_of_along`).  `get` does nothing to bring this about.  To wait for
the entries that are committed when the `get` arrives would be one way (`neverStale_of_readsAtIndex`); which leaderships
are another is the subject of `Leadership`.
-/

namespace LearnTogether.Group

open WrapSum History

variable {P : Type}

/-- The first `j` entries contain each addition that was answered with success before the call `id` was invoked. -/
def Covers (g : Group P) (id : P × Nat) (j : Nat) : Prop :=
  ∀ a request response k, g.Succeeded a request response →
    Precedes g.history (.answer a response) (.invoke id .get k) → ∃ i, i < j ∧ g.OwnsAt a i

/-- The response has the value of a prefix of the log that contains all that was answered before the call. -/
def UpToDate (rt : Runtime P) (g : Group P) (id : P × Nat) (response : CounterResponse) : Prop :=
  ∃ j, j ≤ g.log.length ∧ response.value = some (wrapSum ((g.deltas rt).take j)) ∧ g.Covers id j

/-- No `get` that was answered with success is stale. -/
def NeverStale (rt : Runtime P) (g : Group P) : Prop :=
  ∀ id k response, Event.invoke id .get k ∈ g.history → Event.answer id response ∈ g.history →
    response.success = some true → g.UpToDate rt id response

/-- A `get` that has passed the leader test loads `_value` only when its node has applied all that was answered before
the `get` was invoked. -/
def LoadsCaughtUp (g : Group P) (act : GroupAct P) : Prop :=
  ∀ id call, act = .node id.1 (.call id.2 .load) → g.callOf id = some call → call.handler = .leading →
    g.Covers id (g.servers id.1).applied

theorem Covers.mono {g : Group P} {id : P × Nat} {j j' : Nat} (hj : j ≤ j') (hc : g.Covers id j) :
    g.Covers id j' := by
  intro a request response k hs hp
  obtain ⟨i, hi, ho⟩ := hc a request response k hs hp
  exact ⟨i, by omega, ho⟩

variable [DecidableEq P] {rt : Runtime P} {g g' : Group P} {act : GroupAct P}

/-- What a call has to cover is settled when it is invoked. -/
theorem Covers.step (hr : Recorded rt g) (hr' : Recorded rt g') (h : Change rt g act g') {id : P × Nat}
    {request : Request} {k j : Nat} (hk : Event.invoke id request k ∈ g.history) (hc : g.Covers id j) :
    g'.Covers id j := by
  obtain ⟨new, hl⟩ := h.log
  rintro a add response k₁ ⟨⟨k₂, hk₂⟩, _, hs⟩ hp
  rcases h.precedes_invoke hp with hp | ⟨_, hn, _⟩
  · have hk₂ := hr.invoked_of_answer hr' h hk₂ hp.mem_left
    obtain ⟨i, hlt, ho⟩ := hc a add response k₁ ⟨⟨k₂, hk₂⟩, hp.mem_left, hs⟩ hp
    exact ⟨i, hlt, ho.append hl⟩
  · have := hr.numbered id request k hk
    omega

theorem UpToDate.step (hr : Recorded rt g) (hr' : Recorded rt g') (h : Change rt g act g') {id : P × Nat}
    {request : Request} {k : Nat} {response : CounterResponse} (hk : Event.invoke id request k ∈ g.history)
    (hu : g.UpToDate rt id response) : g'.UpToDate rt id response := by
  obtain ⟨new, hl⟩ := h.log
  obtain ⟨j, hj, hv, hc⟩ := hu
  have hle : j ≤ g'.log.length := by
    rw [hl, List.length_append]
    omega
  refine ⟨j, hle, ?_, hc.step hr hr' h hk⟩
  rw [hv, deltas, deltas, ← List.map_take, ← List.map_take, hl, List.take_append_of_le_length hj]

/-- A new success of a `get` is the one of its load. -/
private theorem upToDate_step (hl : rt.Lossless) (ht : Exec.Reachable (step rt) init g) (h : step rt g act = some g')
    (hG : LoadsCaughtUp g act) (hi : ∀ id response, g.Got id .get response → g.UpToDate rt id response) :
    ∀ id response, g'.Got id .get response → g'.UpToDate rt id response := by
  intro id response hgot
  have hr := reachable_recorded ht
  have hr' := reachable_recorded (ht.tail h)
  have hch := step_change h
  rcases hch.got hr hr' hgot with hold | ⟨e, call, hg, -, hreq, -⟩ | ⟨call, hc, hh, hreq, hact, hv⟩
  · obtain ⟨k, hk⟩ := hold.invoked hr
    exact (hi id response hold).step hr hr' hch hk
  · -- braft holds closures of `fetch_add` only
    obtain ⟨request, hf⟩ := (reachable_typed ht hg.arrived).handed (by
      intro hn
      have hp := hg.pending
      simp [Call.pending, hn] at hp)
    rw [← hreq] at hf
    cases hf
  · obtain ⟨k, hk⟩ := hr.arrived id call hc
    have hn := ((reachable_replicated hl ht).nodes id.1).value
    have hu : g.UpToDate rt id response := by
      refine ⟨(g.servers id.1).applied, hn.bound, ?_, hG id call hact hc hh⟩
      rw [deltas, ← List.map_take, ← hn.wrapSum]
      exact hv
    exact hu.step hr hr' hch hk

/-- In a run whose loads are caught up, no answer of a `get` is stale. -/
theorem neverStale_of_along (hl : rt.Lossless) {as : List (GroupAct P)}
    (hG : Exec.Along (step rt) LoadsCaughtUp init as) : Exec.Throughout (step rt) (NeverStale rt) init as := by
  refine Exec.throughout_of_along (I := fun g => ∀ id response, g.Got id .get response → g.UpToDate rt id response)
    ?_ ?_ ?_ hG
  · intro g hi id k response hk ha hs
    exact hi id response ⟨hs, Or.inr ⟨⟨k, hk⟩, ha⟩⟩
  · simp [Got, init, callOf]
  · intro t act u ht ha hG hi
    exact upToDate_step hl ht ha hG hi

/-- A `get` loads `_value` only on a node that has applied all that was committed when it was invoked. -/
def ReadsAtIndex (g : Group P) (act : GroupAct P) : Prop :=
  ∀ n id k, act = .node n (.call id .load) → Event.invoke (n, id) .get k ∈ g.history → k ≤ (g.servers n).applied

/-- To wait for the entries that are committed when the `get` arrives would be enough. -/
theorem neverStale_of_readsAtIndex (rt : Runtime P) (hl : rt.Lossless) {as : List (GroupAct P)}
    (hG : Exec.Along (step rt) ReadsAtIndex init as) : Exec.Throughout (step rt) (NeverStale rt) init as := by
  refine neverStale_of_along hl (Exec.along_mono ?_ hG)
  rintro g act hr hG id call hact - - a request response k ⟨⟨k₁, hk₁⟩, -, hs⟩ hp
  obtain ⟨i, hi, ho⟩ := (reachable_added hl hr).early a request k₁ response id .get k hk₁ hp hs
  have hk := hG id.1 id.2 k hact hp.mem_right
  exact ⟨i, by omega, ho⟩

end LearnTogether.Group
