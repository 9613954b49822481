import LearnTogether.Group.Read
import Mathlib.Data.Fintype.Basic

/-!
# Overlapping leaderships

`get` asks only the local `_leader_term` whether the node is the leader and up to date.  A node that was deposed and
has not yet been told passes this test, and answers with a value that may miss additions that were answered elsewhere
(`staleRead`).  Two nodes may act as leader at once all the same: no `get` is stale as long as `on_apply` completes
additions only while no other node acts as leader, and a node has applied the whole log when it is told to lead
(`neverStale_of_leadsAlone`).  The invariant is that a node that acts as leader has applied every addition that has
got its success, on whatever node; a `get` keeps this from its leader test to its load.
-/

namespace LearnTogether

/-- A `get` passes the leader test only in a process that acts as leader. -/
private theorem Call.Moves.leading {P : Type} {rt : Runtime P} {c : Counter} {call call' : Call}
    (h : call.Moves rt c call') (hh : call'.handler = .leading) :
    call.handler = .leading ∨ c.isLeader = true := by
  rcases h with rfl | ⟨a, hs⟩ | ⟨_, rfl⟩
  · exact Or.inl hh
  · cases step_outcome hs with
    | getPassed _ _ hl => exact Or.inr hl
    | fail | run | runRedirect | finish => exact Or.inl hh
    | _ => cases hh
  · exact Or.inl hh

namespace Group

open History

variable {P : Type}

/-- What keeps the leaders of a group from getting in each other's way. -/
def LeadsAlone (g : Group P) : GroupAct P → Prop
  -- `on_apply` gets a closure only while no other node acts as leader
  | .node m (.callback (.applyNext _ (some _))) => ∀ n, n ≠ m → (g.servers n).counter.isLeader = false
  -- a node has applied the whole log when it is told to lead
  | .node n (.callback (.leaderStart _)) => (g.servers n).applied = g.log.length
  -- no snapshot is loaded that is behind the node
  | .node n (.callback (.snapshotLoad reader)) => (g.servers n).applied ≤ reader.index
  | _ => True

/-- The leaders have seen all additions, and so has a node on which a `get` has passed the leader test, as far as the
`get` has to know them. -/
structure LeadersSeeAll (g : Group P) : Prop where
  leader : ∀ n, (g.servers n).counter.isLeader = true → ∀ id request response,
    g.Got id (.fetchAdd request) response → ∃ i, i < (g.servers n).applied ∧ g.OwnsAt id i
  passed : ∀ id call, g.callOf id = some call → call.handler = .leading → g.Covers id (g.servers id.1).applied

private theorem keepsForward {g : Group P} {act : GroupAct P} {n : P} (hG : LeadsAlone g act) (hn : act ≠ .restart n) :
    KeepsForward n g act := by
  refine ⟨hn, ?_⟩
  rintro reader rfl
  exact hG

variable [DecidableEq P] {rt : Runtime P} {g g' : Group P} {act : GroupAct P}

instance [Fintype P] (g : Group P) (act : GroupAct P) : Decidable (LeadsAlone g act) := by
  unfold LeadsAlone
  split <;> infer_instance

private theorem exists_ownsAt (hl : rt.Lossless) (ht : Exec.Reachable (step rt) init g) {id : P × Nat}
    {request : FetchAddRequest} {response : CounterResponse} (hgot : g.Got id (.fetchAdd request) response) :
    ∃ i, g.OwnsAt id i := by
  have hadd := reachable_added hl ht
  obtain ⟨hs, ⟨call, hc, hreq, rfl⟩ | ⟨⟨k, hk⟩, ha⟩⟩ := hgot
  · obtain ⟨i, ho, -⟩ := hadd.calls id call request hc hreq hs
    exact ⟨i, ho⟩
  · obtain ⟨i, ho, -⟩ := hadd.answers id request k response hk ha hs
    exact ⟨i, ho⟩

private theorem leader_step (hl : rt.Lossless) (ht : Exec.Reachable (step rt) init g) (h : step rt g act = some g')
    (hG : LeadsAlone g act) (hi : LeadersSeeAll g) {n : P} (hn : (g'.servers n).counter.isLeader = true)
    {id : P × Nat} {request : FetchAddRequest} {response : CounterResponse}
    (hgot : g'.Got id (.fetchAdd request) response) : ∃ i, i < (g'.servers n).applied ∧ g'.OwnsAt id i := by
  have hch := step_change h
  obtain ⟨new, hlog⟩ := hch.log
  have hmono : (g.servers n).applied ≤ (g'.servers n).applied := by
    refine applied_step h (keepsForward hG ?_)
    rintro rfl
    cases h
    rw [setServer_self] at hn
    cases hn
  rcases hch.got (reachable_recorded ht) (reachable_recorded (ht.tail h)) hgot with
    hold | ⟨e, call, hg, ⟨data, rfl⟩, -, -⟩ | ⟨call, hc, hh, hreq, -, -⟩
  · rcases isLeader_step h hn with hn | ⟨term, hact⟩
    · obtain ⟨i, hlt, ho⟩ := hi.leader n hn id request response hold
      exact ⟨i, by omega, ho.append hlog⟩
    · -- a new leader has the whole log
      subst hact
      obtain ⟨i, ho⟩ := exists_ownsAt hl ht hold
      have hall : (g.servers n).applied = g.log.length := hG
      have := ho.lt_length
      exact ⟨i, by omega, ho.append hlog⟩
  · -- the addition is completed on the leader itself
    have hn : (g.servers n).counter.isLeader = true := by
      rcases isLeader_step h hn with hn | ⟨term, hact⟩
      · exact hn
      · cases hact
    obtain rfl : n = id.1 := by
      by_contra hne
      rw [show (g.servers n).counter.isLeader = false from hG n hne] at hn
      cases hn
    have ho : g.OwnsAt id (g.servers id.1).applied := ⟨e, hg.entry, hg.owner⟩
    have := applied_applyNext h
    exact ⟨(g.servers id.1).applied, by omega, ho.append hlog⟩
  · rw [(reachable_typed ht hc).leading hh] at hreq
    cases hreq

private theorem passed_step (ht : Exec.Reachable (step rt) init g) (h : step rt g act = some g')
    (hG : LeadsAlone g act) (hi : LeadersSeeAll g) {id : P × Nat} {call' : Call} (hc' : g'.callOf id = some call')
    (hh' : call'.handler = .leading) : g'.Covers id (g'.servers id.1).applied := by
  have hr := reachable_recorded ht
  have hr' := reachable_recorded (ht.tail h)
  have hch := step_change h
  obtain ⟨new, hlog⟩ := hch.log
  have hmono : (g.servers id.1).applied ≤ (g'.servers id.1).applied := by
    refine applied_step h (keepsForward hG ?_)
    rintro rfl
    cases h
    rw [callOf, setServer_self] at hc'
    cases hc'
  rcases hch.callOf hc' with ⟨call, hc, hm⟩ | ⟨-, hnew, -⟩
  · rcases hm.leading hh' with hh | hlead
    · obtain ⟨k, hk⟩ := hr.arrived id call hc
      exact ((hi.passed id call hc hh).step hr hr' hch hk).mono hmono
    · -- what was answered before the `get` was invoked has got its success before the leader test
      rintro a request response k ⟨hk, ha, hs⟩ hp
      have hgot := hch.got_of_precedes hr hr' ⟨hs, Or.inr ⟨hk, ha⟩⟩ hp
      obtain ⟨i, hlt, ho⟩ := hi.leader id.1 hlead a request response hgot
      exact ⟨i, by omega, ho.append hlog⟩
  · rw [hnew] at hh'
    cases hh'

private theorem leadersSeeAll_step (hl : rt.Lossless) (ht : Exec.Reachable (step rt) init g)
    (h : step rt g act = some g') (hG : LeadsAlone g act) (hi : LeadersSeeAll g) : LeadersSeeAll g' :=
  ⟨fun _ hn _ _ _ => leader_step hl ht h hG hi hn, fun _ _ => passed_step ht h hG hi⟩

/-- In every run in which additions are completed only while no other node acts as leader, and a node that is told to
lead has applied the whole log, no answer of a `get` is stale. -/
theorem neverStale_of_leadsAlone (rt : Runtime P) (hl : rt.Lossless) {as : List (GroupAct P)}
    (hG : Exec.Along (step rt) LeadsAlone init as) : Exec.Throughout (step rt) (NeverStale rt) init as := by
  refine neverStale_of_along hl (Exec.along_of_invariant (I := LeadersSeeAll) ?_ ?_ ?_ hG)
  · constructor <;> simp [init, callOf, Got]
  · intro t act u ht ha hG hi
    exact leadersSeeAll_step hl ht ha hG hi
  · intro t act _ hi _ id call _ hc hh
    exact hi.passed id call hc hh

/-- Node `n` follows node `m`, which has answered an addition of 5, and is elected.  Both act as leader until node `m`,
which still answers a `get`, is told; then node `n` adds 7 and answers a `get`, too. -/
def handOver (m n : P) : List (GroupAct P) :=
  on m Server.startUp ++ lead m 1 ++ on m (Server.propose 0 ⟨5⟩) ++ [.commit 0] ++
    on m (Server.applyOne (serializeValue 5) (some 0) ++ [.call 0 (.run none), .call 0 .finish]) ++
    on n (Server.startUp ++ Server.applyOne (serializeValue 5) none) ++ lead n 2 ++
    on m [.invoke .get, .call 1 .test, .call 1 .load, .call 1 .leave, .callback .leaderStop] ++
    on n (Server.propose 0 ⟨7⟩) ++ [.commit 0] ++
    on n (Server.applyOne (serializeValue 7) (some 0) ++ [.call 0 (.run none), .call 0 .finish, .invoke .get,
      .call 1 .test, .call 1 .load, .call 1 .leave])

theorem neverStale_handOver : ∃ g, Exec.exec (step (protobuf toString)) init (handOver false true) = some g ∧
    g.deltas (protobuf toString) = [5, 7] ∧ Event.answer (false, 1) ⟨some true, some 5, none⟩ ∈ g.history ∧
    Event.answer (true, 1) ⟨some true, some 12, none⟩ ∈ g.history ∧ g.NeverStale (protobuf toString) := by
  have hG : Exec.Along (step (protobuf toString)) LeadsAlone init (handOver false true) := by decide
  obtain ⟨g, hg, hd, hm, hn⟩ : ∃ g, Exec.exec (step (protobuf toString)) init (handOver false true) = some g ∧
      g.deltas (protobuf toString) = [5, 7] ∧ Event.answer (false, 1) ⟨some true, some 5, none⟩ ∈ g.history ∧
      Event.answer (true, 1) ⟨some true, some 12, none⟩ ∈ g.history := ⟨_, rfl, rfl, by decide, by decide⟩
  exact ⟨g, hg, hd, hm, hn, neverStale_of_leadsAlone _ (protobuf_lossless _) hG _ g (List.prefix_refl _) hg⟩

/-- Node 2 is elected, adds 5 and answers, while node 1 has not been told that it no longer leads. -/
def staleRead : List (GroupAct Nat) :=
  on 1 Server.startUp ++ on 2 Server.startUp ++ lead 1 1 ++ lead 2 2 ++ on 2 (Server.propose 0 ⟨5⟩) ++ [.commit 0] ++
    on 2 (Server.applyOne (serializeValue 5) (some 0) ++ [.call 0 (.run none), .call 0 .finish]) ++
    on 1 [.invoke .get, .call 0 .test, .call 0 .load, .call 0 .leave]

private theorem staleRead_end : ∃ g, Exec.exec (step (protobuf Nat.repr)) init staleRead = some g ∧
    g.log.length = 1 ∧ g.deltas (protobuf Nat.repr) = [5] ∧
    g.history = [.invoke (2, 0) (.fetchAdd ⟨5⟩) 0, .propose (2, 0), .answer (2, 0) ⟨some true, some 0, none⟩,
      .invoke (1, 0) .get 1, .answer (1, 0) ⟨some true, some 0, none⟩] :=
  ⟨_, rfl, rfl, rfl, rfl⟩

theorem staleRead_stale : ∃ g, Exec.exec (step (protobuf Nat.repr)) init staleRead = some g ∧
    ¬ NeverStale (protobuf Nat.repr) g := by
  obtain ⟨g, hg, hlen, hd, hh⟩ := staleRead_end
  refine ⟨g, hg, fun h => ?_⟩
  obtain ⟨j, hj, hv, hc⟩ := h (1, 0) 1 ⟨some true, some 0, none⟩ (by simp [hh]) (by simp [hh]) rfl
  have hadd : g.Succeeded (2, 0) ⟨5⟩ ⟨some true, some 0, none⟩ := ⟨⟨0, by simp [hh]⟩, by simp [hh], rfl⟩
  obtain ⟨i, hi, -⟩ := hc (2, 0) ⟨5⟩ _ 1 hadd (by rw [hh]; decide)
  have hj1 : j = 1 := by omega
  rw [hd, hj1] at hv
  exact absurd hv (by decide)

end Group

end LearnTogether
