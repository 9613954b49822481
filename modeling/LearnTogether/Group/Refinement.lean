import LearnTogether.Base.Refinement
import LearnTogether.Group.AtomicCounter
import LearnTogether.Group.Linear

/-!
# The group refines an atomic counter

A commit is the moment in which the addition of the entry is taken; what a client sees of a call happens in the atomic
counter as it happens in the group; every other step of the group shows nothing.  `Refines` relates the two states:
the value is what the whole log makes of zero, and a taken addition is an entry of the log.  So every run of the
group, with all its crashes, elections, snapshots and restarts, looks to the clients like a run of the atomic counter.
-/

namespace LearnTogether

open WrapSum

/-- What the clients see of an event of the group. -/
def Event.visible {P : Type} : Event P → Option (Visible (P × Nat))
  | .invoke id request _ => some (.invoke id request)
  | .propose _ => none
  | .answer id response => some (.answer id response)

def Visible.act {ι : Type} : Visible ι → AtomicAct ι
  | .invoke id request => .invoke id request
  | .answer id response => .answer id response

/-- `done` is not taken back. -/
private theorem Call.Moves.doneRuns_le {P : Type} {rt : Runtime P} {c : Counter} {call call' : Call}
    (h : call.Moves rt c call') : call.doneRuns ≤ call'.doneRuns := by
  rcases h with rfl | ⟨a, hs⟩ | ⟨_, rfl⟩
  · exact Nat.le_refl _
  · cases step_outcome hs with
    | leave => dsimp only; split <;> omega
    | finish => exact Nat.le_succ _
    | _ => exact Nat.le_refl _
  · exact Nat.le_refl _

namespace Group

variable {P : Type}

/-- The actions of the atomic counter that a step stands for: one for each new entry of the log and each new event
that the clients see. -/
def shows (g g' : Group P) : List (AtomicAct (P × Nat)) :=
  (g'.log.drop g.log.length).map (fun e => .take e.owner) ++
    ((g'.history.drop g.history.length).filterMap Event.visible).map Visible.act

structure Refines (rt : Runtime P) (g : Group P) (s : AtomicCounter (P × Nat)) : Prop where
  value : s.value = wrapSum (g.deltas rt)
  values : ∀ j, j ≤ g.log.length → wrapSum ((g.deltas rt).take j) ∈ s.values
  asked : ∀ id request, s.asked id = some request ↔ ∃ k, Event.invoke id request k ∈ g.history
  taken : ∀ id v, s.taken id = some v ↔ ∃ i, g.OwnsAt id i ∧ v = wrapSum ((g.deltas rt).take i)
  history : s.history = g.history.filterMap Event.visible

variable {rt : Runtime P} {g g' : Group P} {s : AtomicCounter (P × Nat)}

private theorem shows_of_eq (hl : g'.log = g.log) (hh : g'.history = g.history) : shows g g' = [] := by
  simp [shows, hl, hh]

private theorem shows_of_event {e : Event P} (hl : g'.log = g.log) (hh : g'.history = g.history ++ [e]) :
    shows g g' = ((e.visible).map Visible.act).toList := by
  simp only [shows, hl, hh, List.drop_length, List.map_nil, List.nil_append, List.drop_left]
  cases e <;> rfl

/-- A step that changes neither the log nor what the clients see keeps the relation. -/
private theorem Refines.of_same (hi : Refines rt g s) (hl : g'.log = g.log)
    (hk : ∀ id request k, Event.invoke id request k ∈ g'.history ↔ Event.invoke id request k ∈ g.history)
    (hh : g'.history.filterMap Event.visible = g.history.filterMap Event.visible) : Refines rt g' s := by
  have hd : g'.deltas rt = g.deltas rt := by simp only [deltas, hl]
  have ho : ∀ id i, g'.OwnsAt id i ↔ g.OwnsAt id i := fun id i => by simp only [OwnsAt, hl]
  refine ⟨?_, ?_, fun id request => ?_, fun id v => ?_, by rw [hh]; exact hi.history⟩
  · rw [hd]; exact hi.value
  · rw [hd, hl]; exact hi.values
  · rw [hi.asked]
    simp only [hk]
  · rw [hi.taken]
    simp only [ho, hd]

private theorem Refines.asked_none (hi : Refines rt g s) (hr : Recorded rt g) {id : P × Nat}
    (hn : (g.servers id.1).nextCall = id.2) : s.asked id = none := by
  cases hs : s.asked id with
  | none => rfl
  | some request =>
    obtain ⟨k, hk⟩ := (hi.asked id request).1 hs
    have := hr.numbered id request k hk
    omega

private theorem Refines.asked_of_callOf (hi : Refines rt g s) (hr : Recorded rt g) {id : P × Nat} {call : Call}
    (hc : g.callOf id = some call) : s.asked id = some call.request :=
  (hi.asked id call.request).2 (hr.arrived id call hc)

private theorem ownsAt_commit {e : Entry P} (hlog : g'.log = g.log ++ [e]) {id : P × Nat} {i : Nat} :
    g'.OwnsAt id i ↔ g.OwnsAt id i ∨ (i = g.log.length ∧ e.owner = id) := by
  constructor
  · intro h
    have hlt := h.lt_length
    rw [hlog, List.length_append, List.length_singleton] at hlt
    by_cases hi : i < g.log.length
    · exact Or.inl (h.of_append hlog hi)
    · have hi : i = g.log.length := by omega
      subst hi
      obtain ⟨e', he, ho⟩ := h
      rw [hlog, List.getElem?_concat_length] at he
      cases he
      exact Or.inr ⟨rfl, ho⟩
  · rintro (h | ⟨rfl, ho⟩)
    · exact h.append hlog
    · exact ⟨e, by rw [hlog, List.getElem?_concat_length], ho⟩

private theorem take_deltas_commit {e : Entry P} (hlog : g'.log = g.log ++ [e]) {j : Nat} (hj : j ≤ g.log.length) :
    (g'.deltas rt).take j = (g.deltas rt).take j := by
  rw [deltas, deltas, ← List.map_take, ← List.map_take, hlog, List.take_append_of_le_length hj]

private theorem take_deltas_length : (g.deltas rt).take g.log.length = g.deltas rt := by
  rw [deltas, ← List.map_take, List.take_length]

variable [DecidableEq P]

private theorem Refines.invoke (hi : Refines rt g s) (hr : Recorded rt g) {id : P × Nat} {request : Request} {k : Nat}
    (hn : (g.servers id.1).nextCall = id.2) (hh : g'.history = g.history ++ [.invoke id request k])
    (hl : g'.log = g.log) :
    ∃ s', AtomicCounter.step s (.invoke id request) = some s' ∧ Refines rt g' s' := by
  have hd : g'.deltas rt = g.deltas rt := by simp only [deltas, hl]
  have ha := hi.asked_none hr hn
  refine ⟨_, by simp only [AtomicCounter.step, ha]; rfl, ?_, ?_, ?_, ?_, ?_⟩
  · rw [hd]; exact hi.value
  · rw [hd, hl]; exact hi.values
  · intro i request'
    rw [hh]
    show Function.update s.asked id (some request) i = some request' ↔ _
    by_cases he : i = id
    · subst he
      rw [Function.update_self]
      constructor
      · intro h
        cases h
        exact ⟨k, by simp⟩
      · rintro ⟨k', hk⟩
        rcases List.mem_append.1 hk with hk | hk
        · rw [(hi.asked i request').2 ⟨k', hk⟩] at ha
          cases ha
        · cases List.mem_singleton.1 hk
          rfl
    · rw [Function.update_of_ne he, hi.asked]
      simp [he]
  · intro i v
    rw [hi.taken, hd]
    simp only [OwnsAt, hl]
  · rw [hh, List.filterMap_append, ← hi.history]
    rfl

/-- The addition of an entry is taken when the entry is committed, which a success does not come before. -/
private theorem Refines.commit (hl : rt.Lossless) (h : Exec.Reachable (step rt) init g) (hi : Refines rt g s)
    {e : Entry P} (he : e ∈ g.entries) (hnew : ∀ i, ¬ g.OwnsAt e.owner i) (hlog : g'.log = g.log ++ [e])
    (hh : g'.history = g.history) :
    ∃ s', AtomicCounter.step s (.take e.owner) = some s' ∧ Refines rt g' s' := by
  obtain ⟨request, k, hk, hd⟩ := (reachable_recorded h).data e he
  have hsum : wrapSum (g'.deltas rt) = s.value + request.value := by
    rw [deltas, hlog, List.map_append, wrapSum_append, ← deltas, hi.value, List.map_singleton,
      Runtime.delta_serialize hl hd, wrapSum_cons, wrapSum_nil, Int64.add_zero]
  have ha : s.asked e.owner = some (.fetchAdd request) := (hi.asked _ _).2 ⟨k, hk⟩
  have ht : s.taken e.owner = none := by
    cases hv : s.taken e.owner with
    | none => rfl
    | some v =>
      obtain ⟨i, ho, -⟩ := (hi.taken _ _).1 hv
      exact absurd ho (hnew i)
  have hopen : ¬ (s.answered e.owner = true ∧ s.refused e.owner = false) := by
    rintro ⟨hans, hnot⟩
    rw [AtomicCounter.refused_of_answered (fun response hm => ?_) hans] at hnot
    · cases hnot
    · rw [hi.history, List.mem_filterMap] at hm
      obtain ⟨event, hevent, hv⟩ := hm
      cases event with
      | invoke | propose => cases hv
      | answer i r =>
        cases hv
        rcases complete_of_answer h hevent with ⟨hok, -⟩ | ⟨hno, -⟩
        · -- a success has its entry already
          obtain ⟨j, ho, -⟩ := (reachable_added hl h).answers e.owner request k response hk hevent hok
          exact absurd ho (hnew j)
        · exact hno
  refine ⟨_, by simp only [AtomicCounter.step, ha, ht, if_neg hopen]; rfl, hsum.symm, ?_, ?_, ?_, ?_⟩
  · intro j hj
    show _ ∈ s.values ++ [s.value + request.value]
    rw [hlog, List.length_append, List.length_singleton] at hj
    by_cases hlast : j ≤ g.log.length
    · rw [take_deltas_commit hlog hlast]
      exact List.mem_append_left _ (hi.values j hlast)
    · have hj : j = g'.log.length := by
        rw [hlog, List.length_append, List.length_singleton]
        omega
      rw [hj, take_deltas_length, hsum]
      exact List.mem_append_right _ (List.mem_singleton_self _)
  · intro id request'
    rw [hh]
    exact hi.asked id request'
  · intro id v
    show Function.update s.taken e.owner (some s.value) id = some v ↔ _
    simp only [ownsAt_commit hlog]
    by_cases hid : id = e.owner
    · subst hid
      have hval : s.value = wrapSum ((g'.deltas rt).take g.log.length) := by
        rw [take_deltas_commit hlog (Nat.le_refl _), take_deltas_length]
        exact hi.value
      rw [Function.update_self, Option.some.injEq]
      constructor
      · rintro rfl
        exact ⟨g.log.length, Or.inr ⟨rfl, rfl⟩, hval⟩
      · rintro ⟨i, ho | ⟨rfl, -⟩, hv⟩
        · exact absurd ho (hnew i)
        · exact hval.trans hv.symm
    · rw [Function.update_of_ne hid, hi.taken]
      constructor
      · rintro ⟨i, ho, hv⟩
        exact ⟨i, Or.inl ho, by rw [take_deltas_commit hlog (Nat.le_of_lt ho.lt_length)]; exact hv⟩
      · rintro ⟨i, ho | ⟨-, ho⟩, hv⟩
        · exact ⟨i, ho, by rw [take_deltas_commit hlog (Nat.le_of_lt ho.lt_length)] at hv; exact hv⟩
        · exact absurd ho.symm hid
  · rw [hh]
    exact hi.history

/-- The value of a `get` that was answered with success is one that the log has made. -/
private theorem reachable_loaded (hl : rt.Lossless) (h : Exec.Reachable (step rt) init g) : ∀ id call,
    g.callOf id = some call → call.request = .get → call.response.success = some true →
    ∃ j, j ≤ g.log.length ∧ call.response.value = some (wrapSum ((g.deltas rt).take j)) := by
  refine Exec.Reachable.induction (I := fun g => ∀ id call, g.callOf id = some call → call.request = .get →
    call.response.success = some true → ∃ j, j ≤ g.log.length ∧
      call.response.value = some (wrapSum ((g.deltas rt).take j))) ?_ ?_ h
  · intro id call hc
    cases hc
  · intro t act u ht ha hi id call' hc' hreq hs
    have hch := step_change ha
    obtain ⟨new, hlog⟩ := hch.log
    have hgrow : ∀ j, j ≤ t.log.length → j ≤ u.log.length ∧ (u.deltas rt).take j = (t.deltas rt).take j := by
      intro j hj
      refine ⟨by rw [hlog, List.length_append]; omega, ?_⟩
      rw [deltas, deltas, ← List.map_take, ← List.map_take, hlog, List.take_append_of_le_length hj]
    rcases hch.success hc' hs with ⟨call, hc, he, hresp⟩ | ⟨e, call, hg, -, rfl⟩ | ⟨call, hc, hh, he, -, hv⟩
    · rw [hresp] at hs ⊢
      obtain ⟨j, hj, hv⟩ := hi id call hc (he.symm.trans hreq) hs
      exact ⟨j, (hgrow j hj).1, by rw [(hgrow j hj).2]; exact hv⟩
    · -- braft holds closures of `fetch_add` only
      have hne : call.closure ≠ .none := by
        intro hn
        have hp := hg.pending
        simp [Call.pending, hn] at hp
      obtain ⟨request, hf⟩ := (reachable_typed ht hg.arrived).handed hne
      rw [show call.request = .get from hreq] at hf
      cases hf
    · have hn := ((reachable_replicated hl ht).nodes id.1).value
      refine ⟨(t.servers id.1).applied, (hgrow _ hn.bound).1, ?_⟩
      rw [(hgrow _ hn.bound).2, deltas, ← List.map_take, ← hn.wrapSum]
      exact hv

/-- A call whose answer is recorded has run its `done`. -/
theorem reachable_ran (h : Exec.Reachable (step rt) init g) : ∀ id response call,
    Event.answer id response ∈ g.history → g.callOf id = some call → 0 < call.doneRuns := by
  refine Exec.Reachable.induction (I := fun g => ∀ id response call, Event.answer id response ∈ g.history →
    g.callOf id = some call → 0 < call.doneRuns) ?_ ?_ h
  · intro id response call ha
    cases ha
  · intro t act u ht ha hi id response call' han hc'
    have hch := step_change ha
    have hr := reachable_recorded ht
    rcases hch.mem_answer han with han | ⟨_, call, call'', _, _, _, hd, hc'', _⟩
    · rcases hch.callOf hc' with ⟨call, hc, hm⟩ | ⟨hn, _⟩
      · exact Nat.lt_of_lt_of_le (hi id response call han hc) hm.doneRuns_le
      · -- the number of an answered call is not given out again
        obtain ⟨request, k, hk⟩ := hr.answered id response han
        have := hr.numbered id request k hk
        omega
    · rw [hc''] at hc'
      cases hc'
      omega

private theorem Refines.answer (hl : rt.Lossless) (h : Exec.Reachable (step rt) init g) (hi : Refines rt g s)
    {id : P × Nat} {a : CallAct P} {call call' : Call} (hc : g.callOf id = some call)
    (hs : call.step rt (g.servers id.1).counter a = some call') (hd : call.doneRuns < call'.doneRuns)
    (hh : g'.history = g.history ++ [.answer id call'.response]) (hlog : g'.log = g.log) :
    ∃ s', AtomicCounter.step s (.answer id call'.response) = some s' ∧ Refines rt g' s' := by
  have hr := reachable_recorded h
  have ho := reachable_owned h hc
  have ho' := Call.owned_step hs ho
  obtain ⟨hcomplete, hresp⟩ := Call.response_at_run hs ho hd
  have ha := hi.asked_of_callOf hr hc
  have hans : s.answered id = false := by
    refine AtomicCounter.answered_eq_false fun response hm => ?_
    rw [hi.history, List.mem_filterMap] at hm
    obtain ⟨e, he, hv⟩ := hm
    cases e with
    | invoke | propose => cases hv
    | answer i r =>
      cases hv
      have := reachable_ran h id response call he hc
      have := ho'.once
      omega
  have hallow : s.allows id call.request call'.response = true := by
    rw [hresp]
    rcases hcomplete with ⟨hok, hv, hred⟩ | ⟨hno, hv, -⟩
    · obtain ⟨v, hv⟩ := Option.isSome_iff_exists.1 hv
      simp only [AtomicCounter.allows, hok, hv, hred, Option.isNone_none, Bool.true_and]
      cases hreq : call.request with
      | fetchAdd request =>
        obtain ⟨i, hown, hval⟩ := (reachable_added hl h).calls id call request hc hreq hok
        rw [hv, Option.some.injEq] at hval
        simp only [AtomicCounter.gives, decide_eq_true_eq]
        exact (hi.taken id v).2 ⟨i, hown, hval⟩
      | get =>
        obtain ⟨j, hj, hval⟩ := reachable_loaded hl h id call hc hreq hok
        rw [hv, Option.some.injEq] at hval
        simp only [AtomicCounter.gives, decide_eq_true_eq, hval]
        exact hi.values j hj
    · simp only [AtomicCounter.allows, hno, hv]
  refine ⟨_, by simp only [AtomicCounter.step, ha, hans, hallow, and_self, if_true]; rfl, ?_⟩
  have hsame : Refines rt g' { s with history := g'.history.filterMap Event.visible } := by
    refine (Refines.of_same (s := { s with history := g'.history.filterMap Event.visible })
      (g := { g with history := g'.history }) ?_ hlog (fun _ _ _ => Iff.rfl) rfl)
    refine ⟨hi.value, hi.values, fun i request => ?_, hi.taken, rfl⟩
    rw [hi.asked, hh]
    simp
  rw [hh, List.filterMap_append, ← hi.history] at hsame
  exact hsame

private theorem refines_step (hl : rt.Lossless) {act : GroupAct P} (h : Exec.Reachable (step rt) init g)
    (hi : Refines rt g s) (ha : step rt g act = some g') :
    ∃ s', Exec.exec AtomicCounter.step s (shows g g') = some s' ∧ Refines rt g' s' := by
  have hr := reachable_recorded h
  have hstay : g'.log = g.log → g'.history = g.history →
      ∃ s', Exec.exec AtomicCounter.step s (shows g g') = some s' ∧ Refines rt g' s' := by
    intro hlog hh
    exact ⟨s, by rw [shows_of_eq hlog hh]; rfl, hi.of_same hlog (fun _ _ _ => by rw [hh]) (by rw [hh])⟩
  have hone : ∀ {b s'}, shows g g' = [b] → AtomicCounter.step s b = some s' →
      Exec.exec AtomicCounter.step s (shows g g') = some s' := by
    intro b s' hb hs
    rw [hb, Exec.exec_cons, hs]
    rfl
  cases step_change ha with
  | stay _ hh hlog _ | call _ _ _ _ _ _ _ _ _ hh hlog | applied _ _ _ _ _ _ hh hlog => exact hstay hlog hh
  | invoke id request hn _ _ hh hlog =>
    obtain ⟨s', hs, hi'⟩ := hi.invoke hr hn hh hlog
    exact ⟨s', hone (shows_of_event hlog hh) hs, hi'⟩
  | propose id _ _ _ _ _ _ hh hlog =>
    refine ⟨s, by rw [shows_of_event hlog hh]; rfl, hi.of_same hlog (fun _ _ _ => ?_) ?_⟩
    · rw [hh]
      simp
    · rw [hh, List.filterMap_append]
      exact List.append_nil _
  | answer id a call call' hc hs _ hd _ hh hlog =>
    obtain ⟨s', hst, hi'⟩ := hi.answer hl h hc hs hd hh hlog
    exact ⟨s', hone (shows_of_event hlog hh) hst, hi'⟩
  | commit i e he _ hh hlog hprop =>
    have hmem : e ∈ g.entries := List.mem_append_right _ (List.mem_of_getElem? he)
    have hnew : ∀ j, ¬ g.OwnsAt e.owner j := by
      -- otherwise the call would own two entries of the new log
      intro j ho
      have hlt := ho.lt_length
      have hlast : g'.OwnsAt e.owner g.log.length := ⟨e, by rw [hlog, List.getElem?_concat_length], rfl⟩
      have := OwnsAt.unique (reachable_recorded (h.tail ha)) (ho.append hlog) hlast
      omega
    obtain ⟨s', hst, hi'⟩ := hi.commit hl h hmem hnew hlog hh
    refine ⟨s', hone ?_ hst, hi'⟩
    simp [shows, hlog, hh]

private theorem atomicCounter_simulation (hl : rt.Lossless) : Refinement.ForwardSimulation (step rt) init
    AtomicCounter.step AtomicCounter.init shows (Refines rt) where
  init := by
    refine ⟨rfl, ?_, ?_, ?_, rfl⟩
    · intro j hj
      obtain rfl : j = 0 := Nat.le_zero.1 hj
      exact List.mem_singleton_self _
    · simp [init, AtomicCounter.init]
    · simp [init, AtomicCounter.init, OwnsAt]
  step _ _ _ _ h hi ha := refines_step hl h hi ha

/-- Every run of the group is, for its clients, a run of the atomic counter: it shows the same invocations and
answers, and leaves the counter with the value of the whole log. -/
theorem refines_atomicCounter (rt : Runtime P) (hl : rt.Lossless) {as : List (GroupAct P)} {g : Group P}
    (h : Exec.exec (step rt) init as = some g) :
    ∃ s, Exec.exec AtomicCounter.step AtomicCounter.init (Refinement.trace (step rt) shows init as) = some s ∧
      s.history = g.history.filterMap Event.visible ∧ s.value = wrapSum (g.deltas rt) := by
  obtain ⟨s, hs, hi⟩ := (atomicCounter_simulation hl).run h
  exact ⟨s, hs, hi.history, hi.value⟩

/-- Node 1 answers an addition after its commit; node 2 has it from a snapshot. -/
theorem refines_atomicCounter_snapshotRun : ∃ g s, Exec.exec (step (protobuf Nat.repr)) init snapshotRun = some g ∧
    Exec.exec AtomicCounter.step AtomicCounter.init
      (Refinement.trace (step (protobuf Nat.repr)) shows init snapshotRun) = some s ∧
    s.history = g.history.filterMap Event.visible ∧ s.value = 5 := by
  obtain ⟨g, hg, hd⟩ : ∃ g, Exec.exec (step (protobuf Nat.repr)) init snapshotRun = some g ∧
      wrapSum (g.deltas (protobuf Nat.repr)) = 5 := ⟨_, rfl, rfl⟩
  obtain ⟨s, hs, hh, hv⟩ := refines_atomicCounter (protobuf Nat.repr) (protobuf_lossless Nat.repr) hg
  exact ⟨g, s, hg, hs, hh, hv.trans hd⟩

end Group

end LearnTogether
