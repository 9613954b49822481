import LearnTogether.Group.Ledger

/-!
# Terms

`_leader_term` is -1 or the term that `on_leader_start` was given, so the two leader tests of the server, `term < 0` in
`fetch_add` and `_leader_term > 0` in `is_leader`, agree in every state.  With `check_term` a task carries the term of
its own leader test, whatever happened to the leadership in between, and this term is one that the node was elected
for.  Since a term is won once, no two nodes act as leader in one term and no two nodes have tasks for one term.
-/

namespace LearnTogether

/-- A term that is positive and has the property `L`. -/
def Won (L : Int → Prop) (term : Int) : Prop := 0 < term ∧ L term

private theorem Won.mono {L L' : Int → Prop} (hL : ∀ term, L term → L' term) {term : Int} (h : Won L term) :
    Won L' term :=
  ⟨h.1, hL term h.2⟩

/-- `_leader_term` of a process that has won only terms with `L`. -/
def Counter.Termed (L : Int → Prop) (c : Counter) : Prop := c.leaderTerm = -1 ∨ Won L c.leaderTerm

private theorem Counter.Termed.won {L : Int → Prop} {c : Counter} (h : c.Termed L) (hn : ¬ c.leaderTerm < 0) :
    Won L c.leaderTerm := by
  rcases h with h | h
  · omega
  · exact h

/-- Both leader tests of the server give the same answer. -/
private theorem Counter.Termed.isLeader {L : Int → Prop} {c : Counter} (h : c.Termed L) :
    c.isLeader = true ↔ ¬ c.leaderTerm < 0 := by
  unfold Counter.isLeader
  rw [decide_eq_true_eq]
  rcases h with h | h
  · omega
  · have := h.1
    omega

namespace Call

variable {P : Type} {rt : Runtime P} {L : Int → Prop}

/-- The expected term of a task of a handler that has loaded `term`. -/
def expected (rt : Runtime P) (term : Int) : Int := if rt.checkTerm then term else -1

/-- All terms that the call has loaded or handed over have `L`. -/
structure Termed (rt : Runtime P) (L : Int → Prop) (call : Call) : Prop where
  tested : ∀ term, call.handler = .tested term → Won L term
  serialized : ∀ term log, call.handler = .serialized term log → Won L term
  handed : ∀ task, call.closure = .inBraft task → ∃ term, Won L term ∧ task.expectedTerm = expected rt term

private theorem termed_new (request : Request) : Termed rt L { request } :=
  ⟨by simp, by simp, by simp⟩

private theorem Termed.mono {L' : Int → Prop} (hL : ∀ term, L term → L' term) {call : Call} (h : Termed rt L call) :
    Termed rt L' call := by
  refine ⟨fun term hh => (h.tested term hh).mono hL, fun term log hh => (h.serialized term log hh).mono hL, ?_⟩
  intro task hc
  obtain ⟨term, hw, he⟩ := h.handed task hc
  exact ⟨term, hw.mono hL, he⟩

private theorem termed_step {c : Counter} (hct : c.Termed L) {call call' : Call} {a : CallAct P}
    (h : call.step rt c a = some call') (ht : Termed rt L call) : Termed rt L call' := by
  cases step_outcome h with
  | passed _ _ hn =>
    refine ⟨fun term hh => ?_, by simp, ht.handed⟩
    cases hh
    exact hct.won hn
  | serialized hh _ =>
    refine ⟨by simp, fun term log hs => ?_, ht.handed⟩
    cases hs
    exact ht.tested _ hh
  | @apply term log hh =>
    refine ⟨by simp, by simp, fun task hc => ?_⟩
    cases hc
    exact ⟨term, ht.serialized term log hh, rfl⟩
  | notLeader | getPassed | getRefused | redirect | notSerialized | load | leave =>
    exact ⟨by simp, by simp, ht.handed⟩
  | fail | run | runRedirect | finish => exact ⟨ht.tested, ht.serialized, by simp⟩

private theorem termed_onApply {call : Call} (prev : Int64) (ht : Termed rt L call) : Termed rt L (call.onApply prev) :=
  ⟨ht.tested, ht.serialized, by simp [onApply]⟩

/-- The handler has loaded `term`, and a task of the call is for this term. -/
structure Carries (rt : Runtime P) (term : Int) (call : Call) : Prop where
  tested : ∀ t, call.handler = .tested t → t = term
  serialized : ∀ t log, call.handler = .serialized t log → t = term
  handed : ∀ task, call.closure = .inBraft task → task.expectedTerm = expected rt term
  entered : call.handler ≠ .entered

/-- The expected term of a task is settled by the leader test of its own call. -/
private theorem Moves.carries {c : Counter} {call call' : Call} (h : call.Moves rt c call') {term : Int}
    (ht : Carries rt term call) : Carries rt term call' := by
  have hne := ht.entered
  rcases h with rfl | ⟨a, hs⟩ | ⟨_, rfl⟩
  · exact ht
  · cases step_outcome hs with
    | notLeader hh | passed hh | getPassed hh | getRefused hh => exact absurd hh hne
    | serialized hh _ =>
      refine ⟨by simp, fun t log hs => ?_, ht.handed, by simp⟩
      cases hs
      exact ht.tested _ hh
    | @apply t log hh =>
      refine ⟨by simp, by simp, fun task hc => ?_, by simp⟩
      cases hc
      rw [← ht.serialized t log hh]
      rfl
    | redirect | notSerialized | load | leave => exact ⟨by simp, by simp, ht.handed, by simp⟩
    | fail | run | runRedirect | finish => exact ⟨ht.tested, ht.serialized, by simp, hne⟩
  · exact ⟨ht.tested, ht.serialized, by simp [onApply], hne⟩

end Call

namespace Server

variable {P : Type} {rt : Runtime P} {L : Int → Prop} {s s' : Server}

structure Termed (rt : Runtime P) (L : Int → Prop) (s : Server) : Prop where
  counter : s.counter.Termed L
  calls : ∀ id call, s.calls id = some call → call.Termed rt L

private theorem Termed.mono {L' : Int → Prop} (hL : ∀ term, L term → L' term) (h : s.Termed rt L) : s.Termed rt L' :=
  ⟨h.counter.imp id (Won.mono hL), fun id call hc => (h.calls id call hc).mono hL⟩

private theorem termed_new (k : Nat) : Termed rt L { nextCall := k } :=
  ⟨Or.inl rfl, by simp⟩

/-- A process only acts in terms that `on_leader_start` was given. -/
private theorem termed_step {act : ServerAct P} (h : step rt s act = some s')
    (hL : ∀ term, act = .callback (.leaderStart term) → L term) (ht : s.Termed rt L) : s'.Termed rt L := by
  have hset : ∀ {id : Nat} {c : Call}, c.Termed rt L → ∀ i call, Function.update s.calls id (some c) i = some call →
      call.Termed rt L := fun hc => forall_calls_update ht.calls hc
  cases step_outcome h with
  | start => exact ⟨ht.counter, ht.calls⟩
  | invoke => exact ⟨ht.counter, hset (Call.termed_new _)⟩
  | call hc hs _ => exact ⟨ht.counter, hset (Call.termed_step ht.counter hs (ht.calls _ _ hc))⟩
  | applyDone hc _ _ => exact ⟨ht.counter, hset (Call.termed_onApply _ (ht.calls _ _ hc))⟩
  | leaderStart hpos => exact ⟨Or.inr ⟨hpos, hL _ rfl⟩, ht.calls⟩
  | leaderStop => exact ⟨Or.inl rfl, ht.calls⟩
  | _ => exact ⟨ht.counter, ht.calls⟩

end Server

namespace Group

variable {P : Type} {rt : Runtime P} {g g' : Group P} {act : GroupAct P}

/-- The node `n` won the term. -/
def ElectedIn (g : Group P) (n : P) (term : Int) : Prop := g.leaders term = some n

private theorem ElectedIn.unique {m n : P} {term : Int} (hm : g.ElectedIn m term) (hn : g.ElectedIn n term) :
    m = n := by
  unfold ElectedIn at hm hn
  rw [hm] at hn
  exact Option.some.inj hn

variable [DecidableEq P]

/-- A term that was won stays won by the same node. -/
private theorem electedIn_step (h : step rt g act = some g') {n : P} {term : Int} (he : g.ElectedIn n term) :
    g'.ElectedIn n term := by
  unfold ElectedIn at he ⊢
  cases step_outcome h with
  | @elect m t hn =>
    have hne : term ≠ t := by
      rintro rfl
      rw [he] at hn
      cases hn
    show Function.update g.leaders t (some m) term = some n
    rw [Function.update_of_ne hne]
    exact he
  | @store m i save save' =>
    obtain ⟨snapshots, hs⟩ := store_frame g save'
    rw [hs]
    exact he
  | _ => exact he

private theorem allows_leaderStart {n : P} {a : ServerAct P} (h : g.allows n a = true) :
    ∀ term, a = .callback (.leaderStart term) → g.ElectedIn n term := by
  rintro term rfl
  unfold ElectedIn
  simpa only [allows, decide_eq_true_eq] using h

private theorem termed_step (h : step rt g act = some g') (hi : ∀ n, (g.servers n).Termed rt (g.ElectedIn n)) :
    ∀ n, (g'.servers n).Termed rt (g'.ElectedIn n) := by
  have hkeep : ∀ n, (g.servers n).Termed rt (g'.ElectedIn n) :=
    fun n => (hi n).mono fun _ => electedIn_step h
  cases act with
  | node m a =>
    obtain ⟨hok, s', hs, rfl⟩ := step_node h
    have hs' := Server.termed_step hs (allows_leaderStart hok) (hi m)
    have hm := hs'.mono fun _ he => electedIn_step h he
    refine forall_setServer (Q := fun n s => s.Termed rt (ElectedIn _ n)) (fun n => ?_) hm
    rw [showStep_servers]
    exact hkeep n
  | commit i =>
    obtain ⟨e, -, rfl⟩ := Option.map_eq_some_iff.1 h
    exact hkeep
  | discard i =>
    simp only [step] at h
    split at h <;> cases h
    exact hkeep
  | elect m term =>
    simp only [step] at h
    split at h <;> cases h
    exact hkeep
  | restart m =>
    cases h
    exact forall_setServer (Q := fun n s => s.Termed rt (g.ElectedIn n)) hi (Server.termed_new _)

theorem reachable_termed (h : Exec.Reachable (step rt) init g) : ∀ n, (g.servers n).Termed rt (g.ElectedIn n) :=
  h.induction (I := fun g => ∀ n, (g.servers n).Termed rt (g.ElectedIn n)) (fun _ => Server.termed_new 0)
    fun _ _ _ _ ha hi => termed_step ha hi

/-- Along a run, a call keeps the term of its leader test. -/
private theorem carries_run {id : P × Nat} {term : Int} (hid : id.2 < (g.servers id.1).nextCall)
    (hg : ∀ call, g.callOf id = some call → call.Carries rt term) (h : Exec.Reachable (step rt) g g') :
    ∀ call, g'.callOf id = some call → call.Carries rt term := by
  have hi : id.2 < (g'.servers id.1).nextCall ∧ ∀ call, g'.callOf id = some call → call.Carries rt term := by
    refine Exec.Reachable.induction (I := fun u => id.2 < (u.servers id.1).nextCall ∧
      ∀ call, u.callOf id = some call → call.Carries rt term) ⟨hid, hg⟩ ?_ h
    rintro t act u - hst ⟨ht, hc⟩
    have := step_nextCall hst id.1
    refine ⟨by omega, fun call' hc' => ?_⟩
    rcases (step_change hst).callOf hc' with ⟨call, hcall, hm⟩ | ⟨hn, _⟩
    · exact hm.carries (hc call hcall)
    · omega
  exact hi.2

/-- What the terms of a group are good for. -/
structure Fenced (rt : Runtime P) (g : Group P) : Prop where
  /-- The leader tests of `fetch_add` and of `get` agree. -/
  tests : ∀ n, (g.servers n).counter.isLeader = true ↔ ¬ (g.servers n).counter.leaderTerm < 0
  /-- At most one node acts as leader in a term. -/
  leader : ∀ m n, (g.servers m).counter.isLeader = true → (g.servers n).counter.isLeader = true →
    (g.servers m).counter.leaderTerm = (g.servers n).counter.leaderTerm → m = n
  /-- With `check_term`, at most one node has tasks for a term; without it tasks have no term. -/
  tasks : ∀ id id' call call' task task', g.callOf id = some call → call.closure = .inBraft task →
    g.callOf id' = some call' → call'.closure = .inBraft task' → rt.checkTerm = true →
    task.expectedTerm = task'.expectedTerm → id.1 = id'.1
  unchecked : ∀ id call task, g.callOf id = some call → call.closure = .inBraft task → rt.checkTerm = false →
    task.expectedTerm = -1
  /-- The expected term of a task is the one that its own handler has tested, in every later state. -/
  own : ∀ id call term, g.callOf id = some call → call.handler = .tested term →
    g.ElectedIn id.1 term ∧ ∀ g', Exec.Reachable (step rt) g g' → ∀ call' task, g'.callOf id = some call' →
      call'.closure = .inBraft task → task.expectedTerm = Call.expected rt term

theorem reachable_fenced (rt : Runtime P) (h : Exec.Reachable (step rt) init g) : g.Fenced rt := by
  have hi := reachable_termed h
  have hwon : ∀ n, (g.servers n).counter.isLeader = true → Won (g.ElectedIn n) (g.servers n).counter.leaderTerm :=
    fun n hn => (hi n).counter.won ((hi n).counter.isLeader.1 hn)
  refine ⟨fun n => (hi n).counter.isLeader, ?_, ?_, ?_, ?_⟩
  · intro m n hm hn heq
    have hm := (hwon m hm).2
    rw [heq] at hm
    exact hm.unique (hwon n hn).2
  · intro id id' call call' task task' hc ht hc' ht' hcheck heq
    obtain ⟨term, hw, he⟩ := ((hi id.1).calls id.2 call hc).handed task ht
    obtain ⟨term', hw', he'⟩ := ((hi id'.1).calls id'.2 call' hc').handed task' ht'
    have hterm : term = term' := by
      rw [he, he'] at heq
      simpa [Call.expected, hcheck] using heq
    subst hterm
    exact hw.2.unique hw'.2
  · intro id call task hc ht hcheck
    obtain ⟨term, _, he⟩ := ((hi id.1).calls id.2 call hc).handed task ht
    simpa [Call.expected, hcheck] using he
  · intro id call term hc hh
    refine ⟨(((hi id.1).calls id.2 call hc).tested term hh).2, fun g' h' call' task hc' ht => ?_⟩
    -- the handler is still at work, so it has no closure yet
    have hclosure := ((reachable_owned h hc).working (by simp [Call.working, hh])).2.1
    have hcarry : call.Carries rt term := by
      refine ⟨fun t ht => ?_, by simp [hh], by simp [hclosure], by simp [hh]⟩
      rw [hh] at ht
      cases ht
      rfl
    refine (carries_run (lt_nextCall_of_callOf h hc) (fun c hcc => ?_) h' call' hc').handed task ht
    rw [hc] at hcc
    cases hcc
    exact hcarry

/-- Node 1 tests its leadership of term 1 for a `fetch_add`, and hands the task over only when it leads again, in term
3, after node 2 has led term 2. -/
def leadsAgain : List (GroupAct Nat) :=
  on 1 Server.startUp ++ on 2 Server.startUp ++ lead 1 1 ++ on 1 [.invoke (.fetchAdd ⟨5⟩), .call 0 .test] ++
    on 1 [.callback .leaderStop] ++ lead 2 2 ++ on 2 [.callback .leaderStop] ++ lead 1 3 ++
    on 1 [.call 0 (.serialize true), .call 0 .apply]

/-- The task is for term 1, so that braft can tell that it comes from an earlier leadership. -/
theorem reachable_fenced_leadsAgain : ∃ g call, Exec.exec (step (protobuf Nat.repr)) init leadsAgain = some g ∧
    (g.servers 1).counter.leaderTerm = 3 ∧ g.callOf (1, 0) = some call ∧
    call.closure = .inBraft ⟨serializeValue 5, 1⟩ ∧ g.Fenced (protobuf Nat.repr) :=
  ⟨_, _, rfl, rfl, rfl, rfl, reachable_fenced (protobuf Nat.repr) ⟨leadsAgain, rfl⟩⟩

end Group

end LearnTogether
