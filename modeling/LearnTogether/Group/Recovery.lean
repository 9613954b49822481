import LearnTogether.Group.Replica

/-!
# Catching up and recovery

The state of the counter is lost with the process; what is kept is the log and the snapshots that were stored.  From
whatever reachable state of the group, a process whose callbacks run can always apply the entries that it lacks: the
next entry is parsed without failure, or has a closure in the right state, so `on_apply` never gets stuck
(`exists_applyNext`).  Hence a node catches up with the log in so many steps as it lacks entries (`exists_catchUp`),
and a node that is restarted gets back the value of the whole log, from any stored snapshot or from none (`recovers`).
-/

namespace LearnTogether.Group

open WrapSum

variable {P : Type} {rt : Runtime P} {g g' : Group P}

/-- The process of the node runs and braft may invoke its callbacks. -/
structure Up (g : Group P) (n : P) : Prop where
  alive : (g.servers n).fault = none
  callbacks : (g.servers n).start.callbacks = true

/-- Only the node `n` is changed. -/
structure OnlyNode (g g' : Group P) (n : P) : Prop where
  log : g'.log = g.log
  snapshots : g'.snapshots = g.snapshots
  others : ∀ m, m ≠ n → g'.servers m = g.servers m

private theorem OnlyNode.refl (g : Group P) (n : P) : OnlyNode g g n := ⟨rfl, rfl, fun _ _ => rfl⟩

private theorem OnlyNode.trans {g'' : Group P} {n : P} (h : OnlyNode g g' n) (h' : OnlyNode g' g'' n) :
    OnlyNode g g'' n :=
  ⟨h'.log.trans h.log, h'.snapshots.trans h.snapshots, fun m hm => (h'.others m hm).trans (h.others m hm)⟩

variable [DecidableEq P]

private theorem onlyNode_setServer (g : Group P) (n : P) (s : Server) : OnlyNode g (g.setServer n s) n :=
  ⟨rfl, rfl, fun _ hm => setServer_of_ne _ _ hm⟩

/-- A callback that the contract allows and the process can run. -/
private theorem exists_callback {n : P} {a : Callback} {s' : Server} (hup : g.Up n)
    (hok : g.allows n (.callback a) = true) (hs : (g.servers n).callbackStep rt a = some s') :
    step rt g (.node n (.callback a)) = some (g.setServer n s') := by
  have hstep : (g.servers n).step rt (.callback a) = some s' := by
    simp [Server.step, Server.actStep, hup.alive, hup.callbacks, hs]
  simp only [step, hok, hstep, if_true]
  rfl

private theorem iterDone_pending {n : P} {e : Entry P} {id : Nat} (h : g.iterDone n e = some id) :
    ∃ call task, (g.servers n).calls id = some call ∧ call.closure = .inBraft task := by
  unfold iterDone at h
  split at h
  · split at h
    · rename_i call hc
      split at h
      · rename_i hp
        cases h
        unfold Call.pending at hp
        split at hp
        · exact ⟨call, _, hc, ‹_›⟩
        · cases hp
      · cases h
    · cases h
  · cases h

/-- `on_apply` can take the next entry of the log, whatever it is. -/
theorem exists_applyNext (hl : rt.Lossless) (h : Exec.Reachable (step rt) init g) {n : P} (hup : g.Up n)
    (hf : (g.servers n).fsm = .applying) (hlt : (g.servers n).applied < g.log.length) :
    ∃ a s', step rt g (.node n (.callback a)) = some (g.setServer n s') ∧ s'.applied = (g.servers n).applied + 1 ∧
      s'.fsm = .applying ∧ s'.fault = none ∧ s'.start = (g.servers n).start := by
  have he : g.log[(g.servers n).applied]? = some g.log[(g.servers n).applied] := List.getElem?_eq_getElem hlt
  let e := g.log[(g.servers n).applied]
  have hok : g.allows n (.callback (.applyNext e.data (g.iterDone n e))) = true := by
    simp [allows, he, e]
  cases hd : g.iterDone n e with
  | some id =>
    -- braft gives the closure: its call is a `fetch_add`
    obtain ⟨call, task, hc, ht⟩ := iterDone_pending hd
    have hc' : g.callOf (n, id) = some call := hc
    obtain ⟨request, hr⟩ := (reachable_typed h hc').handed (by simp [ht])
    rw [hd] at hok
    exact ⟨_, ((g.servers n).fetchAddValue request.value).setCall id (call.onApply (g.servers n).counter.value),
      exists_callback hup hok (by simp [Server.callbackStep, Server.applyNext, hf, hc, ht, hr]), rfl, hf, hup.alive,
      rfl⟩
  | none =>
    -- the bytes are those that some handler has serialized
    obtain ⟨request, k, -, hdata⟩ := (reachable_recorded h).data e (List.mem_append_left _ (List.getElem_mem hlt))
    have hp : rt.parse e.data = some request := by
      rw [hdata]
      exact hl request
    rw [hd] at hok
    exact ⟨_, (g.servers n).fetchAddValue request.value,
      exists_callback hup hok (by simp [Server.callbackStep, Server.applyNext, hf, hp]), rfl, hf, hup.alive, rfl⟩

/-- The state of a node that is being brought up to the log of `g₀`. -/
structure CatchingUp (rt : Runtime P) (g₀ : Group P) (n : P) (g : Group P) : Prop where
  reachable : Exec.Reachable (step rt) init g
  only : OnlyNode g₀ g n
  up : g.Up n
  applying : (g.servers n).fsm = .applying

private theorem catchingUp_step (hl : rt.Lossless) {g₀ : Group P} {n : P} (hi : CatchingUp rt g₀ n g)
    (hpos : 0 < g₀.log.length - (g.servers n).applied) :
    ∃ act g', (∃ a, act = .node n (.callback a)) ∧ step rt g act = some g' ∧ CatchingUp rt g₀ n g' ∧
      g₀.log.length - (g'.servers n).applied < g₀.log.length - (g.servers n).applied := by
  have hlt : (g.servers n).applied < g.log.length := by
    rw [hi.only.log]
    omega
  obtain ⟨a, s', hst, happ, hfsm, hfault, hstart⟩ := exists_applyNext hl hi.reachable hi.up hi.applying hlt
  refine ⟨_, _, ⟨a, rfl⟩, hst, ⟨hi.reachable.tail hst, hi.only.trans (onlyNode_setServer g n s'), ⟨?_, ?_⟩, ?_⟩, ?_⟩
  · rw [setServer_self]
    exact hfault
  · rw [setServer_self, hstart]
    exact hi.up.callbacks
  · rw [setServer_self]
    exact hfsm
  · rw [setServer_self, happ]
    omega

/-- What the node has when it has caught up with the log of `g`. -/
structure CaughtUp (rt : Runtime P) (g g' : Group P) (n : P) : Prop where
  alive : (g'.servers n).fault = none
  only : OnlyNode g g' n
  applied : (g'.servers n).applied = g.log.length
  value : (g'.servers n).counter.value = wrapSum (g.deltas rt)

private theorem caughtUp_of_catchingUp (hl : rt.Lossless) {n : P} (hi : CatchingUp rt g n g')
    (h0 : g.log.length - (g'.servers n).applied = 0) : CaughtUp rt g g' n := by
  have hv := ((reachable_replicated hl hi.reachable).nodes n).value
  have hb := hv.bound
  rw [hi.only.log] at hb
  have happ : (g'.servers n).applied = g.log.length := by omega
  refine ⟨hi.up.alive, hi.only, happ, ?_⟩
  rw [hv.wrapSum, hi.only.log, happ, List.take_length, deltas]

/-- From the state `g`, a run of callbacks of the node `n` brings it up to the log. -/
def CanCatchUp (rt : Runtime P) (g : Group P) (n : P) : Prop :=
  ∃ as g', (∀ act ∈ as, ∃ a, act = .node n (.callback a)) ∧ Exec.exec (step rt) g as = some g' ∧
    CaughtUp rt g g' n ∧ as.length ≤ g.log.length - (g.servers n).applied + 1

/-- A node that is up can apply the entries that it lacks. -/
theorem exists_catchUp (hl : rt.Lossless) (h : Exec.Reachable (step rt) init g) {n : P} (hup : g.Up n) :
    CanCatchUp rt g n := by
  -- the callbacks run from inside an `on_apply`
  have hrun : ∀ g₁, CatchingUp rt g n g₁ → ∃ as g', (∀ act ∈ as, ∃ a, act = .node n (.callback a)) ∧
      Exec.exec (step rt) g₁ as = some g' ∧ CaughtUp rt g g' n ∧
      as.length ≤ g.log.length - (g₁.servers n).applied := by
    intro g₁ hi
    obtain ⟨as, g', has, hex, hi', h0, hlen⟩ := Exec.exists_run (I := CatchingUp rt g n)
      (A := fun act : GroupAct P => ∃ a, act = .node n (.callback a))
      (μ := fun g' => g.log.length - (g'.servers n).applied)
      (fun g' hi hpos => catchingUp_step hl hi hpos) hi
    exact ⟨as, g', has, hex, caughtUp_of_catchingUp hl hi' h0, hlen⟩
  cases hf : (g.servers n).fsm with
  | applying =>
    obtain ⟨as, g', has, hex, hc, hlen⟩ := hrun g ⟨h, OnlyNode.refl g n, hup, hf⟩
    exact ⟨as, g', has, hex, hc, by omega⟩
  | idle =>
    have hbegin : step rt g (.node n (.callback .applyBegin)) =
        some (g.setServer n { g.servers n with fsm := .applying }) :=
      exists_callback hup rfl (by simp [Server.callbackStep, hf])
    have hi : CatchingUp rt g n (g.setServer n { g.servers n with fsm := .applying }) := by
      refine ⟨h.tail hbegin, onlyNode_setServer .., ⟨?_, ?_⟩, ?_⟩
      · rw [setServer_self]
        exact hup.alive
      · rw [setServer_self]
        exact hup.callbacks
      · rw [setServer_self]
    obtain ⟨as, g', has, hex, hc, hlen⟩ := hrun _ hi
    refine ⟨.node n (.callback .applyBegin) :: as, g', ?_, Exec.exec_cons_some.2 ⟨_, hbegin, hex⟩, hc, ?_⟩
    · intro act ha
      rcases List.mem_cons.1 ha with rfl | ha
      · exact ⟨_, rfl⟩
      · exact has act ha
    · rw [setServer_self] at hlen
      rw [List.length_cons]
      exact Nat.add_le_add_right hlen 1

/-! ### After a restart -/

private theorem setServer_setServer (g : Group P) (n : P) (s s' : Server) :
    (g.setServer n s).setServer n s' = g.setServer n s' := by
  unfold setServer
  rw [Function.update_idem]

/-- A step of `start()` is always allowed, and nobody outside the node sees it. -/
private theorem step_start {n : P} {s : Server} {a : StartAct} (start : Start) (hf : s.fault = none)
    (hs : s.start.step a = some start) :
    step rt (g.setServer n s) (.node n (.start a)) = some (g.setServer n
      { s with start, counter := { s.counter with node := s.counter.node || decide (a = .storeNode) } }) := by
  have hstep : s.step rt (.start a) = some
      { s with start, counter := { s.counter with node := s.counter.node || decide (a = .storeNode) } } := by
    simp [Server.step, Server.actStep, Server.startStep, hf, hs]
  simp only [step, allows, setServer_self, hstep, if_true, Option.map_some, showStep, setServer_setServer]

/-- A process that has just gone through a successful `start()`. -/
def started (k : Nat) : Server := { nextCall := k, start := .started, counter := { node := true } }

private theorem exec_startUp (g : Group P) (n : P) (k : Nat) :
    Exec.exec (step rt) (g.setServer n { nextCall := k }) (on n Server.startUp) = some (g.setServer n (started k)) := by
  unfold on Server.startUp
  simp only [List.map_cons, List.map_nil, Exec.exec_cons, Exec.exec_nil]
  rw [step_start .configured rfl rfl, Option.bind_some, step_start .created rfl rfl,
    Option.bind_some, step_start .initializing rfl rfl, Option.bind_some,
    step_start .initialized rfl rfl, Option.bind_some, step_start .started rfl rfl,
    Option.bind_some]
  rfl

/-- The callback with which braft gives a stored snapshot to a process. -/
def loads : Option (Nat × Snapshot) → List Callback
  | some (index, snap) => [.snapshotLoad ⟨index, true, some snap⟩]
  | none => []

private theorem exec_loads (rt : Runtime P) (g : Group P) (n : P) (k : Nat) {snapshot : Option (Nat × Snapshot)}
    (hs : ∀ p ∈ snapshot, p ∈ g.snapshots) :
    ∃ s, Exec.exec (step rt) (g.setServer n (started k)) (on n ((loads snapshot).map .callback)) =
      some (g.setServer n s) ∧ s.fault = none ∧ s.start.callbacks = true := by
  cases snapshot with
  | none => exact ⟨started k, rfl, rfl, rfl⟩
  | some p =>
    obtain ⟨index, snap⟩ := p
    have hup : (g.setServer n (started k)).Up n := by
      constructor <;> rw [setServer_self] <;> rfl
    have hok : (g.setServer n (started k)).allows n (.callback (.snapshotLoad ⟨index, true, some snap⟩)) = true :=
      decide_eq_true (hs (index, snap) rfl)
    have hst : step rt (g.setServer n (started k)) (.node n (.callback (.snapshotLoad ⟨index, true, some snap⟩))) =
        some ((g.setServer n (started k)).setServer n { started k with
          counter := { (started k).counter with value := snap.value }, applied := index }) := by
      refine exists_callback hup hok ?_
      rw [setServer_self]
      rfl
    rw [setServer_setServer] at hst
    refine ⟨{ started k with counter := { (started k).counter with value := snap.value }, applied := index }, ?_,
      rfl, rfl⟩
    simp only [loads, on, List.map_cons, List.map_nil, Exec.exec_cons, Exec.exec_nil, hst, Option.bind_some]

/-- Whatever has happened in the group, a node whose callbacks run can catch up with the log and then holds the value
of the whole log; and so can a node that was lost, after it is restarted and started again, whichever of the stored
snapshots it loads and also when it loads none. -/
theorem recovers (rt : Runtime P) (hl : rt.Lossless) (h : Exec.Reachable (step rt) init g) (n : P) :
    (g.Up n → CanCatchUp rt g n) ∧
      ∀ snapshot : Option (Nat × Snapshot), (∀ p ∈ snapshot, p ∈ g.snapshots) → ∃ g₁,
        Exec.exec (step rt) g (.restart n :: on n Server.startUp ++ on n ((loads snapshot).map .callback)) = some g₁ ∧
          OnlyNode g g₁ n ∧ CanCatchUp rt g₁ n := by
  refine ⟨exists_catchUp hl h, fun snapshot hs => ?_⟩
  obtain ⟨s, hload, hfault, hcall⟩ := exec_loads rt g n (g.servers n).nextCall hs
  have hprefix : Exec.exec (step rt) g (.restart n :: on n Server.startUp ++
      on n ((loads snapshot).map .callback)) = some (g.setServer n s) := by
    rw [List.cons_append, Exec.exec_cons, step, Option.bind_some, Exec.exec_append, exec_startUp]
    exact hload
  have hup : (g.setServer n s).Up n := by
    constructor <;> rw [setServer_self] <;> assumption
  exact ⟨_, hprefix, onlyNode_setServer g n s, exists_catchUp hl (h.trans ⟨_, hprefix⟩) hup⟩

/-- After `snapshotRun`, node 2 is restarted once more, and loads the snapshot. -/
theorem recovers_snapshotRun : ∃ g g₁, Exec.exec (step (protobuf Nat.repr)) init snapshotRun = some g ∧
    Exec.exec (step (protobuf Nat.repr)) g (.restart 2 :: on 2 Server.startUp ++
      on 2 [.callback (.snapshotLoad ⟨1, true, some ⟨5⟩⟩)]) = some g₁ ∧ CanCatchUp (protobuf Nat.repr) g₁ 2 := by
  have h := recovers (protobuf Nat.repr) (protobuf_lossless Nat.repr) ⟨snapshotRun, rfl⟩ 2
  obtain ⟨g₁, hex, -, hc⟩ := h.2 (some (1, ⟨5⟩)) (by decide)
  exact ⟨_, g₁, rfl, hex, hc⟩

end LearnTogether.Group
