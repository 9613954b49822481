import LearnTogether.Counter.ServerSteps

/-!
# The node pointer of a leader

`_node` is stored only after `node->init` has returned, while braft may invoke `on_leader_start` as soon as `init`
has begun.  So a process may pass the leader test of `fetch_add` with `_node` still null, and `apply` has no null
test.  This is the only way: along a run, `_leader_term >= 0` implies `_node` non-null in every state exactly if every
`on_leader_start` of the run finds `_node` non-null.
-/

namespace LearnTogether.Server

variable {P : Type} {rt : Runtime P}

/-- A process that acts as leader has its node, and nobody has called `apply` through a null `_node`. -/
def NodeSafe (s : Server) : Prop :=
  (0 ≤ s.counter.leaderTerm → s.counter.node = true) ∧ s.fault ≠ some .nullNode

/-- `on_leader_start` comes after `_node = node`. -/
def LeaderStartsWithNode (s : Server) (act : ServerAct P) : Prop :=
  ∀ term, act = .callback (.leaderStart term) → s.counter.node = true

/-- The handler has loaded a term of a leader. -/
def passedTest : Handler → Bool
  | .tested _ | .serialized _ _ => true
  | _ => false

structure NodeInv (s : Server) : Prop where
  safe : s.NodeSafe
  passed : ∀ id call, s.calls id = some call → passedTest call.handler = true → s.counter.node = true

private theorem passedTest_step {c : Counter} {call call' : Call} {a : CallAct P} (h : call.step rt c a = some call')
    (hp : passedTest call'.handler = true) : passedTest call.handler = true ∨ ¬ c.leaderTerm < 0 := by
  cases Call.step_outcome h with
  | passed _ _ ht => exact Or.inr ht
  | serialized hh _ => rw [hh]; exact Or.inl rfl
  | fail | run | runRedirect | finish => exact Or.inl hp
  | _ => cases hp

/-- One step keeps the invariant, unless it is an `on_leader_start` before `_node = node`. -/
theorem nodeInv_step {s s' : Server} {act : ServerAct P} (h : step rt s act = some s')
    (hG : LeaderStartsWithNode s act) (hi : s.NodeInv) : s'.NodeInv := by
  obtain ⟨⟨hl, hf⟩, hp⟩ := hi
  have hset : ∀ {id : Nat} {c : Call}, (passedTest c.handler = true → s.counter.node = true) → ∀ i call,
      Function.update s.calls id (some c) i = some call → passedTest call.handler = true →
      s.counter.node = true := fun hc =>
    forall_calls_update (Q := fun call => passedTest call.handler = true → s.counter.node = true) hp hc
  cases step_outcome h with
  | start =>
    refine ⟨⟨fun ht => ?_, hf⟩, fun id call hc hh => ?_⟩
    · simp [hl ht]
    · simp [hp id call hc hh]
  | invoke => exact ⟨⟨hl, hf⟩, hset (fun hh => by cases hh)⟩
  | nullNode hc hs ha hn =>
    -- the call has passed the test, so `_node` is set
    cases Call.step_outcome hs with
    | apply hh =>
      have := hp _ _ hc (by rw [hh]; rfl)
      rw [hn] at this
      cases this
    | _ => cases ha
  | call hc hs _ =>
    refine ⟨⟨hl, hf⟩, hset fun hh => ?_⟩
    rcases passedTest_step hs hh with hh' | ht
    · exact hp _ _ hc hh'
    · exact hl (by omega)
  | applyDone hc _ _ => exact ⟨⟨hl, hf⟩, hset fun hh => hp _ _ hc hh⟩
  | applyAbort _ => exact ⟨⟨hl, by simp⟩, hp⟩
  | leaderStart _ => exact ⟨⟨fun _ => hG _ rfl, hf⟩, hp⟩
  | leaderStop => exact ⟨⟨by simp, hf⟩, hp⟩
  | loadAbort _ => exact ⟨⟨hl, by simp⟩, hp⟩
  | _ => exact ⟨⟨hl, hf⟩, hp⟩

theorem nodeInv_init : NodeInv init :=
  ⟨⟨fun ht => absurd ht (by decide), by simp [init]⟩, fun id call hc => by cases hc⟩

/-- Along a run of a process, the leader has its node in every state exactly if no `on_leader_start` comes before
`_node = node`. -/
theorem nodeSafe_throughout_iff (rt : Runtime P) {as : List (ServerAct P)} {s : Server}
    (h : Exec.exec (step rt) init as = some s) :
    Exec.Throughout (step rt) NodeSafe init as ↔ Exec.Along (step rt) LeaderStartsWithNode init as := by
  refine Exec.throughout_iff_along (I := NodeInv) (fun _ hi => hi.safe) nodeInv_init ?_ ?_ h
  · intro t act u _ ha hG hi
    exact nodeInv_step ha hG hi
  · rintro t act u ha ⟨hl, -⟩ term rfl
    cases step_outcome ha with
    | leaderStart ht => exact hl (Int.le_of_lt ht)

theorem nodeSafe_startUp : Exec.Throughout (step (protobuf Nat.repr)) NodeSafe init
    (startUp ++ .callback (.leaderStart 1) :: propose 0 ⟨5⟩) :=
  (nodeSafe_throughout_iff (protobuf Nat.repr) (s := _) rfl).2 <| (Exec.along_append rfl).2
    ⟨Exec.along_of_forall (by simp [startUp, LeaderStartsWithNode]), fun _ _ => rfl,
      fun _ _ => Exec.along_of_forall (by simp [propose, LeaderStartsWithNode])⟩

/-- A one-node group that elects itself inside `init`, and a `fetch_add` that comes before `_node = node`. -/
def earlyLeader : List (ServerAct Nat) :=
  [.start (.parseConf true), .start .newNode, .start .init, .callback (.leaderStart 1),
    .invoke (.fetchAdd ⟨5⟩), .call 0 .test, .call 0 (.serialize true), .call 0 .apply]

theorem earlyLeader_null : ∃ s, Exec.exec (step (protobuf Nat.repr)) init earlyLeader = some s ∧
    0 ≤ s.counter.leaderTerm ∧ s.counter.node = false ∧ s.fault = some .nullNode :=
  ⟨_, rfl, by decide, rfl, rfl⟩

end LearnTogether.Server
