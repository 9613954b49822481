import LearnTogether.Counter.NodePointer

/-!
# Every call is answered exactly once

The RPC's `done` always has one owner: the `ClosureGuard` of the handler, the `FetchAddClosure`, or nobody because it
was run (`Call.Owned.once`).  With it goes the state of the response: untouched while nobody has filled it, and
complete from the moment in which the current owner has only to run `done`.

Besides safety there is progress: a call that neither waits in braft nor is settled has a step of its own, and each
such step uses up a part of a bounded amount of work (`Call.remaining`).  A process that has crashed answers nobody.
So a call is answered in every run that is `Orderly` (`answers_once`): no leadership begins before `_node = node`,
and no CHECK fails.
-/

namespace LearnTogether

/-- A response that may be sent: a success with a value, or a refusal with at most a redirect to a non-empty id. -/
def CounterResponse.Complete {P : Type} (rt : Runtime P) (r : CounterResponse) : Prop :=
  (r.success = some true ∧ r.value.isSome = true ∧ r.redirect = none) ∨
    (r.success = some false ∧ r.value = none ∧ ∀ text, r.redirect = some text → ∃ p, text = rt.toString p)

/-- The closure is the one that has to run `done`. -/
def FetchAddClosure.holds : FetchAddClosure → Bool
  | .inBraft _ | .scheduled _ | .ran => true
  | .none | .deleted => false

namespace Call

variable {P : Type} {rt : Runtime P}

/-- Nobody works on the call any more: the handler has returned, and braft and `Run` are through with the closure. -/
def settled (call : Call) : Bool :=
  decide (call.handler = .gone) && !call.closure.holds

/-- The handler has still to fill the response or to hand it over. -/
def working (call : Call) : Bool :=
  match call.handler with
  | .leaving | .gone => false
  | _ => true

/-- The response is filled: what is left is to run `done`, if that has not happened yet. -/
def filled (call : Call) : Bool :=
  match call.closure with
  | .none => !call.working
  | .inBraft _ | .scheduled false => false
  | .scheduled true | .ran | .deleted => true

structure Owned (rt : Runtime P) (call : Call) : Prop where
  /-- `done` has exactly one owner. -/
  once : call.guard.toNat + call.closure.holds.toNat + call.doneRuns = 1
  /-- The guard is released or destroyed only at the end. -/
  guarded : call.working = true → call.guard = true ∧ call.closure = .none
  left : call.handler = .gone → call.guard = false
  kind : ∀ term, call.handler = .tested term → ∃ request, call.request = .fetchAdd request
  complete : call.filled = true → call.response.Complete rt
  untouched : call.filled = false → call.response = {}

private theorem redirect_complete (c : Counter) (leader : Option P) : (c.redirect rt leader {}).Complete rt := by
  unfold Counter.redirect
  cases c.node <;> cases leader <;>
    simp [CounterResponse.Complete, CounterResponse.setSuccess, CounterResponse.setRedirect]

private theorem success_complete (v : Int64) :
    ((({} : CounterResponse).setSuccess true).setValue v).Complete rt := by
  simp [CounterResponse.Complete, CounterResponse.setSuccess, CounterResponse.setValue]

private theorem refusal_complete : (({} : CounterResponse).setSuccess false).Complete rt := by
  simp [CounterResponse.Complete, CounterResponse.setSuccess]

/-- A call that is still being worked on owns `done` in its guard and has an untouched response. -/
theorem Owned.working {call : Call} (ho : Owned rt call) (hw : call.working = true) :
    call.guard = true ∧ call.closure = .none ∧ call.doneRuns = 0 ∧ call.response = {} := by
  obtain ⟨hg, hc⟩ := ho.guarded hw
  have h1 := ho.once
  rw [hg, hc] at h1
  exact ⟨hg, hc, by simpa [FetchAddClosure.holds] using h1, ho.untouched (by simp [filled, hc, hw])⟩

private theorem owned_working {call : Call} (hw : call.working = true) (hg : call.guard = true)
    (hc : call.closure = .none) (hd : call.doneRuns = 0) (hr : call.response = {})
    (hk : ∀ term, call.handler = .tested term → ∃ request, call.request = .fetchAdd request) : Owned rt call where
  once := by simp [hg, hc, hd, FetchAddClosure.holds]
  guarded _ := ⟨hg, hc⟩
  left hh := by simp [Call.working, hh] at hw
  kind := hk
  complete hf := by simp [filled, hc, hw] at hf
  untouched _ := hr

private theorem owned_leaving {call : Call} (hh : call.handler = .leaving) (hg : call.guard = true)
    (hc : call.closure = .none) (hd : call.doneRuns = 0) (hr : call.response.Complete rt) : Owned rt call where
  once := by simp [hg, hc, hd, FetchAddClosure.holds]
  guarded hw := by simp [Call.working, hh] at hw
  left hh' := by simp [hh] at hh'
  kind term hh' := by simp [hh] at hh'
  complete _ := hr
  untouched hf := by simp [filled, hc, Call.working, hh] at hf

theorem owned_new (request : Request) : Owned rt { request } := owned_working rfl rfl rfl rfl rfl (by simp)

/-- The part of the invariant about the guard, once the closure holds `done`. -/
theorem Owned.held {call : Call} (ho : Owned rt call) (hc : call.closure.holds = true) :
    call.guard = false ∧ call.doneRuns = 0 ∧ call.working = false := by
  have h1 := ho.once
  rw [hc, Bool.toNat_true] at h1
  have hg : call.guard = false := by
    cases hg : call.guard with
    | false => rfl
    | true => rw [hg, Bool.toNat_true] at h1; omega
  refine ⟨hg, by omega, ?_⟩
  cases hw : call.working with
  | false => rfl
  | true => rw [(ho.guarded hw).1] at hg; cases hg

private theorem owned_held {call : Call} (hw : call.working = false) (hg : call.guard = false)
    (hc : call.closure.holds = true) (hd : call.doneRuns = 0)
    (hf : call.filled = true → call.response.Complete rt) (hu : call.filled = false → call.response = {}) :
    Owned rt call where
  once := by simp [hg, hc, hd]
  guarded hw' := by rw [hw] at hw'; cases hw'
  left _ := hg
  kind term hh := by simp [Call.working, hh] at hw
  complete := hf
  untouched := hu

/-- Every step of a call keeps the one owner of `done` and the state of the response that goes with it. -/
theorem owned_step {c : Counter} {call call' : Call} {a : CallAct P} (h : call.step rt c a = some call')
    (ho : Owned rt call) : Owned rt call' := by
  cases step_outcome h with
  | notLeader hh _ _ | getPassed hh _ _ | getRefused hh _ _ | serialized hh _ =>
    obtain ⟨hg, hc, hd, hr⟩ := ho.working (by simp [Call.working, hh])
    exact owned_working rfl hg hc hd hr (by simp)
  | passed hh hr' _ =>
    obtain ⟨hg, hc, hd, hr⟩ := ho.working (by simp [Call.working, hh])
    exact owned_working rfl hg hc hd hr (fun _ _ => ⟨_, hr'⟩)
  | redirect hh =>
    obtain ⟨hg, hc, hd, hr⟩ := ho.working (by simp [Call.working, hh])
    exact owned_leaving rfl hg hc hd (by rw [hr]; exact redirect_complete c _)
  | notSerialized hh _ =>
    obtain ⟨hg, hc, hd, hr⟩ := ho.working (by simp [Call.working, hh])
    exact owned_leaving rfl hg hc hd (by rw [hr]; exact refusal_complete)
  | load hh =>
    obtain ⟨hg, hc, hd, hr⟩ := ho.working (by simp [Call.working, hh])
    exact owned_leaving rfl hg hc hd (by rw [hr]; exact success_complete c.value)
  | apply hh =>
    -- the guard is released to the closure
    obtain ⟨-, -, hd, hr⟩ := ho.working (by simp [Call.working, hh])
    exact owned_held rfl rfl rfl hd (by simp [filled]) (fun _ => hr)
  | leave hh =>
    -- `done` is run here only if the guard still holds it
    have h1 := ho.once
    have hf : ∀ g n, { call with guard := g, doneRuns := n, handler := .gone }.filled = call.filled := by
      intro g n
      simp [filled, Call.working, hh]
    refine ⟨?_, by simp [Call.working], fun _ => rfl, by simp, fun h => ho.complete (by rw [← hf]; exact h),
      fun h => ho.untouched (by rw [← hf]; exact h)⟩
    cases hg : call.guard with
    | false => simpa [hg] using h1
    | true =>
      simp only [hg, Bool.toNat_true, Bool.toNat_false, if_true] at h1 ⊢
      omega
  | fail hc =>
    obtain ⟨hg, hd, hw⟩ := ho.held (by rw [hc]; rfl)
    exact owned_held hw hg rfl hd (by simp [filled]) (fun _ => ho.untouched (by simp [filled, hc]))
  | run hc =>
    obtain ⟨hg, hd, hw⟩ := ho.held (by rw [hc]; rfl)
    exact owned_held hw hg rfl hd (fun _ => ho.complete (by simp [filled, hc])) (by simp [filled])
  | runRedirect hc =>
    obtain ⟨hg, hd, hw⟩ := ho.held (by rw [hc]; rfl)
    have hr := ho.untouched (by simp [filled, hc])
    exact owned_held hw hg rfl hd (fun _ => by rw [hr]; exact redirect_complete c _) (by simp [filled])
  | finish hc =>
    obtain ⟨hg, hd, hw⟩ := ho.held (by rw [hc]; rfl)
    refine ⟨by simp [hg, hd, FetchAddClosure.holds], fun hw' => ?_, fun _ => hg, ho.kind,
      fun _ => ho.complete (by simp [filled, hc]), by simp [filled]⟩
    rw [show call.working = true from hw'] at hw
    cases hw

/-- `on_apply` fills the response of a call whose closure it was given. -/
theorem owned_onApply {call : Call} {task : Task} (hc : call.closure = .inBraft task) (prev : Int64)
    (ho : Owned rt call) : Owned rt (call.onApply prev) := by
  obtain ⟨hg, hd, hw⟩ := ho.held (by rw [hc]; rfl)
  have hr := ho.untouched (by simp [filled, hc])
  refine owned_held hw hg rfl hd (fun _ => ?_) (by simp [filled, onApply])
  unfold onApply
  rw [hr]
  exact success_complete prev

/-- After `done` was run no step of the call writes its response. -/
private theorem response_final {c : Counter} {call call' : Call} {a : CallAct P} (h : call.step rt c a = some call')
    (ho : Owned rt call) (hd : 1 ≤ call.doneRuns) : call'.response = call.response := by
  have h1 := ho.once
  have hheld : ∀ {cl : FetchAddClosure}, call.closure = cl → cl.holds = true → False := by
    intro cl hc hh
    have := ho.held (by rw [hc]; exact hh)
    omega
  cases step_outcome h with
  | redirect hh | notSerialized hh _ | load hh =>
    have := (ho.working (by simp [Call.working, hh])).2.2.1
    omega
  | runRedirect hc => exact (hheld hc rfl).elim
  | _ => rfl

/-- The step that runs `done` finds the response complete and leaves it so. -/
theorem response_at_run {c : Counter} {call call' : Call} {a : CallAct P} (h : call.step rt c a = some call')
    (ho : Owned rt call) (hd : call.doneRuns < call'.doneRuns) :
    call.response.Complete rt ∧ call'.response = call.response := by
  cases step_outcome h with
  | leave hh =>
    refine ⟨ho.complete ?_, rfl⟩
    have hg : call.guard = true := by
      cases hg : call.guard with
      | false => simp [hg] at hd
      | true => rfl
    have h1 := ho.once
    cases hc : call.closure with
    | none | deleted => simp [filled, hc, Call.working, hh]
    | inBraft task | scheduled ok | ran => simp [hg, hc, FetchAddClosure.holds] at h1; omega
  | finish hc => exact ⟨ho.complete (by simp [filled, hc]), rfl⟩
  | _ => exact absurd hd (Nat.lt_irrefl _)

/-! ### Progress -/

/-- An upper bound for the steps that are left to do for a call. -/
def remaining (call : Call) : Nat :=
  (match call.handler with
    | .entered => 9
    | .tested _ => 8
    | .serialized _ _ => 7
    | .leading | .refused => 2
    | .leaving => 1
    | .gone => 0) +
  match call.closure with
  | .inBraft _ => 4
  | .scheduled _ => 3
  | .ran => 2
  | .none | .deleted => 0

theorem remaining_step {c : Counter} {call call' : Call} {a : CallAct P} (h : call.step rt c a = some call')
    (ho : Owned rt call) : call'.remaining < call.remaining := by
  cases step_outcome h with
  | fail hc | run hc | runRedirect hc | finish hc => simp [remaining, hc]
  | apply hh =>
    obtain ⟨-, hc, -⟩ := ho.working (by simp [Call.working, hh])
    simp [remaining, hh, hc]
  | notLeader hh _ _ | passed hh _ _ | getPassed hh _ _ | getRefused hh _ _ | serialized hh _ | redirect hh
  | notSerialized hh _ | load hh | leave hh => simp [remaining, hh]

private theorem remaining_onApply {call : Call} {task : Task} (hc : call.closure = .inBraft task) (prev : Int64) :
    (call.onApply prev).remaining < call.remaining := by
  simp [remaining, onApply, hc]

/-- Only a call that waits in braft, or that nobody works on any more, has no step of its own. -/
theorem exists_step (rt : Runtime P) (c : Counter) {call : Call} (ho : Owned rt call) (hs : call.settled = false)
    (hb : ∀ task, call.closure ≠ .inBraft task) : ∃ a call', call.step rt c a = some call' := by
  cases hc : call.closure with
  | inBraft task => exact absurd hc (hb task)
  | scheduled ok => exact ⟨.run none, by cases ok <;> simp [step, hc]⟩
  | ran => exact ⟨.finish, by simp [step, hc]⟩
  | none | deleted =>
    cases hh : call.handler with
    | entered => exact ⟨.test, by cases hr : call.request <;> simp [step, hh, hr]⟩
    | tested term =>
      obtain ⟨request, hr⟩ := ho.kind term hh
      exact ⟨.serialize true, by simp [step, hh, hr]⟩
    | serialized term log => exact ⟨.apply, by simp [step, hh]⟩
    | leading => exact ⟨.load, by simp [step, hh]⟩
    | refused => exact ⟨.redirect none, by simp [step, hh]⟩
    | leaving => exact ⟨.leave, by simp [step, hh]⟩
    | gone => simp [settled, hh, hc, FetchAddClosure.holds] at hs

end Call

namespace Server

variable {P : Type} {rt : Runtime P}

private theorem reachable_fresh {s : Server} (h : Exec.Reachable (step rt) init s) : s.Fresh :=
  h.induction (fun _ _ => rfl) fun _ _ _ _ ha hs => step_fresh ha hs

theorem reachable_owned {s : Server} (h : Exec.Reachable (step rt) init s) :
    ∀ id call, s.calls id = some call → call.Owned rt := by
  refine Exec.Reachable.induction (I := fun s => ∀ id call, s.calls id = some call → call.Owned rt) ?_ ?_ h
  · intro id call hc
    cases hc
  · intro t act u _ ha ht
    exact step_calls_induction Call.owned_new (fun _ _ _ _ hs ho => Call.owned_step hs ho)
      (fun _ _ _ prev hc _ ho => Call.owned_onApply hc prev ho) ha ht

/-- No `CHECK` fails: what `on_apply` gets without a closure can be parsed, and no snapshot is loaded by a leader. -/
def ChecksHold (rt : Runtime P) (s : Server) : ServerAct P → Prop
  | .callback (.applyNext data none) => (rt.parse data).isSome = true
  | .callback (.snapshotLoad _) => s.counter.isLeader = false
  | _ => True

/-- The step comes neither before `_node = node` nor against a `CHECK`. -/
def Orderly (rt : Runtime P) (s : Server) (act : ServerAct P) : Prop :=
  LeaderStartsWithNode s act ∧ ChecksHold rt s act

/-- What is promised to the caller of the RPC `id`, whose call is in the state `call`. -/
structure AnswersOnce (rt : Runtime P) (s : Server) (id : Nat) (call : Call) : Prop where
  /-- `done` is run at most once, and exactly once when neither the handler nor braft has the call any more. -/
  atMostOnce : call.doneRuns ≤ 1
  onceSettled : call.settled = true → call.doneRuns = 1
  /-- When `done` is run the response is complete, and no step writes it afterwards. -/
  atRun : ∀ act s' call', step rt s act = some s' → s'.calls id = some call' → call.doneRuns < call'.doneRuns →
    call.response.Complete rt ∧ call'.response = call.response
  complete : call.doneRuns = 1 → call.response.Complete rt
  final : ∀ act s' call', step rt s act = some s' → s'.calls id = some call' → call.doneRuns = 1 →
    call'.response = call.response
  /-- A call that does not wait in braft is not left hanging: it has a step of its own, none of which crashes the
  process, and each one uses up a part of its work, which nothing adds to. -/
  progress : call.settled = false → (∀ task, call.closure ≠ .inBraft task) → ∃ a s', step rt s (.call id a) = some s'
  bounded : ∀ a s', step rt s (.call id a) = some s' →
    s'.fault = none ∧ ∃ call', s'.calls id = some call' ∧ call'.remaining < call.remaining
  kept : ∀ act s', step rt s act = some s' →
    ∃ call', s'.calls id = some call' ∧ (call' = call ∨ call'.remaining < call.remaining)

/-- Every RPC that has arrived is answered as promised. -/
def AllAnsweredOnce (rt : Runtime P) (s : Server) : Prop :=
  ∀ id call, s.calls id = some call → s.AnswersOnce rt id call

/-- Whatever the server does, a call is left alone or has less to do afterwards. -/
private theorem remaining_change {s s' : Server} (h : Exec.Reachable (step rt) init s) {act : ServerAct P}
    (ha : step rt s act = some s') {id : Nat} {call : Call} (hc : s.calls id = some call) :
    ∃ call', s'.calls id = some call' ∧ (call' = call ∨ call'.remaining < call.remaining) := by
  obtain ⟨call', hc', hch⟩ := step_call_change ha (reachable_fresh h) hc
  refine ⟨call', hc', ?_⟩
  rcases hch with rfl | ⟨a, -, hs⟩ | ⟨task, prev, ht, rfl⟩
  · exact Or.inl rfl
  · exact Or.inr (Call.remaining_step hs (reachable_owned h id call hc))
  · exact Or.inr (Call.remaining_onApply ht prev)

private theorem exists_callStep {s : Server} {id : Nat} {call call' : Call} {a : CallAct P} (hf : s.fault = none)
    (hc : s.calls id = some call) (hs : call.step rt s.counter a = some call') :
    ∃ s', step rt s (.call id a) = some s' := by
  simp only [step, hf, actStep, callStep, hc, hs, Option.isSome_none, Bool.false_eq_true, if_false]
  by_cases hn : (a.isApply && !s.counter.node) = true
  · exact ⟨_, if_pos hn⟩
  · exact ⟨_, if_neg hn⟩

theorem settled_doneRuns {call : Call} (ho : call.Owned rt) (hs : call.settled = true) :
    call.doneRuns = 1 := by
  simp only [Call.settled, Bool.and_eq_true, decide_eq_true_eq, Bool.not_eq_true'] at hs
  have h1 := ho.once
  rw [ho.left hs.1, hs.2] at h1
  simpa using h1

theorem doneRuns_complete {call : Call} (ho : call.Owned rt) (hd : call.doneRuns = 1) :
    call.response.Complete rt := by
  have h1 := ho.once
  have hw : call.working = false := by
    cases hw : call.working with
    | false => rfl
    | true => rw [(ho.working hw).2.2.1] at hd; cases hd
  refine ho.complete ?_
  cases hc : call.closure with
  | none => simp [Call.filled, hc, hw]
  | deleted => simp [Call.filled, hc]
  | inBraft task | scheduled ok | ran => simp [hc, hd, FetchAddClosure.holds] at h1

/-- An orderly step does not crash a process whose handlers find `_node`. -/
private theorem fault_orderly {s s' : Server} {act : ServerAct P} (h : step rt s act = some s') (hi : s.NodeInv)
    (hG : s.ChecksHold rt act) : s'.fault = none := by
  have hf := (step_actStep h).1
  cases step_outcome h with
  | nullNode hc hs ha hn =>
    cases Call.step_outcome hs with
    | apply hh =>
      have := hi.passed _ _ hc (by rw [hh]; rfl)
      rw [hn] at this
      cases this
    | _ => cases ha
  | applyAbort hp =>
    rw [ChecksHold, hp] at hG
    cases hG
  | loadAbort hl =>
    rw [ChecksHold, hl] at hG
    cases hG
  | _ => exact hf

/-- What a process that is alive owes to its callers. -/
private theorem answersOnce {s : Server} (h : Exec.Reachable (step rt) init s) (hf : s.fault = none) (hi : s.NodeInv) :
    s.AllAnsweredOnce rt := by
  intro id call hc
  have ho := reachable_owned h id call hc
  have h1 := ho.once
  have hchange : ∀ act s' call', step rt s act = some s' → s'.calls id = some call' →
      (call' = call ∨ (∃ a, act = .call id a ∧ call.step rt s.counter a = some call') ∨
        ∃ task prev, call.closure = .inBraft task ∧ call' = call.onApply prev) := by
    intro act s' call' ha hc'
    obtain ⟨call'', hc'', hch⟩ := step_call_change ha (reachable_fresh h) hc
    rw [hc'] at hc''
    cases hc''
    exact hch
  refine ⟨by omega, settled_doneRuns ho, ?_, doneRuns_complete ho, ?_, ?_, ?_, ?_⟩
  · intro act s' call' ha hc' hd
    rcases hchange act s' call' ha hc' with rfl | ⟨a, -, hs⟩ | ⟨task, prev, -, rfl⟩
    · exact absurd hd (Nat.lt_irrefl _)
    · exact Call.response_at_run hs ho hd
    · exact absurd hd (Nat.lt_irrefl _)
  · intro act s' call' ha hc' hd
    rcases hchange act s' call' ha hc' with rfl | ⟨a, -, hs⟩ | ⟨task, prev, ht, -⟩
    · rfl
    · exact Call.response_final hs ho (by omega)
    · have := ho.held (by rw [ht]; rfl)
      omega
  · intro hs hb
    obtain ⟨a, call', hst⟩ := Call.exists_step rt s.counter ho hs hb
    exact ⟨a, exists_callStep hf hc hst⟩
  · intro a s' ha
    have hf' := fault_orderly ha hi trivial
    cases step_outcome ha with
    | nullNode => cases hf'
    | call hi hs _ =>
      rw [hc] at hi
      cases hi
      exact ⟨hf', _, Function.update_self .., Call.remaining_step hs ho⟩
  · intro act s' ha
    exact remaining_change h ha hc

/-- In every run in which `on_leader_start` comes after `_node = node` and no `CHECK` fails, every RPC is answered
exactly once, with a complete and consistent response. -/
theorem answers_once (rt : Runtime P) {as : List (ServerAct P)} (hG : Exec.Along (step rt) (Orderly rt) init as) :
    Exec.Throughout (step rt) (AllAnsweredOnce rt) init as := by
  have hall : ∀ s, Exec.Reachable (step rt) init s ∧ s.fault = none ∧ s.NodeInv → s.AllAnsweredOnce rt :=
    fun s ⟨hr, hf, hi⟩ => answersOnce hr hf hi
  refine Exec.throughout_of_along hall ⟨Exec.Reachable.refl _, rfl, nodeInv_init⟩ ?_ hG
  rintro t act u ht ha ⟨hlead, hcheck⟩ ⟨-, -, hi⟩
  exact ⟨ht.tail ha, fault_orderly ha hi hcheck, nodeInv_step ha hlead hi⟩

/-- A leader adds 5, applies the entry and answers. -/
def addRun : List (ServerAct Nat) :=
  startUp ++ .callback (.leaderStart 1) :: (propose 0 ⟨5⟩ ++
    applyOne (serializeValue 5) (some 0) ++ [.call 0 (.run none), .call 0 .finish])

theorem answers_once_add : ∃ s call, Exec.exec (step (protobuf Nat.repr)) init addRun = some s ∧
    s.calls 0 = some call ∧ call.settled = true ∧ s.AnswersOnce (protobuf Nat.repr) 0 call := by
  have hG : Exec.Along (step (protobuf Nat.repr)) (Orderly (protobuf Nat.repr)) init addRun := by
    refine (Exec.along_append rfl).2 ⟨Exec.along_of_forall ?_, ⟨fun _ _ => rfl, trivial⟩, fun _ _ =>
      Exec.along_of_forall ?_⟩
    · simp [startUp, Orderly, LeaderStartsWithNode, ChecksHold]
    · simp [propose, applyOne, Orderly, LeaderStartsWithNode, ChecksHold]
  exact ⟨_, _, rfl, rfl, rfl, answers_once _ hG addRun _ (List.prefix_refl _) rfl 0 _ rfl⟩

/-- The RPC of `earlyLeader` is never answered, though braft has not got it: the process is gone. -/
theorem earlyLeader_unanswered : ∃ s call, Exec.exec (step (protobuf Nat.repr)) init earlyLeader = some s ∧
    s.calls 0 = some call ∧ call.doneRuns = 0 ∧ call.closure = .none ∧
    (∀ act, step (protobuf Nat.repr) s act = none) ∧ ¬ s.AnswersOnce (protobuf Nat.repr) 0 call := by
  refine ⟨_, _, rfl, rfl, rfl, rfl, fun _ => rfl, fun h => ?_⟩
  obtain ⟨a, s', hs⟩ := h.progress rfl (by simp)
  cases hs

end Server

end LearnTogether
