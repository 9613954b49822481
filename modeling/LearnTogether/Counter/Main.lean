import LearnTogether.Counter.Answer
import Mathlib.Algebra.Order.BigOperators.Group.Finset

/-!
# The life of the server process

`main` of `server.cpp` around the process: it constructs `server`, `counter` and `service`, starts the RPC server and
then the counter, waits to be asked to quit, and takes everything down.  The three objects live in the frame of `main`
and are destroyed in the reverse order, `service` and `counter` before `server`, whose destructor stops and joins the
RPC server.

Of brpc and braft the contract is that after `Stop` no request arrives, that `Join` returns when all requests have
been answered, and that after `_node->join()` no callback is invoked.  With it no thread uses a destroyed object,
unless `counter.start()` failed: then `main` returns with the RPC server running (`failedStart_touched`).
-/

namespace LearnTogether

/-- Why `main` returns: the RPC server was not started, `counter.start()` has failed, or the server has served. -/
inductive Exit
  | noServer
  | noCounter
  | served
  deriving DecidableEq

def Exit.code : Exit → Int
  | .noServer | .noCounter => -1
  | .served => 0

/-- Where `main` stands: `starting` is inside `counter.start()`, `running` is the loop that waits for
`brpc::IsAskedToQuit()`, and `serverStopped` is inside `~Server`; the others name the statement that has come back. -/
inductive Main
  | entered
  | serviceAdded
  | raftAdded
  | starting
  | running
  | asked
  | shutDown
  | stopped
  | counterJoined
  | returning (e : Exit)
  | serviceDestroyed (e : Exit)
  | counterDestroyed (e : Exit)
  | serverStopped (e : Exit)
  | exited (e : Exit)
  deriving DecidableEq

namespace Main

def exit : Main → Option Exit
  | .returning e | .serviceDestroyed e | .counterDestroyed e | .serverStopped e | .exited e => some e
  | _ => none

def serviceGone : Main → Bool
  | .serviceDestroyed _ | .counterDestroyed _ | .serverStopped _ | .exited _ => true
  | _ => false

def counterGone : Main → Bool
  | .counterDestroyed _ | .serverStopped _ | .exited _ => true
  | _ => false

end Main

/-- The process with its `main` thread; `serving` says whether requests can arrive, `nodeDown` that `_node->join()`
has returned, and `touched` that a thread has used `service` or `counter` after its destruction. -/
structure Process where
  main : Main := .entered
  server : Server := {}
  serving : Bool := false
  nodeDown : Bool := false
  touched : Bool := false

/-- The statements of `main`, of which `~Server` is two, `stopServer` and `joinServer`; `act` is a step of another
thread, or of `counter.start()`. -/
inductive MainAct (P : Type)
  | addService (ok : Bool)
  | addRaftService (ok : Bool)
  | startServer (ok : Bool)
  | startReturn
  | quit
  | shutdown
  | stop
  | joinCounter
  | join
  | destroyService
  | destroyCounter
  | stopServer
  | joinServer
  | act (a : ServerAct P)
  deriving DecidableEq

def Server.answeredAll (s : Server) : Bool :=
  (List.range s.nextCall).all fun id =>
    match s.calls id with
    | some call => decide (0 < call.doneRuns)
    | none => true

/-- The step uses `service`: a request is dispatched, or the handler follows `CounterServiceImpl::_counter`. -/
def ServerAct.usesService {P : Type} : ServerAct P → Bool
  | .invoke _ | .call _ .test => true
  | _ => false

/-- The step uses `counter`.  The bthread of a snapshot request has its own copies. -/
def ServerAct.usesCounter {P : Type} (s : Server) : ServerAct P → Bool
  | .start _ | .callback _ | .call _ .test | .call _ (.redirect _) | .call _ .apply | .call _ .load => true
  | .call id (.run _) =>
    match s.calls id with
    | some c => decide (c.closure = .scheduled false)
    | none => false
  | _ => false

namespace Process

variable {P : Type} (rt : Runtime P)

def allows (p : Process) : ServerAct P → Bool
  | .start _ => decide (p.main = .starting)
  | .invoke _ => p.serving
  | .callback _ => !p.nodeDown
  | .call _ _ | .save _ _ => (match p.main with | .exited _ => false | _ => true)

def mainStep (p : Process) : MainAct P → Option Process
  | .addService ok =>
    if p.main = .entered then some { p with main := if ok then .serviceAdded else .returning .noServer } else none
  | .addRaftService ok =>
    if p.main = .serviceAdded then some { p with main := if ok then .raftAdded else .returning .noServer } else none
  | .startServer ok =>
    if p.main = .raftAdded then
      some (if ok then { p with main := .starting, serving := true } else { p with main := .returning .noServer })
    else none
  | .startReturn =>
    match p.main, p.server.start with
    | .starting, .started => some { p with main := .running }
    | .starting, .failed => some { p with main := .returning .noCounter }
    | _, _ => none
  | .quit => if p.main = .running then some { p with main := .asked } else none
  | .shutdown => if p.main = .asked then some { p with main := .shutDown } else none
  | .stop => if p.main = .shutDown then some { p with main := .stopped, serving := false } else none
  | .joinCounter =>
    if p.main = .stopped ∧ (p.server.counter.node = true → p.server.fsm = .idle) then
      some { p with main := .counterJoined, nodeDown := p.nodeDown || p.server.counter.node }
    else none
  | .join =>
    if p.main = .counterJoined ∧ p.server.answeredAll = true then some { p with main := .returning .served } else none
  | .destroyService =>
    match p.main with
    | .returning e => some { p with main := .serviceDestroyed e }
    | _ => none
  | .destroyCounter =>
    match p.main with
    | .serviceDestroyed e => some { p with main := .counterDestroyed e }
    | _ => none
  | .stopServer =>
    match p.main with
    | .counterDestroyed e => some { p with main := .serverStopped e, serving := false }
    | _ => none
  | .joinServer =>
    match p.main with
    | .serverStopped e => if p.server.answeredAll = true then some { p with main := .exited e } else none
    | _ => none
  | .act a =>
    if p.allows a = true then
      (p.server.step rt a).map fun s => { p with
        server := s
        touched := p.touched || p.main.serviceGone && a.usesService || p.main.counterGone && a.usesCounter p.server }
    else none

/-- After a fault there is no process. -/
def step (p : Process) (a : MainAct P) : Option Process :=
  if p.server.fault.isSome then none else p.mainStep rt a

def init : Process := {}

end Process

/-- Only `_node = node` leads to `return 0`. -/
private theorem Start.storeNode_of_started {s : Start} {a : StartAct} (h : s.step a = some .started) :
    a = .storeNode := by
  cases a with
  | storeNode => rfl
  | parseConf ok | initReturn ok => cases ok <;> cases s <;> cases h
  | newNode | init | deleteNode => cases s <;> cases h

/-! ### What the threads do after the joins -/

namespace Server

variable {P : Type} {rt : Runtime P} {s s' : Server} {act : ServerAct P}

private theorem answeredAll_iff (hs : s.Fresh) :
    s.answeredAll = true ↔ ∀ id call, s.calls id = some call → 0 < call.doneRuns := by
  unfold answeredAll
  rw [List.all_eq_true]
  constructor
  · intro h id call hc
    have hid : id < s.nextCall := by
      by_contra hge
      rw [hs id (by omega)] at hc
      cases hc
    have hd := h id (List.mem_range.2 hid)
    rw [hc] at hd
    exact of_decide_eq_true hd
  · intro h id _
    cases hc : s.calls id with
    | none => rfl
    | some call => exact decide_eq_true (h id call hc)

/-- Apart from the steps of `start()`, nothing changes where `start()` stands, and `_node` is not taken back. -/
private theorem step_start_eq (h : s.step rt act = some s') (hne : ∀ a, act ≠ .start a) :
    s'.start = s.start ∧ s'.counter.node = s.counter.node := by
  cases step_outcome h with
  | start => exact absurd rfl (hne _)
  | _ => exact ⟨rfl, rfl⟩

/-- A step that is not the arrival of a request finds all its calls there, and takes no `done` back. -/
private theorem step_calls_old (h : s.step rt act = some s') (hne : ∀ r, act ≠ .invoke r) {id : Nat} {call' : Call}
    (hc' : s'.calls id = some call') : ∃ call, s.calls id = some call ∧ call.doneRuns ≤ call'.doneRuns := by
  have hset : ∀ {i : Nat} {c c' : Call}, s.calls i = some c → c.doneRuns ≤ c'.doneRuns →
      Function.update s.calls i (some c') id = some call' →
      ∃ call, s.calls id = some call ∧ call.doneRuns ≤ call'.doneRuns := by
    intro i c c' hc hle hu
    by_cases hi : id = i
    · subst hi
      rw [Function.update_self, Option.some.injEq] at hu
      subst hu
      exact ⟨c, hc, hle⟩
    · rw [Function.update_of_ne hi] at hu
      exact ⟨call', hu, Nat.le_refl _⟩
  cases step_outcome h with
  | invoke => exact absurd rfl (hne _)
  | call hc hs _ =>
    refine hset hc ?_ hc'
    cases Call.step_outcome hs with
    | leave => dsimp only; split <;> omega
    | finish => exact Nat.le_succ _
    | _ => exact Nat.le_refl _
  | @applyDone data i c task request hc _ _ =>
    have hle : c.doneRuns ≤ (c.onApply s.counter.value).doneRuns := Nat.le_refl _
    exact hset hc hle hc'
  | _ => exact ⟨call', hc', Nat.le_refl _⟩

/-- When all calls are answered, only braft and new requests use the objects. -/
private theorem not_uses (h : s.step rt act = some s') (ho : ∀ id call, s.calls id = some call → call.Owned rt)
    (hd : ∀ id call, s.calls id = some call → 0 < call.doneRuns) (hstart : ∀ a, act ≠ .start a)
    (hinvoke : ∀ r, act ≠ .invoke r) (hcallback : ∀ a, act ≠ .callback a) :
    act.usesService = false ∧ act.usesCounter s = false := by
  have hnot : ∀ {id call}, s.calls id = some call → call.working = false ∧ call.closure.holds = false := by
    intro id call hc
    have hpos := hd id call hc
    constructor
    · cases hw : call.working with
      | false => rfl
      | true =>
        have := ((ho id call hc).working hw).2.2.1
        omega
    · cases hh : call.closure.holds with
      | false => rfl
      | true =>
        have := ((ho id call hc).held hh).2.1
        omega
  have hcall : ∀ {id a call call'}, s.calls id = some call → call.step rt s.counter a = some call' →
      (ServerAct.call (P := P) id a).usesService = false ∧ (ServerAct.call id a).usesCounter s = false := by
    intro id a call call' hc hs
    obtain ⟨hw, hh⟩ := hnot hc
    cases Call.step_outcome hs with
    | notLeader he | passed he | getPassed he | getRefused he | redirect he | apply he | load he =>
      simp [Call.working, he] at hw
    | run he | runRedirect he => simp [he, FetchAddClosure.holds] at hh
    | serialized | notSerialized | leave | fail | finish => exact ⟨rfl, rfl⟩
  cases step_outcome h with
  | start => exact absurd rfl (hstart _)
  | invoke => exact absurd rfl (hinvoke _)
  | nullNode hc hs | call hc hs _ => exact hcall hc hs
  | save => exact ⟨rfl, rfl⟩
  | _ => exact absurd rfl (hcallback _)

end Server

namespace Process

variable {P : Type} {rt : Runtime P} {p p' : Process}

private theorem step_mainStep {a : MainAct P} (h : step rt p a = some p') :
    p.server.fault = none ∧ p.mainStep rt a = some p' := by
  unfold step at h
  cases hf : p.server.fault with
  | none => exact ⟨rfl, by simpa [hf] using h⟩
  | some f => simp [hf] at h

/-- What the process has got, as far as `main` knows: from `stopped` on no request arrives, from `joined` on no
callback is invoked either, and in `served` all calls are answered. -/
inductive Phase
  | unserved
  | starting
  | up
  | stopped
  | joined
  | served
  | noCounter
  deriving DecidableEq

def phase (p : Process) : Phase :=
  match p.main with
  | .entered | .serviceAdded | .raftAdded => .unserved
  | .starting => .starting
  | .running | .asked | .shutDown => .up
  | .stopped => .stopped
  | .counterJoined => .joined
  | .returning e | .serviceDestroyed e | .counterDestroyed e | .serverStopped e | .exited e =>
    match e with
    | .noServer => .unserved
    | .noCounter => .noCounter
    | .served => .served

structure Inv (rt : Runtime P) (p : Process) : Prop where
  fresh : p.server.Fresh
  owned : ∀ id call, p.server.calls id = some call → call.Owned rt
  node : p.server.start = .started → p.server.counter.node = true
  idle : p.phase = .unserved → p.serving = false ∧ p.server.start = .entered ∧ ∀ id, p.server.calls id = none
  started : p.phase = .up ∨ p.phase = .stopped ∨ p.phase = .joined ∨ p.phase = .served → p.server.start = .started
  closed : p.phase = .stopped ∨ p.phase = .joined ∨ p.phase = .served → p.serving = false
  down : p.phase = .joined ∨ p.phase = .served ↔ p.nodeDown = true
  answered : p.phase = .served → ∀ id call, p.server.calls id = some call → 0 < call.doneRuns
  failed : p.phase = .noCounter → p.server.start = .failed
  untouched : p.touched = true → p.phase = .noCounter

/-- A statement of `main` that stays in the phase keeps the invariant. -/
private theorem inv_phase (hi : Inv rt p) (hp : p'.phase = p.phase) (hs : p'.server = p.server)
    (hv : p.serving = false → p'.serving = false) (hn : p'.nodeDown = p.nodeDown) (ht : p'.touched = p.touched) :
    Inv rt p' := by
  refine ⟨?_, ?_, ?_, ?_, ?_, ?_, ?_, ?_, ?_, ?_⟩
  · rw [hs]
    exact hi.fresh
  · rw [hs]
    exact hi.owned
  · rw [hs]
    exact hi.node
  · rw [hp, hs]
    intro h
    obtain ⟨hno, hrest⟩ := hi.idle h
    exact ⟨hv hno, hrest⟩
  · rw [hp, hs]
    exact hi.started
  · rw [hp]
    exact fun h => hv (hi.closed h)
  · rw [hp, hn]
    exact hi.down
  · rw [hp, hs]
    exact hi.answered
  · rw [hp, hs]
    exact hi.failed
  · rw [hp, ht]
    exact hi.untouched

/-- No object was used after its destruction while there was still a way to a good end. -/
private theorem not_touched (hi : Inv rt p) (hp : p.phase ≠ .noCounter) : p.touched ≠ true :=
  fun ht => hp (hi.untouched ht)

private theorem not_down (hi : Inv rt p) (hj : p.phase ≠ .joined) (hs : p.phase ≠ .served) : p.nodeDown ≠ true := by
  intro hd
  rcases hi.down.2 hd with h | h
  · exact hj h
  · exact hs h

private theorem inv_mainStep (hi : Inv rt p) {a : MainAct P} (h : p.mainStep rt a = some p')
    (ha : ∀ b, a ≠ .act b) : Inv rt p' := by
  cases a with
  | addService ok =>
    simp only [mainStep] at h
    split at h <;> cases h
    rename_i hm
    refine inv_phase hi ?_ rfl id rfl rfl
    cases ok <;> simp [phase, hm]
  | addRaftService ok =>
    simp only [mainStep] at h
    split at h <;> cases h
    rename_i hm
    refine inv_phase hi ?_ rfl id rfl rfl
    cases ok <;> simp [phase, hm]
  | startServer ok =>
    simp only [mainStep] at h
    split at h <;> cases h
    rename_i hm
    have hp : p.phase = .unserved := by simp [phase, hm]
    cases ok with
    | false => exact inv_phase hi (by simp [phase, hm]) rfl id rfl rfl
    | true =>
      have ht := not_touched hi (by simp [hp])
      have hd := not_down hi (by simp [hp]) (by simp [hp])
      exact ⟨hi.fresh, hi.owned, hi.node, by simp [phase], by simp [phase], by simp [phase], by simp [phase, hd],
        by simp [phase], by simp [phase], fun h => absurd h ht⟩
  | startReturn =>
    simp only [mainStep] at h
    split at h
    · rename_i hm hst
      cases h
      have ht := not_touched hi (by simp [phase, hm])
      have hd := not_down hi (by simp [phase, hm]) (by simp [phase, hm])
      exact ⟨hi.fresh, hi.owned, hi.node, by simp [phase], fun _ => hst, by simp [phase], by simp [phase, hd],
        by simp [phase], by simp [phase], fun h => absurd h ht⟩
    · rename_i hm hst
      cases h
      have hd := not_down hi (by simp [phase, hm]) (by simp [phase, hm])
      exact ⟨hi.fresh, hi.owned, hi.node, by simp [phase], by simp [phase], by simp [phase], by simp [phase, hd],
        by simp [phase], fun _ => hst, fun _ => rfl⟩
    · cases h
  | quit =>
    simp only [mainStep] at h
    split at h <;> cases h
    rename_i hm
    exact inv_phase hi (by simp [phase, hm]) rfl id rfl rfl
  | shutdown =>
    simp only [mainStep] at h
    split at h <;> cases h
    rename_i hm
    exact inv_phase hi (by simp [phase, hm]) rfl id rfl rfl
  | stop =>
    simp only [mainStep] at h
    split at h <;> cases h
    rename_i hm
    have hp : p.phase = .up := by simp [phase, hm]
    have ht := not_touched hi (by simp [hp])
    have hd := not_down hi (by simp [hp]) (by simp [hp])
    exact ⟨hi.fresh, hi.owned, hi.node, by simp [phase], fun _ => hi.started (Or.inl hp), fun _ => rfl,
      by simp [phase, hd], by simp [phase], by simp [phase], fun h => absurd h ht⟩
  | joinCounter =>
    simp only [mainStep] at h
    split at h <;> cases h
    rename_i hm
    have hp : p.phase = .stopped := by simp [phase, hm.1]
    have ht := not_touched hi (by simp [hp])
    have hst := hi.started (Or.inr (Or.inl hp))
    exact ⟨hi.fresh, hi.owned, hi.node, by simp [phase], fun _ => hst, fun _ => hi.closed (Or.inl hp),
      by simp [phase, hi.node hst], by simp [phase], by simp [phase], fun h => absurd h ht⟩
  | join =>
    simp only [mainStep] at h
    split at h <;> cases h
    rename_i hm
    have hp : p.phase = .joined := by simp [phase, hm.1]
    have ht := not_touched hi (by simp [hp])
    exact ⟨hi.fresh, hi.owned, hi.node, by simp [phase], fun _ => hi.started (Or.inr (Or.inr (Or.inl hp))),
      fun _ => hi.closed (Or.inr (Or.inl hp)), by simp [phase, hi.down.1 (Or.inl hp)],
      fun _ => (Server.answeredAll_iff hi.fresh).1 hm.2, by simp [phase], fun h => absurd h ht⟩
  | destroyService =>
    simp only [mainStep] at h
    split at h
    · rename_i e hm
      cases h
      exact inv_phase hi (by simp [phase, hm]) rfl id rfl rfl
    · cases h
  | destroyCounter =>
    simp only [mainStep] at h
    split at h
    · rename_i e hm
      cases h
      exact inv_phase hi (by simp [phase, hm]) rfl id rfl rfl
    · cases h
  | stopServer =>
    simp only [mainStep] at h
    split at h
    · rename_i e hm
      cases h
      exact inv_phase hi (by simp [phase, hm]) rfl (fun _ => rfl) rfl rfl
    · cases h
  | joinServer =>
    simp only [mainStep] at h
    split at h
    · rename_i e hm
      split at h <;> cases h
      exact inv_phase hi (by simp [phase, hm]) rfl id rfl rfl
    · cases h
  | act b => exact absurd rfl (ha b)

private theorem phase_of_gone (h : p.main.serviceGone = true) :
    p.phase = .unserved ∨ p.phase = .served ∨ p.phase = .noCounter := by
  unfold phase
  cases hm : p.main with
  | serviceDestroyed e | counterDestroyed e | serverStopped e | exited e => cases e <;> simp
  | _ => rw [hm] at h; cases h

private theorem serviceGone_of_counterGone (h : p.main.counterGone = true) : p.main.serviceGone = true := by
  cases hm : p.main with
  | counterDestroyed | serverStopped | exited => rfl
  | _ => rw [hm] at h; cases h

private theorem inv_act (hi : Inv rt p) {a : ServerAct P} (h : p.mainStep rt (.act a) = some p') : Inv rt p' := by
  simp only [mainStep] at h
  split at h
  · rename_i hok
    obtain ⟨s, hs, rfl⟩ := Option.map_eq_some_iff.1 h
    have hstart : p.phase ≠ .starting → ∀ b, a ≠ .start b := by
      rintro hp b rfl
      have hm : p.main = .starting := of_decide_eq_true hok
      exact hp (by simp [phase, hm])
    have hinvoke : p.serving = false → ∀ r, a ≠ .invoke r := by
      rintro hv r rfl
      rw [show p.serving = true from hok] at hv
      cases hv
    have hsame : p.phase ≠ .starting → s.start = p.server.start ∧ s.counter.node = p.server.counter.node :=
      fun hp => Server.step_start_eq hs (hstart hp)
    refine ⟨Server.step_fresh hs hi.fresh, ?_, ?_, ?_, ?_, hi.closed, hi.down, ?_, ?_, ?_⟩
    · exact Server.step_calls_induction Call.owned_new (fun _ _ _ _ hc ho => Call.owned_step hc ho)
        (fun _ _ _ prev hc _ ho => Call.owned_onApply hc prev ho) hs hi.owned
    · intro hst
      by_cases hb : ∃ b, a = .start b
      · obtain ⟨b, rfl⟩ := hb
        cases Server.step_outcome hs with
        | @start _ start hb =>
          obtain rfl : start = .started := hst
          simp [Start.storeNode_of_started hb]
      · have heq := Server.step_start_eq hs (fun b he => hb ⟨b, he⟩)
        rw [show s.start = .started from hst] at heq
        exact heq.2.trans (hi.node heq.1.symm)
    · intro hp
      obtain ⟨hv, hst, hc⟩ := hi.idle hp
      have hp : p.phase = .unserved := hp
      refine ⟨hv, (hsame (by simp [hp])).1.trans hst, fun id => ?_⟩
      cases hc' : s.calls id with
      | none => rfl
      | some call' =>
        obtain ⟨call, hcall, -⟩ := Server.step_calls_old hs (hinvoke hv) hc'
        rw [hc id] at hcall
        cases hcall
    · intro hp
      have hne : p.phase ≠ .starting := by
        intro he
        have hp : p.phase = .up ∨ p.phase = .stopped ∨ p.phase = .joined ∨ p.phase = .served := hp
        simp [he] at hp
      exact (hsame hne).1.trans (hi.started hp)
    · intro hp id call' hc'
      have hv := hi.closed (Or.inr (Or.inr hp))
      obtain ⟨call, hc, hle⟩ := Server.step_calls_old hs (hinvoke hv) hc'
      exact Nat.lt_of_lt_of_le (hi.answered hp id call hc) hle
    · intro hp
      have hp : p.phase = .noCounter := hp
      exact (hsame (by simp [hp])).1.trans (hi.failed hp)
    · intro ht
      show p.phase = .noCounter
      by_contra hne
      have hno := not_touched hi hne
      have hfin : p.main.serviceGone = true → a.usesService = false ∧ a.usesCounter p.server = false := by
        intro hg
        rcases phase_of_gone hg with hp | hp | hp
        · -- nobody was ever called
          obtain ⟨hv, hst, hc⟩ := hi.idle hp
          refine Server.not_uses hs hi.owned (fun id call hcall => ?_) (hstart (by simp [hp])) (hinvoke hv) ?_
          · rw [hc id] at hcall
            cases hcall
          · rintro b rfl
            have hact := (Server.step_actStep hs).2
            simp [Server.actStep, hst, Start.callbacks] at hact
        · refine Server.not_uses hs hi.owned (hi.answered hp) (hstart (by simp [hp]))
            (hinvoke (hi.closed (Or.inr (Or.inr hp)))) ?_
          rintro b rfl
          have hdown := hi.down.1 (Or.inr hp)
          simp [allows, hdown] at hok
        · exact absurd hp hne
      simp only [Bool.or_eq_true, Bool.and_eq_true] at ht
      rcases ht with (ht | ⟨hg, hu⟩) | ⟨hg, hu⟩
      · exact hno ht
      · rw [(hfin hg).1] at hu
        cases hu
      · rw [(hfin (serviceGone_of_counterGone hg)).2] at hu
        cases hu
  · cases h

theorem reachable_inv (h : Exec.Reachable (step rt) init p) : Inv rt p := by
  refine h.induction ?_ ?_
  · refine ⟨fun _ _ => rfl, by simp [init], by simp [init], fun _ => ⟨rfl, rfl, fun _ => rfl⟩, ?_, ?_, ?_, ?_, ?_, ?_⟩
    all_goals simp [phase, init]
  · intro t a u _ ha hi
    have hm := (step_mainStep ha).2
    by_cases hact : ∃ b, a = .act b
    · obtain ⟨b, rfl⟩ := hact
      exact inv_act hi hm
    · exact inv_mainStep hi hm fun b hb => hact ⟨b, hb⟩

private theorem answered_once (hi : Inv rt p) (hp : p.phase = .served) {id : Nat} {call : Call}
    (hc : p.server.calls id = some call) : call.doneRuns = 1 ∧ call.response.Complete rt := by
  have ho := hi.owned id call hc
  have hpos := hi.answered hp id call hc
  have h1 := ho.once
  have hd : call.doneRuns = 1 := by omega
  exact ⟨hd, Server.doneRuns_complete ho hd⟩

/-- What the tear-down of `main` guarantees. -/
structure SafeExit (rt : Runtime P) (p : Process) : Prop where
  /-- `service` and `counter` are used after their destruction only if `counter.start()` has failed. -/
  untouched : p.touched = true → p.server.start = .failed
  /-- When `main` returns 0, every RPC that has arrived was answered exactly once, with a complete response. -/
  answered : p.main.exit = some .served → ∀ id call, p.server.calls id = some call →
    call.doneRuns = 1 ∧ call.response.Complete rt
  /-- Then no request can arrive any more and no callback be invoked. -/
  quiet : p.main.exit = some .served → p.serving = false ∧ p.nodeDown = true

private theorem phase_of_served (h : p.main.exit = some .served) : p.phase = .served := by
  unfold phase
  cases hm : p.main with
  | returning e | serviceDestroyed e | counterDestroyed e | serverStopped e | exited e =>
    rw [hm] at h
    cases h
    rfl
  | _ => rw [hm] at h; cases h

/-- Whatever the clients, braft and the operating system do, the process is taken down in an orderly way, unless
`counter.start()` fails; in `failedStart_touched` it does, and a handler runs on destroyed objects. -/
theorem safeExit (rt : Runtime P) (h : Exec.Reachable (step rt) init p) : p.SafeExit rt := by
  have hi := reachable_inv h
  refine ⟨fun ht => hi.failed (hi.untouched ht), fun hs id call hc => ?_, fun hs => ?_⟩
  · exact answered_once hi (phase_of_served hs) hc
  · have hp := phase_of_served hs
    exact ⟨hi.closed (Or.inr (Or.inr hp)), hi.down.1 (Or.inr hp)⟩

def startRun (as : List (ServerAct Nat)) : List (MainAct Nat) :=
  [.addService true, .addRaftService true, .startServer true] ++ as.map .act ++ [.startReturn]

/-- A `get` arrives; the process is asked to quit; the `get` is answered after `counter.join()`. -/
def quitRun : List (MainAct Nat) :=
  startRun Server.startUp ++ [.act (.invoke .get), .quit, .shutdown, .stop, .joinCounter, .act (.call 0 .test),
    .act (.call 0 (.redirect none)), .act (.call 0 .leave), .join, .destroyService, .destroyCounter, .stopServer,
    .joinServer]

theorem safeExit_quitRun : ∃ p, Exec.exec (step (protobuf Nat.repr)) init quitRun = some p ∧
    p.main = .exited .served ∧ p.touched = false ∧ p.SafeExit (protobuf Nat.repr) :=
  ⟨_, rfl, rfl, rfl, safeExit (protobuf Nat.repr) ⟨quitRun, rfl⟩⟩

/-- The configuration does not parse.  A request has arrived, and is still served when `counter` is gone. -/
def failedStart : List (MainAct Nat) :=
  [.addService true, .addRaftService true, .startServer true, .act (.invoke .get), .act (.start (.parseConf false)),
    .startReturn, .destroyService, .destroyCounter, .act (.call 0 .test)]

theorem failedStart_touched : ∃ p, Exec.exec (step (protobuf Nat.repr)) init failedStart = some p ∧
    p.touched = true ∧ p.main = .counterDestroyed .noCounter := ⟨_, rfl, rfl, rfl⟩

end Process

/-! ### The way to the exit -/

namespace Server

variable {P : Type} {rt : Runtime P} {s : Server}

/-- What is left to do for the calls that have arrived. -/
def work (s : Server) : Nat :=
  ∑ id ∈ Finset.range s.nextCall, match s.calls id with
    | some call => call.remaining
    | none => 0

private theorem work_setCall {id : Nat} {call call' : Call} (hid : id < s.nextCall) (hc : s.calls id = some call)
    (hlt : call'.remaining < call.remaining) : (s.setCall id call').work < s.work := by
  unfold work
  refine Finset.sum_lt_sum (fun i _ => ?_) ⟨id, Finset.mem_range.2 hid, ?_⟩
  · by_cases hi : i = id
    · subst hi
      rw [hc]
      simp only [setCall, Function.update_self]
      exact Nat.le_of_lt hlt
    · simp only [setCall, Function.update_of_ne hi]
      exact Nat.le_refl _
  · rw [hc]
    simp only [setCall, Function.update_self]
    exact hlt

private theorem step_call (hf : s.fault = none) (hn : s.counter.node = true) {id : Nat} {a : CallAct P}
    {call call' : Call} (hc : s.calls id = some call) (hs : call.step rt s.counter a = some call') :
    s.step rt (.call id a) = some (s.setCall id call') := by
  simp [step, hf, actStep, callStep, hc, hs, hn]

/-- An unanswered call has a step: its own, or braft gives up its task. -/
private theorem exists_step_of_unanswered (rt : Runtime P) (c : Counter) {call : Call} (ho : call.Owned rt)
    (hd : call.doneRuns = 0) : ∃ a call', call.step rt c a = some call' := by
  by_cases hb : ∃ task, call.closure = .inBraft task
  · obtain ⟨task, hc⟩ := hb
    exact ⟨.fail, _, by simp only [Call.step, hc]; rfl⟩
  · have hs : call.settled = false := by
      by_contra hs
      rw [Bool.not_eq_false] at hs
      have := settled_doneRuns ho hs
      omega
    exact Call.exists_step rt c ho hs fun task hc => hb ⟨task, hc⟩

private theorem exists_unanswered (h : s.answeredAll = false) :
    ∃ id call, id < s.nextCall ∧ s.calls id = some call ∧ call.doneRuns = 0 := by
  unfold answeredAll at h
  rw [List.all_eq_false] at h
  obtain ⟨id, hid, hno⟩ := h
  cases hc : s.calls id with
  | none => simp [hc] at hno
  | some call =>
    rw [hc] at hno
    have hd : ¬ 0 < call.doneRuns := by simpa using hno
    exact ⟨id, call, List.mem_range.1 hid, hc, by omega⟩

end Server

namespace Process

variable {P : Type} {rt : Runtime P} {p : Process}

/-- The statements that `main` has in front of it. -/
def left : Main → Nat
  | .entered => 13
  | .serviceAdded => 12
  | .raftAdded => 11
  | .starting => 10
  | .running => 9
  | .asked => 8
  | .shutDown => 7
  | .stopped => 6
  | .counterJoined => 5
  | .returning _ => 4
  | .serviceDestroyed _ => 3
  | .counterDestroyed _ => 2
  | .serverStopped _ => 1
  | .exited _ => 0

/-- An upper bound for the steps to the exit when no request arrives any more. -/
def remaining (p : Process) : Nat :=
  match p.main with
  | .exited _ => 0
  | m => left m + p.server.work + (if p.server.fsm = .idle then 0 else 1)

/-- A process that is alive and whose `counter.start()` has returned 0 or is about to. -/
structure Alive (rt : Runtime P) (p : Process) : Prop where
  reachable : Exec.Reachable (step rt) init p
  fault : p.server.fault = none
  started : p.server.start = .started

private theorem Alive.phase (ha : Alive rt p) : p.phase ≠ .unserved ∧ p.phase ≠ .noCounter := by
  have hi := reachable_inv ha.reachable
  constructor <;> intro hp
  · have hst := (hi.idle hp).2.1
    rw [ha.started] at hst
    cases hst
  · have hst := hi.failed hp
    rw [ha.started] at hst
    cases hst

def NoRequest (a : MainAct P) : Prop := ∀ request, a ≠ .act (.invoke request)

private theorem step_main {a : MainAct P} {p' : Process} (ha : Alive rt p) (hne : ∀ r, a ≠ .act (.invoke r))
    (h : p.mainStep rt a = some p') (hs : p'.server = p.server) (hlt : left p'.main < left p.main) :
    ∃ a p', NoRequest a ∧ step rt p a = some p' ∧ Alive rt p' ∧ p'.remaining < p.remaining := by
  have hst : step rt p a = some p' := by
    unfold step
    rw [if_neg (by simp [ha.fault]), h]
  refine ⟨a, p', hne, hst, ⟨ha.reachable.tail hst, by rw [hs]; exact ha.fault, by rw [hs]; exact ha.started⟩, ?_⟩
  unfold remaining
  cases hm : p.main with
  | exited e =>
    rw [hm] at hlt
    exact absurd hlt (Nat.not_lt_zero _)
  | _ =>
    rw [hm] at hlt
    cases hm' : p'.main with
    | exited e => simp only [left]; omega
    | _ =>
      rw [hm'] at hlt
      simp only [hs]
      omega

/-- A process that is alive and not yet gone has a step to the exit. -/
private theorem exists_alive_step (ha : Alive rt p) (hpos : 0 < p.remaining) :
    ∃ a p', NoRequest a ∧ step rt p a = some p' ∧ Alive rt p' ∧ p'.remaining < p.remaining := by
  have hi := reachable_inv ha.reachable
  have hnode := hi.node ha.started
  have hphase := ha.phase
  cases hm : p.main with
  | entered | serviceAdded | raftAdded => simp [phase, hm] at hphase
  | starting =>
    have hst : p.mainStep rt .startReturn = some { p with main := .running } := by
      simp only [mainStep, hm, ha.started]
    exact step_main ha (by simp) hst rfl (by simp [hm, left])
  | running => exact step_main ha (a := .quit) (by simp) (if_pos hm) rfl (by simp [hm, left])
  | asked => exact step_main ha (a := .shutdown) (by simp) (if_pos hm) rfl (by simp [hm, left])
  | shutDown => exact step_main ha (a := .stop) (by simp) (if_pos hm) rfl (by simp [hm, left])
  | stopped =>
    cases hf : p.server.fsm with
    | idle => exact step_main ha (a := .joinCounter) (by simp) (if_pos ⟨hm, fun _ => hf⟩) rfl (by simp [hm, left])
    | applying =>
      -- the callback that runs has to return first
      have hdown := not_down hi (by simp [phase, hm]) (by simp [phase, hm])
      have hs : p.server.step rt (.callback .applyEnd) = some { p.server with fsm := .idle } := by
        simp [Server.step, ha.fault, Server.actStep, ha.started, Start.callbacks, Server.callbackStep, hf]
      have hst : step rt p (.act (.callback .applyEnd)) = some { p with server := { p.server with fsm := .idle } } := by
        simp [step, ha.fault, mainStep, allows, hdown, hs, hm, Main.serviceGone, Main.counterGone]
      refine ⟨_, _, by simp [NoRequest], hst, ⟨ha.reachable.tail hst, ha.fault, ha.started⟩, ?_⟩
      simp [remaining, hm, hf, Server.work]
  | counterJoined =>
    cases hall : p.server.answeredAll with
    | true => exact step_main ha (a := .join) (by simp) (if_pos ⟨hm, hall⟩) rfl (by simp [hm, left])
    | false =>
      obtain ⟨id, call, hid, hc, hd⟩ := Server.exists_unanswered hall
      have ho := hi.owned id call hc
      obtain ⟨a, call', hcall⟩ := Server.exists_step_of_unanswered rt p.server.counter ho hd
      have hs := Server.step_call ha.fault hnode hc hcall
      have hst : step rt p (.act (.call id a)) = some { p with server := p.server.setCall id call' } := by
        simp [step, ha.fault, mainStep, allows, hs, hm, Main.serviceGone, Main.counterGone]
      refine ⟨_, _, by simp [NoRequest], hst, ⟨ha.reachable.tail hst, ha.fault, ha.started⟩, ?_⟩
      have hlt := Server.work_setCall hid hc (Call.remaining_step hcall ho)
      have hfsm : (p.server.setCall id call').fsm = p.server.fsm := rfl
      simp only [remaining, hm, hfsm]
      omega
  | returning e =>
    have hst : p.mainStep rt .destroyService = some { p with main := .serviceDestroyed e } := by
      simp only [mainStep, hm]
    exact step_main ha (by simp) hst rfl (by simp [hm, left])
  | serviceDestroyed e =>
    have hst : p.mainStep rt .destroyCounter = some { p with main := .counterDestroyed e } := by
      simp only [mainStep, hm]
    exact step_main ha (by simp) hst rfl (by simp [hm, left])
  | counterDestroyed e =>
    have hst : p.mainStep rt .stopServer = some { p with main := .serverStopped e, serving := false } := by
      simp only [mainStep, hm]
    exact step_main ha (by simp) hst rfl (by simp [hm, left])
  | serverStopped e =>
    have hp : p.phase = .served := by
      cases e with
      | noServer | noCounter => simp [phase, hm] at hphase
      | served => simp [phase, hm]
    have hall := (Server.answeredAll_iff hi.fresh).2 (hi.answered hp)
    have hst : p.mainStep rt .joinServer = some { p with main := .exited e } := by
      simp only [mainStep, hm, hall, if_true]
    exact step_main ha (by simp) hst rfl (by simp [hm, left])
  | exited e => simp [remaining, hm] at hpos

/-- A process that is alive, and whose `counter.start()` has succeeded, can always be taken down: without a new
request, and in a bounded number of steps, `main` returns 0, and then all RPCs are answered. -/
theorem exists_exit (rt : Runtime P) (h : Exec.Reachable (step rt) init p) (hf : p.server.fault = none)
    (hs : p.server.start = .started) : ∃ as q, (∀ a ∈ as, NoRequest a) ∧ Exec.exec (step rt) p as = some q ∧
      q.main = .exited .served ∧ as.length ≤ p.remaining ∧
      ∀ id call, q.server.calls id = some call → call.doneRuns = 1 ∧ call.response.Complete rt := by
  obtain ⟨as, q, has, hex, hq, h0, hlen⟩ := Exec.exists_run (I := Alive rt) (A := NoRequest) (μ := remaining)
    (fun p hp hpos => exists_alive_step hp hpos) ⟨h, hf, hs⟩
  have hm : q.main = .exited .served := by
    have hphase := hq.phase
    unfold remaining at h0
    cases hm : q.main with
    | exited e =>
      cases e with
      | served => rfl
      | noServer | noCounter => simp [phase, hm] at hphase
    | _ => simp [hm, left] at h0
  exact ⟨as, q, has, hex, hm, hlen, fun id call hc =>
    answered_once (reachable_inv hq.reachable) (by simp [phase, hm]) hc⟩

/-- A call waits in braft when the process is asked to quit. -/
theorem exists_exit_startRun : ∃ p q as, Exec.exec (step (protobuf Nat.repr)) init (startRun Server.startUp ++
      (.callback (.leaderStart 1) :: Server.propose 0 ⟨5⟩).map .act ++ [.quit]) = some p ∧
    Exec.exec (step (protobuf Nat.repr)) p as = some q ∧ q.main = .exited .served ∧ as.length ≤ 13 := by
  obtain ⟨p, hp, hf, hs, hr⟩ : ∃ p, Exec.exec (step (protobuf Nat.repr)) init (startRun Server.startUp ++
      (.callback (.leaderStart 1) :: Server.propose 0 ⟨5⟩).map .act ++ [.quit]) = some p ∧
      p.server.fault = none ∧ p.server.start = .started ∧ p.remaining = 12 := ⟨_, rfl, rfl, rfl, by decide⟩
  obtain ⟨as, q, -, hex, hq, hlen, -⟩ := exists_exit (protobuf Nat.repr) ⟨_, hp⟩ hf hs
  exact ⟨p, q, as, hp, hex, hq, by omega⟩

end Process
end LearnTogether
