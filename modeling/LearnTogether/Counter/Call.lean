import LearnTogether.Counter.Message

/-!
# One RPC of the counter service

The part of `server.cpp` that a single call of `fetch_add` or `get` runs through: the handler in the service thread,
and, once `fetch_add` has handed a task to braft, the `FetchAddClosure`.  Both may run at the same time.  Every step
reads at most one shared variable of the `Counter`, so the steps of several calls, of the callbacks and of the
start-up can be interleaved in any order.

`Call.step` says what one step does to its call.  Whether it is braft's turn or the handler's is the environment's
choice, and so is what it reports: the leader id, whether the request serializes, the status of the task.
-/

namespace LearnTogether

/-- The members of `example::Counter`; of `_node` only whether it is non-null. -/
structure Counter where
  node : Bool := false
  value : Int64 := 0
  leaderTerm : Int := -1

namespace Counter

def isLeader (c : Counter) : Bool := decide (0 < c.leaderTerm)

/-- `Counter::redirect`, where `leader` is what `_node->leader_id()` returns, `none` for the empty id. -/
def redirect {P : Type} (rt : Runtime P) (c : Counter) (leader : Option P) (response : CounterResponse) :
    CounterResponse :=
  let response := response.setSuccess false
  if c.node then
    match leader with
    | some p => response.setRedirect (rt.toString p)
    | none => response
  else response

def readValue (c : Counter) (response : CounterResponse) : CounterResponse :=
  (response.setSuccess true).setValue c.value

end Counter

structure Task where
  data : Bytes
  expectedTerm : Int
  deriving DecidableEq

inductive Request
  | fetchAdd (request : FetchAddRequest)
  | get
  deriving DecidableEq

/-- Where the handler of a call stands.  It has passed the leader test of `fetch_add` in `tested` and that of `get` in
`leading`; in `refused` the test has failed and `redirect(response)` is next, in `leaving` the destructor of
`done_guard`. -/
inductive Handler
  | entered
  | tested (term : Int)
  | serialized (term : Int) (log : Bytes)
  | leading
  | refused
  | leaving
  | gone
  deriving DecidableEq

/-- Where the `FetchAddClosure` of a call stands: it is the `done` of a task in braft; its `Run` is to be called, with
`status().ok()`; or `Run` has only to destroy its guards. -/
inductive FetchAddClosure
  | none
  | inBraft (task : Task)
  | scheduled (ok : Bool)
  | ran
  | deleted
  deriving DecidableEq

/-- A call of the service; `guard` says whether the handler's `ClosureGuard` still holds `done`, and `doneRuns` how
often `done` was run. -/
structure Call where
  request : Request
  response : CounterResponse := {}
  handler : Handler := .entered
  guard : Bool := true
  closure : FetchAddClosure := .none
  doneRuns : Nat := 0
  deriving DecidableEq

/-- The steps of the handler up to `leave`, the destruction of its `done_guard`; `load` is the rest of `get` on a
leader.  Then braft gives up the task with `fail`, and `run` and `finish` are the body of `FetchAddClosure::Run` and the
destruction of its guards. -/
inductive CallAct (P : Type)
  | test
  | redirect (leader : Option P)
  | serialize (ok : Bool)
  | apply
  | load
  | leave
  | fail
  | run (leader : Option P)
  | finish
  deriving DecidableEq

def CallAct.isApply {P : Type} : CallAct P → Bool
  | .apply => true
  | _ => false

namespace Call

variable {P : Type} (rt : Runtime P)

/-- The task that `fetch_add` builds; `expected_term` keeps braft's default `-1` unless `FLAGS_check_term`. -/
def task (term : Int) (log : Bytes) : Task := ⟨log, if rt.checkTerm then term else -1⟩

/-- One step of a call, in a process whose shared state is `c`.  The null test of `_node` in `apply` is not here but
in the step of the process. -/
def step (c : Counter) (call : Call) : CallAct P → Option Call
  | .test =>
    match call.handler, call.request with
    | .entered, .fetchAdd _ =>
      some { call with handler := if c.leaderTerm < 0 then .refused else .tested c.leaderTerm }
    | .entered, .get => some { call with handler := if c.isLeader then .leading else .refused }
    | _, _ => none
  | .redirect leader =>
    match call.handler with
    | .refused => some { call with response := c.redirect rt leader call.response, handler := .leaving }
    | _ => none
  | .serialize ok =>
    match call.handler, call.request with
    | .tested term, .fetchAdd request =>
      if ok then some { call with handler := .serialized term (rt.serialize request) }
      else some { call with response := call.response.setSuccess false, handler := .leaving }
    | _, _ => none
  | .apply =>
    match call.handler with
    | .serialized term log =>
      -- `done_guard.release()` hands `done` over to the closure
      some { call with guard := false, closure := .inBraft (task rt term log), handler := .leaving }
    | _ => none
  | .load =>
    match call.handler with
    | .leading => some { call with response := c.readValue call.response, handler := .leaving }
    | _ => none
  | .leave =>
    match call.handler with
    | .leaving =>
      some { call with
        guard := false
        doneRuns := if call.guard then call.doneRuns + 1 else call.doneRuns
        handler := .gone }
    | _ => none
  | .fail =>
    match call.closure with
    | .inBraft _ => some { call with closure := .scheduled false }
    | _ => none
  | .run leader =>
    match call.closure with
    | .scheduled true => some { call with closure := .ran }
    | .scheduled false => some { call with response := c.redirect rt leader call.response, closure := .ran }
    | _ => none
  | .finish =>
    match call.closure with
    | .ran => some { call with closure := .deleted, doneRuns := call.doneRuns + 1 }
    | _ => none

/-- What an iteration of `on_apply` with `iter.done()` does to the call that owns the closure: `prev` is the value
that `_value.fetch_add` returned.  The `AsyncClosureGuard` schedules `Run` at the end of the iteration. -/
def onApply (call : Call) (prev : Int64) : Call :=
  { call with response := (call.response.setSuccess true).setValue prev, closure := .scheduled true }

/-! ### What a step of a call can do -/

inductive Outcome (c : Counter) (call : Call) : CallAct P → Call → Prop
  | notLeader {request : FetchAddRequest} : call.handler = .entered → call.request = .fetchAdd request →
      c.leaderTerm < 0 → Outcome c call .test { call with handler := .refused }
  | passed {request : FetchAddRequest} : call.handler = .entered → call.request = .fetchAdd request →
      ¬ c.leaderTerm < 0 → Outcome c call .test { call with handler := .tested c.leaderTerm }
  | getPassed : call.handler = .entered → call.request = .get → c.isLeader = true →
      Outcome c call .test { call with handler := .leading }
  | getRefused : call.handler = .entered → call.request = .get → c.isLeader = false →
      Outcome c call .test { call with handler := .refused }
  | redirect {leader : Option P} : call.handler = .refused →
      Outcome c call (.redirect leader)
        { call with response := c.redirect rt leader call.response, handler := .leaving }
  | serialized {term : Int} {request : FetchAddRequest} : call.handler = .tested term →
      call.request = .fetchAdd request →
      Outcome c call (.serialize true) { call with handler := .serialized term (rt.serialize request) }
  | notSerialized {term : Int} {request : FetchAddRequest} : call.handler = .tested term →
      call.request = .fetchAdd request →
      Outcome c call (.serialize false) { call with response := call.response.setSuccess false, handler := .leaving }
  | apply {term : Int} {log : Bytes} : call.handler = .serialized term log →
      Outcome c call .apply { call with guard := false, closure := .inBraft (task rt term log), handler := .leaving }
  | load : call.handler = .leading →
      Outcome c call .load { call with response := c.readValue call.response, handler := .leaving }
  | leave : call.handler = .leaving →
      Outcome c call .leave
        { call with
          guard := false
          doneRuns := if call.guard then call.doneRuns + 1 else call.doneRuns
          handler := .gone }
  | fail {t : Task} : call.closure = .inBraft t → Outcome c call .fail { call with closure := .scheduled false }
  | run {leader : Option P} : call.closure = .scheduled true →
      Outcome c call (.run leader) { call with closure := .ran }
  | runRedirect {leader : Option P} : call.closure = .scheduled false →
      Outcome c call (.run leader) { call with response := c.redirect rt leader call.response, closure := .ran }
  | finish : call.closure = .ran →
      Outcome c call .finish { call with closure := .deleted, doneRuns := call.doneRuns + 1 }

variable {rt}

theorem step_outcome {c : Counter} {call call' : Call} {a : CallAct P} (h : call.step rt c a = some call') :
    Outcome rt c call a call' := by
  cases a with
  | test =>
    simp only [step] at h
    split at h
    · rename_i hh hr
      split at h <;> cases h
      · exact .notLeader hh hr ‹_›
      · exact .passed hh hr ‹_›
    · rename_i hh hr
      split at h <;> cases h
      · exact .getPassed hh hr ‹_›
      · exact .getRefused hh hr (Bool.eq_false_iff.2 ‹_›)
    · cases h
  | redirect leader =>
    simp only [step] at h
    split at h <;> cases h
    exact .redirect ‹_›
  | serialize ok =>
    simp only [step] at h
    split at h
    · rename_i hh hr
      cases ok <;> cases h
      · exact .notSerialized hh hr
      · exact .serialized hh hr
    · cases h
  | apply =>
    simp only [step] at h
    split at h <;> cases h
    exact .apply ‹_›
  | load =>
    simp only [step] at h
    split at h <;> cases h
    exact .load ‹_›
  | leave =>
    simp only [step] at h
    split at h <;> cases h
    exact .leave ‹_›
  | fail =>
    simp only [step] at h
    split at h <;> cases h
    exact .fail ‹_›
  | run leader =>
    simp only [step] at h
    split at h <;> cases h
    · exact .run ‹_›
    · exact .runRedirect ‹_›
  | finish =>
    simp only [step] at h
    split at h <;> cases h
    exact .finish ‹_›

end Call

end LearnTogether
