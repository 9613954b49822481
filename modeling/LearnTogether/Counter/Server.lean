import LearnTogether.Base.Exec
import LearnTogether.Counter.Call
import LearnTogether.Counter.SnapshotSave
import Mathlib.Logic.Function.Basic

/-!
# One server process

The process of `server.cpp` as a system of steps: the statements of `Counter::start()` in the main thread, the
handlers and closures of any number of RPCs, the state machine callbacks that braft invokes one after the other, and
the tasks of the snapshot requests.  The RPC server runs before `start()` does, and braft may invoke callbacks from
the moment `node->init` begins.

An action that dereferences a null `_node` or fails a `CHECK` leaves a `fault`; nothing runs in the process after it.
-/

namespace LearnTogether

/-- Where `Counter::start()` stands.  While it is `initializing` it is inside `node->init`, which comes back with 0
(`initialized`) or not (`refused`); in the end it has returned 0 (`started`) or -1 (`failed`). -/
inductive Start
  | entered
  | configured
  | created
  | initializing
  | initialized
  | refused
  | started
  | failed
  deriving DecidableEq

inductive StartAct
  | parseConf (ok : Bool)
  | newNode
  | init
  | initReturn (ok : Bool)
  | storeNode
  | deleteNode
  deriving DecidableEq

def Start.step : Start → StartAct → Option Start
  | .entered, .parseConf ok => some (if ok then .configured else .failed)
  | .configured, .newNode => some .created
  | .created, .init => some .initializing
  | .initializing, .initReturn ok => some (if ok then .initialized else .refused)
  | .initialized, .storeNode => some .started
  | .refused, .deleteNode => some .failed
  | _, _ => none

/-- The braft node exists and its `init` has begun. -/
def Start.callbacks : Start → Bool
  | .initializing | .initialized | .refused | .started => true
  | .entered | .configured | .created | .failed => false

/-- What `on_snapshot_load` gets: the applied index of the snapshot, whether its meta data lists `data`, and what
`pb_file.load` finds, `none` when it fails. -/
structure SnapshotReader where
  index : Nat
  hasData : Bool
  file : Option Snapshot
  deriving DecidableEq

/-- `Counter::on_snapshot_load`: the counter afterwards and the return code, `none` when `CHECK(!is_leader())`
aborts. -/
def Counter.onSnapshotLoad (c : Counter) (reader : SnapshotReader) : Option (Counter × Int) :=
  if c.isLeader then none
  else if !reader.hasData then some (c, -1)
  else
    match reader.file with
    | none => some (c, -1)
    | some s => some ({ c with value := s.value }, 0)

/-- Whether braft's state machine thread is inside `on_apply`. -/
inductive Fsm
  | idle
  | applying
  deriving DecidableEq

/-- An invocation of `on_apply` is `applyBegin`, one `applyNext` for each entry of the batch, with `iter.data()` and
`iter.done()`, and `applyEnd`. -/
inductive Callback
  | applyBegin
  | applyNext (data : Bytes) (done : Option Nat)
  | applyEnd
  | leaderStart (term : Int)
  | leaderStop
  | snapshotSave (bthreadStarts : Bool)
  | snapshotLoad (reader : SnapshotReader)
  deriving DecidableEq

inductive Fault
  | nullNode
  | check
  deriving DecidableEq

/-- A server process.  `applied` is the applied index that braft keeps for the state machine. -/
structure Server where
  counter : Counter := {}
  start : Start := .entered
  fsm : Fsm := .idle
  applied : Nat := 0
  nextCall : Nat := 0
  calls : Nat → Option Call := fun _ => none
  saves : List SnapshotSave := []
  fault : Option Fault := none

inductive ServerAct (P : Type)
  | start (a : StartAct)
  | invoke (request : Request)
  | call (id : Nat) (a : CallAct P)
  | callback (a : Callback)
  | save (i : Nat) (a : SaveAct)
  deriving DecidableEq

namespace Server

variable {P : Type} (rt : Runtime P)

def setCall (s : Server) (id : Nat) (call : Call) : Server :=
  { s with calls := Function.update s.calls id (some call) }

def startStep (s : Server) (a : StartAct) : Option Server :=
  (s.start.step a).map fun start =>
    { s with start, counter := { s.counter with node := s.counter.node || decide (a = .storeNode) } }

def invoke (s : Server) (request : Request) : Server :=
  { s.setCall s.nextCall { request } with nextCall := s.nextCall + 1 }

def callStep (s : Server) (id : Nat) (a : CallAct P) : Option Server :=
  match s.calls id with
  | none => none
  | some call =>
    match call.step rt s.counter a with
    | none => none
    | some call' =>
      if a.isApply && !s.counter.node then some { s with fault := some .nullNode }
      else some (s.setCall id call')

/-- `_value.fetch_add(detal_value)` of `on_apply`, and the advance of the applied index. -/
def fetchAddValue (s : Server) (detal : Int64) : Server :=
  { s with counter := { s.counter with value := s.counter.value + detal }, applied := s.applied + 1 }

@[simp] theorem setCall_saves (s : Server) (id : Nat) (call : Call) : (s.setCall id call).saves = s.saves := rfl
@[simp] theorem invoke_saves (s : Server) (request : Request) : (s.invoke request).saves = s.saves := rfl
@[simp] theorem fetchAddValue_saves (s : Server) (detal : Int64) : (s.fetchAddValue detal).saves = s.saves := rfl

/-- One iteration of the loop of `Counter::on_apply`. -/
def applyNext (s : Server) (data : Bytes) : Option Nat → Option Server
  | some id =>
    match s.calls id with
    | some call =>
      match call.closure, call.request with
      | .inBraft _, .fetchAdd request =>
        some ((s.fetchAddValue request.value).setCall id (call.onApply s.counter.value))
      | _, _ => none
    | none => none
  | none =>
    match rt.parse data with
    | some request => some (s.fetchAddValue request.value)
    | none => some { s with fault := some .check }

def snapshotLoad (s : Server) (reader : SnapshotReader) : Server :=
  match s.counter.onSnapshotLoad reader with
  | none => { s with fault := some .check }
  | some (counter, rc) => { s with counter, applied := if rc = 0 then reader.index else s.applied }

def callbackStep (s : Server) (a : Callback) : Option Server :=
  match s.fsm, a with
  | .idle, .applyBegin => some { s with fsm := .applying }
  | .applying, .applyNext data done => s.applyNext rt data done
  | .applying, .applyEnd => some { s with fsm := .idle }
  | .idle, .leaderStart term =>
    if 0 < term then some { s with counter := { s.counter with leaderTerm := term } } else none
  | .idle, .leaderStop => some { s with counter := { s.counter with leaderTerm := -1 } }
  | .idle, .snapshotSave bthreadStarts =>
    some { s with saves := s.saves ++ [.onSnapshotSave s.applied s.counter.value bthreadStarts] }
  | .idle, .snapshotLoad reader => some (s.snapshotLoad reader)
  | _, _ => none

def saveStep (s : Server) (i : Nat) (a : SaveAct) : Option Server :=
  match s.saves[i]? with
  | none => none
  | some save => (save.step a).map fun save' => { s with saves := s.saves.set i save' }

def actStep (s : Server) : ServerAct P → Option Server
  | .start a => s.startStep a
  | .invoke request => some (s.invoke request)
  | .call id a => s.callStep rt id a
  | .callback a => if s.start.callbacks then s.callbackStep rt a else none
  | .save i a => s.saveStep i a

def step (s : Server) (act : ServerAct P) : Option Server :=
  if s.fault.isSome then none else s.actStep rt act

def init : Server := {}

def startUp : List (ServerAct P) :=
  [.start (.parseConf true), .start .newNode, .start .init, .start (.initReturn true), .start .storeNode]

/-- The steps of a call of `fetch_add` up to the hand-over to braft. -/
def propose (id : Nat) (request : FetchAddRequest) : List (ServerAct P) :=
  [.invoke (.fetchAdd request), .call id .test, .call id (.serialize true), .call id .apply, .call id .leave]

def applyOne (data : Bytes) (done : Option Nat) : List (ServerAct P) :=
  [.callback .applyBegin, .callback (.applyNext data done), .callback .applyEnd]

end Server

end LearnTogether
