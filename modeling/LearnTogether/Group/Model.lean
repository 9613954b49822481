import LearnTogether.Counter.ServerSteps

/-!
# The group

Any number of server processes over one braft group.  Of braft only its contract is here: the committed entries form
one log, which only grows; a node's `on_apply` gets the entry after the last one it has applied or loaded;
`iter.done()` is given only by the node that proposed the entry, as long as it still holds the closure; at most one
node leads a term; what `on_snapshot_load` finds was stored by a completed snapshot request.  When an entry that was
proposed is committed or dropped, when a node is told that it leads or no longer leads, and when it restarts is left
open.

The history records what the clients and braft see of the calls, in the order in which it happens.
-/

namespace LearnTogether

/-- An entry of the log: the bytes of a task and the call that made the task. -/
structure Entry (P : Type) where
  data : Bytes
  owner : P × Nat
  deriving DecidableEq

/-- A call is named by its node and its number there.  With its invocation goes the length of the log at this moment;
it proposes with `_node->apply(task)`, and is answered when `done` of the RPC is run. -/
inductive Event (P : Type)
  | invoke (id : P × Nat) (request : Request) (committed : Nat)
  | propose (id : P × Nat)
  | answer (id : P × Nat) (response : CounterResponse)
  deriving DecidableEq

/-- The nodes and what braft keeps for them: the committed log, the entries that are neither committed nor lost, the
leader that each term has had, and the snapshots. -/
structure Group (P : Type) where
  servers : P → Server := fun _ => {}
  log : List (Entry P) := []
  proposed : List (Entry P) := []
  leaders : Int → Option P := fun _ => none
  snapshots : List (Nat × Snapshot) := []
  history : List (Event P) := []

/-- `commit` and `discard` are about the entry at `i` of `proposed`. -/
inductive GroupAct (P : Type)
  | node (n : P) (a : ServerAct P)
  | commit (i : Nat)
  | discard (i : Nat)
  | elect (n : P) (term : Int)
  | restart (n : P)
  deriving DecidableEq

/-- braft holds the closure of the call. -/
def Call.pending (call : Call) : Bool :=
  match call.closure with
  | .inBraft _ => true
  | _ => false

/-- The delta that an entry carries. -/
def Runtime.delta {P : Type} (rt : Runtime P) (e : Entry P) : Int64 :=
  match rt.parse e.data with
  | some request => request.value
  | none => 0

namespace Group

variable {P : Type} [DecidableEq P] (rt : Runtime P)

def setServer (g : Group P) (n : P) (s : Server) : Group P := { g with servers := Function.update g.servers n s }

def tell (g : Group P) (e : Event P) : Group P := { g with history := g.history ++ [e] }

/-- The `iter.done()` that the node `n` gets with the entry `e`. -/
def iterDone (g : Group P) (n : P) (e : Entry P) : Option Nat :=
  if e.owner.1 = n then
    match (g.servers n).calls e.owner.2 with
    | some call => if call.pending then some e.owner.2 else none
    | none => none
  else none

/-- What braft's contract demands of a step of the node `n`. -/
def allows (g : Group P) (n : P) : ServerAct P → Bool
  | .callback (.applyNext data done) =>
    match g.log[(g.servers n).applied]? with
    | some e => decide (data = e.data) && decide (done = g.iterDone n e)
    | none => false
  | .callback (.leaderStart term) => decide (g.leaders term = some n)
  | .callback (.snapshotLoad reader) =>
    match reader.file with
    | some snap => decide ((reader.index, snap) ∈ g.snapshots)
    | none => true
  | _ => true

/-- `_node->apply(task)` of the call `id`. -/
def propose (g : Group P) (id : P × Nat) (task : Task) : Group P :=
  { g.tell (.propose id) with proposed := g.proposed ++ [⟨task.data, id⟩] }

/-- A snapshot request is completed: with an ok status braft keeps the snapshot. -/
def store (g : Group P) (save : SnapshotSave) : Group P :=
  match save.file with
  | some snap => if save.status.ok then { g with snapshots := g.snapshots ++ [(save.index, snap)] } else g
  | none => g

/-- What a step of the call `id` from `call` to `call'` does outside its node. -/
def showCall (g : Group P) (id : P × Nat) (call call' : Call) : CallAct P → Group P
  | .apply =>
    match call'.closure with
    | .inBraft task => g.propose id task
    | _ => g
  | _ => if call.doneRuns < call'.doneRuns then g.tell (.answer id call'.response) else g

/-- What a step of the node `n` from `s` to `s'` does outside the node. -/
def showStep (g : Group P) (n : P) (s s' : Server) : ServerAct P → Group P
  | .invoke request => g.tell (.invoke (n, s.nextCall) request g.log.length)
  | .call id a =>
    match s.calls id, s'.calls id, s'.fault with
    | some call, some call', none => g.showCall (n, id) call call' a
    | _, _, _ => g
  | .save i .finish =>
    match s'.saves[i]? with
    | some save => g.store save
    | none => g
  | _ => g

def step (g : Group P) : GroupAct P → Option (Group P)
  | .node n a =>
    if g.allows n a then
      ((g.servers n).step rt a).map fun s' => (g.showStep n (g.servers n) s' a).setServer n s'
    else none
  | .commit i => g.proposed[i]?.map fun e => { g with log := g.log ++ [e], proposed := g.proposed.eraseIdx i }
  | .discard i => if i < g.proposed.length then some { g with proposed := g.proposed.eraseIdx i } else none
  | .elect n term =>
    if g.leaders term = none then some { g with leaders := Function.update g.leaders term (some n) } else none
  -- the process is lost; the numbers of its calls are not used again
  | .restart n => some (g.setServer n { nextCall := (g.servers n).nextCall })

def init : Group P := {}

/-- The steps `as` of the node `n`. -/
def on (n : P) (as : List (ServerAct P)) : List (GroupAct P) := as.map (.node n)

/-- The node `n` is elected and told so. -/
def lead (n : P) (term : Int) : List (GroupAct P) := .elect n term :: on n [.callback (.leaderStart term)]

/-- The deltas of the committed entries. -/
def deltas (g : Group P) : List Int64 := g.log.map rt.delta

end Group

end LearnTogether
