import LearnTogether.Counter.Message

/-!
# One snapshot request

A call of `on_snapshot_save` and the `save_snapshot` task that it starts.  The environment chooses whether the
bthread starts and whether `pb_file.save` and `writer.add_file` succeed; a bthread that does not start runs nothing.
-/

namespace LearnTogether

structure Status where
  code : Int := 0
  message : String := ""
  deriving DecidableEq

namespace Status

def ok (s : Status) : Bool := s.code == 0

/-- `EIO` of `errno.h`. -/
def EIO : Int := 5

def setError (_ : Status) (code : Int) (message : String) : Status := ⟨code, message⟩

end Status

/-- Where the `save_snapshot` task stands; it is `notStarted` when `bthread_start_urgent` has failed, and `leaving`
when its `done_guard` is destroyed next. -/
inductive SaveTask
  | notStarted
  | started
  | saved
  | leaving
  | finished
  deriving DecidableEq

/-- A call of `on_snapshot_save`.  `index` is the applied index, which braft puts into the meta data of the snapshot,
and `valueAtCall` is `_value` at the call; the code itself only has `arg`, the member `value` of its `SnapshotArg`.
The task writes the file `data` and adds it to the writer; `runs` has the status at each `done->Run()`. -/
structure SnapshotSave where
  index : Nat
  valueAtCall : Int64
  arg : Int64
  task : SaveTask
  file : Option Snapshot := none
  added : Bool := false
  status : Status := {}
  runs : List Status := []
  deriving DecidableEq

inductive SaveAct
  | save (ok : Bool)
  | addFile (ok : Bool)
  | finish
  deriving DecidableEq

namespace SnapshotSave

/-- `Counter::on_snapshot_save` with `_value` equal to `value`. -/
def onSnapshotSave (index : Nat) (value : Int64) (bthreadStarts : Bool) : SnapshotSave :=
  { index, valueAtCall := value, arg := value, task := if bthreadStarts then .started else .notStarted }

/-- One step of `Counter::save_snapshot`. -/
def step (s : SnapshotSave) : SaveAct → Option SnapshotSave
  | .save ok =>
    match s.task with
    | .started =>
      if ok then some { s with file := some ⟨s.arg⟩, task := .saved }
      else some { s with status := s.status.setError Status.EIO "Fail to save pb_file", task := .leaving }
    | _ => none
  | .addFile ok =>
    match s.task with
    | .saved =>
      if ok then some { s with added := true, task := .leaving }
      else some { s with status := s.status.setError Status.EIO "Fail to add file to writer", task := .leaving }
    | _ => none
  | .finish =>
    match s.task with
    | .leaving => some { s with runs := s.runs ++ [s.status], task := .finished }
    | _ => none

def unfinished (s : SnapshotSave) : Bool :=
  match s.task with
  | .started | .saved | .leaving => true
  | .notStarted | .finished => false

end SnapshotSave

end LearnTogether
