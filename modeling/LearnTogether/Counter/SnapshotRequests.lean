import LearnTogether.Counter.ServerSteps

/-!
# Completion of the snapshot requests

`save_snapshot` runs the `done` of its request exactly once, on every path, with the status that tells the truth.
`on_snapshot_save` does not look at the result of `bthread_start_urgent`, though: when the bthread does not start,
nobody runs `done`.  So in a state without an unfinished task all requests are completed exactly if no start of a
bthread has failed.
-/

namespace LearnTogether

namespace SnapshotSave

/-- The file holds the value of the counter at the call and was added to the writer. -/
def Stored (s : SnapshotSave) : Prop := s.file = some ⟨s.valueAtCall⟩ ∧ s.added = true

/-- `done` was run with an ok status exactly for a stored snapshot. -/
def Truthful (s : SnapshotSave) : Prop := ∀ status ∈ s.runs, status.ok = true ↔ s.Stored

/-- What holds of a request at each point of its task. -/
structure Sound (s : SnapshotSave) : Prop where
  arg : s.arg = s.valueAtCall
  started : s.task = .started → s.added = false ∧ s.status = {}
  saved : s.task = .saved → s.file = some ⟨s.valueAtCall⟩ ∧ s.added = false ∧ s.status = {}
  leaving : s.task = .leaving → (s.status.ok = true ↔ s.Stored)
  finished : s.task = .finished → s.runs.length = 1
  pending : s.task ≠ .finished → s.runs = []
  truthful : s.Truthful

private theorem sound_onSnapshotSave (index : Nat) (value : Int64) (b : Bool) :
    (onSnapshotSave index value b).Sound := by
  cases b <;> constructor <;> simp [onSnapshotSave, Truthful]

/-- The ways in which a step of `save_snapshot` can change its request. -/
inductive Outcome (s : SnapshotSave) : SaveAct → SnapshotSave → Prop
  | saved : s.task = .started → Outcome s (.save true) { s with file := some ⟨s.arg⟩, task := .saved }
  | notSaved : s.task = .started → Outcome s (.save false)
      { s with status := s.status.setError Status.EIO "Fail to save pb_file", task := .leaving }
  | added : s.task = .saved → Outcome s (.addFile true) { s with added := true, task := .leaving }
  | notAdded : s.task = .saved → Outcome s (.addFile false)
      { s with status := s.status.setError Status.EIO "Fail to add file to writer", task := .leaving }
  | finish : s.task = .leaving → Outcome s .finish { s with runs := s.runs ++ [s.status], task := .finished }

theorem step_outcome {s s' : SnapshotSave} {a : SaveAct} (h : s.step a = some s') : Outcome s a s' := by
  cases a with
  | save ok =>
    simp only [step] at h
    split at h
    · cases ok <;> cases h
      · exact .notSaved ‹_›
      · exact .saved ‹_›
    · cases h
  | addFile ok =>
    simp only [step] at h
    split at h
    · cases ok <;> cases h
      · exact .notAdded ‹_›
      · exact .added ‹_›
    · cases h
  | finish =>
    simp only [step] at h
    split at h <;> cases h
    exact .finish ‹_›

private theorem step_notStarted {s s' : SnapshotSave} {a : SaveAct} (h : s.step a = some s') :
    s.task ≠ .notStarted ∧ s'.task ≠ .notStarted := by
  cases step_outcome h with
  | saved ht | notSaved ht | added ht | notAdded ht | finish ht => simp [ht]

private theorem sound_step {s s' : SnapshotSave} {a : SaveAct} (h : s.step a = some s') (hs : s.Sound) : s'.Sound := by
  have hruns : s.task ≠ .finished → s.runs = [] := hs.pending
  cases step_outcome h with
  | saved ht =>
    obtain ⟨ha, hst⟩ := hs.started ht
    have hr := hruns (by simp [ht])
    constructor <;> simp [hs.arg, ha, hst, hr, Truthful]
  | notSaved ht =>
    obtain ⟨ha, -⟩ := hs.started ht
    have hr := hruns (by simp [ht])
    constructor <;> simp [hs.arg, ha, hr, Truthful, Stored, Status.ok, Status.setError, Status.EIO]
  | added ht =>
    obtain ⟨hf, -, hst⟩ := hs.saved ht
    have hr := hruns (by simp [ht])
    constructor <;> simp [hs.arg, hf, hst, hr, Truthful, Stored, Status.ok]
  | notAdded ht =>
    obtain ⟨-, ha, -⟩ := hs.saved ht
    have hr := hruns (by simp [ht])
    constructor <;> simp [hs.arg, ha, hr, Truthful, Stored, Status.ok, Status.setError, Status.EIO]
  | finish ht =>
    have hr := hruns (by simp [ht])
    have hl := hs.leaving ht
    constructor <;> simp [hs.arg, hr, Truthful]
    exact hl

end SnapshotSave

namespace Server

variable {P : Type} {rt : Runtime P}

/-- No `save_snapshot` task is started and unfinished. -/
def Quiescent (s : Server) : Prop := ∀ save ∈ s.saves, save.unfinished = false

/-- Every request so far was completed once, and all completions were truthful. -/
def SnapshotRequestsMet (s : Server) : Prop :=
  (s.Quiescent → ∀ save ∈ s.saves, save.runs.length = 1) ∧ ∀ save ∈ s.saves, save.Truthful

/-- An `on_snapshot_save` whose `bthread_start_urgent` fails. -/
def failedStart : ServerAct P := .callback (.snapshotSave false)

theorem step_sound {s s' : Server} {act : ServerAct P} (h : step rt s act = some s')
    (hs : ∀ save ∈ s.saves, save.Sound) : ∀ save ∈ s'.saves, save.Sound := by
  cases step_outcome h with
  | save hi hst =>
    intro save' hm
    rcases List.mem_or_eq_of_mem_set hm with hm | rfl
    · exact hs save' hm
    · exact SnapshotSave.sound_step hst (hs _ (List.mem_of_getElem? hi))
  | snapshotSave =>
    intro save hm
    rcases List.mem_append.1 hm with hm | hm
    · exact hs save hm
    · rw [List.mem_singleton.1 hm]
      exact SnapshotSave.sound_onSnapshotSave ..
  | _ => exact hs

theorem reachable_sound {s : Server} (h : Exec.Reachable (step rt) init s) : ∀ save ∈ s.saves, save.Sound := by
  refine Exec.Reachable.induction (I := fun s => ∀ save ∈ s.saves, save.Sound) ?_ ?_ h
  · intro save hm
    cases hm
  · intro t act u _ ha ht
    exact step_sound ha ht

/-- The requests without a task are left over by the failed starts, and stay. -/
private theorem failedStart_iff {as : List (ServerAct P)} {s : Server} (h : Exec.exec (step rt) init as = some s) :
    failedStart ∈ as ↔ ∃ save ∈ s.saves, save.task = .notStarted := by
  refine Exec.exec_induction_trace
    (I := fun as (s : Server) => failedStart ∈ as ↔ ∃ save ∈ s.saves, save.task = .notStarted) ?_ ?_ h
  · simp [init]
  · intro as t act u _ ha ih
    rw [List.mem_append, ih, List.mem_singleton]
    cases step_outcome ha with
    | @save i a save save' hi hst =>
      obtain ⟨hn, hn'⟩ := SnapshotSave.step_notStarted hst
      simp only [failedStart, reduceCtorEq, or_false]
      constructor
      · rintro ⟨sv, hm, ht⟩
        obtain ⟨j, hj⟩ := List.mem_iff_getElem?.1 hm
        have hij : i ≠ j := by
          rintro rfl
          rw [hi] at hj
          cases hj
          exact hn ht
        exact ⟨sv, List.mem_iff_getElem?.2 ⟨j, by rw [List.getElem?_set_ne hij]; exact hj⟩, ht⟩
      · rintro ⟨sv, hm, ht⟩
        rcases List.mem_or_eq_of_mem_set hm with hm | rfl
        · exact ⟨sv, hm, ht⟩
        · exact absurd ht hn'
    | @snapshotSave b =>
      cases b <;> simp [failedStart, SnapshotSave.onSnapshotSave, or_and_right, exists_or]
    | _ => simp [failedStart]

/-- In a state that a run reaches, the snapshot requests are completed exactly once and truthfully if and only if,
where no task is unfinished, no start of a bthread has failed in the run. -/
theorem snapshotRequestsMet_iff (rt : Runtime P) {as : List (ServerAct P)} {s : Server}
    (h : Exec.exec (step rt) init as = some s) :
    s.SnapshotRequestsMet ↔ (s.Quiescent → failedStart ∉ as) := by
  have hs := reachable_sound ⟨as, h⟩
  have hm : s.SnapshotRequestsMet ↔ (s.Quiescent → ∀ save ∈ s.saves, save.runs.length = 1) :=
    ⟨fun h => h.1, fun h => ⟨h, fun save hm => (hs save hm).truthful⟩⟩
  rw [hm, failedStart_iff h]
  -- without an unfinished task, a request has either completed or never had a task
  refine forall_congr' fun hq => ?_
  constructor
  · rintro hall ⟨save, hm, ht⟩
    have h1 := hall save hm
    rw [(hs save hm).pending (by simp [ht])] at h1
    cases h1
  · intro hno save hm
    have hu := hq save hm
    refine (hs save hm).finished ?_
    cases ht : save.task with
    | finished => rfl
    | notStarted => exact absurd ⟨save, hm, ht⟩ hno
    | started | saved | leaving => simp [SnapshotSave.unfinished, ht] at hu

/-- Two snapshot requests, the second of which fails to add its file, with an addition in between. -/
def twoSaves : List (ServerAct Nat) :=
  startUp ++ [.callback (.snapshotSave true)] ++ applyOne (serializeValue 5) none ++ [.callback (.snapshotSave true),
    .save 0 (.save true), .save 1 (.save true), .save 1 (.addFile false), .save 1 .finish, .save 0 (.addFile true),
    .save 0 .finish]

theorem snapshotRequestsMet_twoSaves : ∃ s, Exec.exec (step (protobuf Nat.repr)) init twoSaves = some s ∧
    s.saves.map (fun save => (save.file, save.runs.map Status.ok)) = [(some ⟨0⟩, [true]), (some ⟨5⟩, [false])] ∧
    s.SnapshotRequestsMet :=
  ⟨_, rfl, by decide, (@snapshotRequestsMet_iff _ (protobuf Nat.repr) twoSaves _ rfl).2 fun _ => by decide⟩

/-- A snapshot request whose bthread does not start. -/
def lostSave : List (ServerAct Nat) := startUp ++ [failedStart]

theorem lostSave_never_done : ∃ s, Exec.exec (step (protobuf Nat.repr)) init lostSave = some s ∧ s.Quiescent ∧
    s.saves.map SnapshotSave.runs = [[]] ∧ ¬ s.SnapshotRequestsMet := by
  have hq : ∀ save ∈ [SnapshotSave.onSnapshotSave 0 0 false], save.unfinished = false := by decide
  refine ⟨_, rfl, hq, by decide, fun h => ?_⟩
  have h1 := h.1 hq _ (List.mem_singleton.2 rfl)
  cases h1

end Server

end LearnTogether
