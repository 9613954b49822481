import LearnTogether.Group.Replica

/-!
# Failed checks

The server has two `CHECK`s: that the entry parses in `on_apply`, and that the node does not act as leader in
`on_snapshot_load`.  The first one never fails in a group, since every entry of the log carries the bytes that some
handler has serialized.  So a run is free of failed checks exactly if no node is given a snapshot to load while its
`_leader_term` is that of a leader.
-/

namespace LearnTogether

/-- A leader that is told to load a snapshot is aborted. -/
private theorem Server.fault_of_load {P : Type} {rt : Runtime P} {s s' : Server} {reader : SnapshotReader}
    (h : s.step rt (.callback (.snapshotLoad reader)) = some s') (hlead : s.counter.isLeader = true) :
    s'.fault = some .check := by
  have hload := (Server.step_actStep h).2
  simp only [Server.actStep] at hload
  split at hload
  · cases hf : s.fsm with
    | idle =>
      simp only [Server.callbackStep, hf, Server.snapshotLoad, Counter.onSnapshotLoad, hlead, if_true,
        Option.some.injEq] at hload
      rw [← hload]
    | applying => simp [Server.callbackStep, hf] at hload
  · cases hload

namespace Group

variable {P : Type} [DecidableEq P] {rt : Runtime P} {g g' : Group P} {act : GroupAct P}

/-- No process of the group was aborted by a `CHECK`. -/
def NoCheckFailed (g : Group P) : Prop := ∀ n, (g.servers n).fault ≠ some .check

/-- No node that acts as leader is told to load a snapshot. -/
def LoadsNotLeading (g : Group P) (act : GroupAct P) : Prop :=
  ∀ n reader, act = .node n (.callback (.snapshotLoad reader)) → (g.servers n).counter.isLeader = false

/-- The bytes that `on_apply` gets can be parsed. -/
def AppliesParsed (rt : Runtime P) (g : Group P) (act : GroupAct P) : Prop :=
  ∀ n data done, act = .node n (.callback (.applyNext data done)) →
    g.allows n (.callback (.applyNext data done)) = true → ∃ request, rt.parse data = some request

private theorem parse_of_allows (hl : rt.Lossless) (hr : Recorded rt g) {n : P} {data : Bytes} {done : Option Nat}
    (h : g.allows n (.callback (.applyNext data done)) = true) : ∃ request, rt.parse data = some request := by
  simp only [allows] at h
  split at h
  · rename_i e he
    rw [Bool.and_eq_true, decide_eq_true_eq] at h
    obtain ⟨request, k, -, hd⟩ := hr.data e (List.mem_append_left _ (List.mem_of_getElem? he))
    refine ⟨request, ?_⟩
    rw [h.1, hd]
    exact hl request
  · cases h

/-- The only step of a node by which a check fails is the load of a snapshot by a leader. -/
private theorem fault_step (hl : rt.Lossless) (hr : Recorded rt g) {n : P} {a : ServerAct P} {s' : Server}
    (hok : g.allows n a = true) (hs : (g.servers n).step rt a = some s') (hf : s'.fault = some .check) :
    (g.servers n).fault = some .check ∨
      ∃ reader, a = .callback (.snapshotLoad reader) ∧ (g.servers n).counter.isLeader = true := by
  cases Server.step_outcome hs with
  | nullNode => cases hf
  | applyAbort hp =>
    obtain ⟨request, hp'⟩ := parse_of_allows hl hr hok
    rw [hp] at hp'
    cases hp'
  | loadAbort hlead => exact Or.inr ⟨_, rfl, hlead⟩
  | _ => exact Or.inl hf

private theorem noCheckFailed_step (hl : rt.Lossless) (hr : Recorded rt g) (h : step rt g act = some g')
    (hG : g.LoadsNotLeading act) (hi : g.NoCheckFailed) : g'.NoCheckFailed := by
  cases act with
  | node m a =>
    obtain ⟨hok, s', hs, rfl⟩ := step_node h
    refine forall_setServer (Q := fun _ s => s.fault ≠ some .check) (fun n => ?_) ?_
    · rw [showStep_servers]
      exact hi n
    · intro hf
      rcases fault_step hl hr hok hs hf with hf | ⟨reader, rfl, hlead⟩
      · exact hi m hf
      · rw [hG m reader rfl] at hlead
        cases hlead
  | commit i =>
    obtain ⟨e, -, rfl⟩ := Option.map_eq_some_iff.1 h
    exact hi
  | discard i | elect m term =>
    simp only [step] at h
    split at h <;> cases h
    exact hi
  | restart m =>
    cases h
    exact forall_setServer (Q := fun _ s => s.fault ≠ some .check) hi (by simp)

private theorem loadsNotLeading_of_noCheckFailed (h : step rt g act = some g') (hi : g'.NoCheckFailed) :
    g.LoadsNotLeading act := by
  rintro n reader rfl
  obtain ⟨-, s', hs, rfl⟩ := step_node h
  have hn := hi n
  rw [setServer_self] at hn
  by_contra hlead
  rw [Bool.not_eq_false] at hlead
  exact hn (Server.fault_of_load hs hlead)

/-- A run of the group is free of failed checks exactly if no leader is told to load a snapshot in it; what `on_apply`
gets can always be parsed. -/
theorem noCheckFailed_throughout_iff (rt : Runtime P) (hl : rt.Lossless) {as : List (GroupAct P)} {g : Group P}
    (h : Exec.exec (step rt) init as = some g) :
    (Exec.Throughout (step rt) NoCheckFailed init as ↔ Exec.Along (step rt) LoadsNotLeading init as) ∧
      Exec.Along (step rt) (AppliesParsed rt) init as := by
  refine ⟨Exec.throughout_iff_along (I := NoCheckFailed) (fun _ hi => hi) ?_ ?_ ?_ h, ?_⟩
  · intro n
    simp [init]
  · intro t act u hr ha hG hi
    exact noCheckFailed_step hl (reachable_recorded hr) ha hG hi
  · intro t act u ha hi
    exact loadsNotLeading_of_noCheckFailed ha hi
  · refine Exec.along_mono (G := fun _ _ => True) ?_ (Exec.along_of_forall fun _ _ _ => trivial)
    intro t act hr _ n data done _ hok
    exact parse_of_allows hl (reachable_recorded hr) hok

theorem noCheckFailed_snapshotRun : Exec.Throughout (step (protobuf Nat.repr)) NoCheckFailed init snapshotRun := by
  obtain ⟨g, hg⟩ : ∃ g, Exec.exec (step (protobuf Nat.repr)) init snapshotRun = some g := ⟨_, rfl⟩
  refine (noCheckFailed_throughout_iff _ (protobuf_lossless Nat.repr) hg).1.2 ?_
  obtain ⟨g', hg', hlead⟩ : ∃ g', Exec.exec (step (protobuf Nat.repr)) init snapshotRun.dropLast = some g' ∧
      (g'.servers 2).counter.isLeader = false := ⟨_, rfl, rfl⟩
  show Exec.Along _ _ _ (snapshotRun.dropLast ++ on 2 [.callback (.snapshotLoad ⟨1, true, some ⟨5⟩⟩)])
  refine (Exec.along_append hg').2 ⟨?_, ?_, fun _ _ => trivial⟩
  · refine Exec.along_of_forall ?_
    simp [LoadsNotLeading, snapshotRun, lead, on, Server.startUp, Server.propose, Server.applyOne]
  · rintro n reader hact
    cases hact
    exact hlead

end Group

end LearnTogether
