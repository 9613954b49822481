import LearnTogether.Base.WrapSum
import LearnTogether.Group.Ledger

/-!
# The replicas agree

Each node, each value that a snapshot request has taken, and each stored snapshot is a replica in the sense of
`Replay`: it holds what the first entries of the log make of zero, up to its own index.  An entry is added with the
delta of its bytes on every node, because on the node that proposed it the request in the closure is the one that was
serialized (`given_delta`).
-/

namespace LearnTogether

open WrapSum

private theorem SnapshotSave.step_taken {s s' : SnapshotSave} {a : SaveAct} (h : s.step a = some s') :
    s'.index = s.index ∧ s'.valueAtCall = s.valueAtCall := by
  cases step_outcome h <;> exact ⟨rfl, rfl⟩

/-- A request that is completed with an ok status has a file with the value at the call. -/
private theorem SnapshotSave.Sound.finish {s s' : SnapshotSave} {snap : Snapshot} (hs : s.Sound)
    (h : s.step .finish = some s') (hok : s'.status.ok = true) (hf : s'.file = some snap) :
    snap.value = s.valueAtCall := by
  cases step_outcome h with
  | finish ht =>
    have hst := ((hs.leaving ht).1 hok).1
    rw [show s.file = some snap from hf] at hst
    cases hst
    rfl

theorem Runtime.delta_serialize {P : Type} {rt : Runtime P} (hl : rt.Lossless) {e : Entry P}
    {request : FetchAddRequest} (he : e.data = rt.serialize request) : rt.delta e = request.value := by
  unfold Runtime.delta
  rw [he, hl request]

namespace Group

variable {P : Type}

/-- A replica at the index `k` of the log with the value `v`. -/
abbrev Agrees (rt : Runtime P) (log : List (Entry P)) (k : Nat) (v : Int64) : Prop :=
  Replay.Agrees (fun v e => v + rt.delta e) 0 log k v

structure NodeAgrees (rt : Runtime P) (log : List (Entry P)) (s : Server) : Prop where
  value : Agrees rt log s.applied s.counter.value
  taken : ∀ save ∈ s.saves, Agrees rt log save.index save.valueAtCall

structure Replicated (rt : Runtime P) (g : Group P) : Prop where
  nodes : ∀ n, NodeAgrees rt g.log (g.servers n)
  stored : ∀ index snap, (index, snap) ∈ g.snapshots → Agrees rt g.log index snap.value

variable {rt : Runtime P} {g g' : Group P}

theorem Agrees.wrapSum {log : List (Entry P)} {k : Nat} {v : Int64} (h : Agrees rt log k v) :
    v = wrapSum ((log.take k).map rt.delta) := by
  rw [h.state, stateAt_add]

/-- The delta that `on_apply` takes from the closure is the one in the bytes of the entry. -/
theorem given_delta (hl : rt.Lossless) (hi : Recorded rt g) {n : P} {id : Nat} {e : Entry P} {call : Call}
    {request : FetchAddRequest} (hg : g.Given n id e call) (hr : call.request = .fetchAdd request) :
    rt.delta e = request.value := by
  have he : e ∈ g.entries := List.mem_append_left _ (List.mem_of_getElem? hg.entry)
  obtain ⟨request', k, hk, hd⟩ := hi.data e he
  obtain ⟨k', hk'⟩ := hi.arrived (n, id) call hg.arrived
  rw [hg.owner] at hk
  rw [hr] at hk'
  have heq := (hi.once _ _ _ _ _ hk hk').1
  cases heq
  exact Runtime.delta_serialize hl hd

private theorem nodeAgrees_next {n : P} {e : Entry P} {detal : Int64} (hi : NodeAgrees rt g.log (g.servers n))
    (he : g.log[(g.servers n).applied]? = some e) (hd : rt.delta e = detal) :
    NodeAgrees rt g.log ((g.servers n).fetchAddValue detal) := by
  subst hd
  exact ⟨hi.value.next he, hi.taken⟩

private theorem nodeAgrees_saves {s : Server} {i : Nat} {a : SaveAct} {save save' : SnapshotSave}
    {log : List (Entry P)} (hi : NodeAgrees rt log s) (hs : s.saves[i]? = some save)
    (hst : save.step a = some save') : NodeAgrees rt log { s with saves := s.saves.set i save' } := by
  refine ⟨hi.value, fun sv hm => ?_⟩
  rcases List.mem_or_eq_of_mem_set hm with hm | rfl
  · exact hi.taken sv hm
  · have h := hi.taken save (List.mem_of_getElem? hs)
    obtain ⟨hx, hv⟩ := SnapshotSave.step_taken hst
    rwa [hx, hv]

private theorem replicated_store {save save' : SnapshotSave} (hi : Replicated rt g) (hs : save.Sound)
    (hst : save.step .finish = some save') (hv : Agrees rt g.log save.index save.valueAtCall) :
    Replicated rt (g.store save') := by
  unfold store
  split
  · rename_i snap hf
    split
    · rename_i hok
      refine ⟨hi.nodes, fun index snap' hm => ?_⟩
      rcases List.mem_append.1 hm with hm | hm
      · exact hi.stored index snap' hm
      · cases List.mem_singleton.1 hm
        rw [(SnapshotSave.step_taken hst).1, hs.finish hst hok hf]
        exact hv
    · exact hi
  · exact hi

variable [DecidableEq P]

private theorem replicated_set {n : P} {s : Server} (hi : Replicated rt g) (hs : NodeAgrees rt g.log s) :
    Replicated rt (g.setServer n s) := by
  exact ⟨forall_setServer (Q := fun _ s => NodeAgrees rt g.log s) hi.nodes hs, hi.stored⟩

/-- Every step keeps all replicas in agreement with the log. -/
private theorem replicated_step (hl : rt.Lossless) {act : GroupAct P} (h : step rt g act = some g') (hr : Recorded rt g)
    (hs : ∀ n, ∀ save ∈ (g.servers n).saves, save.Sound) (hi : Replicated rt g) : Replicated rt g' := by
  cases step_outcome h with
  | @quiet n _ s' hq =>
    refine replicated_set hi ⟨?_, ?_⟩
    · rw [hq.applied, hq.value]
      exact (hi.nodes n).value
    · rw [hq.saves]
      exact (hi.nodes n).taken
  | @invoke n | @propose n | @answer n | @call n =>
    have hn := hi.nodes n
    exact replicated_set ⟨hi.nodes, hi.stored⟩ ⟨hn.value, hn.taken⟩
  | @applyDone n data id e call request hg hreq =>
    -- the delta comes from the closure, not from the bytes of the entry
    have hn := nodeAgrees_next (hi.nodes n) hg.entry (given_delta hl hr hg hreq)
    exact replicated_set hi ⟨hn.value, hn.taken⟩
  | @applyParse n e request he hp =>
    have hd : rt.delta e = request.value := by
      unfold Runtime.delta
      rw [hp]
    exact replicated_set hi (nodeAgrees_next (hi.nodes n) he hd)
  | @snapshotSave n b =>
    have hn := hi.nodes n
    refine replicated_set hi ⟨hn.value, fun save hm => ?_⟩
    rcases List.mem_append.1 hm with hm | hm
    · exact hn.taken save hm
    · rw [List.mem_singleton.1 hm]
      exact hn.value
  | @save n i a save save' hsv hst _ => exact replicated_set hi (nodeAgrees_saves (hi.nodes n) hsv hst)
  | @store n i save save' hsv hst =>
    -- the node may have applied more entries since the value was taken
    have hm := List.mem_of_getElem? hsv
    have hn := hi.nodes n
    have hst' := replicated_store hi (hs n save hm) hst (hn.taken save hm)
    have hlog : (g.store save').log = g.log := by
      obtain ⟨snapshots, he⟩ := store_frame g save'
      rw [he]
    refine replicated_set hst' ?_
    rw [hlog]
    exact nodeAgrees_saves hn hsv hst
  | @load n reader snap hm => exact replicated_set hi ⟨hi.stored _ _ hm, (hi.nodes n).taken⟩
  | commit =>
    -- the log grows behind all replicas
    refine ⟨fun n => ⟨(hi.nodes n).value.append _, fun save hm => ((hi.nodes n).taken save hm).append _⟩,
      fun index snap hm => (hi.stored index snap hm).append _⟩
  | discard | elect => exact ⟨hi.nodes, hi.stored⟩
  | restart => exact replicated_set hi ⟨Replay.Agrees.zero _, nofun⟩

theorem reachable_replicated (hl : rt.Lossless) (h : Exec.Reachable (step rt) init g) : Replicated rt g := by
  refine h.induction ?_ ?_
  · exact ⟨fun _ => ⟨Replay.Agrees.zero _, nofun⟩, nofun⟩
  · intro t act u hr ha hi
    have hs : ∀ n, ∀ save ∈ (t.servers n).saves, save.Sound :=
      reachable_servers (I := fun s => ∀ save ∈ s.saves, save.Sound) (fun _ _ => nofun)
        (fun _ _ _ => Server.step_sound) hr
    exact replicated_step hl ha (reachable_recorded hr) hs hi

/-- What the agreement of all replicas says about the nodes and their snapshots. -/
structure ReplicasAgree (rt : Runtime P) (g : Group P) : Prop where
  /-- A node that has applied the index `k` holds the wrapped sum of the first `k` deltas. -/
  value : ∀ n, (g.servers n).applied ≤ g.log.length ∧
    (g.servers n).counter.value = wrapSum ((g.deltas rt).take (g.servers n).applied)
  equal : ∀ m n, (g.servers m).applied = (g.servers n).applied →
    (g.servers m).counter.value = (g.servers n).counter.value
  /-- So does every value that a snapshot request has taken, and every snapshot that can be loaded. -/
  taken : ∀ n, ∀ save ∈ (g.servers n).saves, save.index ≤ g.log.length ∧
    save.arg = wrapSum ((g.deltas rt).take save.index)
  stored : ∀ index snap, (index, snap) ∈ g.snapshots → index ≤ g.log.length ∧
    snap.value = wrapSum ((g.deltas rt).take index)
  /-- The deltas are those of the requests. -/
  deltas : ∀ e ∈ g.log, ∃ request k, Event.invoke e.owner (.fetchAdd request) k ∈ g.history ∧
    rt.delta e = request.value

/-- In every reachable state of the group, all replicas agree with the log and with each other. -/
theorem replicas_agree (rt : Runtime P) (hl : rt.Lossless) {g : Group P} (h : Exec.Reachable (step rt) init g) :
    g.ReplicasAgree rt := by
  have hi := reachable_replicated hl h
  have hr := reachable_recorded h
  have hs : ∀ n, ∀ save ∈ (g.servers n).saves, save.Sound :=
    reachable_servers (I := fun s => ∀ save ∈ s.saves, save.Sound) (fun _ _ => nofun)
      (fun _ _ _ => Server.step_sound) h
  have hsum : ∀ {k v}, Agrees rt g.log k v → k ≤ g.log.length ∧ v = wrapSum ((g.deltas rt).take k) := by
    intro k v ha
    refine ⟨ha.bound, ?_⟩
    rw [ha.wrapSum, deltas, List.map_take]
  refine ⟨fun n => hsum (hi.nodes n).value, ?_, ?_, fun index snap hm => hsum (hi.stored index snap hm), ?_⟩
  · intro m n hmn
    have hm := (hi.nodes m).value
    rw [hmn] at hm
    exact hm.unique (hi.nodes n).value
  · intro n save hm
    rw [(hs n save hm).arg]
    exact hsum ((hi.nodes n).taken save hm)
  · intro e he
    obtain ⟨request, k, hk, hd⟩ := hr.data e (List.mem_append_left _ he)
    exact ⟨request, k, hk, Runtime.delta_serialize hl hd⟩

/-- Node 1 leads, adds 5 and stores a snapshot; node 2 applies the entry from its bytes, and after a restart gets it
with the snapshot. -/
def snapshotRun : List (GroupAct Nat) :=
  on 1 Server.startUp ++ lead 1 1 ++ on 1 (Server.propose 0 ⟨5⟩) ++ [.commit 0] ++
    on 1 (Server.applyOne (serializeValue 5) (some 0)) ++ on 2 Server.startUp ++
    on 2 (Server.applyOne (serializeValue 5) none) ++
    on 1 [.callback (.snapshotSave true), .save 0 (.save true), .save 0 (.addFile true), .save 0 .finish] ++
    [.restart 2] ++ on 2 Server.startUp ++ on 2 [.callback (.snapshotLoad ⟨1, true, some ⟨5⟩⟩)]

theorem replicas_agree_snapshot : ∃ g, Exec.exec (step (protobuf Nat.repr)) init snapshotRun = some g ∧
    (g.servers 2).applied = 1 ∧ (g.servers 2).counter.value = 5 ∧ g.ReplicasAgree (protobuf Nat.repr) :=
  ⟨_, rfl, rfl, rfl, replicas_agree (protobuf Nat.repr) (protobuf_lossless Nat.repr) ⟨snapshotRun, rfl⟩⟩

end Group

end LearnTogether
