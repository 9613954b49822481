import LearnTogether.Counter.SnapshotRequests
import LearnTogether.Group.Model

/-!
# What a step of the group can do

As for one server, `Outcome rt g act g'` lists the ways in which an action can change the group, and every step has
one of them (`step_outcome`).  An invariant of one server holds of every node of a group (`reachable_servers`), since
each step of the group is a step of one of its nodes, a restart, or no step of a node at all.
-/

namespace LearnTogether

/-- A step that leaves alone all that the group talks about. -/
structure Server.SameData (s s' : Server) : Prop where
  calls : s'.calls = s.calls
  nextCall : s'.nextCall = s.nextCall
  saves : s'.saves = s.saves
  applied : s'.applied = s.applied
  value : s'.counter.value = s.counter.value

namespace Group

variable {P : Type}

/-- Only the snapshots are changed. -/
theorem store_frame (g : Group P) (save : SnapshotSave) :
    ∃ snapshots, g.store save = { g with snapshots } := by
  unfold store
  split
  · split
    · exact ⟨_, rfl⟩
    · exact ⟨g.snapshots, rfl⟩
  · exact ⟨g.snapshots, rfl⟩

@[simp] theorem showStep_servers (g : Group P) (n : P) (s s' : Server) (a : ServerAct P) :
    (g.showStep n s s' a).servers = g.servers := by
  unfold showStep showCall propose store
  (repeat' split) <;> rfl

/-- The process of the node `n` is not lost, and loads no snapshot behind what it has applied. -/
def KeepsForward (n : P) (g : Group P) (act : GroupAct P) : Prop :=
  act ≠ .restart n ∧
    ∀ reader, act = .node n (.callback (.snapshotLoad reader)) → (g.servers n).applied ≤ reader.index

variable [DecidableEq P] {rt : Runtime P} {g g' : Group P}

@[simp] theorem setServer_self (g : Group P) (n : P) (s : Server) : (g.setServer n s).servers n = s :=
  Function.update_self ..
theorem setServer_of_ne (g : Group P) {m n : P} (s : Server) (h : m ≠ n) :
    (g.setServer n s).servers m = g.servers m :=
  Function.update_of_ne h ..

/-- A property of all nodes survives the replacement of one of them. -/
theorem forall_setServer {Q : P → Server → Prop} {n : P} {s : Server} (hg : ∀ m, Q m (g.servers m)) (hs : Q n s)
    (m : P) : Q m ((g.setServer n s).servers m) := by
  by_cases hm : m = n
  · subst hm
    rw [setServer_self]
    exact hs
  · rw [setServer_of_ne _ _ hm]
    exact hg m

/-- The entry `e` is committed, owned by the call `id`, whose closure braft gives to `on_apply`. -/
structure Given (g : Group P) (n : P) (id : Nat) (e : Entry P) (call : Call) : Prop where
  entry : g.log[(g.servers n).applied]? = some e
  owner : e.owner = (n, id)
  arrived : (g.servers n).calls id = some call
  pending : call.pending = true

inductive Outcome (rt : Runtime P) (g : Group P) : GroupAct P → Group P → Prop
  | quiet {n : P} {a : ServerAct P} {s' : Server} : (g.servers n).SameData s' →
      Outcome rt g (.node n a) (g.setServer n s')
  | invoke {n : P} {request : Request} : Outcome rt g (.node n (.invoke request))
      ((g.tell (.invoke (n, (g.servers n).nextCall) request g.log.length)).setServer n
        ((g.servers n).invoke request))
  /-- a step inside the call -/
  | call {n : P} {id : Nat} {a : CallAct P} {call call' : Call} : (g.servers n).calls id = some call →
      call.step rt (g.servers n).counter a = some call' → a ≠ .apply → call'.doneRuns = call.doneRuns →
      Outcome rt g (.node n (.call id a)) (g.setServer n ((g.servers n).setCall id call'))
  | propose {n : P} {id : Nat} {call : Call} {term : Int} {log : Bytes} : (g.servers n).calls id = some call →
      call.handler = .serialized term log →
      Outcome rt g (.node n (.call id .apply))
        ((g.propose (n, id) (Call.task rt term log)).setServer n ((g.servers n).setCall id
          { call with guard := false, closure := .inBraft (Call.task rt term log), handler := .leaving }))
  | answer {n : P} {id : Nat} {a : CallAct P} {call call' : Call} : (g.servers n).calls id = some call →
      call.step rt (g.servers n).counter a = some call' → a ≠ .apply → call.doneRuns < call'.doneRuns →
      Outcome rt g (.node n (.call id a))
        ((g.tell (.answer (n, id) call'.response)).setServer n ((g.servers n).setCall id call'))
  | applyDone {n : P} {data : Bytes} {id : Nat} {e : Entry P} {call : Call} {request : FetchAddRequest} :
      g.Given n id e call → call.request = .fetchAdd request →
      Outcome rt g (.node n (.callback (.applyNext data (some id))))
        (g.setServer n (((g.servers n).fetchAddValue request.value).setCall id
          (call.onApply (g.servers n).counter.value)))
  | applyParse {n : P} {e : Entry P} {request : FetchAddRequest} : g.log[(g.servers n).applied]? = some e →
      rt.parse e.data = some request →
      Outcome rt g (.node n (.callback (.applyNext e.data none)))
        (g.setServer n ((g.servers n).fetchAddValue request.value))
  | snapshotSave {n : P} {b : Bool} : Outcome rt g (.node n (.callback (.snapshotSave b)))
      (g.setServer n { g.servers n with
        saves := (g.servers n).saves ++ [.onSnapshotSave (g.servers n).applied (g.servers n).counter.value b] })
  | save {n : P} {i : Nat} {a : SaveAct} {save save' : SnapshotSave} : (g.servers n).saves[i]? = some save →
      save.step a = some save' → a ≠ .finish →
      Outcome rt g (.node n (.save i a))
        (g.setServer n { g.servers n with saves := (g.servers n).saves.set i save' })
  | store {n : P} {i : Nat} {save save' : SnapshotSave} : (g.servers n).saves[i]? = some save →
      save.step .finish = some save' →
      Outcome rt g (.node n (.save i .finish))
        ((g.store save').setServer n { g.servers n with saves := (g.servers n).saves.set i save' })
  | load {n : P} {reader : SnapshotReader} {snap : Snapshot} : (reader.index, snap) ∈ g.snapshots →
      Outcome rt g (.node n (.callback (.snapshotLoad reader)))
        (g.setServer n { g.servers n with
          counter := { (g.servers n).counter with value := snap.value }, applied := reader.index })
  | commit {i : Nat} {e : Entry P} : g.proposed[i]? = some e →
      Outcome rt g (.commit i) { g with log := g.log ++ [e], proposed := g.proposed.eraseIdx i }
  | discard {i : Nat} : Outcome rt g (.discard i) { g with proposed := g.proposed.eraseIdx i }
  | elect {n : P} {term : Int} : g.leaders term = none →
      Outcome rt g (.elect n term) { g with leaders := Function.update g.leaders term (some n) }
  | restart {n : P} : Outcome rt g (.restart n) (g.setServer n { nextCall := (g.servers n).nextCall })

theorem step_node {n : P} {a : ServerAct P} (h : step rt g (.node n a) = some g') :
    g.allows n a = true ∧ ∃ s', (g.servers n).step rt a = some s' ∧
      g' = (g.showStep n (g.servers n) s' a).setServer n s' := by
  simp only [step] at h
  split at h
  · rename_i ha
    obtain ⟨s', hs, rfl⟩ := Option.map_eq_some_iff.1 h
    exact ⟨ha, s', hs, rfl⟩
  · cases h

private theorem allows_applyNext {n : P} {data : Bytes} {done : Option Nat}
    (h : g.allows n (.callback (.applyNext data done)) = true) :
    ∃ e, g.log[(g.servers n).applied]? = some e ∧ data = e.data ∧ done = g.iterDone n e := by
  simp only [allows] at h
  split at h
  · rename_i e he
    rw [Bool.and_eq_true, decide_eq_true_eq, decide_eq_true_eq] at h
    exact ⟨e, he, h.1, h.2⟩
  · cases h

private theorem iterDone_some {n : P} {e : Entry P} {id : Nat} (h : some id = g.iterDone n e) :
    e.owner = (n, id) ∧ ∃ call, (g.servers n).calls id = some call ∧ call.pending = true := by
  unfold iterDone at h
  split at h
  · rename_i hn
    split at h
    · rename_i call hc
      split at h
      · rename_i hp
        cases h
        exact ⟨Prod.ext hn rfl, call, hc, hp⟩
      · cases h
    · cases h
  · cases h

private theorem allows_load {n : P} {reader : SnapshotReader} {snap : Snapshot}
    (h : g.allows n (.callback (.snapshotLoad reader)) = true) (hf : reader.file = some snap) :
    (reader.index, snap) ∈ g.snapshots := by
  simpa only [allows, hf, decide_eq_true_eq] using h

private theorem step_call_outcome {n : P} {id : Nat} {a : CallAct P} {call call' : Call}
    (hf : (g.servers n).fault = none) (hc : (g.servers n).calls id = some call)
    (hs : call.step rt (g.servers n).counter a = some call') :
    Outcome rt g (.node n (.call id a))
      ((g.showStep n (g.servers n) ((g.servers n).setCall id call') (.call id a)).setServer n
        ((g.servers n).setCall id call')) := by
  have hshow : g.showStep n (g.servers n) ((g.servers n).setCall id call') (.call id a) =
      g.showCall (n, id) call call' a := by
    simp [showStep, Server.setCall, hc, hf]
  rw [hshow]
  by_cases ha : a = .apply
  · subst ha
    cases Call.step_outcome hs with
    | apply hh => exact .propose hc hh
  · have hd : g.showCall (n, id) call call' a =
        if call.doneRuns < call'.doneRuns then g.tell (.answer (n, id) call'.response) else g := by
      cases a <;> first | exact absurd rfl ha | rfl
    rw [hd]
    split
    · exact .answer hc hs ha ‹_›
    · refine .call hc hs ha ?_
      have hle : call.doneRuns ≤ call'.doneRuns := by
        cases Call.step_outcome hs with
        | leave => dsimp only; split <;> omega
        | finish => exact Nat.le_succ _
        | _ => exact Nat.le_refl _
      omega

private theorem step_node_outcome {n : P} {a : ServerAct P} {s' : Server} (hok : g.allows n a = true)
    (hs : (g.servers n).step rt a = some s') :
    Outcome rt g (.node n a) ((g.showStep n (g.servers n) s' a).setServer n s') := by
  have hf := (Server.step_actStep hs).1
  cases Server.step_outcome hs with
  | invoke => exact .invoke
  | @nullNode id a _ _ hc =>
    have hq : g.showStep n (g.servers n) { g.servers n with fault := some .nullNode } (.call id a) = g := by
      simp [showStep, hc]
    rw [hq]
    exact .quiet ⟨rfl, rfl, rfl, rfl, rfl⟩
  | call hc hst _ => exact step_call_outcome hf hc hst
  | @save i a save save' hi hst =>
    by_cases ha : a = .finish
    · subst ha
      have hi' : ((g.servers n).saves.set i save')[i]? = some save' :=
        List.getElem?_set_self (List.getElem?_eq_some_iff.1 hi).1
      simp only [showStep, hi']
      exact .store hi hst
    · have hq : ∀ s', g.showStep n (g.servers n) s' (.save i a) = g := by
        intro s'
        cases a <;> first | exact absurd rfl ha | rfl
      rw [hq]
      exact .save hi hst ha
  | applyDone hc hp hr =>
    obtain ⟨e, he, -, hd⟩ := allows_applyNext hok
    obtain ⟨ho, call, hc', hp'⟩ := iterDone_some hd
    rw [hc] at hc'
    cases hc'
    exact .applyDone ⟨he, ho, hc, hp'⟩ hr
  | applyParse hp =>
    obtain ⟨e, he, rfl, -⟩ := allows_applyNext hok
    exact .applyParse he hp
  | snapshotSave => exact .snapshotSave
  | load _ hfile => exact .load (allows_load hok hfile)
  | _ => exact .quiet ⟨rfl, rfl, rfl, rfl, rfl⟩

theorem step_outcome {act : GroupAct P} (h : step rt g act = some g') : Outcome rt g act g' := by
  cases act with
  | node n a =>
    obtain ⟨hok, s', hs, rfl⟩ := step_node h
    exact step_node_outcome hok hs
  | commit i =>
    obtain ⟨e, he, rfl⟩ := Option.map_eq_some_iff.1 h
    exact .commit he
  | discard i =>
    simp only [step] at h
    split at h <;> cases h
    exact .discard
  | elect n term =>
    simp only [step] at h
    split at h <;> cases h
    exact .elect ‹_›
  | restart n =>
    cases h
    exact .restart

/-! ### The applied index and the leadership of a node -/

theorem applied_step {n : P} {act : GroupAct P} (h : step rt g act = some g') (hG : KeepsForward n g act) :
    (g.servers n).applied ≤ (g'.servers n).applied := by
  have hset : ∀ (g₁ : Group P) (m : P) (s : Server), g₁.servers = g.servers →
      (m = n → (g.servers m).applied ≤ s.applied) → (g.servers n).applied ≤ ((g₁.setServer m s).servers n).applied := by
    intro g₁ m s hg hs
    by_cases hm : n = m
    · subst hm
      rw [setServer_self]
      exact hs rfl
    · exact Nat.le_of_eq (by rw [setServer_of_ne _ _ hm, hg])
  cases step_outcome h with
  | quiet hs => exact hset _ _ _ rfl fun _ => Nat.le_of_eq hs.applied.symm
  | applyDone | applyParse => exact hset _ _ _ rfl fun _ => Nat.le_succ _
  | @store m i save save' =>
    obtain ⟨snapshots, hs⟩ := store_frame g save'
    rw [hs]
    exact hset _ _ _ rfl fun _ => Nat.le_refl _
  | @load m reader snap =>
    refine hset _ _ _ rfl ?_
    rintro rfl
    exact hG.2 reader rfl
  | commit | discard | elect => exact Nat.le_refl _
  | @restart m =>
    refine hset _ _ _ rfl ?_
    rintro rfl
    exact absurd rfl hG.1
  | invoke | call | propose | answer | snapshotSave | save => exact hset _ _ _ rfl fun _ => Nat.le_refl _

/-- An entry that is applied with its closure counts as applied. -/
theorem applied_applyNext {n : P} {data : Bytes} {id : Nat}
    (h : step rt g (.node n (.callback (.applyNext data (some id)))) = some g') :
    (g'.servers n).applied = (g.servers n).applied + 1 := by
  obtain ⟨-, s', hs, rfl⟩ := step_node h
  rw [setServer_self]
  cases Server.step_outcome hs with
  | applyDone => rfl

/-- A node that acts as leader did so before the step, or is told to by it. -/
theorem isLeader_step {n : P} {act : GroupAct P} (h : step rt g act = some g')
    (hl : (g'.servers n).counter.isLeader = true) :
    (g.servers n).counter.isLeader = true ∨ ∃ term, act = .node n (.callback (.leaderStart term)) := by
  cases act with
  | node m a =>
    obtain ⟨-, s', hs, rfl⟩ := step_node h
    by_cases hm : n = m
    · subst hm
      rw [setServer_self] at hl
      cases Server.step_outcome hs with
      | leaderStart => exact Or.inr ⟨_, rfl⟩
      | leaderStop => cases hl
      | _ => exact Or.inl hl
    · rw [setServer_of_ne _ _ hm, showStep_servers] at hl
      exact Or.inl hl
  | commit i =>
    obtain ⟨e, -, rfl⟩ := Option.map_eq_some_iff.1 h
    exact Or.inl hl
  | discard i | elect m term =>
    simp only [step] at h
    split at h <;> cases h
    exact Or.inl hl
  | restart m =>
    cases h
    by_cases hm : n = m
    · subst hm
      rw [setServer_self] at hl
      cases hl
    · rw [setServer_of_ne _ _ hm] at hl
      exact Or.inl hl

/-! ### Invariants of the single nodes -/

/-- An invariant of a server that also holds when a process starts holds of every node of the group. -/
theorem reachable_servers {I : Server → Prop} (h0 : ∀ k, I { nextCall := k })
    (hstep : ∀ s a s', Server.step rt s a = some s' → I s → I s') (h : Exec.Reachable (step rt) init g) :
    ∀ n, I (g.servers n) := by
  refine Exec.Reachable.induction (I := fun g => ∀ n, I (g.servers n)) (fun _ => h0 0) ?_ h
  intro g act g' _ ha ih
  cases act with
  | node n a =>
    obtain ⟨-, s', hs, rfl⟩ := step_node ha
    refine forall_setServer (Q := fun _ s => I s) (fun m => ?_) (hstep _ _ _ hs (ih n))
    rw [showStep_servers]
    exact ih m
  | restart n =>
    cases ha
    exact forall_setServer (Q := fun _ s => I s) ih (h0 _)
  | commit i =>
    obtain ⟨e, -, rfl⟩ := Option.map_eq_some_iff.1 ha
    exact ih
  | discard i | elect n term =>
    simp only [step] at ha
    split at ha <;> cases ha
    exact ih

end Group

end LearnTogether
