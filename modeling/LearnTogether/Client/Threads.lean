import LearnTogether.Base.StaleWrites
import LearnTogether.Client.Sender

/-!
# The threads of the client

`main` of `client.cpp` starts `thread_num` threads that run `sender`, and they share braft's route table.  A thread
looks at the table when it selects the leader, and changes it when its request has come back; the other threads may
have changed it in between.  What a thread does when it is alone is the loop body of `Sender` (`exec_alone`).

A thread that asked an outdated leader can so undo what the others have learned, and they are turned down again.  In
a group that has settled this comes to an end: however the threads take turns, they are turned down only so often
(`turnedDown_le`).
-/

namespace LearnTogether

open Exec StaleWrites

/-- Where a thread stands in the loop of `sender`: it is `refreshing` when `select_leader` has failed, and `asking`
while its request is on the way. -/
inductive Worker (P : Type)
  | top
  | refreshing
  | asking (leader : P)
  | ended

/-- What a thread does next, with what the environment decides, as in `Iteration`. -/
inductive Move (P : Type)
  | quit
  | select (channelInit : Bool)
  | refreshed (ok : Bool) (table : RouteTable P)
  | reply (rpc : Rpc P)

def Deed.turnedDown {P : Type} : Deed P → Bool
  | .send _ reply => reply.turnedDown
  | .refresh | .sleep => false

/-- The process of `client.cpp` with `n` threads. -/
structure Client (n : Nat) (P : Type) where
  table : RouteTable P
  threads : Fin n → Worker P
  deeds : List (Fin n × Deed P) := []

namespace Client

variable {n : Nat} {P : Type} (rt : Runtime P) (parse : String → Option P) (logEachRequest : Bool)

/-- The client after `update_configuration`, with `table` as what the route table knows of the leader. -/
def start (n : Nat) (table : RouteTable P) : Client n P := { table, threads := fun _ => .top }

def goto (s : Client n P) (i : Fin n) (worker : Worker P) : Client n P :=
  { s with threads := Function.update s.threads i worker }

def log (s : Client n P) (i : Fin n) (deeds : List (Deed P)) : Client n P :=
  { s with deeds := s.deeds ++ deeds.map fun d => (i, d) }

/-- What becomes of the table when a reply has come, and whether the thread sleeps. -/
def conclude (table : RouteTable P) : Reply → RouteTable P × Bool
  | .failed => (none, true)
  | .answered response =>
    if response.success.getD false then (table, logEachRequest)
    else (Sender.updateLeader parse table (response.redirect.getD ""), false)

def step (s : Client n P) (a : Fin n × Move P) : Option (Client n P) :=
  match s.threads a.1, a.2 with
  | .top, .quit => some (s.goto a.1 .ended)
  | .top, .select channelInit =>
    match s.table with
    | none => some (s.goto a.1 .refreshing)
    | some leader => if channelInit then some (s.goto a.1 (.asking leader)) else some (s.log a.1 [.sleep])
  | .refreshing, .refreshed ok table =>
    some ({ s.goto a.1 .top with table }.log a.1 (if ok then [.refresh] else [.refresh, .sleep]))
  | .asking leader, .reply rpc =>
    let reply := Sender.reply rt rpc
    let (table, sleeps) := conclude parse logEachRequest s.table reply
    let events := if sleeps then [.send leader reply, .sleep] else [.send leader reply]
    some ({ s.goto a.1 .top with table }.log a.1 events)
  | _, _ => none

def turnedDown (s : Client n P) : Nat := s.deeds.countP fun d => d.2.turnedDown

/-! ### One thread -/

/-- What a thread does in an iteration that no other thread interrupts. -/
def moves (table : RouteTable P) (it : Iteration P) : List (Move P) :=
  match table with
  | none => [.select it.channelInit, .refreshed it.refreshed.1 it.refreshed.2]
  | some _ => if it.channelInit then [.select true, .reply it.rpc] else [.select false]

private theorem conclude_some (leader : P) (reply : Reply) :
    conclude parse logEachRequest (some leader) reply = Sender.afterReply parse logEachRequest leader reply := by
  cases reply with
  | failed => rfl
  | answered response => rfl

/-- A thread alone runs the loop body of `Sender`. -/
theorem exec_alone (s : Client n P) {i : Fin n} (hi : s.threads i = .top) (it : Iteration P) :
    exec (step rt parse logEachRequest) s ((moves s.table it).map fun m => (i, m)) =
      some ({ s with table := (Sender.body rt parse logEachRequest s.table it).1 }.log i
        (Sender.body rt parse logEachRequest s.table it).2) := by
  obtain ⟨table, threads, deeds⟩ := s
  dsimp only at hi
  have hback : ∀ w : Worker P, Function.update (Function.update threads i w) i .top = threads := by
    intro w
    rw [Function.update_idem, ← hi, Function.update_eq_self]
  cases table with
  | none => simp [moves, Sender.body, step, hi, goto, log, hback]
  | some leader =>
    by_cases hc : it.channelInit = true
    · simp [moves, Sender.body, step, hi, hc, goto, log, hback, conclude_some]
    · simp [moves, Sender.body, step, hi, hc, log]

variable {rt parse logEachRequest}

/-- A step changes one thread, and only a thread that waits gets a reply. -/
theorem step_threads {s t : Client n P} {j : Fin n} {m : Move P}
    (h : s.step rt parse logEachRequest (j, m) = some t) :
    (∃ w, t.threads = Function.update s.threads j w) ∧
      ((∀ rpc, m ≠ .reply rpc) → ∀ leader, s.threads j ≠ .asking leader) := by
  have hstay : s.threads = Function.update s.threads j (s.threads j) := (Function.update_eq_self ..).symm
  cases hj : s.threads j with
  | ended => simp [step, hj] at h
  | top =>
    refine ⟨?_, fun _ _ => nofun⟩
    cases m with
    | quit =>
      simp only [step, hj, Option.some.injEq] at h
      subst h
      exact ⟨_, rfl⟩
    | select channelInit =>
      cases htab : s.table with
      | none =>
        simp only [step, hj, htab, Option.some.injEq] at h
        subst h
        exact ⟨_, rfl⟩
      | some leader =>
        by_cases hc : channelInit = true
        · simp only [step, hj, htab, if_pos hc, Option.some.injEq] at h
          subst h
          exact ⟨_, rfl⟩
        · simp only [step, hj, htab, if_neg hc, Option.some.injEq] at h
          subst h
          exact ⟨_, hstay⟩
    | refreshed ok table => simp [step, hj] at h
    | reply rpc => simp [step, hj] at h
  | refreshing =>
    refine ⟨?_, fun _ _ => nofun⟩
    cases m with
    | refreshed ok table =>
      simp only [step, hj, Option.some.injEq] at h
      subst h
      exact ⟨_, rfl⟩
    | quit | select channelInit | reply rpc => simp [step, hj] at h
  | asking p =>
    cases m with
    | reply rpc =>
      simp only [step, hj, Option.some.injEq] at h
      subst h
      exact ⟨⟨_, rfl⟩, fun hm => absurd rfl (hm rpc)⟩
    | quit | select channelInit | refreshed ok table => simp [step, hj] at h

end Client

/-! ### A settled group -/

/-- How far the peers are from the leader: `rank` is 0 for a peer that grants all requests, and at most `far` for the
peers that are up. -/
structure Settled (P : Type) where
  rank : P → Nat
  far : Nat

namespace Settled

variable {n : Nat} {P : Type} (g : Settled P)

/-- A table without a leader is farther than the peers that are up. -/
def tableRank : RouteTable P → Nat
  | none => g.far + 1
  | some p => g.rank p

/-- What can happen to a thread: a peer that refuses names one that is nearer to the leader, only a peer that is down
does not answer, and `refresh_leader` finds a peer that is up or changes nothing. -/
def Permits (table : RouteTable P) : Worker P → Move P → Prop
  | .asking p, .reply (.refused c leader) => c.node = true ∧ ∃ q ∈ leader, g.rank q < g.rank p
  | .asking p, .reply .failed => g.far + 1 < g.rank p
  | .refreshing, .refreshed _ found => found = table ∨ ∃ q ∈ found, g.rank q ≤ g.far
  | _, _ => True

instance [DecidableEq P] (table : RouteTable P) : (w : Worker P) → (m : Move P) → Decidable (g.Permits table w m)
  | .asking _, .reply (.refused _ _) => inferInstanceAs (Decidable (_ ∧ _))
  | .asking _, .reply .failed => inferInstanceAs (Decidable (_ < _))
  | .asking _, .reply (.granted _) | .asking _, .quit | .asking _, .select _ | .asking _, .refreshed _ _ =>
    isTrue trivial
  | .refreshing, .refreshed _ _ => inferInstanceAs (Decidable (_ ∨ _))
  | .refreshing, .quit | .refreshing, .select _ | .refreshing, .reply _ => isTrue trivial
  | .top, _ | .ended, _ => isTrue trivial

def Allows (s : Client n P) (a : Fin n × Move P) : Prop := g.Permits s.table (s.threads a.1) a.2

instance [DecidableEq P] (s : Client n P) (a : Fin n × Move P) : Decidable (g.Allows s a) :=
  inferInstanceAs (Decidable (g.Permits _ _ _))

/-- The rank that a thread is busy with. -/
def busy : Worker P → Option Nat
  | .top | .ended => none
  | .refreshing => some (g.far + 1)
  | .asking p => some (g.rank p)

@[simp] theorem busy_top : g.busy .top = none := rfl

@[simp] theorem busy_ended : g.busy .ended = none := rfl

/-- The client as workers on a register. -/
def view (s : Client n P) : Shared n := ⟨g.tableRank s.table, fun i => g.busy (s.threads i)⟩

end Settled

namespace Client

variable {n : Nat} {P : Type} {rt : Runtime P} {parse : String → Option P} {logEachRequest : Bool} {g : Settled P}

private theorem busy_update (threads : Fin n → Worker P) (i : Fin n) (w : Worker P) :
    (fun j => g.busy (Function.update threads i w j)) =
      Function.update (fun j => g.busy (threads j)) i (g.busy w) := by
  funext j
  by_cases hj : j = i
  · rw [hj, Function.update_self, Function.update_self]
  · rw [Function.update_of_ne hj, Function.update_of_ne hj]

private theorem turnedDown_log (s : Client n P) (i : Fin n) (deeds : List (Deed P)) :
    (s.log i deeds).turnedDown = s.turnedDown + deeds.countP Deed.turnedDown := by
  simp only [turnedDown, log, List.countP_append, List.countP_map]
  rfl

/-- The table after a refusal by a server that has a node and knows of the leader `q`. -/
private theorem conclude_refused (ht : PeerText rt parse) (table : RouteTable P) {c : Counter}
    (hc : c.node = true) (q : P) :
    conclude parse logEachRequest table (Sender.reply rt (.refused c (some q))) = (some q, false) := by
  simp [conclude, Sender.reply, Sender.updateLeader, Counter.redirect, hc, CounterResponse.setSuccess,
    CounterResponse.setRedirect, ht.toString]

private theorem exec_read {s : Client n P} {i : Fin n} {w : Worker P} (hi : g.busy (s.threads i) = none)
    (hw : g.busy w = some (g.tableRank s.table)) :
    exec Shared.step (g.view s) [.read i] = some (g.view (s.goto i w)) := by
  simp [Shared.step, Settled.view, hi, goto, busy_update, hw]

private theorem exec_drop (s : Client n P) (i : Fin n) :
    exec Shared.step (g.view s) [.drop i] = some (g.view (s.goto i .top)) := by
  simp [Shared.step, Settled.view, goto, busy_update]

private theorem exec_write {s : Client n P} {i : Fin n} {k : Nat} (hi : g.busy (s.threads i) = some k)
    {table : RouteTable P}
    (hlt : g.tableRank table < k) : exec Shared.step (g.view s) [.write i (g.tableRank table)] =
      some (g.view { s.goto i .top with table }) := by
  simp [Shared.step, Settled.view, hi, hlt, goto, busy_update]

/-- A thread that is turned down writes to the register. -/
private theorem reply_view (ht : PeerText rt parse) {s t : Client n P} {i : Fin n} {p : P} {rpc : Rpc P}
    (hi : s.threads i = .asking p) (h : step rt parse logEachRequest s (i, .reply rpc) = some t)
    (hg : g.Allows s (i, .reply rpc)) : ∃ acts, exec Shared.step (g.view s) acts = some (g.view t) ∧
      t.turnedDown = s.turnedDown + (acts.map Act.writes).sum := by
  have hbusy : g.busy (s.threads i) = some (g.rank p) := by rw [hi]; rfl
  simp only [step, hi] at h
  simp only [Settled.Allows, Settled.Permits, hi] at hg
  cases rpc with
  | failed =>
    -- the table is cleared
    cases h
    refine ⟨[.write i (g.tableRank none)], exec_write hbusy hg, ?_⟩
    rw [turnedDown_log]
    rfl
  | refused c leader =>
    obtain ⟨hc, q, rfl, hlt⟩ := hg
    rw [conclude_refused ht s.table hc q] at h
    cases h
    refine ⟨[.write i (g.tableRank (some q))], exec_write hbusy hlt, ?_⟩
    have hd := Sender.refused_turnedDown rt c (some q)
    rw [turnedDown_log]
    simp [Deed.turnedDown, hd, goto, turnedDown, Act.writes]
  | granted value =>
    refine ⟨[.drop i], ?_, ?_⟩
    · cases h
      exact exec_drop s i
    · cases h
      rw [turnedDown_log]
      cases logEachRequest <;> rfl

/-- Every step is one of workers on a register, where those who are turned down write. -/
private theorem step_view (ht : PeerText rt parse) {s t : Client n P} {a : Fin n × Move P}
    (h : step rt parse logEachRequest s a = some t) (hg : g.Allows s a) :
    ∃ acts, exec Shared.step (g.view s) acts = some (g.view t) ∧
      t.turnedDown ≤ s.turnedDown + (acts.map Act.writes).sum := by
  obtain ⟨i, m⟩ := a
  cases hi : s.threads i with
  | ended => simp [step, hi] at h
  | top =>
    have hbusy : g.busy (s.threads i) = none := by rw [hi]; rfl
    cases m with
    | quit =>
      simp only [step, hi, Option.some.injEq] at h
      subst h
      refine ⟨[], ?_, Nat.le_add_right ..⟩
      have hidle : Function.update (fun j => g.busy (s.threads j)) i none = fun j => g.busy (s.threads j) := by
        rw [← hbusy]
        exact Function.update_eq_self i _
      simp [Settled.view, goto, busy_update, hidle]
    | select channelInit =>
      cases htab : s.table with
      | none =>
        simp only [step, hi, htab, Option.some.injEq] at h
        subst h
        exact ⟨[.read i], exec_read hbusy (by rw [htab]; rfl), Nat.le_add_right ..⟩
      | some leader =>
        by_cases hc : channelInit = true
        · simp only [step, hi, htab, if_pos hc, Option.some.injEq] at h
          subst h
          exact ⟨[.read i], exec_read hbusy (by rw [htab]; rfl), Nat.le_add_right ..⟩
        · simp only [step, hi, htab, if_neg hc, Option.some.injEq] at h
          subst h
          refine ⟨[], rfl, ?_⟩
          rw [turnedDown_log]
          exact Nat.le_refl _
    | refreshed ok table => simp [step, hi] at h
    | reply rpc => simp [step, hi] at h
  | refreshing =>
    have hbusy : g.busy (s.threads i) = some (g.far + 1) := by rw [hi]; rfl
    cases m with
    | quit => simp [step, hi] at h
    | select channelInit => simp [step, hi] at h
    | reply rpc => simp [step, hi] at h
    | refreshed ok table =>
      simp only [step, hi, Option.some.injEq] at h
      have hnone : t.turnedDown = s.turnedDown := by
        rw [← h, turnedDown_log]
        cases ok <;> rfl
      subst h
      simp only [Settled.Allows, Settled.Permits, hi] at hg
      rcases hg with rfl | ⟨q, rfl, hq⟩
      · exact ⟨[.drop i], exec_drop s i, by omega⟩
      · exact ⟨[.write i (g.tableRank (some q))], exec_write hbusy (Nat.lt_succ_of_le hq), by omega⟩
  | asking p =>
    cases m with
    | quit => simp [step, hi] at h
    | select channelInit => simp [step, hi] at h
    | refreshed ok table => simp [step, hi] at h
    | reply rpc =>
      obtain ⟨acts, hacts, hle⟩ := reply_view ht hi h hg
      exact ⟨acts, hacts, Nat.le_of_eq hle⟩

/-- In a settled group, where `refresh_leader` finds a peer that is up or changes nothing, the threads are turned down
only so often, however they take turns and whatever they had learned before. -/
theorem turnedDown_le (ht : PeerText rt parse) {table : RouteTable P} {as : List (Fin n × Move P)} {s : Client n P}
    (h : exec (step rt parse logEachRequest) (start n table) as = some s)
    (hg : Along (step rt parse logEachRequest) g.Allows (start n table) as) :
    s.turnedDown ≤ n * weight n (g.tableRank table) := by
  obtain ⟨acts, hacts, hle⟩ : ∃ acts, exec Shared.step (.idle n (g.tableRank table)) acts = some (g.view s) ∧
      s.turnedDown ≤ (acts.map Act.writes).sum := by
    refine exec_induction_along (I := fun s => ∃ acts,
      exec Shared.step (.idle n (g.tableRank table)) acts = some (g.view s) ∧
        s.turnedDown ≤ (acts.map Act.writes).sum) ⟨[], rfl, Nat.le_refl _⟩ ?_ h hg
    rintro s a t - ha hga ⟨acts, hacts, hle⟩
    obtain ⟨acts', hacts', hle'⟩ := step_view ht ha hga
    refine ⟨acts ++ acts', ?_, ?_⟩
    · rw [exec_append, hacts]
      exact hacts'
    · rw [List.map_append, List.sum_append]
      omega
  exact hle.trans (writes_le hacts)

def address (p : Fin 3) : String :=
  match p with
  | 0 => "127.0.1.1:8100:0"
  | 1 => "127.0.1.1:8101:0"
  | 2 => "127.0.1.1:8102:0"

def parseAddress (text : String) : Option (Fin 3) := [0, 1, 2].find? fun p => address p = text

private theorem peerText_address : PeerText (protobuf address) parseAddress :=
  ⟨by decide, by decide⟩

/-- The peer 0 leads, the peer 1 knows it, and the peer 2 still takes the peer 1 for the leader. -/
def threePeers : Settled (Fin 3) := ⟨fun p => p.val, 2⟩

/-- A refusal by the peer `p`, which names the peer `q`. -/
def refusal (q : Fin 3) : Move (Fin 3) := .reply (.refused { node := true } (some q))

/-- Both threads ask the peer 2.  The thread 0 has found the leader when the thread 1 gets its refusal. -/
def staleRun : List (Fin 2 × Move (Fin 3)) :=
  [(0, .select true), (1, .select true), (0, refusal 1), (0, .select true), (0, refusal 0), (0, .select true),
    (1, refusal 1), (0, .reply (.granted 7)), (0, .select true), (0, refusal 0), (1, .select true),
    (1, .reply (.granted 8))]

theorem turnedDown_le_staleRun : ∃ s,
    exec (step (protobuf address) parseAddress false) (start 2 (some 2)) staleRun = some s ∧
      s.turnedDown = 4 ∧ s.turnedDown ≤ 2 * weight 2 (threePeers.tableRank (some 2)) := by
  obtain ⟨s, hs⟩ : ∃ s, exec (step (protobuf address) parseAddress false) (start 2 (some 2)) staleRun = some s :=
    Option.isSome_iff_exists.1 (by decide)
  have h4 : (exec (step (protobuf address) parseAddress false) (start 2 (some 2)) staleRun).map turnedDown = some 4 :=
    by decide
  rw [hs] at h4
  exact ⟨s, hs, Option.some.inj h4, turnedDown_le peerText_address hs (by decide)⟩

end Client

end LearnTogether
