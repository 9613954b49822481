import LearnTogether.Counter.Call
import Mathlib.Data.List.Chain

/-!
# The sender of the client

The loop of `sender` in `client.cpp` for one thread, with braft's route table for the one group.  In an iteration the
environment decides whether the process is asked to quit, what `refresh_leader` does, whether the channel can be made
and what becomes of the RPC; the response of a server that turns the request down is the one of `Counter::redirect`.

All exits of the loop body after a failure sleep, except the one after a refusal.  There the redirect is stored, and
when it names no valid peer, or the very peer that refused, the table stays as it is and the same peer is asked again
at once.
-/

namespace LearnTogether

/-- `braft::rtb` for the group: the leader, `none` when it is unknown. -/
abbrev RouteTable (P : Type) := Option P

/-- What the client gets for a request: `cntl.Failed()` or a response. -/
inductive Reply
  | failed
  | answered (response : CounterResponse)
  deriving DecidableEq

def Reply.turnedDown : Reply → Bool
  | .failed => true
  | .answered response => !response.success.getD false

/-- What the sender does that others can see. -/
inductive Deed (P : Type)
  | refresh
  | sleep
  | send (p : P) (reply : Reply)
  deriving DecidableEq

/-- What becomes of an RPC; a server that refuses is in the state `c` and gets `leader` from `_node->leader_id()`. -/
inductive Rpc (P : Type)
  | failed
  | refused (c : Counter) (leader : Option P)
  | granted (value : Int64)

/-- What the environment decides in one iteration of the loop. -/
structure Iteration (P : Type) where
  askedToQuit : Bool := false
  /-- The status of `refresh_leader`, and the leader that it leaves in the table. -/
  refreshed : Bool × RouteTable P := (true, none)
  channelInit : Bool := true
  rpc : Rpc P := .failed

/-- The iteration sends a request when the table has a leader. -/
def Iteration.Sends {P : Type} (it : Iteration P) : Prop := it.askedToQuit = false ∧ it.channelInit = true

/-- `PeerId::parse` reads what `to_string` writes, and the empty string is no peer id. -/
structure PeerText {P : Type} (rt : Runtime P) (parse : String → Option P) : Prop where
  empty : parse "" = none
  toString : ∀ p, parse (rt.toString p) = some p

structure Sender (P : Type) where
  table : RouteTable P
  running : Bool := true
  deeds : List (Deed P) := []

namespace Sender

variable {P : Type} (rt : Runtime P) (parse : String → Option P) (logEachRequest : Bool)

def reply : Rpc P → Reply
  | .failed => .failed
  | .refused c leader => .answered (c.redirect rt leader {})
  | .granted value => .answered (({} : CounterResponse).setSuccess true |>.setValue value)

def updateLeader (table : RouteTable P) (text : String) : RouteTable P :=
  match parse text with
  | some p => some p
  | none => table

/-- The rest of the loop body after the RPC to `leader` was sent: the new table and whether it sleeps. -/
def afterReply (leader : P) : Reply → RouteTable P × Bool
  | .failed => (none, true)
  | .answered response =>
    if response.success.getD false then (some leader, logEachRequest)
    else (updateLeader parse (some leader) (response.redirect.getD ""), false)

/-- The body of the loop: the new table and the deeds. -/
def body (table : RouteTable P) (it : Iteration P) : RouteTable P × List (Deed P) :=
  match table with
  | none => (it.refreshed.2, if it.refreshed.1 then [.refresh] else [.refresh, .sleep])
  | some leader =>
    if it.channelInit then
      let reply := reply rt it.rpc
      let (table, sleeps) := afterReply parse logEachRequest leader reply
      (table, if sleeps then [.send leader reply, .sleep] else [.send leader reply])
    else (some leader, [.sleep])

def step (s : Sender P) (it : Iteration P) : Sender P :=
  if !s.running then s
  else if it.askedToQuit then { s with running := false }
  else
    let (table, deeds) := body rt parse logEachRequest s.table it
    { s with table, deeds := s.deeds ++ deeds }

def after (ω : Nat → Iteration P) (s : Sender P) : Nat → Sender P
  | 0 => s
  | n + 1 => (after ω s n).step rt parse logEachRequest (ω n)

/-- Two deeds in a row that hammer a peer. -/
def Hammer : Deed P → Deed P → Prop
  | .send p reply, .send q _ => reply.turnedDown = true ∧ q = p
  | _, _ => False

/-- After a peer turned a request down, the next request goes to another peer, or a sleep or a refresh is in
between. -/
def NeverHammers (s : Sender P) : Prop := s.deeds.IsChain fun d d' => ¬ Hammer d d'

/-- The sender asks a peer and is refused with a redirect that keeps this peer in the table: the server has no node,
does not know the leader, or names itself. -/
def RefusedInPlace (s : Sender P) (it : Iteration P) : Prop :=
  s.running = true ∧ it.askedToQuit = false ∧ it.channelInit = true ∧
    ∃ p c leader, s.table = some p ∧ it.rpc = .refused c leader ∧
      (c.node = false ∨ leader = none ∨ leader = some p)

theorem refused_turnedDown (c : Counter) (leader : Option P) : (reply rt (.refused c leader)).turnedDown = true := by
  cases c with
  | mk node value term => cases node <;> cases leader <;> rfl

variable {rt parse logEachRequest} {s : Sender P} {it : Iteration P}

private theorem table_refused (ht : PeerText rt parse) (p : P) (c : Counter) (leader : Option P) :
    updateLeader parse (some p) ((c.redirect rt leader {}).redirect.getD "") =
      some (if c.node then leader.getD p else p) := by
  unfold Counter.redirect updateLeader
  cases c.node with
  | false => simp [CounterResponse.setSuccess, ht.empty]
  | true =>
    cases leader with
    | none => simp [CounterResponse.setSuccess, ht.empty]
    | some q => simp [CounterResponse.setRedirect, ht.toString]

inductive Outcome (rt : Runtime P) (s : Sender P) (it : Iteration P) : Sender P → Prop
  | stopped : s.running = false → Outcome rt s it s
  | quit : s.running = true → it.askedToQuit = true → Outcome rt s it { s with running := false }
  | refresh {table : RouteTable P} {deeds : List (Deed P)} : s.running = true → it.askedToQuit = false →
      s.table = none → deeds = [.refresh] ∨ deeds = [.refresh, .sleep] →
      Outcome rt s it { table, deeds := s.deeds ++ deeds }
  | noChannel {p : P} : s.running = true → s.table = some p → it.channelInit = false →
      Outcome rt s it { table := some p, deeds := s.deeds ++ [.sleep] }
  | slept {p : P} {r : Reply} {table : RouteTable P} : s.running = true → it.askedToQuit = false →
      it.channelInit = true → s.table = some p → (∀ c leader, it.rpc ≠ .refused c leader) →
      Outcome rt s it { table, deeds := s.deeds ++ [.send p r, .sleep] }
  | granted {p : P} {r : Reply} : s.running = true → it.askedToQuit = false → it.channelInit = true →
      s.table = some p → (∀ c leader, it.rpc ≠ .refused c leader) → r.turnedDown = false →
      Outcome rt s it { table := some p, deeds := s.deeds ++ [.send p r] }
  | refused {p : P} {r : Reply} {c : Counter} {leader : Option P} : s.running = true → it.askedToQuit = false →
      it.channelInit = true → s.table = some p → it.rpc = .refused c leader → r.turnedDown = true →
      Outcome rt s it { table := some (if c.node then leader.getD p else p), deeds := s.deeds ++ [.send p r] }

theorem step_outcome (ht : PeerText rt parse) (s : Sender P) (it : Iteration P) :
    Outcome rt s it (s.step rt parse logEachRequest it) := by
  unfold step
  cases hr : s.running with
  | false => exact .stopped hr
  | true =>
    cases hq : it.askedToQuit with
    | true => exact .quit hr hq
    | false =>
      unfold body
      cases htab : s.table with
      | none =>
        refine .refresh hr hq htab ?_
        cases it.refreshed.1
        · exact Or.inr rfl
        · exact Or.inl rfl
      | some p =>
        cases hi : it.channelInit with
        | false => exact .noChannel hr htab hi
        | true =>
          cases hrpc : it.rpc with
          | failed => exact .slept hr hq hi htab (by simp [hrpc])
          | granted value =>
            cases logEachRequest with
            | true => exact .slept hr hq hi htab (by simp [hrpc])
            | false => exact .granted hr hq hi htab (by simp [hrpc]) rfl
          | refused c leader =>
            have hs : (c.redirect rt leader {}).success.getD false = false := by
              have h := refused_turnedDown rt c leader
              simpa [reply, Reply.turnedDown] using h
            have h : Outcome rt s it _ := .refused hr hq hi htab hrpc (refused_turnedDown rt c leader)
            simpa [afterReply, reply, hs, table_refused ht] using h

/-- The last deed of the running sender was a request that was turned down by the peer in its table. -/
def Hot (s : Sender P) : Prop :=
  s.running = true ∧ ∃ p r, s.table = some p ∧ s.deeds.getLast? = some (.send p r) ∧ r.turnedDown = true

/-- Only a refusal in place makes the sender hot. -/
private theorem hot_step (ht : PeerText rt parse) :
    (s.step rt parse logEachRequest it).Hot ↔ s.RefusedInPlace it := by
  have hsleep : ∀ {table : RouteTable P} {ds : List (Deed P)}, ¬ Hot { table, deeds := ds ++ [.sleep] } := by
    rintro table ds ⟨_, p, r, _, hl, _⟩
    simp at hl
  have hrefused : s.RefusedInPlace it → ∃ p c leader, s.table = some p ∧ it.rpc = .refused c leader :=
    fun ⟨_, _, _, p, c, leader, hp, hr, _⟩ => ⟨p, c, leader, hp, hr⟩
  obtain ⟨s', hs', hout⟩ : ∃ s', s.step rt parse logEachRequest it = s' ∧ Outcome rt s it s' :=
    ⟨_, rfl, step_outcome ht s it⟩
  rw [hs']
  cases hout with
  | stopped hr => simp [Hot, RefusedInPlace, hr]
  | quit hr hq => simp [Hot, RefusedInPlace, hq]
  | refresh hr hq htab hd =>
    have hn : ¬ s.RefusedInPlace it := by
      intro h
      obtain ⟨p, c, leader, hp, _⟩ := hrefused h
      rw [htab] at hp
      cases hp
    refine iff_of_false ?_ hn
    rintro ⟨_, p, r, _, hl, _⟩
    rcases hd with rfl | rfl <;> simp at hl
  | noChannel hr htab hi => exact iff_of_false hsleep fun h => by rw [h.2.2.1] at hi; cases hi
  | slept hr hq hi htab hno =>
    refine iff_of_false ?_ fun h => ?_
    · rintro ⟨_, p, r, _, hl, _⟩
      simp at hl
    · obtain ⟨p, c, leader, _, hrpc⟩ := hrefused h
      exact hno c leader hrpc
  | granted hr hq hi htab hno hd =>
    refine iff_of_false ?_ fun h => ?_
    · rintro ⟨_, p, r, _, hl, ht⟩
      simp only [List.getLast?_concat, Option.some.injEq, Deed.send.injEq] at hl
      rw [← hl.2, hd] at ht
      cases ht
    · obtain ⟨p, c, leader, _, hrpc⟩ := hrefused h
      exact hno c leader hrpc
  | @refused p r c leader hr hq hi htab hrpc hd =>
    -- the redirect leaves `p` in the table, or the next request goes to another peer
    constructor
    · rintro ⟨_, p', r', hp, hl, _⟩
      simp only [List.getLast?_concat, Option.some.injEq, Deed.send.injEq] at hl
      obtain ⟨rfl, rfl⟩ := hl
      refine ⟨hr, hq, hi, p, c, leader, htab, hrpc, ?_⟩
      cases hn : c.node with
      | false => exact Or.inl rfl
      | true =>
        cases leader with
        | none => exact Or.inr (Or.inl rfl)
        | some q =>
          simp only [hn, if_true, Option.getD_some] at hp
          exact Or.inr (Or.inr hp)
    · rintro ⟨_, _, _, p', c', leader', htab', hrpc', hplace⟩
      rw [htab] at htab'
      rw [hrpc] at hrpc'
      cases htab'
      cases hrpc'
      refine ⟨rfl, p, r, ?_, List.getLast?_concat, hd⟩
      rcases hplace with hn | rfl | rfl
      · simp [hn]
      · simp
      · simp

private theorem neverHammers_append {table : RouteTable P} {ds : List (Deed P)}
    (hds : ds.IsChain fun d d' => ¬ Hammer d d') : NeverHammers { table, deeds := s.deeds ++ ds } ↔
      s.NeverHammers ∧ ∀ x ∈ s.deeds.getLast?, ∀ y ∈ ds.head?, ¬ Hammer x y := by
  unfold NeverHammers
  rw [List.isChain_append]
  simp only [hds, true_and]

/-- A request goes to the peer in the table, so it hammers exactly when the sender is hot. -/
private theorem neverHammers_send {table : RouteTable P} {p : P} {r : Reply} {ds : List (Deed P)}
    (hds : (.send p r :: ds).IsChain fun d d' => ¬ Hammer d d') (hr : s.running = true) (htab : s.table = some p) :
    NeverHammers { table, deeds := s.deeds ++ .send p r :: ds } ↔ s.NeverHammers ∧ ¬ s.Hot := by
  rw [neverHammers_append hds]
  refine and_congr_right fun _ => ?_
  constructor
  · rintro h ⟨_, q, r', hq, hl, hd⟩
    rw [htab] at hq
    cases hq
    exact h _ hl _ rfl ⟨hd, rfl⟩
  · intro h x hx y hy hh
    cases hy
    cases x with
    | refresh | sleep => exact hh
    | send q r' =>
      obtain ⟨hd, rfl⟩ := hh
      exact h ⟨hr, p, r', htab, hx, hd⟩

private theorem neverHammers_other {table : RouteTable P} {d : Deed P} {ds : List (Deed P)}
    (hds : (d :: ds).IsChain fun d d' => ¬ Hammer d d') (hd : ∀ p r, d ≠ .send p r) :
    NeverHammers { table, deeds := s.deeds ++ d :: ds } ↔ s.NeverHammers := by
  rw [neverHammers_append hds]
  refine and_iff_left fun x _ y hy => ?_
  cases hy
  cases d with
  | send p r => exact absurd rfl (hd p r)
  | refresh | sleep => cases x <;> exact id

/-- A peer is hammered exactly when a hot sender sends. -/
private theorem neverHammers_step (ht : PeerText rt parse) :
    (s.step rt parse logEachRequest it).NeverHammers ↔ s.NeverHammers ∧ ¬ (s.Hot ∧ it.Sends) := by
  have hsleep : ∀ {p r}, List.IsChain (fun d d' => ¬ Hammer d d') [.send p r, (.sleep : Deed P)] := by
    intro p r
    simp [Hammer]
  obtain ⟨s', hs', hout⟩ : ∃ s', s.step rt parse logEachRequest it = s' ∧ Outcome rt s it s' :=
    ⟨_, rfl, step_outcome ht s it⟩
  rw [hs']
  cases hout with
  | stopped hr => simp [Hot, hr]
  | quit hr hq => simp [NeverHammers, Iteration.Sends, hq]
  | refresh hr hq htab hd =>
    have hn : ¬ (s.Hot ∧ it.Sends) := by
      rintro ⟨⟨_, p, r, hp, _⟩, _⟩
      rw [htab] at hp
      cases hp
    rw [and_iff_left hn]
    rcases hd with rfl | rfl
    · exact neverHammers_other (by simp) (by simp)
    · exact neverHammers_other (by simp [Hammer]) (by simp)
  | noChannel hr htab hi =>
    have hn : ¬ (s.Hot ∧ it.Sends) := fun h => by
      rw [h.2.2] at hi
      cases hi
    rw [and_iff_left hn]
    exact neverHammers_other (by simp) (by simp)
  | slept hr hq hi htab hno =>
    rw [neverHammers_send hsleep hr htab, and_iff_left (show it.Sends from ⟨hq, hi⟩)]
  | granted hr hq hi htab hno hd =>
    rw [neverHammers_send (by simp) hr htab, and_iff_left (show it.Sends from ⟨hq, hi⟩)]
  | refused hr hq hi htab hrpc hd =>
    rw [neverHammers_send (by simp) hr htab, and_iff_left (show it.Sends from ⟨hq, hi⟩)]

/-- Whatever happens, the client never hammers a peer that turned it down if and only if no iteration that is refused
in place is directly followed by one that sends. -/
theorem neverHammers_iff (rt : Runtime P) (parse : String → Option P) (logEachRequest : Bool)
    (ht : PeerText rt parse) (ω : Nat → Iteration P) (table : RouteTable P) :
    (∀ n, (after rt parse logEachRequest ω { table } n).NeverHammers) ↔
      ∀ n, (after rt parse logEachRequest ω { table } n).RefusedInPlace (ω n) → ¬ (ω (n + 1)).Sends := by
  have hhot : ∀ n, (after rt parse logEachRequest ω { table } (n + 1)).Hot ↔
      (after rt parse logEachRequest ω { table } n).RefusedInPlace (ω n) := fun n => hot_step ht
  constructor
  · intro h n hr hs
    exact ((neverHammers_step ht).1 (h (n + 2))).2 ⟨(hhot n).2 hr, hs⟩
  · intro h n
    induction n with
    | zero => exact List.IsChain.nil
    | succ n ih =>
      refine (neverHammers_step ht).2 ⟨ih, ?_⟩
      rintro ⟨hh, hs⟩
      -- a sender is not hot before its first iteration
      cases n with
      | zero =>
        obtain ⟨_, p, r, _, hl, _⟩ := hh
        cases hl
      | succ m => exact h m ((hhot m).1 hh) hs

def address : Bool → String
  | true => "127.0.1.1:8100:0"
  | false => "127.0.1.1:8101:0"

def parseAddress (text : String) : Option Bool :=
  if text = "127.0.1.1:8100:0" then some true
  else if text = "127.0.1.1:8101:0" then some false
  else none

private theorem peerText_address : PeerText (protobuf address) parseAddress :=
  ⟨by decide, by decide⟩

/-- The first peer names itself while it is not ready, then redirects to the second one, which grants the request. -/
def handOver : Nat → Iteration Bool
  | 0 => { rpc := .refused { node := true } (some false) }
  | 1 => { rpc := .granted 7 }
  | _ => { askedToQuit := true }

theorem neverHammers_handOver :
    (after (protobuf address) parseAddress false handOver { table := some true } 2).NeverHammers := by
  refine (neverHammers_iff (protobuf address) parseAddress false peerText_address handOver (some true)).2 ?_ 2
  rintro n ⟨_, hq, _, p, c, leader, htab, hrpc, hplace⟩ _
  match n with
  | 0 =>
    cases htab
    cases hrpc
    rcases hplace with h | h | h <;> cases h
  | 1 => cases hrpc
  | n + 2 => cases hq

/-- A peer that refuses because it knows no leader, twice in a row. -/
def noLeader : Nat → Iteration Bool := fun _ => { rpc := .refused { node := true } none }

theorem noLeader_hammers :
    (after (protobuf address) parseAddress false noLeader { table := some true } 2).deeds =
      [.send true (.answered ⟨some false, none, none⟩), .send true (.answered ⟨some false, none, none⟩)] ∧
    ¬ (after (protobuf address) parseAddress false noLeader { table := some true } 2).NeverHammers := by
  refine ⟨rfl, fun h => ?_⟩
  have h2 := (List.isChain_cons_cons.1 h).1
  exact h2 ⟨rfl, rfl⟩

end Sender

end LearnTogether
