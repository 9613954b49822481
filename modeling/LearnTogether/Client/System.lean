import LearnTogether.Client.Threads
import LearnTogether.Group.Tickets

/-!
# Client and servers together

The threads of `client.cpp` (`Client`), the servers with braft between them (`Group`), and the network.  A thread that
sends a request waits for it.  A request may arrive late, never, or more than once, as brpc sends it again when a
connection breaks; every arrival is a call of its own.  The thread gets the response of a call that its request has
become, or an error at any time.  Other clients may call the servers too.

The client's part of a run is a run of `Client` (`exec_client`), and a thread that waits for a call that was answered
can get its answer (`Inv.exists_answered`).  An addition that failed for the client may still be made, even twice.  But
what a thread is told to have added was added: the answers of one thread grow by what it adds at least, no two threads
get the same answer when they add something, and the counter has all of it (`tickets`).
-/

namespace LearnTogether

open Exec History

structure Sending (n : Nat) (P : Type) where
  thread : Fin n
  leader : P
  request : Request

/-- A response that a thread has got, for the request with the number `sending` and from the call `id`. -/
structure Receipt (n : Nat) (P : Type) where
  thread : Fin n
  sending : Nat
  id : P × Nat
  request : Request
  response : CounterResponse

/-- The value that a successful addition got. -/
def Receipt.ticket {n : Nat} {P : Type} (r : Receipt n P) : Option Int64 :=
  match r.request with
  | .fetchAdd _ => if r.response.success = some true then r.response.value else none
  | .get => none

structure System (n : Nat) (P : Type) where
  client : Client n P
  group : Group P := {}
  sendings : List (Sending n P) := []
  /-- The request that a thread waits for. -/
  current : Fin n → Option Nat := fun _ => none
  /-- The request that a call has come from. -/
  origin : P × Nat → Option Nat := fun _ => none
  receipts : List (Receipt n P) := []

/-- With `select` a thread sends a request, where `get` is what `fast_rand_less_than` leads to; with `deliver` the
request `i` arrives. -/
inductive SystemAct (n : Nat) (P : Type)
  | quit (j : Fin n)
  | select (j : Fin n) (channelInit get : Bool)
  | refreshed (j : Fin n) (ok : Bool) (table : RouteTable P)
  | failed (j : Fin n)
  | answered (j : Fin n) (id : P × Nat) (rpc : Rpc P)
  | deliver (i : Nat)
  | group (a : GroupAct P)

/-- The client's part of a step. -/
def SystemAct.move {n : Nat} {P : Type} : SystemAct n P → Option (Fin n × Move P)
  | .quit j => some (j, .quit)
  | .select j channelInit _ => some (j, .select channelInit)
  | .refreshed j ok table => some (j, .refreshed ok table)
  | .failed j => some (j, .reply .failed)
  | .answered j _ rpc => some (j, .reply rpc)
  | .deliver _ | .group _ => none

/-- The response that a call was answered with. -/
def Group.answer {P : Type} [DecidableEq P] (g : Group P) (id : P × Nat) : Option CounterResponse :=
  g.history.findSome? fun
    | .answer id' response => if id' = id then some response else none
    | _ => none

namespace System

variable {n : Nat} {P : Type} [DecidableEq P] (rt : Runtime P) (parse : String → Option P) (logEachRequest : Bool)
  (addedBy : Int64)

def start (n : Nat) (table : RouteTable P) : System n P := { client := .start n table }

def moveThread (s : System n P) (j : Fin n) (m : Move P) : Option (Client n P) :=
  s.client.step rt parse logEachRequest (j, m)

def step (s : System n P) : SystemAct n P → Option (System n P)
  | .quit j => (s.moveThread rt parse logEachRequest j .quit).map fun client => { s with client }
  | .select j channelInit get => do
    let client ← s.moveThread rt parse logEachRequest j (.select channelInit)
    match client.threads j with
    | .asking leader =>
      some { s with
        client
        sendings := s.sendings ++ [⟨j, leader, if get then .get else .fetchAdd ⟨addedBy⟩⟩]
        current := Function.update s.current j (some s.sendings.length) }
    | _ => some { s with client }
  | .refreshed j ok table =>
    (s.moveThread rt parse logEachRequest j (.refreshed ok table)).map fun client => { s with client }
  | .failed j => (s.moveThread rt parse logEachRequest j (.reply .failed)).map fun client =>
    { s with client, current := Function.update s.current j none }
  | .answered j id rpc => do
    let i ← s.current j
    let sending ← s.sendings[i]?
    let response ← s.group.answer id
    if s.origin id = some i ∧ Sender.reply rt rpc = .answered response then
      (s.moveThread rt parse logEachRequest j (.reply rpc)).map fun client =>
        { s with
          client
          current := Function.update s.current j none
          receipts := s.receipts ++ [⟨j, i, id, sending.request, response⟩] }
    else none
  | .deliver i => do
    let sending ← s.sendings[i]?
    let id := (sending.leader, (s.group.servers sending.leader).nextCall)
    (s.group.step rt (.node sending.leader (.invoke sending.request))).map fun group =>
      { s with group, origin := Function.update s.origin id (some i) }
  | .group a => (s.group.step rt a).map fun group => { s with group }

end System

/-- An arrival is recorded in the history. -/
private theorem Group.history_invoke {P : Type} [DecidableEq P] {rt : Runtime P} {g g' : Group P} {p : P}
    {request : Request} (h : g.step rt (.node p (.invoke request)) = some g') :
    g'.history = g.history ++ [.invoke (p, (g.servers p).nextCall) request g.log.length] := by
  obtain ⟨-, s', -, rfl⟩ := step_node h
  rfl

/-- Every complete response is one that the client reckons with. -/
private theorem CounterResponse.Complete.exists_rpc {P : Type} {rt : Runtime P} {response : CounterResponse}
    (h : response.Complete rt) : ∃ rpc : Rpc P, Sender.reply rt rpc = .answered response := by
  obtain ⟨success, value, redirect⟩ := response
  rcases h with ⟨hsucc, hval, hred⟩ | ⟨hsucc, hval, hred⟩
  · obtain ⟨v, hv⟩ := Option.isSome_iff_exists.1 hval
    dsimp only at hsucc hv hred
    subst hsucc hv hred
    exact ⟨.granted v, rfl⟩
  · dsimp only at hsucc hval hred
    subst hsucc hval
    cases redirect with
    | none => exact ⟨.refused {} none, rfl⟩
    | some text =>
      obtain ⟨p, rfl⟩ := hred text rfl
      exact ⟨.refused { node := true } (some p), rfl⟩

namespace System

variable {n : Nat} {P : Type} [DecidableEq P] {rt : Runtime P} {parse : String → Option P} {logEachRequest : Bool}
  {addedBy : Int64} {s t : System n P}

inductive Outcome (rt : Runtime P) (addedBy : Int64) (s : System n P) : System n P → Prop
  | moves {client : Client n P} {j : Fin n} {w : Worker P} : client.threads = Function.update s.client.threads j w →
      (∀ leader, s.client.threads j ≠ .asking leader) → Outcome rt addedBy s { s with client }
  | sends {client : Client n P} {j : Fin n} {leader : P} {request : Request} :
      client.threads = Function.update s.client.threads j (.asking leader) →
      request = .get ∨ request = .fetchAdd ⟨addedBy⟩ →
      Outcome rt addedBy s { s with
        client
        sendings := s.sendings ++ [⟨j, leader, request⟩]
        current := Function.update s.current j (some s.sendings.length) }
  | fails {client : Client n P} {j : Fin n} {w : Worker P} : client.threads = Function.update s.client.threads j w →
      Outcome rt addedBy s { s with client, current := Function.update s.current j none }
  | receives {client : Client n P} {j : Fin n} {w : Worker P} {i : Nat} {sending : Sending n P} {id : P × Nat}
      {response : CounterResponse} : client.threads = Function.update s.client.threads j w →
      s.current j = some i → s.sendings[i]? = some sending → Event.answer id response ∈ s.group.history →
      s.origin id = some i →
      Outcome rt addedBy s { s with
        client
        current := Function.update s.current j none
        receipts := s.receipts ++ [⟨j, i, id, sending.request, response⟩] }
  | delivers {group : Group P} {i : Nat} {sending : Sending n P} : s.sendings[i]? = some sending →
      s.group.step rt (.node sending.leader (.invoke sending.request)) = some group →
      Outcome rt addedBy s { s with
        group
        origin := Function.update s.origin (sending.leader, (s.group.servers sending.leader).nextCall) (some i) }
  | group {a : GroupAct P} {group : Group P} : s.group.step rt a = some group → Outcome rt addedBy s { s with group }

private theorem mem_of_answer {g : Group P} {id : P × Nat} {response : CounterResponse}
    (h : g.answer id = some response) : Event.answer id response ∈ g.history := by
  obtain ⟨e, he, hr⟩ := List.exists_of_findSome?_eq_some h
  cases e with
  | invoke id' request k => cases hr
  | propose id' => cases hr
  | answer id' response' =>
    by_cases hid : id' = id
    · simp only [if_pos hid, Option.some.injEq] at hr
      rw [← hid, ← hr]
      exact he
    · simp [hid] at hr

theorem step_outcome {a : SystemAct n P} (h : s.step rt parse logEachRequest addedBy a = some t) :
    Outcome rt addedBy s t := by
  cases a with
  | quit j =>
    obtain ⟨client, hc, rfl⟩ := Option.map_eq_some_iff.1 h
    obtain ⟨⟨w, hw⟩, hask⟩ := Client.step_threads hc
    exact .moves hw (hask nofun)
  | select j channelInit get =>
    obtain ⟨client, hc, h⟩ := Option.bind_eq_some_iff.1 h
    obtain ⟨⟨w, hw⟩, hask⟩ := Client.step_threads hc
    have hj : client.threads j = w := by rw [hw, Function.update_self]
    cases w with
    | asking leader =>
      simp only [hj, Option.some.injEq] at h
      refine h ▸ .sends hw ?_
      cases get with
      | true => exact Or.inl rfl
      | false => exact Or.inr rfl
    | top | refreshing | ended =>
      simp only [hj, Option.some.injEq] at h
      exact h ▸ .moves hw (hask nofun)
  | refreshed j ok table =>
    obtain ⟨client, hc, rfl⟩ := Option.map_eq_some_iff.1 h
    obtain ⟨⟨w, hw⟩, hask⟩ := Client.step_threads hc
    exact .moves hw (hask nofun)
  | failed j =>
    obtain ⟨client, hc, rfl⟩ := Option.map_eq_some_iff.1 h
    obtain ⟨⟨w, hw⟩, -⟩ := Client.step_threads hc
    exact .fails hw
  | answered j id rpc =>
    obtain ⟨i, hi, h⟩ := Option.bind_eq_some_iff.1 h
    obtain ⟨sending, hsend, h⟩ := Option.bind_eq_some_iff.1 h
    obtain ⟨response, hans, h⟩ := Option.bind_eq_some_iff.1 h
    by_cases ho : s.origin id = some i ∧ Sender.reply rt rpc = .answered response
    · rw [if_pos ho] at h
      obtain ⟨client, hc, rfl⟩ := Option.map_eq_some_iff.1 h
      obtain ⟨⟨w, hw⟩, -⟩ := Client.step_threads hc
      exact .receives hw hi hsend (mem_of_answer hans) ho.1
    · rw [if_neg ho] at h
      cases h
  | deliver i =>
    obtain ⟨sending, hsend, h⟩ := Option.bind_eq_some_iff.1 h
    obtain ⟨group, hg, rfl⟩ := Option.map_eq_some_iff.1 h
    exact .delivers hsend hg
  | group a =>
    obtain ⟨group, hg, rfl⟩ := Option.map_eq_some_iff.1 h
    exact .group hg

private theorem step_client {a : SystemAct n P} (h : s.step rt parse logEachRequest addedBy a = some t) :
    match a.move with
    | some m => s.client.step rt parse logEachRequest m = some t.client
    | none => t.client = s.client := by
  cases a with
  | quit j | refreshed j ok table | failed j =>
    obtain ⟨client, hc, rfl⟩ := Option.map_eq_some_iff.1 h
    exact hc
  | select j channelInit get =>
    obtain ⟨client, hc, h⟩ := Option.bind_eq_some_iff.1 h
    cases hj : client.threads j with
    | asking leader =>
      simp only [hj, Option.some.injEq] at h
      exact h ▸ hc
    | top | refreshing | ended =>
      simp only [hj, Option.some.injEq] at h
      exact h ▸ hc
  | answered j id rpc =>
    obtain ⟨i, hi, h⟩ := Option.bind_eq_some_iff.1 h
    obtain ⟨sending, hsend, h⟩ := Option.bind_eq_some_iff.1 h
    obtain ⟨response, hans, h⟩ := Option.bind_eq_some_iff.1 h
    by_cases ho : s.origin id = some i ∧ Sender.reply rt rpc = .answered response
    · rw [if_pos ho] at h
      obtain ⟨client, hc, rfl⟩ := Option.map_eq_some_iff.1 h
      exact hc
    · rw [if_neg ho] at h
      cases h
  | deliver i =>
    obtain ⟨sending, hsend, h⟩ := Option.bind_eq_some_iff.1 h
    obtain ⟨group, hg, rfl⟩ := Option.map_eq_some_iff.1 h
    rfl
  | group a =>
    obtain ⟨group, hg, rfl⟩ := Option.map_eq_some_iff.1 h
    rfl

/-- The client's part of a run is a run of `Client`. -/
theorem exec_client {as : List (SystemAct n P)} (h : exec (step rt parse logEachRequest addedBy) s as = some t) :
    exec (Client.step rt parse logEachRequest) s.client (as.filterMap SystemAct.move) = some t.client := by
  induction as generalizing s with
  | nil =>
    obtain rfl : s = t := by simpa using h
    rfl
  | cons a as ih =>
    obtain ⟨u, hu, h⟩ := exec_cons_some.1 h
    have hclient := step_client hu
    cases hm : a.move with
    | none =>
      rw [hm] at hclient
      rw [List.filterMap_cons_none hm, ← hclient]
      exact ih h
    | some m =>
      rw [hm] at hclient
      rw [List.filterMap_cons_some hm]
      exact exec_cons_some.2 ⟨u.client, hclient, ih h⟩

/-! ### What a response says -/

/-- What is known of requests, calls and responses. -/
structure Inv (rt : Runtime P) (addedBy : Int64) (s : System n P) : Prop where
  reachable : Reachable (Group.step rt) .init s.group
  requests : ∀ sending ∈ s.sendings, sending.request = .get ∨ sending.request = .fetchAdd ⟨addedBy⟩
  waits : ∀ {j i}, s.current j = some i →
    ∃ sending, s.sendings[i]? = some sending ∧ sending.thread = j ∧ s.client.threads j = .asking sending.leader
  origin : ∀ {id i}, s.origin id = some i →
    ∃ sending k, s.sendings[i]? = some sending ∧ Event.invoke id sending.request k ∈ s.group.history
  receipts : ∀ r ∈ s.receipts, s.origin r.id = some r.sending ∧ Event.answer r.id r.response ∈ s.group.history ∧
    ∃ sending, s.sendings[r.sending]? = some sending ∧ sending.request = r.request
  /-- A thread does not wait for what it has got. -/
  fresh : ∀ {j i}, s.current j = some i → ∀ r ∈ s.receipts, r.sending ≠ i
  /-- What a thread waits for was invoked after all that it has got was answered. -/
  later : ∀ {j i}, s.current j = some i → ∀ {id}, s.origin id = some i → ∀ r ∈ s.receipts, r.thread = j →
    ∃ request k, Precedes s.group.history (.answer r.id r.response) (.invoke id request k)
  ordered : s.receipts.Pairwise fun a b => a.sending ≠ b.sending ∧ (a.thread = b.thread →
    ∃ request k, Precedes s.group.history (.answer a.id a.response) (.invoke b.id request k))

private theorem Inv.grow (hs : Inv rt addedBy s) {group : Group P} {l : List (Event P)}
    (hreach : Reachable (Group.step rt) .init group) (hh : group.history = s.group.history ++ l) :
    Inv rt addedBy { s with group } where
  reachable := hreach
  requests := hs.requests
  waits := hs.waits
  origin ho := by
    obtain ⟨sending, k, hi, hk⟩ := hs.origin ho
    exact ⟨sending, k, hi, by rw [hh]; exact List.mem_append_left _ hk⟩
  receipts r hr := by
    obtain ⟨ho, ha, hi⟩ := hs.receipts r hr
    exact ⟨ho, by rw [hh]; exact List.mem_append_left _ ha, hi⟩
  fresh := hs.fresh
  later hj _ ho r hr hthread := by
    obtain ⟨request, k, hp⟩ := hs.later hj ho r hr hthread
    exact ⟨request, k, by rw [hh]; exact hp.append l⟩
  ordered := by
    refine hs.ordered.imp fun hab => ⟨hab.1, fun hthread => ?_⟩
    obtain ⟨request, k, hp⟩ := hab.2 hthread
    exact ⟨request, k, by rw [hh]; exact hp.append l⟩

/-- A thread that waits stays where it is while others move. -/
private theorem Inv.moves (hs : Inv rt addedBy s) {client : Client n P}
    (hw : ∀ {j i leader}, s.current j = some i → s.client.threads j = .asking leader →
      client.threads j = .asking leader) : Inv rt addedBy { s with client } where
  reachable := hs.reachable
  requests := hs.requests
  waits hj := by
    obtain ⟨sending, hi, hthread, hask⟩ := hs.waits hj
    exact ⟨sending, hi, hthread, hw hj hask⟩
  origin := hs.origin
  receipts := hs.receipts
  fresh := hs.fresh
  later := hs.later
  ordered := hs.ordered

/-- The thread `j` does not wait any more. -/
private theorem Inv.stops (hs : Inv rt addedBy s) (j : Fin n) :
    Inv rt addedBy { s with current := Function.update s.current j none } := by
  have hold : ∀ {k i}, Function.update s.current j none k = some i → s.current k = some i := by
    intro k i hk
    by_cases hkj : k = j
    · rw [hkj, Function.update_self] at hk
      cases hk
    · rwa [Function.update_of_ne hkj] at hk
  exact ⟨hs.reachable, hs.requests, fun hk => hs.waits (hold hk), hs.origin, hs.receipts,
    fun hk => hs.fresh (hold hk), fun hk => hs.later (hold hk), hs.ordered⟩

private theorem Inv.sends (hs : Inv rt addedBy s) {client : Client n P} {j : Fin n} {leader : P} {request : Request}
    (hw : client.threads = Function.update s.client.threads j (.asking leader))
    (hreq : request = .get ∨ request = .fetchAdd ⟨addedBy⟩) :
    Inv rt addedBy { s with
      client
      sendings := s.sendings ++ [⟨j, leader, request⟩]
      current := Function.update s.current j (some s.sendings.length) } := by
  have hkeep : ∀ {i : Nat} {sending : Sending n P}, s.sendings[i]? = some sending →
      (s.sendings ++ [⟨j, leader, request⟩])[i]? = some sending := by
    intro i sending hi
    rw [List.getElem?_append_left (List.getElem?_eq_some_iff.1 hi).1]
    exact hi
  -- nothing is known yet of the new number
  have hnew : ∀ {id}, s.origin id ≠ some s.sendings.length := by
    intro id ho
    obtain ⟨sending, k, hi, -⟩ := hs.origin ho
    exact absurd (List.getElem?_eq_some_iff.1 hi).1 (Nat.lt_irrefl _)
  have hcases : ∀ {k i}, Function.update s.current j (some s.sendings.length) k = some i →
      (k = j ∧ i = s.sendings.length) ∨ (k ≠ j ∧ s.current k = some i) := by
    intro k i hk
    by_cases hkj : k = j
    · rw [hkj, Function.update_self, Option.some.injEq] at hk
      exact Or.inl ⟨hkj, hk.symm⟩
    · rw [Function.update_of_ne hkj] at hk
      exact Or.inr ⟨hkj, hk⟩
  refine ⟨hs.reachable, ?_, ?_, ?_, ?_, ?_, ?_, hs.ordered⟩
  · intro sending hm
    rcases List.mem_append.1 hm with hm | hm
    · exact hs.requests sending hm
    · rw [List.mem_singleton.1 hm]
      exact hreq
  · intro k i hk
    rcases hcases hk with ⟨rfl, rfl⟩ | ⟨hkj, hk⟩
    · exact ⟨⟨k, leader, request⟩, List.getElem?_concat_length, rfl, by rw [hw, Function.update_self]⟩
    · obtain ⟨sending, hi, hthread, hask⟩ := hs.waits hk
      exact ⟨sending, hkeep hi, hthread, by rw [hw, Function.update_of_ne hkj, hask]⟩
  · intro id i ho
    obtain ⟨sending, k, hi, hk⟩ := hs.origin ho
    exact ⟨sending, k, hkeep hi, hk⟩
  · intro r hr
    obtain ⟨ho, ha, sending, hi, hsend⟩ := hs.receipts r hr
    exact ⟨ho, ha, sending, hkeep hi, hsend⟩
  · intro k i hk r hr
    rcases hcases hk with ⟨-, rfl⟩ | ⟨-, hk⟩
    · intro heq
      exact hnew (heq ▸ (hs.receipts r hr).1)
    · exact hs.fresh hk r hr
  · intro k i hk id ho
    rcases hcases hk with ⟨-, rfl⟩ | ⟨-, hk⟩
    · exact absurd ho hnew
    · exact hs.later hk ho

private theorem Inv.receives (hs : Inv rt addedBy s) {j : Fin n} {i : Nat} {sending : Sending n P} {id : P × Nat}
    {response : CounterResponse} (hj : s.current j = some i) (hi : s.sendings[i]? = some sending)
    (ha : Event.answer id response ∈ s.group.history) (ho : s.origin id = some i) :
    Inv rt addedBy { s with
      current := Function.update s.current j none
      receipts := s.receipts ++ [⟨j, i, id, sending.request, response⟩] } := by
  have hcases : ∀ {k i'}, Function.update s.current j none k = some i' → k ≠ j ∧ s.current k = some i' := by
    intro k i' hk
    by_cases hkj : k = j
    · rw [hkj, Function.update_self] at hk
      cases hk
    · rw [Function.update_of_ne hkj] at hk
      exact ⟨hkj, hk⟩
  refine ⟨hs.reachable, hs.requests, fun hk => hs.waits (hcases hk).2, hs.origin, ?_, ?_, ?_, ?_⟩
  · intro r hr
    rcases List.mem_append.1 hr with hr | hr
    · exact hs.receipts r hr
    · rw [List.mem_singleton.1 hr]
      exact ⟨ho, ha, sending, hi, rfl⟩
  · intro k i' hk r hr
    obtain ⟨hkj, hk⟩ := hcases hk
    rcases List.mem_append.1 hr with hr | hr
    · exact hs.fresh hk r hr
    · -- a request is sent by one thread
      rw [List.mem_singleton.1 hr]
      rintro rfl
      obtain ⟨sending', hi', hthread', -⟩ := hs.waits hk
      obtain ⟨sending'', hi'', hthread'', -⟩ := hs.waits hj
      rw [hi'] at hi''
      cases hi''
      exact hkj (hthread'.symm.trans hthread'')
  · intro k i' hk id' ho' r hr hthread
    obtain ⟨hkj, hk⟩ := hcases hk
    rcases List.mem_append.1 hr with hr | hr
    · exact hs.later hk ho' r hr hthread
    · rw [List.mem_singleton.1 hr] at hthread
      exact absurd hthread.symm hkj
  · refine List.pairwise_append.2 ⟨hs.ordered, List.pairwise_singleton .., fun a ha' b hb => ?_⟩
    rw [List.mem_singleton.1 hb]
    exact ⟨hs.fresh hj a ha', fun hthread => hs.later hj ho a ha' hthread⟩

private theorem Inv.delivers (hs : Inv rt addedBy s) {group : Group P} {i : Nat} {sending : Sending n P}
    (hi : s.sendings[i]? = some sending)
    (hg : s.group.step rt (.node sending.leader (.invoke sending.request)) = some group) :
    Inv rt addedBy { s with
      group
      origin := Function.update s.origin (sending.leader, (s.group.servers sending.leader).nextCall) (some i) } := by
  have hreach := hs.reachable.tail hg
  have hh := Group.history_invoke hg
  have hgrow := hs.grow hreach hh
  -- the number of the call was not used before
  have hnone : s.origin (sending.leader, (s.group.servers sending.leader).nextCall) = none := by
    by_contra hne
    obtain ⟨i', ho⟩ := Option.ne_none_iff_exists'.1 hne
    obtain ⟨sending', k, -, hk⟩ := hs.origin ho
    exact absurd ((Group.reachable_recorded hs.reachable).numbered _ _ _ hk) (Nat.lt_irrefl _)
  generalize (sending.leader, (s.group.servers sending.leader).nextCall) = new at hh hnone
  have hcases : ∀ {id i'}, Function.update s.origin new (some i) id = some i' →
      (id = new ∧ i' = i) ∨ s.origin id = some i' := by
    intro id i' ho
    by_cases hid : id = new
    · rw [hid, Function.update_self, Option.some.injEq] at ho
      exact Or.inl ⟨hid, ho.symm⟩
    · rw [Function.update_of_ne hid] at ho
      exact Or.inr ho
  refine ⟨hreach, hs.requests, hs.waits, ?_, ?_, hs.fresh, ?_, hgrow.ordered⟩
  · intro id i' ho
    rcases hcases ho with ⟨rfl, rfl⟩ | ho
    · exact ⟨sending, s.group.log.length, hi, by rw [hh]; exact List.mem_append_right _ (List.mem_singleton_self _)⟩
    · exact hgrow.origin ho
  · intro r hr
    obtain ⟨ho, ha, hsend⟩ := hgrow.receipts r hr
    have hne : r.id ≠ new := by
      rintro rfl
      rw [ho] at hnone
      cases hnone
    exact ⟨(Function.update_of_ne hne ..).trans ho, ha, hsend⟩
  · intro j i' hj id ho r hr hthread
    rcases hcases ho with ⟨rfl, rfl⟩ | ho
    · -- the new call comes after everything
      refine ⟨sending.request, s.group.log.length, ?_⟩
      rw [hh]
      exact precedes_concat.2 (Or.inr ⟨(hs.receipts r hr).2.1, rfl⟩)
    · exact hgrow.later hj ho r hr hthread

private theorem inv_outcome (h : Outcome rt addedBy s t) (hs : Inv rt addedBy s) : Inv rt addedBy t := by
  -- the thread `j` has moved
  have hothers : ∀ {client : Client n P} {j : Fin n} {w : Worker P},
      client.threads = Function.update s.client.threads j w → ∀ {k leader}, k ≠ j →
        s.client.threads k = .asking leader → client.threads k = .asking leader := by
    intro client j w hw k leader hkj hask
    rw [hw, Function.update_of_ne hkj, hask]
  have hstopped : ∀ {j k : Fin n} {i : Nat}, Function.update s.current j none k = some i → k ≠ j := by
    rintro j k i hk rfl
    rw [Function.update_self] at hk
    cases hk
  cases h with
  | moves hw hidle =>
    refine hs.moves fun hj hask => hothers hw ?_ hask
    rintro rfl
    exact hidle _ hask
  | sends hw hreq => exact hs.sends hw hreq
  | fails hw => exact (hs.stops _).moves fun hj hask => hothers hw (hstopped hj) hask
  | receives hw hj hi ha ho => exact (hs.receives hj hi ha ho).moves fun hk hask => hothers hw (hstopped hk) hask
  | delivers hi hg => exact hs.delivers hi hg
  | group hg =>
    obtain ⟨l, hl⟩ := (Group.step_change hg).history
    exact hs.grow (hs.reachable.tail hg) hl

private theorem inv_of_exec {table : RouteTable P} {as : List (SystemAct n P)}
    (h : exec (step rt parse logEachRequest addedBy) (start n table) as = some s) : Inv rt addedBy s := by
  refine exec_induction_trace (I := fun _ s => Inv rt addedBy s) ?_ ?_ h
  · exact ⟨.refl _, by simp [start], by simp [start], by simp [start], by simp [start], by simp [start],
      by simp [start], by simp [start]⟩
  · intro as s a t _ ha hs
    exact inv_outcome (step_outcome ha) hs

/-- A thread that waits can get the answer of any call that its request has become. -/
theorem Inv.exists_answered (hs : Inv rt addedBy s) {j : Fin n} {i : Nat} (hj : s.current j = some i) {id : P × Nat}
    (ho : s.origin id = some i) {response : CounterResponse} (hans : s.group.answer id = some response) :
    ∃ rpc t, s.step rt parse logEachRequest addedBy (.answered j id rpc) = some t ∧
      t.receipts.map Receipt.response = s.receipts.map Receipt.response ++ [response] := by
  obtain ⟨rpc, hrpc⟩ := (Group.complete_of_answer hs.reachable (mem_of_answer hans)).exists_rpc
  obtain ⟨sending, hi, hthread, hask⟩ := hs.waits hj
  obtain ⟨client, hc⟩ : ∃ client, s.client.step rt parse logEachRequest (j, .reply rpc) = some client := by
    simp only [Client.step, hask]
    exact ⟨_, rfl⟩
  refine ⟨rpc, { s with
    client
    current := Function.update s.current j none
    receipts := s.receipts ++ [⟨j, i, id, sending.request, response⟩] }, ?_, by simp⟩
  simp [step, hj, hi, hans, ho, hrpc, moveThread, hc]

/-! ### The tickets -/

/-- What the threads can rely on. -/
structure Tickets (addedBy : Int64) (s : System n P) : Prop where
  /-- The tickets of a thread grow by what it adds at least. -/
  grow : s.receipts.Pairwise fun a b => a.thread = b.thread → ∀ v ∈ a.ticket, ∀ w ∈ b.ticket,
    v.toInt + addedBy.toInt ≤ w.toInt
  /-- Unless they add nothing, no ticket is given out twice, to whatever threads. -/
  distinct : 0 < addedBy.toInt → s.receipts.Pairwise fun a b => ∀ v ∈ a.ticket, ∀ w ∈ b.ticket, v ≠ w
  /-- A node that has applied the whole log has all additions that the threads know of. -/
  counted : ∀ p, (s.group.servers p).applied = s.group.log.length →
    s.receipts.countP (fun r => r.ticket.isSome) * addedBy.toInt ≤ (s.group.servers p).counter.value.toInt

/-- A ticket belongs to an addition that has succeeded. -/
private theorem Inv.succeeded (hs : Inv rt addedBy s) {r : Receipt n P} (hr : r ∈ s.receipts) {v : Int64}
    (hv : v ∈ r.ticket) : s.group.Succeeded r.id ⟨addedBy⟩ r.response ∧ r.response.value = some v := by
  obtain ⟨ho, ha, sending, hi, hreq⟩ := hs.receipts r hr
  obtain ⟨sending', k, hi', hk⟩ := hs.origin ho
  rw [hi] at hi'
  cases hi'
  unfold Receipt.ticket at hv
  rcases hs.requests sending (List.mem_of_getElem? hi) with hget | hadd
  · rw [← hreq, hget] at hv
    cases hv
  · rw [← hreq, hadd] at hv
    rw [hadd] at hk
    by_cases hsucc : r.response.success = some true
    · simp only [if_pos hsucc] at hv
      exact ⟨⟨⟨k, hk⟩, ha, hsucc⟩, hv⟩
    · simp only [if_neg hsucc] at hv
      cases hv

/-- Different requests became different calls. -/
private theorem Inv.id_ne (hs : Inv rt addedBy s) {a b : Receipt n P} (ha : a ∈ s.receipts) (hb : b ∈ s.receipts)
    (hab : a.sending ≠ b.sending) : a.id ≠ b.id := by
  intro heq
  have hoa := (hs.receipts a ha).1
  have hob := (hs.receipts b hb).1
  rw [heq, hob, Option.some.injEq] at hoa
  exact hab hoa.symm

/-- The additions that the threads know of are among those in the log. -/
private theorem Inv.known_subperm (hl : rt.Lossless) (hs : Inv rt addedBy s) :
    ((s.receipts.filter fun r => r.ticket.isSome).map fun r => (r.id, addedBy)).Subperm (s.group.added rt) := by
  refine List.subperm_of_subset ?_ fun p hp => ?_
  · have hids : s.receipts.Pairwise fun a b => (a.id, addedBy) ≠ (b.id, addedBy) := by
      refine hs.ordered.imp_of_mem fun ha hb hab heq => ?_
      exact hs.id_ne ha hb hab.1 (Prod.ext_iff.1 heq).1
    exact List.pairwise_map.2 (hids.filter _)
  · obtain ⟨r, hr, rfl⟩ := List.mem_map.1 hp
    obtain ⟨hr, hsome⟩ := List.mem_filter.1 hr
    obtain ⟨v, hv⟩ := Option.isSome_iff_exists.1 hsome
    exact (hs.succeeded hr hv).1.mem_added hl hs.reachable

/-- In every run of client, servers and network, while nothing is negative and nothing wraps: the tickets of a thread
grow, no ticket is given out twice if `added_by` is positive, and the counter has all of them. -/
theorem tickets (hl : rt.Lossless) {table : RouteTable P} {as : List (SystemAct n P)}
    (h : exec (step rt parse logEachRequest addedBy) (start n table) as = some s) (hn : s.group.NoneNegative)
    (hsum : ((s.group.deltas rt).map Int64.toInt).sum < 2 ^ 63) : Tickets addedBy s := by
  have hs := inv_of_exec h
  have hr := Group.reachable_recorded hs.reachable
  refine ⟨?_, fun h0 => ?_, fun p happ => ?_⟩
  · refine hs.ordered.imp_of_mem fun {a b} ha hb hab hthread v hv w hw => ?_
    obtain ⟨hsa, hva⟩ := hs.succeeded ha hv
    obtain ⟨hsb, hvb⟩ := hs.succeeded hb hw
    obtain ⟨request, k, hp⟩ := hab.2 hthread
    obtain ⟨k', hk'⟩ := hsb.invoked
    obtain ⟨rfl, -⟩ := hr.once _ _ _ _ _ hp.mem_right hk'
    have hlt := hsa.index_lt hl hs.reachable hsb hp
    exact hsa.add_le hl hs.reachable hn hsum hsb hlt hva hvb
  · refine hs.ordered.imp_of_mem fun {a b} ha hb hab v hv w hw heq => ?_
    obtain ⟨hsa, hva⟩ := hs.succeeded ha hv
    obtain ⟨hsb, hvb⟩ := hs.succeeded hb hw
    have hindex : s.group.index a.id ≠ s.group.index b.id := by
      intro hi
      have hoa := (hsa.result hl hs.reachable).1
      rw [hi] at hoa
      exact hs.id_ne ha hb hab.1 (hoa.owner_unique (hsb.result hl hs.reachable).1)
    subst heq
    rcases Nat.lt_or_gt_of_ne hindex with hlt | hlt
    · have hle := hsa.add_le hl hs.reachable hn hsum hsb hlt hva hvb
      dsimp only at hle
      omega
    · have hle := hsb.add_le hl hs.reachable hn hsum hsa hlt hvb hva
      dsimp only at hle
      omega
  · have htotal : Group.total ((s.receipts.filter fun r => r.ticket.isSome).map fun r => (r.id, addedBy)) =
        s.receipts.countP (fun r => r.ticket.isSome) * addedBy.toInt := by
      rw [List.countP_eq_length_filter]
      exact Group.total_map_const ..
    rw [← Group.total_added] at hsum
    rw [← htotal, Group.value_of_applied hl hs.reachable hn hsum happ]
    refine Group.total_le (hs.known_subperm hl) fun p hp => ?_
    obtain ⟨e, he, rfl⟩ := List.mem_map.1 hp
    obtain ⟨request, k, hk, hd⟩ := Group.delta_of_mem hl hr he
    rw [hd]
    exact hn _ _ _ hk

/-- A request of the node 1 up to its answer, when it has arrived as the call `id`. -/
def serveOne (n id : Nat) : List (SystemAct n Nat) :=
  let acts : List (GroupAct Nat) :=
    Group.on 1 [.call id .test, .call id (.serialize true), .call id .apply, .call id .leave] ++ [.commit 0] ++
      Group.on 1 (Server.applyOne (serializeValue 1) (some id) ++ [.call id (.run none), .call id .finish])
  acts.map .group

/-- The first request of the thread `j` arrives twice, and the thread gets the answer to the second call.  Then the
thread `k` has its turn, and the thread `j` again. -/
def arrivesTwice (j k : Fin n) : List (SystemAct n Nat) :=
  (Group.on 1 Server.startUp ++ Group.lead 1 1).map .group ++ [.select j true false, .deliver 0, .deliver 0] ++
    serveOne n 0 ++ serveOne n 1 ++ [.answered j (1, 1) (.granted 1), .select k true false, .deliver 1] ++
    serveOne n 2 ++ [.answered k (1, 2) (.granted 2), .select j true false, .deliver 2] ++
    serveOne n 3 ++ [.answered j (1, 3) (.granted 3)]

theorem tickets_arrivesTwice : ∃ s,
    exec (step (protobuf Nat.repr) (fun _ => none) false 1) (start 2 (some 1)) (arrivesTwice 0 1) = some s ∧
      s.receipts.map (fun r => (r.thread, r.ticket)) = [(0, some 1), (1, some 2), (0, some 3)] ∧
      s.group.deltas (protobuf Nat.repr) = [1, 1, 1, 1] ∧ Tickets 1 s := by
  obtain ⟨s, hs, hreceipts, hdeltas, hasked⟩ : ∃ s,
      exec (step (protobuf Nat.repr) (fun _ => none) false 1) (start 2 (some 1)) (arrivesTwice 0 1) = some s ∧
        s.receipts.map (fun r => (r.thread, r.ticket)) = [(0, some 1), (1, some 2), (0, some 3)] ∧
        s.group.deltas (protobuf Nat.repr) = [1, 1, 1, 1] ∧
        s.group.requested = [((1, 0), 1), ((1, 1), 1), ((1, 2), 1), ((1, 3), 1)] :=
    ⟨_, rfl, rfl, rfl, rfl⟩
  have hn : s.group.NoneNegative := by
    intro id request k hk
    have hm : (id, request.value) ∈ s.group.requested := Group.mem_requested.2 ⟨request, k, hk, rfl⟩
    rw [hasked] at hm
    simp only [List.mem_cons, Prod.mk.injEq, List.not_mem_nil, or_false] at hm
    rcases hm with ⟨-, hv⟩ | ⟨-, hv⟩ | ⟨-, hv⟩ | ⟨-, hv⟩ <;> rw [hv] <;> decide
  exact ⟨s, hs, hreceipts, hdeltas,
    tickets (protobuf_lossless Nat.repr) hs hn (by rw [hdeltas]; decide)⟩

end System

end LearnTogether
