import LearnTogether.Base.WrapMultiples
import LearnTogether.Group.Linear
import Mathlib.Data.List.Nodup

/-!
# The counter as a source of tickets

All clients of `client.cpp` add the same number `added_by`.  Then the answers of successful additions are its
multiples, by the index of the entry, and if it is odd, as the default 1 is, no two calls get the same answer
(`tickets_distinct`) until the log has `2 ^ 64` entries.

Whatever the clients add, the books balance: the additions that were acknowledged are all in the log, and the log has
nothing but additions that were requested (`accounted`).  So while nothing wraps, the value of a node that is up to
date lies between what was acknowledged and what was requested, and the answers grow in the order of real time.
-/

namespace LearnTogether.Group

open WrapSum History

variable {P : Type} {rt : Runtime P} {g g' : Group P}

/-- Every `fetch_add` that was invoked asks for `d`. -/
def AllAdd (g : Group P) (d : Int64) : Prop :=
  ∀ id request k, Event.invoke id (.fetchAdd request) k ∈ g.history → request.value = d

/-- No `fetch_add` that was invoked asks for a negative number. -/
def NoneNegative (g : Group P) : Prop :=
  ∀ id request k, Event.invoke id (.fetchAdd request) k ∈ g.history → 0 ≤ request.value.toInt

/-- The entry of a call carries what the call asked for. -/
theorem delta_of_mem (hl : rt.Lossless) (hr : Recorded rt g) {e : Entry P} (he : e ∈ g.log) :
    ∃ request k, Event.invoke e.owner (.fetchAdd request) k ∈ g.history ∧ rt.delta e = request.value := by
  obtain ⟨request, k, hk, hd⟩ := hr.data e (List.mem_append_left _ he)
  exact ⟨request, k, hk, Runtime.delta_serialize hl hd⟩

private theorem deltas_of_allAdd (hl : rt.Lossless) (hr : Recorded rt g) {d : Int64} (hd : g.AllAdd d) :
    g.deltas rt = List.replicate g.log.length d := by
  refine List.eq_replicate_iff.2 ⟨List.length_map .., fun x hx => ?_⟩
  obtain ⟨e, he, rfl⟩ := List.mem_map.1 hx
  obtain ⟨request, k, hk, hdelta⟩ := delta_of_mem hl hr he
  rw [hdelta]
  exact hd _ _ _ hk

private theorem deltas_nonneg (hl : rt.Lossless) (hr : Recorded rt g) (hn : g.NoneNegative) :
    ∀ x ∈ (g.deltas rt).map Int64.toInt, 0 ≤ x := by
  intro x hx
  obtain ⟨d, hd, rfl⟩ := List.mem_map.1 hx
  obtain ⟨e, he, rfl⟩ := List.mem_map.1 hd
  obtain ⟨request, k, hk, hdelta⟩ := delta_of_mem hl hr he
  rw [hdelta]
  exact hn _ _ _ hk

/-- Two calls do not own one entry. -/
theorem OwnsAt.owner_unique {a b : P × Nat} {i : Nat} (ha : g.OwnsAt a i) (hb : g.OwnsAt b i) : a = b := by
  obtain ⟨e, he, rfl⟩ := ha
  obtain ⟨e', he', rfl⟩ := hb
  rw [he] at he'
  cases he'
  rfl

variable [DecidableEq P]

/-- A successful addition owns the entry at its index, and has the value that the log makes of zero before it. -/
theorem Succeeded.result (hl : rt.Lossless) (h : Exec.Reachable (step rt) init g) {id : P × Nat}
    {request : FetchAddRequest} {response : CounterResponse} (hs : g.Succeeded id request response) :
    g.OwnsAt id (g.index id) ∧ response.value = some (wrapSum ((g.deltas rt).take (g.index id))) := by
  obtain ⟨k, hk⟩ := hs.invoked
  obtain ⟨i, ho, hv⟩ := (reachable_added hl h).answers id request k response hk hs.answered hs.success
  rw [index_of_ownsAt (reachable_recorded h) ho]
  exact ⟨ho, hv⟩

/-- The value of a ticket is a multiple of what everybody adds. -/
private theorem ticket_value (hl : rt.Lossless) (h : Exec.Reachable (step rt) init g) {d : Int64} (hd : g.AllAdd d)
    {id : P × Nat} {request : FetchAddRequest} {response : CounterResponse} (hs : g.Succeeded id request response) :
    response.value = some (Int64.ofInt (g.index id * d.toInt)) := by
  obtain ⟨ho, hv⟩ := hs.result hl h
  have hlt := ho.lt_length
  rw [hv, deltas_of_allAdd hl (reachable_recorded h) hd, List.take_replicate, wrapSum_replicate,
    Nat.min_eq_left (Nat.le_of_lt hlt)]

/-- When everybody adds the same odd number, different calls get different answers, as long as the log has at most
`2 ^ 64` entries. -/
theorem tickets_distinct (rt : Runtime P) (hl : rt.Lossless) (h : Exec.Reachable (step rt) init g) {d : Int64}
    (hodd : d.toInt % 2 = 1) (hd : g.AllAdd d) (hlen : g.log.length ≤ 2 ^ 64) {a b : P × Nat}
    {request request' : FetchAddRequest} {response response' : CounterResponse} (ha : g.Succeeded a request response)
    (hb : g.Succeeded b request' response') (hab : a ≠ b) : response.value ≠ response'.value := by
  intro hv
  have hoa := (ha.result hl h).1
  have hob := (hb.result hl h).1
  have hla := hoa.lt_length
  have hlb := hob.lt_length
  rw [ticket_value hl h hd ha, ticket_value hl h hd hb, Option.some.injEq] at hv
  have hindex := eq_of_ofInt_mul_eq hodd (by omega) (by omega) hv
  rw [hindex] at hoa
  exact hab (hoa.owner_unique hob)

/-- Node 1 leads and adds 1 twice; the second call is invoked when the first one has been answered. -/
def ticketRun : List (GroupAct Nat) :=
  on 1 Server.startUp ++ lead 1 1 ++
    on 1 (Server.propose 0 ⟨1⟩) ++ [.commit 0] ++
    on 1 (Server.applyOne (serializeValue 1) (some 0) ++ [.call 0 (.run none), .call 0 .finish]) ++
    on 1 (Server.propose 1 ⟨1⟩) ++ [.commit 0] ++
    on 1 (Server.applyOne (serializeValue 1) (some 1) ++ [.call 1 (.run none), .call 1 .finish])

def ticketHistory : List (Event Nat) :=
  [.invoke (1, 0) (.fetchAdd ⟨1⟩) 0, .propose (1, 0), .answer (1, 0) ⟨some true, some 0, none⟩,
    .invoke (1, 1) (.fetchAdd ⟨1⟩) 1, .propose (1, 1), .answer (1, 1) ⟨some true, some 1, none⟩]

private theorem ticketRun_end : ∃ g, Exec.exec (step (protobuf Nat.repr)) init ticketRun = some g ∧
    g.log.length = 2 ∧ g.deltas (protobuf Nat.repr) = [1, 1] ∧ g.history = ticketHistory :=
  ⟨_, rfl, rfl, rfl, rfl⟩

private theorem ticketRun_succeeded {g : Group Nat} (hh : g.history = ticketHistory) :
    g.Succeeded (1, 0) ⟨1⟩ ⟨some true, some 0, none⟩ ∧ g.Succeeded (1, 1) ⟨1⟩ ⟨some true, some 1, none⟩ ∧
      g.AllAdd 1 := by
  refine ⟨⟨⟨0, by simp [hh, ticketHistory]⟩, by simp [hh, ticketHistory], rfl⟩,
    ⟨⟨1, by simp [hh, ticketHistory]⟩, by simp [hh, ticketHistory], rfl⟩, fun id request k hk => ?_⟩
  simp only [hh, ticketHistory, List.mem_cons, Event.invoke.injEq, Request.fetchAdd.injEq, reduceCtorEq,
    List.not_mem_nil, or_false, false_or] at hk
  rcases hk with ⟨-, rfl, -⟩ | ⟨-, rfl, -⟩ <;> rfl

theorem tickets_distinct_ticketRun : ∃ g, Exec.exec (step (protobuf Nat.repr)) init ticketRun = some g ∧
    g.Succeeded (1, 0) ⟨1⟩ ⟨some true, some 0, none⟩ ∧ g.Succeeded (1, 1) ⟨1⟩ ⟨some true, some 1, none⟩ ∧
    (some 0 : Option Int64) ≠ some 1 := by
  obtain ⟨g, hg, hlen, -, hh⟩ := ticketRun_end
  obtain ⟨ha, hb, hall⟩ := ticketRun_succeeded hh
  exact ⟨g, hg, ha, hb, tickets_distinct (protobuf Nat.repr) (protobuf_lossless Nat.repr) ⟨ticketRun, hg⟩ (by decide)
    hall (by omega) ha hb (by decide)⟩

/-! ### The order of the tickets -/

/-- The value before an entry is the plain sum of the deltas before it, when nothing is negative and nothing wraps. -/
private theorem toInt_take {ds : List Int64} (h0 : ∀ x ∈ ds.map Int64.toInt, 0 ≤ x)
    (hsum : (ds.map Int64.toInt).sum < 2 ^ 63) {i : Nat} (hi : i ≤ ds.length) :
    (wrapSum (ds.take i)).toInt = ((ds.map Int64.toInt).take i).sum := by
  have hle : ((ds.map Int64.toInt).take i).sum ≤ (ds.map Int64.toInt).sum := by
    have hlast := sum_take_le h0 hi
    rwa [List.take_of_length_le (i := ds.length) (by rw [List.length_map])] at hlast
  rw [← List.map_take] at hle ⊢
  refine toInt_wrapSum (fun d hd => ?_) (by omega)
  exact h0 _ (List.mem_map_of_mem (List.mem_of_mem_take hd))

/-- A call that was answered before another one was invoked has the smaller index. -/
theorem Succeeded.index_lt (hl : rt.Lossless) (h : Exec.Reachable (step rt) init g) {a b : P × Nat}
    {request request' : FetchAddRequest} {response response' : CounterResponse} {k : Nat}
    (ha : g.Succeeded a request response) (hb : g.Succeeded b request' response')
    (hp : Precedes g.history (.answer a response) (.invoke b (.fetchAdd request') k)) : g.index a < g.index b := by
  have hadd := reachable_added hl h
  -- the entry of `a` is committed when `b` is invoked, the one of `b` is not
  obtain ⟨j, hj⟩ := ha.invoked
  obtain ⟨i, hik, hoi⟩ := hadd.early a request j response b (.fetchAdd request') k hj hp ha.success
  have hki := hadd.late b (.fetchAdd request') k (g.index b) hp.mem_right (hb.result hl h).1
  rw [index_of_ownsAt (reachable_recorded h) hoi]
  omega

/-- The entry of a successful call carries what it asked for. -/
private theorem Succeeded.delta (hl : rt.Lossless) (h : Exec.Reachable (step rt) init g) {id : P × Nat}
    {request : FetchAddRequest} {response : CounterResponse} (hs : g.Succeeded id request response) :
    ∃ e, g.log[g.index id]? = some e ∧ e.owner = id ∧ rt.delta e = request.value := by
  have hr := reachable_recorded h
  obtain ⟨⟨e, he, ho⟩, -⟩ := hs.result hl h
  obtain ⟨k, hk⟩ := hs.invoked
  obtain ⟨request', k', hk', hd⟩ := delta_of_mem hl hr (List.mem_of_getElem? he)
  rw [ho] at hk'
  have heq := (hr.once _ _ _ _ _ hk' hk).1
  cases heq
  exact ⟨e, he, ho, hd⟩

/-- While nothing is negative and nothing wraps, the answers grow with the index, by what was asked for at least. -/
theorem Succeeded.add_le (hl : rt.Lossless) (h : Exec.Reachable (step rt) init g) (hn : g.NoneNegative)
    (hsum : ((g.deltas rt).map Int64.toInt).sum < 2 ^ 63) {a b : P × Nat} {request request' : FetchAddRequest}
    {response response' : CounterResponse} {v w : Int64} (ha : g.Succeeded a request response)
    (hb : g.Succeeded b request' response') (hlt : g.index a < g.index b) (hv : response.value = some v)
    (hw : response'.value = some w) : v.toInt + request.value.toInt ≤ w.toInt := by
  obtain ⟨hoa, hva⟩ := ha.result hl h
  obtain ⟨hob, hvb⟩ := hb.result hl h
  rw [hv, Option.some.injEq] at hva
  rw [hw, Option.some.injEq] at hvb
  have h0 := deltas_nonneg hl (reachable_recorded h) hn
  have hlen : (g.deltas rt).length = g.log.length := List.length_map ..
  have hla := hoa.lt_length
  have hlb := hob.lt_length
  have hdelta : ((g.deltas rt).map Int64.toInt)[g.index a]? = some request.value.toInt := by
    obtain ⟨e, he, -, hd⟩ := ha.delta hl h
    rw [List.getElem?_map, deltas, List.getElem?_map, he, Option.map_some, Option.map_some, hd]
  have hstep : (((g.deltas rt).map Int64.toInt).take (g.index a + 1)).sum =
      (((g.deltas rt).map Int64.toInt).take (g.index a)).sum + request.value.toInt := by
    rw [List.take_add_one, hdelta, Option.toList_some, List.sum_append, List.sum_singleton]
  have hmono := sum_take_le h0 (show g.index a + 1 ≤ g.index b by omega)
  rw [hva, hvb, toInt_take h0 hsum (by omega), toInt_take h0 hsum (by omega)]
  omega

/-- While no request is negative and the sum of the log does not wrap, a later call gets at least the sum of the
earlier answer and the earlier request. -/
theorem tickets_increase (rt : Runtime P) (hl : rt.Lossless) (h : Exec.Reachable (step rt) init g)
    (hn : g.NoneNegative) (hsum : ((g.deltas rt).map Int64.toInt).sum < 2 ^ 63) {a b : P × Nat}
    {request request' : FetchAddRequest} {response response' : CounterResponse} {k : Nat} {v w : Int64}
    (ha : g.Succeeded a request response) (hb : g.Succeeded b request' response')
    (hp : Precedes g.history (.answer a response) (.invoke b (.fetchAdd request') k))
    (hv : response.value = some v) (hw : response'.value = some w) : v.toInt + request.value.toInt ≤ w.toInt := by
  have hlt := ha.index_lt hl h hb hp
  exact ha.add_le hl h hn hsum hb hlt hv hw

theorem tickets_increase_ticketRun : ∃ g, Exec.exec (step (protobuf Nat.repr)) init ticketRun = some g ∧
    g.NoneNegative ∧ (0 : Int64).toInt + (1 : Int64).toInt ≤ (1 : Int64).toInt := by
  obtain ⟨g, hg, -, hd, hh⟩ := ticketRun_end
  obtain ⟨ha, hb, hall⟩ := ticketRun_succeeded hh
  have hn : g.NoneNegative := by
    intro id request k hk
    rw [hall id request k hk]
    decide
  exact ⟨g, hg, hn, tickets_increase (k := 1) (protobuf Nat.repr) (protobuf_lossless Nat.repr) ⟨ticketRun, hg⟩ hn
    (by rw [hd]; decide) ha hb (by rw [hh]; decide) rfl rfl⟩

/-! ### The books -/

/-- The additions that were requested, with their calls. -/
def requested (g : Group P) : List ((P × Nat) × Int64) :=
  g.history.filterMap fun
    | .invoke id (.fetchAdd request) _ => some (id, request.value)
    | _ => none

/-- The additions that were answered with success. -/
def acknowledged (g : Group P) : List ((P × Nat) × Int64) :=
  g.requested.filter fun p => g.history.any fun
    | .answer id response => decide (id = p.1) && decide (response.success = some true)
    | _ => false

/-- The additions that the log has made. -/
def added (rt : Runtime P) (g : Group P) : List ((P × Nat) × Int64) := g.log.map fun e => (e.owner, rt.delta e)

def total (l : List ((P × Nat) × Int64)) : Int := (l.map fun p => p.2.toInt).sum

omit [DecidableEq P] in
theorem total_map_const {α : Type} (l : List α) (f : α → P × Nat) (d : Int64) :
    total (l.map fun a => (f a, d)) = l.length * d.toInt := by
  unfold total
  induction l with
  | nil => simp
  | cons a l ih =>
    rw [List.map_cons, List.map_cons, List.sum_cons, ih, List.length_cons, Nat.cast_succ, Int.add_mul]
    show d.toInt + _ = _
    omega

omit [DecidableEq P] in
theorem mem_requested {id : P × Nat} {v : Int64} :
    (id, v) ∈ g.requested ↔ ∃ request k, Event.invoke id (.fetchAdd request) k ∈ g.history ∧ request.value = v := by
  unfold requested
  rw [List.mem_filterMap]
  constructor
  · rintro ⟨e, he, hv⟩
    match e, hv with
    | .invoke i (.fetchAdd request) k, hv =>
      cases hv
      exact ⟨request, k, he, rfl⟩
  · rintro ⟨request, k, hk, rfl⟩
    exact ⟨_, hk, rfl⟩

private theorem succeeded_of_mem_acknowledged {id : P × Nat} {v : Int64} (h : (id, v) ∈ g.acknowledged) :
    ∃ request response, g.Succeeded id request response ∧ request.value = v := by
  unfold acknowledged at h
  obtain ⟨hreq, hany⟩ := List.mem_filter.1 h
  obtain ⟨request, k, hk, hv⟩ := mem_requested.1 hreq
  obtain ⟨e, he, hans⟩ := List.any_eq_true.1 hany
  match e, hans with
  | .answer i response, hans =>
    rw [Bool.and_eq_true, decide_eq_true_eq, decide_eq_true_eq] at hans
    obtain ⟨rfl, hs⟩ := hans
    exact ⟨request, response, ⟨⟨k, hk⟩, he, hs⟩, hv⟩

/-- What a successful call has asked for was added. -/
theorem Succeeded.mem_added (hl : rt.Lossless) (h : Exec.Reachable (step rt) init g) {id : P × Nat}
    {request : FetchAddRequest} {response : CounterResponse} (hs : g.Succeeded id request response) :
    (id, request.value) ∈ g.added rt := by
  obtain ⟨e, he, ho, hd⟩ := hs.delta hl h
  exact List.mem_map.2 ⟨e, List.mem_of_getElem? he, by rw [ho, hd]⟩

omit [DecidableEq P] in
theorem total_added (rt : Runtime P) (g : Group P) : total (g.added rt) = ((g.deltas rt).map Int64.toInt).sum := by
  simp only [total, added, deltas, List.map_map]
  rfl

/-- While nothing is negative and nothing wraps, a node that has applied the whole log has the total of what was
added. -/
theorem value_of_applied (hl : rt.Lossless) (h : Exec.Reachable (step rt) init g) (hn : g.NoneNegative)
    (hsum : total (g.added rt) < 2 ^ 63) {n : P} (happ : (g.servers n).applied = g.log.length) :
    (g.servers n).counter.value.toInt = total (g.added rt) := by
  have hagree := ((reachable_replicated hl h).nodes n).value
  have hd0 : ∀ d ∈ g.deltas rt, 0 ≤ d.toInt :=
    fun d hd => deltas_nonneg hl (reachable_recorded h) hn _ (List.mem_map_of_mem hd)
  rw [total_added] at hsum ⊢
  rw [hagree.wrapSum, happ, List.take_length]
  exact toInt_wrapSum hd0 hsum

private theorem reachable_requested_nodup (h : Exec.Reachable (step rt) init g) : (g.requested.map Prod.fst).Nodup := by
  refine Exec.Reachable.induction (I := fun g => (g.requested.map Prod.fst).Nodup) ?_ ?_ h
  · exact List.nodup_nil
  · intro t act u ht ha hi
    have hsame : (∀ e ∈ u.history.drop t.history.length, ∀ id request k, e ≠ Event.invoke id request k) →
        t.history <+: u.history → (u.requested.map Prod.fst).Nodup := by
      rintro hno ⟨l, hl⟩
      rw [← hl, List.drop_left] at hno
      have hnil : l.filterMap (fun | .invoke id (.fetchAdd request) _ => some (id, request.value) | _ => none) =
          ([] : List ((P × Nat) × Int64)) := by
        refine List.filterMap_eq_nil_iff.2 fun e he => ?_
        cases e with
        | invoke id request k => exact absurd rfl (hno _ he id request k)
        | propose | answer => rfl
      unfold requested at hi ⊢
      rw [← hl, List.filterMap_append, hnil, List.append_nil]
      exact hi
    cases step_change ha with
    | stay _ hh | call _ _ _ _ _ _ _ _ _ hh | applied _ _ _ _ _ _ hh | commit _ _ _ _ hh =>
      exact hsame (by simp [hh]) ⟨[], by rw [hh, List.append_nil]⟩
    | propose _ _ _ _ _ _ _ hh | answer _ _ _ _ _ _ _ _ _ hh => exact hsame (by simp [hh]) ⟨_, hh.symm⟩
    | invoke id request hn _ _ hh =>
      unfold requested at hi ⊢
      rw [hh, List.filterMap_append, List.map_append]
      cases request with
      | get => simpa using hi
      | fetchAdd request =>
        refine List.nodup_append.2 ⟨hi, List.nodup_singleton _, ?_⟩
        rintro i hm j hj rfl
        cases List.mem_singleton.1 hj
        -- the number is given out for the first time
        obtain ⟨p, hp, hpi⟩ := List.mem_map.1 hm
        obtain ⟨request', k', hk', -⟩ := mem_requested.1 (show (p.1, p.2) ∈ t.requested from hp)
        have hlt := (reachable_recorded ht).numbered _ _ _ hk'
        rw [hpi] at hlt
        exact absurd hn (Nat.ne_of_gt hlt)

structure Accounted (rt : Runtime P) (g : Group P) : Prop where
  /-- What was acknowledged was added, each call once. -/
  kept : g.acknowledged.Subperm (g.added rt)
  /-- What was added was requested, each call once. -/
  asked : (g.added rt).Subperm g.requested
  /-- While nothing is negative and nothing wraps, the value of a node that has applied the whole log lies between the
  two. -/
  value : g.NoneNegative → total g.requested < 2 ^ 63 → ∀ n, (g.servers n).applied = g.log.length →
    total g.acknowledged ≤ (g.servers n).counter.value.toInt ∧
      (g.servers n).counter.value.toInt ≤ total g.requested

omit [DecidableEq P] in
theorem total_le {l l' : List ((P × Nat) × Int64)} (h : l.Subperm l')
    (h0 : ∀ p ∈ l', 0 ≤ p.2.toInt) : total l ≤ total l' := by
  obtain ⟨m, hm, hs⟩ := h
  refine sum_le_of_subperm ⟨_, hm.map _, hs.map _⟩ fun x hx => ?_
  obtain ⟨p, hp, rfl⟩ := List.mem_map.1 hx
  exact h0 p hp

/-- In every reachable state the books balance: acknowledged additions are in the log, and the log has only requested
additions. -/
theorem accounted (rt : Runtime P) (hl : rt.Lossless) (h : Exec.Reachable (step rt) init g) : g.Accounted rt := by
  have hr := reachable_recorded h
  have hnreq : g.requested.Nodup := (reachable_requested_nodup h).of_map _
  have hnadd : (g.added rt).Nodup := by
    refine List.Nodup.of_map Prod.fst ?_
    rw [added, List.map_map]
    exact hr.log_nodup
  have hkept : g.acknowledged.Subperm (g.added rt) := by
    refine List.subperm_of_subset (hnreq.filter _) fun p hp => ?_
    obtain ⟨request, response, hs, hv⟩ := succeeded_of_mem_acknowledged (show (p.1, p.2) ∈ g.acknowledged from hp)
    have hm := hs.mem_added hl h
    rwa [hv] at hm
  have hasked : (g.added rt).Subperm g.requested := by
    refine List.subperm_of_subset hnadd fun p hp => ?_
    obtain ⟨e, he, rfl⟩ := List.mem_map.1 hp
    obtain ⟨request, k, hk, hd⟩ := delta_of_mem hl hr he
    exact mem_requested.2 ⟨request, k, hk, hd.symm⟩
  refine ⟨hkept, hasked, fun hn hsum n happ => ?_⟩
  have h0 : ∀ p ∈ g.requested, 0 ≤ p.2.toInt := by
    intro p hp
    obtain ⟨request, k, hk, hv⟩ := mem_requested.1 (show (p.1, p.2) ∈ g.requested from hp)
    rw [← hv]
    exact hn _ _ _ hk
  have hle := total_le hasked h0
  rw [value_of_applied hl h hn (Int.lt_of_le_of_lt hle hsum) happ]
  exact ⟨total_le hkept fun p hp => h0 p (hasked.subset hp), hle⟩

theorem accounted_ticketRun : ∃ g, Exec.exec (step (protobuf Nat.repr)) init ticketRun = some g ∧
    g.acknowledged = [((1, 0), 1), ((1, 1), 1)] ∧ g.Accounted (protobuf Nat.repr) :=
  ⟨_, rfl, rfl, accounted (protobuf Nat.repr) (protobuf_lossless Nat.repr) ⟨ticketRun, rfl⟩⟩

end LearnTogether.Group
