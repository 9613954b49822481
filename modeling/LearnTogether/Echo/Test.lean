import LearnTogether.Base.Exec
import LearnTogether.Base.LockedCounter
import Mathlib.Algebra.Order.BigOperators.Group.Finset

/-!
# The test with many threads

`sender` of `client_test.cpp` and the test `multi_thread`, which starts `thread_num` threads of it on one channel,
joins them, and expects that `threads_number` has counted all calls.  The threads share `threads_number`, which they
increment under the mutex `m`, and `log_id`, which they increment without it; load and store of an increment are two
steps, so log ids can be given twice.  What becomes of a call is the environment's choice.  A failed `CHECK` aborts, as
under `-crash_on_fatal_log`; without the flag it is as if the process were asked to quit.

However the threads take turns, the test passes exactly if no call has failed (`verdict`).  The counters stay below the
number of all calls (`counters_le`), so it is no matter that an `int` is bounded.
-/

namespace LearnTogether

open Exec LockedCounter

/-- Where a thread stands in `sender`'s loop, of which `loop` is the condition.  `log_id++` has loaded in `idLoaded`,
and `threads_number++` in `loaded`; after `stub.Echo` a thread is `locking` when the call has succeeded. -/
inductive Place
  | loop
  | idLoaded (seen : Int)
  | calling (logId : Int)
  | locking
  | locked
  | loaded (seen : Int)
  | stored
  | failed
  | checking
  | sleeping
  | returned

structure Thread where
  /-- The variable of the loop. -/
  i : Nat := 0
  place : Place := .loop

/-- What the environment decides in a step: `cntl.Failed()` and `brpc::IsAskedToQuit()`. -/
inductive Input
  | run
  | replied (failed : Bool)
  | asked (quit : Bool)

structure EchoTest (n : Nat) where
  logId : Int := 0
  threadsNumber : Int := 0
  errorCount : Int := 0
  m : Option (Fin n) := none
  /-- A `CHECK` has failed. -/
  aborted : Bool := false
  threads : Fin n → Thread := fun _ => {}
  /-- The calls that came back: their log ids, and whether they failed. -/
  calls : List (Int × Bool) := []

namespace EchoTest

variable {n : Nat} (loopNumber : Nat) (dontFail : Bool)

def goto (s : EchoTest n) (j : Fin n) (place : Place) : EchoTest n :=
  { s with threads := Function.update s.threads j { s.threads j with place } }

def stepThread (s : EchoTest n) (j : Fin n) : Place → Input → Option (EchoTest n)
  | .loop, .run => some (s.goto j (if (s.threads j).i < loopNumber then .idLoaded s.logId else .returned))
  | .idLoaded seen, .run => some { s.goto j (.calling seen) with logId := seen + 1 }
  | .calling logId, .replied failed =>
    some { s.goto j (if failed then .failed else .locking) with calls := s.calls ++ [(logId, failed)] }
  | .locking, .run =>
    match s.m with
    | none => some { s.goto j .locked with m := some j }
    | some _ => none
  | .locked, .run => some (s.goto j (.loaded s.threadsNumber))
  | .loaded seen, .run => some { s.goto j .stored with threadsNumber := seen + 1 }
  | .stored, .run => some { s.goto j .sleeping with m := none }
  | .failed, .run => some { s.goto j .checking with errorCount := s.errorCount + 1 }
  | .checking, .asked quit => if quit || !dontFail then some (s.goto j .sleeping) else some { s with aborted := true }
  | .sleeping, .run =>
    some { s with threads := Function.update s.threads j { i := (s.threads j).i + 1, place := .loop } }
  | _, _ => none

def step (s : EchoTest n) (a : Fin n × Input) : Option (EchoTest n) :=
  if s.aborted then none else s.stepThread loopNumber dontFail a.1 (s.threads a.1).place a.2

def Joined (s : EchoTest n) : Prop := ∀ j, (s.threads j).place = .returned

/-- `EXPECT_EQ(threads_number_temp, threads_number)`. -/
def Passes (s : EchoTest n) : Prop := (n * loopNumber : Int) = s.threadsNumber

def succeeded (s : EchoTest n) : Nat := s.calls.countP fun c => !c.2

def failures (s : EchoTest n) : Nat := s.calls.countP fun c => c.2

end EchoTest

namespace Place

/-- The part of the place that is about `threads_number`. -/
def phase : Place → Phase
  | .locking => .waiting
  | .locked => .inside
  | .loaded seen => .loaded seen
  | .stored => .stored
  | .loop | .idLoaded _ | .calling _ | .failed | .checking | .sleeping | .returned => .outside

/-- The loop body has begun. -/
def begun : Place → Int
  | .loop | .returned => 0
  | .idLoaded _ | .calling _ | .locking | .locked | .loaded _ | .stored | .failed | .checking | .sleeping => 1

/-- The call of this turn has come back. -/
def called : Place → Int
  | .loop | .returned | .idLoaded _ | .calling _ => 0
  | .locking | .locked | .loaded _ | .stored | .failed | .checking | .sleeping => 1

/-- A failure is still to be counted. -/
def uncounted : Place → Int
  | .failed => 1
  | .loop | .idLoaded _ | .calling _ | .locking | .locked | .loaded _ | .stored | .checking | .sleeping
  | .returned => 0

/-- The steps of a turn that are still to come, one more when there can be a turn after it. -/
def remaining : Place → Int
  | .loop => 10
  | .idLoaded _ => 9
  | .calling _ => 8
  | .locking => 7
  | .locked => 6
  | .loaded _ => 5
  | .stored => 4
  | .failed => 3
  | .checking => 2
  | .sleeping => 1
  | .returned => 0

@[simp] theorem phase_locking : phase .locking = .waiting := rfl

@[simp] theorem phase_locked : phase .locked = .inside := rfl

@[simp] theorem phase_loaded (seen : Int) : phase (.loaded seen) = .loaded seen := rfl

@[simp] theorem phase_stored : phase .stored = .stored := rfl

@[simp] theorem phase_sleeping : phase .sleeping = .outside := rfl

@[simp] theorem phase_calling (logId : Int) : phase (.calling logId) = .outside := rfl

private theorem called_le_begun (p : Place) : p.called ≤ p.begun := by
  cases p <;> simp [called, begun]

private theorem begun_nonneg (p : Place) : 0 ≤ p.begun := by
  cases p <;> simp [begun]

private theorem remaining_nonneg (p : Place) : 0 ≤ p.remaining := by
  cases p <;> simp [remaining]

end Place

namespace Thread

/-- The turns of the loop that the thread has begun. -/
def begun (thread : Thread) : Int := thread.i + thread.place.begun

/-- The calls that have come back to the thread. -/
def called (thread : Thread) : Int := thread.i + thread.place.called

end Thread

namespace EchoTest

variable {n : Nat} {loopNumber : Nat} {dontFail : Bool} {s t : EchoTest n}

inductive Outcome (loopNumber : Nat) (s : EchoTest n) (j : Fin n) : EchoTest n → Prop
  | begins : (s.threads j).place = .loop → (s.threads j).i < loopNumber →
      Outcome loopNumber s j (s.goto j (.idLoaded s.logId))
  | returns : (s.threads j).place = .loop → ¬ (s.threads j).i < loopNumber →
      Outcome loopNumber s j (s.goto j .returned)
  | takesId {seen : Int} : (s.threads j).place = .idLoaded seen →
      Outcome loopNumber s j { s.goto j (.calling seen) with logId := seen + 1 }
  | succeeds {logId : Int} : (s.threads j).place = .calling logId →
      Outcome loopNumber s j { s.goto j .locking with calls := s.calls ++ [(logId, false)] }
  | fails {logId : Int} : (s.threads j).place = .calling logId →
      Outcome loopNumber s j { s.goto j .failed with calls := s.calls ++ [(logId, true)] }
  | locks : (s.threads j).place = .locking → s.m = none →
      Outcome loopNumber s j { s.goto j .locked with m := some j }
  | loads : (s.threads j).place = .locked → Outcome loopNumber s j (s.goto j (.loaded s.threadsNumber))
  | stores {seen : Int} : (s.threads j).place = .loaded seen →
      Outcome loopNumber s j { s.goto j .stored with threadsNumber := seen + 1 }
  | unlocks : (s.threads j).place = .stored → Outcome loopNumber s j { s.goto j .sleeping with m := none }
  | counts : (s.threads j).place = .failed →
      Outcome loopNumber s j { s.goto j .checking with errorCount := s.errorCount + 1 }
  | checks : (s.threads j).place = .checking → Outcome loopNumber s j (s.goto j .sleeping)
  | aborts : Outcome loopNumber s j { s with aborted := true }
  | wakes : (s.threads j).place = .sleeping → Outcome loopNumber s j
      { s with threads := Function.update s.threads j { i := (s.threads j).i + 1, place := .loop } }

theorem step_outcome {a : Fin n × Input} (h : s.step loopNumber dontFail a = some t) :
    Outcome loopNumber s a.1 t := by
  obtain ⟨j, e⟩ := a
  unfold step at h
  by_cases hab : s.aborted = true
  · simp [hab] at h
  · rw [if_neg hab] at h
    dsimp only at h
    cases hp : (s.threads j).place with
    | returned => cases e <;> simp [hp, stepThread] at h
    | loop =>
      cases e <;> simp only [hp, stepThread, Option.some.injEq, reduceCtorEq] at h
      by_cases hi : (s.threads j).i < loopNumber
      · rw [if_pos hi] at h
        exact h ▸ .begins hp hi
      · rw [if_neg hi] at h
        exact h ▸ .returns hp hi
    | idLoaded seen =>
      cases e <;> simp only [hp, stepThread, Option.some.injEq, reduceCtorEq] at h
      exact h ▸ .takesId hp
    | calling logId =>
      cases e <;> simp only [hp, stepThread, Option.some.injEq, reduceCtorEq] at h
      rename_i failed
      cases failed with
      | true => exact h ▸ .fails hp
      | false => exact h ▸ .succeeds hp
    | locking =>
      cases e <;> simp only [hp, stepThread, reduceCtorEq] at h
      cases hm : s.m with
      | some k => simp [hm] at h
      | none =>
        simp only [hm, Option.some.injEq] at h
        exact h ▸ .locks hp hm
    | locked =>
      cases e <;> simp only [hp, stepThread, Option.some.injEq, reduceCtorEq] at h
      exact h ▸ .loads hp
    | loaded seen =>
      cases e <;> simp only [hp, stepThread, Option.some.injEq, reduceCtorEq] at h
      exact h ▸ .stores hp
    | stored =>
      cases e <;> simp only [hp, stepThread, Option.some.injEq, reduceCtorEq] at h
      exact h ▸ .unlocks hp
    | failed =>
      cases e <;> simp only [hp, stepThread, Option.some.injEq, reduceCtorEq] at h
      exact h ▸ .counts hp
    | checking =>
      cases e <;> simp only [hp, stepThread, reduceCtorEq] at h
      rename_i quit
      by_cases hq : (quit || !dontFail) = true
      · rw [if_pos hq, Option.some.injEq] at h
        exact h ▸ .checks hp
      · rw [if_neg hq, Option.some.injEq] at h
        exact h ▸ .aborts
    | sleeping =>
      cases e <;> simp only [hp, stepThread, Option.some.injEq, reduceCtorEq] at h
      exact h ▸ .wakes hp

/-! ### The mutex -/

/-- The test as threads that increment a counter behind a lock. -/
def view (s : EchoTest n) : Shared n := ⟨s.m, s.threadsNumber, fun j => (s.threads j).place.phase⟩

private theorem phase_update (threads : Fin n → Thread) (j : Fin n) (thread : Thread) :
    (fun k => (Function.update threads j thread k).place.phase) =
      Function.update (fun k => (threads k).place.phase) j thread.place.phase := by
  funext k
  by_cases hk : k = j
  · rw [hk, Function.update_self, Function.update_self]
  · rw [Function.update_of_ne hk, Function.update_of_ne hk]

/-- A thread that stays away from `threads_number` does not change the view. -/
private theorem phase_outside {j : Fin n} (h : (s.threads j).place.phase = .outside) {thread : Thread}
    (ht : thread.place.phase = .outside) :
    (fun k => (Function.update s.threads j thread k).place.phase) = fun k => (s.threads k).place.phase := by
  rw [phase_update, ht, ← h]
  exact Function.update_eq_self j _

/-- The calls that have not failed are the additions to `threads_number`. -/
private theorem counter_outcome {j : Fin n} (h : Outcome loopNumber s j t) (hs : LockedCounter.Inv s.view s.succeeded) :
    LockedCounter.Inv t.view t.succeeded := by
  have hview : ∀ (act : Act n) {t : EchoTest n}, s.view.step act = some t.view →
      (t.succeeded : Int) = s.succeeded + act.wants → LockedCounter.Inv t.view t.succeeded := by
    intro act t hact hsucc
    rw [hsucc]
    exact inv_step hact hs
  have hsame : ∀ {t : EchoTest n}, t.view = s.view → t.succeeded = s.succeeded →
      LockedCounter.Inv t.view t.succeeded := by
    intro t hv hsucc
    rw [hv, hsucc]
    exact hs
  cases h with
  | begins hp | returns hp | takesId hp | counts hp | checks hp =>
    refine hsame ?_ rfl
    simp only [view, goto]
    rw [phase_outside (by rw [hp]; rfl) rfl]
  | wakes hp =>
    refine hsame ?_ rfl
    simp only [view]
    rw [phase_outside (by rw [hp]; rfl) rfl]
  | fails hp =>
    refine hsame ?_ (by simp [succeeded])
    simp only [view, goto]
    rw [phase_outside (by rw [hp]; rfl) rfl]
  | aborts => exact hsame rfl rfl
  | succeeds hp =>
    refine hview (.want j) ?_ (by simp [succeeded, Act.wants])
    simp [Shared.step, view, hp, goto, phase_update]
  | locks hp hm =>
    refine hview (.lock j) ?_ (by simp [succeeded, Act.wants, goto])
    simp [Shared.step, view, hp, hm, goto, phase_update]
  | loads hp =>
    refine hview (.load j) ?_ (by simp [succeeded, Act.wants, goto])
    simp [Shared.step, view, hp, goto, phase_update]
  | stores hp =>
    refine hview (.store j) ?_ (by simp [succeeded, Act.wants, goto])
    simp [Shared.step, view, hp, goto, phase_update]
  | unlocks hp =>
    refine hview (.unlock j) ?_ (by simp [succeeded, Act.wants, goto])
    simp [Shared.step, view, hp, goto, phase_update]

/-! ### The tallies -/

/-- The thread is on its way to `loopNumber` calls. -/
structure Within (loopNumber : Nat) (thread : Thread) : Prop where
  le : thread.begun ≤ loopNumber
  returned : thread.place = .returned → thread.i = loopNumber

/-- The calls are those of the threads, and the failures are counted or still to be counted. -/
structure Tally (loopNumber : Nat) (s : EchoTest n) : Prop where
  within : ∀ j, Within loopNumber (s.threads j)
  calls : (s.calls.length : Int) = ∑ j, (s.threads j).called
  errors : s.errorCount + ∑ j, (s.threads j).place.uncounted = s.failures

/-- The tally when the thread `j` goes on. -/
private theorem Tally.goto (hs : Tally loopNumber s) {j : Fin n} {thread : Thread}
    (hthreads : t.threads = Function.update s.threads j thread) (hwithin : Within loopNumber thread)
    (hcalls : t.calls.length + (s.threads j).called = s.calls.length + thread.called)
    (herrors : t.errorCount + thread.place.uncounted + s.failures =
      s.errorCount + (s.threads j).place.uncounted + t.failures) : Tally loopNumber t where
  within k := by
    rw [hthreads]
    by_cases hk : k = j
    · rw [hk, Function.update_self]
      exact hwithin
    · rw [Function.update_of_ne hk]
      exact hs.within k
  calls := by
    have hsum := sum_update Thread.called s.threads j thread
    have hold := hs.calls
    rw [hthreads]
    omega
  errors := by
    have hsum := sum_update (fun thread => thread.place.uncounted) s.threads j thread
    have hold := hs.errors
    rw [hthreads]
    omega

private theorem tally_outcome {j : Fin n} (h : Outcome loopNumber s j t) (hs : Tally loopNumber s) :
    Tally loopNumber t := by
  have hle := (hs.within j).le
  cases h with
  | aborts => exact ⟨hs.within, hs.calls, hs.errors⟩
  | begins hp hi =>
    refine hs.goto rfl ⟨?_, by simp⟩ ?_ ?_
    · simp only [Thread.begun, Place.begun]
      omega
    · simp [EchoTest.goto, Thread.called, Place.called, hp]
    · simp [EchoTest.goto, Place.uncounted, failures, hp]
  | returns hp hi =>
    simp only [Thread.begun, hp, Place.begun] at hle
    refine hs.goto rfl ⟨?_, fun _ => ?_⟩ ?_ ?_
    · simp only [Thread.begun, Place.begun]
      omega
    · dsimp only
      omega
    · simp [EchoTest.goto, Thread.called, Place.called, hp]
    · simp [EchoTest.goto, Place.uncounted, failures, hp]
  | takesId hp | locks hp | loads hp | stores hp | unlocks hp | counts hp | checks hp =>
    simp only [Thread.begun, hp, Place.begun] at hle
    refine hs.goto rfl ⟨?_, by simp⟩ ?_ ?_
    · simp only [Thread.begun, Place.begun]
      omega
    · simp [EchoTest.goto, Thread.called, Place.called, hp]
    · simp [EchoTest.goto, Place.uncounted, failures, hp]
  | succeeds hp | fails hp =>
    simp only [Thread.begun, hp, Place.begun] at hle
    refine hs.goto rfl ⟨?_, by simp⟩ ?_ ?_
    · simp only [Thread.begun, Place.begun]
      omega
    · simp [Thread.called, Place.called, hp]
      omega
    · simp [EchoTest.goto, Place.uncounted, failures, hp]
      try omega
  | wakes hp =>
    simp only [Thread.begun, hp, Place.begun] at hle
    refine hs.goto rfl ⟨?_, by simp⟩ ?_ ?_
    · simp only [Thread.begun, Place.begun]
      omega
    · simp [Thread.called, Place.called, hp]
    · simp [Place.uncounted, failures, hp]

/-- Every log id is among the first ones, as many as turns have begun. -/
structure Ids (s : EchoTest n) : Prop where
  next : 0 ≤ s.logId ∧ s.logId ≤ ∑ j, (s.threads j).begun
  taken : ∀ {j v}, (s.threads j).place = .idLoaded v ∨ (s.threads j).place = .calling v →
    0 ≤ v ∧ v < ∑ j, (s.threads j).begun
  sent : ∀ c ∈ s.calls, 0 ≤ c.1 ∧ c.1 < ∑ j, (s.threads j).begun

/-- The log ids when the thread `j` goes on, and has begun `d` turns more. -/
private theorem Ids.goto (hs : Ids s) {j : Fin n} {thread : Thread} {d : Int} (hd : 0 ≤ d)
    (hthreads : t.threads = Function.update s.threads j thread) (hbegun : thread.begun = (s.threads j).begun + d)
    (hnext : 0 ≤ t.logId ∧ t.logId ≤ (∑ k, (s.threads k).begun) + d)
    (hown : ∀ {v}, thread.place = .idLoaded v ∨ thread.place = .calling v →
      0 ≤ v ∧ v < (∑ k, (s.threads k).begun) + d)
    (hsent : ∀ c ∈ t.calls, c ∈ s.calls ∨ (s.threads j).place = .calling c.1) : Ids t := by
  have hsum := sum_update Thread.begun s.threads j thread
  rw [← hthreads] at hsum
  have hall : ∑ k, (t.threads k).begun = (∑ k, (s.threads k).begun) + d := by omega
  refine ⟨by rw [hall]; exact hnext, fun {k v} hk => ?_, fun c hc => ?_⟩
  · rw [hall]
    by_cases hkj : k = j
    · rw [hkj, hthreads, Function.update_self] at hk
      exact hown hk
    · rw [hthreads, Function.update_of_ne hkj] at hk
      have hold := hs.taken hk
      omega
  · rw [hall]
    rcases hsent c hc with hc | hc
    · have hold := hs.sent c hc
      omega
    · have hold := hs.taken (Or.inr hc)
      omega

private theorem ids_outcome {j : Fin n} (h : Outcome loopNumber s j t) (hs : Ids s) : Ids t := by
  have hnext := hs.next
  cases h with
  | aborts => exact ⟨hs.next, hs.taken, hs.sent⟩
  | begins hp hi =>
    refine hs.goto (d := 1) (by omega) rfl (by simp [Thread.begun, Place.begun, hp]) ?_ ?_ fun c hc => Or.inl hc
    · simp only [EchoTest.goto]
      omega
    · rintro v (hv | hv) <;> cases hv
      omega
  | takesId hp =>
    have htaken := hs.taken (Or.inl hp)
    refine hs.goto (d := 0) (by omega) rfl (by simp [Thread.begun, Place.begun, hp]) ?_ ?_ fun c hc => Or.inl hc
    · dsimp only
      omega
    · rintro v (hv | hv) <;> cases hv
      omega
  | returns hp hi | locks hp | loads hp | stores hp | unlocks hp | counts hp | checks hp | wakes hp =>
    refine hs.goto (d := 0) (by omega) rfl (by simp [Thread.begun, Place.begun, hp]) ?_ ?_ fun c hc => Or.inl hc
    · simp only [EchoTest.goto]
      omega
    · rintro v (hv | hv) <;> cases hv
  | succeeds hp | fails hp =>
    refine hs.goto (d := 0) (by omega) rfl (by simp [Thread.begun, Place.begun, hp]) ?_ ?_ fun c hc => ?_
    · simp only [EchoTest.goto]
      omega
    · rintro v (hv | hv) <;> cases hv
    · rcases List.mem_append.1 hc with hc | hc
      · exact Or.inl hc
      · rw [List.mem_singleton.1 hc]
        exact Or.inr hp

/-! ### Runs -/

structure Inv (loopNumber : Nat) (s : EchoTest n) : Prop where
  counter : LockedCounter.Inv s.view s.succeeded
  tally : Tally loopNumber s
  ids : Ids s

private theorem inv_of_exec {as : List (Fin n × Input)} (h : exec (step loopNumber dontFail) {} as = some s) :
    Inv loopNumber s := by
  refine exec_induction_trace (I := fun _ s => Inv loopNumber s) ⟨?_, ?_, ?_⟩ ?_ h
  · exact LockedCounter.inv_start n 0
  · refine ⟨fun j => ⟨by simp [Thread.begun, Place.begun], by simp⟩, ?_, ?_⟩
    · simp [Thread.called, Place.called]
    · simp [Place.uncounted, failures]
  · exact ⟨by simp [Thread.begun, Place.begun], by simp, by simp⟩
  · intro as s a t _ ha hs
    have hout := step_outcome ha
    exact ⟨counter_outcome hout hs.counter, tally_outcome hout hs.tally, ids_outcome hout hs.ids⟩

private theorem Inv.begun_le (hs : Inv loopNumber s) : ∑ j, (s.threads j).begun ≤ n * loopNumber := by
  have hle : ∑ j, (s.threads j).begun ≤ ∑ _j : Fin n, (loopNumber : Int) :=
    Finset.sum_le_sum fun j _ => (hs.tally.within j).le
  simpa using hle

private theorem succeeded_add_failures (s : EchoTest n) : s.succeeded + s.failures = s.calls.length := by
  unfold succeeded failures
  induction s.calls with
  | nil => rfl
  | cons c calls ih =>
    simp only [List.countP_cons, List.length_cons]
    cases c.2 <;> simp <;> omega

/-- The counters never exceed what the test expects. -/
theorem counters_le {as : List (Fin n × Input)} (h : exec (step loopNumber dontFail) {} as = some s) :
    s.threadsNumber ≤ n * loopNumber ∧ s.logId ≤ n * loopNumber := by
  have hs := inv_of_exec h
  have hbegun := hs.begun_le
  refine ⟨?_, hs.ids.next.2.trans hbegun⟩
  have hpending : 0 ≤ ∑ j, (s.threads j).place.phase.pending := by
    refine Finset.sum_nonneg fun j _ => ?_
    cases (s.threads j).place.phase <;> simp [Phase.pending]
  have hcalled : ∑ j, (s.threads j).called ≤ ∑ j, (s.threads j).begun := by
    refine Finset.sum_le_sum fun j _ => ?_
    have hle := (s.threads j).place.called_le_begun
    simp only [Thread.called, Thread.begun]
    omega
  have hcount : s.threadsNumber + ∑ j, (s.threads j).place.phase.pending = s.succeeded := hs.counter.count
  have hcalls := hs.tally.calls
  have hall := s.succeeded_add_failures
  omega

/-- What the test finds when all threads are joined. -/
structure Verdict (loopNumber : Nat) (s : EchoTest n) : Prop where
  calls : (s.calls.length : Int) = n * loopNumber
  succeeded : s.threadsNumber = s.succeeded
  failures : s.errorCount = s.failures
  ids : ∀ c ∈ s.calls, 0 ≤ c.1 ∧ c.1 < n * loopNumber
  passes : s.Passes loopNumber ↔ ∀ c ∈ s.calls, c.2 = false

/-- However the threads take turns, in the end all calls are counted, and the test passes exactly if none failed. -/
theorem verdict {as : List (Fin n × Input)} (h : exec (step loopNumber dontFail) {} as = some s) (hj : s.Joined) :
    Verdict loopNumber s := by
  have hs := inv_of_exec h
  have hi : ∀ j, (s.threads j).i = loopNumber := fun j => (hs.tally.within j).returned (hj j)
  have hcalls : (s.calls.length : Int) = n * loopNumber := by
    have hsum : ∑ j, (s.threads j).called = ∑ _j : Fin n, (loopNumber : Int) :=
      Finset.sum_congr rfl fun j _ => by simp [Thread.called, hi, hj j, Place.called]
    rw [hs.tally.calls, hsum]
    simp
  have hsucc : s.threadsNumber = s.succeeded := by
    have hpending : ∑ j, (s.threads j).place.phase.pending = 0 :=
      Finset.sum_eq_zero fun j _ => by simp [hj j, Place.phase, Phase.pending]
    have hcount : s.threadsNumber + ∑ j, (s.threads j).place.phase.pending = s.succeeded := hs.counter.count
    omega
  have hfail : s.errorCount = s.failures := by
    have huncounted : ∑ j, (s.threads j).place.uncounted = 0 :=
      Finset.sum_eq_zero fun j _ => by simp [hj j, Place.uncounted]
    have herrors := hs.tally.errors
    omega
  refine ⟨hcalls, hsucc, hfail, fun c hc => ?_, ?_⟩
  · have hsent := hs.ids.sent c hc
    have hbegun := hs.begun_le
    omega
  · have hall := s.succeeded_add_failures
    have hnone : s.failures = 0 ↔ ∀ c ∈ s.calls, c.2 = false := by
      simp [EchoTest.failures, List.countP_eq_zero]
    rw [← hnone]
    unfold Passes
    omega

/-! ### The end of the test -/

/-- The steps that a thread can still take. -/
def remaining (loopNumber : Nat) (thread : Thread) : Int := 11 * (loopNumber - thread.i) + thread.place.remaining

/-- The steps that the test can still take; a failing `CHECK` is one of them. -/
def measure (loopNumber : Nat) (s : EchoTest n) : Int :=
  (∑ j, remaining loopNumber (s.threads j)) + if s.aborted then 0 else 1

private theorem measure_outcome {j : Fin n} (hab : s.aborted = false) (h : Outcome loopNumber s j t) :
    t.measure loopNumber + 1 ≤ s.measure loopNumber := by
  have hgoto : ∀ {t : EchoTest n} {thread : Thread}, t.threads = Function.update s.threads j thread →
      t.aborted = false → remaining loopNumber thread + 1 ≤ remaining loopNumber (s.threads j) →
      t.measure loopNumber + 1 ≤ s.measure loopNumber := by
    intro t thread hthreads hab' hlt
    have hsum := sum_update (remaining loopNumber) s.threads j thread
    unfold measure
    rw [hthreads, hab, hab']
    omega
  cases h with
  | aborts =>
    simp only [measure, hab]
    simp
  | begins hp | returns hp | takesId hp | succeeds hp | fails hp | locks hp | loads hp | stores hp | unlocks hp
  | counts hp | checks hp | wakes hp =>
    refine hgoto rfl hab ?_
    simp only [remaining, hp, Place.remaining]
    omega

/-- A thread with the mutex, or any thread when nobody has it, can go on. -/
private theorem exists_step (hs : Inv loopNumber s) (dontFail : Bool) (hab : s.aborted = false) (hj : ¬ s.Joined) :
    ∃ a t, s.step loopNumber dontFail a = some t := by
  cases hm : s.m with
  | some k =>
    have hholds : (s.threads k).place.phase.holds = true := (hs.counter.holder k).2 hm
    refine ⟨(k, .run), ?_⟩
    cases hp : (s.threads k).place with
    | locked | loaded seen | stored => simp [step, hab, hp, stepThread]
    | loop | idLoaded seen | calling logId | locking | failed | checking | sleeping | returned =>
      rw [hp] at hholds
      cases hholds
  | none =>
    unfold Joined at hj
    push Not at hj
    obtain ⟨j, hj⟩ := hj
    cases hp : (s.threads j).place with
    | returned => exact absurd hp hj
    | calling logId => exact ⟨(j, .replied false), by simp [step, hab, hp, stepThread]⟩
    | checking => exact ⟨(j, .asked true), by simp [step, hab, hp, stepThread]⟩
    | loop | idLoaded seen | locking | locked | loaded seen | stored | failed | sleeping =>
      exact ⟨(j, .run), by simp [step, hab, hp, hm, stepThread]⟩

/-- The test ends: no run is longer than this, and one that cannot go on has joined all threads, or a `CHECK` has
failed. -/
theorem ends {as : List (Fin n × Input)} (h : exec (step loopNumber dontFail) {} as = some s) :
    (as.length : Int) ≤ n * (11 * loopNumber + 10) + 1 ∧
      ((∀ a, s.step loopNumber dontFail a = none) → s.Joined ∨ s.aborted = true) := by
  have hs := inv_of_exec h
  constructor
  · have hrun : (as.length : Int) + s.measure loopNumber ≤ n * (11 * loopNumber + 10) + 1 := by
      refine exec_induction_trace
        (I := fun as s => (as.length : Int) + s.measure loopNumber ≤ n * (11 * loopNumber + 10) + 1) ?_ ?_ h
      · simp [measure, remaining, Place.remaining]
      · intro as s a t _ ha hle
        have hab : s.aborted = false := by
          by_contra hab
          simp [step, hab] at ha
        have hlt := measure_outcome hab (step_outcome ha)
        rw [List.length_append, List.length_singleton]
        omega
    have hpos : 0 ≤ ∑ j, remaining loopNumber (s.threads j) := by
      refine Finset.sum_nonneg fun j _ => ?_
      have hle := (hs.tally.within j).le
      have hbegun := (s.threads j).place.begun_nonneg
      have hrem := (s.threads j).place.remaining_nonneg
      simp only [Thread.begun] at hle
      simp only [remaining]
      omega
    unfold measure at hrun
    split at hrun <;> omega
  · intro hstuck
    by_cases hab : s.aborted = true
    · exact Or.inr hab
    · left
      by_contra hj
      obtain ⟨a, t, ha⟩ := exists_step hs dontFail (by simpa using hab) hj
      rw [hstuck a] at ha
      cases ha

/-- Two threads with one call each: both load the log id 0, and the call of `k` fails. -/
def twoThreads (j k : Fin n) : List (Fin n × Input) :=
  [(j, .run), (k, .run), (j, .run), (k, .run), (j, .replied false), (k, .replied true), (j, .run), (k, .run),
    (j, .run), (k, .asked false), (j, .run), (k, .run), (j, .run), (k, .run), (j, .run), (j, .run)]

private theorem exec_twoThreads : ∃ s : EchoTest 2, exec (step 1 false) {} (twoThreads 0 1) = some s :=
  Option.isSome_iff_exists.1 (by decide)

theorem verdict_twoThreads : ∃ s : EchoTest 2, exec (step 1 false) {} (twoThreads 0 1) = some s ∧
    s.calls = [(0, false), (0, true)] ∧ Verdict 1 s := by
  obtain ⟨s, hs⟩ := exec_twoThreads
  have hend : (exec (step 1 false) ({} : EchoTest 2) (twoThreads 0 1)).map
      (fun s => (s.calls, (s.threads 0).place, (s.threads 1).place)) =
        some ([(0, false), (0, true)], .returned, .returned) := rfl
  rw [hs, Option.map_some, Option.some.injEq, Prod.mk.injEq, Prod.mk.injEq] at hend
  obtain ⟨hcalls, h0, h1⟩ := hend
  have hj : s.Joined := by
    intro j
    match j with
    | 0 => exact h0
    | 1 => exact h1
  exact ⟨s, hs, hcalls, verdict hs hj⟩

theorem ends_twoThreads : ∃ s : EchoTest 2, exec (step 1 false) {} (twoThreads 0 1) = some s ∧
    ((twoThreads (0 : Fin 2) 1).length : Int) ≤ (2 : Nat) * (11 * (1 : Nat) + 10) + 1 ∧
      ((∀ a, s.step 1 false a = none) → s.Joined ∨ s.aborted = true) := by
  obtain ⟨s, hs⟩ := exec_twoThreads
  exact ⟨s, hs, ends hs⟩

end EchoTest

end LearnTogether
