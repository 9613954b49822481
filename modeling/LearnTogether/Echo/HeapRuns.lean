import LearnTogether.Echo.HeapParse

/-!
# Runs on the heap of the echo messages

What a caller does with messages and strings, as the steps of a run.  A caller has to see to its part (`Obeys`): the
objects that it uses are there, and the strings that it writes, deletes or gives away are its own.  Then no step gets
stuck, and the messages are what they would be as values (`run_safe`).  The inputs of the parser are not restricted.
-/

namespace LearnTogether

open Exec Ownership

namespace Heap

variable {F : Type} (w : WireFormat F) {h : Heap F} {p : Nat}

/-- What a caller does with messages and strings; `f` in `edit` is what it does to the string of `mutable_message`. -/
inductive Op (F : Type)
  | construct (x : Nat)
  | copyConstruct (x y : Nat)
  | destroy (x : Nat)
  | setMessage (x : Nat) (value : Bytes)
  | edit (x : Nat) (f : Bytes → Bytes)
  | clearMessage (x : Nat)
  | releaseMessage (x : Nat)
  | setAllocatedMessage (x : Nat) (message : Option Nat)
  | clear (x : Nat)
  | mergeFrom (x y : Nat)
  | copyFrom (x y : Nat)
  | swap (x y : Nat)
  | addUnknown (x : Nat) (fs : List F)
  | mergePartial (x : Nat) (input : Bytes)
  | newString (v : Bytes)
  | assign (p : Nat) (v : Bytes)
  | deleteString (p : Nat)

def step (h : Heap F) : Op F → Option (Heap F)
  | .construct x => h.construct x
  | .copyConstruct x y => do
    let h ← h.construct x
    h.mergeFrom x y
  | .destroy x => h.destroy x
  | .setMessage x value => h.setMessage x value
  | .edit x f => h.edit x f
  | .clearMessage x => h.clearMessage x
  | .releaseMessage x => (h.releaseMessage x).map Prod.fst
  | .setAllocatedMessage x message => h.setAllocatedMessage x message
  | .clear x => h.clear x
  | .mergeFrom x y => h.mergeFrom x y
  | .copyFrom x y => h.copyFrom x y
  | .swap x y => h.swap x y
  | .addUnknown x fs => h.addUnknown x fs
  | .mergePartial x input => (h.mergePartial w x input).map Prod.fst
  | .newString v => some (h.newString v).1
  | .assign p v => h.assign p v
  | .deleteString p => h.deleteString p

/-- The pointer that the caller gets. -/
def returned (h : Heap F) : Op F → Option Nat
  | .releaseMessage x => (h.releaseMessage x).bind Prod.snd
  | .newString v => some (h.newString v).2
  | _ => none

/-- What the caller has to see to: the objects are there, a message is not merged into itself, and the caller only
touches and gives away strings that it owns. -/
def Obeys (h : Heap F) : Op F → Prop
  | .construct x => h.objects x = none
  | .copyConstruct x y => h.objects x = none ∧ h.objects y ≠ none
  | .destroy x | .setMessage x _ | .edit x _ | .clearMessage x | .releaseMessage x | .setAllocatedMessage x none
  | .clear x | .addUnknown x _ | .mergePartial x _ => h.objects x ≠ none
  | .setAllocatedMessage x (some p) => h.objects x ≠ none ∧ h.owned p = true
  | .mergeFrom x y => x ≠ y ∧ h.objects x ≠ none ∧ h.objects y ≠ none
  | .copyFrom x y | .swap x y => h.objects x ≠ none ∧ h.objects y ≠ none
  | .newString _ => True
  | .assign p _ | .deleteString p => h.owned p = true

/-- The operation on values, where the caller got the pointer `ret`. -/
def Values.step (v : Values F) (ret : Option Nat) : Op F → Values F
  | .construct x => { v with messages := Function.update v.messages x (some .new) }
  | .copyConstruct x y | .copyFrom x y => { v with messages := Function.update v.messages x (v.messages y) }
  | .destroy x => { v with messages := Function.update v.messages x none }
  | .setMessage x value =>
    { v with messages := Function.update v.messages x ((v.messages x).map fun m => m.setMessage value) }
  | .edit x f =>
    { v with messages := Function.update v.messages x ((v.messages x).map fun m => m.setMessage (f m.message)) }
  | .clearMessage x | .setAllocatedMessage x none =>
    { v with messages := Function.update v.messages x ((v.messages x).map EchoMessage.clearMessage) }
  | .releaseMessage x =>
    { messages := Function.update v.messages x ((v.messages x).map EchoMessage.clearMessage)
      strings :=
        match ret with
        | some p => Function.update v.strings p ((v.messages x).map EchoMessage.message)
        | none => v.strings }
  | .setAllocatedMessage x (some p) =>
    { messages :=
        Function.update v.messages x ((v.messages x).map fun m => m.setMessage ((v.strings p).getD []))
      strings := Function.update v.strings p none }
  | .clear x => { v with messages := Function.update v.messages x ((v.messages x).map EchoMessage.clear) }
  | .mergeFrom x y =>
    { v with
      messages := Function.update v.messages x ((v.messages x).bind fun m => (v.messages y).map m.mergeFrom) }
  | .swap x y => { v with messages := fun z => v.messages (Equiv.swap x y z) }
  | .addUnknown x fs =>
    { v with
      messages := Function.update v.messages x ((v.messages x).map fun m => { m with unknown := m.unknown ++ fs }) }
  | .mergePartial x input =>
    { v with messages := Function.update v.messages x ((v.messages x).map fun m => m.leaves w input) }
  | .newString s =>
    { v with
      strings :=
        match ret with
        | some p => Function.update v.strings p (some s)
        | none => v.strings }
  | .assign p s => { v with strings := Function.update v.strings p (some s) }
  | .deleteString p => { v with strings := Function.update v.strings p none }

variable {w}

private theorem exists_message (h : Heap F) (hx : h.objects x ≠ none) : ∃ m, h.value.messages x = some m := by
  obtain ⟨o, ho⟩ := Option.ne_none_iff_exists'.1 hx
  exact ⟨view o (h.store.value (.message x)), by simp [value, ho]⟩

/-- A caller that sees to its part can do every operation, and it does to the values what it should. -/
theorem step_spec (hs : Sound h) (op : Op F) (hop : h.Obeys op) :
    ∃ h', h.step w op = some h' ∧ Becomes h' (h.value.step w (h.returned op) op) := by
  have hsets : ∀ {h' : Heap F} {x : Nat} {m : Option (EchoMessage F)} {v : Values F}, Sets h h' x m →
      v = { h.value with messages := Function.update h.value.messages x m } → Becomes h' v := by
    intro h' x m v hset hv
    exact hv ▸ hset.becomes
  cases op with
  | construct x =>
    obtain ⟨h', hstep, hset⟩ := construct_spec hs hop
    exact ⟨h', hstep, hset.becomes⟩
  | copyConstruct x y =>
    obtain ⟨s, hsrc⟩ := h.exists_message hop.2
    have hxy : x ≠ y := by
      rintro rfl
      exact hop.2 hop.1
    obtain ⟨h₁, hcon, hset₁⟩ := construct_spec hs hop.1
    have hsrc₁ : h₁.value.messages y = some s := (hset₁.other hxy.symm).trans hsrc
    obtain ⟨h', hmerge, hset⟩ := mergeFrom_spec hset₁.sound hxy hset₁.self hsrc₁
    refine ⟨h', by simp [step, hcon, hmerge], hsets (hset₁.trans hset) ?_⟩
    simp [Values.step, hsrc, EchoMessage.new_mergeFrom]
  | destroy x =>
    obtain ⟨m, hm⟩ := h.exists_message hop
    obtain ⟨h', hstep, hset⟩ := destroy_spec hs hm
    exact ⟨h', hstep, hset.becomes⟩
  | setMessage x value =>
    obtain ⟨m, hm⟩ := h.exists_message hop
    obtain ⟨h', hstep, hset⟩ := setMessage_spec hs hm value
    exact ⟨h', hstep, hsets hset (by simp [Values.step, hm])⟩
  | edit x f =>
    obtain ⟨m, hm⟩ := h.exists_message hop
    obtain ⟨h', hstep, hset⟩ := edit_spec hs hm f
    exact ⟨h', hstep, hsets hset (by simp [Values.step, hm])⟩
  | clearMessage x =>
    obtain ⟨m, hm⟩ := h.exists_message hop
    obtain ⟨h', hstep, hset⟩ := clearMessage_spec hs hm
    exact ⟨h', hstep, hsets hset (by simp [Values.step, hm])⟩
  | releaseMessage x =>
    obtain ⟨o, ho⟩ := Option.ne_none_iff_exists'.1 hop
    by_cases hp : o.message_ = kEmptyString
    · obtain ⟨h', hstep, hset⟩ := releaseMessage_null hs ho hp
      refine ⟨h', by simp [step, hstep], hsets hset ?_⟩
      simp [Values.step, returned, hstep, value, ho]
    · obtain ⟨h', hstep, hnew⟩ := releaseMessage_spec hs ho hp
      refine ⟨h', by simp [step, hstep], ?_⟩
      simpa [Values.step, returned, hstep, value, ho] using hnew
  | setAllocatedMessage x message =>
    cases message with
    | none =>
      obtain ⟨m, hm⟩ := h.exists_message hop
      obtain ⟨h', hstep, hset⟩ := setAllocatedMessage_null hs hm
      exact ⟨h', hstep, hsets hset (by simp [Values.step, hm])⟩
    | some p =>
      obtain ⟨m, hm⟩ := h.exists_message hop.1
      obtain ⟨h', hstep, hnew⟩ := setAllocatedMessage_spec hs hm hop.2
      refine ⟨h', hstep, ?_⟩
      simpa [Values.step, hm] using hnew
  | clear x =>
    obtain ⟨m, hm⟩ := h.exists_message hop
    obtain ⟨h', hstep, hset⟩ := clear_spec hs hm
    exact ⟨h', hstep, hsets hset (by simp [Values.step, hm])⟩
  | mergeFrom x y =>
    obtain ⟨hxy, hx, hy⟩ := hop
    obtain ⟨m, hm⟩ := h.exists_message hx
    obtain ⟨s, hsrc⟩ := h.exists_message hy
    obtain ⟨h', hstep, hset⟩ := mergeFrom_spec hs hxy hm hsrc
    exact ⟨h', hstep, hsets hset (by simp [Values.step, hm, hsrc])⟩
  | copyFrom x y =>
    obtain ⟨m, hm⟩ := h.exists_message hop.1
    obtain ⟨s, hsrc⟩ := h.exists_message hop.2
    by_cases hxy : x = y
    · refine ⟨h, by simp [step, copyFrom, hxy], hs, ?_⟩
      simp [Values.step, hxy]
    · obtain ⟨h', hstep, hset⟩ := copyFrom_spec hs hxy hm hsrc
      exact ⟨h', hstep, hsets hset (by simp [Values.step, hsrc])⟩
  | swap x y =>
    obtain ⟨m, hm⟩ := h.exists_message hop.1
    obtain ⟨s, hsrc⟩ := h.exists_message hop.2
    by_cases hxy : x = y
    · refine ⟨h, by simp [step, swap, hxy], hs, ?_⟩
      simp [Values.step, hxy]
    · exact swap_spec hs hxy hm hsrc
  | addUnknown x fs =>
    obtain ⟨m, hm⟩ := h.exists_message hop
    obtain ⟨h', hstep, hset⟩ := addUnknown_spec hs hm fs
    exact ⟨h', hstep, hsets hset (by simp [Values.step, hm])⟩
  | mergePartial x input =>
    obtain ⟨m, hm⟩ := h.exists_message hop
    obtain ⟨h', hparse, hset⟩ := mergePartial_spec w hs hm input
    exact ⟨h', by simp [step, hparse], hsets hset (by simp [Values.step, hm])⟩
  | newString v => exact ⟨_, rfl, newString_spec hs v⟩
  | assign p v => exact assign_spec hs hop v
  | deleteString p => exact deleteString_spec hs hop

/-- The operations of a run, each with the pointer that the caller got. -/
def trace (w : WireFormat F) (h : Heap F) : List (Op F) → List (Op F × Option Nat)
  | [] => []
  | op :: ops =>
    (op, h.returned op) ::
      match h.step w op with
      | some h' => h'.trace w ops
      | none => []

/-- A run of a caller that sees to its part never gets stuck, and it does to the values what it should. -/
theorem exec_spec (hs : Sound h) {ops : List (Op F)} (hops : Along (step w) Obeys h ops) :
    ∃ h', exec (step w) h ops = some h' ∧
      Becomes h' ((h.trace w ops).foldl (fun v p => v.step w p.2 p.1) h.value) := by
  induction ops generalizing h with
  | nil => exact ⟨h, rfl, hs, rfl⟩
  | cons op ops ih =>
    obtain ⟨h₁, hstep, hnew⟩ := step_spec hs op hops.1
    obtain ⟨h', hrun, hend⟩ := ih hnew.sound (hops.2 h₁ hstep)
    refine ⟨h', exec_cons_some.2 ⟨h₁, hstep, hrun⟩, ?_⟩
    simpa only [trace, hstep, List.foldl_cons, hnew.value] using hend

private theorem sound_init : Sound ({} : Heap F) := by
  refine ⟨⟨?_, ?_, ?_⟩, rfl, ?_, rfl, by simp⟩
  · intro l a hl
    cases l <;> simp [store] at hl
  · intro l k a hl
    cases l <;> simp [store] at hl
  · intro p hp
    exfalso
    by_cases h0 : p = kEmptyString <;> simp [store, h0] at hp
  · intro p hp
    have hne : p ≠ kEmptyString := by
      rintro rfl
      exact Nat.not_succ_le_zero _ hp
    simp [hne]

/-- What a caller can rely on after a run. -/
structure Safe (h : Heap F) (v : Values F) : Prop where
  value : h.value = v
  /-- Every getter returns the message. -/
  getter : ∀ {x m}, h.value.messages x = some m → h.message x = some m.message
  /-- Nobody has written the shared string. -/
  shared : h.strings kEmptyString = some []
  /-- When the objects and the strings of the caller are gone, all other strings are. -/
  noLeak : (∀ x, h.objects x = none) → (∀ p, h.owned p = false) → ∀ p, p ≠ kEmptyString → h.strings p = none

private theorem Sound.noLeak (hs : Sound h) (hx : ∀ x, h.objects x = none) (ho : ∀ p, h.owned p = false)
    (hp : p ≠ kEmptyString) : h.strings p = none := by
  by_contra hne
  have hcell : h.store.cells p ≠ none := by
    rw [show h.store.cells p = h.strings p from if_neg hp]
    exact hne
  obtain ⟨l, hl⟩ := hs.store.held hcell
  cases l with
  | message x => simp [Heap.store, hx] at hl
  | caller q => simp [Heap.store, ho] at hl

/-- Whatever a caller does, as long as it sees to its part, and whatever the parser reads: no pointer dangles, nothing
is deleted twice or lost, and the messages are what they would be as values. -/
theorem run_safe {ops : List (Op F)} (hops : Along (step w) Obeys {} ops) : ∃ h, exec (step w) {} ops = some h ∧
    Safe h ((trace w {} ops).foldl (fun v p => v.step w p.2 p.1) (value {})) := by
  obtain ⟨h, hrun, hend⟩ := exec_spec sound_init hops
  have hs := hend.sound
  exact ⟨h, hrun, hend.value, hs.message_eq, hs.empty, fun hx ho p hp => hs.noLeak hx ho hp⟩

/-! ### A run -/

instance (h : Heap F) : (op : Op F) → Decidable (h.Obeys op)
  | .construct _ => inferInstanceAs (Decidable (_ = none))
  | .copyConstruct _ _ => inferInstanceAs (Decidable (_ = none ∧ _ ≠ none))
  | .destroy _ | .setMessage _ _ | .edit _ _ | .clearMessage _ | .releaseMessage _ | .setAllocatedMessage _ none
  | .clear _ | .addUnknown _ _ | .mergePartial _ _ => inferInstanceAs (Decidable (_ ≠ none))
  | .setAllocatedMessage _ (some _) => inferInstanceAs (Decidable (_ ≠ none ∧ _ = true))
  | .mergeFrom _ _ => inferInstanceAs (Decidable (_ ≠ _ ∧ _ ≠ none ∧ _ ≠ none))
  | .copyFrom _ _ | .swap _ _ => inferInstanceAs (Decidable (_ ≠ none ∧ _ ≠ none))
  | .newString _ => isTrue trivial
  | .assign _ _ | .deleteString _ => inferInstanceAs (Decidable (_ = true))

/-- A string goes from one message to another by way of the caller, an input is read, another one is cut off in the
middle of its string, and everything is deleted in the end. -/
def handedOver : List (Op Wire.Field) :=
  [.construct 0, .setMessage 0 [104, 105], .copyConstruct 1 0, .mergePartial 1 EchoMessage.shuffled,
    .releaseMessage 0, .clearMessage 1, .setAllocatedMessage 1 (some 1), .swap 0 1, .mergeFrom 1 0, .newString [33],
    .assign 4 [34], .deleteString 4, .mergePartial 0 [10, 5, 104], .destroy 0, .destroy 1]

theorem run_safe_handedOver : ∃ h, exec (step wireFormat) {} handedOver = some h ∧
    Safe h ((trace wireFormat {} handedOver).foldl (fun v p => v.step wireFormat p.2 p.1) (value {})) :=
  run_safe (by decide)

end Heap

end LearnTogether
