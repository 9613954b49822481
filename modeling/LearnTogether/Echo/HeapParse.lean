import LearnTogether.Echo.HeapSteps

/-!
# The parser on the heap

`MergePartialFromCodedStream` writes into the string to which `mutable_message` points, and adds to the unknown fields
of its object.  On a sound heap it comes back for every input, and does to its object what it does to the message as a
value (`mergePartial_spec`); when it returns false, what it has read so far stays in the object.  So what was written
is read on the heap as the merge of the messages too (`mergePartial_written`).
-/

namespace LearnTogether

namespace EchoMessage

variable {F : Type} (w : WireFormat F)

/-- What a turn that fails leaves in the message. -/
def failField (m : EchoMessage F) (input : Bytes) : EchoMessage F :=
  match w.readTag input with
  | none => m
  | some (tag, input) =>
    if IsMessageTag tag then m.setMessage (w.readStringFailed m.message input)
    else { m with unknown := m.unknown ++ w.skipFieldFailed tag input }

/-- What `MergePartialFromCodedStream` leaves in the message, also when it returns false. -/
def leaves (m : EchoMessage F) (input : Bytes) : EchoMessage F :=
  match h : mergeField w m input with
  | .failed => m.failField w input
  | .done m _ => m
  | .next m rest =>
    have := mergeField_length w h
    leaves m rest
termination_by input.length

private theorem leaves_eq (m : EchoMessage F) (input : Bytes) :
    m.leaves w input = match mergeField w m input with
      | .failed => m.failField w input
      | .done m _ => m
      | .next m rest => m.leaves w rest := by
  rw [leaves]
  split <;> simp_all

variable {w}

/-- An input that is accepted leaves the message that the parser returns. -/
private theorem leaves_of_mergePartial {m m' : EchoMessage F} {input : Bytes} {e : Bool}
    (h : mergePartial w m input = some (m', e)) : m.leaves w input = m' := by
  induction hn : input.length using Nat.strongRecOn generalizing m input with
  | ind n ih =>
    rw [mergePartial_eq] at h
    rw [leaves_eq]
    cases ht : mergeField w m input with
    | failed =>
      rw [ht] at h
      cases h
    | done s consumed =>
      rw [ht] at h
      cases h
      rfl
    | next s rest =>
      have hlt := mergeField_length w ht
      rw [ht] at h
      exact ih rest.length (by omega) h rfl

end EchoMessage

/-- How a turn of the parser's loop on the heap ends. -/
inductive TurnEnd
  | failed
  | done (consumed : Bool)
  | next (rest : Bytes)

namespace Heap

variable {F : Type} (w : WireFormat F)

/-- One turn of the loop of `MergePartialFromCodedStream` of the object `x`. -/
def mergeField (h : Heap F) (x : Nat) (input : Bytes) : Option (Heap F × TurnEnd) :=
  match w.readTag input with
  | none => some (h, .done input.isEmpty)
  | some (tag, input) =>
    if IsMessageTag tag then
      match w.readString input with
      | none => (h.edit x fun old => w.readStringFailed old input).map fun h => (h, .failed)
      | some (value, rest) =>
        (h.edit x fun _ => value).map fun h => (h, if w.expectAtEnd rest then .done true else .next rest)
    else if Wire.wireType tag = 4 then some (h, .done false)
    else
      match w.skipField tag input with
      | none => (h.addUnknown x (w.skipFieldFailed tag input)).map fun h => (h, .failed)
      | some (f, rest) => (h.addUnknown x [f]).map fun h => (h, .next rest)

/-- At most `turns` turns of the loop: the heap, and `none` when the parser returns false, otherwise whether all the
input was consumed. -/
def mergeFields : Nat → Heap F → Nat → Bytes → Option (Heap F × Option Bool)
  | 0, _, _, _ => none
  | turns + 1, h, x, input => do
    let (h, turn) ← h.mergeField w x input
    match turn with
    | .failed => some (h, none)
    | .done consumed => some (h, some consumed)
    | .next rest => mergeFields turns h x rest

/-- `MergePartialFromCodedStream`; every turn reads a byte at least. -/
def mergePartial (h : Heap F) (x : Nat) (input : Bytes) : Option (Heap F × Option Bool) :=
  mergeFields w (input.length + 1) h x input

variable {w} {h h' : Heap F} {x : Nat} {m : EchoMessage F}

private theorem Sets.refl (hs : Sound h) (hm : h.value.messages x = some m) : Sets h h x (some m) where
  sound := hs
  messages := by rw [← hm, Function.update_eq_self]
  strings := rfl

/-- A turn does to the object what it does to the message. -/
private theorem mergeField_spec (w : WireFormat F) (hs : Sound h) (hm : h.value.messages x = some m) (input : Bytes) :
    ∃ h' turn, h.mergeField w x input = some (h', turn) ∧
      match EchoMessage.mergeField w m input with
      | .failed => turn = .failed ∧ Sets h h' x (some (m.failField w input))
      | .done m' consumed => turn = .done consumed ∧ Sets h h' x (some m')
      | .next m' rest => turn = .next rest ∧ Sets h h' x (some m') := by
  unfold mergeField EchoMessage.mergeField EchoMessage.failField
  cases w.readTag input with
  | none => exact ⟨h, .done input.isEmpty, rfl, rfl, Sets.refl hs hm⟩
  | some p =>
    dsimp only
    by_cases hmt : IsMessageTag p.1
    · rw [if_pos hmt, if_pos hmt, if_pos hmt]
      cases hr : w.readString p.2 with
      | none =>
        obtain ⟨h', hedit, hset⟩ := edit_spec hs hm fun old => w.readStringFailed old p.2
        exact ⟨h', .failed, by simp [hedit], rfl, hset⟩
      | some q =>
        obtain ⟨h', hedit, hset⟩ := edit_spec hs hm fun _ => q.1
        dsimp only
        by_cases hend : w.expectAtEnd q.2 = true
        · rw [if_pos hend, if_pos hend]
          exact ⟨h', .done true, by simp [hedit], rfl, hset⟩
        · rw [if_neg hend, if_neg hend]
          exact ⟨h', .next q.2, by simp [hedit], rfl, hset⟩
    · rw [if_neg hmt, if_neg hmt, if_neg hmt]
      by_cases hg : Wire.wireType p.1 = 4
      · rw [if_pos hg, if_pos hg]
        exact ⟨h, .done false, rfl, rfl, Sets.refl hs hm⟩
      · rw [if_neg hg, if_neg hg]
        cases hr : w.skipField p.1 p.2 with
        | none =>
          obtain ⟨h', hadd, hset⟩ := addUnknown_spec hs hm (w.skipFieldFailed p.1 p.2)
          exact ⟨h', .failed, by simp [hadd], rfl, hset⟩
        | some q =>
          obtain ⟨h', hadd, hset⟩ := addUnknown_spec hs hm [q.1]
          exact ⟨h', .next q.2, by simp [hadd], rfl, hset⟩

private theorem mergeFields_spec (w : WireFormat F) (hs : Sound h) (hm : h.value.messages x = some m) {turns : Nat}
    {input : Bytes} (hlt : input.length < turns) :
    ∃ h', mergeFields w turns h x input = some (h', (EchoMessage.mergePartial w m input).map Prod.snd) ∧
      Sets h h' x (some (m.leaves w input)) := by
  induction turns generalizing h m input with
  | zero => omega
  | succ turns ih =>
    obtain ⟨h₁, turn, hstep, hturn⟩ := mergeField_spec w hs hm input
    rw [EchoMessage.mergePartial_eq, EchoMessage.leaves_eq]
    cases ht : EchoMessage.mergeField w m input with
    | failed =>
      rw [ht] at hturn
      obtain ⟨rfl, hset⟩ := hturn
      exact ⟨h₁, by simp [mergeFields, hstep], hset⟩
    | done m' consumed =>
      rw [ht] at hturn
      obtain ⟨rfl, hset⟩ := hturn
      exact ⟨h₁, by simp [mergeFields, hstep], hset⟩
    | next m' rest =>
      rw [ht] at hturn
      obtain ⟨rfl, hset⟩ := hturn
      have hrest := EchoMessage.mergeField_length w ht
      have hturns : rest.length < turns := by omega
      obtain ⟨h', hloop, hset'⟩ := ih hset.sound hset.self hturns
      exact ⟨h', by simp [mergeFields, hstep, hloop], hset.trans hset'⟩

/-- Whatever the input is, the parser comes back, returns what it returns for the message, and changes no other
object. -/
theorem mergePartial_spec (w : WireFormat F) (hs : Sound h) (hm : h.value.messages x = some m) (input : Bytes) :
    ∃ h', h.mergePartial w x input = some (h', (EchoMessage.mergePartial w m input).map Prod.snd) ∧
      Sets h h' x (some (m.leaves w input)) :=
  mergeFields_spec w hs hm (Nat.lt_succ_self _)

/-- A message that was written is merged into the object that reads it. -/
theorem mergePartial_written {tagOf : F → Nat} {w : WireFormat F} (hw : w.Lawful tagOf) (hs : Sound h)
    (hm : h.value.messages x = some m) {s : EchoMessage F} (hf : s.Foreign tagOf) (hlen : s.message.length < 2 ^ 31) :
    ∃ h', h.mergePartial w x (s.serialize w) = some (h', some true) ∧ Sets h h' x (some (m.mergeFrom s)) := by
  have hread : EchoMessage.mergePartial w m (s.serialize w) = some (m.mergeFrom s, true) := by
    have hmerge := EchoMessage.mergePartial_serialize hw m hf hlen []
    rwa [List.append_nil, EchoMessage.mergePartial_nil hw] at hmerge
  obtain ⟨h', hparse, hset⟩ := mergePartial_spec w hs hm (s.serialize w)
  rw [hread] at hparse
  rw [EchoMessage.leaves_of_mergePartial hread] at hset
  exact ⟨h', hparse, hset⟩

end Heap

end LearnTogether
