import LearnTogether.Base.Wire
import LearnTogether.Counter.Message
import Mathlib.Algebra.GroupWithZero.Nat
import Mathlib.Data.List.Basic

/-!
# The messages of the echo service

`EchoRequest` and `EchoResponse` of `echo.pb.h` have the same code: one string `message` with its bit in `_has_bits_`,
and the fields that the parser did not know.  Here the string is a value; how the objects share and own their strings
is another matter.  The functions of protobuf's runtime that the generated code calls are the parameter `WireFormat`;
what it relies on is `WireFormat.Lawful`, and the format of `Wire` satisfies it.

Parsing merges: to parse into a message is to parse into a fresh one and to merge (`mergePartial_mergeFrom`), and
inputs that are accepted one by one are, one behind the other, read as the merge of their messages
(`mergePartial_concat`).
-/

namespace LearnTogether

/-- What the generated code takes from protobuf.  A read gives what it has read and what is left of the input; `F` is
the type of the fields that can be kept as unknown fields. -/
structure WireFormat (F : Type) where
  /-- `CodedInputStream::ReadTag`, `none` for the tag 0, which stands for the end of the input and for bad tags. -/
  readTag : Bytes → Option (Nat × Bytes)
  /-- `CodedInputStream::ExpectAtEnd`. -/
  expectAtEnd : Bytes → Bool
  /-- `WireFormatLite::ReadString`. -/
  readString : Bytes → Option (Bytes × Bytes)
  /-- `WireFormat::SkipField`, with the field that it adds to the unknown fields. -/
  skipField : Nat → Bytes → Option (F × Bytes)
  /-- What a failing `ReadString` makes of the string. -/
  readStringFailed : Bytes → Bytes → Bytes
  /-- The unknown fields that a failing `SkipField` adds. -/
  skipFieldFailed : Nat → Bytes → List F
  /-- `WireFormatLite::WriteString`. -/
  writeString : Nat → Bytes → Bytes
  /-- `WireFormatLite::StringSize`. -/
  stringSize : Bytes → Nat
  /-- `WireFormat::SerializeUnknownFields` of one field. -/
  writeField : F → Bytes
  /-- `WireFormat::ComputeUnknownFieldsSize` of one field. -/
  fieldSize : F → Nat
  /-- Reading a tag uses up some of the input, and no read makes it longer. -/
  readTag_length : ∀ {bs tag rest}, readTag bs = some (tag, rest) → rest.length < bs.length
  readString_length : ∀ {bs v rest}, readString bs = some (v, rest) → rest.length ≤ bs.length
  skipField_length : ∀ {tag bs f rest}, skipField tag bs = some (f, rest) → rest.length ≤ bs.length

/-- The case of `MergePartialFromCodedStream` for `required string message = 1`. -/
def IsMessageTag (tag : Nat) : Prop := Wire.fieldNumber tag = 1 ∧ Wire.wireType tag = 2

instance (tag : Nat) : Decidable (IsMessageTag tag) := inferInstanceAs (Decidable (_ ∧ _))

/-- What the generated code relies on: reads undo writes, what follows in the input does not matter to a read, and
sizes are right.  `tagOf f` is the tag of the field `f`. -/
structure WireFormat.Lawful {F : Type} (w : WireFormat F) (tagOf : F → Nat) : Prop where
  readTag_nil : w.readTag [] = none
  expectAtEnd : ∀ {bs}, w.expectAtEnd bs = true → bs = []
  string : ∀ v rest, v.length < 2 ^ 31 → ∃ tag mid, w.readTag (w.writeString 1 v ++ rest) = some (tag, mid) ∧
    IsMessageTag tag ∧ w.readString mid = some (v, rest)
  string_size : ∀ v, v.length < 2 ^ 31 → (w.writeString 1 v).length = 1 + w.stringSize v
  field : ∀ f rest, ∃ mid, w.readTag (w.writeField f ++ rest) = some (tagOf f, mid) ∧
    w.skipField (tagOf f) mid = some (f, rest)
  field_size : ∀ f, (w.writeField f).length = w.fieldSize f
  /-- An end-group tag ends a field and is none. -/
  notEndGroup : ∀ f, Wire.wireType (tagOf f) ≠ 4
  tagOf_skipField : ∀ {tag bs f rest}, w.skipField tag bs = some (f, rest) → tagOf f = tag
  readTag_append : ∀ {bs tag rest}, w.readTag bs = some (tag, rest) → ∀ more,
    w.readTag (bs ++ more) = some (tag, rest ++ more)
  readString_append : ∀ {bs v rest}, w.readString bs = some (v, rest) → ∀ more,
    w.readString (bs ++ more) = some (v, rest ++ more)
  skipField_append : ∀ {tag bs f rest}, w.skipField tag bs = some (f, rest) → ∀ more,
    w.skipField tag (bs ++ more) = some (f, rest ++ more)

/-- The state of an `EchoRequest` or `EchoResponse`.  A message that is not set is empty. -/
@[ext]
structure EchoMessage (F : Type) where
  has : Bool := false
  message : Bytes := []
  unknown : List F := []
  absent : has = false → message = [] := by simp

/-- What a turn of the parser's loop leads to: `return false`, `return true`, or the next turn. -/
inductive Turn (F : Type)
  | failed
  | done (m : EchoMessage F) (consumed : Bool)
  | next (m : EchoMessage F) (rest : Bytes)

namespace EchoMessage

variable {F : Type} (w : WireFormat F)

def new : EchoMessage F := {}

def setMessage (m : EchoMessage F) (value : Bytes) : EchoMessage F where
  has := true
  message := value
  unknown := m.unknown

def clearMessage (m : EchoMessage F) : EchoMessage F where
  unknown := m.unknown

def clear (m : EchoMessage F) : EchoMessage F where
  has := false
  message := if m.has then [] else m.message
  absent _ := by
    cases h : m.has with
    | true => rfl
    | false => exact m.absent h

/-- `MergeFrom` of another object. -/
def mergeFrom (m source : EchoMessage F) : EchoMessage F :=
  let m := if source.has then m.setMessage source.message else m
  { m with unknown := m.unknown ++ source.unknown }

/-- `CopyFrom` of another object. -/
def copyFrom (m source : EchoMessage F) : EchoMessage F := m.clear.mergeFrom source

def isInitialized (m : EchoMessage F) : Bool := m.has

def addUnknown (m : EchoMessage F) (f : F) : EchoMessage F := { m with unknown := m.unknown ++ [f] }

/-- One turn of the loop of `MergePartialFromCodedStream`. -/
def mergeField (m : EchoMessage F) (input : Bytes) : Turn F :=
  match w.readTag input with
  | none => .done m input.isEmpty
  | some (tag, input) =>
    if IsMessageTag tag then
      match w.readString input with
      | none => .failed
      | some (value, rest) =>
        if w.expectAtEnd rest then .done (m.setMessage value) true else .next (m.setMessage value) rest
    else if Wire.wireType tag = 4 then .done m false
    else
      match w.skipField tag input with
      | none => .failed
      | some (f, rest) => .next (m.addUnknown f) rest

theorem mergeField_length {m m' : EchoMessage F} {input rest : Bytes} (h : mergeField w m input = .next m' rest) :
    rest.length < input.length := by
  unfold mergeField at h
  cases ht : w.readTag input with
  | none => simp [ht] at h
  | some p =>
    have hlt := w.readTag_length ht
    simp only [ht] at h
    split at h
    · cases hs : w.readString p.2 with
      | none => simp [hs] at h
      | some q =>
        have hle := w.readString_length hs
        simp only [hs] at h
        split at h <;> cases h
        omega
    · split at h
      · cases h
      · cases hs : w.skipField p.1 p.2 with
        | none => simp [hs] at h
        | some q =>
          have hle := w.skipField_length hs
          simp only [hs] at h
          cases h
          omega

/-- `MergePartialFromCodedStream`: `none` when it returns false, otherwise the message and whether all the input was
consumed, as `ConsumedEntireMessage` tells. -/
def mergePartial (m : EchoMessage F) (input : Bytes) : Option (EchoMessage F × Bool) :=
  match h : mergeField w m input with
  | .failed => none
  | .done m consumed => some (m, consumed)
  | .next m rest =>
    have := mergeField_length w h
    mergePartial m rest
termination_by input.length

/-- `SerializeWithCachedSizes`. -/
def serialize (m : EchoMessage F) : Bytes :=
  (if m.has then w.writeString 1 m.message else []) ++ m.unknown.flatMap w.writeField

/-- `ByteSize`, for messages below protobuf's limit of 2 GiB. -/
def byteSize (m : EchoMessage F) : Nat :=
  (if m.has then 1 + w.stringSize m.message else 0) + (m.unknown.map w.fieldSize).sum

/-- None of the unknown fields would be read as the message. -/
def Foreign (tagOf : F → Nat) (m : EchoMessage F) : Prop := ∀ f ∈ m.unknown, ¬ IsMessageTag (tagOf f)

variable {w} {tagOf : F → Nat} {m s : EchoMessage F}

/-! ### Merging values -/

@[simp] theorem has_mergeFrom (m s : EchoMessage F) : (m.mergeFrom s).has = (m.has || s.has) := by
  unfold mergeFrom
  cases h : s.has <;> simp [setMessage]

@[simp] theorem unknown_mergeFrom (m s : EchoMessage F) : (m.mergeFrom s).unknown = m.unknown ++ s.unknown := by
  unfold mergeFrom
  cases h : s.has <;> simp [setMessage]

@[simp] theorem message_mergeFrom (m s : EchoMessage F) :
    (m.mergeFrom s).message = if s.has then s.message else m.message := by
  unfold mergeFrom
  cases h : s.has <;> simp [setMessage]

theorem clear_eq_new (m : EchoMessage F) : m.clear = new := by
  have hm : m.clear.message = [] := m.clear.absent rfl
  exact EchoMessage.ext rfl hm rfl

theorem new_mergeFrom (s : EchoMessage F) : new.mergeFrom s = s := by
  have hm : (new.mergeFrom s).message = s.message := by
    rw [message_mergeFrom]
    cases h : s.has with
    | true => rfl
    | false => exact (s.absent h).symm
  exact EchoMessage.ext (by simp [new]) hm (by simp [new])

private theorem mergeFrom_new (m : EchoMessage F) : m.mergeFrom new = m := by
  apply EchoMessage.ext <;> simp [new]

private theorem mergeFrom_assoc (a b c : EchoMessage F) : (a.mergeFrom b).mergeFrom c = a.mergeFrom
    (b.mergeFrom c) := by
  have hm : ((a.mergeFrom b).mergeFrom c).message = (a.mergeFrom (b.mergeFrom c)).message := by
    simp only [message_mergeFrom, has_mergeFrom]
    cases b.has <;> cases c.has <;> simp
  exact EchoMessage.ext (by simp [Bool.or_assoc]) hm (by simp)

/-- A copy is equal to the original, whatever was there before. -/
theorem copyFrom_eq (m s : EchoMessage F) : m.copyFrom s = s := by
  unfold copyFrom
  rw [clear_eq_new, new_mergeFrom]

/-! ### Reading what was written -/

theorem mergePartial_eq (w : WireFormat F) (m : EchoMessage F) (input : Bytes) :
    mergePartial w m input = match mergeField w m input with
      | .failed => none
      | .done m consumed => some (m, consumed)
      | .next m rest => mergePartial w m rest := by
  rw [mergePartial]
  split <;> simp_all

theorem mergePartial_nil (hw : w.Lawful tagOf) (m : EchoMessage F) : mergePartial w m [] = some (m, true) := by
  rw [mergePartial_eq]
  simp only [mergeField, hw.readTag_nil, List.isEmpty_nil]

private theorem mergePartial_string (hw : w.Lawful tagOf) (m : EchoMessage F) {v : Bytes} (hv : v.length < 2 ^ 31)
    (rest : Bytes) : mergePartial w m (w.writeString 1 v ++ rest) = mergePartial w (m.setMessage v) rest := by
  obtain ⟨tag, mid, ht, hmt, hs⟩ := hw.string v rest hv
  rw [mergePartial_eq]
  simp only [mergeField, ht, if_pos hmt, hs]
  by_cases hend : w.expectAtEnd rest = true
  · -- to stop at once is to go on with nothing
    rw [if_pos hend, hw.expectAtEnd hend, mergePartial_nil hw]
  · rw [if_neg hend]

private theorem mergePartial_field (hw : w.Lawful tagOf) (m : EchoMessage F) {f : F} (hf : ¬ IsMessageTag (tagOf f))
    (rest : Bytes) : mergePartial w m (w.writeField f ++ rest) = mergePartial w (m.addUnknown f) rest := by
  obtain ⟨mid, ht, hs⟩ := hw.field f rest
  rw [mergePartial_eq]
  simp only [mergeField, ht, if_neg hf, if_neg (hw.notEndGroup f), hs]

private theorem mergePartial_fields (hw : w.Lawful tagOf) (m : EchoMessage F) (fs : List F)
    (hf : ∀ f ∈ fs, ¬ IsMessageTag (tagOf f)) (rest : Bytes) :
    mergePartial w m (fs.flatMap w.writeField ++ rest) =
      mergePartial w { m with unknown := m.unknown ++ fs } rest := by
  induction fs generalizing m with
  | nil => simp
  | cons f fs ih =>
    have hfs : ∀ g ∈ fs, ¬ IsMessageTag (tagOf g) := fun g hg => hf g (List.mem_cons_of_mem _ hg)
    rw [List.flatMap_cons, List.append_assoc, mergePartial_field hw m (hf f (List.mem_cons_self ..)),
      ih (m.addUnknown f) hfs]
    simp [addUnknown]

/-- Parsing what was written merges it into the message, and goes on behind it. -/
theorem mergePartial_serialize (hw : w.Lawful tagOf) (m : EchoMessage F) {s : EchoMessage F} (hs : s.Foreign tagOf)
    (hlen : s.message.length < 2 ^ 31) (rest : Bytes) :
    mergePartial w m (s.serialize w ++ rest) = mergePartial w (m.mergeFrom s) rest := by
  unfold serialize mergeFrom
  cases h : s.has with
  | true =>
    simp only [if_true]
    rw [List.append_assoc, mergePartial_string hw m hlen, mergePartial_fields hw _ _ hs]
  | false =>
    simp only [Bool.false_eq_true, if_false, List.nil_append]
    rw [mergePartial_fields hw _ _ hs]

theorem parse_serialize (hw : w.Lawful tagOf) {s : EchoMessage F} (hf : s.Foreign tagOf)
    (hlen : s.message.length < 2 ^ 31) : mergePartial w new (s.serialize w) = some (s, true) := by
  have h := mergePartial_serialize hw new hf hlen []
  rw [List.append_nil, new_mergeFrom, mergePartial_nil hw] at h
  exact h

/-! ### What the parser accepts -/

private theorem setMessage_mergeFrom (m s : EchoMessage F) (v : Bytes) :
    (m.mergeFrom s).setMessage v = m.mergeFrom (s.setMessage v) := by
  apply EchoMessage.ext <;> simp [setMessage]

private theorem addUnknown_mergeFrom (m s : EchoMessage F) (f : F) :
    (m.mergeFrom s).addUnknown f = m.mergeFrom (s.addUnknown f) := by
  apply EchoMessage.ext <;> simp [addUnknown]

/-- A turn on a merged message is a turn on the message that was merged last. -/
private theorem mergeField_mergeFrom (w : WireFormat F) (m s : EchoMessage F) (input : Bytes) :
    mergeField w (m.mergeFrom s) input = match mergeField w s input with
      | .failed => .failed
      | .done s consumed => .done (m.mergeFrom s) consumed
      | .next s rest => .next (m.mergeFrom s) rest := by
  unfold mergeField
  cases w.readTag input with
  | none => rfl
  | some p =>
    dsimp only
    split
    · cases w.readString p.2 with
      | none => rfl
      | some q =>
        dsimp only
        rw [setMessage_mergeFrom]
        split <;> rfl
    · split
      · rfl
      · cases w.skipField p.1 p.2 with
        | none => rfl
        | some q =>
          dsimp only
          rw [addUnknown_mergeFrom]

/-- To parse into a message is to parse into a fresh one and to merge. -/
theorem mergePartial_mergeFrom (w : WireFormat F) (m s : EchoMessage F) (input : Bytes) :
    mergePartial w (m.mergeFrom s) input = (mergePartial w s input).map fun p => (m.mergeFrom p.1, p.2) := by
  induction hn : input.length using Nat.strongRecOn generalizing s input with
  | ind n ih =>
    rw [mergePartial_eq, mergePartial_eq w s, mergeField_mergeFrom]
    cases ht : mergeField w s input with
    | failed => rfl
    | done s consumed => rfl
    | next s rest =>
      have hlt := mergeField_length w ht
      exact ih rest.length (by omega) s rest rfl

/-- A turn that does not stop before the end of its input goes on with whatever stands behind it. -/
private theorem mergeField_append (hw : w.Lawful tagOf) (m : EchoMessage F) (input more : Bytes) :
    match mergeField w m input with
    | .failed => True
    | .done m' consumed => consumed = true → mergePartial w m (input ++ more) = mergePartial w m' more
    | .next m' rest => mergePartial w m (input ++ more) = mergePartial w m' (rest ++ more) := by
  unfold mergeField
  cases ht : w.readTag input with
  | none =>
    intro h
    rw [List.isEmpty_iff.1 h, List.nil_append]
  | some p =>
    dsimp only
    have hread := hw.readTag_append ht more
    by_cases hmt : IsMessageTag p.1
    · rw [if_pos hmt]
      cases hs : w.readString p.2 with
      | none => trivial
      | some q =>
        have hgo : mergePartial w m (input ++ more) = mergePartial w (m.setMessage q.1) (q.2 ++ more) := by
          rw [mergePartial_eq]
          simp only [mergeField, hread, if_pos hmt, hw.readString_append hs more]
          by_cases hend : w.expectAtEnd (q.2 ++ more) = true
          · rw [if_pos hend, hw.expectAtEnd hend, mergePartial_nil hw]
          · rw [if_neg hend]
        dsimp only
        by_cases hend : w.expectAtEnd q.2 = true
        · rw [if_pos hend]
          intro _
          rw [hgo, hw.expectAtEnd hend, List.nil_append]
        · rw [if_neg hend]
          exact hgo
    · rw [if_neg hmt]
      by_cases hg : Wire.wireType p.1 = 4
      · rw [if_pos hg]
        intro h
        cases h
      · rw [if_neg hg]
        cases hs : w.skipField p.1 p.2 with
        | none => trivial
        | some q =>
          show mergePartial w m (input ++ more) = _
          rw [mergePartial_eq]
          simp only [mergeField, hread, if_neg hmt, if_neg hg, hw.skipField_append hs more]

/-- An accepted input is read first, and then what stands behind it. -/
private theorem mergePartial_append (hw : w.Lawful tagOf) {m' : EchoMessage F} {input : Bytes}
    (h : mergePartial w m input = some (m', true)) (more : Bytes) :
    mergePartial w m (input ++ more) = mergePartial w m' more := by
  induction hn : input.length using Nat.strongRecOn generalizing m input with
  | ind n ih =>
    have hturn := mergeField_append hw m input more
    rw [mergePartial_eq] at h
    cases ht : mergeField w m input with
    | failed =>
      rw [ht] at h
      cases h
    | done s consumed =>
      rw [ht] at h hturn
      cases h
      exact hturn rfl
    | next s rest =>
      have hlt := mergeField_length w ht
      rw [ht] at h hturn
      rw [hturn]
      exact ih rest.length (by omega) h rfl

/-- Inputs that are accepted one by one are read, one behind the other, as the merge of their messages. -/
theorem mergePartial_concat (hw : w.Lawful tagOf) {l : List (Bytes × EchoMessage F)}
    (hl : ∀ p ∈ l, mergePartial w new p.1 = some (p.2, true)) (m : EchoMessage F) :
    mergePartial w m (l.flatMap Prod.fst) = some (m.mergeFrom ((l.map Prod.snd).foldr mergeFrom new), true) := by
  induction l generalizing m with
  | nil =>
    show mergePartial w m [] = some (m.mergeFrom new, true)
    rw [mergePartial_nil hw, mergeFrom_new]
  | cons p l ih =>
    have hp : mergePartial w (m.mergeFrom new) p.1 = some (m.mergeFrom p.2, true) := by
      rw [mergePartial_mergeFrom, hl p (List.mem_cons_self ..)]
      rfl
    rw [mergeFrom_new] at hp
    rw [List.flatMap_cons, mergePartial_append hw hp, ih fun q hq => hl q (List.mem_cons_of_mem _ hq)]
    rw [mergeFrom_assoc, List.map_cons, List.foldr_cons]

/-- A turn of the loop keeps only fields that the parser would again not know. -/
private theorem foreign_mergeField (hw : w.Lawful tagOf) (hm : m.Foreign tagOf) (input : Bytes) :
    match mergeField w m input with
    | .failed => True
    | .done m _ | .next m _ => m.Foreign tagOf := by
  unfold mergeField
  cases w.readTag input with
  | none => exact hm
  | some p =>
    dsimp only
    by_cases hmt : IsMessageTag p.1
    · rw [if_pos hmt]
      cases w.readString p.2 with
      | none => trivial
      | some q =>
        dsimp only
        by_cases hend : w.expectAtEnd q.2 = true
        · rw [if_pos hend]
          exact hm
        · rw [if_neg hend]
          exact hm
    · rw [if_neg hmt]
      by_cases hg : Wire.wireType p.1 = 4
      · rw [if_pos hg]
        exact hm
      · rw [if_neg hg]
        cases hs : w.skipField p.1 p.2 with
        | none => trivial
        | some q =>
          intro f hf
          rcases List.mem_append.1 hf with hf | hf
          · exact hm f hf
          · rw [List.mem_singleton.1 hf, hw.tagOf_skipField hs]
            exact hmt

private theorem foreign_mergePartial (hw : w.Lawful tagOf) {m m' : EchoMessage F} {input : Bytes} {e : Bool}
    (h : mergePartial w m input = some (m', e)) (hm : m.Foreign tagOf) : m'.Foreign tagOf := by
  induction hn : input.length using Nat.strongRecOn generalizing m input with
  | ind n ih =>
    have hturn := foreign_mergeField hw hm input
    rw [mergePartial_eq] at h
    cases ht : mergeField w m input with
    | failed =>
      rw [ht] at h
      cases h
    | done s consumed =>
      rw [ht] at h hturn
      cases h
      exact hturn
    | next s rest =>
      have hlt := mergeField_length w ht
      rw [ht] at h hturn
      exact ih rest.length (by omega) h hturn rfl

private theorem length_serialize (hw : w.Lawful tagOf) (hlen : m.message.length < 2 ^ 31) :
    (m.serialize w).length = m.byteSize w := by
  have hu : (m.unknown.flatMap w.writeField).length = (m.unknown.map w.fieldSize).sum := by
    rw [List.length_flatMap]
    congr 1
    exact List.map_congr_left fun f _ => hw.field_size f
  unfold serialize byteSize
  rw [List.length_append, hu]
  cases m.has with
  | true => simp only [if_true, hw.string_size _ hlen]
  | false => rfl

/-- What the parser makes of an input, whatever the input is. -/
structure Reserializes (w : WireFormat F) (m : EchoMessage F) : Prop where
  /-- Writing the message and reading it again gives it back. -/
  again : mergePartial w new (m.serialize w) = some (m, true)
  /-- `ByteSize` is the number of bytes that are written. -/
  size : (m.serialize w).length = m.byteSize w
  /-- To parse the bytes into another message is to merge. -/
  merge : ∀ m', mergePartial w m' (m.serialize w) = some (m'.mergeFrom m, true)

/-- Every message that the parser accepts, with whatever unknown fields, can be written and read again. -/
theorem reserializes (hw : w.Lawful tagOf) {input : Bytes} {e : Bool} (h : mergePartial w new input = some (m, e))
    (hlen : m.message.length < 2 ^ 31) : m.Reserializes w := by
  have hnew : (new : EchoMessage F).Foreign tagOf := by simp [Foreign, new]
  have hf := foreign_mergePartial hw h hnew
  refine ⟨parse_serialize hw hf hlen, length_serialize hw hlen, fun m' => ?_⟩
  have hm := mergePartial_serialize hw m' hf hlen []
  rwa [List.append_nil, mergePartial_nil hw] at hm

end EchoMessage

/-! ### The format -/

/-- Protobuf's wire format, as far as `Wire` has it. -/
def wireFormat : WireFormat Wire.Field where
  readTag := Wire.readTag
  expectAtEnd bs := bs.isEmpty
  readString := Wire.readBytes
  skipField := Wire.Field.skip
  readStringFailed := Wire.readBytesFailed
  skipFieldFailed := Wire.Field.skipFailed
  writeString number v := Wire.writeTag (Wire.tag number 2) ++ Wire.writeBytes v
  stringSize v := Varint.size 4 v.length + v.length
  writeField := Wire.Field.write
  fieldSize f := f.write.length
  readTag_length := Wire.readTag_length
  readString_length := Wire.readBytes_length
  skipField_length := Wire.Field.skip_length

theorem wireFormat_lawful : wireFormat.Lawful Wire.Field.tag where
  readTag_nil := rfl
  expectAtEnd h := List.isEmpty_iff.1 h
  string v rest hv := by
    refine ⟨Wire.tag 1 2, Wire.writeBytes v ++ rest, ?_, by decide, Wire.readBytes_writeBytes hv rest⟩
    show Wire.readTag (Wire.writeTag (Wire.tag 1 2) ++ Wire.writeBytes v ++ rest) = _
    rw [List.append_assoc]
    exact Wire.readTag_writeTag (by decide) (by decide) _
  string_size v _ := by
    show (Wire.writeTag (Wire.tag 1 2) ++ (Varint.encode 4 v.length ++ v)).length = _
    rw [List.length_append, List.length_append, Varint.length_encode]
    rfl
  field f rest := ⟨f.value.write ++ rest, f.readTag_write rest, f.skip_value rest⟩
  field_size _ := rfl
  notEndGroup f := by
    have h : Wire.wireType f.tag = f.value.wireType := Wire.wireType_tag f.value.wireType_lt
    rw [h]
    cases f.value <;> simp [Wire.Value.wireType]
  tagOf_skipField := Wire.Field.tag_of_skip
  readTag_append := Wire.readTag_append
  readString_append := Wire.readBytes_append
  skipField_append := Wire.Field.skip_append

namespace EchoMessage

/-- A message with a field that the generated code does not know. -/
def withUnknown : EchoMessage Wire.Field where
  has := true
  message := [104, 105]
  unknown := [⟨7, .varint 300, by decide, by decide, trivial⟩]

/-- The unknown field first, and the message twice. -/
def shuffled : Bytes := [56, 172, 2, 10, 1, 97, 10, 2, 104, 105]

private theorem parse_shuffled : mergePartial wireFormat new shuffled = some (withUnknown, true) := by
  have h1 : mergeField wireFormat new shuffled =
      .next (withUnknown.clearMessage) [10, 1, 97, 10, 2, 104, 105] := rfl
  have h2 : mergeField wireFormat withUnknown.clearMessage [10, 1, 97, 10, 2, 104, 105] =
      .next (withUnknown.setMessage [97]) [10, 2, 104, 105] := rfl
  have h3 : mergeField wireFormat (withUnknown.setMessage [97]) [10, 2, 104, 105] = .done withUnknown true := rfl
  rw [mergePartial_eq, h1]
  dsimp only
  rw [mergePartial_eq, h2]
  dsimp only
  rw [mergePartial_eq, h3]

theorem mergePartial_concat_shuffled : mergePartial wireFormat (withUnknown.setMessage [33]) (shuffled ++ shuffled) =
    some ((withUnknown.setMessage [33]).mergeFrom (withUnknown.mergeFrom withUnknown), true) := by
  have hl : ∀ p ∈ [(shuffled, withUnknown), (shuffled, withUnknown)],
      mergePartial wireFormat new p.1 = some (p.2, true) := by
    intro p hp
    rcases List.mem_cons.1 hp with rfl | hp
    · exact parse_shuffled
    · rw [List.mem_singleton.1 hp]
      exact parse_shuffled
  exact mergePartial_concat wireFormat_lawful hl (withUnknown.setMessage [33])

theorem reserializes_shuffled : withUnknown.Reserializes wireFormat :=
  reserializes wireFormat_lawful parse_shuffled (by decide)

end EchoMessage

end LearnTogether
