import LearnTogether.Base.Varint

/-!
# Messages and runtime of the counter

The messages of `counter.proto`, and the `Runtime`: what the server uses of protobuf and braft without defining it,
together with its flag `check_term`.  The only thing the server relies on is that parsing undoes serializing
(`Runtime.Lossless`); protobuf's own encoding of the one-field request (`protobuf`) has this property.
-/

namespace LearnTogether

abbrev Bytes := List UInt8

structure FetchAddRequest where
  value : Int64
  deriving DecidableEq

structure Snapshot where
  value : Int64
  deriving DecidableEq

/-- `message CounterResponse`; an unset field is `none`. -/
structure CounterResponse where
  success : Option Bool := none
  value : Option Int64 := none
  redirect : Option String := none
  deriving DecidableEq

namespace CounterResponse

def setSuccess (r : CounterResponse) (b : Bool) : CounterResponse := { r with success := some b }

def setValue (r : CounterResponse) (v : Int64) : CounterResponse := { r with value := some v }

def setRedirect (r : CounterResponse) (s : String) : CounterResponse := { r with redirect := some s }

end CounterResponse

/-- What the counter takes from outside: `P` is the type of non-empty `braft::PeerId`s. -/
structure Runtime (P : Type) where
  /-- `FetchAddRequest::SerializeToZeroCopyStream`, where it succeeds. -/
  serialize : FetchAddRequest → Bytes
  parse : Bytes → Option FetchAddRequest
  /-- `braft::PeerId::to_string`. -/
  toString : P → String
  /-- `FLAGS_check_term`. -/
  checkTerm : Bool

/-- Protobuf's parsing undoes its serializing. -/
def Runtime.Lossless {P : Type} (rt : Runtime P) : Prop := ∀ r, rt.parse (rt.serialize r) = some r

/-- The bytes of a message with the one field `int64 value = 1`: the tag of the field and the varint. -/
def serializeValue (v : Int64) : Bytes := 8 :: Varint.encodeInt64 v

def parseValue : Bytes → Option Int64
  | 8 :: bs =>
    match Varint.decodeInt64 bs with
    | some (v, []) => some v
    | _ => none
  | _ => none

private theorem parseValue_serializeValue (v : Int64) : parseValue (serializeValue v) = some v := by
  have h := Varint.decodeInt64_encodeInt64 v []
  rw [List.append_nil] at h
  simp only [parseValue, serializeValue, h]

/-- A runtime with protobuf's encoding of the requests. -/
def protobuf {P : Type} (toString : P → String) : Runtime P where
  serialize r := serializeValue r.value
  parse bs := (parseValue bs).map FetchAddRequest.mk
  toString := toString
  checkTerm := true

theorem protobuf_lossless {P : Type} (toString : P → String) : (protobuf toString).Lossless := by
  intro r
  simp only [protobuf, parseValue_serializeValue, Option.map_some]

end LearnTogether
