import LearnTogether.Base.Varint

/-!
# Fields on the wire

The encoding of protobuf below the messages: a message is a sequence of fields, and a field is a tag and a value.  The
tag is a varint with the number of the field and, in its three low bits, the wire type, which says how long the value
is.  So a reader that does not know a field can pass over it, and can write it again as it was (`skip_value`).  No
reader looks at what comes after what it reads.  The wire types of groups are left out.
-/

namespace Wire

open Varint

def tag (number wireType : Nat) : Nat := 8 * number + wireType

def fieldNumber (tag : Nat) : Nat := tag / 8

def wireType (tag : Nat) : Nat := tag % 8

private theorem fieldNumber_tag {number type : Nat} (h : type < 8) : fieldNumber (tag number type) = number := by
  unfold fieldNumber tag
  omega

theorem wireType_tag {number type : Nat} (h : type < 8) : wireType (tag number type) = type := by
  unfold wireType tag
  omega

/-- A tag of 32 bits, at most five bytes. -/
def writeTag (t : Nat) : List UInt8 := encode 4 t

/-- The tag at the head of the bytes; zero is no tag. -/
def readTag (bs : List UInt8) : Option (Nat × List UInt8) :=
  match decode 4 bs with
  | some (t, rest) => if 0 < t ∧ t < 2 ^ 32 then some (t, rest) else none
  | none => none

theorem readTag_writeTag {t : Nat} (h0 : 0 < t) (h : t < 2 ^ 32) (rest : List UInt8) :
    readTag (writeTag t ++ rest) = some (t, rest) := by
  have hd := decode_encode 4 t rest (by omega)
  unfold readTag writeTag
  rw [hd]
  exact if_pos ⟨h0, h⟩

theorem readTag_length {bs rest : List UInt8} {t : Nat} (h : readTag bs = some (t, rest)) :
    rest.length < bs.length := by
  unfold readTag at h
  split at h
  · rename_i t' rest' hd
    split at h
    · cases h
      exact decode_length hd
    · cases h
  · cases h

theorem readTag_append {bs rest : List UInt8} {t : Nat} (h : readTag bs = some (t, rest)) (more : List UInt8) :
    readTag (bs ++ more) = some (t, rest ++ more) := by
  unfold readTag at h ⊢
  cases hd : decode 4 bs with
  | none =>
    rw [hd] at h
    cases h
  | some p =>
    rw [hd] at h
    rw [decode_append hd]
    dsimp only at h ⊢
    by_cases hp : 0 < p.1 ∧ p.1 < 2 ^ 32
    · rw [if_pos hp] at h ⊢
      cases h
      rfl
    · rw [if_neg hp] at h
      cases h

/-! ### Values -/

/-- A byte string with its length before it. -/
def writeBytes (v : List UInt8) : List UInt8 := encode 4 v.length ++ v

def readBytes (bs : List UInt8) : Option (List UInt8 × List UInt8) :=
  match decode 4 bs with
  | some (n, rest) => if n ≤ rest.length then some (rest.take n, rest.drop n) else none
  | none => none

theorem readBytes_writeBytes {v : List UInt8} (h : v.length < 2 ^ 31) (rest : List UInt8) :
    readBytes (writeBytes v ++ rest) = some (v, rest) := by
  have hd := decode_encode 4 v.length (v ++ rest) (by omega)
  unfold readBytes writeBytes
  rw [List.append_assoc, hd]
  have hle : v.length ≤ (v ++ rest).length := by
    rw [List.length_append]
    omega
  simp only [if_pos hle, List.take_left, List.drop_left]

theorem readBytes_length {bs v rest : List UInt8} (h : readBytes bs = some (v, rest)) : rest.length ≤ bs.length := by
  unfold readBytes at h
  split at h
  · rename_i n rest' hd
    have hlt := decode_length hd
    split at h
    · cases h
      rw [List.length_drop]
      omega
    · cases h
  · cases h

theorem readBytes_append {bs v rest : List UInt8} (h : readBytes bs = some (v, rest)) (more : List UInt8) :
    readBytes (bs ++ more) = some (v, rest ++ more) := by
  unfold readBytes at h ⊢
  cases hd : decode 4 bs with
  | none =>
    rw [hd] at h
    cases h
  | some p =>
    rw [hd] at h
    rw [decode_append hd]
    dsimp only at h ⊢
    by_cases hp : p.1 ≤ p.2.length
    · have hp' : p.1 ≤ (p.2 ++ more).length := by
        rw [List.length_append]
        omega
      rw [if_pos hp] at h
      cases h
      rw [if_pos hp', List.take_append_of_le_length hp, List.drop_append_of_le_length hp]
    · rw [if_neg hp] at h
      cases h

/-- What a string `old` becomes when `readBytes` into it fails: behind a length there was too little input. -/
def readBytesFailed (old bs : List UInt8) : List UInt8 :=
  match decode 4 bs with
  | some (n, rest) => if n < 2 ^ 31 then rest else old
  | none => old

/-- The `k` low bytes of a number, the lowest first. -/
def toLE : Nat → Nat → List UInt8
  | 0, _ => []
  | k + 1, n => UInt8.ofNat (n % 256) :: toLE k (n / 256)

def ofLE : List UInt8 → Nat
  | [] => 0
  | b :: bs => b.toNat + 256 * ofLE bs

private theorem length_toLE (k n : Nat) : (toLE k n).length = k := by
  induction k generalizing n with
  | zero => rfl
  | succ k ih => rw [toLE, List.length_cons, ih]

private theorem ofLE_toLE (k n : Nat) (h : n < 256 ^ k) : ofLE (toLE k n) = n := by
  induction k generalizing n with
  | zero =>
    have : n = 0 := by omega
    rw [this]
    rfl
  | succ k ih =>
    have hdiv : n / 256 < 256 ^ k := by
      rw [Nat.div_lt_iff_lt_mul (by omega), ← Nat.pow_succ]
      exact h
    have hb : (UInt8.ofNat (n % 256)).toNat = n % 256 := by
      rw [UInt8.toNat_ofNat', Nat.mod_eq_of_lt (by omega)]
    rw [toLE, ofLE, ih _ hdiv, hb]
    omega

/-- The number in the first `k` bytes. -/
def readLE (k : Nat) (bs : List UInt8) : Option (Nat × List UInt8) :=
  if k ≤ bs.length then some (ofLE (bs.take k), bs.drop k) else none

private theorem readLE_toLE {k n : Nat} (h : n < 256 ^ k) (rest : List UInt8) :
    readLE k (toLE k n ++ rest) = some (n, rest) := by
  have hlen := length_toLE k n
  unfold readLE
  rw [if_pos (by rw [List.length_append]; omega), List.take_left' hlen, List.drop_left' hlen, ofLE_toLE k n h]

private theorem readLE_length {k n : Nat} {bs rest : List UInt8} (h : readLE k bs = some (n, rest)) :
    rest.length ≤ bs.length := by
  unfold readLE at h
  split at h
  · cases h
    rw [List.length_drop]
    omega
  · cases h

private theorem readLE_append {k n : Nat} {bs rest : List UInt8} (h : readLE k bs = some (n, rest))
    (more : List UInt8) : readLE k (bs ++ more) = some (n, rest ++ more) := by
  unfold readLE at h ⊢
  by_cases hk : k ≤ bs.length
  · have hk' : k ≤ (bs ++ more).length := by
      rw [List.length_append]
      omega
    rw [if_pos hk] at h
    cases h
    rw [if_pos hk', List.take_append_of_le_length hk, List.drop_append_of_le_length hk]
  · rw [if_neg hk] at h
    cases h

inductive Value
  | varint (v : UInt64)
  | fixed64 (v : UInt64)
  | bytes (v : List UInt8)
  | fixed32 (v : UInt32)
  deriving DecidableEq

namespace Value

def wireType : Value → Nat
  | .varint _ => 0
  | .fixed64 _ => 1
  | .bytes _ => 2
  | .fixed32 _ => 5

theorem wireType_lt (v : Value) : v.wireType < 8 := by
  cases v <;> simp [wireType]

def write : Value → List UInt8
  | .varint v => encode 9 v.toNat
  | .fixed64 v => toLE 8 v.toNat
  | .bytes v => writeBytes v
  | .fixed32 v => toLE 4 v.toNat

/-- The value of a wire type at the head of the bytes. -/
def read (type : Nat) (bs : List UInt8) : Option (Value × List UInt8) :=
  match type with
  | 0 => (decode 9 bs).map fun p => (.varint (UInt64.ofNat p.1), p.2)
  | 1 => (readLE 8 bs).map fun p => (.fixed64 (UInt64.ofNat p.1), p.2)
  | 2 => (readBytes bs).map fun p => (.bytes p.1, p.2)
  | 5 => (readLE 4 bs).map fun p => (.fixed32 (UInt32.ofNat p.1), p.2)
  | _ => none

/-- The value is not longer than protobuf allows. -/
def Short : Value → Prop
  | .bytes v => v.length < 2 ^ 31
  | _ => True

instance : (v : Value) → Decidable v.Short
  | .bytes v => inferInstanceAs (Decidable (v.length < 2 ^ 31))
  | .varint _ | .fixed64 _ | .fixed32 _ => inferInstanceAs (Decidable True)

theorem read_write {v : Value} (h : v.Short) (rest : List UInt8) :
    read v.wireType (v.write ++ rest) = some (v, rest) := by
  cases v with
  | varint v =>
    have hd := decode_encode 9 v.toNat rest (Nat.lt_trans v.toNat_lt (by decide))
    simp only [read, wireType, write, hd, Option.map_some, UInt64.ofNat_toNat]
  | fixed64 v =>
    have hd := readLE_toLE (k := 8) (n := v.toNat) (Nat.lt_of_lt_of_le v.toNat_lt (by decide)) rest
    simp only [read, wireType, write, hd, Option.map_some, UInt64.ofNat_toNat]
  | bytes v =>
    have hd := readBytes_writeBytes (v := v) h rest
    simp only [read, wireType, write, hd, Option.map_some]
  | fixed32 v =>
    have hd := readLE_toLE (k := 4) (n := v.toNat) (Nat.lt_of_lt_of_le v.toNat_lt (by decide)) rest
    simp only [read, wireType, write, hd, Option.map_some, UInt32.ofNat_toNat]

private theorem wireType_of_read {type : Nat} {bs rest : List UInt8} {v : Value} (h : read type bs = some (v, rest)) :
    v.wireType = type := by
  unfold read at h
  split at h
  all_goals first
    | cases h
    | obtain ⟨p, -, he⟩ := Option.map_eq_some_iff.1 h
      cases he
      rfl

private theorem read_length {type : Nat} {bs rest : List UInt8} {v : Value} (h : read type bs = some (v, rest)) :
    rest.length ≤ bs.length := by
  unfold read at h
  split at h
  · obtain ⟨p, hp, he⟩ := Option.map_eq_some_iff.1 h
    cases he
    exact Nat.le_of_lt (decode_length hp)
  · obtain ⟨p, hp, he⟩ := Option.map_eq_some_iff.1 h
    cases he
    exact readLE_length hp
  · obtain ⟨p, hp, he⟩ := Option.map_eq_some_iff.1 h
    cases he
    exact readBytes_length hp
  · obtain ⟨p, hp, he⟩ := Option.map_eq_some_iff.1 h
    cases he
    exact readLE_length hp
  · cases h

private theorem read_append {type : Nat} {bs rest : List UInt8} {v : Value} (h : read type bs = some (v, rest))
    (more : List UInt8) : read type (bs ++ more) = some (v, rest ++ more) := by
  unfold read at h ⊢
  split at h
  · obtain ⟨p, hp, he⟩ := Option.map_eq_some_iff.1 h
    cases he
    rw [decode_append hp]
    rfl
  · obtain ⟨p, hp, he⟩ := Option.map_eq_some_iff.1 h
    cases he
    rw [readLE_append hp]
    rfl
  · obtain ⟨p, hp, he⟩ := Option.map_eq_some_iff.1 h
    cases he
    rw [readBytes_append hp]
    rfl
  · obtain ⟨p, hp, he⟩ := Option.map_eq_some_iff.1 h
    cases he
    rw [readLE_append hp]
    rfl
  · cases h

end Value

/-! ### Fields -/

structure Field where
  number : Nat
  value : Value
  pos : 0 < number
  lt : number < 2 ^ 29
  short : value.Short

namespace Field

def tag (f : Field) : Nat := Wire.tag f.number f.value.wireType

def write (f : Field) : List UInt8 := writeTag f.tag ++ f.value.write

/-- Passes over the value behind the tag `t`. -/
def skip (t : Nat) (bs : List UInt8) : Option (Field × List UInt8) :=
  if ht : 0 < fieldNumber t ∧ fieldNumber t < 2 ^ 29 then
    match Value.read (Wire.wireType t) bs with
    | some (v, rest) => if hv : v.Short then some (⟨fieldNumber t, v, ht.1, ht.2, hv⟩, rest) else none
    | none => none
  else none

/-- The field that a failing `skip` of a byte string has begun. -/
def skipFailed (t : Nat) (bs : List UInt8) : List Field :=
  if ht : 0 < fieldNumber t ∧ fieldNumber t < 2 ^ 29 ∧ Wire.wireType t = 2 then
    match decode 4 bs with
    | some _ =>
      let v := readBytesFailed [] bs
      if hv : (Value.bytes v).Short then [⟨fieldNumber t, .bytes v, ht.1, ht.2.1, hv⟩] else []
    | none => []
  else []

private theorem tag_pos (f : Field) : 0 < f.tag := by
  have := f.pos
  unfold tag Wire.tag
  omega

private theorem tag_lt (f : Field) : f.tag < 2 ^ 32 := by
  have := f.lt
  have := f.value.wireType_lt
  unfold tag Wire.tag
  omega

theorem readTag_write (f : Field) (rest : List UInt8) :
    readTag (f.write ++ rest) = some (f.tag, f.value.write ++ rest) := by
  unfold write
  rw [List.append_assoc]
  exact readTag_writeTag f.tag_pos f.tag_lt _

/-- A field that was passed over is the one that was written. -/
theorem skip_value (f : Field) (rest : List UInt8) : skip f.tag (f.value.write ++ rest) = some (f, rest) := by
  obtain ⟨number, value, pos, lt, short⟩ := f
  have hn : fieldNumber (Wire.tag number value.wireType) = number := fieldNumber_tag value.wireType_lt
  have ht : Wire.wireType (Wire.tag number value.wireType) = value.wireType := wireType_tag value.wireType_lt
  unfold skip tag
  simp only [hn, ht, Value.read_write short, dif_pos short, dif_pos (And.intro pos lt)]

theorem tag_of_skip {t : Nat} {bs rest : List UInt8} {f : Field} (h : skip t bs = some (f, rest)) : f.tag = t := by
  unfold skip at h
  split at h
  · split at h
    · rename_i v rest' hv
      split at h
      · cases h
        have hw := Value.wireType_of_read hv
        unfold tag Wire.tag
        simp only [hw, fieldNumber, Wire.wireType]
        omega
      · cases h
    · cases h
  · cases h

theorem skip_append {t : Nat} {bs rest : List UInt8} {f : Field} (h : skip t bs = some (f, rest))
    (more : List UInt8) : skip t (bs ++ more) = some (f, rest ++ more) := by
  unfold skip at h ⊢
  by_cases ht : 0 < fieldNumber t ∧ fieldNumber t < 2 ^ 29
  · rw [dif_pos ht] at h ⊢
    cases hv : Value.read (Wire.wireType t) bs with
    | none =>
      rw [hv] at h
      cases h
    | some p =>
      rw [hv] at h
      rw [Value.read_append hv]
      dsimp only at h ⊢
      by_cases hs : p.1.Short
      · rw [dif_pos hs] at h ⊢
        cases h
        rfl
      · rw [dif_neg hs] at h
        cases h
  · rw [dif_neg ht] at h
    cases h

theorem skip_length {t : Nat} {bs rest : List UInt8} {f : Field} (h : skip t bs = some (f, rest)) :
    rest.length ≤ bs.length := by
  unfold skip at h
  split at h
  · split at h
    · rename_i v rest' hv
      split at h
      · cases h
        exact Value.read_length hv
      · cases h
    · cases h
  · cases h

end Field

end Wire
