import LearnTogether.Base.Exec
import LearnTogether.Base.Ownership
import LearnTogether.Echo.Message

/-!
# The strings of the echo messages

A message object of `echo.pb.h` has a pointer to its string.  It points to the one `kEmptyString`, which all messages
share and nobody may write, until the message gets a string of its own, and this one it has to delete, unless the
caller takes it with `release_message`; with `set_allocated_message` the caller can also give a string away.

The heap has the strings by their address, and an address is used once; what the caller has to delete is `owned`.  An
operation on a string that is not there is undefined, and so is writing or deleting `kEmptyString`.
-/

namespace LearnTogether

open Exec Ownership

/-- The address of `kEmptyString`. -/
def kEmptyString : Nat := 0

/-- The members of an `EchoRequest` or `EchoResponse`. -/
structure Object (F : Type) where
  message_ : Nat := kEmptyString
  has : Bool := false
  unknown : List F := []

/-- The strings and the message objects, and which strings the caller owns. -/
structure Heap (F : Type) where
  strings : Nat → Option Bytes := fun p => if p = kEmptyString then some [] else none
  next : Nat := 1
  objects : Nat → Option (Object F) := fun _ => none
  owned : Nat → Bool := fun _ => false

namespace Heap

variable {F : Type}

def setString (h : Heap F) (p : Nat) (c : Option Bytes) : Heap F :=
  { h with strings := Function.update h.strings p c }

def setObject (h : Heap F) (x : Nat) (o : Option (Object F)) : Heap F :=
  { h with objects := Function.update h.objects x o }

def setOwned (h : Heap F) (p : Nat) (b : Bool) : Heap F := { h with owned := Function.update h.owned p b }

/-- `new std::string`. -/
def alloc (h : Heap F) (v : Bytes) : Heap F × Nat := ({ h.setString h.next (some v) with next := h.next + 1 }, h.next)

def assign (h : Heap F) (p : Nat) (v : Bytes) : Option (Heap F) := do
  let _ ← h.strings p
  if p = kEmptyString then none else some (h.setString p (some v))

def delete (h : Heap F) (p : Nat) : Option (Heap F) := do
  let _ ← h.strings p
  if p = kEmptyString then none else some (h.setString p none)

/-- `SharedCtor` for a new object. -/
def construct (h : Heap F) (x : Nat) : Option (Heap F) :=
  match h.objects x with
  | none => some (h.setObject x (some {}))
  | some _ => none

/-- The getter `message`. -/
def message (h : Heap F) (x : Nat) : Option Bytes := do
  let o ← h.objects x
  h.strings o.message_

def mutableMessage (h : Heap F) (x : Nat) : Option (Heap F × Nat) := do
  let o ← h.objects x
  if o.message_ = kEmptyString then
    let (h, p) := h.alloc []
    some (h.setObject x (some { o with has := true, message_ := p }), p)
  else some (h.setObject x (some { o with has := true }), o.message_)

/-- The caller changes the string to which `mutable_message` points. -/
def edit (h : Heap F) (x : Nat) (f : Bytes → Bytes) : Option (Heap F) := do
  let (h, p) ← h.mutableMessage x
  let v ← h.strings p
  h.assign p (f v)

def setMessage (h : Heap F) (x : Nat) (value : Bytes) : Option (Heap F) := do
  let (h, p) ← h.mutableMessage x
  h.assign p value

def clearMessage (h : Heap F) (x : Nat) : Option (Heap F) := do
  let o ← h.objects x
  let h ← if o.message_ = kEmptyString then some h else h.assign o.message_ []
  some (h.setObject x (some { o with has := false }))

def releaseMessage (h : Heap F) (x : Nat) : Option (Heap F × Option Nat) := do
  let o ← h.objects x
  if o.message_ = kEmptyString then some (h.setObject x (some { o with has := false }), none)
  else
    let h := h.setObject x (some { o with has := false, message_ := kEmptyString })
    some (h.setOwned o.message_ true, some o.message_)

/-- The part that `set_allocated_message` and `SharedDtor` begin with. -/
def deleteMessage (h : Heap F) (o : Object F) : Option (Heap F) :=
  if o.message_ = kEmptyString then some h else h.delete o.message_

def setAllocatedMessage (h : Heap F) (x : Nat) (message : Option Nat) : Option (Heap F) := do
  let o ← h.objects x
  let h ← h.deleteMessage o
  match message with
  | some p => some ((h.setObject x (some { o with has := true, message_ := p })).setOwned p false)
  | none => some (h.setObject x (some { o with has := false, message_ := kEmptyString }))

def clear (h : Heap F) (x : Nat) : Option (Heap F) := do
  let o ← h.objects x
  let h ← if o.has ∧ o.message_ ≠ kEmptyString then h.assign o.message_ [] else some h
  some (h.setObject x (some { message_ := o.message_ }))

def addUnknown (h : Heap F) (x : Nat) (fs : List F) : Option (Heap F) := do
  let o ← h.objects x
  some (h.setObject x (some { o with unknown := o.unknown ++ fs }))

/-- `MergeFrom`, which aborts when both are the same object. -/
def mergeFrom (h : Heap F) (x y : Nat) : Option (Heap F) := do
  if x = y then none
  let source ← h.objects y
  let h ← if source.has then h.setMessage x (← h.message y) else some h
  h.addUnknown x source.unknown

def copyFrom (h : Heap F) (x y : Nat) : Option (Heap F) :=
  if x = y then some h
  else do
    let h ← h.clear x
    h.mergeFrom x y

def swap (h : Heap F) (x y : Nat) : Option (Heap F) :=
  if x = y then some h
  else do
    let o ← h.objects x
    let o' ← h.objects y
    some ((h.setObject x (some o')).setObject y (some o))

/-- `SharedDtor`. -/
def destroy (h : Heap F) (x : Nat) : Option (Heap F) := do
  let o ← h.objects x
  let h ← h.deleteMessage o
  some (h.setObject x none)

/-- The caller makes a string of its own. -/
def newString (h : Heap F) (v : Bytes) : Heap F × Nat :=
  let (h, p) := h.alloc v
  (h.setOwned p true, p)

def deleteString (h : Heap F) (p : Nat) : Option (Heap F) := do
  let h ← h.delete p
  some (h.setOwned p false)

/-! ### The heap as a store of strings -/

/-- Who has to delete a string. -/
inductive Holder
  | message (x : Nat)
  | caller (p : Nat)
  deriving DecidableEq

/-- The string of its own that a pointer of a message leads to. -/
def own (p : Nat) : Option Nat := if p = kEmptyString then none else some p

def store (h : Heap F) : Store Holder Nat Bytes where
  cells p := if p = kEmptyString then none else h.strings p
  holds
    | .message x => (h.objects x).bind fun o => own o.message_
    | .caller p => if h.owned p then some p else none

/-- The state of the object that holds the string `c`. -/
def view (o : Object F) (c : Option Bytes) : EchoMessage F where
  has := o.has
  message := if o.has then c.getD [] else []
  unknown := o.unknown
  absent h := by simp [h]

/-- What the heap is about: the messages and the strings of the caller. -/
@[ext]
structure Values (F : Type) where
  messages : Nat → Option (EchoMessage F)
  strings : Nat → Option Bytes

def value (h : Heap F) : Values F where
  messages x := (h.objects x).map fun o => view o (h.store.value (.message x))
  strings p := h.store.value (.caller p)

/-- Every string has one owner, `kEmptyString` is as it was, and a message that is not set is empty. -/
structure Sound (h : Heap F) : Prop where
  store : Ownership.Sound h.store
  empty : h.strings kEmptyString = some []
  fresh : ∀ p, h.next ≤ p → h.strings p = none
  owned : h.owned kEmptyString = false
  absent : ∀ {x o}, h.objects x = some o → o.has = false → (h.store.value (.message x)).getD [] = []

variable {h h' : Heap F} {x y p : Nat} {o o' : Object F}

theorem store_setObject (h : Heap F) (x : Nat) (o : Option (Object F)) : (h.setObject x o).store =
    ⟨h.store.cells, Function.update h.store.holds (.message x) (o.bind fun o => own o.message_)⟩ := by
  refine Store.ext rfl (funext fun l => ?_)
  cases l with
  | caller p =>
    have hne : Holder.caller p ≠ .message x := by simp
    exact (Function.update_of_ne hne (o.bind fun o => own o.message_) h.store.holds).symm
  | message y => by_cases hy : y = x <;> simp [store, setObject, hy]

theorem store_setOwned (h : Heap F) (p : Nat) (b : Bool) : (h.setOwned p b).store =
    ⟨h.store.cells, Function.update h.store.holds (.caller p) (if b then some p else none)⟩ := by
  refine Store.ext rfl (funext fun l => ?_)
  cases l with
  | message y => simp [store, setOwned]
  | caller q => by_cases hq : q = p <;> simp [store, setOwned, hq]

theorem store_setString (h : Heap F) (hp : p ≠ kEmptyString) (c : Option Bytes) :
    (h.setString p c).store = ⟨Function.update h.store.cells p c, h.store.holds⟩ := by
  refine Store.ext (funext fun q => ?_) rfl
  by_cases hq : q = p <;> simp [store, setString, hp, hq]

/-- The caller has a string under its own address. -/
theorem holds_caller {q : Nat} (hq : h.store.holds (.caller p) = some q) : q = p := by
  simp only [store] at hq
  by_cases hp : h.owned p = true
  · rw [if_pos hp] at hq
    exact (Option.some.inj hq).symm
  · rw [if_neg hp] at hq
    cases hq

theorem holds_message (ho : h.objects x = some o) : h.store.holds (.message x) = own o.message_ := by
  simp [store, ho]

/-- The pointer of a message is always valid. -/
theorem Sound.deref (hs : Sound h) (ho : h.objects x = some o) :
    h.strings o.message_ = some ((h.store.value (.message x)).getD []) := by
  have hh := holds_message ho
  unfold own at hh
  by_cases hp : o.message_ = kEmptyString
  · rw [if_pos hp] at hh
    rw [value_of_none hh, hp, hs.empty]
    rfl
  · rw [if_neg hp] at hh
    have hlive := hs.store.live hh
    have hcell : h.store.cells o.message_ = h.strings o.message_ := if_neg hp
    rw [value_of_holds hh, hcell]
    rw [hcell] at hlive
    obtain ⟨v, hv⟩ := Option.ne_none_iff_exists'.1 hlive
    rw [hv]
    rfl

/-- The getter returns the message, whether it is set or not. -/
theorem Sound.message_eq (hs : Sound h) {m : EchoMessage F} (hm : h.value.messages x = some m) :
    h.message x = some m.message := by
  obtain ⟨o, ho, rfl⟩ := Option.map_eq_some_iff.1 hm
  have hd := hs.deref ho
  simp only [message, ho, Option.bind_some, Option.bind_eq_bind, hd, view]
  cases hh : o.has with
  | true => rfl
  | false => rw [hs.absent ho hh]; rfl

/-! ### What an operation does to one message -/

/-- `h'` is sound, and is `h` with the message `m` at `x`. -/
structure Sets (h h' : Heap F) (x : Nat) (m : Option (EchoMessage F)) : Prop where
  sound : Sound h'
  messages : h'.value.messages = Function.update h.value.messages x m
  strings : h'.value.strings = h.value.strings

theorem Sets.self {m : Option (EchoMessage F)} (hset : Sets h h' x m) : h'.value.messages x = m := by
  rw [hset.messages, Function.update_self]

theorem Sets.other {m : Option (EchoMessage F)} (hset : Sets h h' x m) (hy : y ≠ x) :
    h'.value.messages y = h.value.messages y := by
  rw [hset.messages, Function.update_of_ne hy]

theorem Sets.trans {h'' : Heap F} {m m' : Option (EchoMessage F)} (h₁ : Sets h h' x m) (h₂ : Sets h' h'' x m') :
    Sets h h'' x m' where
  sound := h₂.sound
  messages := by rw [h₂.messages, h₁.messages, Function.update_idem]
  strings := by rw [h₂.strings, h₁.strings]

/-- The new heap, when the object `x` has changed, and no other message sees a change of its string. -/
theorem sound_of_store (hs : Sound h) (hobj : h'.objects = Function.update h.objects x (some o'))
    (hstore : Ownership.Sound h'.store) (hempty : h'.strings kEmptyString = some [])
    (hfresh : ∀ p, h'.next ≤ p → h'.strings p = none) (howned : h'.owned kEmptyString = false)
    (hothers : ∀ y, y ≠ x → h'.store.value (.message y) = h.store.value (.message y)) {c : Option Bytes}
    (hc : h'.store.value (.message x) = c) (habsent : o'.has = false → c.getD [] = []) :
    Sound h' ∧ h'.value.messages = Function.update h.value.messages x (some (view o' c)) := by
  refine ⟨⟨hstore, hempty, hfresh, howned, fun {y o} ho hh => ?_⟩, funext fun y => ?_⟩
  · rw [hobj] at ho
    by_cases hy : y = x
    · subst hy
      rw [Function.update_self, Option.some.injEq] at ho
      rw [hc]
      exact habsent (ho ▸ hh)
    · rw [Function.update_of_ne hy] at ho
      rw [hothers y hy]
      exact hs.absent ho hh
  · simp only [value, hobj]
    by_cases hy : y = x
    · subst hy
      simp [hc]
    · simp [hy, hothers y hy]

/-- The new heap, when no object has changed, and no message sees a change of its string. -/
theorem sound_of_objects (hs : Sound h) (hobj : h'.objects = h.objects) (hstore : Ownership.Sound h'.store)
    (hempty : h'.strings kEmptyString = some []) (hfresh : ∀ p, h'.next ≤ p → h'.strings p = none)
    (howned : h'.owned kEmptyString = false)
    (hmessages : ∀ y, h'.store.value (.message y) = h.store.value (.message y)) :
    Sound h' ∧ h'.value.messages = h.value.messages := by
  refine ⟨⟨hstore, hempty, hfresh, howned, fun {y o} ho hh => ?_⟩, funext fun y => ?_⟩
  · rw [hobj] at ho
    rw [hmessages]
    exact hs.absent ho hh
  · simp only [value, hobj, hmessages]

theorem Sets.of_store (hs : Sound h) (hobj : h'.objects = Function.update h.objects x (some o'))
    (hstore : Ownership.Sound h'.store) (hempty : h'.strings kEmptyString = some [])
    (hfresh : ∀ p, h'.next ≤ p → h'.strings p = none) (howned : h'.owned kEmptyString = false) {c : Option Bytes}
    (hvalue : h'.store.value = Function.update h.store.value (.message x) c)
    (habsent : o'.has = false → c.getD [] = []) : Sets h h' x (some (view o' c)) := by
  have hnew := sound_of_store hs hobj hstore hempty hfresh howned (fun y hy => by simp [hvalue, hy])
    (by simp [hvalue]) habsent
  exact ⟨hnew.1, hnew.2, funext fun p => by simp [value, hvalue]⟩

theorem Sound.next_ne (hs : Sound h) : h.next ≠ kEmptyString := by
  intro heq
  have hnone := hs.fresh h.next (Nat.le_refl _)
  rw [heq, hs.empty] at hnone
  cases hnone

theorem Sound.empty_setString (hs : Sound h) (hp : p ≠ kEmptyString) (c : Option Bytes) :
    (h.setString p c).strings kEmptyString = some [] := by
  rw [← hs.empty]
  exact Function.update_of_ne hp.symm ..

theorem Sound.fresh_setString (hs : Sound h) {v : Bytes} (hp : h.strings p = some v) (c : Option Bytes) :
    ∀ q, h.next ≤ q → (h.setString p c).strings q = none := by
  intro q hle
  have hne : q ≠ p := by
    rintro rfl
    rw [hs.fresh _ hle] at hp
    cases hp
  exact (Function.update_of_ne hne ..).trans (hs.fresh q hle)

theorem Sound.fresh_alloc (hs : Sound h) (v : Bytes) : ∀ q, h.next + 1 ≤ q → (h.alloc v).1.strings q = none := by
  intro q hle
  exact (Function.update_of_ne (by omega) ..).trans (hs.fresh q (by omega))

theorem Sound.cells_next (hs : Sound h) : h.store.cells h.next = none := by
  simp [Heap.store, hs.fresh]

/-- A message that is not set is empty, so its string can be read in any case. -/
theorem Sound.view_message (hs : Sound h) (ho : h.objects x = some o) :
    (view o (h.store.value (.message x))).message = (h.store.value (.message x)).getD [] := by
  cases hh : o.has with
  | true => simp [view, hh]
  | false => simp [view, hh, hs.absent ho hh]

/-- A new string for a message without one. -/
theorem Sets.alloc (hs : Sound h) (ho : h.objects x = some o) (hp : o.message_ = kEmptyString) (v : Bytes) :
    Sets h ((h.alloc v).1.setObject x (some ⟨h.next, true, o.unknown⟩)) x
      (some (view ⟨h.next, true, o.unknown⟩ (some v))) := by
  have hnext := hs.next_ne
  have hholds := holds_message ho
  rw [own, if_pos hp] at hholds
  have hcell := hs.cells_next
  have hst : ((h.alloc v).1.setObject x (some ⟨h.next, true, o.unknown⟩)).store =
      h.store.alloc (.message x) h.next v := by
    have hstr : (h.alloc v).1.store = _ := store_setString h hnext (some v)
    rw [store_setObject, hstr]
    simp [Store.alloc, own, hnext]
  refine Sets.of_store hs ?_ ?_ ?_ ?_ ?_ ?_ ?_
  · rfl
  · exact hst ▸ hs.store.alloc hcell hholds
  · exact hs.empty_setString hnext (some v)
  · exact hs.fresh_alloc v
  · exact hs.owned
  · rw [hst]
    exact value_alloc hs.store hcell
  · simp

/-- A message writes its own string. -/
theorem Sets.assign (hs : Sound h) (ho : h.objects x = some o) (hp : o.message_ ≠ kEmptyString) (v : Bytes)
    (ho' : o'.message_ = o.message_) (hv : o'.has = false → v = []) :
    Sets h ((h.setString o.message_ (some v)).setObject x (some o')) x (some (view o' (some v))) := by
  have hholds := holds_message ho
  rw [own, if_neg hp] at hholds
  have hd := hs.deref ho
  have hst : ((h.setString o.message_ (some v)).setObject x (some o')).store = h.store.write o.message_ v := by
    rw [store_setObject, store_setString h hp]
    simp [Store.write, own, ho', hp, ← hholds]
  refine Sets.of_store hs ?_ ?_ ?_ ?_ ?_ ?_ ?_
  · rfl
  · exact hst ▸ hs.store.write hholds
  · exact hs.empty_setString hp (some v)
  · exact hs.fresh_setString hd (some v)
  · exact hs.owned
  · rw [hst]
    exact value_write hs.store hholds
  · exact hv

/-- A message keeps its string. -/
theorem Sets.keep (hs : Sound h) (ho : h.objects x = some o) (ho' : o'.message_ = o.message_)
    (hempty : o'.has = false → (h.store.value (.message x)).getD [] = []) :
    Sets h (h.setObject x (some o')) x (some (view o' (h.store.value (.message x)))) := by
  have hst : (h.setObject x (some o')).store = h.store := by
    rw [store_setObject]
    simp [ho', ← holds_message ho]
  refine Sets.of_store hs ?_ ?_ ?_ ?_ ?_ ?_ hempty
  · rfl
  · exact hst ▸ hs.store
  · exact hs.empty
  · exact hs.fresh
  · exact hs.owned
  · rw [hst, Function.update_eq_self]

end Heap

end LearnTogether
