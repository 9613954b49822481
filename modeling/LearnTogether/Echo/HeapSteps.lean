import LearnTogether.Echo.Heap

/-!
# What the operations on the echo messages do

Every operation keeps the heap sound, and does to the messages what it does to values.  An operation on one object
leaves all other objects and the strings of the caller alone (`Sets`); `set_allocated_message`, `release_message` and
`Swap` hand strings over.
-/

namespace LearnTogether

open Exec Ownership

namespace Heap

variable {F : Type} {h h' : Heap F} {x y p : Nat} {o o' : Object F}

theorem edit_spec (hs : Sound h) {m : EchoMessage F} (hm : h.value.messages x = some m) (f : Bytes → Bytes) :
    ∃ h', h.edit x f = some h' ∧ Sets h h' x (some (m.setMessage (f m.message))) := by
  obtain ⟨o, ho, rfl⟩ := Option.map_eq_some_iff.1 hm
  have hd := hs.deref ho
  rw [hs.view_message ho]
  by_cases hp : o.message_ = kEmptyString
  · -- the message gets a string
    rw [hp, hs.empty, Option.some.injEq] at hd
    rw [← hd]
    refine ⟨_, ?_, Sets.alloc hs ho hp (f [])⟩
    simp [edit, mutableMessage, ho, hp, Heap.alloc, setObject, setString, Heap.assign, hs.next_ne]
  · generalize (h.store.value (.message x)).getD [] = v at hd ⊢
    have hset : Sets h _ x (some (view ⟨o.message_, true, o.unknown⟩ _)) := Sets.assign hs ho hp (f v) rfl (by simp)
    refine ⟨_, ?_, hset⟩
    simp [edit, mutableMessage, ho, hp, setObject, setString, Heap.assign, hd]

/-- To set a message is to change it to the value, whatever it was. -/
private theorem setMessage_eq_edit (h : Heap F) (x : Nat) (value : Bytes) :
    h.setMessage x value = h.edit x fun _ => value := by
  unfold setMessage edit
  cases h.mutableMessage x with
  | none => rfl
  | some r =>
    simp only [Option.bind_eq_bind, Option.bind_some, Heap.assign]
    cases r.1.strings r.2 <;> rfl

theorem setMessage_spec (hs : Sound h) {m : EchoMessage F} (hm : h.value.messages x = some m) (value : Bytes) :
    ∃ h', h.setMessage x value = some h' ∧ Sets h h' x (some (m.setMessage value)) := by
  rw [setMessage_eq_edit]
  exact edit_spec hs hm fun _ => value

theorem clearMessage_spec (hs : Sound h) {m : EchoMessage F} (hm : h.value.messages x = some m) :
    ∃ h', h.clearMessage x = some h' ∧ Sets h h' x (some m.clearMessage) := by
  obtain ⟨o, ho, rfl⟩ := Option.map_eq_some_iff.1 hm
  have hd := hs.deref ho
  by_cases hp : o.message_ = kEmptyString
  · rw [hp, hs.empty, Option.some.injEq] at hd
    have hset : Sets h _ x (some (view { o with has := false } _)) := Sets.keep hs ho rfl fun _ => hd.symm
    refine ⟨_, ?_, hset⟩
    simp [clearMessage, ho, hp]
  · have hset : Sets h _ x (some (view { o with has := false } _)) := Sets.assign hs ho hp [] rfl fun _ => rfl
    refine ⟨_, ?_, hset⟩
    simp [clearMessage, ho, hp, Heap.assign, hd]

theorem clear_spec (hs : Sound h) {m : EchoMessage F} (hm : h.value.messages x = some m) :
    ∃ h', h.clear x = some h' ∧ Sets h h' x (some m.clear) := by
  obtain ⟨o, ho, rfl⟩ := Option.map_eq_some_iff.1 hm
  have hd := hs.deref ho
  rw [EchoMessage.clear_eq_new]
  by_cases hw : o.has = true ∧ o.message_ ≠ kEmptyString
  · have hset : Sets h _ x (some (view { message_ := o.message_ } _)) := Sets.assign hs ho hw.2 [] rfl fun _ => rfl
    refine ⟨_, ?_, hset⟩
    simp [clear, ho, hw, Heap.assign, hd]
  · -- the string is empty already
    have hempty : (h.store.value (.message x)).getD [] = [] := by
      by_cases hh : o.has = true
      · have hp : o.message_ = kEmptyString := by
          by_contra hp
          exact hw ⟨hh, hp⟩
        rw [hp, hs.empty, Option.some.injEq] at hd
        exact hd.symm
      · exact hs.absent ho (by simpa using hh)
    have hset : Sets h _ x (some (view { message_ := o.message_ } _)) := Sets.keep hs ho rfl fun _ => hempty
    refine ⟨_, ?_, hset⟩
    simp [clear, ho, hw]

theorem addUnknown_spec (hs : Sound h) {m : EchoMessage F} (hm : h.value.messages x = some m) (fs : List F) :
    ∃ h', h.addUnknown x fs = some h' ∧ Sets h h' x (some { m with unknown := m.unknown ++ fs }) := by
  obtain ⟨o, ho, rfl⟩ := Option.map_eq_some_iff.1 hm
  have hset : Sets h _ x (some (view { o with unknown := o.unknown ++ fs } _)) :=
    Sets.keep hs ho rfl fun hh => hs.absent ho hh
  refine ⟨_, ?_, hset⟩
  simp [addUnknown, ho]

theorem mergeFrom_spec (hs : Sound h) (hxy : x ≠ y) {m s : EchoMessage F} (hm : h.value.messages x = some m)
    (hsrc : h.value.messages y = some s) : ∃ h', h.mergeFrom x y = some h' ∧ Sets h h' x (some (m.mergeFrom s)) := by
  have hread := hs.message_eq hsrc
  obtain ⟨o, ho, rfl⟩ := Option.map_eq_some_iff.1 hsrc
  cases hh : o.has with
  | false =>
    obtain ⟨h', hadd, hset⟩ := addUnknown_spec hs hm o.unknown
    refine ⟨h', ?_, ?_⟩
    · simp [mergeFrom, hxy, ho, hh, hadd]
    · simpa [EchoMessage.mergeFrom, view, hh] using hset
  | true =>
    obtain ⟨h₁, hmsg, hset₁⟩ := setMessage_spec hs hm (view o (h.store.value (.message y))).message
    obtain ⟨h', hadd, hset⟩ := addUnknown_spec hset₁.sound hset₁.self o.unknown
    refine ⟨h', ?_, ?_⟩
    · simp [mergeFrom, hxy, ho, hh, hread, hmsg, hadd]
    · have hall := hset₁.trans hset
      simpa [EchoMessage.mergeFrom, view, hh] using hall

theorem copyFrom_spec (hs : Sound h) (hxy : x ≠ y) {m s : EchoMessage F} (hm : h.value.messages x = some m)
    (hsrc : h.value.messages y = some s) : ∃ h', h.copyFrom x y = some h' ∧ Sets h h' x (some s) := by
  obtain ⟨h₁, hclear, hset₁⟩ := clear_spec hs hm
  have hsrc₁ : h₁.value.messages y = some s := (hset₁.other hxy.symm).trans hsrc
  obtain ⟨h', hmerge, hset⟩ := mergeFrom_spec hset₁.sound hxy hset₁.self hsrc₁
  refine ⟨h', ?_, ?_⟩
  · simp [copyFrom, hxy, hclear, hmerge]
  · have hall := hset₁.trans hset
    rwa [show m.clear.mergeFrom s = s from EchoMessage.copyFrom_eq m s] at hall

/-! ### New objects, and objects that go -/

theorem construct_spec (hs : Sound h) (hx : h.objects x = none) :
    ∃ h', h.construct x = some h' ∧ Sets h h' x (some .new) := by
  have hholds : h.store.holds (.message x) = none := by simp [store, hx]
  have hst : (h.setObject x (some {})).store = h.store := by
    rw [store_setObject]
    simp [own, ← hholds]
  have hset : Sets h (h.setObject x (some {})) x (some (view {} none)) := by
    refine Sets.of_store hs ?_ ?_ ?_ ?_ ?_ ?_ ?_
    · rfl
    · exact hst ▸ hs.store
    · exact hs.empty
    · exact hs.fresh
    · exact hs.owned
    · rw [hst, ← value_of_none hholds, Function.update_eq_self]
    · intro _
      rfl
  refine ⟨_, ?_, hset⟩
  simp [construct, hx]

/-- An object without a string goes. -/
private theorem Sets.remove (hs : Sound h) (ho : h.objects x = some o) (hp : o.message_ = kEmptyString) :
    Sets h (h.setObject x none) x none := by
  have hholds := holds_message ho
  rw [own, if_pos hp] at hholds
  have hst : (h.setObject x none).store = h.store := by
    rw [store_setObject]
    simp [← hholds]
  refine ⟨⟨hst ▸ hs.store, hs.empty, hs.fresh, hs.owned, fun {y o} ho hh => ?_⟩, funext fun y => ?_, ?_⟩
  · rw [hst]
    refine hs.absent (?_ : h.objects y = some o) hh
    by_cases hy : y = x
    · simp [setObject, hy] at ho
    · simpa [setObject, hy] using ho
  · simp only [value, hst]
    by_cases hy : y = x <;> simp [setObject, hy]
  · simp [value, hst]

/-- The message has deleted its string and points to none. -/
private theorem delete_spec (hs : Sound h) (ho : h.objects x = some o) : ∃ h₁, h.deleteMessage o = some h₁ ∧
    h₁.owned = h.owned ∧ Sets h (h₁.setObject x (some ⟨kEmptyString, false, o.unknown⟩)) x
      (some (view ⟨kEmptyString, false, o.unknown⟩ none)) := by
  have hholds := holds_message ho
  by_cases hp : o.message_ = kEmptyString
  · rw [own, if_pos hp] at hholds
    have hc := value_of_none hholds
    refine ⟨h, by simp [deleteMessage, hp], rfl, ?_⟩
    rw [← hc]
    refine Sets.keep hs ho hp.symm fun _ => ?_
    rw [hc]
    rfl
  · rw [own, if_neg hp] at hholds
    have hd := hs.deref ho
    have hst : ((h.setString o.message_ none).setObject x (some ⟨kEmptyString, false, o.unknown⟩)).store =
        h.store.free (.message x) o.message_ := by
      rw [store_setObject, store_setString h hp]
      simp [Store.free, own]
    refine ⟨h.setString o.message_ none, by simp [deleteMessage, hp, Heap.delete, hd], rfl, ?_⟩
    refine Sets.of_store hs ?_ ?_ ?_ ?_ ?_ ?_ ?_
    · rfl
    · exact hst ▸ hs.store.free hholds
    · exact hs.empty_setString hp none
    · exact hs.fresh_setString hd none
    · exact hs.owned
    · rw [hst]
      exact value_free hs.store hholds
    · intro _
      rfl

private theorem setObject_setObject (h : Heap F) (x : Nat) (o o' : Option (Object F)) :
    (h.setObject x o).setObject x o' = h.setObject x o' := by
  simp [setObject]

theorem destroy_spec (hs : Sound h) {m : EchoMessage F} (hm : h.value.messages x = some m) :
    ∃ h', h.destroy x = some h' ∧ Sets h h' x none := by
  obtain ⟨o, ho, rfl⟩ := Option.map_eq_some_iff.1 hm
  obtain ⟨h₁, hdel, -, hset₁⟩ := delete_spec hs ho
  have ho₁ : (h₁.setObject x (some ⟨kEmptyString, false, o.unknown⟩)).objects x =
      some ⟨kEmptyString, false, o.unknown⟩ := Function.update_self ..
  have hset := hset₁.trans (Sets.remove hset₁.sound ho₁ rfl)
  rw [setObject_setObject] at hset
  refine ⟨_, ?_, hset⟩
  simp [destroy, ho, hdel]

/-! ### Strings that change hands -/

/-- `h'` is sound and stands for `v`. -/
structure Becomes (h' : Heap F) (v : Values F) : Prop where
  sound : Sound h'
  value : h'.value = v

theorem Sets.becomes {m : Option (EchoMessage F)} (hset : Sets h h' x m) :
    Becomes h' { h.value with messages := Function.update h.value.messages x m } :=
  ⟨hset.sound, Values.ext hset.messages hset.strings⟩

private theorem Sound.owned_ne (hs : Sound h) (hp : h.owned p = true) : p ≠ kEmptyString := by
  rintro rfl
  rw [hs.owned] at hp
  cases hp

/-- A message without a string takes the caller's string `p`. -/
private theorem adopt_spec (hs : Sound h) (ho : h.objects x = some o) (hmsg : o.message_ = kEmptyString)
    (hp : h.owned p = true) (hh : h' = (h.setObject x (some ⟨p, true, o.unknown⟩)).setOwned p false) : Becomes h'
      { messages := Function.update h.value.messages x (some (view ⟨p, true, o.unknown⟩ (h.value.strings p)))
        strings := Function.update h.value.strings p none } := by
  have hholds := holds_message ho
  rw [own, if_pos hmsg] at hholds
  have hcaller : h.store.holds (.caller p) = some p := if_pos hp
  have hst : h'.store = h.store.swap (.caller p) (.message x) := by
    rw [swap_eq_update hcaller hholds, hh, store_setOwned, store_setObject]
    refine Store.ext rfl ?_
    simp only [Option.bind_some, own, if_neg (hs.owned_ne hp), Bool.false_eq_true, if_false]
    exact Function.update_comm (by simp) ..
  have hvalue : ∀ l, h'.store.value l = h.store.value (Equiv.swap (.caller p) (.message x) l) := by
    intro l
    rw [hst, value_swap]
  have hnew : Sound h' ∧ h'.value.messages =
      Function.update h.value.messages x (some (view ⟨p, true, o.unknown⟩ (h.value.strings p))) := by
    refine sound_of_store hs ?_ (hst ▸ hs.store.swap _ _) ?_ ?_ ?_ (fun y hy => ?_) ?_ (by simp)
    · rw [hh]
      rfl
    · rw [hh]
      exact hs.empty
    · rw [hh]
      exact hs.fresh
    · rw [hh]
      exact (Function.update_of_ne (hs.owned_ne hp).symm ..).trans hs.owned
    · rw [hvalue, Equiv.swap_apply_of_ne_of_ne (by simp) (by simpa using hy)]
    · rw [hvalue, Equiv.swap_apply_right]
      rfl
  refine ⟨hnew.1, Values.ext hnew.2 (funext fun q => ?_)⟩
  show h'.store.value (.caller q) = Function.update h.value.strings p none q
  rw [hvalue]
  by_cases hq : q = p
  · rw [hq, Equiv.swap_apply_left, value_of_none hholds, Function.update_self]
  · rw [Equiv.swap_apply_of_ne_of_ne (by simpa using hq) (by simp), Function.update_of_ne hq]
    rfl

theorem setAllocatedMessage_spec (hs : Sound h) {m : EchoMessage F} (hm : h.value.messages x = some m)
    (hp : h.owned p = true) : ∃ h', h.setAllocatedMessage x (some p) = some h' ∧ Becomes h'
      { messages := Function.update h.value.messages x (some (m.setMessage ((h.value.strings p).getD [])))
        strings := Function.update h.value.strings p none } := by
  obtain ⟨o, ho, rfl⟩ := Option.map_eq_some_iff.1 hm
  obtain ⟨h₁, hdel, howned, hset₁⟩ := delete_spec hs ho
  have ho₁ : (h₁.setObject x (some ⟨kEmptyString, false, o.unknown⟩)).objects x =
      some ⟨kEmptyString, false, o.unknown⟩ := Function.update_self ..
  have hp₁ : (h₁.setObject x (some ⟨kEmptyString, false, o.unknown⟩)).owned p = true := (congrFun howned p).trans hp
  have hnew := adopt_spec hset₁.sound ho₁ rfl hp₁ rfl
  rw [setObject_setObject, hset₁.strings, hset₁.messages, Function.update_idem] at hnew
  refine ⟨_, ?_, hnew⟩
  simp [setAllocatedMessage, ho, hdel]

theorem setAllocatedMessage_null (hs : Sound h) {m : EchoMessage F} (hm : h.value.messages x = some m) :
    ∃ h', h.setAllocatedMessage x none = some h' ∧ Sets h h' x (some m.clearMessage) := by
  obtain ⟨o, ho, rfl⟩ := Option.map_eq_some_iff.1 hm
  obtain ⟨h₁, hdel, -, hset⟩ := delete_spec hs ho
  refine ⟨_, ?_, hset⟩
  simp [setAllocatedMessage, ho, hdel]

theorem releaseMessage_null (hs : Sound h) (ho : h.objects x = some o) (hp : o.message_ = kEmptyString) :
    ∃ h', h.releaseMessage x = some (h', none) ∧
      Sets h h' x (some (view o (h.store.value (.message x))).clearMessage) := by
  have hholds := holds_message ho
  rw [own, if_pos hp] at hholds
  have hset : Sets h _ x (some (view { o with has := false } _)) := Sets.keep hs ho rfl fun _ => by
    rw [value_of_none hholds]
    rfl
  refine ⟨_, ?_, hset⟩
  simp [releaseMessage, ho, hp]

/-- The caller takes the string of a message. -/
theorem releaseMessage_spec (hs : Sound h) (ho : h.objects x = some o) (hp : o.message_ ≠ kEmptyString) :
    ∃ h', h.releaseMessage x = some (h', some o.message_) ∧ Becomes h'
      { messages := Function.update h.value.messages x (some (view o (h.store.value (.message x))).clearMessage)
        strings := Function.update h.value.strings o.message_
          (some (view o (h.store.value (.message x))).message) } := by
  have hholds := holds_message ho
  rw [own, if_neg hp] at hholds
  have hcaller : h.store.holds (.caller o.message_) = none := by
    by_contra hne
    obtain ⟨q, hq⟩ := Option.ne_none_iff_exists'.1 hne
    rw [holds_caller hq] at hq
    cases hs.store.single hq hholds
  obtain ⟨h', hh⟩ : ∃ h', h' = (h.setObject x (some ⟨kEmptyString, false, o.unknown⟩)).setOwned o.message_ true :=
    ⟨_, rfl⟩
  have hst : h'.store = h.store.swap (.message x) (.caller o.message_) := by
    rw [swap_eq_update hholds hcaller, hh, store_setOwned, store_setObject]
    rfl
  have hvalue : ∀ l, h'.store.value l = h.store.value (Equiv.swap (.message x) (.caller o.message_) l) := by
    intro l
    rw [hst, value_swap]
  have hnew : Sound h' ∧ h'.value.messages =
      Function.update h.value.messages x (some (view ⟨kEmptyString, false, o.unknown⟩ none)) := by
    refine sound_of_store hs ?_ (hst ▸ hs.store.swap _ _) ?_ ?_ ?_ (fun y hy => ?_) ?_ fun _ => rfl
    · rw [hh]
      rfl
    · rw [hh]
      exact hs.empty
    · rw [hh]
      exact hs.fresh
    · rw [hh]
      exact (Function.update_of_ne (Ne.symm hp) ..).trans hs.owned
    · rw [hvalue, Equiv.swap_apply_of_ne_of_ne (by simpa using hy) (by simp)]
    · rw [hvalue, Equiv.swap_apply_left, value_of_none hcaller]
  refine ⟨h', ?_, hnew.1, Values.ext hnew.2 (funext fun q => ?_)⟩
  · simp [releaseMessage, ho, hp, hh]
  · show h'.store.value (.caller q) = Function.update h.value.strings o.message_ _ q
    rw [hvalue, hs.view_message ho]
    by_cases hq : q = o.message_
    · rw [hq, Equiv.swap_apply_right, Function.update_self]
      obtain ⟨v, hv⟩ := Option.ne_none_iff_exists'.1 (hs.store.live hholds)
      rw [value_of_holds hholds, hv]
      rfl
    · rw [Equiv.swap_apply_of_ne_of_ne (by simp) (by simpa using hq), Function.update_of_ne hq]
      rfl

theorem swap_spec (hs : Sound h) (hxy : x ≠ y) {m s : EchoMessage F} (hm : h.value.messages x = some m)
    (hsrc : h.value.messages y = some s) : ∃ h', h.swap x y = some h' ∧
      Becomes h' { h.value with messages := fun z => h.value.messages (Equiv.swap x y z) } := by
  obtain ⟨o, ho, rfl⟩ := Option.map_eq_some_iff.1 hm
  obtain ⟨o', ho', rfl⟩ := Option.map_eq_some_iff.1 hsrc
  obtain ⟨h', hh⟩ : ∃ h', h' = (h.setObject x (some o')).setObject y (some o) := ⟨_, rfl⟩
  have hobj : ∀ z, h'.objects z = h.objects (Equiv.swap x y z) := by
    intro z
    rw [hh]
    by_cases hzy : z = y
    · rw [hzy, Equiv.swap_apply_right, ho]
      exact Function.update_self ..
    · by_cases hzx : z = x
      · rw [hzx, Equiv.swap_apply_left, ho']
        exact (Function.update_of_ne hxy ..).trans (Function.update_self ..)
      · rw [Equiv.swap_apply_of_ne_of_ne hzx hzy]
        exact (Function.update_of_ne hzy ..).trans (Function.update_of_ne hzx ..)
  have hmsg : ∀ z, Equiv.swap (Holder.message x) (.message y) (.message z) = .message (Equiv.swap x y z) := by
    intro z
    have hinj : Function.Injective Holder.message := fun _ _ => Holder.message.inj
    exact (hinj.map_swap x y z).symm
  have hst : h'.store = h.store.swap (.message x) (.message y) := by
    refine Store.ext (by rw [hh]; rfl) (funext fun l => ?_)
    cases l with
    | caller p =>
      simp only [Store.swap, Equiv.swap_apply_of_ne_of_ne (show Holder.caller p ≠ .message x by simp)
        (show Holder.caller p ≠ .message y by simp)]
      rw [hh]
      rfl
    | message z =>
      simp only [Store.swap, hmsg]
      simp only [store, hobj]
  have hvalue : ∀ z, h'.store.value (.message z) = h.store.value (.message (Equiv.swap x y z)) := by
    intro z
    rw [hst, value_swap, hmsg]
  refine ⟨h', by simp [swap, hxy, ho, ho', hh], ⟨hst ▸ hs.store.swap _ _, ?_, ?_, ?_, fun {z o} hz hhas => ?_⟩, ?_⟩
  · rw [hh]
    exact hs.empty
  · rw [hh]
    exact hs.fresh
  · rw [hh]
    exact hs.owned
  · rw [hvalue]
    rw [hobj] at hz
    exact hs.absent hz hhas
  · refine Values.ext (funext fun z => ?_) (funext fun p => ?_)
    · simp only [value, hobj, hvalue]
    · simp only [value, hst, value_swap]
      rw [Equiv.swap_apply_of_ne_of_ne (by simp) (by simp)]

/-! ### The strings of the caller -/

private theorem becomes_of_store (hnew : Sound h' ∧ h'.value.messages = h.value.messages) {c : Option Bytes}
    (hvalue : h'.store.value = Function.update h.store.value (.caller p) c) :
    Becomes h' { h.value with strings := Function.update h.value.strings p c } := by
  refine ⟨hnew.1, Values.ext hnew.2 (funext fun q => ?_)⟩
  show h'.store.value (.caller q) = Function.update h.value.strings p c q
  rw [hvalue]
  by_cases hq : q = p
  · rw [hq, Function.update_self, Function.update_self]
  · rw [Function.update_of_ne hq, Function.update_of_ne (by simpa using hq)]
    rfl

theorem newString_spec (hs : Sound h) (v : Bytes) : Becomes (h.newString v).1
    { h.value with strings := Function.update h.value.strings h.next (some v) } := by
  have hnext := hs.next_ne
  have hcell := hs.cells_next
  have hcaller : h.store.holds (.caller h.next) = none := by
    by_contra hne
    obtain ⟨q, hq⟩ := Option.ne_none_iff_exists'.1 hne
    rw [holds_caller hq] at hq
    exact hs.store.live hq hcell
  have hst : (h.newString v).1.store = h.store.alloc (.caller h.next) h.next v := by
    have hstr : (h.alloc v).1.store = _ := store_setString h hnext (some v)
    show ((h.alloc v).1.setOwned h.next true).store = _
    rw [store_setOwned, hstr]
    rfl
  have hvalue : (h.newString v).1.store.value = _ := (congrArg Store.value hst).trans (value_alloc hs.store hcell)
  refine becomes_of_store (sound_of_objects hs ?_ ?_ ?_ ?_ ?_ ?_) hvalue
  · rfl
  · exact hst ▸ hs.store.alloc hcell hcaller
  · exact hs.empty_setString hnext (some v)
  · exact hs.fresh_alloc v
  · exact (Function.update_of_ne hnext.symm ..).trans hs.owned
  · intro y
    rw [hvalue, Function.update_of_ne (by simp)]

private theorem Sound.caller (hs : Sound h) (hp : h.owned p = true) : ∃ v, h.strings p = some v := by
  have hcaller : h.store.holds (.caller p) = some p := if_pos hp
  have hlive := hs.store.live hcaller
  rw [show h.store.cells p = h.strings p from if_neg (hs.owned_ne hp)] at hlive
  exact Option.ne_none_iff_exists'.1 hlive

theorem assign_spec (hs : Sound h) (hp : h.owned p = true) (v : Bytes) : ∃ h', h.assign p v = some h' ∧
    Becomes h' { h.value with strings := Function.update h.value.strings p (some v) } := by
  have hcaller : h.store.holds (.caller p) = some p := if_pos hp
  have hne := hs.owned_ne hp
  obtain ⟨w, hw⟩ := hs.caller hp
  have hst : (h.setString p (some v)).store = h.store.write p v := store_setString h hne (some v)
  have hvalue := (congrArg Store.value hst).trans (value_write hs.store hcaller)
  refine ⟨h.setString p (some v), by simp [Heap.assign, hw, hne], ?_⟩
  refine becomes_of_store (sound_of_objects hs ?_ ?_ ?_ ?_ ?_ ?_) hvalue
  · rfl
  · exact hst ▸ hs.store.write hcaller
  · exact hs.empty_setString hne (some v)
  · exact hs.fresh_setString hw (some v)
  · exact hs.owned
  · intro y
    rw [hvalue, Function.update_of_ne (by simp)]

theorem deleteString_spec (hs : Sound h) (hp : h.owned p = true) : ∃ h', h.deleteString p = some h' ∧
    Becomes h' { h.value with strings := Function.update h.value.strings p none } := by
  have hcaller : h.store.holds (.caller p) = some p := if_pos hp
  have hne := hs.owned_ne hp
  obtain ⟨w, hw⟩ := hs.caller hp
  have hst : ((h.setString p none).setOwned p false).store = h.store.free (.caller p) p := by
    rw [store_setOwned, store_setString h hne]
    rfl
  have hvalue := (congrArg Store.value hst).trans (value_free hs.store hcaller)
  refine ⟨(h.setString p none).setOwned p false, by simp [deleteString, Heap.delete, hw, hne], ?_⟩
  refine becomes_of_store (sound_of_objects hs ?_ ?_ ?_ ?_ ?_ ?_) hvalue
  · rfl
  · exact hst ▸ hs.store.free hcaller
  · exact hs.empty_setString hne none
  · exact hs.fresh_setString hw none
  · exact (Function.update_of_ne hne.symm ..).trans hs.owned
  · intro y
    rw [hvalue, Function.update_of_ne (by simp)]

end Heap

end LearnTogether
