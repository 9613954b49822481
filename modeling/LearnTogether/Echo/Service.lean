import LearnTogether.Echo.Message

/-!
# The echo service

`EchoService` as it is generated, `EchoServiceImpl` of `server.cpp`, and the stub through which the client calls it.
What carries a call to the server is the parameter `RpcChannel`; `RpcChannel.Delivers` is what brpc says of a call
that did not fail.  Then the call has echoed the message and, as the flag tells, the attachment (`Stub.echo_echoed`),
whatever fields that the server does not know came with the request.  No call to a service that does not override
`Echo` succeeds (`Stub.echo_base`).
-/

namespace LearnTogether

namespace EchoMessage

variable {F : Type} (w : WireFormat F)

/-- `ParseFromZeroCopyStream` of protobuf's `MessageLite`: clear, merge, and check that all is there. -/
def parseFrom (m : EchoMessage F) (input : Bytes) : Option (EchoMessage F) :=
  match mergePartial w m.clear input with
  | some (m, true) => if m.isInitialized then some m else none
  | _ => none

variable {w} {tagOf : F → Nat}

/-- Reading what was written gives it back exactly when its message is set. -/
theorem parseFrom_serialize (hw : w.Lawful tagOf) (m : EchoMessage F) {s : EchoMessage F} (hf : s.Foreign tagOf)
    (hlen : s.message.length < 2 ^ 31) :
    m.parseFrom w (s.serialize w) = if s.has then some s else none := by
  unfold parseFrom
  rw [clear_eq_new, parse_serialize hw hf hlen]
  rfl

/-- A message without unknown fields is always read back. -/
private theorem parseFrom_setMessage (hw : w.Lawful tagOf) (m : EchoMessage F) {value : Bytes}
    (hlen : value.length < 2 ^ 31) :
    m.parseFrom w ((new.setMessage value).serialize w) = some (new.setMessage value) := by
  have hf : (new.setMessage value : EchoMessage F).Foreign tagOf := by
    simp [Foreign, setMessage, new]
  exact parseFrom_serialize hw m hf hlen

end EchoMessage

/-- What the echo programs use of a `brpc::Controller`. -/
structure Controller where
  errorText : Option String := none
  logId : Int := 0
  requestAttachment : Bytes := []
  responseAttachment : Bytes := []
  deriving DecidableEq

namespace Controller

def failed (cntl : Controller) : Bool := cntl.errorText.isSome

def setFailed (cntl : Controller) (text : String) : Controller := { cntl with errorText := some text }

end Controller

structure Served (F : Type) where
  cntl : Controller
  response : EchoMessage F
  doneRuns : Nat

structure EchoService (F : Type) where
  echo : Controller → EchoMessage F → EchoMessage F → Served F

namespace EchoService

variable {F : Type}

def base : EchoService F where
  echo cntl _ response := ⟨cntl.setFailed "Method Echo() not implemented.", response, 1⟩

/-- `EchoServiceImpl`, where `echoAttachment` is `FLAGS_echo_attachment`. -/
def impl (echoAttachment : Bool) : EchoService F where
  echo cntl request response :=
    let response := response.setMessage request.message
    let cntl :=
      if echoAttachment then
        { cntl with responseAttachment := cntl.responseAttachment ++ cntl.requestAttachment }
      else cntl
    ⟨cntl, response, 1⟩

/-- `EchoService::CallMethod`, `none` where it aborts. -/
def callMethod (s : EchoService F) (index : Nat) (cntl : Controller) (request response : EchoMessage F) :
    Option (Served F) :=
  match index with
  | 0 => some (s.echo cntl request response)
  | _ => none

/-- `GetRequestPrototype` and `GetResponsePrototype`, which do the same. -/
def prototype (index : Nat) : Option (EchoMessage F) :=
  match index with
  | 0 => some .new
  | _ => none

end EchoService

structure RpcChannel (F : Type) where
  callMethod : Nat → Controller → EchoMessage F → EchoMessage F → Controller × EchoMessage F

/-- The server's part of a call: the request is read into a copy of its prototype, the method runs, and what it wrote
is the response, if nothing failed. -/
def EchoService.serve {F : Type} (w : WireFormat F) (s : EchoService F) (index : Nat) (cntl : Controller)
    (input : Bytes) : Option (Bytes × Bytes) := do
  let proto ← EchoService.prototype index
  let request ← proto.parseFrom w input
  let served ← s.callMethod index { logId := cntl.logId, requestAttachment := cntl.requestAttachment } request proto
  if served.cntl.failed || !served.response.isInitialized then none
  else some (served.response.serialize w, served.cntl.responseAttachment)

/-- A call that did not fail was served, and what the server wrote was read into the response. -/
def RpcChannel.Delivers {F : Type} (w : WireFormat F) (s : EchoService F) (ch : RpcChannel F) : Prop :=
  ∀ {index cntl request response cntl' response'},
    ch.callMethod index cntl request response = (cntl', response') → cntl'.failed = false →
    ∃ output attachment, s.serve w index cntl (request.serialize w) = some (output, attachment) ∧
      response.parseFrom w output = some response' ∧
      cntl' = { cntl with errorText := none, responseAttachment := attachment }

/-- A channel to a server in the same process: a call fails only when the server or the parser turns it down. -/
def RpcChannel.direct {F : Type} (w : WireFormat F) (s : EchoService F) : RpcChannel F where
  callMethod index cntl request response :=
    match s.serve w index cntl (request.serialize w) with
    | none => (cntl.setFailed "Fail to serve", response)
    | some (output, attachment) =>
      match response.parseFrom w output with
      | none => (cntl.setFailed "Fail to parse response message", response)
      | some response => ({ cntl with errorText := none, responseAttachment := attachment }, response)

private theorem RpcChannel.direct_delivers {F : Type} (w : WireFormat F) (s : EchoService F) :
    (direct w s).Delivers w s := by
  intro index cntl request response cntl' response' h hok
  unfold direct at h
  dsimp only at h
  cases hs : s.serve w index cntl (request.serialize w) with
  | none =>
    rw [hs] at h
    cases h
    cases hok
  | some out =>
    obtain ⟨output, attachment⟩ := out
    rw [hs] at h
    dsimp only at h
    cases hp : response.parseFrom w output with
    | none =>
      rw [hp] at h
      cases h
      cases hok
    | some r =>
      rw [hp] at h
      cases h
      exact ⟨output, attachment, rfl, hp, rfl⟩

def Stub.echo {F : Type} (ch : RpcChannel F) (cntl : Controller) (request response : EchoMessage F) :
    Controller × EchoMessage F :=
  ch.callMethod 0 cntl request response

namespace EchoService

variable {F : Type} {w : WireFormat F} {tagOf : F → Nat}

/-- What `EchoServiceImpl` makes of the bytes that a client has written. -/
theorem serve_impl (hw : w.Lawful tagOf) (echoAttachment : Bool) (cntl : Controller) {request : EchoMessage F}
    (hf : request.Foreign tagOf) (hlen : request.message.length < 2 ^ 31) :
    (impl echoAttachment).serve w 0 cntl (request.serialize w) =
      if request.has then
        some ((EchoMessage.new.setMessage request.message).serialize w,
          if echoAttachment then cntl.requestAttachment else [])
      else none := by
  unfold serve
  cases hh : request.has with
  | false => simp [prototype, EchoMessage.parseFrom_serialize hw _ hf hlen, hh]
  | true =>
    have hp := EchoMessage.parseFrom_serialize hw .new hf hlen
    rw [hh, if_pos rfl] at hp
    cases echoAttachment <;>
      simp [prototype, hp, callMethod, impl, Controller.failed, EchoMessage.isInitialized, EchoMessage.setMessage]

/-- A service that does not override `Echo` serves nothing. -/
theorem serve_base (index : Nat) (cntl : Controller) (input : Bytes) :
    (base : EchoService F).serve w index cntl input = none := by
  cases index with
  | succ n => rfl
  | zero =>
    unfold serve
    cases hp : (EchoMessage.new : EchoMessage F).parseFrom w input with
    | none => simp [prototype, hp]
    | some request => simp [prototype, callMethod, base, Controller.failed, Controller.setFailed]

end EchoService

/-- The call has failed, or the request had its message and came back with its attachment, and nothing else. -/
def Echoed {F : Type} (echoAttachment : Bool) (cntl : Controller) (request : EchoMessage F)
    (result : Controller × EchoMessage F) : Prop :=
  result.1.failed = true ∨
    request.has = true ∧ result.2 = EchoMessage.new.setMessage request.message ∧
      result.1 = { cntl with
        errorText := none
        responseAttachment := if echoAttachment then cntl.requestAttachment else [] }

namespace Stub

variable {F : Type} {w : WireFormat F} {tagOf : F → Nat} {ch : RpcChannel F}

/-- Every call to the echo server fails or echoes, whatever the response object held before. -/
theorem echo_echoed (hw : w.Lawful tagOf) {echoAttachment : Bool} (hd : ch.Delivers w (.impl echoAttachment))
    (cntl : Controller) {request : EchoMessage F} (hf : request.Foreign tagOf)
    (hlen : request.message.length < 2 ^ 31) (response : EchoMessage F) :
    Echoed echoAttachment cntl request (echo ch cntl request response) := by
  obtain ⟨cntl', response', hc⟩ : ∃ c r, echo ch cntl request response = (c, r) := ⟨_, _, rfl⟩
  rw [hc]
  by_cases hfail : cntl'.failed = true
  · exact Or.inl hfail
  · right
    have hok : cntl'.failed = false := by simpa using hfail
    obtain ⟨output, attachment, hs, hp, rfl⟩ := hd hc hok
    rw [EchoService.serve_impl hw echoAttachment cntl hf hlen] at hs
    cases hh : request.has with
    | false => simp [hh] at hs
    | true =>
      rw [hh, if_pos rfl] at hs
      cases hs
      rw [EchoMessage.parseFrom_setMessage hw response hlen] at hp
      cases hp
      exact ⟨rfl, rfl, rfl⟩

/-- No call to a service without an `Echo` of its own succeeds. -/
theorem echo_base (hd : ch.Delivers w .base) (cntl : Controller) (request response : EchoMessage F) :
    (echo ch cntl request response).1.failed = true := by
  by_contra hfail
  have hok : (echo ch cntl request response).1.failed = false := by simpa using hfail
  obtain ⟨output, attachment, hs, _⟩ := hd (Prod.eta _).symm hok
  rw [EchoService.serve_base] at hs
  cases hs

/-- In the same process a call fails only for want of a message. -/
private theorem failed_direct (hw : w.Lawful tagOf) (echoAttachment : Bool) (cntl : Controller)
    {request : EchoMessage F}
    (hf : request.Foreign tagOf) (hlen : request.message.length < 2 ^ 31) (response : EchoMessage F) :
    (echo (.direct w (.impl echoAttachment)) cntl request response).1.failed = !request.has := by
  unfold echo RpcChannel.direct
  dsimp only
  rw [EchoService.serve_impl hw echoAttachment cntl hf hlen]
  cases request.has with
  | false => rfl
  | true =>
    rw [if_pos rfl]
    dsimp only
    rw [EchoMessage.parseFrom_setMessage hw response hlen]
    rfl

/-- The request of the test, with an attachment, into a response that is not fresh. -/
theorem echo_echoed_hello :
    let request : EchoMessage Wire.Field := EchoMessage.withUnknown.setMessage [72, 101, 108, 108, 111]
    let cntl : Controller := { requestAttachment := [65, 66] }
    let result := echo (.direct wireFormat (.impl true)) cntl request EchoMessage.withUnknown
    result.1.failed = false ∧ Echoed true cntl request result := by
  intro request cntl result
  have hf : request.Foreign Wire.Field.tag := by
    intro f hf
    rw [List.mem_singleton.1 hf]
    decide
  have hlen : request.message.length < 2 ^ 31 := by decide
  exact ⟨failed_direct wireFormat_lawful true cntl hf hlen _,
    echo_echoed wireFormat_lawful (RpcChannel.direct_delivers wireFormat (.impl true)) cntl hf hlen _⟩

end Stub

end LearnTogether
