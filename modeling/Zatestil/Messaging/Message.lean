import Mathlib.Tactic

/-!
# Messages

The data that travels between a client and the service, and the functions that build it. The
text form of a message is made and read by a serialisation library; `Codec` is the part of it
that the message code calls.
-/
namespace Zatestil.Messaging

inductive Action where
  | start
  | getAccount
  deriving DecidableEq, Repr

/-- `enum class Type`. -/
inductive MessageType where
  | request
  | response
  | notify
  deriving DecidableEq, Repr

structure Status where
  ok : Bool
  message : String
  deriving DecidableEq, Repr

structure Message where
  type : MessageType
  id : UInt64
  status : Status
  action : Action
  data : String
  deriving DecidableEq, Repr

/-- The overloads of `make_request`, with the value that the counter `next_id` gives; the one
without a payload leaves `data` empty. -/
def makeRequest (nextId : UInt64) (action : Action) (data : String) : Message :=
  ⟨.request, nextId, ⟨false, ""⟩, action, data⟩

/-- The overloads of `make_response`. -/
def makeResponse (request : Message) (status : Status) (data : String) : Message :=
  ⟨.response, request.id, status, request.action, data⟩

/-- `serde::to_json` and `serde::from_json` for messages; `none` is an exception. -/
structure Codec where
  toJson : Message → String
  fromJson : String → Option Message

/-- Reading what was written gives the message back, or throws. -/
def Codec.Inverts (C : Codec) : Prop := ∀ m m', C.fromJson (C.toJson m) = some m' → m' = m

/-! ## Three messages and their texts -/

/-- A request, the answer to it, and another request with the same id. -/
def ping : Message := makeRequest 1 .start ""
def pong : Message := makeResponse ping ⟨true, ""⟩ ""
def again : Message := makeRequest 1 .getAccount ""

def pingText : String :=
  "\x7b\"id\":1,\"type\":0,\"action\":0,\"status\":\x7b\"ok\":false," ++
    "\"message\":\"\"\x7d,\"data\":\"\"\x7d"

def pongText : String :=
  "\x7b\"id\":1,\"type\":1,\"action\":0,\"status\":\x7b\"ok\":true," ++
    "\"message\":\"\"\x7d,\"data\":\"\"\x7d"

def againText : String :=
  "\x7b\"id\":1,\"type\":0,\"action\":1,\"status\":\x7b\"ok\":false," ++
    "\"message\":\"\"\x7d,\"data\":\"\"\x7d"

/-- A codec that knows the three texts only. -/
def wire : Codec where
  toJson m :=
    if m = ping then pingText
    else if m = pong then pongText
    else if m = again then againText
    else ""
  fromJson text :=
    if text = pingText then some ping
    else if text = pongText then some pong
    else if text = againText then some again
    else none

theorem wire_inverts : wire.Inverts := by
  have hne : pingText ≠ pongText ∧ pingText ≠ againText ∧ pongText ≠ againText := by
    decide +kernel
  have hempty : "" ≠ pingText ∧ "" ≠ pongText ∧ "" ≠ againText := by
    decide +kernel
  intro m m' h
  simp only [wire] at h
  split_ifs at h <;> simp_all

end Zatestil.Messaging
