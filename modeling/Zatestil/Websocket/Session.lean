import Zatestil.Library.SortedMap
import Zatestil.Library.Machine

/-!
# Websocket sessions

One direction between two sessions: what is given to `send` on one of them, and what the other
one passes to its handlers. `websocket::client::Session` and `websocket::server::Session` read
with the same code and write with different buffers.

A link is a machine whose actions are the steps of the threads involved. The write strand runs
one task at a time; reading is a loop of a completion, `onRead`, and `startRead` from a scope
guard; the tasks posted by `onRead` are run by the pool in any order. `onRead` copies the map
of handlers in one step and then posts a task for each of them, so that `unsetHandle` of
another thread can come in between.
-/
namespace Zatestil.Websocket
open Library

/-- The bytes of a `std::string`. -/
abbrev Text := List UInt8

/-! ## Dynamic buffers -/

/-- The calls of `beast::flat_buffer` that the sessions make. `area` is the writable area that
`prepare` hands out, and `copy` is `asio::buffer_copy` into it. -/
structure FlatBuffer where
  Buffer : Type
  data : Buffer → Text
  area : Buffer → Text
  size : Buffer → Nat
  consume : Buffer → Nat → Buffer
  prepare : Buffer → Nat → Buffer
  copy : Buffer → Text → Buffer
  commit : Buffer → Nat → Buffer

namespace FlatBuffer

/-- What the library documents. Nothing is known about the bytes of a prepared area. -/
structure Documented (F : FlatBuffer) : Prop where
  size_data : ∀ b, F.size b = (F.data b).length
  data_consume : ∀ b n, F.data (F.consume b n) = (F.data b).drop n
  data_prepare : ∀ b n, F.data (F.prepare b n) = F.data b
  length_area : ∀ b n, (F.area (F.prepare b n)).length = n
  data_copy : ∀ b xs, F.data (F.copy b xs) = F.data b
  area_copy : ∀ b xs,
    F.area (F.copy b xs) = xs.take (F.area b).length ++ (F.area b).drop xs.length
  data_commit : ∀ b n, F.data (F.commit b n) = F.data b ++ (F.area b).take n

variable (F : FlatBuffer)

/-- `consume(size())`. -/
def clear (b : F.Buffer) : F.Buffer := F.consume b (F.size b)

/-- Put a text behind the readable bytes. -/
def append (b : F.Buffer) (xs : Text) : F.Buffer :=
  F.commit (F.copy (F.prepare b xs.length) xs) xs.length

variable {F}

theorem Documented.data_clear (hF : F.Documented) (b : F.Buffer) : F.data (F.clear b) = [] := by
  simp [clear, hF.data_consume, hF.size_data]

/-- The area is as long as the text, so that none of its old bytes are committed. -/
theorem Documented.data_append (hF : F.Documented) (b : F.Buffer) (xs : Text) :
    F.data (F.append b xs) = F.data b ++ xs := by
  have harea : F.area (F.copy (F.prepare b xs.length) xs) = xs := by
    simp [hF.area_copy, hF.length_area]
  rw [append, hF.data_commit, hF.data_copy, hF.data_prepare, harea, List.take_length]

/-- A buffer whose areas hold zeros at first. -/
def reference : FlatBuffer where
  Buffer := Text × Text
  data b := b.1
  area b := b.2
  size b := b.1.length
  consume b n := (b.1.drop n, [])
  prepare b n := (b.1, List.replicate n 0)
  copy b xs := (b.1, xs.take b.2.length ++ b.2.drop xs.length)
  commit b n := (b.1 ++ b.2.take n, [])

theorem reference_documented : reference.Documented where
  size_data _ := rfl
  data_consume _ _ := rfl
  data_prepare _ _ := rfl
  length_area _ _ := List.length_replicate
  data_copy _ _ := rfl
  area_copy _ _ := rfl
  data_commit _ _ := rfl

end FlatBuffer

/-! ## Handlers -/

/-- `m_handles`, with the static counter that gives out the ids. -/
structure Handles (H : Type) where
  handleId : Nat
  m_handles : SortedMap Nat H

namespace Handles

variable {H : Type}

/-- `std::map::insert` does not replace an element; the id is returned. -/
def setHandle (hs : Handles H) (handle : H) : Handles H × Nat :=
  ({ handleId := hs.handleId + 1
     m_handles :=
      if (hs.m_handles.lookup hs.handleId).isSome then hs.m_handles
      else hs.m_handles.insert hs.handleId handle }, hs.handleId)

def unsetHandle (hs : Handles H) (handleId : Nat) : Handles H × Bool :=
  ({ hs with m_handles := hs.m_handles.erase handleId }, (hs.m_handles.lookup handleId).isSome)

theorem lookup_setHandle_of_ne {hs : Handles H} {handle : H} {id : Nat} (h : id ≠ hs.handleId) :
    (hs.setHandle handle).1.m_handles.lookup id = hs.m_handles.lookup id := by
  simp only [setHandle]
  split_ifs
  · rfl
  · rw [SortedMap.lookup_insert, if_neg h]

theorem lookup_setHandle_self {hs : Handles H} {handle : H}
    (h : hs.m_handles.lookup hs.handleId = none) :
    (hs.setHandle handle).1.m_handles.lookup hs.handleId = some handle := by
  simp [setHandle, h, SortedMap.lookup_insert]

theorem lookup_unsetHandle (hs : Handles H) (handleId id : Nat) :
    (hs.unsetHandle handleId).1.m_handles.lookup id =
      if id = handleId then none else hs.m_handles.lookup id :=
  SortedMap.lookup_erase _ _ _

end Handles

/-! ## The two sides -/

/-- `m_wBuffer`: a string in the client's session and a flat buffer in the server's. -/
inductive WBuffer (F : FlatBuffer) where
  | string (data : Text)
  | flat (buffer : F.Buffer)

namespace WBuffer

variable {F : FlatBuffer}

/-- How a task of the write strand puts its text into the buffer. -/
def fill (data : Text) : WBuffer F → WBuffer F
  | .string _ => .string data
  | .flat b => .flat (F.append (F.clear b) data)

/-- The bytes handed to `m_stream.write`. -/
def data : WBuffer F → Text
  | .string s => s
  | .flat b => F.data b

theorem data_fill (hF : F.Documented) (data : Text) (w : WBuffer F) :
    (w.fill data).data = data := by
  cases w with
  | string s => rfl
  | flat b => simp [fill, WBuffer.data, hF.data_append, hF.data_clear]

end WBuffer

/-- A task that `onRead` posts: it calls the handler with the text. -/
structure Task (H : Type) where
  id : Nat
  handler : H
  text : Text
  deriving DecidableEq, Repr

/-- Where the reading loop is: `posting` has the local variables of `onRead`. -/
inductive ReadPhase (H : Type) where
  | armed
  | completed
  | failed
  | posting (rawMessage : Text) (handlers : List (Nat × H))
  | stopped
  deriving DecidableEq, Repr

/-- The tasks for some handlers. -/
def tasksFor {H : Type} (text : Text) (handlers : List (Nat × H)) : List (Task H) :=
  handlers.map fun e => ⟨e.1, e.2, text⟩

/-- The tasks that the running `onRead` has still to post. -/
def ReadPhase.unposted {H : Type} : ReadPhase H → List (Task H)
  | .posting rawMessage handlers => tasksFor rawMessage handlers
  | _ => []

/-- A text that reached the handlers, with the copy of the map that `onRead` took. -/
structure Fanout (H : Type) where
  text : Text
  handlers : SortedMap Nat H

/-- One direction between two sessions. The last four fields are histories: what `send` was
given, what `onRead` fanned out and posted, and the calls of handlers. -/
structure Link (F : FlatBuffer) (H : Type) where
  strand : List Text
  writing : Option Text
  m_wBuffer : WBuffer F
  wire : List Text
  inbox : List Text
  isOpen : Bool
  m_rBuffer : F.Buffer
  phase : ReadPhase H
  handles : Handles H
  tasks : List (Task H)
  sent : List Text
  fanouts : List (Fanout H)
  posted : List (Task H)
  calls : List (Task H)

/-- The steps of the threads. `close` is of the receiving session. -/
inductive Action (H : Type) where
  | send (data : Text)
  | fill
  | write
  | writeError (delivered : Bool)
  | deliver
  | readDone
  | readError (bytes : Text) (taken : Bool)
  | readClosed
  | onRead
  | post
  | leaveOnRead
  | setHandle (handle : H)
  | setHandleElsewhere
  | unsetHandle (handleId : Nat)
  | runTask (n : Nat)
  | close (clears : Bool)

namespace Action

variable {H : Type}

def isError : Action H → Bool
  | .writeError _ | .readError _ _ => true
  | _ => false

end Action

namespace Link

variable {F : FlatBuffer} {H : Type}

/-- Two sessions after the handshakes, the receiving one reading. -/
def init (w : WBuffer F) (r : F.Buffer) (handleId : Nat) : Link F H where
  strand := []
  writing := none
  m_wBuffer := w
  wire := []
  inbox := []
  isOpen := true
  m_rBuffer := F.clear r
  phase := .armed
  handles := ⟨handleId, .empty⟩
  tasks := []
  sent := []
  fanouts := []
  posted := []
  calls := []

def startRead (s : Link F H) : Link F H :=
  if s.isOpen then { s with m_rBuffer := F.clear s.m_rBuffer, phase := .armed }
  else { s with phase := .stopped }

/-- One step; `none` if the action is not possible. -/
def step (s : Link F H) : Action H → Option (Link F H)
  | .send data => some { s with strand := s.strand ++ [data], sent := s.sent ++ [data] }
  | .fill =>
    match s.writing, s.strand with
    | none, data :: strand =>
      some { s with strand, writing := some data, m_wBuffer := s.m_wBuffer.fill data }
    | _, _ => none
  | .write =>
    match s.writing with
    | some _ => some { s with writing := none, wire := s.wire ++ [s.m_wBuffer.data] }
    | none => none
  | .writeError delivered =>
    -- a write that reports an error may still have been transmitted
    match s.writing with
    | some _ =>
      some { s with
        writing := none
        wire := if delivered then s.wire ++ [s.m_wBuffer.data] else s.wire }
    | none => none
  | .deliver =>
    match s.wire with
    | m :: wire => some { s with wire, inbox := s.inbox ++ [m] }
    | [] => none
  | .readDone =>
    match s.phase, s.inbox with
    | .armed, m :: inbox =>
      some { s with inbox, m_rBuffer := F.append s.m_rBuffer m, phase := .completed }
    | _, _ => none
  | .readError bytes taken =>
    -- part of a message may be in the buffer, and the message may be lost
    match s.phase with
    | .armed =>
      some { s with
        inbox := if taken then s.inbox.tail else s.inbox
        m_rBuffer := F.append s.m_rBuffer bytes
        phase := .failed }
    | _ => none
  | .readClosed =>
    match s.phase with
    | .armed => some { s with phase := .stopped }
    | _ => none
  | .onRead =>
    match s.phase with
    | .completed =>
      some { s with
        phase := .posting (F.data s.m_rBuffer) s.handles.m_handles.entries
        fanouts := s.fanouts ++ [⟨F.data s.m_rBuffer, s.handles.m_handles⟩] }
    | _ => none
  | .post =>
    match s.phase with
    | .posting rawMessage (e :: handlers) =>
      some { s with
        phase := .posting rawMessage handlers
        tasks := s.tasks ++ [⟨e.1, e.2, rawMessage⟩]
        posted := s.posted ++ [⟨e.1, e.2, rawMessage⟩] }
    | _ => none
  | .leaveOnRead =>
    match s.phase with
    | .failed | .posting _ [] => some s.startRead
    | _ => none
  | .setHandle handle => some { s with handles := (s.handles.setHandle handle).1 }
  | .setHandleElsewhere =>
    -- the counter is shared by all sessions of the class
    some { s with handles := { s.handles with handleId := s.handles.handleId + 1 } }
  | .unsetHandle handleId => some { s with handles := (s.handles.unsetHandle handleId).1 }
  | .runTask n =>
    match s.tasks[n]? with
    | some task => some { s with tasks := s.tasks.eraseIdx n, calls := s.calls ++ [task] }
    | none => none
  | .close clears =>
    -- the client's `close` clears the handlers, the server's does not
    some { s with
      isOpen := false
      handles :=
        if clears then { s.handles with m_handles := .empty } else s.handles }

/-! ## The steps, one by one -/

/-- What a step can do, with what it needs. -/
inductive Step (s : Link F H) : Action H → Link F H → Prop where
  | send (data : Text) :
      Step s (.send data) { s with strand := s.strand ++ [data], sent := s.sent ++ [data] }
  | fill (data : Text) (strand : List Text) (hw : s.writing = none)
      (hs : s.strand = data :: strand) :
      Step s .fill
        { s with strand, writing := some data, m_wBuffer := s.m_wBuffer.fill data }
  | write (data : Text) (hw : s.writing = some data) :
      Step s .write { s with writing := none, wire := s.wire ++ [s.m_wBuffer.data] }
  | writeError (delivered : Bool) (data : Text) (hw : s.writing = some data) :
      Step s (.writeError delivered) { s with
        writing := none
        wire := if delivered then s.wire ++ [s.m_wBuffer.data] else s.wire }
  | deliver (m : Text) (wire : List Text) (hw : s.wire = m :: wire) :
      Step s .deliver { s with wire, inbox := s.inbox ++ [m] }
  | readDone (m : Text) (inbox : List Text) (hp : s.phase = .armed) (hi : s.inbox = m :: inbox) :
      Step s .readDone
        { s with inbox, m_rBuffer := F.append s.m_rBuffer m, phase := .completed }
  | readError (bytes : Text) (taken : Bool) (hp : s.phase = .armed) :
      Step s (.readError bytes taken) { s with
        inbox := if taken then s.inbox.tail else s.inbox
        m_rBuffer := F.append s.m_rBuffer bytes
        phase := .failed }
  | readClosed (hp : s.phase = .armed) : Step s .readClosed { s with phase := .stopped }
  | onRead (hp : s.phase = .completed) :
      Step s .onRead { s with
        phase := .posting (F.data s.m_rBuffer) s.handles.m_handles.entries
        fanouts := s.fanouts ++ [⟨F.data s.m_rBuffer, s.handles.m_handles⟩] }
  | post (rawMessage : Text) (e : Nat × H) (handlers : List (Nat × H))
      (hp : s.phase = .posting rawMessage (e :: handlers)) :
      Step s .post { s with
        phase := .posting rawMessage handlers
        tasks := s.tasks ++ [⟨e.1, e.2, rawMessage⟩]
        posted := s.posted ++ [⟨e.1, e.2, rawMessage⟩] }
  | rearm (hp : s.phase = .failed ∨ ∃ rawMessage, s.phase = .posting rawMessage [])
      (ho : s.isOpen = true) :
      Step s .leaveOnRead { s with m_rBuffer := F.clear s.m_rBuffer, phase := .armed }
  | stop (hp : s.phase = .failed ∨ ∃ rawMessage, s.phase = .posting rawMessage [])
      (ho : s.isOpen = false) : Step s .leaveOnRead { s with phase := .stopped }
  | setHandle (handle : H) :
      Step s (.setHandle handle) { s with handles := (s.handles.setHandle handle).1 }
  | setHandleElsewhere :
      Step s .setHandleElsewhere
        { s with handles := { s.handles with handleId := s.handles.handleId + 1 } }
  | unsetHandle (handleId : Nat) :
      Step s (.unsetHandle handleId) { s with handles := (s.handles.unsetHandle handleId).1 }
  | runTask (n : Nat) (task : Task H) (hn : s.tasks[n]? = some task) :
      Step s (.runTask n) { s with tasks := s.tasks.eraseIdx n, calls := s.calls ++ [task] }
  | close (clears : Bool) :
      Step s (.close clears) { s with
        isOpen := false
        handles :=
          if clears then { s.handles with m_handles := .empty } else s.handles }

theorem step_startRead {s : Link F H}
    (hp : s.phase = .failed ∨ ∃ rawMessage, s.phase = .posting rawMessage []) :
    Step s .leaveOnRead s.startRead := by
  unfold startRead
  split_ifs with ho
  · exact .rearm hp ho
  · exact .stop hp (by simpa using ho)

theorem step_cases {s t : Link F H} {a : Action H} (h : s.step a = some t) : Step s a t := by
  cases a with
  | send | setHandle | setHandleElsewhere | unsetHandle | close =>
    cases h
    constructor
  | fill | write | writeError | deliver | readDone | readError | readClosed | onRead | post
  | runTask =>
    simp only [step] at h
    split at h
    · cases h
      constructor <;> assumption
    · cases h
  | leaveOnRead =>
    simp only [step] at h
    split at h
    · rename_i hp
      cases h
      exact step_startRead (.inl hp)
    · rename_i rawMessage hp
      cases h
      exact step_startRead (.inr ⟨rawMessage, hp⟩)
    · cases h

end Link

end Zatestil.Websocket
