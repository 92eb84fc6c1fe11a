import Zatestil.Messaging.Message
import Zatestil.Library.Machine

/-!
# The requester

`Requester::request` registers a message and hands out a `TimedMessage`; `co_await` on it
sends the text, arms a timer and suspends the caller, and the first response or timeout that
reaches `TimedMessage::set` resumes it. Coroutines, inbound messages and timer handlers run on
the threads of one `io_context`, so a run of the requester is a list of actions of all of
them, cut where another thread can come between.

* A call is one `request` followed by one `co_await`, and is named by a number. The message
  object that a call registers has the number of the call; a call whose id was registered
  already is given the object that is there.
* A timer wait is named by the call that armed it. `expires_from_now` and `cancel` abort the
  waits that have not expired; an expired one has its handler queued and runs.
* A task is the handler of one inbound text, posted by the session.
* The section of `set` up to the resume is one step; `m_response` stays locked until `set`
  returns. Accesses to the map are steps too.
* The handler reads `it->second` as soon as it has found the entry. Later it reads the same, or
  the entry has been erased in between (`useErased`).
* The last pointer that goes runs `~TimedMessage`, which locks `m_response`. Another thread than
  that of `set` waits in it until `set` has returned, and nobody notices. The coroutine that `set`
  resumes drops its `Awaiter` on the thread that holds the lock. If that was the last pointer, the
  thread waits for ever (`stuck`), and the other threads go on.

It is undefined, and ends the run with a `Fault`, to call `co_await` or `set` on an object
without owners, to go on in `await_suspend` without the `Awaiter`, to search after the
requester is gone, to go through the iterator of an erased entry, and to resume the null handle.
A `set` that erases the last pointer to its own message waits for itself inside its section,
which also ends the run. `sent` and `processed` are observations that no step reads, and so is
the `resumes` of a message.
-/
namespace Zatestil.Messaging
open Library

/-- The shared pointers to a `TimedMessage`: the entry of the map, the `Awaiter` of a call and
the completion handler of the wait a call armed. -/
inductive Owner where
  | entry
  | awaiter (n : Nat)
  | handler (n : Nat)
  deriving DecidableEq, Repr

structure TimedMessage where
  m_message : Message
  m_handle : Option Nat
  m_response : Option Message
  locked : Bool
  owners : Finset Owner
  processed : List Message
  resumes : Nat
  /-- `~TimedMessage` waits for the lock that its own thread holds in `set`. -/
  stuck : Bool

/-- Without the pointer `o` the message is destroyed, while `m_response` is locked. -/
def TimedMessage.locksAgain (tm : TimedMessage) (o : Owner) : Bool :=
  tm.locked && tm.owners.erase o = ∅

/-- Where a call stands: with the reference returned by `request`, and then between the steps
of `await_suspend`. -/
inductive Pc where
  | requested
  | awaiting
  | stored
  | sent
  | expirySet
  | armed
  | returned
  deriving DecidableEq, Repr

/-- The wait of a call and its completion handler. -/
inductive Wait where
  | idle
  | pending
  | expired
  | aborted
  | started
  | resuming
  | done
  deriving DecidableEq, Repr

/-- The handler is there and has not finished. -/
def Wait.live : Wait → Bool
  | .pending | .expired | .aborted | .started | .resuming => true
  | .idle | .done => false

structure Call where
  message : Message
  tm : Nat
  pc : Pc
  wait : Wait
  resumes : Nat
  /-- What `await_resume` returned; from then on the `Awaiter` is gone. -/
  result : Option Message

/-- A wait on the message `x` is aborted if it has not expired. -/
def Call.abort (x : Nat) (c : Call) : Call :=
  if c.tm = x ∧ c.wait = .pending then { c with wait := .aborted } else c

/-- The handler of an inbound text. -/
inductive Task where
  | posted (rawMessage : String)
  | found (tm : Nat) (message : Message)
  | resuming (tm : Nat)
  | done
  deriving DecidableEq, Repr

/-- Who calls `set`. -/
inductive Runner where
  | task (j : Nat)
  | timer (n : Nat)
  deriving DecidableEq, Repr

inductive Fault where
  | nullResume
  | dangling
  | selfLock
  deriving DecidableEq, Repr

structure State where
  alive : Bool
  fault : Option Fault
  m_timedMessages : UInt64 → Option Nat
  messages : Nat → Option TimedMessage
  calls : Nat → Option Call
  tasks : Nat → Option Task
  sent : List (Nat × String)

inductive Act where
  | request (n : Nat) (message : Message)
  | coAwait (n : Nat)
  | storeHandle (n : Nat)
  | send (n : Nat)
  | setExpiry (n : Nat)
  | armWait (n : Nat)
  | suspended (n : Nat)
  | arrive (j : Nat) (rawMessage : String)
  | dispatch (j : Nat)
  | useErased (j : Nat)
  | set (r : Runner)
  | setReturn (r : Runner)
  | endAwait (n : Nat)
  | expire (n : Nat)
  | fire (n : Nat)
  | abortedWait (n : Nat)
  | destroy
  deriving DecidableEq, Repr

/-- The message with which an action calls `request`. -/
def Act.requested : Act → Option Message
  | .request _ message => some message
  | _ => none

namespace State

/-- A new requester. -/
def init : State where
  alive := true
  fault := none
  m_timedMessages _ := none
  messages _ := none
  calls _ := none
  tasks _ := none
  sent := []

def modifyMessage (s : State) (x : Nat) (f : TimedMessage → TimedMessage) : State :=
  { s with messages := Function.update s.messages x ((s.messages x).map f) }

def modifyCall (s : State) (n : Nat) (f : Call → Call) : State :=
  { s with calls := Function.update s.calls n ((s.calls n).map f) }

def addCall (s : State) (n : Nat) (c : Call) : State :=
  { s with calls := Function.update s.calls n (some c) }

def setTask (s : State) (j : Nat) (task : Task) : State :=
  { s with tasks := Function.update s.tasks j (some task) }

def fail (s : State) (fault : Fault) : State := { s with fault := some fault }

/-- `m_timer.cancel` on a message: its waits that have not expired are aborted. -/
def cancel (s : State) (x : Nat) : State :=
  { s with calls := fun n => (s.calls n).map (·.abort x) }

/-- `m_timedMessages->erase(id)`. -/
def eraseEntry (s : State) (id : UInt64) : State :=
  match s.m_timedMessages id with
  | none => s
  | some y =>
    { s.modifyMessage y fun tm => { tm with owners := tm.owners.erase .entry } with
      m_timedMessages := Function.update s.m_timedMessages id none }

/-! ## Requests and `co_await` -/

/-- A message that nobody has answered, with its entry in the map. -/
def register (s : State) (n : Nat) (message : Message) : State :=
  { s with
    m_timedMessages := Function.update s.m_timedMessages message.id (some n)
    messages := Function.update s.messages n
      (some ⟨message, none, none, false, {.entry}, [], 0, false⟩) }

/-- `Requester::request`: `emplace` keeps the entry that is there. -/
def request (s : State) (n : Nat) (message : Message) : Option State :=
  if s.alive ∧ s.calls n = none then
    match s.m_timedMessages message.id with
    | some x => some (s.addCall n ⟨message, x, .requested, .idle, 0, none⟩)
    | none =>
      some ((s.register n message).addCall n ⟨message, n, .requested, .idle, 0, none⟩)
  else none

/-- `operator co_await` and the start of `await_suspend`. -/
def coAwait (s : State) (n : Nat) : Option State := do
  let c ← s.calls n
  let tm ← s.messages c.tm
  if c.pc = .requested then
    if tm.owners = ∅ then some (s.fail .dangling)
    else some ((s.modifyMessage c.tm fun tm =>
      { tm with owners := insert (.awaiter n) tm.owners }).modifyCall n fun c =>
        { c with pc := .awaiting })
  else none

/-- A step of `await_suspend`, which works on its `Awaiter`. -/
def suspending (s : State) (n : Nat) (pc : Pc) (next : Call → TimedMessage → State) :
    Option State := do
  let c ← s.calls n
  let tm ← s.messages c.tm
  if c.pc = pc then
    if c.result.isSome then some (s.fail .dangling) else some (next c tm)
  else none

def storeHandle (s : State) (n : Nat) : Option State :=
  s.suspending n .awaiting fun c _ =>
    (s.modifyMessage c.tm fun tm => { tm with m_handle := some n }).modifyCall n fun c =>
      { c with pc := .stored }

def send (C : Codec) (s : State) (n : Nat) : Option State :=
  s.suspending n .stored fun _ tm =>
    { s.modifyCall n fun c => { c with pc := .sent } with
      sent := s.sent ++ [(n, C.toJson tm.m_message)] }

def setExpiry (s : State) (n : Nat) : Option State :=
  s.suspending n .sent fun c _ =>
    (s.cancel c.tm).modifyCall n fun c => { c with pc := .expirySet }

def armWait (s : State) (n : Nat) : Option State :=
  s.suspending n .expirySet fun c _ =>
    (s.modifyMessage c.tm fun tm =>
      { tm with owners := insert (.handler n) tm.owners }).modifyCall n fun c =>
        { c with pc := .armed, wait := .pending }

/-- `await_suspend` returns. -/
def suspended (s : State) (n : Nat) : Option State := do
  let c ← s.calls n
  if c.pc = .armed then some (s.modifyCall n fun c => { c with pc := .returned }) else none

/-- The resumed coroutine takes the response by `await_resume` and drops the `Awaiter`, whose
destructor cancels the timer and gives up the pointer. -/
def endAwait (s : State) (n : Nat) : Option State := do
  let c ← s.calls n
  let tm ← s.messages c.tm
  let response ← tm.m_response
  if c.resumes ≠ 0 ∧ c.result = none then
    some (((s.modifyCall n fun c => { c with result := some response }).cancel c.tm).modifyMessage
      c.tm fun tm =>
        { tm with
          owners := tm.owners.erase (.awaiter n)
          stuck := tm.stuck || tm.locksAgain (.awaiter n) })
  else none

/-! ## Inbound messages and timers -/

/-- The session posts the handler of a live requester. -/
def arrive (s : State) (j : Nat) (rawMessage : String) : Option State :=
  if s.alive ∧ s.tasks j = none then some (s.setTask j (.posted rawMessage)) else none

/-- The handler up to the call of `set`. Only the search uses `this`. -/
def dispatch (C : Codec) (s : State) (j : Nat) : Option State :=
  match s.tasks j with
  | some (.posted rawMessage) =>
    match C.fromJson rawMessage with
    | none => some (s.setTask j .done)
    | some message =>
      if message.type ≠ .response then some (s.setTask j .done)
      else if s.alive = false then some (s.fail .dangling)
      else match s.m_timedMessages message.id with
        | none => some (s.setTask j .done)
        | some x => some (s.setTask j (.found x message))
  | _ => none

/-- The entry is erased before the handler reads `it->second`. -/
def useErased (s : State) (j : Nat) : Option State :=
  match s.tasks j with
  | some (.found x message) =>
    if s.m_timedMessages message.id = some x then none else some (s.fail .dangling)
  | _ => none

/-- The wait of a call goes from one stage to the next. -/
def advance (s : State) (n : Nat) (old new : Wait) : Option State := do
  let c ← s.calls n
  if c.wait = old then some (s.modifyCall n fun c => { c with wait := new }) else none

/-- The deadline passes, and the completion handler is queued. -/
def expire (s : State) (n : Nat) : Option State := s.advance n .pending .expired

/-- The completion handler starts without an error. -/
def fire (s : State) (n : Nat) : Option State := s.advance n .expired .started

/-- The completion handler of the wait of `n` on the message `x` is done and gives up its
pointer. It is not inside `set`, so `~TimedMessage` may wait in its thread, but not for itself. -/
def dropHandler (s : State) (n x : Nat) : State :=
  (s.modifyCall n fun c => { c with wait := .done }).modifyMessage x fun tm =>
    { tm with owners := tm.owners.erase (.handler n) }

/-- The completion handler runs with `operation_aborted`. -/
def abortedWait (s : State) (n : Nat) : Option State := do
  let c ← s.calls n
  if c.wait = .aborted then some (s.dropHandler n c.tm) else none

/-! ## `TimedMessage::set` -/

def timedOut (request : Message) : Message := makeResponse request ⟨false, "timed out"⟩ ""

/-- The object and the message with which a runner is about to call `set`. -/
def target (s : State) : Runner → Option (Nat × Message)
  | .task j =>
    match s.tasks j with
    | some (.found x message) => some (x, message)
    | _ => none
  | .timer n => do
    let c ← s.calls n
    let tm ← s.messages c.tm
    if c.wait = .started then some (c.tm, timedOut tm.m_message) else none

/-- The object in whose resume a runner is. -/
def resuming (s : State) : Runner → Option Nat
  | .task j =>
    match s.tasks j with
    | some (.resuming x) => some x
    | _ => none
  | .timer n => do
    let c ← s.calls n
    if c.wait = .resuming then some c.tm else none

/-- The runner goes into the resume. -/
def enter (s : State) (x : Nat) : Runner → State
  | .task j => s.setTask j (.resuming x)
  | .timer n => s.modifyCall n fun c => { c with wait := .resuming }

/-- The runner is back from `set`. -/
def finish (s : State) (x : Nat) : Runner → State
  | .task j => s.setTask j .done
  | .timer n => s.dropHandler n x

/-- The section of `set` on an empty response: the entry goes, the response is stored and the
timer is cancelled. -/
def settle (s : State) (x : Nat) (message : Message) : State :=
  ((s.eraseEntry message.id).modifyMessage x fun tm =>
    { tm with
      m_response := some message
      locked := true
      processed := tm.processed ++ [message] }).cancel x

/-- The handle is resumed. -/
def resume (s : State) (x n : Nat) : State :=
  (s.modifyMessage x fun tm => { tm with resumes := tm.resumes + 1 }).modifyCall n fun c =>
    { c with resumes := c.resumes + 1 }

def set (s : State) (r : Runner) : Option State := do
  let (x, message) ← s.target r
  let tm ← s.messages x
  if tm.owners = ∅ then some (s.fail .dangling)
  else if tm.locked then none
  else if tm.m_response.isSome then
    some ((s.modifyMessage x fun tm =>
      { tm with processed := tm.processed ++ [message] }).finish x r)
  else match tm.m_handle with
    | some n => some (((s.settle x message).resume x n).enter x r)
    | none =>
      -- without any other owner `erase` runs `~TimedMessage`, before the null handle is reached
      some ((s.settle x message).fail
        (if tm.owners.erase .entry = ∅ then .selfLock else .nullResume))

/-- The resume is over and `set` returns. -/
def setReturn (s : State) (r : Runner) : Option State := do
  let x ← s.resuming r
  if (s.messages x).any TimedMessage.stuck then none
  else some ((s.modifyMessage x fun tm => { tm with locked := false }).finish x r)

/-! ## The machine -/

/-- One step of a run; none is possible after a fault. -/
def step (C : Codec) (s : State) (a : Act) : Option State :=
  if s.fault.isSome then none
  else match a with
    | .request n message => s.request n message
    | .coAwait n => s.coAwait n
    | .storeHandle n => s.storeHandle n
    | .send n => s.send C n
    | .setExpiry n => s.setExpiry n
    | .armWait n => s.armWait n
    | .suspended n => s.suspended n
    | .arrive j rawMessage => s.arrive j rawMessage
    | .dispatch j => s.dispatch C j
    | .useErased j => s.useErased j
    | .set r => s.set r
    | .setReturn r => s.setReturn r
    | .endAwait n => s.endAwait n
    | .expire n => s.expire n
    | .fire n => s.fire n
    | .abortedWait n => s.abortedWait n
    | .destroy => if s.alive then some { s with alive := false } else none

end State

end Zatestil.Messaging
