import Zatestil.Websocket.Session
import Zatestil.Websocket.Server

/-!
# The read loop

The two classes of sessions read with the same functions, and differ in the endpoints they log:
`startRead` starts one `async_read`, and its completion handler calls `onRead`, which starts the
next one in a scope guard. The handlers of one session run one after another, and an exception
that leaves one is caught by `util::run`.

A completion brings the bytes that are in the buffer by then, what `is_open` answers when
`startRead` asks it, and which of the calls of `onRead` throw. `starts` is an observation: how
many reads were outstanding when a read was started, and what the buffer held.

1. Both classes do to the reads what `Reads.step` does (`step_toReads`).
2. `one_read_at_a_time` is about all runs of both classes.
3. The handler does at once what the steps of a `Link` do (`link_completion`).
-/
namespace Zatestil.Websocket.ReadLoop
open Library Library.Call

/-! ## Sessions -/

/-- The endpoints of a session; the client never sets its `m_remoteEndpoint`. -/
inductive Side where
  | client (m_endpoint m_remoteEndpoint : Endpoint)
  | server (m_remoteEndpoint : Endpoint)

namespace Side

/-- `remoteEndpoint()`. -/
def remoteEndpoint : Side → Endpoint
  | client m_endpoint _ => m_endpoint
  | server m_remoteEndpoint => m_remoteEndpoint

def m_remoteEndpoint : Side → Endpoint
  | client _ m_remoteEndpoint => m_remoteEndpoint
  | server m_remoteEndpoint => m_remoteEndpoint

end Side

/-- What reading looks at and changes; `tasks` are those posted to `m_context`. -/
structure Reads (F : FlatBuffer) (H : Type) where
  m_rBuffer : F.Buffer
  m_handles : SortedMap Nat H
  outstanding : Nat := 0
  tasks : List (Task H) := []
  starts : List (Nat × Text) := []

structure Session (F : FlatBuffer) (H : Type) extends Reads F H where
  log : List String := []

/-- The calls of `onRead` that can throw. -/
inductive Site where
  | sharedFromThis
  | rawMessage
  | handlers
  | post (n : Nat)

inductive ErrorKind where
  | success
  | closed
  | other (errorCode : ErrorCode)
  deriving DecidableEq

/-- How one `async_read` ends. -/
structure Completion where
  error : ErrorKind
  bytes : Text
  nReadBytes : Nat
  isOpen : Bool
  throws : Site → Option String

variable {F : FlatBuffer} {H : Type}

/-- The functions of `log_as(websocket)`, which are `noexcept`. -/
def log (text : String) : Call String (Session F H) Unit :=
  modify fun s => { s with log := s.log ++ ["[websocket] " ++ text] }

/-! ## Reading -/

section
variable (side : Side)

/-- `m_stream.async_read(m_rBuffer, ...)`. -/
def asyncRead : Call String (Session F H) Unit :=
  modify fun s => { s with
    outstanding := s.outstanding + 1
    starts := s.starts ++ [(s.outstanding, F.data s.m_rBuffer)] }

def startRead (isOpen : Bool) : Call String (Session F H) Unit := noThrow do
  if !isOpen then
    pure ()
  else
    log ("reading from " ++ side.remoteEndpoint.toString)
    modify fun s => { s with m_rBuffer := F.consume s.m_rBuffer (F.size s.m_rBuffer) }
    asyncRead

/-- The loop over the handlers, from the `n`-th on. -/
def postTasks (throws : Site → Option String) (rawMessage : Text) :
    Nat → List (Nat × H) → Call String (Session F H) Unit
  | _, [] => pure ()
  | n, e :: handlers => do
    mayThrow (throws (.post n))
    modify fun s => { s with tasks := s.tasks ++ [⟨e.1, e.2, rawMessage⟩] }
    postTasks throws rawMessage (n + 1) handlers

def onReadBody (throws : Site → Option String) (result : Util.Result) :
    Call String (Session F H) Unit := do
  if !result.isOk then
    log ("session read error " ++ result.message ++ " from " ++ side.m_remoteEndpoint.toString)
  else
    mayThrow (throws .sharedFromThis)
    let payload := F.data (← get).m_rBuffer
    mayThrow (throws .rawMessage)
    let rawMessage := payload
    mayThrow (throws .handlers)
    let handlers := (← get).m_handles
    postTasks throws rawMessage 0 handlers.entries

def onRead (c : Completion) (result : Util.Result) : Call String (Session F H) Unit :=
  onScopeExit (startRead side c.isOpen) (onReadBody side c.throws result)

/-- The result that the completion handler makes of an error. -/
def readResult : ErrorKind → Util.Result
  | .success | .closed => ⟨.success, ""⟩
  | .other errorCode =>
    ⟨.error, errorCode.value.repr ++ " - " ++ errorCode.what ++ " on endpoint " ++
      side.m_remoteEndpoint.toString⟩

def readHandler (c : Completion) : Call String (Session F H) Unit := do
  if c.error = .closed then
    pure ()
  else
    log ("read " ++ c.nReadBytes.repr ++ " bytes from " ++ side.remoteEndpoint.toString)
    onRead side c (readResult side c.error)

/-- `onAccept` of the server's session. -/
def onAccept (isOpen : Bool) (result : Util.Result) : Call String (Session F H) Unit := do
  if !result.isOk then
    log ("accept error " ++ result.message)
  else
    log ("accepting from " ++ side.remoteEndpoint.toString ++ " is succeed")
    startRead side isOpen

/-- The end of a successful opening: `open` of the client, after the handshakes, and `onAccept` of
the server. -/
def opening (isOpen : Bool) : Call String (Session F H) Unit :=
  match side with
  | .client _ _ => startRead side isOpen
  | .server _ => onAccept side isOpen ⟨.success, ""⟩

end

/-- A read completes and its handler finishes, or other threads change the handlers. -/
inductive Action (H : Type) where
  | completion (c : Completion)
  | changeHandles (m_handles : SortedMap Nat H)

def step (side : Side) (s : Session F H) : Action H → Option (Session F H)
  | .completion c =>
    if s.outstanding = 0 then none
    else (readHandler side c).final { s with
      outstanding := s.outstanding - 1
      m_rBuffer := F.append s.m_rBuffer c.bytes }
  | .changeHandles m_handles => some { s with m_handles := m_handles }

/-! ## What the functions do -/

/-- The tasks posted before one of the calls throws. -/
def postedTasks (throws : Site → Option String) (rawMessage : Text) :
    Nat → List (Nat × H) → List (Task H)
  | _, [] => []
  | n, e :: handlers =>
    if (throws (.post n)).isSome then []
    else ⟨e.1, e.2, rawMessage⟩ :: postedTasks throws rawMessage (n + 1) handlers

namespace Reads

/-- The tasks that `onRead` posts for a message. -/
def dispatched (throws : Site → Option String) (r : Reads F H) : List (Task H) :=
  if throws .sharedFromThis = none ∧ throws .rawMessage = none ∧ throws .handlers = none then
    postedTasks throws (F.data r.m_rBuffer) 0 r.m_handles.entries
  else []

def dispatch (throws : Site → Option String) (r : Reads F H) : Reads F H :=
  { r with tasks := r.tasks ++ r.dispatched throws }

/-- A read is started, if the stream is open. -/
def restart (isOpen : Bool) (r : Reads F H) : Reads F H :=
  if isOpen then
    { r with
      m_rBuffer := F.clear r.m_rBuffer
      outstanding := r.outstanding + 1
      starts := r.starts ++ [(r.outstanding, F.data (F.clear r.m_rBuffer))] }
  else r

def complete (bytes : Text) (r : Reads F H) : Reads F H :=
  { r with outstanding := r.outstanding - 1, m_rBuffer := F.append r.m_rBuffer bytes }

def handle (c : Completion) (r : Reads F H) : Reads F H :=
  match c.error with
  | .closed => r
  | .success => (r.dispatch c.throws).restart c.isOpen
  | .other _ => r.restart c.isOpen

def step (r : Reads F H) : Action H → Option (Reads F H)
  | .completion c => if r.outstanding = 0 then none else some ((r.complete c.bytes).handle c)
  | .changeHandles m_handles => some { r with m_handles := m_handles }

end Reads

/-- The state in which a call leaves the reads, if it is not the end of the program. -/
def readsAfter (x : Call String (Session F H) Unit) (s : Session F H) : Option (Reads F H) :=
  (x.final s).map Session.toReads

theorem readsAfter_startRead (side : Side) (isOpen : Bool) (s : Session F H) :
    readsAfter (startRead side isOpen) s = some (s.toReads.restart isOpen) := by
  cases isOpen <;> rfl

theorem postTasks_final (throws : Site → Option String) (rawMessage : Text) (n : Nat)
    (handlers : List (Nat × H)) (s : Session F H) :
    (postTasks throws rawMessage n handlers).final s =
      some { s with tasks := s.tasks ++ postedTasks throws rawMessage n handlers } := by
  induction handlers generalizing n s with
  | nil => simp [postedTasks, postTasks]
  | cons e handlers ih =>
    rw [postTasks, final_mayThrow_bind, postedTasks]
    split_ifs with hthrow
    · simp
    · rw [final_modify_bind, ih]
      simp

theorem readsAfter_onReadBody (side : Side) (throws : Site → Option String) (s : Session F H) :
    readsAfter (onReadBody side throws ⟨.success, ""⟩) s = some (s.toReads.dispatch throws) := by
  have hok : Util.Result.isOk ⟨.success, ""⟩ = true := rfl
  cases hself : throws .sharedFromThis <;> cases hraw : throws .rawMessage <;>
    cases hhandlers : throws .handlers <;>
    simp [readsAfter, onReadBody, hok, hself, hraw, hhandlers, postTasks_final, Reads.dispatch,
      Reads.dispatched]

theorem readsAfter_onReadBody_error (side : Side) (throws : Site → Option String) (text : String)
    (s : Session F H) : readsAfter (onReadBody side throws ⟨.error, text⟩) s = some s.toReads := rfl

/-- The guard starts the next read, however the body is left. -/
theorem readsAfter_onScopeExit (side : Side) (isOpen : Bool) {body : Call String (Session F H) Unit}
    {s : Session F H} {r : Reads F H} (h : readsAfter body s = some r) :
    readsAfter (onScopeExit (startRead side isOpen) body) s = some (r.restart isOpen) := by
  obtain ⟨t, ht, rfl⟩ := Option.map_eq_some_iff.mp h
  rw [readsAfter, final_onScopeExit, ht]
  exact readsAfter_startRead side isOpen t

theorem readsAfter_readHandler (side : Side) (c : Completion) (s : Session F H) :
    readsAfter (readHandler side c) s = some (s.toReads.handle c) := by
  cases hc : c.error with
  | closed => simp [readsAfter, readHandler, Reads.handle, hc]
  | success =>
    rw [readHandler, if_neg (by simp [hc]), Reads.handle, hc]
    exact readsAfter_onScopeExit side c.isOpen (readsAfter_onReadBody side c.throws _)
  | other errorCode =>
    rw [readHandler, if_neg (by simp [hc]), Reads.handle, hc]
    exact readsAfter_onScopeExit side c.isOpen (readsAfter_onReadBody_error side c.throws _ _)

/-- Both classes read as `Reads` does. -/
theorem step_toReads (side : Side) (s : Session F H) (a : Action H) :
    (step side s a).map Session.toReads = s.toReads.step a := by
  cases a with
  | changeHandles m_handles => rfl
  | completion c =>
    rw [step, Reads.step]
    split_ifs with hout
    · rfl
    · exact readsAfter_readHandler side c _

theorem readsAfter_opening (side : Side) (isOpen : Bool) (s : Session F H) :
    readsAfter (opening side isOpen) s = some (s.toReads.restart isOpen) := by
  cases side with
  | client => exact readsAfter_startRead _ isOpen s
  | server => exact readsAfter_startRead _ isOpen _

/-! ## Runs -/

namespace Reads

/-- Every read was started alone and with an empty buffer. -/
def Orderly (r : Reads F H) : Prop := r.outstanding ≤ 1 ∧ ∀ start ∈ r.starts, start = (0, [])

theorem orderly_restart (hF : F.Documented) {r : Reads F H} (hout : r.outstanding = 0)
    (hstarts : ∀ start ∈ r.starts, start = (0, [])) (isOpen : Bool) :
    (r.restart isOpen).Orderly := by
  cases isOpen with
  | false => exact ⟨by simp [restart, hout], hstarts⟩
  | true =>
    refine ⟨by simp [restart, hout], fun start hmem => ?_⟩
    rcases List.mem_append.mp hmem with hmem | hmem
    · exact hstarts start hmem
    · rw [List.mem_singleton.mp hmem, hout, hF.data_clear]

theorem orderly_step (hF : F.Documented) (r : Reads F H) (a : Action H) (r' : Reads F H)
    (hr : r.Orderly) (h : r.step a = some r') : r'.Orderly := by
  obtain ⟨hle, hstarts⟩ := hr
  cases a with
  | changeHandles m_handles =>
    cases h
    exact ⟨hle, hstarts⟩
  | completion c =>
    rw [step] at h
    split_ifs at h with hout
    cases h
    have hdone : (r.complete c.bytes).outstanding = 0 := by
      simp only [complete]
      omega
    unfold handle
    split
    · exact ⟨by omega, hstarts⟩
    · exact orderly_restart (r := (r.complete c.bytes).dispatch c.throws) hF hdone hstarts c.isOpen
    · exact orderly_restart hF hdone hstarts c.isOpen

theorem outstanding_restart (r : Reads F H) (isOpen : Bool) :
    (r.restart isOpen).outstanding = r.outstanding + if isOpen then 1 else 0 := by
  cases isOpen <;> rfl

theorem outstanding_handle {c : Completion} (hc : c.error ≠ .closed) (r : Reads F H) :
    (r.handle c).outstanding = r.outstanding + if c.isOpen then 1 else 0 := by
  unfold handle
  split
  next herror => exact absurd herror hc
  · exact outstanding_restart _ c.isOpen
  · exact outstanding_restart _ c.isOpen

/-- Without a read there is nothing that could complete. -/
theorem stopped_step (starts : List (Nat × Text)) (r : Reads F H) (a : Action H) (r' : Reads F H)
    (hr : r.outstanding = 0 ∧ r.starts = starts) (h : r.step a = some r') :
    r'.outstanding = 0 ∧ r'.starts = starts := by
  cases a with
  | completion c => simp [step, hr.1] at h
  | changeHandles m_handles =>
    cases h
    exact hr

end Reads

theorem exec_toReads (side : Side) {s t : Session F H} {actions : List (Action H)}
    (h : exec (step side) s actions = some t) :
    exec Reads.step s.toReads actions = some t.toReads := by
  rw [← exec_view (step_toReads side), h]
  rfl

theorem completion_toReads {side : Side} {s t : Session F H} {c : Completion}
    (h : step side s (.completion c) = some t) :
    s.outstanding ≠ 0 ∧ t.toReads = (s.toReads.complete c.bytes).handle c := by
  have hreads := step_toReads side s (.completion c)
  rw [h, Option.map_some, Reads.step] at hreads
  split_ifs at hreads with hout
  exact ⟨hout, Option.some.inj hreads⟩

/-- The loop of a session that was opened once. At any time at most one read is outstanding, and
each started with an empty buffer and with no other outstanding; a completion other than `closed`
leaves one read outstanding exactly if the stream was open when `startRead` asked, also if `onRead`
threw; after `closed` none is started any more; and the other class of sessions does the same. -/
theorem one_read_at_a_time (hF : F.Documented) {side : Side} {isOpen : Bool} {m_rBuffer : F.Buffer}
    {m_handles : SortedMap Nat H} {opened s : Session F H} {actions : List (Action H)}
    (hopen : (opening side isOpen).final ⟨⟨m_rBuffer, m_handles, 0, [], []⟩, []⟩ = some opened)
    (hrun : exec (step side) opened actions = some s) :
    (s.outstanding ≤ 1 ∧ ∀ start ∈ s.starts, start = (0, [])) ∧
    (s.outstanding = 1 → ∀ c, ∃ t, step side s (.completion c) = some t) ∧
    (∀ c t, step side s (.completion c) = some t → c.error ≠ .closed →
      (t.outstanding = 1 ↔ c.isOpen = true)) ∧
    (∀ c t later u, step side s (.completion c) = some t → c.error = .closed →
      exec (step side) t later = some u → u.outstanding = 0 ∧ u.starts = s.starts) ∧
    ∀ side', ∃ opened' s',
      (opening side' isOpen).final ⟨⟨m_rBuffer, m_handles, 0, [], []⟩, []⟩ = some opened' ∧
      exec (step side') opened' actions = some s' ∧ s'.toReads = s.toReads := by
  let start : Session F H := ⟨⟨m_rBuffer, m_handles, 0, [], []⟩, []⟩
  have hopened : opened.toReads = start.toReads.restart isOpen := by
    have hreads := readsAfter_opening side isOpen start
    rw [readsAfter, hopen] at hreads
    exact Option.some.inj hreads
  have hreads := exec_toReads side hrun
  have horderly : s.toReads.Orderly := by
    refine exec_induct (Reads.orderly_step hF) ?_ hreads
    rw [hopened]
    exact Reads.orderly_restart hF rfl (by simp [start]) isOpen
  refine ⟨horderly, fun hout c => ?_, fun c t ht hc => ?_, fun c t later u ht hc hu => ?_,
    fun side' => ?_⟩
  · have hstep := step_toReads side s (.completion c)
    rw [Reads.step, if_neg (by omega)] at hstep
    obtain ⟨t, ht, -⟩ := Option.map_eq_some_iff.mp hstep
    exact ⟨t, ht⟩
  · obtain ⟨hout, hreads⟩ := completion_toReads ht
    have hone := horderly.1
    rw [hreads, Reads.outstanding_handle hc]
    simp only [Reads.complete]
    split_ifs with hopen
    · exact iff_of_true (by omega) hopen
    · exact iff_of_false (by omega) hopen
  · obtain ⟨hout, hreads⟩ := completion_toReads ht
    have hone := horderly.1
    have hstopped : t.outstanding = 0 ∧ t.starts = s.starts := by
      rw [hreads, Reads.handle, hc]
      exact ⟨show s.outstanding - 1 = 0 by omega, rfl⟩
    exact exec_induct (Reads.stopped_step s.starts) hstopped (exec_toReads side hu)
  · obtain ⟨opened', hopen', hsame⟩ :=
      Option.map_eq_some_iff.mp (readsAfter_opening side' isOpen start)
    have hview := exec_view (step_toReads side') opened' actions
    rw [hsame, ← hopened, hreads] at hview
    obtain ⟨s', hs', heq⟩ := Option.map_eq_some_iff.mp hview
    exact ⟨opened', s', hopen', hs', heq⟩

/-- A message for two handlers, where the second `post` throws, then an error, then `closed`. -/
theorem one_read_at_a_time_thrown :
    let message : Completion :=
      ⟨.success, [104, 105], 2, true, fun
        | .post 1 => some "bad_alloc"
        | _ => none⟩
    let reset : Completion := ⟨.other ⟨104, "Connection reset by peer"⟩, [], 0, true, fun _ => none⟩
    let closed : Completion := ⟨.closed, [], 0, false, fun _ => none⟩
    let handlers : SortedMap Nat String := ((SortedMap.empty).insert 0 "a").insert 1 "b"
    ∃ opened s t : Session .reference String,
      (opening (.server localhost) true).final ⟨⟨([], []), handlers, 0, [], []⟩, []⟩ = some opened ∧
      exec (step (.server localhost)) opened [.completion message, .completion reset] = some s ∧
      step (.server localhost) s (.completion closed) = some t ∧
      s.tasks = [⟨0, "a", [104, 105]⟩] ∧ s.outstanding = 1 ∧
      (s.outstanding ≤ 1 ∧ ∀ start ∈ s.starts, start = (0, [])) ∧
      ∀ later u, exec (step (.server localhost)) t later = some u →
        u.outstanding = 0 ∧ u.starts = s.starts := by
  intro message reset closed handlers
  obtain ⟨opened, s, t, hopen, hrun, ht, htasks, hout⟩ :
      ∃ opened s t : Session .reference String,
      (opening (.server localhost) true).final ⟨⟨([], []), handlers, 0, [], []⟩, []⟩ = some opened ∧
      exec (step (.server localhost)) opened [.completion message, .completion reset] = some s ∧
      step (.server localhost) s (.completion closed) = some t ∧
      s.tasks = [⟨0, "a", [104, 105]⟩] ∧ s.outstanding = 1 := ⟨_, _, _, rfl, rfl, rfl, rfl, rfl⟩
  obtain ⟨horderly, -, -, hclosed, -⟩ :=
    one_read_at_a_time FlatBuffer.reference_documented hopen hrun
  exact ⟨opened, s, t, hopen, hrun, ht, htasks, hout, horderly, fun later u =>
    hclosed closed t later u ht rfl⟩

/-! ## The steps of a link -/

/-- The receiving side of a link, as far as reading goes. -/
structure Matches (l : Link F H) (r : Reads F H) : Prop where
  m_rBuffer : r.m_rBuffer = l.m_rBuffer
  m_handles : r.m_handles = l.handles.m_handles
  tasks : r.tasks = l.tasks
  outstanding : r.outstanding = 1 ↔ l.phase = .armed

theorem postedTasks_eq (rawMessage : Text) (n : Nat) (handlers : List (Nat × H)) :
    postedTasks (fun _ => none) rawMessage n handlers = tasksFor rawMessage handlers := by
  induction handlers generalizing n with
  | nil => rfl
  | cons e handlers ih => simp [postedTasks, tasksFor, ih]

/-- The steps of the link that post the tasks. -/
theorem exec_post {l : Link F H} {rawMessage : Text} {handlers : List (Nat × H)}
    (hp : l.phase = .posting rawMessage handlers) :
    exec Link.step l (List.replicate handlers.length .post) = some { l with
      phase := .posting rawMessage []
      tasks := l.tasks ++ tasksFor rawMessage handlers
      posted := l.posted ++ tasksFor rawMessage handlers } := by
  induction handlers generalizing l with
  | nil => simp [tasksFor, ← hp]
  | cons e handlers ih =>
    simp only [List.length_cons, List.replicate_succ, exec, Link.step, hp, Option.bind_some]
    rw [ih rfl]
    simp [tasksFor]

/-- A message that nothing throws on: the handler does at once what the steps of the link do. -/
theorem link_completion {l : Link F H} {m : Text} {inbox : List Text} (hp : l.phase = .armed)
    (hi : l.inbox = m :: inbox) {r : Reads F H} (hr : Matches l r) (hone : r.outstanding = 1)
    (nReadBytes : Nat) :
    ∃ l' r', exec Link.step l
        (.readDone :: .onRead ::
          List.replicate r.m_handles.entries.length .post ++ [.leaveOnRead]) =
          some l' ∧
      r.step (.completion ⟨.success, m, nReadBytes, l.isOpen, fun _ => none⟩) = some r' ∧
      Matches l' r' := by
  let read : Link F H := { l with
    inbox := inbox
    m_rBuffer := F.append l.m_rBuffer m
    phase := .posting (F.data (F.append l.m_rBuffer m)) l.handles.m_handles.entries
    fanouts := l.fanouts ++ [⟨F.data (F.append l.m_rBuffer m), l.handles.m_handles⟩] }
  let posted : Link F H := { read with
    phase := .posting (F.data (F.append l.m_rBuffer m)) []
    tasks := l.tasks ++ tasksFor (F.data (F.append l.m_rBuffer m)) r.m_handles.entries
    posted := l.posted ++ tasksFor (F.data (F.append l.m_rBuffer m)) r.m_handles.entries }
  have hposts : exec Link.step read (List.replicate r.m_handles.entries.length .post) =
      some posted := by
    have hexec := exec_post (l := read) rfl
    rwa [← hr.m_handles] at hexec
  have hrun : exec Link.step l
      (.readDone :: .onRead :: List.replicate r.m_handles.entries.length .post ++ [.leaveOnRead]) =
        some posted.startRead := by
    have hread : exec Link.step l [.readDone, .onRead] = some read := by
      simp [exec, Link.step, hp, hi, read]
    have hposted := exec_append.mpr ⟨read, hread, hposts⟩
    exact exec_append.mpr ⟨posted, hposted, rfl⟩
  refine ⟨posted.startRead, _, hrun, if_neg (by omega), ?_⟩
  have hdispatched : (r.complete m).dispatched (fun _ => none) =
      tasksFor (F.data (F.append l.m_rBuffer m)) r.m_handles.entries := by
    simp [Reads.dispatched, Reads.complete, postedTasks_eq, hr.m_rBuffer]
  have htasks : ((r.complete m).dispatch fun _ => none).tasks = posted.tasks := by
    rw [Reads.dispatch, hdispatched, Reads.complete, hr.tasks]
  have hbuffer : (r.complete m).m_rBuffer = posted.m_rBuffer := by
    simp only [Reads.complete, hr.m_rBuffer, posted, read]
  simp only [Reads.handle, Reads.restart, Link.startRead]
  rw [show posted.isOpen = l.isOpen from rfl]
  split_ifs with hopen
  · exact ⟨congrArg F.clear hbuffer, hr.m_handles, htasks,
      by simp [Reads.dispatch, Reads.complete, hone]⟩
  · exact ⟨hbuffer, hr.m_handles, htasks, by simp [Reads.dispatch, Reads.complete, hone]⟩

end Zatestil.Websocket.ReadLoop
