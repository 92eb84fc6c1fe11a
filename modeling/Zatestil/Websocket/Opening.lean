import Zatestil.Websocket.ReadLoop

/-!
# Opening a session

`open` of the server's session starts a chain: `onOpen` is dispatched to the executor of the
stream, the completion of the TLS handshake calls `onHandshake`, that of the websocket handshake
`onAccept`, and that starts the read loop. These handlers and the tasks that `onRead` posts hold
the session, and `Server::onAccept` does until it returns. So a session with nothing outstanding
is destroyed some time after its tasks, and `~Session` closes the stream.

A completion says what went wrong in it. `dispatch` may call `onOpen` before it returns, and then
an exception meets `open`, which is `noexcept`.
-/
namespace Zatestil.Websocket.Opening
open Library Library.Call ReadLoop

inductive Stage where
  | dispatch
  | handshake
  | accept
  deriving DecidableEq

/-- The calls of the chain that can throw. -/
inductive Site where
  | expiresAfter
  | asyncHandshake
  | format
  | setOption
  | asyncAccept

/-- How a step of the chain comes about; `isOpen` is what `startRead` finds. -/
structure Completion where
  stage : Stage
  error : Option ErrorCode
  isInline : Bool
  isOpen : Bool
  throws : Site → Option String

/-- How `close` goes: what `is_open` answers, and the error of `m_stream.close`. -/
structure Closing where
  isOpen : Bool
  error : Option ErrorCode

/-- A session, what is outstanding of its chain, and whether the lowest layer of the stream has a
time limit. The websocket layer has the limits of `timeout::suggested` for itself. -/
structure Connection (F : FlatBuffer) (H : Type) where
  session : Session F H
  pending : Option Stage
  expires : Bool
  /-- The posted tasks that have run. -/
  finished : Nat
  /-- What `~Session` has met. -/
  destroyed : Option Closing

variable {F : FlatBuffer} {H : Type}

/-- A call on the session. -/
def onSession {α : Type} (x : Call String (Session F H) α) : Call String (Connection F H) α :=
  fun s =>
    match x s.session with
    | .ok a t => .ok a { s with session := t }
    | .error e t => .error e { s with session := t }

def log (text : String) : Call String (Connection F H) Unit := onSession (ReadLoop.log text)

section
variable (endpoint : Endpoint) (c : Completion)

/-- `open`, up to the dispatch. -/
def openSession (session : Session F H) : Connection F H where
  session := { session with
    log := session.log ++ ["[websocket] open session session from " ++ endpoint.toString] }
  pending := some .dispatch
  expires := false
  finished := 0
  destroyed := none

def onOpen : Call String (Connection F H) Unit := do
  mayThrow (c.throws .expiresAfter)
  modify fun s => { s with expires := true }
  mayThrow (c.throws .asyncHandshake)
  modify fun s => { s with pending := some .handshake }

/-- The text of an error. -/
def errorText (errorCode : ErrorCode) : String :=
  errorCode.value.repr ++ " - " ++ errorCode.what ++ " on endpoint " ++ endpoint.toString

def chainResult : Call String (Connection F H) Util.Result :=
  match c.error with
  | none => pure ⟨.success, ""⟩
  | some errorCode => do
    mayThrow (c.throws .format)
    pure ⟨.error, errorText endpoint errorCode⟩

def onHandshake (result : Util.Result) : Call String (Connection F H) Unit := do
  if !result.isOk then
    log ("handshake error " ++ result.message)
  else
    log ("handshaking with " ++ endpoint.toString ++ " is succeed")
    -- `expires_never` and `read_message_max`
    modify fun s => { s with expires := false }
    mayThrow (c.throws .setOption)
    log ("accepting from " ++ endpoint.toString)
    mayThrow (c.throws .asyncAccept)
    modify fun s => { s with pending := some .accept }

def handshakeHandler : Call String (Connection F H) Unit := do
  log ("handshaking with " ++ endpoint.toString)
  let result ← chainResult endpoint c
  onHandshake endpoint c result

def acceptHandler : Call String (Connection F H) Unit := do
  let result ← chainResult endpoint c
  onSession (onAccept (.server endpoint) c.isOpen result)

def handler : Call String (Connection F H) Unit :=
  match c.stage with
  | .dispatch => if c.isInline then noThrow (onOpen c) else onOpen c
  | .handshake => handshakeHandler endpoint c
  | .accept => acceptHandler endpoint c

/-- `Session::close`, which the destructor calls. -/
def close (closing : Closing) : Call String (Connection F H) Unit := noThrow do
  log ("close session from " ++ endpoint.toString)
  if !closing.isOpen then
    pure ()
  else
    match closing.error with
    | none => pure ()
    | some errorCode =>
      log ("session close error " ++ errorCode.what ++ " from " ++ endpoint.toString)

end

/-- What is outstanding. -/
def Connection.load (s : Connection F H) : Nat :=
  s.session.outstanding + if s.pending.isSome then 1 else 0

/-- A completion of the chain, a step of the read loop, the end of a posted task, or `~Session`. -/
inductive Action (H : Type) where
  | chain (c : Completion)
  | loop (a : ReadLoop.Action H)
  | task
  | destroy (closing : Closing)

def step (endpoint : Endpoint) (s : Connection F H) (a : Action H) : Option (Connection F H) :=
  if s.destroyed.isSome then none
  else match a with
    | .chain c =>
      if s.pending = some c.stage then (handler endpoint c).final { s with pending := none }
      else none
    | .loop a =>
      (ReadLoop.step (.server endpoint) s.session a).map fun t => { s with session := t }
    | .task =>
      if s.finished < s.session.tasks.length then some { s with finished := s.finished + 1 }
      else none
    | .destroy closing =>
      if s.load = 0 ∧ s.finished = s.session.tasks.length then
        (close endpoint closing).final { s with destroyed := some closing }
      else none

/-- A step finds the session there. -/
theorem step_alive {endpoint : Endpoint} {s t : Connection F H} {a : Action H}
    (h : step endpoint s a = some t) : s.destroyed = none := by
  by_contra hdestroyed
  unfold step at h
  rw [if_pos (Option.isSome_iff_ne_none.mpr hdestroyed)] at h
  cases h

/-! ## What the handlers do -/

/-- The step leads to the next one. -/
def Completion.Succeeds (c : Completion) : Prop :=
  match c.stage with
  | .dispatch => c.throws .expiresAfter = none ∧ c.throws .asyncHandshake = none
  | .handshake => c.error = none ∧ c.throws .setOption = none ∧ c.throws .asyncAccept = none
  | .accept => c.error = none ∧ c.isOpen = true

instance (c : Completion) : Decidable c.Succeeds := by
  unfold Completion.Succeeds
  cases c.stage <;> infer_instance

/-- What is outstanding after a step that succeeds. -/
def Stage.next : Stage → Option Stage
  | .dispatch => some .handshake
  | .handshake => some .accept
  | .accept => none

/-- The stages that come before. -/
def Stage.before : Stage → List Stage
  | .dispatch => []
  | .handshake => [.dispatch]
  | .accept => [.dispatch, .handshake]

/-- What is logged of an error; nothing of the dispatch has an error code. -/
def Stage.failure : Stage → Option String
  | .dispatch => none
  | .handshake => some "handshake error "
  | .accept => some "accept error "

/-- The last line of the log tells with which error code the step has failed, if the text of the
error could be formatted. Nothing is logged of an exception. -/
def Completion.Told (endpoint : Endpoint) (c : Completion) (log : List String) : Prop :=
  ∀ failure errorCode, c.stage.failure = some failure → c.error = some errorCode →
    c.throws .format = none →
    log.getLast? = some ("[websocket] " ++ (failure ++ errorText endpoint errorCode))

/-- What a step of the chain does to a connection of which nothing else is outstanding. -/
structure Handled (endpoint : Endpoint) (c : Completion) (s t : Connection F H) : Prop where
  pending : t.pending = if c.Succeeds then c.stage.next else none
  expires : c.Succeeds → t.expires = (c.stage == .dispatch || c.stage == .accept && s.expires)
  reads : t.session.toReads =
    if c.Succeeds ∧ c.stage = .accept then s.session.toReads.restart true else s.session.toReads
  told : c.Told endpoint t.session.log
  destroyed : t.destroyed = s.destroyed

theorem told_of_success {endpoint : Endpoint} {c : Completion} (herror : c.error = none)
    (log : List String) : c.Told endpoint log := by
  intro failure errorCode _ hsome
  rw [herror] at hsome
  cases hsome

/-- A step with an error code leads nowhere. -/
theorem handled_of_error {endpoint : Endpoint} {c : Completion} {errorCode : ErrorCode}
    (herror : c.error = some errorCode) (hstage : c.stage ≠ .dispatch) {s t : Connection F H}
    (hpending : t.pending = none) (hreads : t.session.toReads = s.session.toReads)
    (hdestroyed : t.destroyed = s.destroyed)
    (htold : c.throws .format = none → ∀ failure, c.stage.failure = some failure →
      t.session.log.getLast? =
        some ("[websocket] " ++ (failure ++ errorText endpoint errorCode))) :
    Handled endpoint c s t := by
  have hnot : ¬c.Succeeds := by
    unfold Completion.Succeeds
    cases h : c.stage with
    | dispatch => exact absurd h hstage
    | handshake | accept => simp [herror]
  refine ⟨by rw [if_neg hnot, hpending], fun hyes => absurd hyes hnot,
    by rw [if_neg fun hand => hnot hand.1, hreads], ?_, hdestroyed⟩
  intro failure errorCode' hfailure hsome hformat
  rw [herror] at hsome
  cases hsome
  exact htold hformat failure hfailure

theorem onOpen_handled {endpoint : Endpoint} {c : Completion} (hstage : c.stage = .dispatch)
    {s t : Connection F H} (hs : s.pending = none) (h : (onOpen c).final s = some t) :
    Handled endpoint c s t := by
  have htold : c.Told endpoint t.session.log := by
    intro failure errorCode hfailure
    rw [hstage] at hfailure
    cases hfailure
  cases hexpires : c.throws .expiresAfter <;> cases hasync : c.throws .asyncHandshake <;>
    simp only [onOpen, hexpires, hasync] at h <;> cases h <;>
    exact ⟨by simp [Completion.Succeeds, hstage, hexpires, hasync, Stage.next, hs],
      by simp [Completion.Succeeds, hstage, hexpires, hasync],
      by simp [hstage], htold, rfl⟩

theorem handshake_handled {endpoint : Endpoint} {c : Completion} (hstage : c.stage = .handshake)
    {s t : Connection F H} (hs : s.pending = none)
    (h : (handshakeHandler endpoint c).final s = some t) : Handled endpoint c s t := by
  cases herror : c.error with
  | some errorCode =>
    cases hformat : c.throws .format with
    | some what =>
      simp only [handshakeHandler, chainResult, herror, hformat] at h
      cases h
      refine handled_of_error herror (by simp [hstage]) hs rfl rfl fun hnone => ?_
      simp [hformat] at hnone
    | none =>
      simp only [handshakeHandler, chainResult, herror, hformat] at h
      cases h
      refine handled_of_error herror (by simp [hstage]) hs rfl rfl fun _ failure hfailure => ?_
      rw [hstage] at hfailure
      cases hfailure
      exact List.getLast?_concat ..
  | none =>
    have htold : c.Told endpoint t.session.log := told_of_success herror t.session.log
    cases hset : c.throws .setOption <;> cases hasync : c.throws .asyncAccept <;>
      simp only [handshakeHandler, chainResult, herror, onHandshake, hset, hasync] at h <;>
      cases h <;>
      exact ⟨by simp [Completion.Succeeds, hstage, herror, hset, hasync, Stage.next, hs],
        by simp [Completion.Succeeds, hstage, herror, hset, hasync], by simp [hstage], htold, rfl⟩

theorem accept_handled {endpoint : Endpoint} {c : Completion} (hstage : c.stage = .accept)
    {s t : Connection F H} (hs : s.pending = none)
    (h : (acceptHandler endpoint c).final s = some t) : Handled endpoint c s t := by
  cases herror : c.error with
  | some errorCode =>
    cases hformat : c.throws .format with
    | some what =>
      simp only [acceptHandler, chainResult, herror, hformat] at h
      cases h
      refine handled_of_error herror (by simp [hstage]) hs rfl rfl fun hnone => ?_
      simp [hformat] at hnone
    | none =>
      simp only [acceptHandler, chainResult, herror, hformat] at h
      cases h
      refine handled_of_error herror (by simp [hstage]) hs rfl rfl fun _ failure hfailure => ?_
      rw [hstage] at hfailure
      cases hfailure
      exact List.getLast?_concat ..
  | none =>
    have htold : c.Told endpoint t.session.log := told_of_success herror t.session.log
    cases hopen : c.isOpen with
    | true =>
      simp only [acceptHandler, chainResult, herror, hopen] at h
      cases h
      refine ⟨by simpa [Completion.Succeeds, hstage, herror, hopen, Stage.next] using hs,
        by simp [hstage], ?_, htold, rfl⟩
      rw [if_pos ⟨by simp [Completion.Succeeds, hstage, herror, hopen], hstage⟩]
      rfl
    | false =>
      simp only [acceptHandler, chainResult, herror, hopen] at h
      cases h
      exact ⟨by simpa [Completion.Succeeds, hstage, herror, hopen, Stage.next] using hs,
        by simp [hstage], by simp [Completion.Succeeds, hstage, herror, hopen], htold, rfl⟩

/-- An exception of `onOpen` ends the program or leaves nothing outstanding. -/
theorem final_noThrow {ε σ α : Type} {x : Call ε σ α} {s t : σ}
    (h : (noThrow x).final s = some t) : x.final s = some t := by
  rcases hx : x s with ⟨a, u⟩ | ⟨_ | _, u⟩ <;> simp only [final, noThrow, hx] at h ⊢
  · exact h
  · cases h
  · cases h

theorem handler_handled {endpoint : Endpoint} {c : Completion} {s t : Connection F H}
    (hs : s.pending = none) (h : (handler endpoint c).final s = some t) :
    Handled endpoint c s t := by
  unfold handler at h
  cases hstage : c.stage with
  | dispatch =>
    rw [hstage] at h
    simp only at h
    split_ifs at h
    · exact onOpen_handled hstage hs (final_noThrow h)
    · exact onOpen_handled hstage hs h
  | handshake =>
    rw [hstage] at h
    exact handshake_handled hstage hs h
  | accept =>
    rw [hstage] at h
    exact accept_handled hstage hs h

/-! ## Runs -/

/-- The chain, without what the read loop does. -/
def completions (actions : List (Action H)) : List Completion :=
  actions.filterMap fun
    | .chain c => some c
    | .loop _ | .task | .destroy _ => none

/-- The chain went on up to this stage. -/
def Reached (stage : Stage) (cs : List Completion) : Prop :=
  cs.map Completion.stage = stage.before ∧ ∀ c ∈ cs, c.Succeeds

/-- What `~Session` logs. -/
def Closing.lines (endpoint : Endpoint) (closing : Closing) : List String :=
  ("[websocket] " ++ ("close session from " ++ endpoint.toString)) ::
    match closing.isOpen, closing.error with
    | true, some errorCode =>
      ["[websocket] " ++
        ("session close error " ++ errorCode.what ++ " from " ++ endpoint.toString)]
    | _, _ => []

/-- The lines of the destructor, if it has run. -/
def Connection.farewell (endpoint : Endpoint) (s : Connection F H) : List String :=
  s.destroyed.elim [] (Closing.lines endpoint)

theorem close_final (endpoint : Endpoint) (closing : Closing) (s : Connection F H) :
    (close endpoint closing).final s =
      some { s with session := { s.session with
        log := s.session.log ++ closing.lines endpoint } } := by
  obtain ⟨isOpen, error⟩ := closing
  cases isOpen with
  | false => cases error <;> rfl
  | true =>
    cases error with
    | none => rfl
    | some errorCode =>
      have hlog := List.append_assoc s.session.log
        ["[websocket] " ++ ("close session from " ++ endpoint.toString)]
        ["[websocket] " ++ ("session close error " ++ errorCode.what ++ " from " ++
          endpoint.toString)]
      exact congrArg (fun log => some { s with session := { s.session with log := log } }) hlog

/-- Where the chain stands after these completions. -/
inductive Progress (endpoint : Endpoint) (cs : List Completion) (s : Connection F H) : Prop
  | waiting {stage : Stage} (hpending : s.pending = some stage) (hreached : Reached stage cs)
    (hexpires : s.expires = (stage == .handshake)) (hstarts : s.session.starts = [])
    (hout : s.session.outstanding = 0)
  | opened (hpending : s.pending = none)
    (hstages : cs.map Completion.stage = [.dispatch, .handshake, .accept])
    (hall : ∀ c ∈ cs, c.Succeeds) (hexpires : s.expires = false) (hstarts : s.session.starts ≠ [])
    (horderly : s.session.toReads.Orderly)
  | failed {front : List Completion} {c : Completion} (hpending : s.pending = none)
    (hcs : cs = front ++ [c]) (hreached : Reached c.stage front) (hfails : ¬c.Succeeds)
    (hstarts : s.session.starts = []) (hout : s.session.outstanding = 0) {lines : List String}
    (hlog : s.session.log = lines ++ s.farewell endpoint) (htold : c.Told endpoint lines)

theorem progress_open (endpoint : Endpoint) (m_rBuffer : F.Buffer) (m_handles : SortedMap Nat H) :
    Progress endpoint [] (openSession endpoint ⟨⟨m_rBuffer, m_handles, 0, [], []⟩, []⟩) :=
  .waiting rfl ⟨rfl, by simp⟩ rfl rfl rfl

/-- A step of the chain. -/
theorem progress_chain (hF : F.Documented) {endpoint : Endpoint} {cs : List Completion}
    {s t : Connection F H} {c : Completion} (hs : Progress endpoint cs s)
    (h : step endpoint s (.chain c) = some t) : Progress endpoint (cs ++ [c]) t := by
  have halive := step_alive h
  simp only [step] at h
  split_ifs at h with hdestroyed hpending
  have hc := handler_handled rfl h
  cases hs with
  | opened hnone | failed hnone =>
    rw [hnone] at hpending
    cases hpending
  | @waiting stage hstage hreached hexpires hstarts hout =>
    obtain rfl : stage = c.stage := Option.some.inj (hstage.symm.trans hpending)
    by_cases hyes : c.Succeeds
    · have hall : ∀ c' ∈ cs ++ [c], c'.Succeeds := by
        intro c' hmem
        rcases List.mem_append.mp hmem with hmem | hmem
        · exact hreached.2 c' hmem
        · rwa [List.mem_singleton.mp hmem]
      have hnext := hc.pending
      have hlimit := hc.expires hyes
      have hreads := hc.reads
      rw [if_pos hyes] at hnext
      cases hcs : c.stage with
      | dispatch | handshake =>
        have hbefore : (cs ++ [c]).map Completion.stage = c.stage.before ++ [c.stage] := by
          rw [List.map_append, hreached.1]
          rfl
        rw [hcs] at hnext hlimit hbefore
        rw [if_neg (by simp [hcs])] at hreads
        refine .waiting hnext ⟨hbefore, hall⟩ hlimit ?_ ?_
        · exact (congrArg Reads.starts hreads).trans hstarts
        · exact (congrArg Reads.outstanding hreads).trans hout
      | accept =>
        have hbefore : (cs ++ [c]).map Completion.stage = c.stage.before ++ [c.stage] := by
          rw [List.map_append, hreached.1]
          rfl
        rw [hcs] at hnext hlimit hbefore hexpires
        rw [if_pos ⟨hyes, hcs⟩] at hreads
        refine .opened hnext hbefore hall (hlimit.trans hexpires) ?_ ?_
        · rw [show t.session.starts = _ from congrArg Reads.starts hreads]
          simp [Reads.restart]
        · rw [hreads]
          exact Reads.orderly_restart hF hout (by simp [hstarts]) true
    · have hnext := hc.pending
      have hreads := hc.reads
      rw [if_neg hyes] at hnext
      rw [if_neg fun hand => hyes hand.1] at hreads
      have hfarewell : t.farewell endpoint = [] := by
        rw [Connection.farewell, hc.destroyed.trans halive]
        rfl
      exact .failed hnext rfl hreached hyes ((congrArg Reads.starts hreads).trans hstarts)
        ((congrArg Reads.outstanding hreads).trans hout) (by rw [hfarewell, List.append_nil])
        hc.told

/-- Reading is not forgotten. -/
theorem starts_ne_nil {r r' : Reads F H} {a : ReadLoop.Action H} (hr : r.starts ≠ [])
    (h : r.step a = some r') : r'.starts ≠ [] := by
  cases a with
  | changeHandles m_handles =>
    cases h
    exact hr
  | completion c =>
    simp only [Reads.step] at h
    split_ifs at h
    cases h
    cases herror : c.error <;> cases hopen : c.isOpen <;>
      simp [Reads.handle, Reads.restart, Reads.dispatch, Reads.complete, herror, hopen, hr]

/-- A step of the read loop, which does nothing before there is a read. -/
theorem progress_loop (hF : F.Documented) {endpoint : Endpoint} {cs : List Completion}
    {s t : Connection F H} {a : ReadLoop.Action H} (hs : Progress endpoint cs s)
    (h : step endpoint s (.loop a) = some t) : Progress endpoint cs t := by
  have halive := step_alive h
  unfold step at h
  rw [if_neg (by simp [halive])] at h
  obtain ⟨session, hsession, rfl⟩ := Option.map_eq_some_iff.mp h
  have hreads : s.session.toReads.step a = some session.toReads := by
    rw [← step_toReads, hsession]
    rfl
  have hquiet : s.session.outstanding = 0 → session.starts = s.session.starts ∧
      session.outstanding = 0 ∧ session.log = s.session.log := by
    intro hout
    cases a with
    | changeHandles m_handles =>
      cases hsession
      exact ⟨rfl, hout, rfl⟩
    | completion c => simp [ReadLoop.step, hout] at hsession
  cases hs with
  | waiting hpending hreached hexpires hstarts hout =>
    obtain ⟨hsame, hnone, -⟩ := hquiet hout
    exact .waiting hpending hreached hexpires (hsame.trans hstarts) hnone
  | opened hpending hstages hall hexpires hstarts horderly =>
    exact .opened hpending hstages hall hexpires (starts_ne_nil hstarts hreads)
      (Reads.orderly_step hF _ a _ horderly hreads)
  | failed hpending hcs hreached hfails hstarts hout hlog htold =>
    obtain ⟨hsame, hnone, hlines⟩ := hquiet hout
    exact .failed hpending hcs hreached hfails (hsame.trans hstarts) hnone
      (hlines.trans hlog) htold

/-- A task says nothing about the chain. -/
theorem progress_task {endpoint : Endpoint} {cs : List Completion} {s t : Connection F H}
    (hs : Progress endpoint cs s) (h : step endpoint s .task = some t) :
    Progress endpoint cs t := by
  simp only [step] at h
  split_ifs at h
  cases h
  cases hs with
  | waiting hpending hreached hexpires hstarts hout =>
    exact .waiting hpending hreached hexpires hstarts hout
  | opened hpending hstages hall hexpires hstarts horderly =>
    exact .opened hpending hstages hall hexpires hstarts horderly
  | failed hpending hcs hreached hfails hstarts hout hlog htold =>
    exact .failed hpending hcs hreached hfails hstarts hout hlog htold

/-- `~Session` adds its lines to the log. -/
theorem progress_destroy {endpoint : Endpoint} {cs : List Completion} {s t : Connection F H}
    {closing : Closing} (hs : Progress endpoint cs s)
    (h : step endpoint s (.destroy closing) = some t) : Progress endpoint cs t := by
  have halive := step_alive h
  simp only [step, close_final] at h
  split_ifs at h with hdestroyed hidle
  cases h
  cases hs with
  | waiting hpending => simp [Connection.load, hpending] at hidle
  | opened hpending hstages hall hexpires hstarts horderly =>
    exact .opened hpending hstages hall hexpires hstarts horderly
  | failed hpending hcs hreached hfails hstarts hout hlog htold =>
    refine .failed hpending hcs hreached hfails hstarts hout ?_ htold
    rw [Connection.farewell, halive, Option.elim_none, List.append_nil] at hlog
    exact congrArg (· ++ closing.lines endpoint) hlog

theorem progress_exec (hF : F.Documented) {endpoint : Endpoint} {m_rBuffer : F.Buffer}
    {m_handles : SortedMap Nat H} {actions : List (Action H)} {s : Connection F H}
    (hrun : exec (step endpoint)
      (openSession endpoint ⟨⟨m_rBuffer, m_handles, 0, [], []⟩, []⟩) actions = some s) :
    Progress endpoint (completions actions) s := by
  induction actions using List.reverseRecOn generalizing s with
  | nil =>
    cases hrun
    exact progress_open endpoint m_rBuffer m_handles
  | append_singleton actions a ih =>
    obtain ⟨u, hu, hua⟩ := exec_append.mp hrun
    obtain ⟨v, hv, hvs⟩ := exec_cons.mp hua
    cases hvs
    have hprogress := ih hu
    cases a with
    | chain c =>
      rw [show completions (actions ++ [.chain c]) = completions actions ++ [c] by
        simp [completions]]
      exact progress_chain hF hprogress hv
    | loop a =>
      rw [show completions (actions ++ [.loop a]) = completions actions by simp [completions]]
      exact progress_loop hF hprogress hv
    | task =>
      rw [show completions (actions ++ [.task]) = completions actions by simp [completions]]
      exact progress_task hprogress hv
    | destroy closing =>
      rw [show completions (actions ++ [.destroy closing]) = completions actions by
        simp [completions]]
      exact progress_destroy hprogress hv

/-- With nothing outstanding, nothing comes back. -/
theorem load_step {endpoint : Endpoint} (s : Connection F H) (a : Action H) (t : Connection F H)
    (hs : s.load = 0) (h : step endpoint s a = some t) : t.load = 0 := by
  have hout : s.session.outstanding = 0 := Nat.eq_zero_of_add_eq_zero_right hs
  have hpending : s.pending = none := by
    by_contra hsome
    obtain ⟨stage, hstage⟩ := Option.ne_none_iff_exists'.mp hsome
    simp [Connection.load, hstage] at hs
  have halive := step_alive h
  simp only [step, halive, Option.isSome_none, Bool.false_eq_true, if_false] at h
  cases a with
  | chain c => simp [hpending] at h
  | loop a =>
    obtain ⟨session, hsession, rfl⟩ := Option.map_eq_some_iff.mp h
    cases a with
    | changeHandles m_handles =>
      cases hsession
      exact hs
    | completion c => simp [ReadLoop.step, hout] at hsession
  | task =>
    simp only at h
    split_ifs at h
    cases h
    exact hs
  | destroy closing =>
    simp only [close_final] at h
    split_ifs at h
    cases h
    exact hs

namespace Progress

variable {endpoint : Endpoint} {cs : List Completion} {s : Connection F H}

theorem stages (hs : Progress endpoint cs s) :
    cs.map Completion.stage <+: [.dispatch, .handshake, .accept] := by
  have hbefore : ∀ stage : Stage, stage.before ++ [stage] <+: [.dispatch, .handshake, .accept] := by
    intro stage
    cases stage <;> decide
  cases hs with
  | @waiting stage _ hreached =>
    rw [hreached.1]
    exact (List.prefix_append _ _).trans (hbefore stage)
  | opened _ hstages =>
    rw [hstages]
  | @failed front c _ hcs hreached =>
    rw [hcs, List.map_append, hreached.1]
    exact hbefore c.stage

theorem starts_iff (hs : Progress endpoint cs s) :
    s.session.starts ≠ [] ↔
      cs.map Completion.stage = [.dispatch, .handshake, .accept] ∧ ∀ c ∈ cs, c.Succeeds := by
  cases hs with
  | @waiting stage _ hreached _ hstarts =>
    refine iff_of_false (fun hne => hne hstarts) fun hand => ?_
    rw [hreached.1] at hand
    cases stage <;> simp [Stage.before] at hand
  | opened _ hstages hall _ hstarts => exact iff_of_true hstarts ⟨hstages, hall⟩
  | failed _ hcs _ hfails hstarts =>
    refine iff_of_false (fun hne => hne hstarts) fun hand => hfails (hand.2 _ ?_)
    rw [hcs]
    exact List.mem_append_right _ (List.mem_singleton_self _)

theorem load_le_one (hs : Progress endpoint cs s) : s.load ≤ 1 := by
  cases hs with
  | waiting hpending _ _ _ hout => simp [Connection.load, hpending, hout]
  | opened hpending _ _ _ _ horderly => simpa [Connection.load, hpending] using horderly.1
  | failed hpending _ _ _ _ hout => simp [Connection.load, hpending, hout]

/-- There is a time limit for the first handshake and not later. -/
theorem limit (hs : Progress endpoint cs s) :
    (s.pending = some .handshake → s.expires = true) ∧
    (s.pending = some .accept ∨ s.session.outstanding ≠ 0 → s.expires = false) := by
  cases hs with
  | waiting hpending _ hexpires _ hout =>
    rw [hpending, hexpires, hout]
    refine ⟨fun h => ?_, fun h => ?_⟩
    · cases h
      rfl
    · rcases h with h | h
      · cases h
        rfl
      · exact absurd rfl h
  | opened hpending _ _ hexpires =>
    rw [hpending, hexpires]
    exact ⟨by simp, fun _ => rfl⟩
  | failed hpending _ _ _ _ hout =>
    rw [hpending, hout]
    exact ⟨by simp, by simp⟩

end Progress

/-- In every run after `open`, the steps of the chain come in their order, each at most once, and
never two of them or of the reads are outstanding. The session reads exactly if all three steps
have succeeded. The lowest layer of the stream has its time limit while the TLS handshake is
outstanding, and none while the session accepts or reads. When a step fails, nothing is
outstanding any more, and the log ends with the error code of that step, if it has one, and with
what the destructor logs, if it has run. What has nothing outstanding stays so. -/
theorem session_opens (hF : F.Documented) {endpoint : Endpoint} {m_rBuffer : F.Buffer}
    {m_handles : SortedMap Nat H} {actions : List (Action H)} {s : Connection F H}
    (hrun : exec (step endpoint)
      (openSession endpoint ⟨⟨m_rBuffer, m_handles, 0, [], []⟩, []⟩) actions = some s) :
    (completions actions).map Completion.stage <+: [.dispatch, .handshake, .accept] ∧
    s.load ≤ 1 ∧
    (s.session.starts ≠ [] ↔
      (completions actions).map Completion.stage = [.dispatch, .handshake, .accept] ∧
        ∀ c ∈ completions actions, c.Succeeds) ∧
    (s.pending = some .handshake → s.expires = true) ∧
    (s.pending = some .accept ∨ s.session.outstanding ≠ 0 → s.expires = false) ∧
    (∀ c ∈ completions actions, ¬c.Succeeds → s.load = 0 ∧
      ∃ lines, s.session.log = lines ++ s.farewell endpoint ∧ c.Told endpoint lines) ∧
    (s.load = 0 → ∀ later t, exec (step endpoint) s later = some t → t.load = 0) := by
  have hs := progress_exec hF hrun
  refine ⟨hs.stages, hs.load_le_one, hs.starts_iff, hs.limit.1, hs.limit.2, fun c hc hnot => ?_,
    fun hload later t ht => exec_induct load_step hload ht⟩
  cases hs with
  | waiting _ hreached => exact absurd (hreached.2 c hc) hnot
  | opened _ _ hall => exact absurd (hall c hc) hnot
  | failed hpending hcs hreached hfails hstarts hout hlog htold =>
    rw [hcs] at hc
    rcases List.mem_append.mp hc with hc | hc
    · exact absurd (hreached.2 c hc) hnot
    · rw [List.mem_singleton.mp hc]
      exact ⟨by simp [Connection.load, hpending, hout], _, hlog, htold⟩

/-- A step of which nothing throws. -/
def calm (stage : Stage) (error : Option ErrorCode) : Completion where
  stage := stage
  error := error
  isInline := false
  isOpen := true
  throws _ := none

/-- A peer that speaks TLS and nothing else; the session is destroyed in the end. -/
theorem session_opens_bad_upgrade :
    let accept := calm .accept (some ⟨20, "bad upgrade"⟩)
    let actions : List (Action String) :=
      [.chain (calm .dispatch none), .chain (calm .handshake none), .chain accept,
        .destroy ⟨false, none⟩]
    ∃ (s : Connection .reference String) (lines : List String), exec (step localhost)
        (openSession localhost ⟨⟨([], []), .empty, 0, [], []⟩, []⟩) actions = some s ∧
      s.session.starts = [] ∧ s.load = 0 ∧
      s.session.log = lines ++ ["[websocket] close session from 127.0.0.1:4242"] ∧
      lines.getLast? =
        some "[websocket] accept error 20 - bad upgrade on endpoint 127.0.0.1:4242" := by
  intro accept actions
  obtain ⟨s, hs, hstarts, hfarewell⟩ : ∃ s : Connection .reference String, exec (step localhost)
      (openSession localhost ⟨⟨([], []), .empty, 0, [], []⟩, []⟩) actions = some s ∧
      s.session.starts = [] ∧
      s.farewell localhost = ["[websocket] close session from 127.0.0.1:4242"] :=
    ⟨_, rfl, rfl, rfl⟩
  obtain ⟨-, -, -, -, -, htold, -⟩ := session_opens FlatBuffer.reference_documented hs
  obtain ⟨hload, lines, hlog, htold⟩ := htold accept (by simp [actions, completions]) (by decide)
  exact ⟨s, lines, hs, hstarts, hload, hfarewell ▸ hlog, htold _ _ rfl rfl rfl⟩

end Zatestil.Websocket.Opening
