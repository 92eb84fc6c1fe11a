import Zatestil.Library.Machine
import Zatestil.Library.Unwind
import Zatestil.Util

/-!
# The accept loop

`Server::run` starts one `async_accept`, and each completion starts the next one: `onAccept`
does it in a scope guard. The handlers run on the acceptor's strand, one after another, and an
exception that leaves one is caught by `util::run`, so that a run of the server is a list of
completions.

A completion brings a socket and says which of the calls made for it throw. Logging is
`noexcept`, but the arguments of a logging call are evaluated before it.
-/
namespace Zatestil.Websocket
open Library Library.Call

structure Endpoint where
  address : String
  port : UInt16
  deriving DecidableEq, Repr

def Endpoint.toString (endpoint : Endpoint) : String :=
  endpoint.address ++ ":" ++ endpoint.port.toNat.repr

structure ErrorCode where
  value : Int
  what : String
  deriving DecidableEq, Repr

structure Socket where
  peer : Option Endpoint

/-- The calls on the way of a completion that can fail by themselves. -/
inductive Site where
  -- in `run` and `startAccept`
  | runDebug
  | startTrace
  | startSelf
  | asyncAccept
  -- in the completion handler
  | format
  -- in `onAccept`
  | errorLog
  | acceptedTrace
  | acceptedSelf
  -- in the constructor of the session and in `open`
  | makeShared
  | makeStream
  | openSession
  deriving DecidableEq, Repr

/-- The accepts that are waiting on the acceptor, and the peers of the opened sessions. -/
structure Server where
  outstanding : Nat
  sessions : List Endpoint
  deriving DecidableEq, Repr

/-- How one `async_accept` ends. -/
structure Completion where
  errorCode : Option ErrorCode
  socket : Socket
  unconnected : errorCode.isSome → socket.peer = none
  /-- The same socket when the session is made; the peer can have gone in between. -/
  moved : Socket
  throws : Site → Option String

/-- `remote_endpoint()` without an error code. -/
def Socket.remoteEndpoint (socket : Socket) : Call String Server Endpoint :=
  match socket.peer with
  | some endpoint => pure endpoint
  | none => throw (.exception "remote_endpoint: Transport endpoint is not connected")

namespace Server

section
variable (throws : Site → Option String)

def log (site : Site) : Call String Server Unit := noThrow (mayThrow (throws site))

def startAccept : Call String Server Unit := do
  log throws .startTrace
  -- `shared_from_this`, then `make_strand` and `async_accept`
  mayThrow (throws .startSelf)
  mayThrow (throws .asyncAccept)
  modify fun s => { s with outstanding := s.outstanding + 1 }

def run : Call String Server Unit := do
  log throws .runDebug
  startAccept throws

/-- `make_shared<Session>`: the constructor asks the socket for its peer again. -/
def makeSession (socket : Socket) : Call String Server Endpoint := do
  mayThrow (throws .makeShared)
  let endpoint ← socket.remoteEndpoint
  mayThrow (throws .makeStream)
  pure endpoint

/-- `Session::open`. -/
def openSession (endpoint : Endpoint) : Call String Server Unit := noThrow do
  mayThrow (throws .openSession)
  modify fun s => { s with sessions := endpoint :: s.sessions }

def onAcceptBody (result : Util.Result) (socket moved : Socket) : Call String Server Unit := do
  if !result.isOk then
    log throws .errorLog
  else
    -- the argument of the log call, evaluated outside of its `noexcept`
    let _ ← socket.remoteEndpoint
    log throws .acceptedTrace
    mayThrow (throws .acceptedSelf)
    let endpoint ← makeSession throws moved
    openSession throws endpoint

/-- The guard holds one pointer and is made without an allocation. -/
def onAccept (result : Util.Result) (socket moved : Socket) : Call String Server Unit :=
  onScopeExit (startAccept throws) (onAcceptBody throws result socket moved)

end

/-- The result that the completion handler hands to `onAccept`. -/
def acceptResult (c : Completion) : Call String Server Util.Result :=
  match c.errorCode with
  | none => pure ⟨.success, ""⟩
  | some errorCode => do
    -- no guard yet: what is thrown here leaves the handler
    let endpoint ← c.socket.remoteEndpoint
    mayThrow (c.throws .format)
    pure ⟨.error, errorCode.value.repr ++ " - " ++ errorCode.what ++ " on endpoint " ++
      endpoint.toString⟩

def acceptHandler (c : Completion) : Call String Server Unit := do
  let result ← acceptResult c
  onAccept c.throws result c.socket c.moved

/-- One accept completes and its handler finishes, or takes the program with it. -/
def step (s : Server) (c : Completion) : Option Server :=
  if s.outstanding = 0 then none
  else (acceptHandler c).final { s with outstanding := s.outstanding - 1 }

/-! ## What a completion does to the accepts -/

/-- `startAccept` gets as far as `async_accept` and that returns. -/
def Starts (throws : Site → Option String) : Prop :=
  throws .startSelf = none ∧ throws .asyncAccept = none

instance (throws : Site → Option String) : Decidable (Starts throws) :=
  inferInstanceAs (Decidable (_ ∧ _))

theorem keeps_log {γ : Type} {view : Server → γ} (throws : Site → Option String) (site : Site) :
    Keeps view (log throws site) :=
  (keeps_mayThrow _).noThrow

theorem keeps_remoteEndpoint {γ : Type} {view : Server → γ} (socket : Socket) :
    Keeps view socket.remoteEndpoint := by
  intro s t h
  rcases socket with ⟨_ | endpoint⟩ <;> cases h <;> rfl

theorem keeps_openSession (throws : Site → Option String) (endpoint : Endpoint) :
    Keeps outstanding (openSession throws endpoint) := by
  refine ((keeps_mayThrow _).bind fun _ => ?_).noThrow
  intro s t h
  cases h
  rfl

/-- Whatever happens in the scope of the guard, the accepts are left to the guard. -/
theorem keeps_onAcceptBody (throws : Site → Option String) (result : Util.Result)
    (socket moved : Socket) : Keeps outstanding (onAcceptBody throws result socket moved) := by
  unfold onAcceptBody makeSession
  split
  · exact keeps_log throws _
  · refine (keeps_remoteEndpoint socket).bind fun _ => ?_
    refine (keeps_log throws _).bind fun _ => ?_
    refine (keeps_mayThrow _).bind fun _ => ?_
    refine Keeps.bind ?_ (keeps_openSession throws)
    refine (keeps_mayThrow _).bind fun _ => ?_
    refine (keeps_remoteEndpoint moved).bind fun endpoint => ?_
    exact (keeps_mayThrow _).bind fun _ => keeps_pure endpoint

theorem startAccept_outstanding {throws : Site → Option String} {s t : Server}
    (h : (startAccept throws).final s = some t) :
    t.outstanding = s.outstanding + if Starts throws then 1 else 0 := by
  cases htrace : throws .startTrace with
  | some _ =>
    simp only [startAccept, log, htrace] at h
    cases h
  | none =>
    cases hself : throws .startSelf <;> cases haccept : throws .asyncAccept <;>
      simp only [startAccept, log, htrace, hself, haccept] at h <;> cases h <;>
      simp [Starts, hself, haccept]

theorem onAccept_outstanding {throws : Site → Option String} {result : Util.Result}
    {socket moved : Socket} {s t : Server}
    (h : (onAccept throws result socket moved).final s = some t) :
    t.outstanding = s.outstanding + if Starts throws then 1 else 0 := by
  rw [onAccept, final_onScopeExit, Option.bind_eq_some_iff] at h
  obtain ⟨u, hu, ht⟩ := h
  rw [startAccept_outstanding ht, keeps_onAcceptBody throws result socket moved s u hu]

/-- The completion leads to the next accept. -/
def Rearms (c : Completion) : Prop := c.errorCode = none ∧ Starts c.throws

instance (c : Completion) : Decidable (Rearms c) := inferInstanceAs (Decidable (_ ∧ _))

/-- On an error the handler asks the unconnected socket for its peer, before there is a guard. -/
theorem acceptHandler_outstanding {c : Completion} {s t : Server}
    (h : (acceptHandler c).final s = some t) :
    t.outstanding = s.outstanding + if Rearms c then 1 else 0 := by
  cases hec : c.errorCode with
  | none =>
    have hresult : acceptResult c s = .ok ⟨.success, ""⟩ s := by simp only [acceptResult, hec]; rfl
    rw [acceptHandler, final_bind_of_ok hresult] at h
    simpa [Rearms, hec] using onAccept_outstanding h
  | some errorCode =>
    have hpeer : c.socket.peer = none := c.unconnected (by simp [hec])
    have hresult : acceptResult c s = .error (.exception
        "remote_endpoint: Transport endpoint is not connected") s := by
      simp only [acceptResult, hec, Socket.remoteEndpoint, hpeer]
      rfl
    rw [acceptHandler, final_bind_of_exception hresult] at h
    cases h
    simp [Rearms, hec]

theorem step_outstanding {s t : Server} {c : Completion} (h : step s c = some t) :
    s.outstanding ≠ 0 ∧ t.outstanding = s.outstanding - 1 + if Rearms c then 1 else 0 := by
  unfold step at h
  split at h
  · cases h
  next hpos => exact ⟨hpos, acceptHandler_outstanding h⟩

/-! ## Runs -/

theorem run_outstanding {throws : Site → Option String} {s : Server}
    (h : run throws ⟨0, []⟩ = .ok () s) : s.outstanding = 1 := by
  cases hdebug : throws .runDebug <;> cases htrace : throws .startTrace <;>
    cases hself : throws .startSelf <;> cases haccept : throws .asyncAccept <;>
    simp only [run, startAccept, log, hdebug, htrace, hself, haccept] at h <;> cases h
  rfl

/-- There are never two accepts, whatever happens. -/
theorem outstanding_le_one {s t : Server} {cs : List Completion} (hs : s.outstanding ≤ 1)
    (ht : exec step s cs = some t) : t.outstanding ≤ 1 := by
  have hkeep : ∀ (u : Server) (c : Completion) (v : Server), u.outstanding ≤ 1 →
      step u c = some v → v.outstanding ≤ 1 := by
    intro u c v hu h
    have hstep := (step_outstanding h).2
    split_ifs at hstep <;> omega
  exact exec_induct hkeep hs ht

/-- Without an accept there is nothing left that could complete. -/
theorem stopped_forever {s t : Server} {cs : List Completion} (hs : s.outstanding = 0)
    (ht : exec step s cs = some t) : cs = [] := by
  cases cs with
  | nil => rfl
  | cons c cs =>
    obtain ⟨u, hu, -⟩ := exec_cons.mp ht
    exact absurd hs (step_outstanding hu).1

end Server

/-- After each completion exactly one accept is outstanding if and only if no accept completes
with an error and every `startAccept` of the guard gets through. -/
theorem one_accept_outstanding_iff {throws : Site → Option String} {s t : Server}
    {cs : List Completion} (hrun : Server.run throws ⟨0, []⟩ = .ok () s)
    (ht : exec Server.step s cs = some t) :
    (∀ as u, as <+: cs → exec Server.step s as = some u → u.outstanding = 1) ↔
      ∀ c ∈ cs, c.errorCode = none ∧ c.throws .startSelf = none ∧ c.throws .asyncAccept = none := by
  have hkeep : ∀ (u : Server) (c : Completion) (v : Server), u.outstanding = 1 →
      Server.Rearms c → u.step c = some v → v.outstanding = 1 := by
    intro u c v hu hc h
    rw [(Server.step_outstanding h).2, if_pos hc, hu]
  have hexact : ∀ (u : Server) (c : Completion) (v : Server), u.outstanding = 1 →
      u.step c = some v → v.outstanding = 1 → Server.Rearms c := by
    intro u c v hu h hv
    have hstep := (Server.step_outstanding h).2
    split_ifs at hstep with hc
    · exact hc
    · omega
  have hone := forall_states_iff_along (fun _ h => h) hkeep hexact (Server.run_outstanding hrun) ht
  exact hone.trans ⟨fun h => h.forall_mem ht, fun h => along_of_mem (fun c hc _ => h c hc) s⟩

/-- A peer that connects, stays or not, with nothing else failing. -/
def accepted (peer moved : Option Endpoint) : Completion where
  errorCode := none
  socket := ⟨peer⟩
  unconnected := by simp
  moved := ⟨moved⟩
  throws _ := none

def localhost : Endpoint := ⟨"127.0.0.1", 4242⟩

/-- One peer stays, one is gone before it is looked at. -/
theorem one_accept_outstanding_iff_two_peers :
    ∃ s t, Server.run (fun _ => none) ⟨0, []⟩ = .ok () s ∧
      exec Server.step s [accepted localhost localhost, accepted none none] = some t ∧
      t.sessions = [localhost] ∧
      ((∀ as u, as <+: [accepted localhost localhost, accepted none none] →
          exec Server.step s as = some u → u.outstanding = 1) ↔
        ∀ c ∈ [accepted localhost localhost, accepted none none],
          c.errorCode = none ∧ c.throws .startSelf = none ∧ c.throws .asyncAccept = none) := by
  obtain ⟨s, t, hs, ht, hsessions⟩ : ∃ s t, Server.run (fun _ => none) ⟨0, []⟩ = .ok () s ∧
      exec Server.step s [accepted localhost localhost, accepted none none] = some t ∧
      t.sessions = [localhost] := ⟨_, _, rfl, rfl, rfl⟩
  exact ⟨s, t, hs, ht, hsessions, one_accept_outstanding_iff hs ht⟩

def connectionAborted : Completion where
  errorCode := some ⟨103, "Software caused connection abort"⟩
  socket := ⟨none⟩
  unconnected _ := rfl
  moved := ⟨none⟩
  throws _ := none

/-- An accept that completes with an error, in a program in which nothing else fails, is the
last one. -/
theorem accept_error_stops_accepting :
    ∃ s t, Server.run (fun _ => none) ⟨0, []⟩ = .ok () s ∧
      exec Server.step s [connectionAborted] = some t ∧ t.outstanding = 0 :=
  ⟨_, _, rfl, rfl, rfl⟩

end Zatestil.Websocket
