import Zatestil.Threads.ThreadPool
import Zatestil.Util

/-!
# The life of the service

`run` makes a context and a `ServiceApplication`, calls `run` of the application and leaves their
scope. The application waits for a signal, and the destructor of its pool waits for the threads,
so the main thread stays in that destructor for as long as the service is up.

The machine has the main thread, in the order of construction and destruction, the threads of the
pool, which take the steps of `Threads.step`, and what goes on outside: signals and asynchronous
operations. Of an exception, the model has what `run` makes of it. The handler of the signal does
not throw; its one text fits into a string without an allocation.

What is queued when the context is destroyed is destroyed with it, and stays in `pool.queue` here.
-/
namespace Zatestil.Application
open Library Threads

/-- The name in `ServiceConfiguration`. -/
def getName : String := "ztsl-service"

def minNThreads : Nat := 4

/-- The number of threads, which is at least that of the hardware. -/
def nThreads (hardware_concurrency : Nat) : Nat := max minNThreads hardware_concurrency

theorem nThreads_pos (hardware_concurrency : Nat) : 0 < nThreads hardware_concurrency :=
  Nat.lt_of_lt_of_le (by decide) (Nat.le_max_left ..)

instance (hardware_concurrency : Nat) : NeZero (nThreads hardware_concurrency) :=
  ⟨(nThreads_pos hardware_concurrency).ne'⟩

abbrev Worker (hardware_concurrency : Nat) := Fin (nThreads hardware_concurrency)

/-- An exception, and the text of the stack trace in its handler. -/
structure Failure where
  thrown : Thrown
  trace : String

/-- Where the main thread stands in `run`. -/
inductive Main
  /-- At `Context context{}`. -/
  | context
  /-- In the constructor of `Application`. -/
  | signalSet
  /-- In the loop of the constructor of `ThreadPool`. -/
  | threads
  | barrier
  /-- At `make_shared<websocket::Server>`. -/
  | server
  /-- At `Storage::instance`. -/
  | storage
  /-- At `app.run()`. -/
  | run
  /-- In `~ThreadPool`, at the thread with this number. -/
  | joining (i : Nat)
  /-- The other members of the application are destroyed. -/
  | members
  | destroyContext
  /-- At the handlers of `run`, or behind them. -/
  | leaving
  | exited (result : Util.Result)
  | terminated
  deriving DecidableEq

/-- `result` after the handlers of `run`. -/
def resultOf : Option Failure → Util.Result
  | none => ⟨.success, ""⟩
  | some ⟨.exception what, trace⟩ => ⟨.error, what ++ " " ++ trace⟩
  | some ⟨.unknown, trace⟩ => ⟨.critical, "shutting down with error - unknown " ++ trace⟩

/-- The text that the guard of `run` logs. -/
def shutdownText (result : Util.Result) : String :=
  match result.code with
  | .success => "shutting down successfully"
  | .error => "shutting down error - " ++ result.message
  | .critical => "shutting down critical error - " ++ result.message

section
variable (hardware : Nat)

structure State where
  main : Main := .context
  thrown : Option Failure := none
  isRunning : Bool := false
  /-- The threads that have been made, and those that are at the barrier or behind it. -/
  made : Nat := 0
  arrived : Worker hardware → Bool := fun _ => false
  pool : Threads.State (Worker hardware) := {}
  /-- `m_signalSet` waits. -/
  signalWait : Bool := false
  /-- The task that handles the signal, and the number of the signal. -/
  signalTask : Option Task := none
  signalNumber : Nat := 0
  /-- The other asynchronous operations. -/
  operations : Nat := 0
  /-- What `run`, the application and the pool log. -/
  log : List String := ["starting as " ++ getName]

inductive Action
  /-- A step of the main thread, and the exception it meets. -/
  | main (failure : Option Failure)
  | arrive (w : Worker hardware)
  | pool (action : Threads.Action (Worker hardware))
  /-- The handler of the signal calls `stop`. -/
  | stop (w : Worker hardware)
  /-- A task starts an asynchronous operation. -/
  | initiate (w : Worker hardware)
  | complete
  | signal (number : Nat)

end

variable {hardware : Nat}

namespace State

variable (s : State hardware)

/-- All threads have arrived at the barrier, and so has the main thread. -/
def Released : Prop :=
  (∀ w, s.arrived w = true) ∧
    match s.main with
    | .context | .signalSet | .threads => False
    | _ => True

instance : Decidable s.Released := by
  unfold Released
  cases s.main <;> infer_instance

/-- The thread is in the handler of the signal. -/
def Handling (w : Worker hardware) : Prop := ∃ task ∈ s.signalTask, s.pool.pc w = .invoking task

instance (w : Worker hardware) : Decidable (s.Handling w) :=
  match h : s.signalTask with
  | none => isFalse (by simp [Handling, h])
  | some task => decidable_of_iff (s.pool.pc w = .invoking task) (by simp [Handling, h])

/-- What the pool of a running service does, beyond what a pool does. `run()` takes no task after
`stop()` and does not return before; the handler of the signal posts nothing, does not throw and
returns after `stop()`. -/
def Allows : Threads.Action (Worker hardware) → Prop
  | .post => False
  | .runOut => s.pool.stopped = false ∧ s.signalWait = false ∧ s.operations = 0
  | .take _ _ => s.pool.stopped = false
  | .leaveRun _ => s.pool.stopped = true
  | .spawn w | .throw w _ => ¬s.Handling w
  | .finish w => s.Handling w → s.pool.stopped = true
  | .check _ | .report _ _ => True

instance (action : Threads.Action (Worker hardware)) : Decidable (s.Allows action) := by
  cases action <;> unfold Allows <;> infer_instance

/-- Logging under the tag of a class. -/
def trace (tag text : String) : State hardware :=
  { s with log := s.log ++ ["[" ++ tag ++ "] " ++ text] }

/-- An exception is on its way, and the scope that is left next is that of `main`. -/
def unwind (failure : Failure) (main : Main) : State hardware :=
  { s with main := main, thrown := some failure }

def next (main : Main) : State hardware := { s with main := main }

def addThread : State hardware := { s with made := s.made + 1 }

/-- One step of the main thread. -/
def mainStep : Option Failure → Option (State hardware)
  | none =>
    match s.main with
    | .context => some (s.next .signalSet)
    | .signalSet =>
      let text := "starting " ++ (nThreads hardware).repr ++ " threads"
      some (({ s with signalWait := true }.trace "threads" text).next .threads)
    | .threads =>
      if s.made < nThreads hardware then some s.addThread
      else some (s.next .barrier)
    | .barrier => if s.Released then some (s.next .server) else none
    | .server => some (s.next .storage)
    | .storage => some (s.next .run)
    | .run => some ({ s with isRunning := true, operations := s.operations + 1 }.next (.joining 0))
    | .joining i =>
      if h : i < nThreads hardware then
        if s.pool.pc ⟨i, h⟩ = .returned then some (s.next (.joining (i + 1))) else none
      else
        let text := "shutdown " ++ s.made.repr ++ " threads"
        some ((s.trace "threads" text).next .members)
    | .members => some ({ s with signalWait := false }.next .destroyContext)
    | .destroyContext => some ({ s with operations := 0 }.next .leaving)
    | .leaving =>
      -- the guard has a copy of `result` from before the `try` block
      let copy : Util.Result := ⟨.success, ""⟩
      some ({ s with log := s.log ++ [shutdownText copy] }.next (.exited (resultOf s.thrown)))
    | .exited _ | .terminated => none
  | some failure =>
    match s.main with
    | .context => some (s.unwind failure .leaving)
    | .signalSet => some (s.unwind failure .destroyContext)
    | .threads =>
      if s.made < nThreads hardware then
        -- threads that can be joined are destroyed
        if s.made = 0 then some (s.unwind failure .members) else some (s.next .terminated)
      else none
    | .server => some (s.unwind failure (.joining 0))
    -- `instance` is `noexcept`
    | .storage => some (s.next .terminated)
    | .run => some ({ s with isRunning := true }.unwind failure (.joining 0))
    | _ => none

end State

namespace State

variable (s : State hardware)

/-- The handler of the signal, up to `stop`; the signal comes without an error. -/
def handle : State hardware :=
  let text := "got signal " ++ s.signalNumber.repr ++ " with error 0 message Success"
  { s.trace "application" text with isRunning := false, pool := { s.pool with stopped := true } }

/-- An asynchronous operation completes, and its handler is queued. -/
def complete : State hardware :=
  { s with operations := s.operations - 1, pool := s.pool.post }

def signal (number : Nat) : State hardware :=
  { s with
    signalWait := false
    signalTask := some s.pool.posted
    signalNumber := number
    pool := s.pool.post }

end State

def step (s : State hardware) (a : Action hardware) : Option (State hardware) :=
  if s.main = .terminated then none
  else match a with
  | .main failure => s.mainStep failure
  | .arrive w =>
    if w.val < s.made ∧ s.arrived w = false then
      some { s with arrived := Function.update s.arrived w true }
    else none
  | .pool action =>
    if s.Released ∧ s.Allows action then
      (Threads.step s.pool action).map fun pool => { s with pool := pool }
    else none
  | .stop w =>
    if s.Released ∧ s.Handling w ∧ s.pool.stopped = false then some s.handle else none
  | .initiate w =>
    if s.Released ∧ (s.pool.pc w).isInvoking = true ∧ ¬s.Handling w then
      some { s with operations := s.operations + 1 }
    else none
  | .complete => if 0 < s.operations then some s.complete else none
  | .signal number => if s.signalWait = true then some (s.signal number) else none

/-! ## What a step does -/

/-- The steps of the main thread. -/
inductive MainStep (s : State hardware) : State hardware → Prop
  | makeContext (h : s.main = .context) : MainStep s (s.next .signalSet)
  | noContext (h : s.main = .context) (failure : Failure) : MainStep s (s.unwind failure .leaving)
  | wait (h : s.main = .signalSet) (text : String) :
    MainStep s (({ s with signalWait := true }.trace "threads" text).next .threads)
  | noWait (h : s.main = .signalSet) (failure : Failure) :
    MainStep s (s.unwind failure .destroyContext)
  | makeThread (h : s.main = .threads) (hmade : s.made < nThreads hardware) :
    MainStep s s.addThread
  | allThreads (h : s.main = .threads) (hmade : ¬s.made < nThreads hardware) :
    MainStep s (s.next .barrier)
  | noThread (h : s.main = .threads) (hmade : s.made = 0) (failure : Failure) :
    MainStep s (s.unwind failure .members)
  | terminate (h : s.main = .threads ∨ s.main = .storage) : MainStep s (s.next .terminated)
  | pass (h : s.main = .barrier) (hreleased : s.Released) : MainStep s (s.next .server)
  | makeServer (h : s.main = .server) : MainStep s (s.next .storage)
  | noServer (h : s.main = .server) (failure : Failure) :
    MainStep s (s.unwind failure (.joining 0))
  | openStorage (h : s.main = .storage) : MainStep s (s.next .run)
  | run (h : s.main = .run) :
    MainStep s ({ s with isRunning := true, operations := s.operations + 1 }.next (.joining 0))
  | noRun (h : s.main = .run) (failure : Failure) :
    MainStep s ({ s with isRunning := true }.unwind failure (.joining 0))
  | join {i : Nat} (h : s.main = .joining i) (hi : i < nThreads hardware)
    (hreturned : s.pool.pc ⟨i, hi⟩ = .returned) : MainStep s (s.next (.joining (i + 1)))
  | allJoined {i : Nat} (h : s.main = .joining i) (hi : ¬i < nThreads hardware) (text : String) :
    MainStep s ((s.trace "threads" text).next .members)
  | destroyMembers (h : s.main = .members) :
    MainStep s ({ s with signalWait := false }.next .destroyContext)
  | destroyContext (h : s.main = .destroyContext) :
    MainStep s ({ s with operations := 0 }.next .leaving)
  | leave (h : s.main = .leaving) :
    MainStep s ({ s with log := s.log ++ ["shutting down successfully"] }.next
      (.exited (resultOf s.thrown)))

theorem mainStep_cases {s s' : State hardware} {failure : Option Failure}
    (h : s.mainStep failure = some s') : MainStep s s' := by
  cases failure with
  | none =>
    cases hmain : s.main with
    | context | signalSet | server | storage | run | members | destroyContext | leaving =>
      simp only [State.mainStep, hmain] at h
      cases h
      constructor
      exact hmain
    | threads =>
      simp only [State.mainStep, hmain] at h
      split_ifs at h with hmade <;> cases h
      · exact .makeThread hmain hmade
      · exact .allThreads hmain hmade
    | barrier =>
      simp only [State.mainStep, hmain] at h
      split_ifs at h with hreleased
      cases h
      exact .pass hmain hreleased
    | joining i =>
      simp only [State.mainStep, hmain] at h
      split_ifs at h with hi hreturned <;> cases h
      · exact .join hmain hi hreturned
      · exact .allJoined hmain hi _
    | exited | terminated =>
      simp only [State.mainStep, hmain] at h
      cases h
  | some failure =>
    cases hmain : s.main with
    | context | signalSet | server | run =>
      simp only [State.mainStep, hmain] at h
      cases h
      constructor
      exact hmain
    | storage =>
      simp only [State.mainStep, hmain] at h
      cases h
      exact .terminate (.inr hmain)
    | threads =>
      simp only [State.mainStep, hmain] at h
      split_ifs at h with hlt hmade <;> cases h
      · exact .noThread hmain hmade failure
      · exact .terminate (.inl hmain)
    | barrier | joining | members | destroyContext | leaving | exited | terminated =>
      simp only [State.mainStep, hmain] at h
      cases h

/-- What a step can do. -/
inductive Step (s : State hardware) : Action hardware → State hardware → Prop
  | main {failure : Option Failure} {s' : State hardware} (h : MainStep s s') :
    Step s (.main failure) s'
  | arrive {w : Worker hardware} (hw : w.val < s.made) (h : s.arrived w = false) :
    Step s (.arrive w) { s with arrived := Function.update s.arrived w true }
  | pool {action : Threads.Action (Worker hardware)} {pool : Threads.State (Worker hardware)}
    (hreleased : s.Released) (hallows : s.Allows action)
    (h : Threads.step s.pool action = some pool) :
    Step s (.pool action) { s with pool := pool }
  | stop {w : Worker hardware} (hreleased : s.Released) (h : s.Handling w)
    (hstopped : s.pool.stopped = false) : Step s (.stop w) s.handle
  | initiate {w : Worker hardware} (hreleased : s.Released) :
    Step s (.initiate w) { s with operations := s.operations + 1 }
  | complete (h : 0 < s.operations) : Step s .complete s.complete
  | signal (h : s.signalWait = true) (number : Nat) : Step s (.signal number) (s.signal number)

theorem step_sound {s s' : State hardware} {a : Action hardware} (h : step s a = some s') :
    s.main ≠ .terminated ∧ Step s a s' := by
  unfold step at h
  split at h
  · cases h
  next hmain =>
    refine ⟨hmain, ?_⟩
    cases a with
    | main failure => exact .main (mainStep_cases h)
    | arrive w =>
      simp only at h
      split_ifs at h with hw
      cases h
      exact .arrive hw.1 hw.2
    | pool action =>
      simp only at h
      split_ifs at h with hallows
      obtain ⟨pool, hpool, rfl⟩ := Option.map_eq_some_iff.mp h
      exact .pool hallows.1 hallows.2 hpool
    | stop w =>
      simp only at h
      split_ifs at h with hw
      cases h
      exact .stop hw.1 hw.2.1 hw.2.2
    | initiate w =>
      simp only at h
      split_ifs at h with hw
      cases h
      exact .initiate hw.1
    | complete =>
      simp only at h
      split_ifs at h with hoperations
      cases h
      exact .complete hoperations
    | signal number =>
      simp only at h
      split_ifs at h with hwait
      cases h
      exact .signal hwait number

/-! ## The invariant -/

/-- The signal is waited for, or has come. -/
def Main.isArmed : Main → Bool
  | .threads | .barrier | .server | .storage | .run | .joining _ | .members => true
  | _ => false

/-- What holds where the main thread stands. -/
def Stage (s : State hardware) : Main → Prop
  | .context | .signalSet => s.made = 0 ∧ s.signalWait = false ∧ s.signalTask = none
  | .threads => s.made ≤ nThreads hardware
  | .barrier => s.made = nThreads hardware
  | .server | .storage | .run => ∀ w, s.arrived w = true
  | .joining i => (∀ w, s.arrived w = true) ∧ ∀ w, w.val < i → s.pool.pc w = .returned
  | .members | .destroyContext | .leaving | .exited _ => s.made = 0 ∨ ∀ w, s.pool.pc w = .returned
  | .terminated => True

structure Inv (s : State hardware) : Prop where
  pool : Threads.Inv s.pool
  stage : Stage s s.main
  arrived : ∀ w, s.arrived w = true → w.val < s.made
  /-- Before the barrier the threads do nothing. -/
  quiet : ¬s.Released → ∀ w, s.pool.pc w = .checking
  waiting : s.signalWait = true → s.signalTask = none
  armed : s.main.isArmed = true → s.signalTask = none → s.signalWait = true
  stopped : s.pool.stopped = true → s.signalTask ≠ none
  /-- The handler of the signal is on its way until it stops the context. -/
  handled : ∀ task ∈ s.signalTask, s.pool.stopped = false →
    task ∈ s.pool.queue ∨ ∃ w, s.pool.pc w = .invoking task

/-- What the threads do in the pool is left to them. -/
theorem MainStep.frame {s s' : State hardware} (h : MainStep s s') :
    s'.pool = s.pool ∧ s'.arrived = s.arrived ∧ s'.signalTask = s.signalTask := by
  cases h <;> exact ⟨rfl, rfl, rfl⟩

/-- Once the barrier is passed, it stays so. -/
theorem MainStep.released {s s' : State hardware} (h : MainStep s s') (hs : s.Released) :
    s'.Released := by
  refine ⟨h.frame.2.1 ▸ hs.1, ?_⟩
  have hmain := hs.2
  cases h with
  | makeContext h | noContext h | wait h | noWait h | makeThread h | allThreads h | noThread h =>
    rw [h] at hmain
    exact hmain.elim
  | _ => trivial

theorem stage_main {s s' : State hardware} (hs : Inv s) (h : MainStep s s') :
    Stage s' s'.main := by
  have hstage := hs.stage
  cases h with
  | makeContext h =>
    rw [h] at hstage
    exact hstage
  | noContext h | noWait h =>
    rw [h] at hstage
    exact .inl hstage.1
  | wait h =>
    rw [h] at hstage
    exact hstage.1.le.trans (Nat.zero_le _)
  | makeThread h hmade =>
    change Stage _ s.main
    rw [h]
    exact hmade
  | allThreads h hmade =>
    rw [h] at hstage
    exact Nat.le_antisymm hstage (Nat.not_lt.mp hmade)
  | noThread h hmade => exact .inl hmade
  | terminate => trivial
  | pass h hreleased => exact hreleased.1
  | makeServer h | openStorage h =>
    rw [h] at hstage
    exact hstage
  | noServer h | run h | noRun h =>
    rw [h] at hstage
    exact ⟨hstage, fun w hw => absurd hw (Nat.not_lt_zero _)⟩
  | @join i h hi hreturned =>
    rw [h] at hstage
    refine ⟨hstage.1, fun w hw => ?_⟩
    rcases Nat.lt_succ_iff_lt_or_eq.mp hw with hw | hw
    · exact hstage.2 w hw
    · obtain rfl : w = ⟨i, hi⟩ := Fin.ext hw
      exact hreturned
  | allJoined h hi =>
    rw [h] at hstage
    exact .inr fun w => hstage.2 w (by omega)
  | destroyMembers h | destroyContext h | leave h =>
    rw [h] at hstage
    exact hstage

theorem inv_main {s s' : State hardware} (hs : Inv s) (h : MainStep s s') : Inv s' := by
  obtain ⟨hpool, harrived, htask⟩ := h.frame
  refine ⟨hpool ▸ hs.pool, stage_main hs h, ?_, ?_, ?_, ?_, ?_, ?_⟩
  · intro w hw
    rw [harrived] at hw
    have hlt := hs.arrived w hw
    cases h <;> first | exact hlt | exact Nat.lt_succ_of_lt hlt
  · intro hreleased w
    rw [hpool]
    exact hs.quiet (fun hold => hreleased (h.released hold)) w
  · rw [htask]
    have hstage := hs.stage
    cases h with
    | wait h =>
      rw [h] at hstage
      exact fun _ => hstage.2.2
    | destroyMembers => exact fun h => by cases h
    | _ => exact hs.waiting
  · rw [htask]
    intro harmed hnone
    cases h with
    | wait => rfl
    | makeContext | noContext | noWait | destroyMembers | destroyContext | leave | terminate =>
      cases harmed
    | makeThread | allThreads | noThread | pass | makeServer | noServer | openStorage | run
    | noRun | join | allJoined =>
      refine hs.armed ?_ hnone
      simp only [*]
      rfl
  · rw [hpool, htask]
    exact hs.stopped
  · rw [hpool, htask]
    exact hs.handled

/-! ### The pool -/

/-- A thread that has returned stays so. -/
theorem returned_step {p p' : Threads.State (Worker hardware)}
    {action : Threads.Action (Worker hardware)} (h : Threads.step p action = some p')
    {w : Worker hardware} (hw : p.pc w = .returned) : p'.pc w = .returned := by
  have hgoto : ∀ {u : Worker hardware} {pc : Pc}, p.pc u ≠ .returned →
      Function.update p.pc u pc w = .returned := by
    intro u pc hu
    have hne : w ≠ u := fun heq => hu (heq ▸ hw)
    rw [Function.update_of_ne hne]
    exact hw
  cases Threads.step_sound h with
  | post | runOut | spawn => exact hw
  | check hpc | take hpc | finish hpc | throw hpc | report hpc | leaveRun hpc =>
    exact hgoto (by simp [hpc])

theorem stage_returned {s : State hardware} {p : Threads.State (Worker hardware)}
    (hreturned : ∀ w, s.pool.pc w = .returned → p.pc w = .returned) :
    ∀ {main : Main}, Stage s main → Stage { s with pool := p } main := by
  intro main hs
  cases main with
  | joining i => exact ⟨hs.1, fun w hw => hreturned w (hs.2 w hw)⟩
  | members | destroyContext | leaving | exited =>
    exact hs.imp_right fun hall w => hreturned w (hall w)
  | context | signalSet | threads | barrier | server | storage | run | terminated => exact hs

namespace Inv

variable {s : State hardware}

theorem made_pos (hs : Inv s) (hreleased : s.Released) : s.made ≠ 0 := by
  have := hs.arrived 0 (hreleased.1 0)
  omega

/-- As long as the context runs, the wait for the signal or its handler is work for it. -/
theorem has_work (hs : Inv s) (hmain : s.main ≠ .terminated) (hreleased : s.Released)
    (hstopped : s.pool.stopped = false) (hwait : s.signalWait = false) :
    0 < s.pool.outstanding := by
  have htask : s.signalTask ≠ none := by
    intro hnone
    have hgone : s.made = 0 ∨ ∀ w, s.pool.pc w = .returned := by
      have hstage := hs.stage
      have harmed := hs.armed
      have hwhere := hreleased.2
      cases hm : s.main with
      | context | signalSet | threads =>
        rw [hm] at hwhere
        exact hwhere.elim
      | barrier | server | storage | run | joining | members =>
        rw [hm, hwait] at harmed
        exact Bool.noConfusion (harmed rfl hnone)
      | destroyContext | leaving | exited =>
        rw [hm] at hstage
        exact hstage
      | terminated => exact absurd hm hmain
    have hall := hgone.resolve_left (hs.made_pos hreleased)
    rw [hs.pool.returned 0 (hall 0)] at hstopped
    cases hstopped
  obtain ⟨task, ht⟩ := Option.ne_none_iff_exists'.mp htask
  rw [hs.pool.counted]
  rcases hs.handled task ht hstopped with hqueue | ⟨w, hw⟩
  · have := List.length_pos_of_mem hqueue
    omega
  · have hbusy : w ∈ busy s.pool.pc := by
      simp only [busy, Finset.mem_filter, Finset.mem_univ, true_and, hw]
      rfl
    have := Finset.card_pos.mpr ⟨w, hbusy⟩
    omega

/-- The task of the signal stays on its way. -/
theorem handled_pool (hs : Inv s) {action : Threads.Action (Worker hardware)}
    {p : Threads.State (Worker hardware)} (hallows : s.Allows action)
    (h : Threads.step s.pool action = some p) {task : Task} (htask : s.signalTask = some task)
    (hstopped : p.stopped = false) :
    task ∈ p.queue ∨ ∃ w, p.pc w = .invoking task := by
  have hkeep : ∀ {u : Worker hardware} {pc : Pc}, s.pool.pc u ≠ .invoking task →
      s.pool.stopped = false → task ∈ s.pool.queue ∨
        ∃ w, Function.update s.pool.pc u pc w = .invoking task := by
    intro u pc hu hrunning
    refine (hs.handled task htask hrunning).imp_right ?_
    rintro ⟨w, hw⟩
    have hne : w ≠ u := fun heq => hu (heq ▸ hw)
    exact ⟨w, by rwa [Function.update_of_ne hne]⟩
  cases Threads.step_sound h with
  | post => exact hallows.elim
  | runOut => cases hstopped
  | check hpc | report hpc | leaveRun hpc => exact hkeep (by simp [hpc]) hstopped
  | spawn hpc =>
    refine (hs.handled task htask hstopped).imp_left fun hqueue => ?_
    exact List.mem_append_left _ hqueue
  | @take w i other hpc hi =>
    by_cases heq : other = task
    · subst heq
      exact .inr ⟨w, by simp [Threads.State.goto]⟩
    · rcases hs.handled task htask hstopped with hqueue | ⟨u, hu⟩
      · left
        have hlt := (List.getElem?_eq_some_iff.mp hi).1
        have hperm := List.getElem_cons_eraseIdx_perm hlt
        rw [(List.getElem?_eq_some_iff.mp hi).2] at hperm
        rcases List.mem_cons.mp (hperm.mem_iff.mpr hqueue) with hself | hrest
        · exact absurd hself.symm heq
        · exact hrest
      · have hne : u ≠ w := by
          rintro rfl
          rw [hpc] at hu
          cases hu
        exact .inr ⟨u, by simpa [Threads.State.goto, Threads.State.take, hne] using hu⟩
  | @finish w other hpc =>
    refine hkeep ?_ hstopped
    intro hw
    have := hallows ⟨task, htask, hw⟩
    rw [show s.pool.stopped = false from hstopped] at this
    cases this
  | throw hpc => exact hkeep (fun hw => hallows ⟨task, htask, hw⟩) hstopped

theorem pool_step (hs : Inv s) (hmain : s.main ≠ .terminated) (hreleased : s.Released)
    {action : Threads.Action (Worker hardware)} {p : Threads.State (Worker hardware)}
    (hallows : s.Allows action) (h : Threads.step s.pool action = some p) :
    Inv { s with pool := p } where
  pool := Threads.inv_step _ _ _ hs.pool h
  stage := stage_returned (fun w hw => returned_step h hw) hs.stage
  arrived := hs.arrived
  quiet hout := absurd hreleased hout
  waiting := hs.waiting
  armed := hs.armed
  stopped hstopped := by
    cases Threads.step_sound h with
    | runOut hout =>
      have := hs.has_work hmain hreleased hallows.1 hallows.2.1
      omega
    | _ => exact hs.stopped hstopped
  handled task htask hstopped := hs.handled_pool hallows h htask hstopped

end Inv

theorem released_step {s s' : State hardware} {a : Action hardware} (h : Step s a s')
    (hs : s.Released) : s'.Released := by
  cases h with
  | main hmain => exact hmain.released hs
  | @arrive w =>
    refine ⟨fun u => ?_, hs.2⟩
    by_cases hu : u = w
    · simp [hu]
    · simpa [hu] using hs.1 u
  | _ => exact hs

/-- A new task is queued. -/
theorem Inv.post {s s' : State hardware} (hs : Inv s) (hpool : s'.pool = s.pool.post)
    (hmain : s'.main = s.main) (hmade : s'.made = s.made) (harrived : s'.arrived = s.arrived)
    (hsignal : s'.signalWait = s.signalWait ∧ s'.signalTask = s.signalTask ∨
      s.signalWait = true ∧ s'.signalWait = false ∧ s'.signalTask = some s.pool.posted) :
    Inv s' := by
  have hpc : s'.pool.pc = s.pool.pc := by rw [hpool]; rfl
  have hstopped : s'.pool.stopped = s.pool.stopped := by rw [hpool]; rfl
  have hqueue : s'.pool.queue = s.pool.queue ++ [s.pool.posted] := by rw [hpool]; rfl
  have hreleased : s'.Released ↔ s.Released := by
    rw [State.Released, State.Released, hmain, harrived]
  refine ⟨hpool ▸ hs.pool.post, ?_, ?_, ?_, ?_, ?_, ?_, ?_⟩
  · have hstage := hs.stage
    rw [hmain]
    cases hm : s.main <;> simp only [hm, Stage, hmade, harrived, hpc] at hstage ⊢
    all_goals first
      | exact hstage
      | skip
    all_goals
      rcases hsignal with ⟨hwait, htask⟩ | ⟨hwait, -⟩
      · rw [hwait, htask]
        exact hstage
      · rw [hstage.2.1] at hwait
        cases hwait
  · rw [harrived, hmade]
    exact hs.arrived
  · rw [hreleased, hpc]
    exact hs.quiet
  · rcases hsignal with ⟨hwait, htask⟩ | ⟨-, hwait, -⟩
    · rw [hwait, htask]
      exact hs.waiting
    · simp [hwait]
  · rw [hmain]
    rcases hsignal with ⟨hwait, htask⟩ | ⟨-, -, htask⟩
    · rw [hwait, htask]
      exact hs.armed
    · simp [htask]
  · rw [hstopped]
    rcases hsignal with ⟨-, htask⟩ | ⟨-, -, htask⟩
    · rw [htask]
      exact hs.stopped
    · simp [htask]
  · intro task htask hrunning
    rw [hqueue, hpc]
    rcases hsignal with ⟨-, heq⟩ | ⟨-, -, heq⟩
    · rw [heq] at htask
      exact (hs.handled task htask (hstopped ▸ hrunning)).imp_left fun hmem =>
        List.mem_append_left _ hmem
    · rw [heq] at htask
      cases htask
      exact .inl (List.mem_append_right _ (List.mem_singleton_self _))

theorem inv_step (s : State hardware) (a : Action hardware) (s' : State hardware) (hs : Inv s)
    (h : step s a = some s') : Inv s' := by
  obtain ⟨hmain, hstep⟩ := step_sound h
  have hstay := released_step hstep
  cases hstep with
  | main hstep => exact inv_main hs hstep
  | @arrive w hw hnew =>
    have harrived : ∀ u, s.arrived u = true → Function.update s.arrived w true u = true := by
      intro u hu
      by_cases heq : u = w
      · simp [heq]
      · simpa [heq] using hu
    refine ⟨hs.pool, ?_, ?_, fun hout => hs.quiet fun hold => hout (hstay hold), hs.waiting,
      hs.armed, hs.stopped, hs.handled⟩
    · have hstage := hs.stage
      change Stage _ s.main
      cases hm : s.main with
      | server | storage | run =>
        rw [hm] at hstage
        exact fun u => harrived u (hstage u)
      | joining i =>
        rw [hm] at hstage
        exact ⟨fun u => harrived u (hstage.1 u), hstage.2⟩
      | _ =>
        rw [hm] at hstage
        exact hstage
    · intro u hu
      by_cases heq : u = w
      · exact heq ▸ hw
      · exact hs.arrived u (by simpa [heq] using hu)
  | pool hreleased hallows hpool => exact hs.pool_step hmain hreleased hallows hpool
  | stop hreleased hhandling hstopped =>
    obtain ⟨task, htask, -⟩ := hhandling
    have htask : s.signalTask = some task := htask
    refine ⟨⟨hs.pool.accounted, hs.pool.counted, fun _ _ => rfl⟩,
      stage_returned (fun _ hw => hw) hs.stage, hs.arrived, hs.quiet,
      hs.waiting, hs.armed, fun _ => ?_, fun _ _ hrunning => ?_⟩
    · rw [show s.handle.signalTask = some task from htask]
      exact Option.some_ne_none task
    · cases hrunning
  | initiate => exact ⟨hs.pool, hs.stage, hs.arrived, hs.quiet, hs.waiting, hs.armed, hs.stopped,
      hs.handled⟩
  | complete => exact hs.post rfl rfl rfl rfl (.inl ⟨rfl, rfl⟩)
  | signal hwait number => exact hs.post rfl rfl rfl rfl (.inr ⟨hwait, rfl, rfl⟩)

theorem inv_initial : Inv ({} : State hardware) where
  pool := Threads.inv_initial
  stage := ⟨rfl, rfl, rfl⟩
  arrived _ h := by cases h
  quiet _ _ := rfl
  waiting h := by cases h
  armed h := by cases h
  stopped h := by cases h
  handled _ h := by cases h

theorem inv_exec {s : State hardware} {as : List (Action hardware)}
    (h : exec step {} as = some s) : Inv s :=
  exec_induct inv_step inv_initial h

/-! ## While the service is up -/

/-- The members of the application are being destroyed, or there is no application any more. -/
def Main.isGone : Main → Bool
  | .members | .destroyContext | .leaving | .exited _ => true
  | _ => false

namespace Inv

variable {s : State hardware}

theorem gone (hs : Inv s) (h : s.main.isGone = true) :
    s.made = 0 ∨ ∀ w, s.pool.pc w = .returned := by
  have hstage := hs.stage
  cases hm : s.main with
  | members | destroyContext | leaving | exited =>
    rw [hm] at hstage
    exact hstage
  | _ =>
    rw [hm] at h
    cases h

/-- A handler uses no member that is destroyed. -/
theorem gone_of_invoking (hs : Inv s) {w : Worker hardware} {task : Task}
    (hw : s.pool.pc w = .invoking task) : s.main.isGone = false := by
  by_contra hgone
  rcases hs.gone (Bool.eq_true_of_not_eq_false hgone) with hmade | hall
  · have hquiet := hs.quiet (fun hreleased => hs.made_pos hreleased hmade) w
    rw [hw] at hquiet
    cases hquiet
  · rw [hall w] at hw
    cases hw

end Inv

/-- What is logged last, and what is returned. -/
def Exited (s : State hardware) : Prop := ∀ result, s.main = .exited result →
  result = resultOf s.thrown ∧ s.log.getLast? = some "shutting down successfully"

theorem exited_step (s : State hardware) (a : Action hardware) (s' : State hardware)
    (hs : Inv s ∧ Exited s) (h : step s a = some s') : Inv s' ∧ Exited s' := by
  refine ⟨inv_step s a s' hs.1 h, fun result hresult => ?_⟩
  cases (step_sound h).2 with
  | main hmain =>
    cases hmain with
    | leave =>
      cases hresult
      exact ⟨rfl, by simp [State.next]⟩
    | makeThread hm =>
      rw [show s.addThread.main = s.main from rfl, hm] at hresult
      cases hresult
    | _ => cases hresult
  | stop hreleased hhandling =>
    obtain ⟨task, -, hw⟩ := hhandling
    have hgone := hs.1.gone_of_invoking hw
    rw [show s.main = .exited result from hresult] at hgone
    cases hgone
  | arrive | pool | initiate | complete | signal => exact hs.2 result hresult

/-- In every run, the service is there until a signal has come: no thread leaves the context, which
never runs out of work, and if there is a pool, the application is not destroyed. Only one signal
is handled. A handler runs only while the application is there, and no handler runs twice. What
`run` returns tells of an exception, the last line of the log does not. -/
theorem service_outlives_handlers {as : List (Action hardware)} {s : State hardware}
    (hrun : exec step {} as = some s) :
    (s.signalTask = none → s.pool.stopped = false ∧ (∀ w, s.pool.pc w ≠ .returned) ∧
      (s.main.isGone = true → s.made = 0)) ∧
    (s.signalTask ≠ none → ∀ number, step s (.signal number) = none) ∧
    step s (.pool .runOut) = none ∧
    (∀ w task, s.pool.pc w = .invoking task → s.main.isGone = false) ∧
    s.pool.invoked.Nodup ∧
    ∀ result, s.main = .exited result →
      result = resultOf s.thrown ∧ s.log.getLast? = some "shutting down successfully" := by
  have hs := inv_exec hrun
  refine ⟨fun hnone => ?_, fun hsome number => ?_, ?_, fun w task hw => hs.gone_of_invoking hw, ?_,
    (exec_induct exited_step ⟨inv_initial, fun _ h => by cases h⟩ hrun).2⟩
  · have hstopped : s.pool.stopped = false := by
      by_contra hstopped
      exact hs.stopped (Bool.eq_true_of_not_eq_false hstopped) hnone
    have hreturned : ∀ w, s.pool.pc w ≠ .returned := by
      intro w hw
      rw [hs.pool.returned w hw] at hstopped
      cases hstopped
    refine ⟨hstopped, hreturned, fun hgone => (hs.gone hgone).resolve_right fun hall => ?_⟩
    exact hreturned 0 (hall 0)
  · cases hstep : step s (.signal number) with
    | none => rfl
    | some s' =>
      obtain ⟨-, hsignal⟩ := step_sound hstep
      cases hsignal with
      | signal hwait => exact absurd (hs.waiting hwait) hsome
  · cases hstep : step s (.pool .runOut) with
    | none => rfl
    | some s' =>
      obtain ⟨hmain, hpool⟩ := step_sound hstep
      cases hpool with
      | pool hreleased hallows hrunOut =>
        cases Threads.step_sound hrunOut with
        | runOut hout =>
          have := hs.has_work hmain hreleased hallows.1 hallows.2.1
          omega
  · have hnodup := hs.pool.accounted.nodup_iff.mpr List.nodup_range
    exact (List.nodup_append.mp hnodup).2.1

/-! ## Winding up -/

/-- The steps of threads that go on with what they have to do. -/
def Action.winds : Action hardware → Bool
  | .main _ | .arrive _ | .stop _ => true
  | .pool .post | .pool (.spawn _) => false
  | .pool _ => true
  | .initiate _ | .complete | .signal _ => false

/-- The steps a thread has left at most, but for new tasks. -/
def pcRank (stopped : Bool) : Pc → Nat
  | .checking => if stopped then 1 else 3
  | .running => 2
  | .invoking _ => 5
  | .caught _ => 4
  | .returned => 0

namespace State

variable (s : State hardware)

def mainRank : Nat :=
  match s.main with
  | .context => 2 * nThreads hardware + 12
  | .signalSet => 2 * nThreads hardware + 11
  | .threads => (nThreads hardware - s.made) + nThreads hardware + 10
  | .barrier => nThreads hardware + 9
  | .server => nThreads hardware + 8
  | .storage => nThreads hardware + 7
  | .run => nThreads hardware + 6
  | .joining i => (nThreads hardware - i) + 5
  | .members => 4
  | .destroyContext => 3
  | .leaving => 2
  | .exited _ | .terminated => 0

def arriveRank : Nat := ∑ w, (!s.arrived w).toNat

def poolRank : Nat :=
  ∑ w, pcRank s.pool.stopped (s.pool.pc w) + 4 * s.pool.queue.length + (!s.pool.stopped).toNat

def rank : Nat := s.mainRank + s.arriveRank + s.poolRank

end State

theorem mainRank_main {s s' : State hardware} (h : MainStep s s') :
    s'.mainRank < s.mainRank := by
  cases h with
  | makeThread h hmade =>
    simp only [State.mainRank, State.addThread, h]
    omega
  | terminate h => rcases h with h | h <;> simp [State.mainRank, State.next, h]
  | makeContext h | noContext h | wait h | noWait h | allThreads h | noThread h | pass h
  | makeServer h | noServer h | openStorage h | run h | noRun h | join h | allJoined h
  | destroyMembers h | destroyContext h | leave h =>
    simp only [State.mainRank, State.next, State.unwind, State.trace, h]
    omega

/-- Threads have less to do in a context that is stopped. -/
theorem sum_pcRank_stopped (pc : Worker hardware → Pc) (stopped : Bool) :
    ∑ w, pcRank true (pc w) ≤ ∑ w, pcRank stopped (pc w) := by
  refine Finset.sum_le_sum fun w _ => ?_
  cases stopped with
  | true => exact Nat.le_refl _
  | false => cases pc w <;> simp [pcRank]

theorem poolRank_pool {s : State hardware} {action : Threads.Action (Worker hardware)}
    {p : Threads.State (Worker hardware)} (hallows : s.Allows action)
    (hwinds : (Action.pool action).winds = true) (h : Threads.step s.pool action = some p) :
    { s with pool := p }.poolRank < s.poolRank := by
  have hgoto : ∀ (w : Worker hardware) (pc : Pc),
      pcRank s.pool.stopped pc < pcRank s.pool.stopped (s.pool.pc w) →
      ∑ u, pcRank s.pool.stopped (Function.update s.pool.pc w pc u) <
        ∑ u, pcRank s.pool.stopped (s.pool.pc u) :=
    fun _ _ hlt => sum_update_lt (Finset.mem_univ _) hlt
  simp only [State.poolRank]
  cases Threads.step_sound h with
  | post | spawn => cases hwinds
  | runOut =>
    have hsum := sum_pcRank_stopped s.pool.pc s.pool.stopped
    simp only [hallows.1, Bool.not_false, Bool.not_true, Bool.toNat_true, Bool.toNat_false]
      at hsum ⊢
    omega
  | @check w hpc =>
    have hlt := hgoto w (if s.pool.stopped then .returned else .running)
      (by rw [hpc]; cases s.pool.stopped <;> decide)
    simp only [Threads.State.goto]
    omega
  | @take w i task hpc hi =>
    have hsum := sum_update_add s.pool.pc (.invoking task) (pcRank s.pool.stopped)
      (Finset.mem_univ w)
    have hlen := (List.getElem?_eq_some_iff.mp hi).1
    rw [hpc, show pcRank s.pool.stopped (.invoking task) = 5 from rfl,
      show pcRank s.pool.stopped .running = 2 from rfl] at hsum
    simp only [Threads.State.goto, Threads.State.take, List.length_eraseIdx_of_lt hlen]
    omega
  | @finish w task hpc =>
    have hlt := hgoto w .running (by simp [hpc, pcRank])
    simp only [Threads.State.goto, Threads.State.workFinished]
    omega
  | @throw w task thrown hpc =>
    have hlt := hgoto w (.caught thrown) (by simp [hpc, pcRank])
    simp only [Threads.State.goto, Threads.State.workFinished]
    omega
  | @report w thrown trace hpc =>
    have hlt := hgoto w .checking
      (by cases hs : s.pool.stopped <;> simp [hpc, pcRank])
    simp only [Threads.State.goto, Threads.State.error]
    omega
  | @leaveRun w hpc =>
    have hstopped : s.pool.stopped = true := hallows
    have hlt := hgoto w .checking (by simp [hpc, hstopped, pcRank])
    simp only [Threads.State.goto]
    omega

theorem Step.rank {s s' : State hardware} {a : Action hardware} (h : Step s a s')
    (ha : a.winds = true) : s'.rank < s.rank := by
  cases h with
  | main h =>
    have hmain := mainRank_main h
    obtain ⟨hpool, harrived, -⟩ := h.frame
    simp only [State.rank, State.arriveRank, State.poolRank, hpool, harrived]
    omega
  | @arrive w hw hnew =>
    have hlt : ∑ u, (!Function.update s.arrived w true u).toNat < ∑ u, (!s.arrived u).toNat :=
      sum_update_lt (r := fun b => (!b).toNat) (Finset.mem_univ w) (by simp [hnew])
    simp only [State.rank, State.mainRank, State.poolRank, State.arriveRank]
    omega
  | pool hreleased hallows hpool =>
    have hlt := poolRank_pool hallows ha hpool
    simp only [State.rank, State.mainRank, State.arriveRank]
    omega
  | stop hreleased hhandling hstopped =>
    have hmain : s.handle.mainRank = s.mainRank := rfl
    have harrive : s.handle.arriveRank = s.arriveRank := rfl
    have hpool : s.handle.poolRank < s.poolRank := by
      have hsum := sum_pcRank_stopped s.pool.pc s.pool.stopped
      simp only [State.poolRank, State.handle, State.trace, hstopped, Bool.not_false,
        Bool.not_true, Bool.toNat_true, Bool.toNat_false] at hsum ⊢
      omega
    simp only [State.rank]
    omega
  | initiate | complete | signal => cases ha

/-- The steps that are left, for any number of threads. -/
theorem rank_le (s : State hardware) :
    s.rank ≤ 8 * nThreads hardware + 4 * s.pool.queue.length + 13 := by
  have harrive : s.arriveRank ≤ nThreads hardware := by
    have hle := Finset.sum_le_card_nsmul Finset.univ (fun w => (!s.arrived w).toNat) 1
      fun w _ => Bool.toNat_le _
    simpa [State.arriveRank] using hle
  have hpcs : ∑ w, pcRank s.pool.stopped (s.pool.pc w) ≤ nThreads hardware * 5 := by
    have hle := Finset.sum_le_card_nsmul Finset.univ
      (fun w => pcRank s.pool.stopped (s.pool.pc w)) 5 fun w _ => by
        cases s.pool.pc w <;> cases s.pool.stopped <;> simp [pcRank]
    simpa using hle
  have hmain : s.mainRank ≤ 2 * nThreads hardware + 12 := by
    cases h : s.main <;> simp only [State.mainRank, h] <;> omega
  have hone := Bool.toNat_le (!s.pool.stopped)
  simp only [State.rank, State.poolRank]
  omega

/-! ### At rest -/

/-- Nothing is left to do for the threads. -/
def Rests (s : State hardware) : Prop := ∀ a : Action hardware, a.winds = true → step s a = none

section
variable {s : State hardware}

/-- The main thread waits in `~ThreadPool` or has come to its end. -/
theorem Rests.main (hrest : Rests s) (hs : Inv s) :
    (∃ i, s.main = .joining i ∧ s.Released ∧
      ∃ hi : i < nThreads hardware, s.pool.pc ⟨i, hi⟩ ≠ .returned) ∨
    (∃ result, s.main = .exited result) ∨ s.main = .terminated := by
  have hstage := hs.stage
  have hmain := hrest (.main none) rfl
  cases hm : s.main with
  | context | signalSet | server | storage | run | members | destroyContext | leaving =>
    simp [step, State.mainStep, hm] at hmain
  | threads =>
    simp only [step, State.mainStep, hm, reduceCtorEq, if_false] at hmain
    split_ifs at hmain
  | barrier =>
    rw [hm] at hstage
    have hreleased : s.Released := by
      refine ⟨fun w => ?_, by simp [hm]⟩
      by_contra hnew
      have harrive := hrest (.arrive w) rfl
      have hlt : w.val < s.made := w.isLt.trans_eq (Eq.symm hstage)
      simp [step, hm, hlt, hnew] at harrive
    simp [step, State.mainStep, hm, hreleased] at hmain
  | joining i =>
    rw [hm] at hstage
    refine .inl ⟨i, rfl, ⟨hstage.1, by simp [hm]⟩, ?_⟩
    by_contra hnot
    simp only [step, State.mainStep, hm, reduceCtorEq, if_false] at hmain
    split_ifs at hmain with hi hreturned
    exact hnot ⟨hi, hreturned⟩
  | exited result => exact .inr (.inl ⟨result, rfl⟩)
  | terminated => exact .inr (.inr rfl)

/-- A thread of the pool has returned, or waits for a task. -/
theorem Rests.worker (hrest : Rests s) (hmain : s.main ≠ .terminated)
    (hreleased : s.Released) (w : Worker hardware) :
    s.pool.pc w = .returned ∨
      (s.pool.pc w = .running ∧ s.pool.stopped = false ∧ s.pool.queue = []) := by
  have hpool : ∀ action : Threads.Action (Worker hardware), (Action.pool action).winds = true →
      s.Allows action → Threads.step s.pool action = none := by
    intro action hwinds hallows
    have hnone := hrest (.pool action) hwinds
    simpa [step, hmain, hreleased, hallows] using hnone
  cases hw : s.pool.pc w with
  | returned => exact .inl rfl
  | checking =>
    have hcheck := hpool (.check w) rfl trivial
    simp [Threads.step, hw] at hcheck
  | caught thrown =>
    have hreport := hpool (.report w "") rfl trivial
    simp [Threads.step, hw] at hreport
  | invoking task =>
    have hfinish := hpool (.finish w) rfl
    by_cases hhandling : s.Handling w ∧ s.pool.stopped = false
    · have hstop := hrest (.stop w) rfl
      simp [step, hmain, hreleased, hhandling] at hstop
    · have hallows : s.Allows (.finish w) := by
        intro hw
        by_contra hstopped
        exact hhandling ⟨hw, Bool.eq_false_of_not_eq_true hstopped⟩
      have hnone := hfinish hallows
      simp [Threads.step, hw] at hnone
  | running =>
    cases hstopped : s.pool.stopped with
    | true =>
      have hleave := hpool (.leaveRun w) rfl hstopped
      simp [Threads.step, hw] at hleave
    | false =>
      have htake := hpool (.take w 0) rfl hstopped
      cases hq : s.pool.queue with
      | nil => exact .inr ⟨rfl, rfl, rfl⟩
      | cons task queue => simp [Threads.step, hw, hq] at htake

/-- A thread that the main thread waits for waits for a task, and so do all of them. -/
theorem Rests.idle (hrest : Rests s) (hs : Inv s) {i : Nat} (hmain : s.main = .joining i)
    (hreleased : s.Released)
    (hi : ∃ hi : i < nThreads hardware, s.pool.pc ⟨i, hi⟩ ≠ .returned) :
    s.pool.stopped = false ∧ s.pool.queue = [] ∧ ∀ w, s.pool.pc w = .running := by
  have hmain : s.main ≠ .terminated := by simp [hmain]
  obtain ⟨hi, hout⟩ := hi
  obtain ⟨-, hstopped, hqueue⟩ := (hrest.worker hmain hreleased ⟨i, hi⟩).resolve_left hout
  refine ⟨hstopped, hqueue, fun w => ?_⟩
  rcases hrest.worker hmain hreleased w with hw | hw
  · rw [hs.pool.returned w hw] at hstopped
    cases hstopped
  · exact hw.1

end

/-- When `run` has returned, nothing is left to do. -/
theorem rests_of_exited {s : State hardware} (hs : Inv s) {result : Util.Result}
    (hmain : s.main = .exited result) : Rests s := by
  have hgone := hs.gone (by rw [hmain]; rfl)
  have hpool : ∀ action : Threads.Action (Worker hardware), (Action.pool action).winds = true →
      s.Released → s.Allows action → Threads.step s.pool action = none := by
    intro action hwinds hreleased hallows
    have hall := hgone.resolve_left (hs.made_pos hreleased)
    cases action with
    | post | spawn => cases hwinds
    | runOut =>
      have hstopped := hallows.1
      rw [hs.pool.returned 0 (hall 0)] at hstopped
      cases hstopped
    | check w | take w | finish w | throw w | report w | leaveRun w =>
      simp [Threads.step, hall w]
  intro a ha
  cases a with
  | main failure => cases failure <;> simp [step, State.mainStep, hmain]
  | arrive w =>
    have hout : ¬(w.val < s.made ∧ s.arrived w = false) := by
      rintro ⟨hlt, hnew⟩
      have hall := hgone.resolve_left (by omega)
      by_cases hreleased : s.Released
      · rw [hreleased.1 w] at hnew
        cases hnew
      · have hquiet := hs.quiet hreleased w
        rw [hall w] at hquiet
        cases hquiet
    simp only [step, hmain, hout, reduceCtorEq, if_false]
  | pool action =>
    by_cases hallows : s.Released ∧ s.Allows action
    · simp [step, hmain, hallows, hpool action ha hallows.1 hallows.2]
    · simp [step, hmain, hallows]
  | stop w =>
    have hout : ¬s.Handling w := by
      rintro ⟨task, -, hw⟩
      have hthere := hs.gone_of_invoking hw
      rw [hmain] at hthere
      cases hthere
    simp [step, hmain, hout]
  | initiate | complete | signal => cases ha

/-- Four threads and a server that cannot be made: the exception waits for a signal. -/
def failedServer : List (Action 0) :=
  [.main none, .main none, .main none, .main none, .main none, .main none, .main none, .arrive 0,
    .arrive 1, .arrive 2, .arrive 3, .main none,
    .main (some ⟨.exception "use_certificate_chain", ""⟩), .pool (.check 2), .signal 15]

/-- A thread handles the signal, then all of them return. -/
def failedServerRest : List (Action 0) :=
  [.pool (.take 2 0), .stop 2, .pool (.finish 2), .pool (.leaveRun 2), .pool (.check 2),
    .pool (.check 0), .main none, .pool (.check 1), .pool (.check 3), .main none, .main none,
    .main none, .main none, .main none, .main none, .main none]

theorem service_outlives_handlers_failed_server :
    ∃ s, exec step {} (failedServer ++ failedServerRest) = some s ∧
      s.main = .exited ⟨.error, "use_certificate_chain "⟩ ∧
      s.log.getLast? = some "shutting down successfully" := by
  obtain ⟨s, hs, hmain⟩ : ∃ s, exec step {} (failedServer ++ failedServerRest) = some s ∧
      s.main = .exited ⟨.error, "use_certificate_chain "⟩ := ⟨_, rfl, rfl⟩
  obtain ⟨-, -, -, -, -, hexited⟩ := service_outlives_handlers hs
  exact ⟨s, hs, hmain, (hexited _ hmain).2⟩

end Zatestil.Application
