import Mathlib.Tactic
import Zatestil.Library.Machine

/-!
# Worker threads

Any number of threads run `util::run` on one `io_context`. Tasks are numbered in the order in
which they are posted. Of the context, the model has the queue, the count of outstanding work and
the flag that `stopped()` reads; it takes tasks from anywhere in the queue, and `run()` may return
at any time, since nothing below depends on the choice. `invoked` is an observation that no step
reads.

1. Every task is in the queue or has been invoked, never both (`Inv.accounted`), and the count is
   that of the queued tasks and of those being invoked (`Inv.counted`).
2. So a context that ran out of work has invoked all its tasks, also if some of them threw
   (`tasks_invoked_exactly_once`).
-/
namespace Zatestil.Threads
open Library

/-- Tasks are named by a number. -/
abbrev Task := Nat

/-- What a task can throw. -/
inductive Thrown
  | exception (what : String)
  | unknown
  deriving DecidableEq

/-- Where a thread stands in `util::run`. -/
inductive Pc
  /-- At the condition of the loop. -/
  | checking
  /-- In `context.run()`, between two tasks. -/
  | running
  | invoking (task : Task)
  /-- In one of the handlers. -/
  | caught (thrown : Thrown)
  | returned
  deriving DecidableEq

def Pc.isInvoking : Pc → Bool
  | .invoking _ => true
  | _ => false

structure State (Worker : Type) where
  queue : List Task := []
  outstanding : Nat := 0
  stopped : Bool := false
  /-- How many tasks have been posted. -/
  posted : Nat := 0
  pc : Worker → Pc := fun _ => .checking
  log : List String := []
  invoked : List Task := []

inductive Action (Worker : Type)
  /-- `ThreadPool::post`, or another thread. -/
  | post
  /-- The context finds that it ran out of work. -/
  | runOut
  | check (w : Worker)
  | take (w : Worker) (i : Nat)
  /-- The task that a thread invokes posts another. -/
  | spawn (w : Worker)
  | finish (w : Worker)
  | throw (w : Worker) (thrown : Thrown)
  /-- `log::error`, with the text of the stack trace. -/
  | report (w : Worker) (trace : String)
  | leaveRun (w : Worker)

variable {Worker : Type} [DecidableEq Worker]

namespace State

variable (s : State Worker)

def goto (w : Worker) (pc : Pc) : State Worker := { s with pc := Function.update s.pc w pc }

/-- `context.post(func)`. -/
def post : State Worker :=
  { s with
    queue := s.queue ++ [s.posted]
    posted := s.posted + 1
    outstanding := s.outstanding + 1 }

def take (task : Task) (i : Nat) : State Worker :=
  { s with
    queue := s.queue.eraseIdx i
    invoked := s.invoked ++ [task] }

/-- A task has returned or thrown. -/
def workFinished : State Worker := { s with outstanding := s.outstanding - 1 }

def error (text : String) : State Worker := { s with log := s.log ++ [text] }

end State

/-- The text that the handler for `thrown` logs. -/
def errorText (trace : String) : Thrown → String
  | .exception what => "[threads] " ++ what ++ " " ++ trace
  | .unknown => "[threads] unknown error " ++ trace

def step (s : State Worker) : Action Worker → Option (State Worker)
  | .post => some s.post
  | .runOut => if s.outstanding = 0 then some { s with stopped := true } else none
  | .check w =>
    match s.pc w with
    | .checking => some (s.goto w (if s.stopped then .returned else .running))
    | _ => none
  | .take w i =>
    match s.pc w, s.queue[i]? with
    | .running, some task => some ((s.take task i).goto w (.invoking task))
    | _, _ => none
  | .spawn w =>
    match s.pc w with
    | .invoking _ => some s.post
    | _ => none
  | .finish w =>
    match s.pc w with
    | .invoking _ => some (s.workFinished.goto w .running)
    | _ => none
  | .throw w thrown =>
    match s.pc w with
    | .invoking _ => some (s.workFinished.goto w (.caught thrown))
    | _ => none
  | .report w trace =>
    match s.pc w with
    | .caught thrown => some ((s.error (errorText trace thrown)).goto w .checking)
    | _ => none
  | .leaveRun w =>
    match s.pc w with
    | .running => some (s.goto w .checking)
    | _ => none

/-- What a step can do. -/
inductive Step (s : State Worker) : Action Worker → State Worker → Prop
  | post : Step s .post s.post
  | runOut (h : s.outstanding = 0) : Step s .runOut { s with stopped := true }
  | check {w : Worker} (h : s.pc w = .checking) :
    Step s (.check w) (s.goto w (if s.stopped then .returned else .running))
  | take {w : Worker} {i : Nat} {task : Task} (h : s.pc w = .running)
    (hi : s.queue[i]? = some task) :
    Step s (.take w i) ((s.take task i).goto w (.invoking task))
  | spawn {w : Worker} {task : Task} (h : s.pc w = .invoking task) : Step s (.spawn w) s.post
  | finish {w : Worker} {task : Task} (h : s.pc w = .invoking task) :
    Step s (.finish w) (s.workFinished.goto w .running)
  | throw {w : Worker} {task : Task} {thrown : Thrown} (h : s.pc w = .invoking task) :
    Step s (.throw w thrown) (s.workFinished.goto w (.caught thrown))
  | report {w : Worker} {thrown : Thrown} {trace : String} (h : s.pc w = .caught thrown) :
    Step s (.report w trace) ((s.error (errorText trace thrown)).goto w .checking)
  | leaveRun {w : Worker} (h : s.pc w = .running) : Step s (.leaveRun w) (s.goto w .checking)

theorem step_sound {s s' : State Worker} {a : Action Worker} (h : step s a = some s') :
    Step s a s' := by
  cases a with
  | post =>
    cases h
    exact .post
  | runOut =>
    simp only [step] at h
    split_ifs at h with hout
    cases h
    exact .runOut hout
  | check w =>
    cases hpc : s.pc w <;> simp only [step, hpc] at h <;> cases h
    exact .check hpc
  | take w i =>
    cases hpc : s.pc w <;> cases hi : s.queue[i]? <;> simp only [step, hpc, hi] at h <;> cases h
    exact .take hpc hi
  | spawn w =>
    cases hpc : s.pc w <;> simp only [step, hpc] at h <;> cases h
    exact .spawn hpc
  | finish w =>
    cases hpc : s.pc w <;> simp only [step, hpc] at h <;> cases h
    exact .finish hpc
  | throw w thrown =>
    cases hpc : s.pc w <;> simp only [step, hpc] at h <;> cases h
    exact .throw hpc
  | report w trace =>
    cases hpc : s.pc w <;> simp only [step, hpc] at h <;> cases h
    exact .report hpc
  | leaveRun w =>
    cases hpc : s.pc w <;> simp only [step, hpc] at h <;> cases h
    exact .leaveRun hpc

/-! ## Accounting -/

variable [Fintype Worker]

/-- The threads that are invoking a task. -/
def busy (pc : Worker → Pc) : Finset Worker := {w | (pc w).isInvoking}

structure Inv (s : State Worker) : Prop where
  accounted : (s.queue ++ s.invoked).Perm (List.range s.posted)
  counted : s.outstanding = s.queue.length + (busy s.pc).card
  /-- A thread leaves the loop only after it has seen the flag. -/
  returned : ∀ w, s.pc w = .returned → s.stopped

theorem busy_update_of_not {pc : Worker → Pc} {w : Worker} {p : Pc} (h : (pc w).isInvoking = false)
    (hp : p.isInvoking = false) : busy (Function.update pc w p) = busy pc := by
  ext u
  by_cases hu : u = w
  · simp [busy, hu, h, hp]
  · simp [busy, hu]

theorem card_busy_start (pc : Worker → Pc) (w : Worker) (p : Pc) (h : (pc w).isInvoking = false)
    (hp : p.isInvoking = true) : (busy (Function.update pc w p)).card = (busy pc).card + 1 := by
  have hinsert : busy (Function.update pc w p) = insert w (busy pc) := by
    ext u
    by_cases hu : u = w
    · simp [busy, hu, hp]
    · simp [busy, hu]
  rw [hinsert, Finset.card_insert_of_notMem (by simp [busy, h])]

theorem card_busy_end (pc : Worker → Pc) (w : Worker) (p : Pc) (h : (pc w).isInvoking = true)
    (hp : p.isInvoking = false) : (busy (Function.update pc w p)).card + 1 = (busy pc).card := by
  rw [← card_busy_start (Function.update pc w p) w (pc w) (by simpa using hp) h]
  simp

omit [DecidableEq Worker] in
theorem inv_initial : Inv ({} : State Worker) := by
  constructor <;> simp [busy, Pc.isInvoking]

namespace Inv

variable {s : State Worker} {w : Worker} {pc : Pc}

theorem returned_update (hs : Inv s) (hreturned : pc = .returned → s.stopped) :
    ∀ u, Function.update s.pc w pc u = .returned → s.stopped := by
  intro u hu
  by_cases huw : u = w
  · rw [huw, Function.update_self] at hu
    exact hreturned hu
  · rw [Function.update_of_ne huw] at hu
    exact hs.returned u hu

theorem goto (hs : Inv s) (h : (s.pc w).isInvoking = false) (hpc : pc.isInvoking = false)
    (hreturned : pc = .returned → s.stopped) : Inv (s.goto w pc) where
  accounted := hs.accounted
  counted := by
    rw [State.goto, busy_update_of_not h hpc]
    exact hs.counted
  returned := hs.returned_update hreturned

omit [DecidableEq Worker] in
theorem post (hs : Inv s) : Inv s.post where
  accounted := by
    have hmove :
        (s.queue ++ [s.posted] ++ s.invoked).Perm (s.queue ++ s.invoked ++ [s.posted]) := by
      rw [List.append_assoc, List.append_assoc]
      exact List.perm_append_comm.append_left s.queue
    rw [State.post, List.range_succ]
    exact hmove.trans (hs.accounted.append_right _)
  counted := by
    have hcounted := hs.counted
    simp only [State.post, List.length_append, List.length_singleton]
    omega
  returned := hs.returned

theorem take {i : Nat} {task : Task} (hs : Inv s) (h : s.pc w = .running)
    (hi : s.queue[i]? = some task) : Inv ((s.take task i).goto w (.invoking task)) where
  accounted := by
    have hlt := (List.getElem?_eq_some_iff.mp hi).1
    have hqueue : (task :: s.queue.eraseIdx i).Perm s.queue := by
      have := List.getElem_cons_eraseIdx_perm hlt
      rwa [(List.getElem?_eq_some_iff.mp hi).2] at this
    have hmove : (s.queue.eraseIdx i ++ (s.invoked ++ [task])).Perm
        (task :: s.queue.eraseIdx i ++ s.invoked) := by
      rw [← List.append_assoc]
      exact List.perm_append_singleton task _
    exact hmove.trans ((hqueue.append_right _).trans hs.accounted)
  counted := by
    have hlt := (List.getElem?_eq_some_iff.mp hi).1
    have hcounted := hs.counted
    have hbusy := card_busy_start s.pc w (.invoking task) (by simp [h, Pc.isInvoking]) rfl
    simp only [State.goto, State.take, List.length_eraseIdx_of_lt hlt, hbusy]
    omega
  returned := hs.returned_update (by simp)

theorem workFinished {task : Task} (hs : Inv s) (h : s.pc w = .invoking task)
    (hpc : pc.isInvoking = false) (hreturned : pc ≠ .returned) :
    Inv (s.workFinished.goto w pc) where
  accounted := hs.accounted
  counted := by
    have hcounted := hs.counted
    have hbusy := card_busy_end s.pc w pc (by simp [h, Pc.isInvoking]) hpc
    simp only [State.goto, State.workFinished]
    omega
  returned := hs.returned_update fun hpc => absurd hpc hreturned

end Inv

theorem inv_step (s : State Worker) (a : Action Worker) (s' : State Worker) (hs : Inv s)
    (h : step s a = some s') : Inv s' := by
  cases step_sound h with
  | post => exact hs.post
  | runOut hout => exact ⟨hs.accounted, hs.counted, fun _ _ => rfl⟩
  | check hpc =>
    refine hs.goto (by simp [hpc, Pc.isInvoking]) ?_ ?_
    · split <;> rfl
    · intro hreturned
      by_contra hstopped
      simp [hstopped] at hreturned
  | take hpc hi => exact hs.take hpc hi
  | spawn hpc => exact hs.post
  | finish hpc => exact hs.workFinished hpc rfl (by simp)
  | throw hpc => exact hs.workFinished hpc rfl (by simp)
  | report hpc =>
    have herror : ∀ text, Inv (s.error text) :=
      fun _ => ⟨hs.accounted, hs.counted, hs.returned⟩
    exact (herror _).goto (by simp [State.error, hpc, Pc.isInvoking]) rfl (by simp)
  | leaveRun hpc => exact hs.goto (by simp [hpc, Pc.isInvoking]) rfl (by simp)

/-! ## Running out of work -/

/-- Tasks are posted from outside only before the context ran out of work. -/
def Timely (s : State Worker) (a : Action Worker) : Prop := a = .post → s.stopped = false

omit [DecidableEq Worker] in
theorem Inv.idle {s : State Worker} (hs : Inv s) (hout : s.outstanding = 0) :
    s.queue = [] ∧ ∀ w task, s.pc w ≠ .invoking task := by
  have hcounted := hs.counted
  refine ⟨List.length_eq_zero_iff.mp (by omega), fun w task hw => ?_⟩
  have hmem : w ∈ busy s.pc := by
    simp only [busy, Finset.mem_filter, Finset.mem_univ, true_and, hw]
    rfl
  have := Finset.card_pos.mpr ⟨w, hmem⟩
  omega

/-- A context that ran out of work stays without it. -/
theorem outstanding_step (s : State Worker) (a : Action Worker) (s' : State Worker)
    (hs : Inv s ∧ (s.stopped → s.outstanding = 0)) (ha : Timely s a) (h : step s a = some s') :
    Inv s' ∧ (s'.stopped → s'.outstanding = 0) := by
  obtain ⟨hinv, hout⟩ := hs
  refine ⟨inv_step s a s' hinv h, ?_⟩
  have hidle : s.stopped → ∀ w task, s.pc w ≠ .invoking task := fun hs => (hinv.idle (hout hs)).2
  cases step_sound h with
  | post =>
    intro hstopped
    rw [show s.post.stopped = s.stopped from rfl, ha rfl] at hstopped
    cases hstopped
  | runOut hzero => exact fun _ => hzero
  | spawn hpc => exact fun hstopped => absurd hpc (hidle hstopped _ _)
  | finish hpc => exact fun hstopped => absurd hpc (hidle hstopped _ _)
  | throw hpc => exact fun hstopped => absurd hpc (hidle hstopped _ _)
  | check | take | report | leaveRun => exact hout

/-- No task is invoked twice; and once a thread has returned from `util::run`, every task has been
invoked exactly once, whatever the tasks threw, if the tasks from outside came before the context
ran out of work. -/
theorem tasks_invoked_exactly_once {actions : List (Action Worker)} {s : State Worker}
    (hrun : exec step {} actions = some s) :
    s.invoked.Nodup ∧
    (Along step Timely {} actions → ∀ w, s.pc w = .returned →
      ∀ task < s.posted, s.invoked.count task = 1) := by
  have hinv : Inv s := exec_induct inv_step inv_initial hrun
  have hnodup : (s.queue ++ s.invoked).Nodup := hinv.accounted.nodup_iff.mpr List.nodup_range
  refine ⟨(List.nodup_append.mp hnodup).2.1, fun htimely w hw task htask => ?_⟩
  have hout := (exec_invariant outstanding_step ⟨inv_initial, by simp⟩ htimely hrun).2
  obtain ⟨hqueue, -⟩ := hinv.idle (hout (hinv.returned w hw))
  have haccounted := hinv.accounted
  rw [hqueue, List.nil_append] at haccounted hnodup
  exact List.count_eq_one_of_mem hnodup (haccounted.mem_iff.mpr (List.mem_range.mpr htask))

/-- Two threads and a task that posts another and throws; the other thread runs the second task
and finds that there is no more work. -/
theorem tasks_invoked_exactly_once_thrown :
    let actions : List (Action Bool) :=
      [.post, .check true, .check false, .take true 0, .spawn true, .throw true .unknown,
        .take false 0, .report true "", .finish false, .runOut, .check true, .leaveRun false,
        .check false]
    ∃ s, exec step {} actions = some s ∧ Along step Timely {} actions ∧
      s.pc true = .returned ∧ s.pc false = .returned ∧ s.posted = 2 ∧ s.invoked.Nodup ∧
      ∀ task < s.posted, s.invoked.count task = 1 := by
  intro actions
  have htimely : Along step Timely {} actions := by
    simp [Along, actions, Timely]
  have hrun : exec step {} actions = some _ := rfl
  obtain ⟨hnodup, hall⟩ := tasks_invoked_exactly_once hrun
  exact ⟨_, hrun, htimely, rfl, rfl, rfl, hnodup, hall htimely true rfl⟩

end Zatestil.Threads
