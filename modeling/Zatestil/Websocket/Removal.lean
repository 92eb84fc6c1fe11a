import Zatestil.Websocket.Session

/-!
# Removing a handler

`unsetHandle` takes a handler out of the map, but `onRead` has copied the map and posted calls
before. A handler is gone for good when it is in none of these places: its id is never given
out again, and every later copy of the map is without it. So nothing calls it any more if no
call is on its way when it is removed.
-/
namespace Zatestil.Websocket
open Library

namespace Link

variable {F : FlatBuffer} {H : Type} {s t : Link F H} {a : Action H} {id : Nat}

/-- No task for the handler is waiting, and no running `onRead` is going to post one. -/
def Idle (s : Link F H) (id : Nat) : Prop :=
  (∀ task ∈ s.tasks, task.id ≠ id) ∧ ∀ task ∈ s.phase.unposted, task.id ≠ id

/-- Handlers are removed only while they are idle. -/
def RemovesIdle (s : Link F H) : Action H → Prop
  | .unsetHandle id => s.Idle id
  | _ => True

/-- The handler is nowhere, and its id has been given out. -/
structure Gone (id : Nat) (s : Link F H) : Prop where
  given : id < s.handles.handleId
  unregistered : s.handles.m_handles.lookup id = none
  idle : s.Idle id

theorem gone_unsetHandle (hid : id < s.handles.handleId) (hidle : s.Idle id) :
    ({ s with handles := (s.handles.unsetHandle id).1 } : Link F H).Gone id where
  given := hid
  unregistered := by simp [Handles.lookup_unsetHandle]
  idle := hidle

theorem mem_tasksFor {text : Text} {handlers : List (Nat × H)} {task : Task H}
    (h : task ∈ tasksFor text handlers) : (task.id, task.handler) ∈ handlers := by
  obtain ⟨e, he, rfl⟩ := List.mem_map.mp h
  exact he

/-- What is gone stays gone. -/
theorem Step.gone (h : Step s a t) (hs : s.Gone id) : t.Gone id := by
  obtain ⟨hgiven, hunreg, htasks, hunposted⟩ := hs
  cases h with
  | send | fill | write | writeError | deliver => exact ⟨hgiven, hunreg, htasks, hunposted⟩
  | readDone | readError | readClosed | rearm | stop =>
    exact ⟨hgiven, hunreg, htasks, by simp [ReadPhase.unposted]⟩
  | onRead hp =>
    refine ⟨hgiven, hunreg, htasks, fun task htask hid => ?_⟩
    have hmem := SortedMap.lookup_eq_some.mpr (mem_tasksFor htask)
    rw [hid, hunreg] at hmem
    cases hmem
  | post rawMessage e handlers hp =>
    rw [hp] at hunposted
    have hnew : e.1 ≠ id := hunposted ⟨e.1, e.2, rawMessage⟩ (List.mem_cons_self ..)
    refine ⟨hgiven, hunreg, fun task htask => ?_, fun task htask => ?_⟩
    · rcases List.mem_append.mp htask with htask | htask
      · exact htasks task htask
      · rw [List.mem_singleton.mp htask]
        exact hnew
    · exact hunposted task (List.mem_cons_of_mem _ htask)
  | setHandle handle =>
    refine ⟨Nat.lt_succ_of_lt hgiven, ?_, htasks, hunposted⟩
    rw [Handles.lookup_setHandle_of_ne hgiven.ne, hunreg]
  | setHandleElsewhere => exact ⟨Nat.lt_succ_of_lt hgiven, hunreg, htasks, hunposted⟩
  | unsetHandle other =>
    refine ⟨hgiven, ?_, htasks, hunposted⟩
    simp [Handles.lookup_unsetHandle, hunreg]
  | runTask n task hn =>
    exact ⟨hgiven, hunreg, fun task htask => htasks task (List.mem_of_mem_eraseIdx htask),
      hunposted⟩
  | close clears =>
    refine ⟨?_, ?_, htasks, hunposted⟩
    · cases clears <;> exact hgiven
    · cases clears
      · exact hunreg
      · rfl

/-- A step only adds to the calls, and only calls of waiting tasks. -/
theorem Step.calls (h : Step s a t) :
    ∃ later, t.calls = s.calls ++ later ∧ ∀ task ∈ later, task ∈ s.tasks := by
  cases h with
  | runTask n task hn => exact ⟨[task], rfl, by simpa using List.mem_of_getElem? hn⟩
  | _ => exact ⟨[], by simp, by simp⟩

theorem calls_of_gone (hs : s.Gone id) {as : List (Action H)}
    (h : exec step s as = some t) :
    ∃ later, t.calls = s.calls ++ later ∧ ∀ task ∈ later, task.id ≠ id := by
  have hkeep : ∀ (u : Link F H) (a : Action H) (v : Link F H),
      (u.Gone id ∧ ∃ later, u.calls = s.calls ++ later ∧ ∀ task ∈ later, task.id ≠ id) →
      u.step a = some v →
      v.Gone id ∧ ∃ later, v.calls = s.calls ++ later ∧ ∀ task ∈ later, task.id ≠ id := by
    rintro u a v ⟨hgone, later, hcalls, hlater⟩ huv
    have hstep := step_cases huv
    obtain ⟨new, hnew, hmem⟩ := hstep.calls
    refine ⟨hstep.gone hgone, later ++ new, by rw [hnew, hcalls, List.append_assoc], ?_⟩
    intro task htask
    rcases List.mem_append.mp htask with htask | htask
    · exact hlater task htask
    · exact hgone.idle.1 task (hmem task htask)
  exact (exec_induct hkeep ⟨hs, [], by simp, by simp⟩ h).2

/-! ## A handler that is not idle -/

/-- Left to itself, `onRead` posts all its tasks. -/
theorem exists_posts {rawMessage : Text} {handlers : List (Nat × H)}
    (h : s.phase = .posting rawMessage handlers) :
    ∃ as t, exec step s as = some t ∧ t.tasks = s.tasks ++ tasksFor rawMessage handlers ∧
      t.calls = s.calls := by
  induction handlers generalizing s with
  | nil => exact ⟨[], s, rfl, by simp [tasksFor], rfl⟩
  | cons e handlers ih =>
    let u : Link F H := { s with
      phase := .posting rawMessage handlers
      tasks := s.tasks ++ [⟨e.1, e.2, rawMessage⟩]
      posted := s.posted ++ [⟨e.1, e.2, rawMessage⟩] }
    have hu : s.step .post = some u := by simp only [step, h, u]
    obtain ⟨as, t, ht, htasks, hcalls⟩ := @ih u rfl
    exact ⟨.post :: as, t, exec_cons.mpr ⟨u, hu, ht⟩, by simp [htasks, u, tasksFor], hcalls⟩

theorem exists_call {task : Task H} (h : task ∈ s.tasks) :
    ∃ n t, s.step (.runTask n) = some t ∧ t.calls = s.calls ++ [task] := by
  obtain ⟨n, hn⟩ := List.mem_iff_getElem?.mp h
  exact ⟨n, { s with tasks := s.tasks.eraseIdx n, calls := s.calls ++ [task] },
    by simp only [step, hn], rfl⟩

/-- Being idle is also necessary: a call that is on its way can be made. -/
theorem idle_of_never_called
    (h : ∀ as t, exec step s (.unsetHandle id :: as) = some t →
      ∃ later, t.calls = s.calls ++ later ∧ ∀ task ∈ later, task.id ≠ id) : s.Idle id := by
  let u : Link F H := { s with handles := (s.handles.unsetHandle id).1 }
  have hcall : ∀ as v task, exec step u as = some v → v.calls = s.calls → task ∈ v.tasks →
      task.id ≠ id := by
    intro as v task hv hcalls htask
    obtain ⟨n, t, ht, hlast⟩ := exists_call htask
    have hrun : exec step s (.unsetHandle id :: (as ++ [.runTask n])) = some t :=
      exec_cons.mpr ⟨u, rfl, exec_append.mpr ⟨v, hv, exec_cons.mpr ⟨t, ht, rfl⟩⟩⟩
    obtain ⟨later, hlater, hne⟩ := h _ t hrun
    rw [hlast, hcalls, List.append_cancel_left_eq] at hlater
    exact hne task (hlater ▸ List.mem_singleton_self task)
  constructor
  · exact fun task htask => hcall [] u task rfl rfl htask
  · intro task htask
    cases hp : s.phase with
    | posting rawMessage handlers =>
      rw [hp] at htask
      obtain ⟨as, v, hv, htasks, hcalls⟩ := exists_posts (s := u) hp
      exact hcall as v task hv hcalls (by rw [htasks]; exact List.mem_append_right _ htask)
    | _ =>
      rw [hp] at htask
      cases htask

end Link

/-- In every run in which handlers are removed only while no call of them is on its way, a
removed handler is never called again. -/
theorem removed_handler_never_called {F : FlatBuffer} {H : Type} (w : WBuffer F) (r : F.Buffer)
    (n : Nat) {as bs : List (Action H)} {id : Nat} {s t : Link F H}
    (hidle : Along Link.step Link.RemovesIdle (.init w r n) (as ++ .unsetHandle id :: bs))
    (hs : exec Link.step (.init w r n) as = some s) (hid : id < s.handles.handleId)
    (ht : exec Link.step s (.unsetHandle id :: bs) = some t) :
    ∃ later, t.calls = s.calls ++ later ∧ ∀ task ∈ later, task.id ≠ id := by
  obtain ⟨hquiet, -⟩ := hidle.rest hs
  obtain ⟨u, hu, ht⟩ := exec_cons.mp ht
  cases hu
  have hlater := Link.calls_of_gone (Link.gone_unsetHandle hid hquiet) ht
  exact hlater

/-- A handler that is called, removed, and not called by the message after that. -/
def removeIdleRun : List (Action String) :=
  [.setHandle "a", .send [1], .send [2], .fill, .write, .deliver, .readDone, .onRead, .post,
    .leaveOnRead, .runTask 0]

def receiveNextRun : List (Action String) :=
  [.fill, .write, .deliver, .readDone, .onRead, .leaveOnRead]

def quietLink : Link FlatBuffer.reference String := .init (.string []) ([], []) 0

theorem removed_handler_never_called_idle :
    ∃ s t, exec Link.step quietLink removeIdleRun = some s ∧
      exec Link.step s (.unsetHandle 0 :: receiveNextRun) = some t ∧
      t.fanouts.length = 2 ∧
      ∃ later, t.calls = s.calls ++ later ∧ ∀ task ∈ later, task.id ≠ 0 := by
  obtain ⟨s, t, hs, ht, hid, hidle, hlen⟩ : ∃ s t, exec Link.step quietLink removeIdleRun = some s ∧
      exec Link.step s (.unsetHandle 0 :: receiveNextRun) = some t ∧ 0 < s.handles.handleId ∧
      (s.tasks = [] ∧ s.phase.unposted = []) ∧ t.fanouts.length = 2 :=
    ⟨_, _, rfl, rfl, by decide, ⟨rfl, rfl⟩, rfl⟩
  refine ⟨s, t, hs, ht, hlen, removed_handler_never_called _ _ _ ?_ hs hid ht⟩
  have hother : ∀ a ∈ removeIdleRun ++ receiveNextRun, ∀ u : Link FlatBuffer.reference String,
      u.RemovesIdle a := by
    intro a ha u
    cases a with
    | unsetHandle id => simp [removeIdleRun, receiveNextRun] at ha
    | _ => trivial
  refine along_append (along_of_mem (fun a ha => hother a (List.mem_append_left _ ha)) _) ?_
  intro u hu
  obtain rfl : s = u := Option.some.inj (hs.symm.trans hu)
  refine ⟨⟨by simp [hidle.1], by simp [hidle.2]⟩, fun v _ => ?_⟩
  exact along_of_mem (fun a ha => hother a (List.mem_append_right _ ha)) v

/-- A message is read, the call is posted, the handler is removed, and then it is called. -/
theorem removed_handler_called_by_queued_task :
    ∃ s t, exec Link.step quietLink [.setHandle "a", .send [1], .fill, .write, .deliver,
        .readDone, .onRead, .post] = some s ∧ 0 < s.handles.handleId ∧
      exec Link.step s [.unsetHandle 0, .runTask 0] = some t ∧
      t.handles.m_handles.lookup 0 = none ∧
      s.calls = [] ∧ t.calls = [⟨0, "a", [1]⟩] :=
  ⟨_, _, rfl, by decide, rfl, rfl, rfl, rfl⟩

end Zatestil.Websocket
