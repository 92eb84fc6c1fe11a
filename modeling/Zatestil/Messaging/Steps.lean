import Zatestil.Messaging.Requester

/-!
# What a step of the requester can do

`Step` lists the outcomes of a step once, with the state each one leaves, and `step_sound`
says that there are no others; later proofs never unfold the machine.
-/
namespace Zatestil.Messaging
open Library

namespace Call

variable (x : Nat) (c : Call)

@[simp] theorem abort_message : (c.abort x).message = c.message := by
  unfold abort
  split_ifs <;> rfl

@[simp] theorem abort_tm : (c.abort x).tm = c.tm := by
  unfold abort
  split_ifs <;> rfl

@[simp] theorem abort_pc : (c.abort x).pc = c.pc := by
  unfold abort
  split_ifs <;> rfl

@[simp] theorem abort_resumes : (c.abort x).resumes = c.resumes := by
  unfold abort
  split_ifs <;> rfl

@[simp] theorem abort_result : (c.abort x).result = c.result := by
  unfold abort
  split_ifs <;> rfl

end Call

namespace State

variable {C : Codec} {s t : State}

/-! ## What the updates leave -/

section Lookup

variable (s) (x n j : Nat)

@[simp, grind =] theorem modifyMessage_messages (f : TimedMessage → TimedMessage) (y : Nat) :
    (s.modifyMessage x f).messages y = if y = x then (s.messages x).map f else s.messages y :=
  Function.update_apply ..

@[simp, grind =] theorem modifyMessage_calls (f : TimedMessage → TimedMessage) :
    (s.modifyMessage x f).calls = s.calls := rfl

@[simp, grind =] theorem modifyMessage_tasks (f : TimedMessage → TimedMessage) :
    (s.modifyMessage x f).tasks = s.tasks := rfl

@[simp, grind =] theorem modifyCall_calls (f : Call → Call) (k : Nat) :
    (s.modifyCall n f).calls k = if k = n then (s.calls n).map f else s.calls k :=
  Function.update_apply ..

@[simp, grind =] theorem modifyCall_messages (f : Call → Call) :
    (s.modifyCall n f).messages = s.messages := rfl

@[simp, grind =] theorem modifyCall_tasks (f : Call → Call) :
    (s.modifyCall n f).tasks = s.tasks := rfl

@[simp, grind =] theorem addCall_calls (c : Call) (k : Nat) :
    (s.addCall n c).calls k = if k = n then some c else s.calls k :=
  Function.update_apply ..

@[simp, grind =] theorem addCall_messages (c : Call) : (s.addCall n c).messages = s.messages := rfl

@[simp, grind =] theorem setTask_tasks (task : Task) (k : Nat) :
    (s.setTask j task).tasks k = if k = j then some task else s.tasks k :=
  Function.update_apply ..

@[simp, grind =] theorem setTask_calls (task : Task) : (s.setTask j task).calls = s.calls := rfl

@[simp, grind =] theorem register_messages (m : Message) (y : Nat) :
    (s.register n m).messages y =
      if y = n then some ⟨m, none, none, false, {.entry}, [], 0, false⟩ else s.messages y :=
  Function.update_apply ..

@[simp, grind =] theorem register_timedMessages (m : Message) (id : UInt64) :
    (s.register n m).m_timedMessages id =
      if id = m.id then some n else s.m_timedMessages id :=
  Function.update_apply ..

@[simp, grind =] theorem register_calls (m : Message) : (s.register n m).calls = s.calls := rfl

@[simp, grind =] theorem cancel_calls (k : Nat) :
    (s.cancel x).calls k = (s.calls k).map (·.abort x) := rfl

@[simp, grind =] theorem cancel_messages : (s.cancel x).messages = s.messages := rfl

@[simp, grind =] theorem cancel_tasks : (s.cancel x).tasks = s.tasks := rfl

@[simp, grind =] theorem fail_calls (fault : Fault) : (s.fail fault).calls = s.calls := rfl

@[simp, grind =] theorem fail_tasks (fault : Fault) : (s.fail fault).tasks = s.tasks := rfl

@[simp, grind =] theorem eraseEntry_calls (id : UInt64) : (s.eraseEntry id).calls = s.calls := by
  unfold eraseEntry
  split <;> rfl

@[simp, grind =] theorem eraseEntry_tasks (id : UInt64) : (s.eraseEntry id).tasks = s.tasks := by
  unfold eraseEntry
  split <;> rfl

@[simp, grind =] theorem settle_calls (m : Message) :
    (s.settle x m).calls = (s.cancel x).calls := by
  funext k
  simp [settle]

@[simp, grind =] theorem settle_tasks (m : Message) : (s.settle x m).tasks = s.tasks := by
  simp [settle]

@[simp] theorem settle_sent (m : Message) : (s.settle x m).sent = s.sent := by
  unfold settle eraseEntry
  split <;> rfl

@[simp] theorem settle_fault (m : Message) : (s.settle x m).fault = s.fault := by
  unfold settle eraseEntry
  split <;> rfl

@[simp, grind =] theorem resume_calls (k : Nat) :
    (s.resume x n).calls k = if k = n then (s.calls n).map fun c =>
      { c with resumes := c.resumes + 1 } else s.calls k := by
  simp [resume]

@[simp, grind =] theorem resume_tasks : (s.resume x n).tasks = s.tasks := rfl

@[simp, grind =] theorem dropHandler_calls (k : Nat) :
    (s.dropHandler n x).calls k = if k = n then (s.calls n).map fun c =>
      { c with wait := .done } else s.calls k := by
  simp [dropHandler]

@[simp, grind =] theorem dropHandler_tasks : (s.dropHandler n x).tasks = s.tasks := rfl

variable (r : Runner)

@[simp, grind =] theorem enter_tasks (k : Nat) :
    (s.enter x r).tasks k = if r = .task k then some (.resuming x) else s.tasks k := by
  cases r <;> simp [enter, eq_comm]

@[simp, grind =] theorem enter_calls (k : Nat) :
    (s.enter x r).calls k = if r = .timer k then (s.calls k).map fun c =>
      { c with wait := .resuming } else s.calls k := by
  cases r <;> grind [enter]

@[simp] theorem enter_messages : (s.enter x r).messages = s.messages := by
  cases r <;> rfl

@[simp] theorem enter_sent : (s.enter x r).sent = s.sent := by
  cases r <;> rfl

@[simp] theorem enter_fault : (s.enter x r).fault = s.fault := by
  cases r <;> rfl

@[simp, grind =] theorem finish_tasks (k : Nat) :
    (s.finish x r).tasks k = if r = .task k then some .done else s.tasks k := by
  cases r <;> simp [finish, eq_comm]

@[simp, grind =] theorem finish_calls (k : Nat) :
    (s.finish x r).calls k = if r = .timer k then (s.calls k).map fun c =>
      { c with wait := .done } else s.calls k := by
  cases r <;> grind [finish]

@[simp] theorem finish_sent : (s.finish x r).sent = s.sent := by
  cases r <;> rfl

@[simp] theorem finish_fault : (s.finish x r).fault = s.fault := by
  cases r <;> rfl

end Lookup

/-! ## The outcomes of a step -/

/-- The handler `j` is about to look for a response, and will find the message `x`. -/
def Matches (C : Codec) (s : State) (j x : Nat) (m : Message) : Prop :=
  ∃ rawMessage, s.tasks j = some (.posted rawMessage) ∧ C.fromJson rawMessage = some m ∧
    m.type = .response ∧ s.m_timedMessages m.id = some x

/-- The outcomes of a step. -/
inductive Step (C : Codec) (s : State) : Act → State → Prop
  | shared {n : Nat} {m : Message} {x : Nat} (hn : s.calls n = none)
      (hx : s.m_timedMessages m.id = some x) :
      Step C s (.request n m) (s.addCall n ⟨m, x, .requested, .idle, 0, none⟩)
  | registered {n : Nat} {m : Message} (hn : s.calls n = none)
      (hx : s.m_timedMessages m.id = none) :
      Step C s (.request n m)
        ((s.register n m).addCall n ⟨m, n, .requested, .idle, 0, none⟩)
  | dangling {a : Act} (ha : a.requested = none) : Step C s a (s.fail .dangling)
  | coAwait {n : Nat} {c : Call} {tm : TimedMessage} (hc : s.calls n = some c)
      (htm : s.messages c.tm = some tm) (hpc : c.pc = .requested) (howners : tm.owners ≠ ∅) :
      Step C s (.coAwait n) ((s.modifyMessage c.tm fun tm =>
        { tm with owners := insert (.awaiter n) tm.owners }).modifyCall n fun c =>
          { c with pc := .awaiting })
  | storeHandle {n : Nat} {c : Call} {tm : TimedMessage} (hc : s.calls n = some c)
      (htm : s.messages c.tm = some tm) (hpc : c.pc = .awaiting) :
      Step C s (.storeHandle n) ((s.modifyMessage c.tm fun tm =>
        { tm with m_handle := some n }).modifyCall n fun c => { c with pc := .stored })
  | send {n : Nat} {c : Call} {tm : TimedMessage} (hc : s.calls n = some c)
      (htm : s.messages c.tm = some tm) (hpc : c.pc = .stored) :
      Step C s (.send n)
        { s.modifyCall n fun c => { c with pc := .sent } with
          sent := s.sent ++ [(n, C.toJson tm.m_message)] }
  | setExpiry {n : Nat} {c : Call} (hc : s.calls n = some c) (hpc : c.pc = .sent) :
      Step C s (.setExpiry n)
        ((s.cancel c.tm).modifyCall n fun c => { c with pc := .expirySet })
  | armWait {n : Nat} {c : Call} {tm : TimedMessage} (hc : s.calls n = some c)
      (htm : s.messages c.tm = some tm) (hpc : c.pc = .expirySet) (hres : c.result = none) :
      Step C s (.armWait n) ((s.modifyMessage c.tm fun tm =>
        { tm with owners := insert (.handler n) tm.owners }).modifyCall n fun c =>
          { c with pc := .armed, wait := .pending })
  | suspended {n : Nat} {c : Call} (hc : s.calls n = some c) (hpc : c.pc = .armed) :
      Step C s (.suspended n) (s.modifyCall n fun c => { c with pc := .returned })
  | arrive {j : Nat} {rawMessage : String} (hj : s.tasks j = none) :
      Step C s (.arrive j rawMessage) (s.setTask j (.posted rawMessage))
  | ignored {j : Nat} : Step C s (.dispatch j) (s.setTask j .done)
  | found {j x : Nat} {m : Message} (h : Matches C s j x m) :
      Step C s (.dispatch j) (s.setTask j (.found x m))
  | late {r : Runner} {x : Nat} {m : Message} {tm : TimedMessage}
      (ht : s.target r = some (x, m)) (htm : s.messages x = some tm)
      (hr : tm.m_response ≠ none) :
      Step C s (.set r) ((s.modifyMessage x fun tm =>
        { tm with processed := tm.processed ++ [m] }).finish x r)
  | resumed {r : Runner} {x n : Nat} {m : Message} {tm : TimedMessage}
      (ht : s.target r = some (x, m)) (htm : s.messages x = some tm)
      (hr : tm.m_response = none) (hn : tm.m_handle = some n) :
      Step C s (.set r) (((s.settle x m).resume x n).enter x r)
  | unhandled {r : Runner} {x : Nat} {m : Message} {tm : TimedMessage} {fault : Fault}
      (ht : s.target r = some (x, m)) (htm : s.messages x = some tm)
      (hr : tm.m_response = none) (hn : tm.m_handle = none) :
      Step C s (.set r) ((s.settle x m).fail fault)
  | setReturn {r : Runner} {x : Nat} (hr : s.resuming r = some x)
      (hstuck : (s.messages x).any TimedMessage.stuck = false) :
      Step C s (.setReturn r)
        ((s.modifyMessage x fun tm => { tm with locked := false }).finish x r)
  | endAwait {n : Nat} {c : Call} {tm : TimedMessage} {response : Message}
      (hc : s.calls n = some c) (htm : s.messages c.tm = some tm)
      (hr : tm.m_response = some response) (hres : c.resumes ≠ 0) (hnone : c.result = none) :
      Step C s (.endAwait n)
        (((s.modifyCall n fun c => { c with result := some response }).cancel
          c.tm).modifyMessage c.tm fun tm =>
            { tm with
              owners := tm.owners.erase (.awaiter n)
              stuck := tm.stuck || tm.locksAgain (.awaiter n) })
  | expire {n : Nat} {c : Call} (hc : s.calls n = some c) (hw : c.wait = .pending) :
      Step C s (.expire n) (s.modifyCall n fun c => { c with wait := .expired })
  | fire {n : Nat} {c : Call} (hc : s.calls n = some c) (hw : c.wait = .expired) :
      Step C s (.fire n) (s.modifyCall n fun c => { c with wait := .started })
  | abortedWait {n : Nat} {c : Call} (hc : s.calls n = some c) (hw : c.wait = .aborted) :
      Step C s (.abortedWait n) (s.dropHandler n c.tm)
  | destroy : Step C s .destroy { s with alive := false }

theorem advance_eq_some {n : Nat} {old new : Wait} (h : s.advance n old new = some t) :
    ∃ c, s.calls n = some c ∧ c.wait = old ∧
      t = s.modifyCall n fun c => { c with wait := new } := by
  obtain ⟨c, hc, h⟩ := Option.bind_eq_some_iff.mp h
  split_ifs at h with hw
  exact ⟨c, hc, hw, (Option.some.inj h).symm⟩

/-- A step of `await_suspend` finds its `Awaiter` gone, or does its work. -/
theorem suspending_eq_some {n : Nat} {pc : Pc} {next : Call → TimedMessage → State}
    (h : s.suspending n pc next = some t) :
    t = s.fail .dangling ∨ ∃ c tm, s.calls n = some c ∧ s.messages c.tm = some tm ∧
      c.pc = pc ∧ c.result = none ∧ t = next c tm := by
  obtain ⟨c, hc, h⟩ := Option.bind_eq_some_iff.mp h
  obtain ⟨tm, htm, h⟩ := Option.bind_eq_some_iff.mp h
  split_ifs at h with hpc hres
  · exact .inl (Option.some.inj h).symm
  · exact .inr ⟨c, tm, hc, htm, hpc, by simpa using hres, (Option.some.inj h).symm⟩

theorem dispatch_sound {j : Nat} (h : s.dispatch C j = some t) : Step C s (.dispatch j) t := by
  unfold dispatch at h
  split at h
  · rename_i rawMessage hj
    split at h
    · cases h
      exact .ignored
    · rename_i m hm
      split_ifs at h with htype halive
      · cases h
        exact .ignored
      · cases h
        exact .dangling rfl
      · split at h
        · cases h
          exact .ignored
        · rename_i x hx
          cases h
          exact .found ⟨rawMessage, hj, hm, by simpa using htype, hx⟩
  · cases h

theorem set_sound {r : Runner} (h : s.set r = some t) : Step C s (.set r) t := by
  obtain ⟨⟨x, m⟩, ht, h⟩ := Option.bind_eq_some_iff.mp h
  obtain ⟨tm, htm, h⟩ := Option.bind_eq_some_iff.mp h
  by_cases howners : tm.owners = ∅
  · rw [if_pos howners] at h
    cases h
    exact .dangling rfl
  rw [if_neg howners] at h
  by_cases hlocked : tm.locked = true
  · rw [if_pos hlocked] at h
    cases h
  rw [if_neg hlocked] at h
  by_cases hr : tm.m_response.isSome = true
  · rw [if_pos hr] at h
    cases h
    exact .late ht htm (Option.isSome_iff_ne_none.mp hr)
  · rw [if_neg hr] at h
    have hr : tm.m_response = none := by simpa using hr
    split at h
    · rename_i n hn
      cases h
      exact .resumed ht htm hr hn
    · rename_i hn
      cases h
      exact .unhandled ht htm hr hn

theorem endAwait_sound {n : Nat} (h : s.endAwait n = some t) : Step C s (.endAwait n) t := by
  obtain ⟨c, hc, h⟩ := Option.bind_eq_some_iff.mp h
  obtain ⟨tm, htm, h⟩ := Option.bind_eq_some_iff.mp h
  obtain ⟨response, hr, h⟩ := Option.bind_eq_some_iff.mp h
  split_ifs at h with hcond
  cases h
  exact .endAwait hc htm hr hcond.1 hcond.2

/-- Who is about to call `set`: a handler that has found the message, or a timer that has
expired. -/
theorem target_cases {r : Runner} {x : Nat} {m : Message} (h : s.target r = some (x, m)) :
    (∃ j, r = .task j ∧ s.tasks j = some (.found x m)) ∨
      ∃ n c tm, r = .timer n ∧ s.calls n = some c ∧ c.tm = x ∧ c.wait = .started ∧
        s.messages x = some tm ∧ m = timedOut tm.m_message := by
  cases r with
  | task j =>
    simp only [target] at h
    split at h
    · rename_i hj
      cases h
      exact .inl ⟨j, rfl, hj⟩
    · cases h
  | timer n =>
    obtain ⟨c, hc, h⟩ := Option.bind_eq_some_iff.mp h
    obtain ⟨tm, htm, h⟩ := Option.bind_eq_some_iff.mp h
    split_ifs at h with hw
    cases h
    exact .inr ⟨n, c, tm, rfl, hc, rfl, hw, htm, rfl⟩

/-- A step is possible only while nothing undefined has happened. -/
theorem step_fault {a : Act} (h : step C s a = some t) : s.fault = none := by
  by_contra hfault
  unfold step at h
  rw [if_pos (Option.isSome_iff_ne_none.mpr hfault)] at h
  cases h

theorem step_sound {a : Act} (h : step C s a = some t) : Step C s a t := by
  unfold step at h
  by_cases hfault : s.fault.isSome = true
  · rw [if_pos hfault] at h
    cases h
  rw [if_neg hfault] at h
  cases a with
  | request n m =>
    simp only [request] at h
    split_ifs at h with hcond
    split at h
    · rename_i x hx
      cases h
      exact .shared hcond.2 hx
    · rename_i hx
      cases h
      exact .registered hcond.2 hx
  | coAwait n =>
    obtain ⟨c, hc, h⟩ := Option.bind_eq_some_iff.mp h
    obtain ⟨tm, htm, h⟩ := Option.bind_eq_some_iff.mp h
    split_ifs at h with hpc howners
    · cases h
      exact .dangling rfl
    · cases h
      exact .coAwait hc htm hpc howners
  | storeHandle n =>
    obtain rfl | ⟨c, tm, hc, htm, hpc, hres, rfl⟩ := suspending_eq_some h
    · exact .dangling rfl
    · exact .storeHandle hc htm hpc
  | send n =>
    obtain rfl | ⟨c, tm, hc, htm, hpc, hres, rfl⟩ := suspending_eq_some h
    · exact .dangling rfl
    · exact .send hc htm hpc
  | setExpiry n =>
    obtain rfl | ⟨c, tm, hc, htm, hpc, hres, rfl⟩ := suspending_eq_some h
    · exact .dangling rfl
    · exact .setExpiry hc hpc
  | armWait n =>
    obtain rfl | ⟨c, tm, hc, htm, hpc, hres, rfl⟩ := suspending_eq_some h
    · exact .dangling rfl
    · exact .armWait hc htm hpc hres
  | suspended n =>
    obtain ⟨c, hc, h⟩ := Option.bind_eq_some_iff.mp h
    split_ifs at h with hpc
    cases h
    exact .suspended hc hpc
  | arrive j rawMessage =>
    simp only [arrive] at h
    split_ifs at h with hcond
    cases h
    exact .arrive hcond.2
  | dispatch j => exact dispatch_sound h
  | useErased j =>
    simp only [useErased] at h
    split at h
    · split_ifs at h
      cases h
      exact .dangling rfl
    · cases h
  | set r => exact set_sound h
  | setReturn r =>
    obtain ⟨x, hx, h⟩ := Option.bind_eq_some_iff.mp h
    split_ifs at h with hstuck
    cases h
    exact .setReturn hx (by simpa using hstuck)
  | endAwait n => exact endAwait_sound h
  | expire n =>
    obtain ⟨c, hc, hw, rfl⟩ := advance_eq_some h
    exact .expire hc hw
  | fire n =>
    obtain ⟨c, hc, hw, rfl⟩ := advance_eq_some h
    exact .fire hc hw
  | abortedWait n =>
    obtain ⟨c, hc, h⟩ := Option.bind_eq_some_iff.mp h
    split_ifs at h with hw
    cases h
    exact .abortedWait hc hw
  | destroy =>
    dsimp only at h
    split_ifs at h
    cases h
    exact .destroy

end State

end Zatestil.Messaging
