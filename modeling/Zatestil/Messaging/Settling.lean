import Zatestil.Messaging.Matching

/-!
# A requester that is left alone

Suppose that no more requests are made and no more texts arrive, while the callers go on with
what they have begun, handlers run and timers expire. Every such step lowers a rank (`rank`), so
there are only finitely many of them, whatever the order. Where none is left, every call is over.

* A message without a response has a caller whose timer is going to end the wait (`Timed`).
* A pointer to a message is kept only as long as its owner needs it (`Tight`), so the messages of
  finished calls are gone.
* A thread that waits for itself in `~TimedMessage` keeps nobody else from going on, since its
  message has no owner (`Step.stuck_kept`).

All of this holds for any number of threads, and also for callers that share a message. Of those
one is resumed, and the others wait for ever and hold the message (`requester_settles`).
-/
namespace Zatestil.Messaging
open Library

/-! ## Steps that end what was begun -/

/-- A step of the callers, the handlers or the timers that are there. -/
def Act.settles : Act → Bool
  | .request _ _ | .arrive _ _ | .destroy => false
  | _ => true

/-- The call that an action begins. -/
def Act.call : Act → Option Nat
  | .request n _ => some n
  | _ => none

/-- The handler that an action posts. -/
def Act.text : Act → Option Nat
  | .arrive j _ => some j
  | _ => none

/-- How many steps there are up to the return from `await_suspend`. -/
def Pc.rank : Pc → Nat
  | .requested => 6
  | .awaiting => 5
  | .stored => 4
  | .sent => 3
  | .expirySet => 2
  | .armed => 1
  | .returned => 0

def Wait.rank : Wait → Nat
  | .idle | .pending => 4
  | .expired => 3
  | .started => 2
  | .resuming | .aborted => 1
  | .done => 0

def Call.rank (c : Call) : Nat :=
  c.pc.rank + c.wait.rank + if c.result = none then 1 else 0

def Task.rank : Task → Nat
  | .posted _ => 3
  | .found _ _ => 2
  | .resuming _ => 1
  | .done => 0

theorem Call.rank_le (c : Call) : c.rank ≤ 11 := by
  rw [rank]
  cases c.pc <;> cases c.wait <;> simp only [Pc.rank, Wait.rank] <;> split_ifs <;> omega

theorem Task.rank_le (task : Task) : task.rank ≤ 3 := by
  cases task <;> simp [rank]

/-- `await_suspend` has set the expiry. -/
def Pc.isTimed : Pc → Bool
  | .expirySet | .armed | .returned => true
  | .requested | .awaiting | .stored | .sent => false

/-- The timer of the call is going to end its wait. -/
def Call.onTimer (c : Call) : Bool :=
  c.pc == .expirySet || c.wait == .pending || c.wait == .expired || c.wait == .started

/-- The message after a runner has given up its pointer. -/
def TimedMessage.release (r : Runner) (tm : TimedMessage) : TimedMessage :=
  match r with
  | .task _ => tm
  | .timer n => { tm with owners := tm.owners.erase (.handler n) }

namespace TimedMessage

variable (r : Runner) (tm : TimedMessage)

@[simp, grind =] theorem release_response : (tm.release r).m_response = tm.m_response := by
  cases r <;> rfl

@[simp, grind =] theorem release_locked : (tm.release r).locked = tm.locked := by
  cases r <;> rfl

@[simp, grind =] theorem release_stuck : (tm.release r).stuck = tm.stuck := by
  cases r <;> rfl

@[grind =] theorem mem_release (o : Owner) :
    o ∈ (tm.release r).owners ↔ o ∈ tm.owners ∧ ∀ n, r = .timer n → o ≠ .handler n := by
  cases r with
  | task j => simp [release]
  | timer n => simp [release, and_comm]

end TimedMessage

namespace State

variable {C : Codec} {s t : State} {a : Act} {as bs : List Act}

section Lookup

variable (s) (x n k : Nat)

/-! One call or message of an updated state; `grind` looks it up. -/

@[grind =] theorem fail_calls_apply (fault : Fault) : (s.fail fault).calls k = s.calls k := rfl

@[grind =] theorem modifyMessage_calls_apply (f : TimedMessage → TimedMessage) :
    (s.modifyMessage x f).calls k = s.calls k := rfl

@[grind =] theorem setTask_calls_apply (task : Task) : (s.setTask n task).calls k = s.calls k := rfl

@[grind =] theorem register_calls_apply (m : Message) : (s.register n m).calls k = s.calls k := rfl

@[grind =] theorem settle_calls_apply (m : Message) :
    (s.settle x m).calls k = (s.calls k).map (·.abort x) := by
  simp

@[grind =] theorem fail_settle_calls_apply (m : Message) (fault : Fault) :
    ((s.settle x m).fail fault).calls k = (s.calls k).map (·.abort x) := by
  simp

@[grind =] theorem cancel_modifyCall_calls_apply (f : Call → Call)
    (g : TimedMessage → TimedMessage) :
    (((s.modifyCall n f).cancel x).modifyMessage x g).calls k =
      if k = n then (s.calls n).map fun c => (f c).abort x
      else (s.calls k).map (·.abort x) := by
  by_cases h : k = n <;> simp [h, Function.comp_def]

@[grind =] theorem setTask_messages_apply (task : Task) :
    (s.setTask n task).messages k = s.messages k := rfl

@[grind =] theorem fail_messages_apply (fault : Fault) :
    (s.fail fault).messages k = s.messages k := rfl

@[grind =] theorem modifyCall_messages_apply (f : Call → Call) :
    (s.modifyCall n f).messages k = s.messages k := rfl

@[grind =] theorem addCall_messages_apply (c : Call) :
    (s.addCall n c).messages k = s.messages k := rfl

@[grind =] theorem cancel_messages_apply : (s.cancel x).messages k = s.messages k := rfl

@[grind =] theorem resume_messages_apply :
    (s.resume x n).messages k = if k = x then (s.messages x).map fun tm =>
      { tm with resumes := tm.resumes + 1 } else s.messages k := by
  simp [resume]

@[grind =] theorem dropHandler_messages_apply :
    (s.dropHandler n x).messages k = if k = x then (s.messages x).map fun tm =>
      { tm with owners := tm.owners.erase (.handler n) } else s.messages k := by
  simp [dropHandler]

@[grind =] theorem enter_messages_apply (r : Runner) :
    (s.enter x r).messages k = s.messages k := by
  rw [enter_messages]

@[grind =] theorem finish_messages_apply (r : Runner) :
    (s.finish x r).messages k =
      if k = x then (s.messages x).map (·.release r) else s.messages k := by
  cases r with
  | task j => by_cases h : k = x <;> simp [finish, setTask, TimedMessage.release, h]
  | timer n => simp [finish, dropHandler, TimedMessage.release]

end Lookup

/-- The message that is answered; the others stay as they are. -/
theorem Inv.settle_messages_apply (h : s.Inv) {r : Runner} {x : Nat} {m : Message}
    {tm : TimedMessage} (ht : s.target r = some (x, m)) (htm : s.messages x = some tm)
    (hr : tm.m_response = none) (k : Nat) :
    (s.settle x m).messages k = if k = x then some (tm.answered m) else s.messages k := by
  obtain ⟨-, hid, -⟩ := target_spec h ht htm
  rw [h.settle_eq htm hr hid, cancel_messages, answer_messages]

attribute [local grind =] Option.map_eq_some_iff

/-! ## The rank -/

theorem abort_rank_le (c : Call) (x : Nat) : (c.abort x).rank ≤ c.rank := by
  unfold Call.abort
  split_ifs with h
  · simp [Call.rank, Wait.rank, h.2]
  · exact le_rfl

theorem Step.call_rank_le (h : Step C s a t) (hI : s.Inv) {n : Nat} {c c' : Call}
    (hc : s.calls n = some c) (hc' : t.calls n = some c') : c'.rank ≤ c.rank := by
  obtain ⟨tm, -, hl⟩ := hI.linked n c hc
  have hidle : c.pc = .expirySet → c.wait = .idle := fun hpc => hl.idle (by rw [hpc]; rfl)
  cases h with
  | late ht | resumed ht =>
    rcases target_cases ht with ht | ht <;> grind [Call.rank, Call.abort, Wait.rank]
  | unhandled =>
    rw [fail_calls, settle_calls, cancel_calls, hc] at hc'
    grind [abort_rank_le]
  | endAwait =>
    simp only [modifyMessage_calls, cancel_calls, modifyCall_calls] at hc'
    grind [abort_rank_le, Call.rank, Call.abort_pc]
  | _ => grind [Call.rank, Call.abort, Pc.rank, Wait.rank]

/-- The steps that a handler, or nothing, has still to take. -/
def taskRank (s : State) (j : Nat) : Nat := (s.tasks j).elim 0 Task.rank

def callRank (s : State) (n : Nat) : Nat := (s.calls n).elim 0 Call.rank

theorem Step.taskRank_le (h : Step C s a t) (ha : a.settles = true) (j : Nat) :
    t.taskRank j ≤ s.taskRank j := by
  unfold taskRank
  cases h.taskMoved j with
  | same h => rw [h]
  | posted ha' => simp [ha', Act.settles] at ha
  | found _ hm h =>
    obtain ⟨rawMessage, hraw, -⟩ := hm
    simp [h, hraw, Task.rank]
  | resuming hj h => simp [h, hj, Task.rank]
  | done h => simp [h, Task.rank]

theorem Step.callRank_le (h : Step C s a t) (hI : s.Inv) (ha : a.settles = true) (n : Nat) :
    t.callRank n ≤ s.callRank n := by
  unfold callRank
  cases hc' : t.calls n with
  | none => simp
  | some c' =>
    rcases h.call_of hc' with ⟨c, hc, -⟩ | ⟨m, x, rfl, -⟩
    · rw [hc]
      exact h.call_rank_le hI hc hc'
    · simp [Act.settles] at ha

theorem posted_of_dispatch {j : Nat} (h : s.dispatch C j = some t) :
    ∃ rawMessage, s.tasks j = some (.posted rawMessage) := by
  unfold dispatch at h
  split at h
  · exact ⟨_, ‹_›⟩
  · cases h

theorem callRank_lt {n : Nat} {c c' : Call} (hc : s.calls n = some c) (hc' : t.calls n = some c')
    (h : c'.rank < c.rank) : t.callRank n < s.callRank n := by
  simpa [callRank, hc, hc'] using h

theorem resuming_cases {r : Runner} {x : Nat} (h : s.resuming r = some x) :
    (∃ j, r = .task j ∧ s.tasks j = some (.resuming x)) ∨
      ∃ n c, r = .timer n ∧ s.calls n = some c ∧ c.tm = x ∧ c.wait = .resuming := by
  cases r with
  | task j =>
    simp only [resuming] at h
    split at h
    · cases h
      exact .inl ⟨j, rfl, ‹_›⟩
    · cases h
  | timer n =>
    obtain ⟨c, hc, h⟩ := Option.bind_eq_some_iff.mp h
    split_ifs at h with hw
    cases h
    exact .inr ⟨n, c, rfl, hc, rfl, hw⟩

/-- Every step that settles gets somebody further. -/
theorem step_lowers (h : step C s a = some t) (hI : s.Inv) (ha : a.settles = true) :
    t.fault ≠ none ∨ (∃ n, t.callRank n < s.callRank n) ∨ ∃ j, t.taskRank j < s.taskRank j := by
  have hstep := step_sound h
  have hcall : ∀ n c, s.calls n = some c → (∀ c', t.calls n = some c' → c'.rank < c.rank) →
      ∃ n, t.callRank n < s.callRank n := by
    intro n c hc hlt
    obtain ⟨c', hc', -⟩ := hstep.call_kept hc
    exact ⟨n, callRank_lt hc hc' (hlt c' hc')⟩
  cases hstep with
  | shared | registered | arrive | destroy => simp [Act.settles] at ha
  | dangling | unhandled => exact .inl nofun
  | @ignored j | @found j =>
    obtain ⟨rawMessage, hraw⟩ := posted_of_dispatch (by simpa [step, step_fault h] using h)
    exact .inr (.inr ⟨j, by simp [taskRank, hraw, Task.rank]⟩)
  | late ht | resumed ht =>
    rcases target_cases ht with ⟨j, rfl, hj⟩ | ⟨n, c, -, rfl, hc, -, hw, -⟩
    · exact .inr (.inr ⟨j, by simp [taskRank, hj, Task.rank]⟩)
    · refine .inr (.inl (hcall n c hc fun c' hc' => ?_))
      grind [Call.rank, Call.abort, Wait.rank]
  | setReturn hr =>
    rcases resuming_cases hr with ⟨j, rfl, hj⟩ | ⟨n, c, rfl, hc, -, hw⟩
    · exact .inr (.inr ⟨j, by simp [taskRank, hj, Task.rank]⟩)
    · refine .inr (.inl (hcall n c hc fun c' hc' => ?_))
      grind [Call.rank, Wait.rank]
  | @endAwait n c _ _ hc =>
    refine .inr (.inl (hcall n c hc fun c' hc' => ?_))
    simp only [modifyMessage_calls, cancel_calls, modifyCall_calls] at hc'
    grind [Call.rank, abort_rank_le]
  | @armWait n c tm hc =>
    obtain ⟨tm, -, hl⟩ := hI.linked n c hc
    have hidle := hl.idle
    refine .inr (.inl (hcall n c hc fun c' hc' => ?_))
    grind [Call.rank, Pc.rank, Pc.isArmed, Wait.rank]
  | @setExpiry n c hc | @expire n c hc | @fire n c hc | @abortedWait n c hc | @coAwait n c _ hc
  | @storeHandle n c _ hc | @send n c _ hc | @suspended n c hc =>
    refine .inr (.inl (hcall n c hc fun c' hc' => ?_))
    grind [Call.rank, Pc.rank, Wait.rank, Call.abort]

/-! ## Timers -/

/-- A call that has set the expiry of an unanswered message waits for its own timer, or for that
of another call on the message. -/
def Timed (s : State) : Prop :=
  ∀ n c tm, s.calls n = some c → s.messages c.tm = some tm → tm.m_response = none →
    c.pc.isTimed = true → ∃ k d, s.calls k = some d ∧ d.tm = c.tm ∧ d.onTimer = true

theorem Step.armed (h : Step C s a t) (hs : ∀ n c, s.calls n = some c → c.pc.isArmed = true →
    c.wait ≠ .idle) {n : Nat} {c' : Call} (hc' : t.calls n = some c')
    (hpc' : c'.pc.isArmed = true) : c'.wait ≠ .idle := by
  have hn := hs n
  cases h with
  | dangling | arrive | ignored | found | destroy => exact hs n c' hc' hpc'
  | _ => grind [Call.abort, Pc.isArmed]

theorem Step.timed_of (h : Step C s a t) {n : Nat} {c c' : Call} (hc : s.calls n = some c)
    (hc' : t.calls n = some c') (hpc' : c'.pc.isTimed = true) :
    c.pc.isTimed = true ∨ c'.onTimer = true := by
  cases h with
  | dangling | arrive | ignored | found | destroy =>
    cases hc.symm.trans hc'
    exact .inl hpc'
  | _ => grind [Pc.isTimed, Call.abort, Call.onTimer]

/-- A timer goes on until its message is answered, or until another call sets the expiry. -/
theorem Step.onTimer_kept (h : Step C s a t) (hI : s.Inv) (ha : ∀ k, a ≠ .setExpiry k) {n : Nat}
    {c c' : Call} {tm' : TimedMessage} (hc : s.calls n = some c) (hon : c.onTimer = true)
    (hc' : t.calls n = some c') (htm' : t.messages c.tm = some tm') (hr' : tm'.m_response = none) :
    c'.onTimer = true := by
  have hidle : c.pc = .expirySet → c.wait = .idle := by
    obtain ⟨tm, -, hl⟩ := hI.linked n c hc
    exact fun hpc => hl.idle (by rw [hpc]; rfl)
  cases h with
  | dangling | arrive | ignored | found | destroy =>
    cases hc.symm.trans hc'
    exact hon
  | setExpiry => exact absurd rfl (ha _)
  | late ht => rcases target_cases ht with ht | ht <;> grind [Call.onTimer]
  | resumed ht htm hr =>
    have hmessages := hI.settle_messages_apply ht htm hr
    rcases target_cases ht with ht | ht <;>
      grind [Call.onTimer, Call.abort, TimedMessage.answered]
  | unhandled ht htm hr =>
    have hmessages := hI.settle_messages_apply ht htm hr
    grind [Call.onTimer, Call.abort, TimedMessage.answered]
  | setReturn hr => rcases resuming_cases hr with hr | hr <;> grind [Call.onTimer]
  | _ => grind [Call.onTimer, Call.abort]

/-- Who sets the expiry on a message takes over from the timers that this aborts. -/
theorem Step.onTimer_setExpiry {l : Nat} (h : Step C s (.setExpiry l) t) {k : Nat} {d : Call}
    (hd : s.calls k = some d) (hon : d.onTimer = true) :
    ∃ k d', t.calls k = some d' ∧ d'.tm = d.tm ∧ d'.onTimer = true := by
  cases h with
  | dangling => exact ⟨k, d, hd, rfl, hon⟩
  | @setExpiry _ c hc hpc =>
    by_cases hx : c.tm = d.tm
    · exact ⟨l, { c.abort c.tm with pc := .expirySet }, by simp [hc], by simpa using hx, rfl⟩
    · have hk : k ≠ l := by
        rintro rfl
        cases hd.symm.trans hc
        exact hx rfl
      refine ⟨k, d, ?_, rfl, hon⟩
      simp [hk, hd, Call.abort, Ne.symm hx]

theorem Step.timed (h : Step C s a t) (hI : s.Inv) (hs : s.Timed) : t.Timed := by
  intro n c' tm' hc' htm' hr' hpc'
  rcases h.call_of hc' with ⟨c, hc, hmoved⟩ | ⟨m, x, -, rfl⟩
  · rcases h.timed_of hc hc' hpc' with hpc | hon
    · obtain ⟨tm, htm, -⟩ := hI.linked n c hc
      obtain ⟨tm₁, htm₁, hchanged⟩ := h.message_kept hI htm
      rw [hmoved.tm] at htm' ⊢
      cases htm'.symm.trans htm₁
      have hr : tm.m_response = none := by
        rcases hchanged.response with heq | ⟨hr, -⟩
        · exact heq.symm.trans hr'
        · exact hr
      obtain ⟨k, d, hd, hdx, hon⟩ := hs n c tm hc htm hr hpc
      by_cases ha : ∃ l, a = .setExpiry l
      · obtain ⟨l, rfl⟩ := ha
        exact hdx ▸ h.onTimer_setExpiry hd hon
      · obtain ⟨d', hd', hmoved'⟩ := h.call_kept hd
        refine ⟨k, d', hd', hmoved'.tm.trans hdx, ?_⟩
        exact h.onTimer_kept hI (fun l hl => ha ⟨l, hl⟩) hd hon hd' (hdx ▸ htm') hr'
    · exact ⟨n, c', hc', rfl, hon⟩
  · cases hpc'

/-! ## Owners -/

/-- What a pointer to the message `x` is kept for. -/
def Needed (s : State) (x : Nat) (tm : TimedMessage) : Owner → Prop
  | .entry => tm.m_response = none
  | .awaiter n => ∃ c, s.calls n = some c ∧ c.tm = x ∧ c.result = none
  | .handler n => ∃ c, s.calls n = some c ∧ c.tm = x ∧ c.wait.live = true

/-- There are no other pointers. -/
def Tight (s : State) : Prop :=
  ∀ x tm o, s.messages x = some tm → o ∈ tm.owners → s.Needed x tm o

section

variable {x : Nat} {tm tm' : TimedMessage}

/-- How a message comes to have an owner. -/
theorem Step.owner_of (h : Step C s a t) (hI : s.Inv) (htm : s.messages x = some tm)
    (htm' : t.messages x = some tm') {o : Owner} (ho : o ∈ tm'.owners) :
    o ∈ tm.owners ∨ tm.owners ≠ ∅ ∧ ∃ n c, s.calls n = some c ∧ c.tm = x ∧
      (o = .awaiter n ∧ c.pc = .requested ∨ o = .handler n ∧ a = .armWait n) := by
  cases h with
  | dangling | arrive | ignored | found | destroy =>
    cases htm.symm.trans htm'
    exact .inl ho
  | resumed ht hx hr | unhandled ht hx hr =>
    have hmessages := hI.settle_messages_apply ht hx hr
    grind [TimedMessage.answered]
  | registered hn =>
    have hfresh := hI.fresh hn
    grind [-addCall_messages]
  | @armWait n c tm₀ hc htm₀ hpc hres =>
    -- the `Awaiter` that arms the wait holds the message
    have hawaiter := (hI.linked_of hc htm₀).awaiter (by simp [hpc]) hres
    have hne := Finset.ne_empty_of_mem hawaiter
    grind [-modifyCall_messages]
  | _ => grind [-addCall_messages, -modifyCall_messages, -cancel_messages]

/-- A stuck message has no owner any more, and stays locked. -/
theorem Step.stuck_kept (h : Step C s a t) (hI : s.Inv) (htm : s.messages x = some tm)
    (htm' : t.messages x = some tm') (hs : tm.stuck = true → tm.locked = true ∧ tm.owners = ∅)
    (hstuck : tm'.stuck = true) : tm'.locked = true ∧ tm'.owners = ∅ := by
  have howners : tm.owners = ∅ → tm'.owners = ∅ := by
    intro hempty
    refine Finset.eq_empty_of_forall_notMem fun o ho => ?_
    rcases h.owner_of hI htm htm' ho with hold | ⟨hne, -⟩
    · simp [hempty] at hold
    · exact hne hempty
  cases h with
  | dangling | arrive | ignored | found | destroy =>
    cases htm.symm.trans htm'
    exact hs hstuck
  | resumed ht hx hr | unhandled ht hx hr =>
    have hmessages := hI.settle_messages_apply ht hx hr
    grind [TimedMessage.answered]
  | registered hn =>
    have hfresh := hI.fresh hn
    grind [-addCall_messages]
  | endAwait => grind [TimedMessage.locksAgain, -modifyCall_messages, -cancel_messages]
  | _ => grind [-addCall_messages, -modifyCall_messages, -cancel_messages]

/-- A message that is answered loses its entry. -/
theorem Step.entry_of (h : Step C s a t) (hI : s.Inv) (htm : s.messages x = some tm)
    (htm' : t.messages x = some tm') (ho : .entry ∈ tm'.owners) :
    tm'.m_response = tm.m_response := by
  cases h with
  | dangling | arrive | ignored | found | destroy =>
    cases htm.symm.trans htm'
    rfl
  | resumed ht hx hr | unhandled ht hx hr =>
    have hmessages := hI.settle_messages_apply ht hx hr
    grind [TimedMessage.answered]
  | registered hn =>
    have hfresh := hI.fresh hn
    grind [-addCall_messages]
  | _ => grind [-addCall_messages, -modifyCall_messages, -cancel_messages]

/-- A result comes from `endAwait`, which drops the `Awaiter`. -/
theorem Step.result_of (h : Step C s a t) {n : Nat} {c c' : Call} (hc : s.calls n = some c)
    (hr : c.result = none) (hc' : t.calls n = some c') (hr' : c'.result ≠ none)
    (htm' : t.messages c.tm = some tm') : .awaiter n ∉ tm'.owners := by
  cases h with
  | dangling | arrive | ignored | found | destroy =>
    cases hc.symm.trans hc'
    exact absurd hr hr'
  | _ => grind [Call.abort]

/-- A completion handler that finishes gives up its pointer. -/
theorem Step.drops_handler (h : Step C s a t) (hf : t.fault = none) {n : Nat} {c : Call}
    (hc : s.calls n = some c) (ha : Drops s a n c) (htm : s.messages c.tm = some tm)
    (htm' : t.messages c.tm = some tm') : .handler n ∉ tm'.owners := by
  cases h with
  | dangling => cases hf
  | abortedWait => grind [Drops]
  | setReturn hr => rcases resuming_cases hr with hr | hr <;> grind [Drops]
  | late ht => rcases target_cases ht with ht | ht <;> grind [Drops]
  | resumed ht | unhandled ht => rcases target_cases ht with ht | ht <;> grind [Drops]
  | _ => grind [Drops]

end

theorem Step.tight (h : Step C s a t) (hI : s.Inv) (hf : t.fault = none)
    (hpc : ∀ n c, s.calls n = some c → c.resumes ≠ 0 → c.pc ≠ .requested) (hs : s.Tight) :
    t.Tight := by
  intro x tm' o htm' ho
  rcases h.message_of hI htm' with ⟨tm, htm, -⟩ | ⟨m, -, rfl⟩
  · rcases h.owner_of hI htm htm' ho with hold | ⟨-, n, c, hc, rfl, hnew⟩
    · -- an old pointer goes when it is not needed any more
      have hneeded := hs x tm o htm hold
      cases o with
      | entry => exact (h.entry_of hI htm htm' ho).trans hneeded
      | awaiter n =>
        obtain ⟨c, hc, rfl, hr⟩ := hneeded
        obtain ⟨c', hc', hmoved⟩ := h.call_kept hc
        refine ⟨c', hc', hmoved.tm, ?_⟩
        by_contra hr'
        exact h.result_of hc hr hc' hr' htm' ho
      | handler n =>
        obtain ⟨c, hc, rfl, hw⟩ := hneeded
        obtain ⟨c', hc', hmoved⟩ := h.call_kept hc
        refine ⟨c', hc', hmoved.tm, (hmoved.live hw).resolve_right fun hdrop => ?_⟩
        exact h.drops_handler hf hc hdrop htm htm' ho
    · obtain ⟨c', hc', hmoved⟩ := h.call_kept hc
      rcases hnew with ⟨rfl, hreq⟩ | ⟨rfl, rfl⟩
      · refine ⟨c', hc', hmoved.tm, ?_⟩
        have hres : c.resumes = 0 := by
          by_contra hne
          exact hpc n c hc hne hreq
        have hnone : c.result = none := by
          by_contra hne
          obtain ⟨r, hr⟩ := Option.ne_none_iff_exists'.mp hne
          have := ((hI.linked_of hc htm).result r hr).1
          omega
        by_contra hr'
        exact h.result_of hc hnone hc' hr' htm' ho
      · refine ⟨c', hc', hmoved.tm, ?_⟩
        cases h with
        | dangling => cases hf
        | armWait => grind [Wait.live]
  · simp only [Finset.mem_singleton] at ho
    subst ho
    rfl

/-! ## Who is in `set` -/

theorem resuming_enter {r : Runner} {x n : Nat} {m : Message} (h : s.target r = some (x, m)) :
    (((s.settle x m).resume x n).enter x r).resuming r = some x := by
  rcases target_cases h with ⟨j, rfl, hj⟩ | ⟨k, c, -, rfl, hc, rfl, hw, -⟩
  · simp [resuming]
  · by_cases hk : k = n
    · simp [resuming, hk, hk ▸ hc]
    · simp [resuming, hk, hc]

theorem resuming_kept (h : step C s a = some t) (hI : s.Inv) {r : Runner} {x : Nat}
    (hr : s.resuming r = some x) (ha : a ≠ .setReturn r) : t.resuming r = some x := by
  have hstep := step_sound h
  rcases resuming_cases hr with ⟨j, rfl, hj⟩ | ⟨n, c, rfl, hc, rfl, hw⟩
  · have hj' : t.tasks j = some (.resuming x) := by
      cases hstep with
      | shared | registered => exact hj
      | @ignored k | @found k =>
        obtain ⟨rawMessage, hraw⟩ := posted_of_dispatch (by simpa [step, step_fault h] using h)
        have hne : j ≠ k := by
          rintro rfl
          simp [hj] at hraw
        simp [hne, hj]
      | late ht | resumed ht => rcases target_cases ht with ht | ht <;> grind
      | _ => grind
    simp [resuming, hj']
  · obtain ⟨tm, -, hl⟩ := hI.linked n c hc
    have hidle := hl.idle
    obtain ⟨c', hc', hmoved⟩ := hstep.call_kept hc
    have hw' : c'.wait = .resuming := by
      cases hstep with
      | dangling | arrive | ignored | found | destroy =>
        cases hc.symm.trans hc'
        exact hw
      | late ht | resumed ht => rcases target_cases ht with ht | ht <;> grind [Call.abort]
      | _ => grind [Call.abort, Pc.isArmed]
    simp [resuming, hc', hmoved.tm, hw']

/-- A lock is taken by a runner that goes into the resume. -/
theorem Step.locked_of (h : Step C s a t) (hI : s.Inv) (hf : t.fault = none) {x : Nat}
    {tm tm' : TimedMessage} (htm : s.messages x = some tm) (htm' : t.messages x = some tm')
    (hlocked : tm'.locked = true) :
    (tm.locked = true ∧ ∀ r, a = .setReturn r → s.resuming r ≠ some x) ∨
      ∃ r, t.resuming r = some x := by
  cases h with
  | dangling | unhandled => cases hf
  | arrive | ignored | found | destroy =>
    cases htm.symm.trans htm'
    exact .inl ⟨hlocked, nofun⟩
  | @resumed r y _ _ _ ht hx hr =>
    have hmessages := hI.settle_messages_apply ht hx hr
    by_cases hxy : x = y
    · subst hxy
      exact .inr ⟨r, resuming_enter ht⟩
    · grind
  | registered hn =>
    have hfresh := hI.fresh hn
    grind [-addCall_messages]
  | _ => grind [-addCall_messages, -modifyCall_messages, -cancel_messages]

/-! ## Runs -/

/-- Whoever is resumed has called `co_await`. -/
theorem Step.begun (h : Step C s a t) (hI : s.Inv) {n : Nat} {c c' : Call}
    (hc : s.calls n = some c) (hc' : t.calls n = some c')
    (hs : c.resumes ≠ 0 → c.pc ≠ .requested) (hres : c'.resumes ≠ 0) : c'.pc ≠ .requested := by
  cases h with
  | dangling | arrive | ignored | found | destroy =>
    cases hc.symm.trans hc'
    exact hs hres
  | @resumed r x k m tm ht htm hr hk =>
    obtain ⟨d, hd, -, hpc⟩ := hI.handle x tm k htm hk
    simp only [enter_calls, resume_calls, settle_calls, cancel_calls, hc, hd] at hc'
    grind [Call.abort_pc, Call.abort_resumes]
  | _ => grind [Call.abort]

/-- What holds of the requester as long as nothing undefined has happened. -/
structure Engaged (s : State) : Prop where
  armed : ∀ n c, s.calls n = some c → c.pc.isArmed = true → c.wait ≠ .idle
  timed : s.Timed
  tight : s.Tight
  /-- A locked message is in a resume. -/
  served : ∀ x tm, s.messages x = some tm → tm.locked = true → ∃ r, s.resuming r = some x
  /-- An answered message has a caller that has been resumed. -/
  resumed : ∀ x tm, s.messages x = some tm → tm.m_response ≠ none →
    ∃ n c, s.calls n = some c ∧ c.tm = x ∧ c.resumes ≠ 0
  begun : ∀ n c, s.calls n = some c → c.resumes ≠ 0 → c.pc ≠ .requested
  stuck : ∀ x tm, s.messages x = some tm → tm.stuck = true → tm.locked = true ∧ tm.owners = ∅

theorem engaged_init : init.Engaged := by
  constructor <;> intro <;> intros <;> contradiction

theorem Engaged.step (hs : s.Engaged) (hI : s.Inv) (h : State.step C s a = some t)
    (hf : t.fault = none) : t.Engaged := by
  have hstep := step_sound h
  refine ⟨fun n c' => hstep.armed hs.armed, hstep.timed hI hs.timed,
    hstep.tight hI hf hs.begun hs.tight, fun x tm' htm' hlocked => ?_, fun x tm' htm' hr' => ?_,
    fun n c' hc' hres => ?_, fun x tm' htm' hstuck => ?_⟩
  · rcases hstep.message_of hI htm' with ⟨tm, htm, -⟩ | ⟨m, -, rfl⟩
    · rcases hstep.locked_of hI hf htm htm' hlocked with ⟨hold, hother⟩ | hnew
      · obtain ⟨r, hr⟩ := hs.served x tm htm hold
        exact ⟨r, resuming_kept h hI hr fun ha => hother r ha hr⟩
      · exact hnew
    · cases hlocked
  · rcases hstep.message_of hI htm' with ⟨tm, htm, hchanged⟩ | ⟨m, -, rfl⟩
    · rcases hchanged.response with heq | ⟨-, hres, -⟩
      · obtain ⟨n, c, hc, hx, hne⟩ := hs.resumed x tm htm (heq ▸ hr')
        obtain ⟨c', hc', hmoved⟩ := hstep.call_kept hc
        have hle := hmoved.resumes
        exact ⟨n, c', hc', hmoved.tm.trans hx, by omega⟩
      · rcases hres with ⟨-, hfault⟩ | ⟨n, c', hn, hc', hne⟩
        · exact absurd hf hfault
        · obtain ⟨c, hc, hx, -⟩ := hI.handle x tm n htm hn
          obtain ⟨c₁, hc₁, hmoved⟩ := hstep.call_kept hc
          cases hc'.symm.trans hc₁
          exact ⟨n, c', hc', hmoved.tm.trans hx, hne⟩
    · exact absurd rfl hr'
  · rcases hstep.call_of hc' with ⟨c, hc, -⟩ | ⟨m, x, -, rfl⟩
    · exact hstep.begun hI hc hc' (hs.begun n c hc) hres
    · exact absurd rfl hres
  · rcases hstep.message_of hI htm' with ⟨tm, htm, -⟩ | ⟨m, -, rfl⟩
    · exact hstep.stuck_kept hI htm htm' (hs.stuck x tm htm) hstuck
    · cases hstuck

theorem engaged_exec (h : exec (step C) init as = some s) (hf : s.fault = none) : s.Engaged := by
  have hall : s.Inv ∧ (s.fault = none → s.Engaged) := by
    refine exec_induct (I := fun s => s.Inv ∧ (s.fault = none → s.Engaged)) ?_
      ⟨inv_init, fun _ => engaged_init⟩ h
    rintro s a t ⟨hI, hs⟩ hst
    exact ⟨(step_sound hst).inv hI, (hs (step_fault hst)).step hI hst⟩
  exact hall.2 hf

/-- The steps that all calls and handlers have still to take, and one that ends the run. -/
def rank (F G : Finset Nat) (s : State) : Nat :=
  ∑ n ∈ F, s.callRank n + ∑ j ∈ G, s.taskRank j + if s.fault = none then 1 else 0

/-- Only these calls and handlers have steps to take. -/
structure Within (F G : Finset Nat) (s : State) : Prop where
  call : ∀ n, s.callRank n ≠ 0 → n ∈ F
  task : ∀ j, s.taskRank j ≠ 0 → j ∈ G

theorem rank_step {F G : Finset Nat} (hs : s.Within F G) (hI : s.Inv)
    (ha : a.settles = true) (h : step C s a = some t) :
    t.Within F G ∧ t.rank F G < s.rank F G := by
  have hstep := step_sound h
  have hcall := hstep.callRank_le hI ha
  have htask := hstep.taskRank_le ha
  refine ⟨⟨fun n hn => hs.call n ?_, fun j hj => hs.task j ?_⟩, ?_⟩
  · have := hcall n
    omega
  · have := htask j
    omega
  · have hcalls : ∑ n ∈ F, t.callRank n ≤ ∑ n ∈ F, s.callRank n :=
      Finset.sum_le_sum fun n _ => hcall n
    have htasks : ∑ j ∈ G, t.taskRank j ≤ ∑ j ∈ G, s.taskRank j :=
      Finset.sum_le_sum fun j _ => htask j
    have hend : (if t.fault = none then 1 else 0) ≤ 1 := by split_ifs <;> omega
    rw [rank, rank, if_pos (step_fault h)]
    rcases step_lowers h hI ha with hf | ⟨n, hn⟩ | ⟨j, hj⟩
    · rw [if_neg hf]
      omega
    · have := Finset.sum_lt_sum (fun n _ => hcall n) ⟨n, hs.call n (by omega), hn⟩
      omega
    · have := Finset.sum_lt_sum (fun j _ => htask j) ⟨j, hs.task j (by omega), hj⟩
      omega

/-- The calls and the handlers come from the run. -/
theorem within_exec (h : exec (step C) init as = some s) :
    s.Within (as.filterMap Act.call).toFinset (as.filterMap Act.text).toFinset where
  call n hn := by
    cases hc : s.calls n with
    | none => simp [callRank, hc] at hn
    | some c =>
      have hmem := (carries_arrived h).call n c hc
      exact List.mem_toFinset.mpr (List.mem_filterMap.mpr ⟨_, hmem, rfl⟩)
  task := by
    have hkeep : ∀ (u : State) (a : Act) (v : State),
        (∀ j, u.taskRank j ≠ 0 → j ∈ (as.filterMap Act.text).toFinset) → a ∈ as →
        step C u a = some v → ∀ j, v.taskRank j ≠ 0 → j ∈ (as.filterMap Act.text).toFinset := by
      intro u a v hu ha huv j hj
      cases (step_sound huv).taskMoved j with
      | same hsame => exact hu j (by simpa [taskRank, hsame] using hj)
      | posted harrive =>
        exact List.mem_toFinset.mpr (List.mem_filterMap.mpr ⟨a, ha, by rw [harrive]; rfl⟩)
      | found _ hm =>
        obtain ⟨rawMessage, hraw, -⟩ := hm
        exact hu j (by simp [taskRank, hraw, Task.rank])
      | resuming hfound => exact hu j (by simp [taskRank, hfound, Task.rank])
      | done hdone => simp [taskRank, hdone, Task.rank] at hj
    exact exec_invariant hkeep (fun j hj => absurd rfl hj) (along_of_mem (fun a ha _ => ha) _) h

theorem rank_le (F G : Finset Nat) (s : State) : s.rank F G ≤ 11 * F.card + 3 * G.card + 1 := by
  have hcalls : ∑ n ∈ F, s.callRank n ≤ F.card * 11 := by
    refine Finset.sum_le_card_nsmul F _ 11 fun n _ => ?_
    cases hc : s.calls n with
    | none => simp [callRank, hc]
    | some c => simpa [callRank, hc] using c.rank_le
  have htasks : ∑ j ∈ G, s.taskRank j ≤ G.card * 3 := by
    refine Finset.sum_le_card_nsmul G _ 3 fun j _ => ?_
    cases hj : s.tasks j with
    | none => simp [taskRank, hj]
    | some task => simpa [taskRank, hj] using task.rank_le
  unfold rank
  split_ifs <;> omega

/-! ## At rest -/

/-- No step settles anything. -/
def Rests (C : Codec) (s : State) : Prop := ∀ a, a.settles = true → step C s a = none

namespace Rests

variable (hrest : s.Rests C) (hf : s.fault = none)

include hrest hf

/-- Whoever is in a resume waits for itself. -/
theorem resuming {r : Runner} {x : Nat} (hr : s.resuming r = some x) :
    ∃ tm, s.messages x = some tm ∧ tm.stuck = true := by
  have hstep := hrest (.setReturn r) rfl
  simp only [step, hf, setReturn, hr] at hstep
  cases htm : s.messages x with
  | none => simp [htm] at hstep
  | some tm =>
    refine ⟨tm, rfl, ?_⟩
    by_contra hstuck
    simp [htm, hstuck] at hstep

theorem locked (hE : s.Engaged) {x : Nat} {tm : TimedMessage} (htm : s.messages x = some tm) :
    tm.locked = tm.stuck := by
  cases hlocked : tm.locked with
  | true =>
    obtain ⟨r, hr⟩ := hE.served x tm htm hlocked
    obtain ⟨tm', htm', hstuck⟩ := hrest.resuming hf hr
    cases htm.symm.trans htm'
    exact hstuck.symm
  | false =>
    by_contra hne
    have hstuck : tm.stuck = true := by simpa using Ne.symm hne
    simp [(hE.stuck x tm htm hstuck).1] at hlocked

theorem target (hI : s.Inv) (hE : s.Engaged) (r : Runner) : s.target r = none := by
  have hstep := hrest (.set r) rfl
  cases hr : s.target r with
  | none => rfl
  | some e =>
    obtain ⟨x, m⟩ := e
    obtain ⟨tm, htm⟩ : ∃ tm, s.messages x = some tm := by
      rcases target_cases hr with ⟨j, -, hj⟩ | ⟨_, _, tm, -, -, -, -, htm, -⟩
      · obtain ⟨-, tm, htm, -⟩ := hI.found j x m hj
        exact ⟨tm, htm⟩
      · exact ⟨tm, htm⟩
    have hset : s.set r = none := by simpa [step, hf] using hstep
    have hlocked := hrest.locked hf hE htm
    -- to call `set` on a stuck message is undefined, and to call it on another one is possible
    have hstuck := hE.stuck x tm htm
    simp only [set, hr, htm, Option.bind_eq_bind, Option.bind_some] at hset
    grind

theorem tasks (hI : s.Inv) (hE : s.Engaged) {j : Nat} {task : Task}
    (hj : s.tasks j = some task) :
    task = .done ∨ ∃ x tm, task = .resuming x ∧ s.messages x = some tm ∧ tm.stuck = true := by
  cases task with
  | done => exact .inl rfl
  | posted rawMessage =>
    have hstep := hrest (.dispatch j) rfl
    have hdispatch : s.dispatch C j = none := by simpa [step, hf] using hstep
    simp only [dispatch, hj] at hdispatch
    grind
  | found x m =>
    have htarget := hrest.target hf hI hE (.task j)
    simp [State.target, hj] at htarget
  | resuming x =>
    obtain ⟨tm, htm, hstuck⟩ := hrest.resuming hf (r := .task j) (x := x)
      (by simp [State.resuming, hj])
    exact .inr ⟨x, tm, rfl, htm, hstuck⟩

theorem suspending {n : Nat} {c : Call} {tm : TimedMessage} (hc : s.calls n = some c)
    (htm : s.messages c.tm = some tm) : c.pc = .returned := by
  have hother : ∀ (pc : Pc) (next : Call → TimedMessage → State),
      s.suspending n pc next = none → c.pc ≠ pc := by
    rintro pc next hnone rfl
    simp only [State.suspending, hc, htm, Option.bind_eq_bind, Option.bind_some, if_true] at hnone
    grind
  have hco := hrest (.coAwait n) rfl
  have hstore := hrest (.storeHandle n) rfl
  have hsend := hrest (.send n) rfl
  have hexpiry := hrest (.setExpiry n) rfl
  have harm := hrest (.armWait n) rfl
  have hsuspended := hrest (.suspended n) rfl
  simp only [step, hf, Option.isSome_none, Bool.false_eq_true, if_false] at hco hstore hsend
  simp only [step, hf, Option.isSome_none, Bool.false_eq_true, if_false] at hexpiry harm hsuspended
  cases hpc : c.pc with
  | returned => rfl
  | requested =>
    simp only [coAwait, hc, htm, hpc, Option.bind_eq_bind, Option.bind_some, if_true] at hco
    grind
  | awaiting => exact absurd hpc (hother _ _ hstore)
  | stored => exact absurd hpc (hother _ _ hsend)
  | sent => exact absurd hpc (hother _ _ hexpiry)
  | expirySet => exact absurd hpc (hother _ _ harm)
  | armed => simp [State.suspended, hc, hpc] at hsuspended

theorem wait (hI : s.Inv) (hE : s.Engaged) {n : Nat} {c : Call} {tm : TimedMessage}
    (hc : s.calls n = some c) (htm : s.messages c.tm = some tm) : c.wait = .done := by
  have hexpire := hrest (.expire n) rfl
  have hfire := hrest (.fire n) rfl
  have haborted := hrest (.abortedWait n) rfl
  simp only [step, hf, Option.isSome_none, Bool.false_eq_true, if_false] at hexpire hfire haborted
  cases hw : c.wait with
  | done => rfl
  | idle =>
    have hpc := hrest.suspending hf hc htm
    exact absurd hw (hE.armed n c hc (by rw [hpc]; rfl))
  | pending => simp [State.expire, advance, hc, hw] at hexpire
  | expired => simp [State.fire, advance, hc, hw] at hfire
  | aborted => simp [State.abortedWait, hc, hw] at haborted
  | started =>
    have htarget := hrest.target hf hI hE (.timer n)
    simp [State.target, hc, htm, hw] at htarget
  | resuming =>
    -- the completion handler holds the message, which therefore is not stuck
    have hhandler := (hI.linked_of hc htm).handler (by rw [hw]; rfl)
    obtain ⟨tm', htm', hstuck⟩ := hrest.resuming hf (r := .timer n) (x := c.tm)
      (by simp [State.resuming, hc, hw])
    cases htm.symm.trans htm'
    simp [(hE.stuck c.tm tm htm hstuck).2] at hhandler

/-- The timer of a call sees to it that the message is answered. -/
theorem answered (hI : s.Inv) (hE : s.Engaged) {n : Nat} {c : Call} {tm : TimedMessage}
    (hc : s.calls n = some c) (htm : s.messages c.tm = some tm) : tm.m_response ≠ none := by
  intro hr
  have hpc := hrest.suspending hf hc htm
  obtain ⟨k, d, hd, hdx, hon⟩ := hE.timed n c tm hc htm hr (by rw [hpc]; rfl)
  have hdpc := hrest.suspending hf hd (hdx ▸ htm)
  have hdw := hrest.wait hf hI hE hd (hdx ▸ htm)
  simp [Call.onTimer, hdpc, hdw] at hon

/-- Whoever has been resumed has taken its result. -/
theorem result {n : Nat} {c : Call} {tm : TimedMessage} (hc : s.calls n = some c)
    (htm : s.messages c.tm = some tm) (hr : tm.m_response ≠ none) (hres : c.resumes ≠ 0) :
    c.result ≠ none := by
  intro hnone
  have hend := hrest (.endAwait n) rfl
  obtain ⟨response, hr⟩ := Option.ne_none_iff_exists'.mp hr
  simp [step, hf, endAwait, hc, htm, hr, hres, hnone] at hend

section

variable (hI : s.Inv) (hE : s.Engaged)

include hI hE

theorem message_answered {x : Nat} {tm : TimedMessage} (htm : s.messages x = some tm) :
    tm.m_response ≠ none := by
  obtain ⟨c, hc, rfl, -⟩ := hI.creator x tm htm
  exact hrest.answered hf hI hE hc htm

theorem no_entry (id : UInt64) : s.m_timedMessages id = none := by
  by_contra hne
  obtain ⟨x, hx⟩ := Option.ne_none_iff_exists'.mp hne
  obtain ⟨tm, htm, -, hr⟩ := hI.entry id x hx
  exact hrest.message_answered hf hI hE htm hr

/-- A caller has a response to its request, or another caller has got it instead. -/
theorem outcome {n : Nat} {c : Call} (hc : s.calls n = some c) :
    (∃ r, c.result = some r ∧ r.type = .response ∧ r.id = c.message.id) ∨
      c.result = none ∧ ∃ k d, k ≠ n ∧ s.calls k = some d ∧ d.tm = c.tm ∧ d.result ≠ none := by
  obtain ⟨tm, htm, hl⟩ := hI.linked n c hc
  have hanswered := hrest.message_answered hf hI hE htm
  cases hr : c.result with
  | some r =>
    have hresponse := (hl.result r hr).2
    have hsound := hI.sound c.tm tm htm
    obtain ⟨htype, hid⟩ := hsound.matching r
      (List.mem_of_head? (hsound.first.symm.trans hresponse))
    exact .inl ⟨r, rfl, htype, hid.trans hl.id⟩
  | none =>
    obtain ⟨k, d, hd, hdx, hres⟩ := hE.resumed c.tm tm htm hanswered
    have hresult := hrest.result hf hd (hdx ▸ htm) hanswered hres
    refine .inr ⟨rfl, k, d, ?_, hd, hdx, hresult⟩
    rintro rfl
    cases hc.symm.trans hd
    exact hresult hr

/-- The pointers that are left belong to the callers that nobody has resumed. -/
theorem mem_owners {x : Nat} {tm : TimedMessage} (htm : s.messages x = some tm) (o : Owner) :
    o ∈ tm.owners ↔ ∃ n c, o = .awaiter n ∧ s.calls n = some c ∧ c.tm = x ∧ c.result = none := by
  constructor
  · intro ho
    have hneeded := hE.tight x tm o htm ho
    cases o with
    | entry => exact absurd hneeded (hrest.message_answered hf hI hE htm)
    | awaiter n =>
      obtain ⟨c, hc, hx, hr⟩ := hneeded
      exact ⟨n, c, rfl, hc, hx, hr⟩
    | handler n =>
      obtain ⟨c, hc, rfl, hw⟩ := hneeded
      rw [hrest.wait hf hI hE hc htm] at hw
      cases hw
  · rintro ⟨n, c, rfl, hc, rfl, hr⟩
    refine (hI.linked_of hc htm).awaiter ?_ hr
    rw [hrest.suspending hf hc htm]
    nofun

end

end Rests

/-- Where every call is over and every handler done, nothing is left to do. -/
theorem rests_of_done (hcalls : ∀ n c, s.calls n = some c →
      c.pc = .returned ∧ c.wait = .done ∧ c.result ≠ none)
    (htasks : ∀ j task, s.tasks j = some task → task = .done) : s.Rests C := by
  have hcall : ∀ n (f : Call → Option State), (∀ c, c.pc = .returned → c.wait = .done →
      c.result ≠ none → f c = none) → (s.calls n >>= f) = none := by
    intro n f hf
    cases hc : s.calls n with
    | none => rfl
    | some c =>
      obtain ⟨hpc, hw, hr⟩ := hcalls n c hc
      exact hf c hpc hw hr
  have htask : ∀ j, s.tasks j = none ∨ s.tasks j = some .done := by
    intro j
    cases hj : s.tasks j with
    | none => exact .inl rfl
    | some task => exact .inr (by rw [htasks j task hj])
  have hrunner : ∀ r, s.target r = none ∧ s.resuming r = none := by
    rintro (j | n)
    · rcases htask j with hj | hj <;> simp [target, resuming, hj]
    · cases hc : s.calls n with
      | none => simp [target, resuming, hc]
      | some c => simp [target, resuming, hc, (hcalls n c hc).2.1]
  intro a ha
  by_cases hf : s.fault.isSome = true
  · simp [step, hf]
  unfold step
  rw [if_neg hf]
  cases a with
  | request | arrive | destroy => cases ha
  | coAwait n => exact hcall n _ fun c hpc _ _ => by simp [hpc]
  | storeHandle n | send n | setExpiry n | armWait n =>
    exact hcall n _ fun c hpc _ _ => by simp [hpc]
  | suspended n => exact hcall n _ fun c hpc _ _ => by simp [hpc]
  | dispatch j => rcases htask j with hj | hj <;> simp [dispatch, hj]
  | useErased j => rcases htask j with hj | hj <;> simp [useErased, hj]
  | set r => simp [set, (hrunner r).1]
  | setReturn r => simp [setReturn, (hrunner r).2]
  | endAwait n => exact hcall n _ fun c _ _ hr => by simp [hr]
  | expire n | fire n | abortedWait n => exact hcall n _ fun c _ hw _ => by simp [hw]

/-- With distinct ids the id tells the call. -/
theorem call_unique (hids : ((as.filterMap Act.requested).map Message.id).Nodup) {n k : Nat}
    {m m' : Message} (hm : .request n m ∈ as) (hm' : .request k m' ∈ as) (hid : m.id = m'.id) :
    n = k := by
  induction as with
  | nil => cases hm
  | cons a as ih =>
    have hmem : ∀ l m'', Act.request l m'' ∈ as → m''.id ∈ (as.filterMap Act.requested).map
        Message.id := fun l m'' h => List.mem_map.mpr ⟨m'', List.mem_filterMap.mpr ⟨_, h, rfl⟩, rfl⟩
    cases hreq : a.requested with
    | none =>
      rw [List.filterMap_cons_none hreq] at hids
      grind [Act.requested]
    | some m₀ =>
      rw [List.filterMap_cons_some hreq, List.map_cons, List.nodup_cons] at hids
      grind [Act.requested]

/-- The settled part of a run makes no requests. -/
theorem requested_settles (hbs : ∀ a ∈ bs, a.settles = true) : bs.filterMap Act.requested = [] := by
  refine List.filterMap_eq_nil_iff.mpr fun a ha => ?_
  have hsettles := hbs a ha
  cases a <;> first | rfl | cases hsettles

/-- With distinct ids every caller has its response at rest. -/
theorem Rests.result_of_nodup (hrest : t.Rests C) (hf : t.fault = none) (hE : t.Engaged)
    (hrun : exec (step C) init as = some t)
    (hids : ((as.filterMap Act.requested).map Message.id).Nodup) {n : Nat} {c : Call}
    (hc : t.calls n = some c) : c.result ≠ none := by
  have hI := inv_exec hrun
  intro hr
  -- a call that shares its message has the id of another one
  rcases hrest.outcome hf hI hE hc with ⟨r, hr', -⟩ | ⟨-, k, d, hk, hd, hdx, -⟩
  · simp [hr] at hr'
  · obtain ⟨tm, htm, hl⟩ := hI.linked n c hc
    have hl' := hI.linked_of hd (hdx ▸ htm)
    have hfrom := carries_arrived hrun
    exact hk (call_unique hids (hfrom.call k d hd) (hfrom.call n c hc) (hl'.id.symm.trans hl.id))

/-- A requester that is left alone comes to rest, after at most eleven steps for each call and
three for each text, in any order. At rest, if nothing undefined has happened,

* the map is empty, and every handler is done, but for those whose threads wait for themselves:
  the coroutines that they have resumed are in `~TimedMessage` of messages without owners;
* every caller has been given a response to its request, but for those that share a message with
  one that has;
* the only pointers that are left are held by the callers without a response.

So with distinct ids every caller has its response, and no message has an owner. -/
theorem requester_settles (hs : exec (step C) init as = some s)
    (hbs : ∀ a ∈ bs, a.settles = true) (ht : exec (step C) s bs = some t) :
    bs.length ≤ 11 * (as.filterMap Act.call).length + 3 * (as.filterMap Act.text).length + 1 ∧
    ((∀ a, a.settles = true → step C t a = none) → t.fault = none →
      (∀ id, t.m_timedMessages id = none) ∧
      (∀ j task, t.tasks j = some task → task = .done ∨
        ∃ x tm, task = .resuming x ∧ t.messages x = some tm ∧ tm.stuck = true) ∧
      (∀ n c, t.calls n = some c → c.pc = .returned ∧ c.wait = .done ∧
        ((∃ r, c.result = some r ∧ r.type = .response ∧ r.id = c.message.id) ∨
          c.result = none ∧ ∃ k d, k ≠ n ∧ t.calls k = some d ∧ d.tm = c.tm ∧
            d.result ≠ none)) ∧
      (∀ x tm, t.messages x = some tm → tm.locked = tm.stuck ∧
        (tm.stuck = true → tm.owners = ∅) ∧ ∀ o, o ∈ tm.owners ↔
          ∃ n c, o = .awaiter n ∧ t.calls n = some c ∧ c.tm = x ∧ c.result = none) ∧
      (((as.filterMap Act.requested).map Message.id).Nodup →
        (∀ n c, t.calls n = some c → c.result ≠ none) ∧
        ∀ x tm, t.messages x = some tm → tm.owners = ∅)) := by
  have hrun : exec (step C) init (as ++ bs) = some t := exec_append.mpr ⟨s, hs, ht⟩
  have hI := inv_exec hrun
  refine ⟨?_, fun hrest hf => ?_⟩
  · have hlower : ∀ u a v, (u.Inv ∧ u.Within (as.filterMap Act.call).toFinset
          (as.filterMap Act.text).toFinset) → a.settles = true → step C u a = some v →
        (v.Inv ∧ v.Within (as.filterMap Act.call).toFinset (as.filterMap Act.text).toFinset) ∧
          v.rank (as.filterMap Act.call).toFinset (as.filterMap Act.text).toFinset <
            u.rank (as.filterMap Act.call).toFinset (as.filterMap Act.text).toFinset := by
      rintro u a v ⟨hu, hF⟩ ha huv
      obtain ⟨hG, hlt⟩ := rank_step hF hu ha huv
      exact ⟨⟨(step_sound huv).inv hu, hG⟩, hlt⟩
    have hlength := exec_length_le hlower ⟨inv_exec hs, within_exec hs⟩
      (along_of_mem (fun a ha _ => hbs a ha) s) ht
    have hle := rank_le (as.filterMap Act.call).toFinset (as.filterMap Act.text).toFinset s
    have hcalls := List.toFinset_card_le (as.filterMap Act.call)
    have htexts := List.toFinset_card_le (as.filterMap Act.text)
    omega
  · have hE := engaged_exec hrun hf
    have hrest : t.Rests C := hrest
    refine ⟨hrest.no_entry hf hI hE, fun j task => hrest.tasks hf hI hE, fun n c hc => ?_,
      fun x tm htm => ⟨hrest.locked hf hE htm, fun hstuck => (hE.stuck x tm htm hstuck).2,
        hrest.mem_owners hf hI hE htm⟩, fun hids => ?_⟩
    · obtain ⟨tm, htm, -⟩ := hI.linked n c hc
      exact ⟨hrest.suspending hf hc htm, hrest.wait hf hI hE hc htm,
        hrest.outcome hf hI hE hc⟩
    · have hids : (((as ++ bs).filterMap Act.requested).map Message.id).Nodup := by
        rwa [List.filterMap_append, requested_settles hbs, List.append_nil]
      have hall : ∀ n c, t.calls n = some c → c.result ≠ none := fun n c =>
        hrest.result_of_nodup hf hE hrun hids
      refine ⟨hall, fun x tm htm => Finset.eq_empty_of_forall_notMem fun o ho => ?_⟩
      obtain ⟨n, c, -, hc, -, hr⟩ := (hrest.mem_owners hf hI hE htm o).mp ho
      exact hall n c hc hr

/-- A text that answers `ping` arrives, and then the requester is left alone. -/
theorem requester_settles_ping :
    ∃ s t c tm, exec (step wire) init (awaitRun 0 ping ++ [.arrive 0 pongText]) = some s ∧
      exec (step wire) s [.dispatch 0, .set (.task 0), .endAwait 0, .setReturn (.task 0),
        .abortedWait 0] = some t ∧
      t.calls 0 = some c ∧ c.result ≠ none ∧ t.messages 0 = some tm ∧ tm.owners = ∅ := by
  have hcall : (exec (step wire) init (awaitRun 0 ping ++ [.arrive 0 pongText] ++
      [.dispatch 0, .set (.task 0), .endAwait 0, .setReturn (.task 0), .abortedWait 0])).map
      (fun t => (t.calls 0).map fun c => (c.pc, c.wait, c.result)) =
        some (some (.returned, .done, some pong)) := by
    decide +kernel
  have hother : (exec (step wire) init (awaitRun 0 ping ++ [.arrive 0 pongText] ++
      [.dispatch 0, .set (.task 0), .endAwait 0, .setReturn (.task 0), .abortedWait 0])).map
      (fun t => (t.fault, t.tasks 0, (t.messages 0).isSome)) =
        some (none, some .done, true) := by
    decide +kernel
  obtain ⟨t, hrun, hcall⟩ := Option.map_eq_some_iff.mp hcall
  simp only [hrun, Option.map_some, Option.some.injEq, Prod.mk.injEq] at hother
  obtain ⟨hf, htask, hmessage⟩ := hother
  obtain ⟨s, hs, ht⟩ := exec_append.mp hrun
  obtain ⟨c, hc, hcall⟩ := Option.map_eq_some_iff.mp hcall
  obtain ⟨tm, htm⟩ := Option.isSome_iff_exists.mp hmessage
  have hrest : t.Rests wire := by
    refine rests_of_done (fun n d hd => ?_) fun j task hj => ?_
    · have hmem := (carries_arrived hrun).call n d hd
      obtain ⟨rfl, -⟩ : n = 0 ∧ d.message = ping := by simpa [awaitRun] using hmem
      cases hc.symm.trans hd
      simp_all
    · by_contra hne
      have hrank : t.taskRank j ≠ 0 := by
        cases task <;> simp_all [taskRank, Task.rank]
      have hmem := (within_exec hrun).task j hrank
      obtain rfl : 0 = j := by simpa [awaitRun, Act.text] using hmem
      rw [htask] at hj
      exact hne (Option.some.inj hj).symm
  obtain ⟨-, hdone⟩ := requester_settles hs (by decide) ht
  obtain ⟨-, -, -, -, hall⟩ := hdone hrest hf
  obtain ⟨hresult, howners⟩ := hall (by decide)
  exact ⟨s, t, c, tm, hs, ht, hc, hresult 0 c hc, htm, howners 0 tm htm⟩

/-- The aborted timer handler ends before the coroutine, which so drops the last pointer. -/
example :
    (exec (step wire) init (awaitRun 0 ping ++
      [.arrive 0 pongText, .dispatch 0, .set (.task 0), .abortedWait 0, .endAwait 0])).map
      (fun t => ((t.messages 0).map TimedMessage.stuck, (t.setReturn (.task 0)).isSome)) =
        some (some true, false) := by
  decide +kernel

end State

end Zatestil.Messaging
