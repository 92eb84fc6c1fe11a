import Zatestil.Messaging.Matching

/-!
# Waiting coroutines

Three things can go wrong between `request` and the resume. A second caller of a pending id is
given the object of the first and overwrites its handle; a response can reach `set` before
`await_suspend` has stored the handle; and a response can resume the coroutine before
`await_suspend` is over. Each section has a run in which this happens, and the condition on
the steps of a run under which it cannot.
-/
namespace Zatestil.Messaging
open Library

theorem Pc.isStored_of_isArmed {pc : Pc} (h : pc.isArmed = true) : pc.isStored = true := by
  cases pc <;> first | rfl | cases h

/-- The call that an action takes a step further in `await_suspend`. -/
def Act.suspends : Act → Option Nat
  | .storeHandle n | .send n | .setExpiry n | .armWait n | .suspended n => some n
  | _ => none

namespace State

variable {C : Codec} {s t : State} {a : Act} {as : List Act}

/-! ## Handles -/

/-- The handle of a message was stored by a call on it, and an answered message had one. -/
structure Handles (s : State) : Prop where
  stored : ∀ x tm n, s.messages x = some tm → tm.m_handle = some n →
    ∃ c, s.calls n = some c ∧ c.tm = x ∧ c.pc.isStored = true
  answered : s.fault = none → ∀ x tm, s.messages x = some tm → tm.m_response ≠ none →
    tm.m_handle ≠ none

theorem handles_init : init.Handles := by
  constructor <;> intros <;> contradiction

theorem Step.handles (h : Step C s a t) (hI : s.Inv) (hf : s.fault = none) (hs : s.Handles) :
    t.Handles where
  stored x tm' n htm' hn := by
    rcases h.message_of hI htm' with ⟨tm, htm, hchanged⟩ | ⟨m, -, rfl⟩
    · rcases hchanged.handle with heq | ⟨k, c, c', -, -, -, hc', hx, hst, hk⟩
      · obtain ⟨c, hc, hx, hst⟩ := hs.stored x tm n htm (heq ▸ hn)
        obtain ⟨c', hc', hmoved⟩ := h.call_kept hc
        exact ⟨c', hc', hmoved.tm.trans hx, hmoved.kept hst⟩
      · rw [hk] at hn
        cases hn
        exact ⟨c', hc', hx, hst⟩
    · cases hn
  answered hft x tm' htm' hr := by
    rcases h.message_of hI htm' with ⟨tm, htm, hchanged⟩ | ⟨m, -, rfl⟩
    · apply hchanged.handle_ne
      rcases hchanged.response with heq | ⟨-, ⟨-, hfault⟩ | ⟨n, c, hn, -⟩, -⟩
      · exact hs.answered hf x tm htm (heq ▸ hr)
      · exact absurd hft hfault
      · simp [hn]
    · exact absurd rfl hr

theorem handles_exec (h : exec (step C) init as = some s) : s.Handles := by
  refine exec_keeps (P := fun _ _ => True) handles_init ?_ (along_of_mem (fun _ _ _ => trivial) _) h
  intro s a t hI hf hs _ hstep
  exact hstep.handles hI hf hs

/-! ## A response before the handle is stored -/

/-- `await_suspend` has stored a handle in the message `x`. -/
def Ready (s : State) (x : Nat) : Prop := ∃ tm, s.messages x = some tm ∧ tm.m_handle ≠ none

theorem Step.ready (h : Step C s a t) (hI : s.Inv) {x : Nat} (hx : s.Ready x) : t.Ready x := by
  obtain ⟨tm, htm, hn⟩ := hx
  obtain ⟨tm', htm', hchanged⟩ := h.message_kept hI htm
  exact ⟨tm', htm', hchanged.handle_ne hn⟩

/-- A handler looks for a response only when the message it will find has its handle. -/
def AfterStore (C : Codec) (s : State) (a : Act) : Prop :=
  ∀ j x m, a = .dispatch j → Matches C s j x m → s.Ready x

/-- Every handler in flight has found a message with a handle. -/
structure FoundReady (s : State) : Prop where
  found : ∀ j x m, s.tasks j = some (.found x m) → s.Ready x
  fault : s.fault ≠ some .nullResume

theorem foundReady_init : init.FoundReady where
  found _ _ _ h := by cases h
  fault h := by cases h

theorem FoundReady.target (h : s.FoundReady) (hI : s.Inv) {r : Runner} {x : Nat} {m : Message}
    (ht : s.target r = some (x, m)) : s.Ready x := by
  rcases target_cases ht with ⟨j, rfl, hj⟩ | ⟨n, c, tm, rfl, hc, hx, hw, htm, rfl⟩
  · exact h.found j x m hj
  · -- the timer was armed after the handle was stored
    have hl := hI.linked_of hc (hx ▸ htm)
    exact ⟨tm, htm, hl.stored (Pc.isStored_of_isArmed (hl.armed (by simp [hw])))⟩

theorem Step.foundReady (h : Step C s a t) (hI : s.Inv) (hs : s.FoundReady)
    (ha : AfterStore C s a) : t.FoundReady where
  found j x m hj := by
    apply h.ready hI
    rcases h.found_of hj with hj | ⟨rfl, hm⟩
    · exact hs.found j x m hj
    · exact ha j x m rfl hm
  fault hft := by
    rcases h.nullResume_of hft with hfs | ⟨r, x, m, tm, ht, htm, -, hn⟩
    · exact hs.fault hfs
    · obtain ⟨tm', htm', hne⟩ := hs.target hI ht
      rw [htm] at htm'
      cases htm'
      exact hne hn

/-- If responses are matched only after the handle is stored, the null handle is never resumed
and whoever calls `set` finds a handle that a call on the message has stored. -/
theorem set_resumes_stored_handle (hrun : Along (step C) (AfterStore C) init as)
    (h : exec (step C) init as = some s) :
    s.fault ≠ some .nullResume ∧
    ∀ r x m tm, s.target r = some (x, m) → s.messages x = some tm →
      ∃ n c, tm.m_handle = some n ∧ s.calls n = some c ∧ c.tm = x ∧ c.pc.isStored = true := by
  have hI := inv_exec h
  have hready : s.FoundReady := by
    refine exec_keeps foundReady_init ?_ hrun h
    intro s a t hI _ hs ha hstep
    exact hstep.foundReady hI hs ha
  refine ⟨hready.fault, fun r x m tm ht htm => ?_⟩
  obtain ⟨tm', htm', hne⟩ := hready.target hI ht
  rw [htm] at htm'
  cases htm'
  obtain ⟨n, hn⟩ := Option.ne_none_iff_exists'.mp hne
  obtain ⟨c, hc, hx, hst⟩ := (handles_exec h).stored x tm n htm hn
  exact ⟨n, c, hn, hc, hx, hst⟩

/-- The handler of the answer to `ping` finds the first message. -/
theorem matches_pong {x : Nat} {m : Message} (hj : s.tasks 0 = some (.posted pongText))
    (hid : s.m_timedMessages 1 = some 0) (h : Matches wire s 0 x m) : x = 0 ∧ m = pong := by
  obtain ⟨rawMessage, hraw, hm, -, hx⟩ := h
  rw [hj] at hraw
  cases hraw
  have hpong : wire.fromJson pongText = some pong := by decide +kernel
  rw [hpong] at hm
  cases hm
  rw [show pong.id = 1 from rfl, hid] at hx
  cases hx
  exact ⟨rfl, rfl⟩

theorem set_resumes_stored_handle_ping :
    ∃ s tm n c, exec (step wire) init (awaitRun 0 ping ++ [.arrive 0 pongText, .dispatch 0]) =
        some s ∧ s.target (.task 0) = some (0, pong) ∧ s.messages 0 = some tm ∧
      tm.m_handle = some n ∧ s.calls n = some c ∧ c.tm = 0 ∧ c.pc.isStored = true := by
  have hrun : (exec (step wire) init (awaitRun 0 ping ++ [.arrive 0 pongText, .dispatch 0])).map
      (fun s => (s.target (.task 0), (s.messages 0).map TimedMessage.m_message)) =
        some (some (0, pong), some ping) := by
    decide +kernel
  have hbefore : (exec (step wire) init (awaitRun 0 ping ++ [.arrive 0 pongText])).map
      (fun s => (s.tasks 0, s.m_timedMessages 1, (s.messages 0).map TimedMessage.m_handle)) =
        some (some (.posted pongText), some 0, some (some 0)) := by
    decide +kernel
  obtain ⟨s, hs, hfacts⟩ := Option.map_eq_some_iff.mp hrun
  obtain ⟨htarget, hmessage⟩ := Prod.mk.inj hfacts
  obtain ⟨tm, htm, -⟩ := Option.map_eq_some_iff.mp hmessage
  have hafter : Along (step wire) (AfterStore wire) init
      ((awaitRun 0 ping ++ [Act.arrive 0 pongText]) ++ [Act.dispatch 0]) := by
    refine along_append (along_of_mem ?_ init) fun t ht => ⟨?_, fun _ _ => trivial⟩
    · rintro _ ha s j x m rfl
      simp [awaitRun] at ha
    · rintro j x m heq hm
      cases heq
      rw [ht] at hbefore
      obtain ⟨hj, hid, hhandle⟩ := by simpa using hbefore
      obtain ⟨rfl, -⟩ := matches_pong hj hid hm
      obtain ⟨tm, htm, hn⟩ := hhandle
      exact ⟨tm, htm, by simp [hn]⟩
  obtain ⟨-, hstored⟩ := set_resumes_stored_handle hafter hs
  obtain ⟨n, c, hn, hc, hx, hst⟩ := hstored (.task 0) 0 pong tm htarget htm
  exact ⟨s, tm, n, c, hs, htarget, htm, hn, hc, hx, hst⟩

/-- The response arrives while `await_suspend` has not stored its handle. -/
theorem response_before_handle :
    ((([.request 0 ping, .arrive 0 pongText, .dispatch 0, .coAwait 0, .set (.task 0)] :
      List Act).filterMap Act.requested).map Message.id).Nodup ∧
    ∃ s, exec (step wire) init [.request 0 ping, .arrive 0 pongText, .dispatch 0, .coAwait 0,
        .set (.task 0)] = some s ∧ s.fault = some .nullResume := by
  refine ⟨by decide, ?_⟩
  have hrun : (exec (step wire) init [.request 0 ping, .arrive 0 pongText, .dispatch 0,
      .coAwait 0, .set (.task 0)]).map State.fault = some (some .nullResume) := by
    decide +kernel
  exact Option.map_eq_some_iff.mp hrun

/-! ## Callers that share a message -/

/-- `await_suspend` runs only on a message that the request of its caller registered. -/
def Own (s : State) (a : Act) : Prop :=
  ∀ n c, a = .storeHandle n → s.calls n = some c → c.tm = n

/-- A call that has stored its handle is the one its message resumes. -/
structure Waits (n : Nat) (c : Call) (tm : TimedMessage) : Prop where
  own : c.tm = n
  handle : tm.m_handle = some n
  response : tm.m_response = none ∨ c.resumes ≠ 0

structure Kept (C : Codec) (s : State) : Prop where
  sent : ∀ e ∈ s.sent, ∃ c, s.calls e.1 = some c ∧ e.2 = C.toJson c.message
  waits : ∀ n c tm, s.calls n = some c → s.messages c.tm = some tm → c.pc.isStored = true →
    Waits n c tm

theorem kept_init : init.Kept C := by
  constructor <;> intros <;> contradiction

section

variable {n : Nat} {c c' : Call} {tm tm' : TimedMessage}

/-- The message that a request registered is the one its caller passed. -/
theorem Inv.own_message (hI : s.Inv) (hc : s.calls n = some c) (hx : c.tm = n)
    (htm : s.messages c.tm = some tm) : tm.m_message = c.message := by
  obtain ⟨c', hc', -, hm⟩ := hI.creator c.tm tm htm
  rw [hx, hc] at hc'
  cases hc'
  exact hm.symm

/-- A call that waits goes on waiting: nobody else stores a handle in its message. -/
theorem Waits.step (hw : Waits n c tm) (ha : Own s a) (hmoved : Moved s a n c c')
    (hc' : t.calls n = some c') (hchanged : Changed s a t c.tm tm tm') : Waits n c' tm' where
  own := hmoved.tm.trans hw.own
  handle := by
    rcases hchanged.handle with heq | ⟨k, ck, _, rfl, hck, hx, -, -, -, hk⟩
    · exact heq.trans hw.handle
    · have hkn : k = n := (ha k ck rfl hck).symm.trans (hx.trans hw.own)
      exact hkn ▸ hk
  response := by
    rcases hchanged.response with heq | ⟨-, hres, -⟩
    · rcases hw.response with hr | hr
      · exact .inl (heq.trans hr)
      · have := hmoved.resumes
        exact .inr (by omega)
    · rcases hres with ⟨hnone, -⟩ | ⟨k, ck, hk, hck, hr⟩
      · rw [hw.handle] at hnone
        cases hnone
      · rw [hw.handle] at hk
        cases hk
        rw [hc'] at hck
        cases hck
        exact .inr hr

/-- A message whose own caller has not stored a handle yet has no response. -/
theorem Kept.unanswered (hs : s.Kept C) (hh : s.Handles) (hf : s.fault = none)
    (hc : s.calls n = some c) (hx : c.tm = n) (htm : s.messages c.tm = some tm)
    (hst : ¬ c.pc.isStored = true) : tm.m_response = none := by
  by_contra hr
  obtain ⟨k, hk⟩ := Option.ne_none_iff_exists'.mp (hh.answered hf c.tm tm htm hr)
  obtain ⟨ck, hck, hckx, hckst⟩ := hh.stored c.tm tm k htm hk
  have hkn : k = n := (hs.waits k ck tm hck (hckx ▸ htm) hckst).own.symm.trans (hckx.trans hx)
  rw [hkn, hc] at hck
  cases hck
  exact hst hckst

end

theorem Step.kept (h : Step C s a t) (hI : s.Inv) (hf : s.fault = none) (hh : s.Handles)
    (hs : s.Kept C) (ha : Own s a) : t.Kept C where
  sent e he := by
    have hold : ∃ c, s.calls e.1 = some c ∧ e.2 = C.toJson c.message := by
      rcases h.sent_of he with he | ⟨c, tm, hc, htm, hpc, htext⟩
      · exact hs.sent e he
      · have hw := hs.waits e.1 c tm hc htm (by rw [hpc]; rfl)
        exact ⟨c, hc, hI.own_message hc hw.own htm ▸ htext⟩
    obtain ⟨c, hc, htext⟩ := hold
    obtain ⟨c', hc', hmoved⟩ := h.call_kept hc
    exact ⟨c', hc', hmoved.message ▸ htext⟩
  waits n c' tm' hc' htm' hst' := by
    rcases h.call_of hc' with ⟨c, hc, hmoved⟩ | ⟨m, x, -, rfl⟩
    · obtain ⟨tm, htm, -⟩ := hI.linked n c hc
      obtain ⟨tm'', htm'', hchanged⟩ := h.message_kept hI htm
      rw [hmoved.tm, htm''] at htm'
      cases htm'
      by_cases hst : c.pc.isStored = true
      · exact (hs.waits n c tm hc htm hst).step ha hmoved hc' hchanged
      · -- the step is the one that stores the handle, in a message without a response
        rcases h.stored_of hc' hst' with ⟨c₀, hc₀, hst₀⟩ | ⟨rfl, hhandle⟩
        · rw [hc] at hc₀
          cases hc₀
          exact absurd hst₀ hst
        · have hx := ha n c rfl hc
          refine ⟨hmoved.tm.trans hx, hhandle _ (hmoved.tm ▸ htm''), .inl ?_⟩
          rcases hchanged.response with heq | ⟨-, -, r, m, heq, -⟩
          · exact heq.trans (hs.unanswered hh hf hc hx htm hst)
          · cases heq
    · cases hst'

/-- If nobody awaits a message that another caller registered, every text is the caller's own
and whoever waits is still the handle of an unanswered message. -/
theorem no_lost_waiter (hrun : Along (step C) Own init as)
    (h : exec (step C) init as = some s) :
    (∀ n text, (n, text) ∈ s.sent → ∃ c, s.calls n = some c ∧ text = C.toJson c.message) ∧
    ∀ n c, s.calls n = some c → c.pc.isStored = true → c.resumes = 0 →
      ∃ x tm, s.messages x = some tm ∧ tm.m_handle = some n ∧ tm.m_response = none := by
  have hI := inv_exec h
  have hkept : s.Handles ∧ s.Kept C := by
    refine exec_keeps (J := fun s => s.Handles ∧ s.Kept C) ⟨handles_init, kept_init⟩ ?_ hrun h
    rintro s a t hI hf ⟨hh, hs⟩ ha hstep
    exact ⟨hstep.handles hI hf hh, hstep.kept hI hf hh hs ha⟩
  refine ⟨fun n text he => hkept.2.sent (n, text) he, fun n c hc hst hres => ?_⟩
  obtain ⟨tm, htm, -⟩ := hI.linked n c hc
  have hw := hkept.2.waits n c tm hc htm hst
  exact ⟨c.tm, tm, htm, hw.handle, hw.response.resolve_right fun hne => hne hres⟩

theorem no_lost_waiter_ping :
    ∃ s x tm, exec (step wire) init (awaitRun 0 ping) = some s ∧ s.messages x = some tm ∧
      tm.m_handle = some 0 ∧ tm.m_response = none := by
  have hrun : (exec (step wire) init (awaitRun 0 ping)).map (fun s =>
      (s.calls 0).map fun c => (c.pc, c.resumes)) = some (some (.returned, 0)) := by
    decide +kernel
  have hbefore : (exec (step wire) init [.request 0 ping, .coAwait 0]).map (fun s =>
      (s.calls 0).map Call.tm) = some (some 0) := by
    decide +kernel
  obtain ⟨s, hs, hcall⟩ := Option.map_eq_some_iff.mp hrun
  obtain ⟨c, hc, hfacts⟩ := Option.map_eq_some_iff.mp hcall
  obtain ⟨hpc, hres⟩ := Prod.mk.inj hfacts
  have hown : Along (step wire) Own init (([.request 0 ping, .coAwait 0] : List Act) ++
      Act.storeHandle 0 :: [.send 0, .setExpiry 0, .armWait 0, .suspended 0]) := by
    refine along_append (along_of_mem ?_ init) fun t ht => ⟨?_, fun u _ => along_of_mem ?_ u⟩
    · rintro _ ha s n c rfl
      simp at ha
    · rintro n c heq hc
      cases heq
      simpa [ht, hc] using hbefore
    · rintro _ ha s n c rfl
      simp at ha
  obtain ⟨-, hwaiter⟩ := no_lost_waiter hown hs
  obtain ⟨x, tm, htm, hn, hr⟩ := hwaiter 0 c hc (by rw [hpc]; rfl) hres
  exact ⟨s, x, tm, hs, htm, hn, hr⟩

/-- A second caller requests the id of a message that is still pending. -/
def sharedRun : List Act :=
  [.request 0 ping, .coAwait 0, .storeHandle 0, .request 1 again, .coAwait 1, .storeHandle 1,
    .send 1]

/-- The second caller sends the text of the first, who is not resumed any more. -/
theorem second_request_loses_first :
    ∃ s c₀ c₁, exec (step wire) init sharedRun = some s ∧
      s.calls 1 = some c₁ ∧ (1, pingText) ∈ s.sent ∧ pingText ≠ wire.toJson c₁.message ∧
      s.calls 0 = some c₀ ∧ c₀.pc.isStored = true ∧ c₀.resumes = 0 ∧
      ¬ ∃ x tm, s.messages x = some tm ∧ tm.m_handle = some 0 := by
  have hsent : (exec (step wire) init sharedRun).map State.sent = some [(1, pingText)] := by
    decide +kernel
  have hfirst : (exec (step wire) init sharedRun).map (fun s => (s.calls 0).map fun c =>
      (c.tm, c.pc, c.resumes)) = some (some (0, .stored, 0)) := by
    decide +kernel
  have hsecond : (exec (step wire) init sharedRun).map (fun s => (s.calls 1).map
      Call.message) = some (some again) := by
    decide +kernel
  have hmessage : (exec (step wire) init sharedRun).map (fun s => (s.messages 0).map
      TimedMessage.m_handle) = some (some (some 1)) := by
    decide +kernel
  obtain ⟨s, hs, hsent⟩ := Option.map_eq_some_iff.mp hsent
  simp only [hs, Option.map_some, Option.some.injEq] at hfirst hsecond hmessage
  obtain ⟨c₀, hc₀, hfirst⟩ := Option.map_eq_some_iff.mp hfirst
  obtain ⟨c₁, hc₁, hm⟩ := Option.map_eq_some_iff.mp hsecond
  simp only [Prod.mk.injEq] at hfirst
  obtain ⟨hx, hpc, hres⟩ := hfirst
  refine ⟨s, c₀, c₁, hs, hc₁, by simp [hsent], ?_, hc₀, by rw [hpc]; rfl, hres, ?_⟩
  · rw [hm]
    decide +kernel
  · rintro ⟨x, tm, htm, hn⟩
    obtain ⟨c, hc, hcx, -⟩ := (inv_exec hs).handle x tm 0 htm hn
    rw [hc₀] at hc
    cases hc
    rw [← hcx, hx] at htm
    simp [htm, hn] at hmessage

/-! ## A resume inside `await_suspend` -/

/-- A handler or a timer is about to call `set` on the message `x`. -/
def InFlight (s : State) (x : Nat) : Prop :=
  (∃ j m, s.tasks j = some (.found x m)) ∨
    ∃ k c, s.calls k = some c ∧ c.tm = x ∧ c.wait = .started

/-- No call on the message `x` is inside `await_suspend`. -/
def NotSuspending (s : State) (x : Nat) : Prop :=
  ∀ n c, s.calls n = some c → c.tm = x → c.pc.suspending = false

/-- A message is found, and its timer handler starts, only while nobody is inside
`await_suspend` on it; and `co_await` starts only on a message that nobody is answering. -/
structure Quiet (C : Codec) (s : State) (a : Act) : Prop where
  found : ∀ j x m, a = .dispatch j → Matches C s j x m → s.NotSuspending x
  fired : ∀ k c, a = .fire k → s.calls k = some c → s.NotSuspending c.tm
  awaited : ∀ n c tm, a = .coAwait n → s.calls n = some c → s.messages c.tm = some tm →
    tm.m_response = none ∧ ¬ s.InFlight c.tm

/-- A call inside `await_suspend` is on a message that nobody has answered or is answering. -/
def Undisturbed (s : State) : Prop :=
  ∀ n c tm, s.calls n = some c → s.messages c.tm = some tm → c.pc.suspending = true →
    tm.m_response = none ∧ ¬ s.InFlight c.tm

theorem undisturbed_init : init.Undisturbed := by
  intro n c tm hc
  cases hc

theorem inFlight_of_target {r : Runner} {x : Nat} {m : Message} (h : s.target r = some (x, m)) :
    s.InFlight x := by
  rcases target_cases h with ⟨j, -, hj⟩ | ⟨n, c, -, -, hc, hx, hw, -⟩
  · exact .inl ⟨j, m, hj⟩
  · exact .inr ⟨n, c, hc, hx, hw⟩

/-- Who comes to be in flight on `x` has just found it, or is a timer that has just expired. -/
theorem Step.inFlight_of (h : Step C s a t) {x : Nat} (hx : t.InFlight x) :
    s.InFlight x ∨ (∃ j m, a = .dispatch j ∧ Matches C s j x m) ∨
      ∃ k c, a = .fire k ∧ s.calls k = some c ∧ c.tm = x := by
  rcases hx with ⟨j, m, hj⟩ | ⟨k, c', hc', hx, hw⟩
  · rcases h.found_of hj with hj | ⟨ha, hm⟩
    · exact .inl (.inl ⟨j, m, hj⟩)
    · exact .inr (.inl ⟨j, m, ha, hm⟩)
  · rcases h.call_of hc' with ⟨c, hc, hmoved⟩ | ⟨m, y, -, rfl⟩
    · have hcx := hmoved.tm.symm.trans hx
      rcases hmoved.started hw with hw | ha
      · exact .inl (.inr ⟨k, c, hc, hcx, hw⟩)
      · exact .inr (.inr ⟨k, c, ha, hc, hcx⟩)
    · cases hw

theorem Step.undisturbed (h : Step C s a t) (hI : s.Inv) (hs : s.Undisturbed)
    (ha : Quiet C s a) : t.Undisturbed := by
  intro n c' tm' hc' htm' hpc'
  rcases h.call_of hc' with ⟨c, hc, hmoved⟩ | ⟨m, x, -, rfl⟩
  · obtain ⟨tm, htm, -⟩ := hI.linked n c hc
    obtain ⟨tm'', htm'', hchanged⟩ := h.message_kept hI htm
    rw [hmoved.tm] at htm' ⊢
    rw [htm''] at htm'
    cases htm'
    -- before the step nobody was answering the message, be it a `co_await` or a later one
    have hold : tm.m_response = none ∧ ¬ s.InFlight c.tm := by
      rcases hmoved.suspending hpc' with hpc | rfl
      · exact hs n c tm hc htm hpc
      · exact ha.awaited n c tm rfl hc htm
    refine ⟨?_, fun hflight => ?_⟩
    · rcases hchanged.response with heq | ⟨-, -, r, m, -, ht⟩
      · exact heq.trans hold.1
      · exact absurd (inFlight_of_target ht) hold.2
    · have hpc : ∀ hne : ∀ k, a ≠ .coAwait k, c.pc.suspending = true := fun hne =>
        (hmoved.suspending hpc').resolve_right (hne n)
      rcases h.inFlight_of hflight with hflight | ⟨j, m, rfl, hm⟩ | ⟨k, ck, rfl, hck, hx⟩
      · exact hold.2 hflight
      · simpa [hpc nofun] using ha.found j c.tm m rfl hm n c hc rfl
      · simpa [hpc nofun] using ha.fired k ck rfl hck n c hc hx.symm
  · cases hpc'

theorem suspending_pc {n : Nat} {pc : Pc} {next : Call → TimedMessage → State}
    (h : s.suspending n pc next = some t) : ∃ c, s.calls n = some c ∧ c.pc = pc := by
  obtain ⟨c, hc, h⟩ := Option.bind_eq_some_iff.mp h
  obtain ⟨tm, -, h⟩ := Option.bind_eq_some_iff.mp h
  split_ifs at h with hpc
  · exact ⟨c, hc, hpc⟩
  · exact ⟨c, hc, hpc⟩

/-- A step of `await_suspend` is taken inside it. -/
theorem suspends_pc {n : Nat} (ha : a.suspends = some n) (h : step C s a = some t) :
    ∃ c, s.calls n = some c ∧ c.pc.suspending = true := by
  have hf := step_fault h
  unfold step at h
  rw [if_neg (by simp [hf])] at h
  cases a with
  | storeHandle k | send k | setExpiry k | armWait k =>
    cases ha
    obtain ⟨c, hc, hpc⟩ := suspending_pc h
    exact ⟨c, hc, by rw [hpc]; rfl⟩
  | suspended k =>
    cases ha
    obtain ⟨c, hc, h⟩ := Option.bind_eq_some_iff.mp h
    split_ifs at h with hpc
    exact ⟨c, hc, by rw [hpc]; rfl⟩
  | _ => cases ha

/-- If nobody answers a message while a call on it is inside `await_suspend`, no step of
`await_suspend` comes after the resume, and no timer is armed for an answered message. -/
theorem await_suspend_before_resume (hrun : Along (step C) (Quiet C) init as)
    (h : exec (step C) init as = some s) {n : Nat} (ha : a.suspends = some n)
    (hs : step C s a = some t) :
    ∃ c tm, s.calls n = some c ∧ s.messages c.tm = some tm ∧ c.resumes = 0 ∧
      tm.resumes = 0 ∧ tm.m_response = none := by
  have hI := inv_exec h
  have hundisturbed : s.Undisturbed := by
    refine exec_keeps undisturbed_init ?_ hrun h
    intro s a t hI _ hs ha hstep
    exact hstep.undisturbed hI hs ha
  obtain ⟨c, hc, hpc⟩ := suspends_pc ha hs
  obtain ⟨tm, htm, hl⟩ := hI.linked n c hc
  obtain ⟨hr, -⟩ := hundisturbed n c tm hc htm hpc
  refine ⟨c, tm, hc, htm, ?_, (hI.sound c.tm tm htm).unanswered hr, hr⟩
  by_contra hres
  exact hl.resumed hres hr

/-- Before any text has arrived, only a timer can be in flight. -/
theorem not_inFlight {x : Nat} (h : exec (step C) init as = some s)
    (harrive : ∀ j rawMessage, .arrive j rawMessage ∉ as)
    (hwait : ∀ k c, s.calls k = some c → c.wait ≠ .started) : ¬ s.InFlight x := by
  rintro (⟨j, m, hj⟩ | ⟨k, c, hc, -, hw⟩)
  · obtain ⟨rawMessage, ⟨i, hi⟩, -⟩ := (carries_arrived h).found j x m hj
    exact harrive i rawMessage hi
  · exact hwait k c hc hw

theorem quiet_of_ne (hd : ∀ j, a ≠ .dispatch j) (hf : ∀ k, a ≠ .fire k)
    (hc : ∀ n, a ≠ .coAwait n) : Quiet C s a where
  found j _ _ h := absurd h (hd j)
  fired k _ h := absurd h (hf k)
  awaited n _ _ h := absurd h (hc n)

theorem quiet_coAwait {n : Nat} (h : ∀ c tm, s.calls n = some c → s.messages c.tm = some tm →
    tm.m_response = none ∧ ¬ s.InFlight c.tm) : Quiet C s (.coAwait n) where
  found _ _ _ ha := by cases ha
  fired _ _ ha := by cases ha
  awaited k c tm ha := by
    cases ha
    exact h c tm

theorem await_suspend_before_resume_ping :
    ∃ s t c tm, exec (step wire) init [.request 0 ping, .coAwait 0, .storeHandle 0, .send 0] =
        some s ∧ step wire s (.setExpiry 0) = some t ∧ s.calls 0 = some c ∧
      s.messages c.tm = some tm ∧ tm.m_response = none := by
  have hrun : (exec (step wire) init [.request 0 ping, .coAwait 0, .storeHandle 0,
      .send 0]).map (fun s => (step wire s (.setExpiry 0)).isSome) = some true := by
    decide +kernel
  have hbefore : (exec (step wire) init [.request 0 ping]).map (fun s =>
      ((s.calls 0).map fun c => (c.tm, c.wait), (s.messages 0).map TimedMessage.m_response)) =
        some (some (0, .idle), some none) := by
    decide +kernel
  obtain ⟨s, hs, hsome⟩ := Option.map_eq_some_iff.mp hrun
  obtain ⟨t, ht⟩ := Option.isSome_iff_exists.mp hsome
  have hother : ∀ a ∈ [Act.storeHandle 0, .send 0], ∀ s, Quiet wire s a := by
    intro a ha s
    simp only [List.mem_cons, List.not_mem_nil, or_false] at ha
    rcases ha with rfl | rfl <;> exact quiet_of_ne nofun nofun nofun
  have hquiet : Along (step wire) (Quiet wire) init
      ([Act.request 0 ping] ++ Act.coAwait 0 :: [.storeHandle 0, .send 0]) := by
    refine along_append ⟨quiet_of_ne nofun nofun nofun, fun _ _ => trivial⟩
      fun t ht => ⟨quiet_coAwait fun c tm hc htm => ?_, fun u _ => along_of_mem hother u⟩
    simp only [ht, hc, Option.map_some, Option.some.injEq, Prod.mk.injEq] at hbefore
    obtain ⟨⟨hx, hw⟩, hr⟩ := hbefore
    refine ⟨by simpa [← hx, htm] using hr, not_inFlight ht (by simp) fun k ck hck => ?_⟩
    have hk := (carries_arrived ht).call k ck hck
    simp only [List.mem_singleton, Act.request.injEq] at hk
    rw [hk.1, hc] at hck
    cases hck
    simp [hw]
  obtain ⟨c, tm, hc, htm, -, -, hr⟩ := await_suspend_before_resume hquiet hs rfl ht
  exact ⟨s, t, c, tm, hs, ht, hc, htm, hr⟩

/-- The answer to the text that was sent is handled before the timer is armed. -/
def fastReply : List Act :=
  [.request 0 ping, .coAwait 0, .storeHandle 0, .send 0] ++
    [.arrive 0 pongText, .dispatch 0, .set (.task 0)]

theorem fastReply_built : Along (step wire) (Built wire) init fastReply := by
  have hsent : (exec (step wire) init [.request 0 ping, .coAwait 0, .storeHandle 0,
      .send 0]).map State.sent = some [(0, pingText)] := by
    decide +kernel
  refine along_append (along_of_mem ?_ init) fun t ht =>
    ⟨built_pong (by simpa [ht] using hsent), fun u _ => along_of_mem ?_ u⟩
  · rintro _ ha s j rawMessage m rfl
    simp at ha
  · rintro _ ha s j rawMessage m rfl
    simp at ha

/-- The peer has answered what it has received, the coroutine has been resumed, and then
`await_suspend` arms the timer. -/
theorem timer_armed_after_resume :
    Along (step wire) (Built wire) init fastReply ∧
    ∃ s c t c', exec (step wire) init fastReply = some s ∧ s.calls 0 = some c ∧
      c.resumes = 1 ∧ exec (step wire) s [.setExpiry 0, .armWait 0] = some t ∧
      t.calls 0 = some c' ∧ c'.wait = .pending := by
  have hrun : (exec (step wire) init fastReply).map (fun s => (s.calls 0).map
      Call.resumes) = some (some 1) := by
    decide +kernel
  have hlater : (exec (step wire) init (fastReply ++ [.setExpiry 0, .armWait 0])).map
      (fun s => (s.calls 0).map Call.wait) = some (some .pending) := by
    decide +kernel
  obtain ⟨s, hs, hcall⟩ := Option.map_eq_some_iff.mp hrun
  obtain ⟨c, hc, hres⟩ := Option.map_eq_some_iff.mp hcall
  obtain ⟨t, ht, hcall'⟩ := Option.map_eq_some_iff.mp hlater
  obtain ⟨c', hc', hw⟩ := Option.map_eq_some_iff.mp hcall'
  obtain ⟨s', hs', hst⟩ := exec_append.mp ht
  rw [hs] at hs'
  cases hs'
  exact ⟨fastReply_built, s, c, t, c', hs, hc, hres, hst, hc', hw⟩

end State

end Zatestil.Messaging
