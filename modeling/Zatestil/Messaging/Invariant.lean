import Zatestil.Messaging.Steps

/-!
# The invariant of the requester

It holds whatever the ids are and whatever arrives. `Linked` ties a call to its message,
`Sound` is about one message, and `Inv` adds how the map, the handles and the tasks point to
messages. The steps are made of a few updates; each of them keeps the invariant under a
condition on what it updates (`Inv.modifyCall` and so on), and `Step.inv` puts them together.
-/
namespace Zatestil.Messaging
open Library

/-- `await_suspend` has stored the handle. -/
def Pc.isStored : Pc → Bool
  | .requested | .awaiting => false
  | .stored | .sent | .expirySet | .armed | .returned => true

/-- `await_suspend` has armed the timer. -/
def Pc.isArmed : Pc → Bool
  | .armed | .returned => true
  | .requested | .awaiting | .stored | .sent | .expirySet => false

/-- The call `n` and the message it was given. -/
structure Linked (n : Nat) (c : Call) (tm : TimedMessage) : Prop where
  id : tm.m_message.id = c.message.id
  stored : c.pc.isStored = true → tm.m_handle ≠ none
  armed : c.wait ≠ .idle → c.pc.isArmed = true
  once : c.resumes ≤ 1
  resumed : c.resumes ≠ 0 → tm.m_response ≠ none
  result : ∀ r, c.result = some r → c.resumes = 1 ∧ tm.m_response = some r
  handler : c.wait.live = true → .handler n ∈ tm.owners
  awaiter : c.pc ≠ .requested → c.result = none → .awaiter n ∈ tm.owners

/-- The response of a message is the first one that was given to `set`. -/
structure Sound (tm : TimedMessage) : Prop where
  once : tm.resumes ≤ 1
  unanswered : tm.m_response = none → tm.resumes = 0
  first : tm.m_response = tm.processed.head?
  matching : ∀ m ∈ tm.processed, m.type = .response ∧ m.id = tm.m_message.id

namespace Linked

variable {n : Nat} {c : Call} {tm : TimedMessage}

/-- A call whose timer is not armed yet has no wait. -/
theorem idle (h : Linked n c tm) (hpc : c.pc.isArmed = false) : c.wait = .idle := by
  by_contra hw
  simp [h.armed hw] at hpc

/-- Only its own pointers matter to a call. -/
theorem withOwners (h : Linked n c tm) {owners : Finset Owner} {stuck : Bool}
    (hhandler : c.wait.live = true → .handler n ∈ tm.owners → .handler n ∈ owners)
    (hawaiter : c.result = none → .awaiter n ∈ tm.owners → .awaiter n ∈ owners) :
    Linked n c { tm with owners := owners, stuck := stuck } :=
  { h with
    handler := fun hw => hhandler hw (h.handler hw)
    awaiter := fun hpc hr => hawaiter hr (h.awaiter hpc hr) }

end Linked

theorem Sound.withOwners {tm : TimedMessage} (h : Sound tm) (owners : Finset Owner)
    {stuck : Bool} : Sound { tm with owners := owners, stuck := stuck } := { h with }

theorem Sound.matching_append {tm : TimedMessage} (h : Sound tm) {m : Message}
    (htype : m.type = .response) (hid : tm.m_message.id = m.id) :
    ∀ m' ∈ tm.processed ++ [m], m'.type = .response ∧ m'.id = tm.m_message.id := by
  intro m' hm'
  rcases List.mem_append.mp hm' with hm' | hm'
  · exact h.matching m' hm'
  · rw [List.mem_singleton.mp hm']
    exact ⟨htype, hid.symm⟩

/-- What `set` makes of an empty response. -/
def TimedMessage.answered (tm : TimedMessage) (m : Message) : TimedMessage :=
  { tm with
    owners := tm.owners.erase .entry
    m_response := some m
    locked := true
    processed := tm.processed ++ [m] }

namespace State

/-- The message `x`, which was `tm`, gets the response `m` and loses its entry. -/
def answer (s : State) (x : Nat) (tm : TimedMessage) (m : Message) : State :=
  { s with
    m_timedMessages := Function.update s.m_timedMessages m.id none
    messages := Function.update s.messages x (some (tm.answered m)) }

@[grind =] theorem answer_messages (s : State) (x : Nat) (tm : TimedMessage) (m : Message)
    (y : Nat) :
    (s.answer x tm m).messages y = if y = x then some (tm.answered m) else s.messages y :=
  Function.update_apply ..

@[grind =] theorem answer_timedMessages (s : State) (x : Nat) (tm : TimedMessage) (m : Message)
    (id : UInt64) :
    (s.answer x tm m).m_timedMessages id =
      if id = m.id then none else s.m_timedMessages id :=
  Function.update_apply ..

structure Inv (s : State) : Prop where
  entry : ∀ id x, s.m_timedMessages id = some x →
    ∃ tm, s.messages x = some tm ∧ tm.m_message.id = id ∧ tm.m_response = none
  registered : ∀ x tm, s.messages x = some tm → tm.m_response = none →
    s.m_timedMessages tm.m_message.id = some x ∧ .entry ∈ tm.owners
  creator : ∀ x tm, s.messages x = some tm →
    ∃ c, s.calls x = some c ∧ c.tm = x ∧ c.message = tm.m_message
  handle : ∀ x tm n, s.messages x = some tm → tm.m_handle = some n →
    ∃ c, s.calls n = some c ∧ c.tm = x ∧ c.pc ≠ .requested
  linked : ∀ n c, s.calls n = some c → ∃ tm, s.messages c.tm = some tm ∧ Linked n c tm
  sound : ∀ x tm, s.messages x = some tm → Sound tm
  found : ∀ j x m, s.tasks j = some (.found x m) →
    m.type = .response ∧ ∃ tm, s.messages x = some tm ∧ tm.m_message.id = m.id

variable {C : Codec} {s t : State}

theorem inv_init : init.Inv := by
  constructor <;> intros <;> contradiction

namespace Inv

/-- A call knows its message. -/
theorem linked_of (h : s.Inv) {n : Nat} {c : Call} {tm : TimedMessage}
    (hc : s.calls n = some c) (htm : s.messages c.tm = some tm) : Linked n c tm := by
  obtain ⟨tm', htm', hl⟩ := h.linked n c hc
  rw [htm] at htm'
  cases htm'
  exact hl

/-- A message is there only with the call that registered it. -/
theorem fresh (h : s.Inv) {n : Nat} (hn : s.calls n = none) : s.messages n = none := by
  by_contra hne
  obtain ⟨tm, htm⟩ := Option.ne_none_iff_exists'.mp hne
  obtain ⟨c, hc, -⟩ := h.creator n tm htm
  simp [hn] at hc

theorem fail (h : s.Inv) (fault : Fault) : (s.fail fault).Inv := { h with }

theorem setTask (h : s.Inv) (j : Nat) {task : Task}
    (ht : ∀ x m, task = .found x m →
      m.type = .response ∧ ∃ tm, s.messages x = some tm ∧ tm.m_message.id = m.id) :
    (s.setTask j task).Inv := by
  refine { h with found := ?_ }
  intro k x m hk
  rw [setTask_tasks] at hk
  split_ifs at hk with hkj
  · exact ht x m (Option.some.inj hk)
  · exact h.found k x m hk

/-- An update of calls that keeps each of them linked to its message. -/
theorem mapCalls (h : s.Inv) (g : Nat → Call → Call)
    (hg : ∀ n c tm, s.calls n = some c → s.messages c.tm = some tm → Linked n c tm →
      (g n c).message = c.message ∧ (g n c).tm = c.tm ∧
        (c.pc ≠ .requested → (g n c).pc ≠ .requested) ∧ Linked n (g n c) tm) :
    ({ s with calls := fun n => (s.calls n).map (g n) } : State).Inv := by
  refine { h with creator := ?_, handle := ?_, linked := ?_ }
  · intro x tm htm
    obtain ⟨c, hc, hx, hm⟩ := h.creator x tm htm
    obtain ⟨hm', htm', -⟩ := hg x c tm hc (hx ▸ htm) (h.linked_of hc (hx ▸ htm))
    exact ⟨g x c, by simp [hc], htm'.trans hx, hm'.trans hm⟩
  · intro x tm k htm hk
    obtain ⟨c, hc, hx, hpc⟩ := h.handle x tm k htm hk
    obtain ⟨-, htm', hpc', -⟩ := hg k c tm hc (hx ▸ htm) (h.linked_of hc (hx ▸ htm))
    exact ⟨g k c, by simp [hc], htm'.trans hx, hpc' hpc⟩
  · intro k c' hc'
    obtain ⟨c, hc, rfl⟩ := Option.map_eq_some_iff.mp hc'
    obtain ⟨tm, htm, hl⟩ := h.linked k c hc
    obtain ⟨-, htm', -, hl'⟩ := hg k c tm hc htm hl
    exact ⟨tm, by rw [htm']; exact htm, hl'⟩

theorem modifyCall (h : s.Inv) (n : Nat) (f : Call → Call)
    (hf : ∀ c tm, s.calls n = some c → s.messages c.tm = some tm → Linked n c tm →
      (f c).message = c.message ∧ (f c).tm = c.tm ∧
        (c.pc ≠ .requested → (f c).pc ≠ .requested) ∧ Linked n (f c) tm) :
    (s.modifyCall n f).Inv := by
  have hmap : s.modifyCall n f =
      { s with calls := fun k => (s.calls k).map fun c => if k = n then f c else c } := by
    simp only [State.modifyCall, State.mk.injEq, true_and, and_true]
    funext k
    rw [Function.update_apply]
    split_ifs with hk
    · rw [hk]
    · simp
  rw [hmap]
  refine h.mapCalls _ fun k c tm hc htm hl => ?_
  split_ifs with hk
  · subst hk
    exact hf c tm hc htm hl
  · exact ⟨rfl, rfl, id, hl⟩

/-- Aborting waits takes away no handler. -/
theorem cancel (h : s.Inv) (x : Nat) : (s.cancel x).Inv := by
  refine h.mapCalls (fun _ => Call.abort x) fun n c tm _ _ hl => ?_
  unfold Call.abort
  split_ifs with hcond
  · refine ⟨rfl, rfl, id, { hl with armed := fun _ => hl.armed ?_, handler := fun _ => ?_ }⟩
    · simp [hcond.2]
    · exact hl.handler (by rw [hcond.2]; rfl)
  · exact ⟨rfl, rfl, id, hl⟩

/-- An update of a message that does not answer it. -/
theorem modifyMessage (h : s.Inv) (x : Nat) (f : TimedMessage → TimedMessage)
    (hf : ∀ tm, s.messages x = some tm →
      (f tm).m_message = tm.m_message ∧ (f tm).m_response = tm.m_response ∧
        (.entry ∈ tm.owners → .entry ∈ (f tm).owners) ∧ (Sound tm → Sound (f tm)) ∧
        (∀ n, (f tm).m_handle = some n → tm.m_handle = some n ∨
          ∃ c, s.calls n = some c ∧ c.tm = x ∧ c.pc ≠ .requested) ∧
        ∀ n c, s.calls n = some c → c.tm = x → Linked n c tm → Linked n c (f tm)) :
    (s.modifyMessage x f).Inv := by
  -- a message of the new state is an old one, or the updated one
  have hback : ∀ y tm', (s.modifyMessage x f).messages y = some tm' →
      s.messages y = some tm' ∨ y = x ∧ ∃ tm, s.messages x = some tm ∧ tm' = f tm := by
    intro y tm' htm'
    rw [modifyMessage_messages] at htm'
    split_ifs at htm' with hy
    · obtain ⟨tm, htm, rfl⟩ := Option.map_eq_some_iff.mp htm'
      exact .inr ⟨hy, tm, htm, rfl⟩
    · exact .inl htm'
  have hforward : ∀ y tm, s.messages y = some tm → ∃ tm',
      (s.modifyMessage x f).messages y = some tm' ∧ tm'.m_message = tm.m_message ∧
        tm'.m_response = tm.m_response ∧
        ∀ n c, s.calls n = some c → c.tm = y → Linked n c tm → Linked n c tm' := by
    intro y tm htm
    rw [modifyMessage_messages]
    by_cases hy : y = x
    · subst hy
      obtain ⟨hm, hr, -, -, -, hl⟩ := hf tm htm
      exact ⟨f tm, by simp [htm], hm, hr, hl⟩
    · exact ⟨tm, by simp [hy, htm], rfl, rfl, fun _ _ _ _ => id⟩
  refine { h with
    entry := ?_, registered := ?_, creator := ?_, handle := ?_, linked := ?_, sound := ?_,
    found := ?_ }
  · intro id y hid
    obtain ⟨tm, htm, hm, hr⟩ := h.entry id y hid
    obtain ⟨tm', htm', hm', hr', -⟩ := hforward y tm htm
    exact ⟨tm', htm', by rw [hm', hm], hr'.trans hr⟩
  · intro y tm' htm' hr
    rcases hback y tm' htm' with htm | ⟨rfl, tm, htm, rfl⟩
    · exact h.registered y tm' htm hr
    · obtain ⟨hm, hr', howner, -⟩ := hf tm htm
      obtain ⟨hid, hentry⟩ := h.registered y tm htm (hr' ▸ hr)
      exact ⟨by rw [hm]; exact hid, howner hentry⟩
  · intro y tm' htm'
    rcases hback y tm' htm' with htm | ⟨rfl, tm, htm, rfl⟩
    · exact h.creator y tm' htm
    · obtain ⟨c, hc, hy, hm⟩ := h.creator y tm htm
      exact ⟨c, hc, hy, hm.trans (hf tm htm).1.symm⟩
  · intro y tm' n htm' hn
    rcases hback y tm' htm' with htm | ⟨rfl, tm, htm, rfl⟩
    · exact h.handle y tm' n htm hn
    · obtain ⟨-, -, -, -, hhandle, -⟩ := hf tm htm
      rcases hhandle n hn with hn | hc
      · exact h.handle y tm n htm hn
      · exact hc
  · intro n c hc
    obtain ⟨tm, htm, hl⟩ := h.linked n c hc
    obtain ⟨tm', htm', -, -, hl'⟩ := hforward c.tm tm htm
    exact ⟨tm', htm', hl' n c hc rfl hl⟩
  · intro y tm' htm'
    rcases hback y tm' htm' with htm | ⟨rfl, tm, htm, rfl⟩
    · exact h.sound y tm' htm
    · exact (hf tm htm).2.2.2.1 (h.sound y tm htm)
  · intro j y m hj
    obtain ⟨htype, tm, htm, hid⟩ := h.found j y m hj
    obtain ⟨tm', htm', hm', -⟩ := hforward y tm htm
    exact ⟨htype, tm', htm', by rw [hm', hid]⟩

/-- A call that has just been given a message. -/
theorem linked_requested {n x : Nat} {m : Message} {tm : TimedMessage}
    (hid : tm.m_message.id = m.id) : Linked n ⟨m, x, .requested, .idle, 0, none⟩ tm where
  id := hid
  stored := nofun
  armed h := absurd rfl h
  once := Nat.zero_le _
  resumed h := absurd rfl h
  result := nofun
  handler := nofun
  awaiter h := absurd rfl h

/-- A new call on a message that is there. -/
theorem addCall (h : s.Inv) {n x : Nat} {m : Message} {tm : TimedMessage}
    (hn : s.calls n = none) (htm : s.messages x = some tm) (hid : tm.m_message.id = m.id) :
    (s.addCall n ⟨m, x, .requested, .idle, 0, none⟩).Inv := by
  have hold : ∀ k c, s.calls k = some c →
      (s.addCall n ⟨m, x, .requested, .idle, 0, none⟩).calls k = some c := by
    intro k c hc
    have hk : k ≠ n := by
      rintro rfl
      simp [hn] at hc
    simp [addCall_calls, hk, hc]
  refine { h with creator := ?_, handle := ?_, linked := ?_ }
  · intro y tm' htm'
    obtain ⟨c, hc, hy⟩ := h.creator y tm' htm'
    exact ⟨c, hold y c hc, hy⟩
  · intro y tm' k htm' hk
    obtain ⟨c, hc, hy⟩ := h.handle y tm' k htm' hk
    exact ⟨c, hold k c hc, hy⟩
  · intro k c hc
    rw [addCall_calls] at hc
    split_ifs at hc with hk
    · cases hc
      exact ⟨tm, htm, linked_requested hid⟩
    · exact h.linked k c hc

/-- A new message with its call. -/
theorem register (h : s.Inv) {n : Nat} {m : Message} (hn : s.calls n = none)
    (hid : s.m_timedMessages m.id = none) :
    ((s.register n m).addCall n ⟨m, n, .requested, .idle, 0, none⟩).Inv := by
  have hfresh := h.fresh hn
  have hmessage : ∀ y tm, s.messages y = some tm → (s.register n m).messages y = some tm := by
    intro y tm htm
    have hy : y ≠ n := by
      rintro rfl
      simp [hfresh] at htm
    simp [register_messages, hy, htm]
  have hregistered : ∀ y tm, (s.register n m).messages y = some tm →
      y = n ∧ tm = ⟨m, none, none, false, {.entry}, [], 0, false⟩ ∨ s.messages y = some tm := by
    intro y tm htm
    rw [register_messages] at htm
    split_ifs at htm with hy
    · exact .inl ⟨hy, (Option.some.inj htm).symm⟩
    · exact .inr htm
  have hcall : ∀ k c, s.calls k = some c →
      ((s.register n m).addCall n ⟨m, n, .requested, .idle, 0, none⟩).calls k = some c := by
    intro k c hc
    have hk : k ≠ n := by
      rintro rfl
      simp [hn] at hc
    simp [addCall_calls, hk]
    exact hc
  refine {
    entry := ?_, registered := ?_, creator := ?_, handle := ?_, linked := ?_, sound := ?_,
    found := ?_ }
  · intro id y hy
    change (s.register n m).m_timedMessages id = some y at hy
    rw [register_timedMessages] at hy
    split_ifs at hy with hidm
    · cases hy
      exact ⟨_, (register_messages s n m n).trans (if_pos rfl), hidm.symm, rfl⟩
    · obtain ⟨tm, htm, hrest⟩ := h.entry id y hy
      exact ⟨tm, hmessage y tm htm, hrest⟩
  · intro y tm htm hr
    change (s.register n m).m_timedMessages _ = some y ∧ _
    rw [register_timedMessages]
    rcases hregistered y tm htm with ⟨rfl, rfl⟩ | htm
    · simp
    · obtain ⟨hmap, hentry⟩ := h.registered y tm htm hr
      have hne : tm.m_message.id ≠ m.id := by
        intro heq
        rw [heq, hid] at hmap
        cases hmap
      exact ⟨by rw [if_neg hne]; exact hmap, hentry⟩
  · intro y tm htm
    rcases hregistered y tm htm with ⟨rfl, rfl⟩ | htm
    · exact ⟨_, by rw [addCall_calls, if_pos rfl], rfl, rfl⟩
    · obtain ⟨c, hc, hrest⟩ := h.creator y tm htm
      exact ⟨c, hcall y c hc, hrest⟩
  · intro y tm k htm hk
    rcases hregistered y tm htm with ⟨-, rfl⟩ | htm
    · cases hk
    · obtain ⟨c, hc, hrest⟩ := h.handle y tm k htm hk
      exact ⟨c, hcall k c hc, hrest⟩
  · intro k c hc
    rw [addCall_calls] at hc
    split_ifs at hc with hk
    · cases hc
      exact ⟨_, (register_messages s n m n).trans (if_pos rfl), linked_requested rfl⟩
    · obtain ⟨tm, htm, hl⟩ := h.linked k c hc
      exact ⟨tm, hmessage c.tm tm htm, hl⟩
  · intro y tm htm
    rcases hregistered y tm htm with ⟨-, rfl⟩ | htm
    · exact ⟨Nat.zero_le _, fun _ => rfl, rfl, nofun⟩
    · exact h.sound y tm htm
  · intro j y m' hj
    obtain ⟨htype, tm, htm, hid'⟩ := h.found j y m' hj
    exact ⟨htype, tm, hmessage y tm htm, hid'⟩

section Settle

variable {x : Nat} {m : Message} {tm : TimedMessage}

/-- The entry that goes is the one of the message, since that has no response yet. -/
theorem settle_eq (h : s.Inv) (htm : s.messages x = some tm) (hr : tm.m_response = none)
    (hid : tm.m_message.id = m.id) :
    s.settle x m = (s.answer x tm m).cancel x := by
  have hmap : s.m_timedMessages m.id = some x := hid ▸ (h.registered x tm htm hr).1
  simp [State.settle, eraseEntry, hmap, State.modifyMessage, htm, answer, TimedMessage.answered]

theorem linked_answered {n : Nat} {c : Call} (hl : Linked n c tm) (hr : tm.m_response = none) :
    Linked n c (tm.answered m) where
  id := hl.id
  stored := hl.stored
  armed := hl.armed
  once := hl.once
  resumed _ := by simp [TimedMessage.answered]
  result r hres := by simp [(hl.result r hres).2] at hr
  handler hw := Finset.mem_erase.mpr ⟨by simp, hl.handler hw⟩
  awaiter hpc hres := Finset.mem_erase.mpr ⟨by simp, hl.awaiter hpc hres⟩

theorem sound_answered (hs : Sound tm) (hr : tm.m_response = none) (htype : m.type = .response)
    (hid : tm.m_message.id = m.id) : Sound (tm.answered m) where
  once := hs.once
  unanswered := nofun
  first := by
    have hnil : tm.processed = [] := by
      rw [← List.head?_eq_none_iff, ← hs.first, hr]
    simp [TimedMessage.answered, hnil]
  matching := hs.matching_append htype hid

theorem settle (h : s.Inv) (htm : s.messages x = some tm) (hr : tm.m_response = none)
    (htype : m.type = .response) (hid : tm.m_message.id = m.id) : (s.settle x m).Inv := by
  rw [h.settle_eq htm hr hid]
  refine Inv.cancel ?_ x
  refine {
    entry := ?_, registered := ?_, creator := ?_, handle := ?_, linked := ?_, sound := ?_,
    found := ?_ }
  · intro id y hy
    rw [answer_timedMessages] at hy
    split_ifs at hy with hidm
    obtain ⟨tm', htm', hid', hr'⟩ := h.entry id y hy
    have hne : y ≠ x := by
      rintro rfl
      rw [htm] at htm'
      cases htm'
      exact hidm (hid'.symm.trans hid)
    exact ⟨tm', by simp [answer_messages, hne, htm'], hid', hr'⟩
  · intro y tm' htm' hr'
    rw [answer_messages] at htm'
    split_ifs at htm' with hy
    · cases htm'
      cases hr'
    · obtain ⟨hmap, hentry⟩ := h.registered y tm' htm' hr'
      have hne : tm'.m_message.id ≠ m.id := by
        intro heq
        rw [heq, ← hid, (h.registered x tm htm hr).1] at hmap
        exact hy (Option.some.inj hmap).symm
      exact ⟨by simp [answer_timedMessages, hne, hmap], hentry⟩
  · intro y tm' htm'
    rw [answer_messages] at htm'
    split_ifs at htm' with hy
    · cases htm'
      rw [hy]
      exact h.creator x tm htm
    · exact h.creator y tm' htm'
  · intro y tm' n htm' hn
    rw [answer_messages] at htm'
    split_ifs at htm' with hy
    · cases htm'
      rw [hy]
      exact h.handle x tm n htm hn
    · exact h.handle y tm' n htm' hn
  · intro n c hc
    obtain ⟨tm', htm', hl⟩ := h.linked n c hc
    by_cases hx : c.tm = x
    · rw [hx, htm] at htm'
      cases htm'
      exact ⟨tm.answered m, by simp [answer_messages, hx], linked_answered hl hr⟩
    · exact ⟨tm', by simp [answer_messages, hx, htm'], hl⟩
  · intro y tm' htm'
    rw [answer_messages] at htm'
    split_ifs at htm' with hy
    · cases htm'
      exact sound_answered (h.sound x tm htm) hr htype hid
    · exact h.sound y tm' htm'
  · intro j y m' hj
    obtain ⟨htype', tm', htm', hid'⟩ := h.found j y m' hj
    by_cases hy : y = x
    · rw [hy, htm] at htm'
      cases htm'
      exact ⟨htype', tm.answered m, by simp [answer_messages, hy], hid'⟩
    · exact ⟨htype', tm', by simp [answer_messages, hy, htm'], hid'⟩

end Settle

/-- Giving a call or a wait a new pointer to the message. -/
theorem addOwner (h : s.Inv) (x : Nat) (o : Owner) :
    (s.modifyMessage x fun tm => { tm with owners := insert o tm.owners }).Inv := by
  refine h.modifyMessage x _ fun tm _ => ⟨rfl, rfl, Finset.mem_insert_of_mem,
    fun hs => hs.withOwners _, fun n hn => .inl hn, fun n c _ _ hl => ?_⟩
  exact hl.withOwners (fun _ => Finset.mem_insert_of_mem) (fun _ => Finset.mem_insert_of_mem)

/-- A handler that is done gives its pointer back. -/
theorem dropHandler (h : s.Inv) (n x : Nat) (hn : ∀ c, s.calls n = some c → c.wait.live = true) :
    (s.dropHandler n x).Inv := by
  have hdone : (s.modifyCall n fun c => { c with wait := .done }).Inv := by
    refine h.modifyCall n _ fun c tm hc _ hl => ⟨rfl, rfl, id, ?_⟩
    refine { hl with armed := fun _ => hl.armed ?_, handler := nofun }
    intro hidle
    have hlive := hn c hc
    rw [hidle] at hlive
    cases hlive
  refine hdone.modifyMessage x _ fun tm _ => ⟨rfl, rfl, ?_, fun hs => hs.withOwners _,
    fun k hk => .inl hk, fun k c hc _ hl => hl.withOwners ?_ ?_⟩
  · exact fun he => Finset.mem_erase.mpr ⟨by simp, he⟩
  · intro hw he
    refine Finset.mem_erase.mpr ⟨?_, he⟩
    rintro hkn
    cases hkn
    rw [modifyCall_calls, if_pos rfl] at hc
    obtain ⟨c', -, rfl⟩ := Option.map_eq_some_iff.mp hc
    cases hw
  · exact fun _ he => Finset.mem_erase.mpr ⟨by simp, he⟩

/-- A runner comes back from `set`. -/
theorem finish (h : s.Inv) (x : Nat) (r : Runner)
    (hr : ∀ n c, r = .timer n → s.calls n = some c → c.wait.live = true) :
    (s.finish x r).Inv := by
  cases r with
  | task j => exact h.setTask j nofun
  | timer n => exact h.dropHandler n x fun c hc => hr n c rfl hc

/-- A runner goes into the resume. -/
theorem enter (h : s.Inv) (x : Nat) (r : Runner)
    (hr : ∀ n c, r = .timer n → s.calls n = some c → c.wait.live = true) :
    (s.enter x r).Inv := by
  cases r with
  | task j => exact h.setTask j nofun
  | timer n =>
    refine h.modifyCall n _ fun c tm hc _ hl => ⟨rfl, rfl, id, ?_⟩
    have hlive := hr n c rfl hc
    refine { hl with armed := fun _ => hl.armed ?_, handler := fun _ => hl.handler hlive }
    intro hidle
    rw [hidle] at hlive
    cases hlive

/-- Resuming a call whose message has just been answered. -/
theorem resume (h : s.Inv) {x n : Nat} {c : Call} {tm : TimedMessage}
    (hc : s.calls n = some c) (hx : c.tm = x) (htm : s.messages x = some tm)
    (hr : tm.m_response ≠ none) (htmr : tm.resumes = 0) (hcr : c.resumes = 0) :
    (s.resume x n).Inv := by
  have hmessage : (s.modifyMessage x fun tm => { tm with resumes := tm.resumes + 1 }).Inv := by
    refine h.modifyMessage x _ fun tm' htm' => ⟨rfl, rfl, id, fun hs => ?_, fun k hk => .inl hk,
      fun k c _ _ hl => { hl with }⟩
    rw [htm] at htm'
    cases htm'
    exact { hs with once := by simp [htmr], unanswered := fun hnone => absurd hnone hr }
  refine hmessage.modifyCall n _ fun c' tm' hc' htm' hl => ⟨rfl, rfl, id, ?_⟩
  have hc' : s.calls n = some c' := hc'
  rw [hc] at hc'
  cases hc'
  have htm' : tm' = { tm with resumes := tm.resumes + 1 } := by
    simpa [modifyMessage_messages, hx, htm] using htm'.symm
  subst htm'
  refine { hl with once := by simp [hcr], resumed := fun _ => hr, result := ?_ }
  intro r hres
  have := (hl.result r hres).1
  omega

end Inv

/-- Who calls `set` brings a response to the message. -/
theorem target_spec (h : s.Inv) {r : Runner} {x : Nat} {m : Message} {tm : TimedMessage}
    (ht : s.target r = some (x, m)) (htm : s.messages x = some tm) :
    m.type = .response ∧ tm.m_message.id = m.id ∧
      ∀ n, r = .timer n → ∃ c, s.calls n = some c ∧ c.tm = x ∧ c.wait = .started := by
  rcases target_cases ht with ⟨j, rfl, hj⟩ | ⟨n, c, tm', rfl, hc, hx, hw, htm', rfl⟩
  · obtain ⟨htype, tm', htm', hid⟩ := h.found j x m hj
    rw [htm] at htm'
    cases htm'
    exact ⟨htype, hid, nofun⟩
  · rw [htm] at htm'
    cases htm'
    refine ⟨rfl, rfl, fun k hk => ?_⟩
    cases hk
    exact ⟨c, hc, hx, hw⟩

theorem resuming_live {r : Runner} {x : Nat} (hr : s.resuming r = some x) :
    ∀ n c, r = .timer n → s.calls n = some c → c.wait.live = true := by
  rintro n c rfl hc
  obtain ⟨c', hc', hr⟩ := Option.bind_eq_some_iff.mp hr
  rw [hc] at hc'
  cases hc'
  split_ifs at hr with hw
  rw [hw]
  rfl

/-- A timer handler that has started stays so while other waits are aborted. -/
theorem abort_started {x : Nat} {c : Call} (hw : c.wait = .started) : c.abort x = c := by
  simp [Call.abort, hw]

/-! ### The steps of `await_suspend` -/

theorem inv_coAwait (h : s.Inv) {n : Nat} {c : Call} {tm : TimedMessage}
    (hc : s.calls n = some c) (htm : s.messages c.tm = some tm) (hpc : c.pc = .requested) :
    ((s.modifyMessage c.tm fun tm =>
      { tm with owners := insert (.awaiter n) tm.owners }).modifyCall n fun c =>
        { c with pc := .awaiting }).Inv := by
  refine (h.addOwner c.tm (.awaiter n)).modifyCall n _ fun c' tm' hc' htm' hl =>
    ⟨rfl, rfl, nofun, ?_⟩
  have hc' : s.calls n = some c' := hc'
  rw [hc] at hc'
  cases hc'
  have htm' : tm' = { tm with owners := insert (.awaiter n) tm.owners } := by
    simpa [htm] using htm'.symm
  have hidle : c.wait = .idle := hl.idle (by rw [hpc]; rfl)
  exact { hl with
    stored := nofun
    armed := fun hw => absurd hidle hw
    awaiter := fun _ _ => by simp [htm'] }

theorem inv_storeHandle (h : s.Inv) {n : Nat} {c : Call} {tm : TimedMessage}
    (hc : s.calls n = some c) (htm : s.messages c.tm = some tm) (hpc : c.pc = .awaiting) :
    ((s.modifyMessage c.tm fun tm => { tm with m_handle := some n }).modifyCall n fun c =>
      { c with pc := .stored }).Inv := by
  have hmessage : (s.modifyMessage c.tm fun tm => { tm with m_handle := some n }).Inv := by
    refine h.modifyMessage c.tm _ fun tm' _ => ⟨rfl, rfl, id, fun hs => { hs with }, ?_,
      fun k c' _ _ hl => { hl with stored := fun _ => nofun }⟩
    intro k hk
    cases hk
    exact .inr ⟨c, hc, rfl, by simp [hpc]⟩
  refine hmessage.modifyCall n _ fun c' tm' hc' htm' hl => ⟨rfl, rfl, nofun, ?_⟩
  have hc' : s.calls n = some c' := hc'
  rw [hc] at hc'
  cases hc'
  have htm' : tm' = { tm with m_handle := some n } := by
    simpa [htm] using htm'.symm
  have hidle : c.wait = .idle := hl.idle (by rw [hpc]; rfl)
  exact { hl with
    stored := fun _ => by simp [htm']
    armed := fun hw => absurd hidle hw
    awaiter := fun _ => hl.awaiter (by simp [hpc]) }

/-- The steps after the handle is stored only move the call on. -/
theorem inv_suspending (h : s.Inv) {n : Nat} {c : Call} (hc : s.calls n = some c) (pc : Pc)
    (hpc : pc ≠ .requested) (hold : c.pc.isStored = true)
    (harmed : c.pc.isArmed = true → pc.isArmed = true) :
    (s.modifyCall n fun c => { c with pc := pc }).Inv := by
  refine h.modifyCall n _ fun c' tm hc' _ hl => ⟨rfl, rfl, fun _ => hpc, ?_⟩
  rw [hc] at hc'
  cases hc'
  have hne : c.pc ≠ .requested := by
    intro heq
    simp [heq, Pc.isStored] at hold
  exact { hl with
    stored := fun _ => hl.stored hold
    armed := fun hw => harmed (hl.armed hw)
    awaiter := fun _ => hl.awaiter hne }

theorem inv_armWait (h : s.Inv) {n : Nat} {c : Call} {tm : TimedMessage}
    (hc : s.calls n = some c) (htm : s.messages c.tm = some tm) (hpc : c.pc = .expirySet) :
    ((s.modifyMessage c.tm fun tm =>
      { tm with owners := insert (.handler n) tm.owners }).modifyCall n fun c =>
        { c with pc := .armed, wait := .pending }).Inv := by
  refine (h.addOwner c.tm (.handler n)).modifyCall n _ fun c' tm' hc' htm' hl =>
    ⟨rfl, rfl, nofun, ?_⟩
  have hc' : s.calls n = some c' := hc'
  rw [hc] at hc'
  cases hc'
  have htm' : tm' = { tm with owners := insert (.handler n) tm.owners } := by
    simpa [htm] using htm'.symm
  exact { hl with
    stored := fun _ => hl.stored (by rw [hpc]; rfl)
    armed := fun _ => rfl
    handler := fun _ => by simp [htm']
    awaiter := fun _ => hl.awaiter (by simp [hpc]) }

/-- The coroutine takes the response, and its pointer goes. -/
theorem inv_endAwait (h : s.Inv) {n : Nat} {c : Call} {tm : TimedMessage} {response : Message}
    (hc : s.calls n = some c) (htm : s.messages c.tm = some tm)
    (hr : tm.m_response = some response) (hres : c.resumes ≠ 0) :
    (((s.modifyCall n fun c => { c with result := some response }).cancel c.tm).modifyMessage
      c.tm fun tm =>
        { tm with
          owners := tm.owners.erase (.awaiter n)
          stuck := tm.stuck || tm.locksAgain (.awaiter n) }).Inv := by
  have hcall : (s.modifyCall n fun c => { c with result := some response }).Inv := by
    refine h.modifyCall n _ fun c' tm' hc' htm' hl => ⟨rfl, rfl, id, ?_⟩
    rw [hc] at hc'
    cases hc'
    rw [htm] at htm'
    cases htm'
    refine { hl with result := ?_, awaiter := nofun }
    intro r hr'
    cases hr'
    have hone : c.resumes = 1 := by
      have := hl.once
      omega
    exact ⟨hone, hr⟩
  refine (hcall.cancel c.tm).modifyMessage c.tm _ fun tm' _ => ⟨rfl, rfl, ?_,
    fun hs => hs.withOwners _, fun k hk => .inl hk, fun k c' hc' _ hl => hl.withOwners ?_ ?_⟩
  · exact fun he => Finset.mem_erase.mpr ⟨by simp, he⟩
  · exact fun _ he => Finset.mem_erase.mpr ⟨by simp, he⟩
  · intro hnone he
    refine Finset.mem_erase.mpr ⟨?_, he⟩
    intro hk
    cases hk
    rw [cancel_calls, modifyCall_calls, if_pos rfl, hc] at hc'
    simp only [Option.map_some, Option.some.injEq] at hc'
    simp [← hc'] at hnone

/-! ### The steps of `set` -/

/-- A second response is only recorded. -/
theorem inv_late (h : s.Inv) {r : Runner} {x : Nat} {m : Message} {tm : TimedMessage}
    (ht : s.target r = some (x, m)) (htm : s.messages x = some tm) (hr : tm.m_response ≠ none) :
    ((s.modifyMessage x fun tm =>
      { tm with processed := tm.processed ++ [m] }).finish x r).Inv := by
  obtain ⟨htype, hid, htimer⟩ := target_spec h ht htm
  have hmessage : (s.modifyMessage x fun tm =>
      { tm with processed := tm.processed ++ [m] }).Inv := by
    refine h.modifyMessage x _ fun tm' htm' => ⟨rfl, rfl, id, fun hs => ?_,
      fun k hk => .inl hk, fun k c _ _ hl => { hl with }⟩
    rw [htm] at htm'
    cases htm'
    refine { hs with first := ?_, matching := hs.matching_append htype hid }
    have hfirst := hs.first
    cases hp : tm.processed with
    | nil => exact absurd (by rw [hfirst, hp]; rfl) hr
    | cons a as => simpa [hp] using hfirst
  refine hmessage.finish x r fun n c hn hc => ?_
  obtain ⟨c', hc', -, hw⟩ := htimer n hn
  have hc : s.calls n = some c := hc
  rw [hc] at hc'
  cases hc'
  rw [hw]
  rfl

/-- The first response resumes the handle. -/
theorem inv_resumed (h : s.Inv) {r : Runner} {x n : Nat} {m : Message} {tm : TimedMessage}
    (ht : s.target r = some (x, m)) (htm : s.messages x = some tm) (hr : tm.m_response = none)
    (hn : tm.m_handle = some n) : (((s.settle x m).resume x n).enter x r).Inv := by
  obtain ⟨htype, hid, htimer⟩ := target_spec h ht htm
  obtain ⟨c, hc, hx, -⟩ := h.handle x tm n htm hn
  have hl := h.linked_of hc (hx ▸ htm)
  have hcr : c.resumes = 0 := by
    by_contra hne
    exact hl.resumed hne hr
  have hsettled := h.settle htm hr htype hid
  have hanswered : (s.settle x m).messages x = some (tm.answered m) := by
    rw [h.settle_eq htm hr hid, cancel_messages, answer_messages, if_pos rfl]
  have hc' : (s.settle x m).calls n = some (c.abort x) := by simp [hc]
  refine (hsettled.resume hc' (by simpa using hx) hanswered nofun
    ((h.sound x tm htm).unanswered hr) (by simpa using hcr)).enter x r ?_
  -- the timer that called `set` is in its handler, whichever waits were aborted
  intro k ck hk hck
  obtain ⟨c₀, hc₀, -, hw⟩ := htimer k hk
  have hlive : Wait.started.live = true := rfl
  rw [resume_calls] at hck
  split_ifs at hck with hkn
  · obtain ⟨c₁, hc₁, rfl⟩ := Option.map_eq_some_iff.mp hck
    rw [← hkn, settle_calls, cancel_calls, hc₀, Option.map_some, abort_started hw] at hc₁
    cases hc₁
    simp [hw, hlive]
  · rw [settle_calls, cancel_calls, hc₀, Option.map_some, abort_started hw] at hck
    cases hck
    simp [hw, hlive]

/-- Every step keeps the invariant. -/
theorem Step.inv {a : Act} (hstep : Step C s a t) (h : s.Inv) : t.Inv := by
  cases hstep with
  | shared hn hx =>
    obtain ⟨tm, htm, hid, -⟩ := h.entry _ _ hx
    exact h.addCall hn htm hid
  | registered hn hx => exact h.register hn hx
  | dangling => exact h.fail _
  | coAwait hc htm hpc => exact inv_coAwait h hc htm hpc
  | storeHandle hc htm hpc => exact inv_storeHandle h hc htm hpc
  | send hc htm hpc =>
    exact { inv_suspending h hc .sent nofun (by rw [hpc]; rfl) (by simp [hpc, Pc.isArmed]) with }
  | @setExpiry n c hc hpc =>
    have hc' : (s.cancel c.tm).calls n = some (c.abort c.tm) := by simp [hc]
    exact inv_suspending (h.cancel c.tm) hc' .expirySet nofun (by simp [hpc, Pc.isStored])
      (by simp [hpc, Pc.isArmed])
  | armWait hc htm hpc => exact inv_armWait h hc htm hpc
  | suspended hc hpc =>
    exact inv_suspending h hc .returned nofun (by rw [hpc]; rfl) (fun _ => rfl)
  | arrive => exact h.setTask _ nofun
  | ignored => exact h.setTask _ nofun
  | found hm =>
    obtain ⟨raw, -, -, htype, hx⟩ := hm
    refine h.setTask _ fun x' m' heq => ?_
    cases heq
    obtain ⟨tm, htm, hid, -⟩ := h.entry _ _ hx
    exact ⟨htype, tm, htm, hid⟩
  | late ht htm hr => exact inv_late h ht htm hr
  | resumed ht htm hr hn => exact inv_resumed h ht htm hr hn
  | unhandled ht htm hr hn =>
    obtain ⟨htype, hid, -⟩ := target_spec h ht htm
    exact (h.settle htm hr htype hid).fail _
  | setReturn hr =>
    refine Inv.finish ?_ _ _ (resuming_live hr)
    exact h.modifyMessage _ _ fun tm _ => ⟨rfl, rfl, id, fun hs => { hs with },
      fun k hk => .inl hk, fun k c _ _ hl => { hl with }⟩
  | endAwait hc htm hr hres => exact inv_endAwait h hc htm hr hres
  | expire hc hw | fire hc hw =>
    refine h.modifyCall _ _ fun c' tm hc' _ hl => ⟨rfl, rfl, id, ?_⟩
    rw [hc] at hc'
    cases hc'
    exact { hl with
      armed := fun _ => hl.armed (by simp [hw])
      handler := fun _ => hl.handler (by rw [hw]; rfl) }
  | abortedWait hc hw =>
    refine h.dropHandler _ _ fun c' hc' => ?_
    rw [hc] at hc'
    cases hc'
    rw [hw]
    rfl
  | destroy => exact { h with }

theorem inv_exec {as : List Act} (h : exec (step C) init as = some s) : s.Inv :=
  exec_induct (fun _ _ _ hI hs => (step_sound hs).inv hI) inv_init h

/-- The rule for what holds along the runs that meet a condition. -/
theorem exec_keeps {J : State → Prop} {P : State → Act → Prop} {as : List Act} (hJ : J init)
    (keep : ∀ s a t, s.Inv → s.fault = none → J s → P s a → Step C s a t → J t)
    (hrun : Along (step C) P init as) (h : exec (step C) init as = some s) : J s := by
  refine (exec_invariant (I := fun s => s.Inv ∧ J s) ?_ ⟨inv_init, hJ⟩ hrun h).2
  rintro s a t ⟨hI, hJ⟩ ha hs
  have hstep := step_sound hs
  exact ⟨hstep.inv hI, keep s a t hI (step_fault hs) hJ ha hstep⟩

end State

end Zatestil.Messaging
