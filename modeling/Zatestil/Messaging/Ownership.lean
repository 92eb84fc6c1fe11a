import Zatestil.Messaging.Waiters

/-!
# Who owns a message while `set` runs

The handler of an inbound text calls `set` through the map and keeps no pointer of its own,
and `set` itself gives up the entry, cancels the timer and lets the coroutine drop its
`Awaiter`. So the message outlives the call only if a completion handler still holds it.
-/
namespace Zatestil.Messaging
open Library

namespace State

variable {C : Codec} {s t : State} {a : Act} {as : List Act} {x : Nat}

/-- The handler `j` has found the message `x`, and `set` has not returned. -/
def Serving (s : State) (j x : Nat) : Prop :=
  (∃ m, s.tasks j = some (.found x m)) ∨ s.tasks j = some (.resuming x)

/-- A completion handler of a wait on the message `x` is there and has not finished. -/
def Guarded (s : State) (x : Nat) : Prop :=
  ∃ n c, s.calls n = some c ∧ c.tm = x ∧ c.wait.live = true

/-- A message is found only while it is guarded, and none of its completion handlers finishes
while a handler serves it. -/
structure Attended (C : Codec) (s : State) (a : Act) : Prop where
  found : ∀ j x m, a = .dispatch j → Matches C s j x m → s.Guarded x
  dropped : ∀ n c j, s.calls n = some c → Drops s a n c → ¬ s.Serving j c.tm

theorem Step.serving_of (h : Step C s a t) {j : Nat} (hj : t.Serving j x) :
    s.Serving j x ∨ ∃ m, a = .dispatch j ∧ Matches C s j x m := by
  rcases hj with ⟨m, hj⟩ | hj
  · rcases h.found_of hj with hj | ⟨ha, hm⟩
    · exact .inl (.inl ⟨m, hj⟩)
    · exact .inr ⟨m, ha, hm⟩
  · rcases h.resuming_of hj with hj | ⟨m, hj⟩
    · exact .inl (.inr hj)
    · exact .inl (.inl ⟨m, hj⟩)

/-- A guard stays unless its handler finishes. -/
theorem Step.guarded (h : Step C s a t) (hx : s.Guarded x)
    (hdrop : ∀ n c, s.calls n = some c → c.tm = x → ¬ Drops s a n c) : t.Guarded x := by
  obtain ⟨n, c, hc, hcx, hlive⟩ := hx
  obtain ⟨c', hc', hmoved⟩ := h.call_kept hc
  refine ⟨n, c', hc', hmoved.tm.trans hcx, ?_⟩
  exact (hmoved.live hlive).resolve_right (hdrop n c hc hcx)

theorem Step.serving_guarded (h : Step C s a t) (hs : ∀ j x, s.Serving j x → s.Guarded x)
    (ha : Attended C s a) : ∀ j x, t.Serving j x → t.Guarded x := by
  intro j x hj
  rcases h.serving_of hj with hj | ⟨m, rfl, hm⟩
  · refine h.guarded (hs j x hj) fun n c hc hcx hdrop => ?_
    exact ha.dropped n c j hc hdrop (hcx ▸ hj)
  · refine h.guarded (ha.found j x m rfl hm) fun n c _ _ hdrop => ?_
    rcases hdrop with hdrop | hdrop | ⟨hdrop, -⟩ <;> cases hdrop

/-- A completion handler holds its message. -/
theorem Inv.owned (hI : s.Inv) {n : Nat} {c : Call} (hc : s.calls n = some c)
    (hlive : c.wait.live = true) : ∃ tm, s.messages c.tm = some tm ∧ tm.owners ≠ ∅ := by
  obtain ⟨tm, htm, hl⟩ := hI.linked n c hc
  exact ⟨tm, htm, Finset.ne_empty_of_mem (hl.handler hlive)⟩

/-- If a message is found only while a completion handler holds it, and that one does not finish
first, it has an owner until `set` returns; a timer handler is always an owner itself. -/
theorem owned_while_set_runs (hrun : Along (step C) (Attended C) init as)
    (h : exec (step C) init as = some s) :
    (∀ j x, s.Serving j x → ∃ tm, s.messages x = some tm ∧ tm.owners ≠ ∅) ∧
    ∀ n c, s.calls n = some c → c.wait = .started ∨ c.wait = .resuming →
      ∃ tm, s.messages c.tm = some tm ∧ tm.owners ≠ ∅ := by
  have hI := inv_exec h
  have hguarded : ∀ j x, s.Serving j x → s.Guarded x := by
    refine exec_keeps (J := fun s => ∀ j x, s.Serving j x → s.Guarded x) ?_ ?_ hrun h
    · rintro j x (⟨m, hj⟩ | hj) <;> cases hj
    · intro s a t _ _ hs ha hstep
      exact hstep.serving_guarded hs ha
  refine ⟨fun j x hj => ?_, fun n c hc hw => ?_⟩
  · obtain ⟨n, c, hc, rfl, hlive⟩ := hguarded j x hj
    exact hI.owned hc hlive
  · apply hI.owned hc
    rcases hw with hw | hw <;> rw [hw] <;> rfl

theorem attended_of_ne (hd : ∀ j, a ≠ .dispatch j) (haborted : ∀ n, a ≠ .abortedWait n)
    (hset : ∀ n, a ≠ .set (.timer n)) (hreturn : ∀ n, a ≠ .setReturn (.timer n)) :
    Attended C s a where
  found j _ _ h := absurd h (hd j)
  dropped n c _ _ hdrop := by
    rcases hdrop with h | h | ⟨h, -⟩
    · exact absurd h (haborted n)
    · exact absurd h (hreturn n)
    · exact absurd h (hset n)

/-- The response of a suspended caller is handled up to the end of its `co_await`. -/
def servedRun : List Act :=
  awaitRun 0 ping ++ [.arrive 0 pongText] ++
    .dispatch 0 :: [.set (.task 0), .endAwait 0]

theorem owned_while_set_runs_ping :
    ∃ s tm, exec (step wire) init servedRun = some s ∧ s.tasks 0 = some (.resuming 0) ∧
      s.messages 0 = some tm ∧ tm.owners ≠ ∅ := by
  have hrun : (exec (step wire) init servedRun).map (fun s => s.tasks 0) =
      some (some (.resuming 0)) := by
    decide +kernel
  have hbefore : (exec (step wire) init (awaitRun 0 ping ++ [.arrive 0 pongText])).map
      (fun s => (s.tasks 0, s.m_timedMessages 1, (s.calls 0).map fun c => (c.tm, c.wait))) =
        some (some (.posted pongText), some 0, some (0, .pending)) := by
    decide +kernel
  obtain ⟨s, hs, htask⟩ := Option.map_eq_some_iff.mp hrun
  have hattended : Along (step wire) (Attended wire) init servedRun := by
    refine along_append (along_of_mem ?_ init) fun t ht => ⟨?_, fun u _ => along_of_mem ?_ u⟩
    · intro a ha s
      refine attended_of_ne ?_ ?_ ?_ ?_ <;> rintro n rfl <;> simp [awaitRun] at ha
    · simp only [ht, Option.map_some, Option.some.injEq, Prod.mk.injEq] at hbefore
      obtain ⟨hj, hid, hcall⟩ := hbefore
      obtain ⟨c, hc, hfacts⟩ := Option.map_eq_some_iff.mp hcall
      obtain ⟨hx, hw⟩ := Prod.mk.inj hfacts
      refine ⟨fun j x m heq hm => ?_, fun n c _ _ hdrop => ?_⟩
      · cases heq
        obtain ⟨rfl, -⟩ := matches_pong hj hid hm
        exact ⟨0, c, hc, hx, by rw [hw]; rfl⟩
      · rcases hdrop with hdrop | hdrop | ⟨hdrop, -⟩ <;> cases hdrop
    · intro a ha s
      refine attended_of_ne ?_ ?_ ?_ ?_ <;> rintro n rfl <;> simp at ha
  obtain ⟨howned, -⟩ := owned_while_set_runs hattended hs
  obtain ⟨tm, htm, hne⟩ := howned 0 0 (.inr htask)
  exact ⟨s, tm, hs, htask, htm, hne⟩

/-- The aborted completion handler ends on another thread before `set` returns. -/
theorem unowned_before_set_returns :
    ∃ s tm, exec (step wire) init (servedRun ++ [.abortedWait 0]) = some s ∧
      s.tasks 0 = some (.resuming 0) ∧ s.messages 0 = some tm ∧ tm.owners = ∅ := by
  have hrun : (exec (step wire) init (servedRun ++ [.abortedWait 0])).map (fun s =>
      (s.tasks 0, (s.messages 0).map TimedMessage.owners)) =
        some (some (.resuming 0), some ∅) := by
    decide +kernel
  obtain ⟨s, hs, hfacts⟩ := Option.map_eq_some_iff.mp hrun
  obtain ⟨htask, hmessage⟩ := Prod.mk.inj hfacts
  obtain ⟨tm, htm, howners⟩ := Option.map_eq_some_iff.mp hmessage
  exact ⟨s, tm, hs, htask, htm, howners⟩

end State

end Zatestil.Messaging
