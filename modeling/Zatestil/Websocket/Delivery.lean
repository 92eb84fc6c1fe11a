import Zatestil.Websocket.Session

/-!
# Delivery of messages

The texts under way, from the handlers of the receiver back to the strand of the sender, are
what was sent, in that order: every step moves a text on, or drops it if a read or a write
fails. The handlers' tasks are conserved in the same way, from the fan-outs to the calls.
-/
namespace Zatestil.Websocket
open Library

/-- The tasks of some fan-outs: one for each handler that was registered. -/
def fannedOut {H : Type} (fanouts : List (Fanout H)) : List (Task H) :=
  fanouts.flatMap fun f => tasksFor f.text f.handlers.entries

namespace Link

variable {F : FlatBuffer} {H : Type} {s t : Link F H} {a : Action H}

/-! ## Buffers and tasks -/

/-- What holds between any two steps. -/
structure Sound (s : Link F H) : Prop where
  /-- A read starts with an empty buffer. -/
  cleared : s.phase = .armed → F.data s.m_rBuffer = []
  /-- The write buffer has the text of the running task and nothing else. -/
  written : ∀ data, s.writing = some data → s.m_wBuffer.data = data
  /-- What was posted and is to be posted is what was fanned out. -/
  posts : s.posted ++ s.phase.unposted = fannedOut s.fanouts
  /-- What was posted has been run or is waiting. -/
  runs : (s.calls ++ s.tasks).Perm s.posted

theorem sound_init (hF : F.Documented) (w : WBuffer F) (r : F.Buffer) (n : Nat) :
    (init w r n : Link F H).Sound where
  cleared _ := hF.data_clear r
  written _ h := by cases h
  posts := rfl
  runs := .refl _

theorem Step.sound (hF : F.Documented) (h : Step s a t) (hs : s.Sound) : t.Sound := by
  have hposts := hs.posts
  cases h with
  | send | deliver | setHandle | setHandleElsewhere | unsetHandle | close =>
    exact ⟨hs.cleared, hs.written, hs.posts, hs.runs⟩
  | fill data strand =>
    refine ⟨hs.cleared, ?_, hs.posts, hs.runs⟩
    rintro _ ⟨⟩
    exact WBuffer.data_fill hF data s.m_wBuffer
  | write | writeError => exact ⟨hs.cleared, by simp, hs.posts, hs.runs⟩
  | readDone m inbox hp | readError bytes taken hp | readClosed hp =>
    rw [hp] at hposts
    exact ⟨by simp, hs.written, hposts, hs.runs⟩
  | onRead hp =>
    have hposted : s.posted = fannedOut s.fanouts := by simpa [hp, ReadPhase.unposted] using hposts
    refine ⟨by simp, hs.written, ?_, hs.runs⟩
    simp [fannedOut, ReadPhase.unposted, hposted]
  | post rawMessage e handlers hp =>
    rw [hp] at hposts
    refine ⟨by simp, hs.written, ?_, ?_⟩
    · simpa [ReadPhase.unposted, tasksFor] using hposts
    · rw [← List.append_assoc]
      exact hs.runs.append_right _
  | rearm hp | stop hp =>
    have hnil : s.phase.unposted = [] := by
      rcases hp with hp | ⟨_, hp⟩ <;> rw [hp] <;> rfl
    rw [hnil] at hposts
    exact ⟨by simp [hF.data_clear], hs.written, hposts, hs.runs⟩
  | runTask n task hn =>
    refine ⟨hs.cleared, hs.written, hs.posts, ?_⟩
    obtain ⟨hlt, rfl⟩ := List.getElem?_eq_some_iff.mp hn
    refine List.Perm.trans ?_ hs.runs
    rw [List.append_assoc]
    exact (List.getElem_cons_eraseIdx_perm hlt).append_left _

/-! ## Texts under way -/

/-- The text in the read buffer after a successful completion. -/
def reading (s : Link F H) : List Text :=
  match s.phase with
  | .completed => [F.data s.m_rBuffer]
  | _ => []

/-- The text in the write buffer. -/
def filled (s : Link F H) : List Text :=
  match s.writing with
  | some _ => [s.m_wBuffer.data]
  | none => []

/-- All texts from the handlers of the receiver back to the strand of the sender. -/
def underWay (s : Link F H) : List Text :=
  s.fanouts.map (·.text) ++ s.reading ++ s.inbox ++ s.wire ++ s.filled ++ s.strand

theorem reading_eq_nil (hp : s.phase ≠ .completed) : s.reading = [] := by
  unfold reading
  split
  · contradiction
  · rfl

/-- How a step changes what is under way: it adds what is sent at the end and keeps the rest,
unless a read or a write fails. -/
def Carries (s : Link F H) (a : Action H) (t : Link F H) : Prop :=
  ∃ xs, t.sent = s.sent ++ xs ∧ t.underWay.Sublist (s.underWay ++ xs) ∧
    (a.isError = false → t.underWay = s.underWay ++ xs)

theorem carries_of_eq (hsent : t.sent = s.sent) (h : t.underWay = s.underWay) :
    s.Carries a t :=
  ⟨[], by simp [hsent], by simp [h], fun _ => by simp [h]⟩

theorem carries_of_sublist (ha : a.isError = true) (hsent : t.sent = s.sent)
    (h : t.underWay.Sublist s.underWay) : s.Carries a t :=
  ⟨[], by simp [hsent], by simpa using h, by simp [ha]⟩

theorem Step.carries (hF : F.Documented) (h : Step s a t) (hs : s.Sound) : s.Carries a t := by
  cases h with
  | send data =>
    refine ⟨[data], rfl, ?_, fun _ => ?_⟩ <;> simp [underWay, reading, filled]
  | fill data strand hw hstrand =>
    refine carries_of_eq rfl ?_
    simp [underWay, reading, filled, hw, hstrand, WBuffer.data_fill hF]
  | write data hw =>
    refine carries_of_eq rfl ?_
    simp [underWay, reading, filled, hw]
  | writeError delivered data hw =>
    refine carries_of_sublist rfl rfl ?_
    cases delivered with
    | true => simp [underWay, reading, filled, hw]
    | false => simp [underWay, reading, filled, hw]
  | deliver m wire hw =>
    refine carries_of_eq rfl ?_
    simp [underWay, reading, filled, hw]
  | readDone m inbox hp hi =>
    refine carries_of_eq rfl ?_
    simp [underWay, reading, filled, hp, hi, hF.data_append, hs.cleared hp]
  | readError bytes taken hp =>
    refine carries_of_sublist rfl rfl ?_
    cases taken with
    | true => simp [underWay, reading, filled, hp, List.tail_sublist]
    | false => simp [underWay, reading, filled, hp]
  | readClosed hp =>
    refine carries_of_eq rfl ?_
    simp [underWay, reading, filled, hp]
  | onRead hp =>
    refine carries_of_eq rfl ?_
    simp [underWay, reading, filled, hp]
  | post rawMessage e handlers hp =>
    refine carries_of_eq rfl ?_
    simp [underWay, reading, filled, hp]
  | rearm hp | stop hp =>
    have hnil : s.reading = [] := reading_eq_nil (by rcases hp with hp | ⟨_, hp⟩ <;> simp [hp])
    refine carries_of_eq rfl ?_
    simp only [underWay, hnil]
    rfl
  | setHandle | setHandleElsewhere | unsetHandle | close | runTask => exact carries_of_eq rfl rfl

/-! ## Runs -/

/-- Nothing is invented: what is under way is part of what was sent, in that order. -/
structure Delivers (s : Link F H) : Prop extends Sound s where
  sublist : s.underWay.Sublist s.sent

theorem delivers_exec (hF : F.Documented) {w : WBuffer F} {r : F.Buffer} {n : Nat}
    {as : List (Action H)} (h : exec step (init w r n) as = some s) : s.Delivers := by
  refine exec_induct (fun s a t hs hst => ?_) ⟨sound_init hF w r n, .refl _⟩ h
  have hstep := step_cases hst
  obtain ⟨xs, hsent, hsub, -⟩ := hstep.carries hF hs.toSound
  refine ⟨hstep.sound hF hs.toSound, ?_⟩
  rw [hsent]
  exact hsub.trans (hs.sublist.append_right xs)

/-- Nothing is lost either as long as no read and no write fails. -/
theorem underWay_eq_sent (hF : F.Documented) {w : WBuffer F} {r : F.Buffer} {n : Nat}
    {as : List (Action H)} (hok : ∀ a ∈ as, a.isError = false)
    (h : exec step (init w r n) as = some s) : s.underWay = s.sent := by
  have hkeep : ∀ (s : Link F H) (a : Action H) (t : Link F H), s.Sound ∧ s.underWay = s.sent →
      a.isError = false → s.step a = some t → t.Sound ∧ t.underWay = t.sent := by
    intro s a t hs ha hst
    have hstep := step_cases hst
    obtain ⟨xs, hsent, -, heq⟩ := hstep.carries hF hs.1
    exact ⟨hstep.sound hF hs.1, by rw [heq ha, hs.2, hsent]⟩
  exact (exec_invariant hkeep ⟨sound_init hF w r n, rfl⟩
    (along_of_mem (fun a ha _ => hok a ha) _) h).2

end Link

/-- Exactly-once, intact delivery, for either kind of write buffer. In every run the texts
that are fanned out are a subsequence of those sent, and a prefix of them when no read and no
write fails; the buffers have no bytes of an earlier message; `onRead` posts one task for each
handler that was registered when it copied the map, and each task is run at most once, with
its own handler and text. -/
theorem delivery_exactly_once {F : FlatBuffer} {H : Type} (hF : F.Documented) (w : WBuffer F)
    (r : F.Buffer) (n : Nat) {as : List (Action H)} {s : Link F H}
    (h : exec Link.step (.init w r n) as = some s) :
    (s.fanouts.map (·.text)).Sublist s.sent ∧
    ((∀ a ∈ as, a.isError = false) → s.fanouts.map (·.text) <+: s.sent) ∧
    (s.phase = .armed → F.data s.m_rBuffer = []) ∧
    (∀ data, s.writing = some data → s.m_wBuffer.data = data) ∧
    s.posted ++ s.phase.unposted =
      s.fanouts.flatMap (fun f => f.handlers.entries.map fun e => ⟨e.1, e.2, f.text⟩) ∧
    (s.calls ++ s.tasks).Perm s.posted := by
  have hs := Link.delivers_exec hF h
  refine ⟨?_, fun hok => ?_, hs.cleared, hs.written, hs.posts, hs.runs⟩
  · refine List.Sublist.trans ?_ hs.sublist
    simp [Link.underWay]
  · rw [← Link.underWay_eq_sent hF hok h]
    simp only [Link.underWay, List.append_assoc]
    exact List.prefix_append _ _

/-- A message on its way from a server, whose buffer still has other bytes, to two handlers;
the second one is removed while `onRead` is posting. -/
def twoHandlersRun : List (Action String) :=
  [.setHandle "a", .setHandle "b", .send [1, 2], .fill, .send [3], .write, .deliver, .readDone,
    .onRead, .post, .unsetHandle 1, .post, .leaveOnRead, .runTask 1, .runTask 0]

/-- The server's write buffer before that run. -/
def dirtyLink : Link FlatBuffer.reference String := .init (.flat ([7, 7, 7], [])) ([], []) 0

theorem delivery_exactly_once_two_handlers :
    ∃ s, exec Link.step dirtyLink twoHandlersRun = some s ∧
      s.calls = [⟨1, "b", [1, 2]⟩, ⟨0, "a", [1, 2]⟩] ∧
      s.fanouts.map (·.text) <+: s.sent ∧ (s.calls ++ s.tasks).Perm s.posted := by
  obtain ⟨s, h, hcalls⟩ : ∃ s, exec Link.step dirtyLink twoHandlersRun = some s ∧
      s.calls = [⟨1, "b", [1, 2]⟩, ⟨0, "a", [1, 2]⟩] := ⟨_, rfl, rfl⟩
  obtain ⟨-, hprefix, -, -, -, hperm⟩ :=
    delivery_exactly_once FlatBuffer.reference_documented _ _ _ h
  exact ⟨s, h, hcalls, hprefix (by decide), hperm⟩

end Zatestil.Websocket
