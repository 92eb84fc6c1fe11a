import Zatestil.Websocket.Delivery

/-!
# A link that is left alone

Suppose that nothing more is sent, no read or write fails and the handlers do not change, while
the strand, the transport, the reading loop and the pool go on. Each of their steps is one unit of
the work that is left (`Link.work`), whatever the order. So a link that is left alone stops, and
as long as the receiver is open it stops only when every text has been given to every handler.
-/
namespace Zatestil.Websocket
open Library

/-- The steps that move a text on, or run a task. -/
def Action.moves {H : Type} : Action H → Bool
  | .fill | .write | .deliver | .readDone | .onRead | .post | .leaveOnRead | .runTask _ => true
  | _ => false

/-- The steps that end the reading loop. -/
def Action.ends {H : Type} : Action H → Bool
  | .readClosed | .close _ => true
  | _ => false

namespace Link

variable {F : FlatBuffer} {H : Type} {s t : Link F H} {a : Action H} {as bs : List (Action H)}

/-! ## Work -/

/-- What is to be done for a text in the read buffer: `onRead` and the return from it, and a
`post` and a task for each handler. -/
def fanoutWork (s : Link F H) : Nat := 2 + 2 * s.handles.m_handles.entries.length

/-- What the reading loop has left to do before it reads again. -/
def phaseWork (s : Link F H) : Nat :=
  match s.phase with
  | .completed => s.fanoutWork
  | .posting _ handlers => 1 + 2 * handlers.length
  | .failed => 1
  | .armed | .stopped => 0

/-- A text goes from the strand to the write buffer, the wire, the inbox and the read buffer. -/
def work (s : Link F H) : Nat :=
  s.strand.length * (4 + s.fanoutWork) + s.writing.toList.length * (3 + s.fanoutWork) +
    s.wire.length * (2 + s.fanoutWork) + s.inbox.length * (1 + s.fanoutWork) + s.phaseWork +
      s.tasks.length

theorem Step.work (h : Step s a t) (ha : a.moves = true) : t.work + 1 = s.work := by
  cases h with
  | send | writeError | readError | readClosed | setHandle | setHandleElsewhere | unsetHandle
  | close => cases ha
  | fill data strand hw hs =>
    simp only [Link.work, phaseWork, fanoutWork, hw, hs, Option.toList_some, Option.toList_none,
      List.length_cons, List.length_nil]
    ring
  | write data hw =>
    simp only [Link.work, phaseWork, fanoutWork, hw, Option.toList_some, Option.toList_none,
      List.length_append, List.length_cons, List.length_nil]
    ring
  | deliver m wire hw =>
    simp only [Link.work, phaseWork, fanoutWork, hw, List.length_append, List.length_cons,
      List.length_nil]
    ring
  | readDone m inbox hp hi =>
    simp only [Link.work, phaseWork, fanoutWork, hp, hi, List.length_cons]
    ring
  | onRead hp =>
    simp only [Link.work, phaseWork, fanoutWork, hp]
    ring
  | post rawMessage e handlers hp =>
    simp only [Link.work, phaseWork, fanoutWork, hp, List.length_append, List.length_cons,
      List.length_nil]
    ring
  | rearm hp | stop hp =>
    have hphase : s.phaseWork = 1 := by
      rcases hp with hp | ⟨rawMessage, hp⟩ <;> rw [phaseWork, hp]
      rfl
    simp only [Link.work, hphase]
    simp only [phaseWork, fanoutWork]
    ring
  | runTask n task hn =>
    have hlt := (List.getElem?_eq_some_iff.mp hn).1
    simp only [Link.work, phaseWork, fanoutWork, List.length_eraseIdx_of_lt hlt]
    omega

/-- Without work nothing moves. -/
theorem rest_of_work (h : s.work = 0) (ha : a.moves = true) : s.step a = none := by
  cases hst : s.step a with
  | none => rfl
  | some t =>
    have hunit := (step_cases hst).work ha
    omega

theorem Step.sent (h : Step s a t) (ha : a.moves = true) : t.sent = s.sent := by
  cases h <;> first | rfl | cases ha

theorem sent_exec (hbs : ∀ a ∈ bs, a.moves = true) (ht : exec step s bs = some t) :
    t.sent = s.sent := by
  refine exec_invariant (I := fun u => u.sent = s.sent) (P := fun _ a => a.moves = true) ?_ rfl
    (along_of_mem (fun a ha _ => hbs a ha) s) ht
  intro u a v hu ha huv
  exact ((step_cases huv).sent ha).trans hu

/-! ## At rest -/

/-- The reading loop goes on until the stream is closed. -/
theorem Step.reads (h : Step s a t) (ha : a.ends = false)
    (hs : s.isOpen = true ∧ s.phase ≠ .stopped) : t.isOpen = true ∧ t.phase ≠ .stopped := by
  cases h with
  | readClosed | close => cases ha
  | stop _ ho => simp [hs.1] at ho
  | readDone | readError | onRead | post | rearm => exact ⟨hs.1, nofun⟩
  | _ => exact hs

theorem reads_exec {w : WBuffer F} {r : F.Buffer} {n : Nat} (has : ∀ a ∈ as, a.ends = false)
    (h : exec step (init w r n) as = some s) : s.isOpen = true ∧ s.phase ≠ .stopped := by
  refine exec_invariant (I := fun u => u.isOpen = true ∧ u.phase ≠ .stopped)
    (P := fun _ a => a.ends = false) ?_ ⟨rfl, by simp [init]⟩
    (along_of_mem (fun a ha _ => has a ha) _) h
  intro u a v hu ha huv
  exact (step_cases huv).reads ha hu

/-- Nothing is on its way, but for what is left in the inbox of a loop that has ended. -/
structure Still (s : Link F H) : Prop where
  strand : s.strand = []
  writing : s.writing = none
  wire : s.wire = []
  tasks : s.tasks = []
  phase : s.phase = .armed ∧ s.inbox = [] ∨ s.phase = .stopped

theorem still_of_rest (hrest : ∀ a, a.moves = true → s.step a = none) : s.Still := by
  have hwriting : s.writing = none := by
    have hwrite := hrest .write rfl
    cases hw : s.writing with
    | none => rfl
    | some data => simp [step, hw] at hwrite
  refine ⟨?_, hwriting, ?_, ?_, ?_⟩
  · have hfill := hrest .fill rfl
    cases hs : s.strand with
    | nil => rfl
    | cons data strand => simp [step, hwriting, hs] at hfill
  · have hdeliver := hrest .deliver rfl
    cases hw : s.wire with
    | nil => rfl
    | cons m wire => simp [step, hw] at hdeliver
  · have htask := hrest (.runTask 0) rfl
    cases hs : s.tasks with
    | nil => rfl
    | cons task tasks => simp [step, hs] at htask
  · cases hp : s.phase with
    | stopped => exact .inr rfl
    | armed =>
      have hread := hrest .readDone rfl
      cases hi : s.inbox with
      | nil => exact .inl ⟨rfl, rfl⟩
      | cons m inbox => simp [step, hp, hi] at hread
    | completed =>
      have honRead := hrest .onRead rfl
      simp [step, hp] at honRead
    | failed =>
      have hleave := hrest .leaveOnRead rfl
      simp [step, hp] at hleave
    | posting rawMessage handlers =>
      cases handlers with
      | nil =>
        have hleave := hrest .leaveOnRead rfl
        simp [step, hp] at hleave
      | cons e handlers =>
        have hpost := hrest .post rfl
        simp [step, hp] at hpost

theorem Still.unposted (h : s.Still) : s.phase.unposted = [] := by
  rcases h.phase with ⟨hp, -⟩ | hp <;> rw [hp] <;> rfl

/-- Where the loop still reads, all texts have reached the handlers. -/
theorem Still.underWay (h : s.Still) (hp : s.phase ≠ .stopped) :
    s.underWay = s.fanouts.map (·.text) := by
  obtain ⟨harmed, hi⟩ := h.phase.resolve_right hp
  simp [Link.underWay, reading, filled, harmed, hi, h.strand, h.writing, h.wire]

end Link

/-- Delivery comes to an end, and is complete then. From every reachable state, the steps that
move texts and run tasks can be taken exactly as often as there is work, in any order. Where none
of them is possible, each handler that was registered when a text was read has been called with
it, once; and if no read or write has failed and the receiver has not been closed, the texts that
were read are those that were sent, and no work is left. -/
theorem link_drains {F : FlatBuffer} {H : Type} (hF : F.Documented) {w : WBuffer F} {r : F.Buffer}
    {n : Nat} {as bs : List (Action H)} {s t : Link F H}
    (hs : exec Link.step (.init w r n) as = some s) (hbs : ∀ a ∈ bs, a.moves = true)
    (ht : exec Link.step s bs = some t) :
    bs.length + t.work = s.work ∧
    ((∀ a, a.moves = true → t.step a = none) →
      t.calls.Perm (t.fanouts.flatMap fun f => f.handlers.entries.map fun e =>
        ⟨e.1, e.2, f.text⟩) ∧
      ((∀ a ∈ as, a.isError = false ∧ a.ends = false) →
        t.fanouts.map (·.text) = s.sent ∧ t.work = 0)) := by
  have hrun := exec_append.mpr ⟨s, hs, ht⟩
  refine ⟨?_, fun hrest => ?_⟩
  · refine exec_length_eq (I := fun _ => True) (P := fun _ a => a.moves = true) ?_ trivial
      (along_of_mem (fun a ha _ => hbs a ha) s) ht
    exact fun u a v _ ha huv => ⟨trivial, (Link.step_cases huv).work ha⟩
  have hstill := Link.still_of_rest hrest
  refine ⟨?_, fun has => ?_⟩
  · have hsound := Link.delivers_exec hF hrun
    have hposted := hsound.posts
    have hcalls := hsound.runs
    rw [hstill.unposted, List.append_nil] at hposted
    rw [hstill.tasks, List.append_nil, hposted] at hcalls
    exact hcalls
  · have hall : ∀ a ∈ as ++ bs, a.isError = false ∧ a.ends = false := by
      intro a ha
      rcases List.mem_append.mp ha with ha | ha
      · exact has a ha
      · have hmoves := hbs a ha
        cases a <;> first | exact ⟨rfl, rfl⟩ | cases hmoves
    have hopen := (Link.reads_exec (fun a ha => (hall a ha).2) hrun).2
    have hway := Link.underWay_eq_sent hF (fun a ha => (hall a ha).1) hrun
    refine ⟨?_, ?_⟩
    · rw [← hstill.underWay hopen, hway, Link.sent_exec hbs ht]
    · obtain ⟨harmed, hi⟩ := hstill.phase.resolve_right hopen
      simp [Link.work, Link.phaseWork, harmed, hi, hstill.strand, hstill.writing, hstill.wire,
        hstill.tasks]

/-- Two texts for two handlers, with the first one in the write buffer. -/
def twoTextsRun : List (Action String) :=
  [.setHandle "a", .setHandle "b", .send [1, 2], .fill, .send [3]]

/-- The rest, with the tasks of the first text after those of the second. -/
def twoTextsRest : List (Action String) :=
  [.write, .fill, .deliver, .readDone, .onRead, .post, .post, .leaveOnRead, .write, .deliver,
    .readDone, .onRead, .post, .post, .runTask 3, .runTask 2, .leaveOnRead, .runTask 1, .runTask 0]

theorem link_drains_two_texts :
    ∃ s t, exec Link.step dirtyLink twoTextsRun = some s ∧
      exec Link.step s twoTextsRest = some t ∧ twoTextsRest.length = s.work ∧
      t.fanouts.map (·.text) = [[1, 2], [3]] ∧ t.calls.Perm
        [⟨0, "a", [1, 2]⟩, ⟨1, "b", [1, 2]⟩, ⟨0, "a", [3]⟩, ⟨1, "b", [3]⟩] := by
  obtain ⟨s, t, hs, ht, hsent, hwork, hfanouts⟩ : ∃ s t,
      exec Link.step dirtyLink twoTextsRun = some s ∧
      exec Link.step s twoTextsRest = some t ∧ s.sent = [[1, 2], [3]] ∧ t.work = 0 ∧
      (t.fanouts.flatMap fun f => f.handlers.entries.map fun e => (⟨e.1, e.2, f.text⟩ : Task _)) =
        [⟨0, "a", [1, 2]⟩, ⟨1, "b", [1, 2]⟩, ⟨0, "a", [3]⟩, ⟨1, "b", [3]⟩] :=
    ⟨_, _, rfl, rfl, rfl, rfl, rfl⟩
  obtain ⟨hlength, hrest⟩ := link_drains FlatBuffer.reference_documented hs (by decide) ht
  obtain ⟨hcalls, hall⟩ := hrest fun a ha => Link.rest_of_work hwork ha
  refine ⟨s, t, hs, ht, by omega, ?_, hfanouts ▸ hcalls⟩
  rw [← hsent]
  exact (hall (by decide)).1

end Zatestil.Websocket
