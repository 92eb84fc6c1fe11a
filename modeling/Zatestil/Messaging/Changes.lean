import Zatestil.Messaging.Invariant

/-!
# What a step can change

A step moves each task, call and message in a few ways only. `found_of` and the lemmas beside
it are about tasks and sent texts, `Moved` is about one call and `Changed` about one message;
what holds along whole runs is proved from these, without going through the steps again.
-/
namespace Zatestil.Messaging
open Library

/-- Inside `await_suspend`. -/
def Pc.suspending : Pc → Bool
  | .awaiting | .stored | .sent | .expirySet | .armed => true
  | .requested | .returned => false

/-- The entries of `f'` are those of `f`, each changed by `g`. -/
def Mapped {α : Type} (f f' : Nat → Option α) (g : Nat → α → α) : Prop :=
  ∀ n, f' n = (f n).map (g n)

namespace Mapped

variable {α : Type} {f f' : Nat → Option α} {g : Nat → α → α}

theorem same (f : Nat → Option α) : Mapped f f fun _ a => a := by
  intro n
  simp

theorem map (h : Mapped f f' g) (k : α → α) :
    Mapped f (fun n => (f' n).map k) fun n a => k (g n a) := by
  intro n
  simp [h n, Function.comp_def]

theorem update (h : Mapped f f' g) (k : Nat) (m : α → α) :
    Mapped f (Function.update f' k ((f' k).map m)) fun n a =>
      if n = k then m (g n a) else g n a := by
  intro n
  by_cases hn : n = k
  · subst hn
    simp [h n, Function.comp_def]
  · simp [hn, h n]

end Mapped

namespace State

variable {C : Codec} {s t : State} {a : Act}

/-! ## Tasks and sent texts -/

/-- How the handler `j` of an inbound text can move. -/
inductive TaskMoved (C : Codec) (s : State) (a : Act) (j : Nat) (task : Option Task) : Prop
  | same (h : s.tasks j = task)
  | posted {rawMessage : String} (ha : a = .arrive j rawMessage)
      (h : task = some (.posted rawMessage))
  | found {x : Nat} {m : Message} (ha : a = .dispatch j) (hm : Matches C s j x m)
      (h : task = some (.found x m))
  | resuming {x : Nat} {m : Message} (hj : s.tasks j = some (.found x m))
      (h : task = some (.resuming x))
  | done (h : task = some .done)

theorem Step.taskMoved (h : Step C s a t) (j : Nat) : TaskMoved C s a j (t.tasks j) := by
  cases h with
  | @arrive k rawMessage =>
    rw [setTask_tasks]
    split_ifs with hj
    · exact .posted (by rw [hj]) rfl
    · exact .same rfl
  | ignored =>
    rw [setTask_tasks]
    split_ifs
    · exact .done rfl
    · exact .same rfl
  | found hm =>
    rw [setTask_tasks]
    split_ifs with hj
    · exact .found (by rw [hj]) (hj ▸ hm) rfl
    · exact .same rfl
  | late | setReturn =>
    rw [finish_tasks]
    split_ifs
    · exact .done rfl
    · exact .same rfl
  | @resumed r x n m tm ht =>
    rw [enter_tasks, resume_tasks, settle_tasks]
    split_ifs with hr
    · rcases target_cases ht with ⟨_, hj, hfound⟩ | ⟨_, _, _, hj, -⟩
      · rw [hr] at hj
        cases hj
        exact .resuming hfound rfl
      · rw [hr] at hj
        cases hj
    · exact .same rfl
  | @unhandled r x m => exact .same (congrFun (settle_tasks s x m) j).symm
  | _ => exact .same rfl

/-- A handler starts with the text that arrived. -/
theorem Step.posted_of (h : Step C s a t) {j : Nat} {rawMessage : String}
    (hj : t.tasks j = some (.posted rawMessage)) :
    s.tasks j = some (.posted rawMessage) ∨ a = .arrive j rawMessage := by
  cases h.taskMoved j with
  | same h => exact .inl (h.trans hj)
  | posted ha h =>
    rw [hj] at h
    cases h
    exact .inr ha
  | found _ _ h | resuming _ h | done h =>
    rw [hj] at h
    cases h

/-- A handler gets hold of a message only by finding it in the map. -/
theorem Step.found_of (h : Step C s a t) {j x : Nat} {m : Message}
    (hj : t.tasks j = some (.found x m)) :
    s.tasks j = some (.found x m) ∨ a = .dispatch j ∧ Matches C s j x m := by
  cases h.taskMoved j with
  | same h => exact .inl (h.trans hj)
  | found ha hm h =>
    rw [hj] at h
    cases h
    exact .inr ⟨ha, hm⟩
  | posted _ h | resuming _ h | done h =>
    rw [hj] at h
    cases h

/-- A handler resumes only the message that it has found. -/
theorem Step.resuming_of (h : Step C s a t) {j x : Nat} (hj : t.tasks j = some (.resuming x)) :
    s.tasks j = some (.resuming x) ∨ ∃ m, s.tasks j = some (.found x m) := by
  cases h.taskMoved j with
  | same h => exact .inl (h.trans hj)
  | @resuming y m hfound h =>
    rw [hj] at h
    cases h
    exact .inr ⟨m, hfound⟩
  | posted _ h | found _ _ h | done h =>
    rw [hj] at h
    cases h

/-- A text is sent by the call that has just stored its handle. -/
theorem Step.sent_of (h : Step C s a t) {e : Nat × String} (he : e ∈ t.sent) :
    e ∈ s.sent ∨ ∃ c tm, s.calls e.1 = some c ∧ s.messages c.tm = some tm ∧ c.pc = .stored ∧
      e.2 = C.toJson tm.m_message := by
  cases h with
  | @send n c tm hc htm hpc =>
    rcases List.mem_append.mp he with he | he
    · exact .inl he
    · rw [List.mem_singleton.mp he]
      exact .inr ⟨c, tm, hc, htm, hpc, rfl⟩
  | late | setReturn =>
    rw [finish_sent] at he
    exact .inl he
  | @resumed r x _ m =>
    rw [enter_sent] at he
    exact .inl (settle_sent s x m ▸ he)
  | @unhandled r x m => exact .inl (settle_sent s x m ▸ he)
  | _ => exact .inl he

/-- The null handle is resumed only by a `set` on a message without a handle. -/
theorem Step.nullResume_of (h : Step C s a t) (ht : t.fault = some .nullResume) :
    s.fault = some .nullResume ∨ ∃ r x m tm, s.target r = some (x, m) ∧
      s.messages x = some tm ∧ tm.m_response = none ∧ tm.m_handle = none := by
  cases h with
  | dangling => cases ht
  | late | setReturn =>
    rw [finish_fault] at ht
    exact .inl ht
  | @resumed r x _ m =>
    rw [enter_fault] at ht
    exact .inl (settle_fault s x m ▸ ht)
  | @unhandled r x m tm fault htarget htm hr hn => exact .inr ⟨r, x, m, tm, htarget, htm, hr, hn⟩
  | _ => exact .inl ht

/-! ## Calls -/

/-- The completion handler of the wait of `n` finishes. -/
def Drops (s : State) (a : Act) (n : Nat) (c : Call) : Prop :=
  a = .abortedWait n ∨ a = .setReturn (.timer n) ∨
    a = .set (.timer n) ∧ ∃ tm, s.messages c.tm = some tm ∧ tm.m_response ≠ none

/-- How a call can change. -/
structure Moved (s : State) (a : Act) (n : Nat) (c c' : Call) : Prop where
  message : c'.message = c.message
  tm : c'.tm = c.tm
  resumes : c.resumes ≤ c'.resumes
  result : c.result ≠ none → c'.result = c.result
  kept : c.pc.isStored = true → c'.pc.isStored = true
  stored : c'.pc.isStored = true → c.pc.isStored = true ∨ a = .storeHandle n
  suspending : c'.pc.suspending = true → c.pc.suspending = true ∨ a = .coAwait n
  started : c'.wait = .started → c.wait = .started ∨ a = .fire n
  live : c.wait.live = true → c'.wait.live = true ∨ Drops s a n c

theorem Moved.refl (n : Nat) (c : Call) : Moved s a n c c :=
  ⟨rfl, rfl, le_rfl, fun _ => rfl, id, .inl, .inl, .inl, .inl⟩

section MappedCalls

variable {f : Nat → Option Call} {u : State} {g : Nat → Call → Call}

theorem mapped_resume (h : Mapped f u.calls g) (x k : Nat) :
    Mapped f (u.resume x k).calls fun n c =>
      if n = k then { g n c with resumes := (g n c).resumes + 1 } else g n c :=
  h.update k fun c => { c with resumes := c.resumes + 1 }

theorem mapped_enter (h : Mapped f u.calls g) (x : Nat) (r : Runner) :
    Mapped f (u.enter x r).calls fun n c =>
      if r = .timer n then { g n c with wait := .resuming } else g n c := by
  intro n
  by_cases hn : r = .timer n
  · simp [hn, h n, Function.comp_def]
  · simp [hn, h n]

theorem mapped_finish (h : Mapped f u.calls g) (x : Nat) (r : Runner) :
    Mapped f (u.finish x r).calls fun n c =>
      if r = .timer n then { g n c with wait := .done } else g n c := by
  intro n
  by_cases hn : r = .timer n
  · simp [hn, h n, Function.comp_def]
  · simp [hn, h n]

end MappedCalls

theorem Moved.abort (n x : Nat) (c : Call) : Moved s a n c (c.abort x) := by
  unfold Call.abort
  split_ifs
  · exact ⟨rfl, rfl, le_rfl, fun _ => rfl, id, .inl, .inl, nofun, fun _ => .inl rfl⟩
  · exact .refl n c

/-- A call whose place in `await_suspend` is changed. -/
theorem Moved.withPc {n : Nat} {c : Call} {pc : Pc}
    (hk : c.pc.isStored = true → pc.isStored = true)
    (hst : pc.isStored = true → c.pc.isStored = true ∨ a = .storeHandle n)
    (hsu : pc.suspending = true → c.pc.suspending = true ∨ a = .coAwait n) :
    Moved s a n c { c with pc := pc } :=
  ⟨rfl, rfl, le_rfl, fun _ => rfl, hk, hst, hsu, .inl, .inl⟩

/-- A call whose wait is changed. -/
theorem Moved.withWait {n : Nat} {c : Call} {wait : Wait} (hs : wait = .started → a = .fire n)
    (hl : c.wait.live = true → wait.live = true ∨ Drops s a n c) :
    Moved s a n c { c with wait := wait } :=
  ⟨rfl, rfl, le_rfl, fun _ => rfl, id, .inl, .inl, fun h => .inr (hs h), hl⟩

/-- An update of one call. -/
theorem moved_modifyCall {u : State} (hu : u.calls = s.calls) {k : Nat} {c₀ : Call}
    (hc₀ : s.calls k = some c₀) (f : Call → Call) (hf : Moved s a k c₀ (f c₀)) :
    ∃ g, Mapped s.calls (u.modifyCall k f).calls g ∧
      ∀ n c, s.calls n = some c → Moved s a n c (g n c) := by
  rw [← hu] at hc₀ ⊢
  refine ⟨_, (Mapped.same u.calls).update k f, fun n c hc => ?_⟩
  split_ifs with hn
  · rw [hn, hc₀] at hc
    cases hc
    exact hn ▸ hf
  · exact .refl n c

/-- Every step but a request updates the calls that are there. -/
theorem Step.updates (h : Step C s a t) (ha : a.requested = none) :
    ∃ g, Mapped s.calls t.calls g ∧ ∀ n c, s.calls n = some c → Moved s a n c (g n c) := by
  cases h with
  | shared | registered => cases ha
  | dangling | arrive | ignored | found | destroy => exact ⟨_, .same _, fun n c _ => .refl n c⟩
  | coAwait hc₀ htm hpc =>
    refine moved_modifyCall rfl hc₀ _ (.withPc ?_ Bool.false_ne_true.elim fun _ => .inr rfl)
    simp [hpc, Pc.isStored]
  | storeHandle hc₀ htm hpc =>
    exact moved_modifyCall rfl hc₀ _
      (.withPc (fun _ => rfl) (fun _ => .inr rfl) fun _ => .inl (by rw [hpc]; rfl))
  | send hc₀ htm hpc =>
    exact moved_modifyCall rfl hc₀ _ (.withPc (fun _ => rfl) (fun _ => .inl (by rw [hpc]; rfl))
      fun _ => .inl (by rw [hpc]; rfl))
  | @setExpiry k c₀ hc₀ hpc =>
    refine ⟨_, ((Mapped.same _).map (Call.abort c₀.tm)).update k _, fun n c hc => ?_⟩
    have habort : Moved s (.setExpiry k) n c (c.abort c₀.tm) := .abort n _ c
    split_ifs with hn
    · rw [hn, hc₀] at hc
      cases hc
      exact { habort with
        kept := fun _ => rfl
        stored := fun _ => .inl (by rw [hpc]; rfl)
        suspending := fun _ => .inl (by rw [hpc]; rfl) }
    · exact habort
  | armWait hc₀ htm hpc =>
    exact moved_modifyCall rfl hc₀ _ ⟨rfl, rfl, le_rfl, fun _ => rfl, fun _ => rfl,
      fun _ => .inl (by rw [hpc]; rfl), fun _ => .inl (by rw [hpc]; rfl),
      (fun hw => by cases hw), fun _ => .inl rfl⟩
  | suspended hc₀ hpc =>
    exact moved_modifyCall rfl hc₀ _
      (.withPc (fun _ => rfl) (fun _ => .inl (by rw [hpc]; rfl)) Bool.false_ne_true.elim)
  | @late r x m tm ht htm hr =>
    refine ⟨_, mapped_finish (.same _) x r, fun n c hc => ?_⟩
    split_ifs with hn
    · refine .withWait (fun hw => by cases hw) fun _ =>
        .inr (.inr (.inr ⟨by rw [hn], tm, ?_, hr⟩))
      rcases target_cases ht with ⟨_, hr', -⟩ | ⟨k, c', tm', hr', hc', hx, -⟩
      · simp [hr'] at hn
      · rw [hr'] at hn
        cases hn
        rw [hc] at hc'
        cases hc'
        rw [hx, htm]
    · exact .refl n c
  | @resumed r x k m tm ht htm hr hk =>
    have hsettle : Mapped s.calls (s.settle x m).calls fun _ c => c.abort x :=
      fun n => by simp
    refine ⟨_, mapped_enter (mapped_resume hsettle x k) x r, fun n c hc => ?_⟩
    have habort : Moved s (.set r) n c (c.abort x) := .abort n x c
    have hle : c.resumes ≤ (c.abort x).resumes + 1 := Nat.le_succ_of_le habort.resumes
    split_ifs
    · exact { habort with
        resumes := hle
        started := fun hw => by cases hw
        live := fun _ => .inl rfl }
    · exact { habort with
        started := fun hw => by cases hw
        live := fun _ => .inl rfl }
    · exact { habort with resumes := hle }
    · exact habort
  | @unhandled r x m tm fault ht htm hr hn =>
    exact ⟨fun _ c => c.abort x, fun n => by simp, fun n c _ => .abort n x c⟩
  | @setReturn r x hr =>
    refine ⟨_, mapped_finish (.same _) x r, fun n c hc => ?_⟩
    split_ifs with hn
    · exact .withWait (fun hw => by cases hw) fun _ => .inr (.inr (.inl (by rw [hn])))
    · exact .refl n c
  | @endAwait k c₀ tm response hc₀ htm hr hres hnone =>
    refine ⟨_, ((Mapped.same _).update k _).map (Call.abort c₀.tm), fun n c hc => ?_⟩
    split_ifs with hn
    · rw [hn, hc₀] at hc
      cases hc
      have habort := Moved.abort (s := s) (a := .endAwait k) n c₀.tm
        { c₀ with result := some response }
      exact { habort with
        tm := habort.tm
        result := fun hne => absurd hnone hne
        live := habort.live }
    · exact .abort n _ c
  | expire hc₀ hw =>
    exact moved_modifyCall rfl hc₀ _ (.withWait (fun hw => by cases hw) fun _ => .inl rfl)
  | fire hc₀ hw => exact moved_modifyCall rfl hc₀ _ (.withWait (fun _ => rfl) fun _ => .inl rfl)
  | abortedWait hc₀ hw =>
    exact moved_modifyCall rfl hc₀ _ (.withWait (fun hw => by cases hw) fun _ => .inr (.inl rfl))

section

variable (h : Step C s a t) {n : Nat} {c c' : Call}

include h

/-- No call is lost. -/
theorem Step.call_kept (hc : s.calls n = some c) :
    ∃ c', t.calls n = some c' ∧ Moved s a n c c' := by
  cases hreq : a.requested with
  | none =>
    obtain ⟨g, hg, hmoved⟩ := h.updates hreq
    exact ⟨g n c, by rw [hg n, hc]; rfl, hmoved n c hc⟩
  | some m =>
    refine ⟨c, ?_, .refl n c⟩
    cases h with
    | @shared k _ _ hk | @registered k _ hk =>
      have hne : n ≠ k := by
        rintro rfl
        simp [hk] at hc
      simpa [hne] using hc
    | dangling ha => simp [ha] at hreq
    | _ => cases hreq

/-- A call comes only from `request`. -/
theorem Step.call_of (hc' : t.calls n = some c') :
    (∃ c, s.calls n = some c ∧ Moved s a n c c') ∨
      ∃ m x, a = .request n m ∧ c' = ⟨m, x, .requested, .idle, 0, none⟩ := by
  cases hreq : a.requested with
  | none =>
    obtain ⟨g, hg, hmoved⟩ := h.updates hreq
    rw [hg n] at hc'
    obtain ⟨c, hc, rfl⟩ := Option.map_eq_some_iff.mp hc'
    exact .inl ⟨c, hc, hmoved n c hc⟩
  | some m =>
    cases h with
    | shared | registered =>
      rw [addCall_calls] at hc'
      split_ifs at hc' with hn
      · cases hc'
        exact .inr ⟨_, _, by rw [hn], rfl⟩
      · exact .inl ⟨c', hc', .refl n c'⟩
    | dangling ha => simp [ha] at hreq
    | _ => cases hreq

end

/-- A call stores its handle in its message. -/
theorem Step.stored_of (h : Step C s a t) {n : Nat} {c' : Call} (hc' : t.calls n = some c')
    (hst : c'.pc.isStored = true) :
    (∃ c, s.calls n = some c ∧ c.pc.isStored = true) ∨
      a = .storeHandle n ∧ ∀ tm, t.messages c'.tm = some tm → tm.m_handle = some n := by
  rcases h.call_of hc' with ⟨c, hc, hmoved⟩ | ⟨m, x, -, rfl⟩
  · rcases hmoved.stored hst with hst | rfl
    · exact .inl ⟨c, hc, hst⟩
    · cases h with
      | dangling => exact .inl ⟨c', hc', hst⟩
      | @storeHandle _ c₀ tm hc₀ htm =>
        rw [hc] at hc₀
        cases hc₀
        refine .inr ⟨rfl, fun tm' htm' => ?_⟩
        rw [hmoved.tm, modifyCall_messages, modifyMessage_messages, if_pos rfl, htm] at htm'
        cases htm'
        rfl
  · cases hst

/-! ## Messages -/

/-- The handle that a message had when it was answered has been resumed; without one the run is
over. -/
def Resumed (t : State) (handle : Option Nat) : Prop :=
  handle = none ∧ t.fault ≠ none ∨
    ∃ n c, handle = some n ∧ t.calls n = some c ∧ c.resumes ≠ 0

/-- How a message can change. -/
structure Changed (s : State) (a : Act) (t : State) (x : Nat) (tm tm' : TimedMessage) :
    Prop where
  message : tm'.m_message = tm.m_message
  handle : tm'.m_handle = tm.m_handle ∨
    ∃ n c c', a = .storeHandle n ∧ s.calls n = some c ∧ c.tm = x ∧ t.calls n = some c' ∧
      c'.tm = x ∧ c'.pc.isStored = true ∧ tm'.m_handle = some n
  response : tm'.m_response = tm.m_response ∨ tm.m_response = none ∧ Resumed t tm.m_handle ∧
    ∃ r m, a = .set r ∧ s.target r = some (x, m)
  processed : ∀ m ∈ tm'.processed, m ∈ tm.processed ∨
    ∃ r, a = .set r ∧ s.target r = some (x, m)

namespace Changed

variable {x : Nat} {tm tm' : TimedMessage}

theorem refl (s : State) (a : Act) (t : State) (x : Nat) (tm : TimedMessage) :
    Changed s a t x tm tm := ⟨rfl, .inl rfl, .inl rfl, fun _ => .inl⟩

theorem withOwners (h : Changed s a t x tm tm') (owners : Finset Owner) {stuck : Bool} :
    Changed s a t x tm { tm' with owners := owners, stuck := stuck } := { h with }

/-- A handle is replaced but never taken away. -/
theorem handle_ne (h : Changed s a t x tm tm') (hn : tm.m_handle ≠ none) :
    tm'.m_handle ≠ none := by
  rcases h.handle with heq | ⟨n, _, _, -, -, -, -, -, -, hk⟩
  · rwa [heq]
  · simp [hk]

end Changed

/-- A runner that is back from `set` leaves the messages as they are, but for its pointer. -/
theorem changed_finish {u : State} {g : Nat → TimedMessage → TimedMessage}
    (h : Mapped s.messages u.messages g)
    (hg : ∀ y tm, s.messages y = some tm → Changed s a t y tm (g y tm)) (x : Nat) (r : Runner) :
    ∃ g, Mapped s.messages (u.finish x r).messages g ∧
      ∀ y tm, s.messages y = some tm → Changed s a t y tm (g y tm) := by
  cases r with
  | task j => exact ⟨g, h, hg⟩
  | timer n =>
    refine ⟨_, h.update x _, fun y tm htm => ?_⟩
    split_ifs
    · exact (hg y tm htm).withOwners _
    · exact hg y tm htm

theorem Inv.settle_mapped (h : s.Inv) {x : Nat} {m : Message} {tm : TimedMessage}
    (htm : s.messages x = some tm) (hr : tm.m_response = none) (hid : tm.m_message.id = m.id) :
    Mapped s.messages (s.settle x m).messages fun y tm =>
      if y = x then tm.answered m else tm := by
  intro y
  rw [h.settle_eq htm hr hid, cancel_messages, answer_messages]
  by_cases hy : y = x
  · subst hy
    simp [htm]
  · simp [hy]

theorem processed_append {r : Runner} {x : Nat} {m : Message} {tm : TimedMessage}
    (ht : s.target r = some (x, m)) : ∀ m' ∈ tm.processed ++ [m],
      m' ∈ tm.processed ∨ ∃ q, Act.set r = .set q ∧ s.target q = some (x, m') := by
  intro m' hm'
  rcases List.mem_append.mp hm' with hm' | hm'
  · exact .inl hm'
  · rw [List.mem_singleton.mp hm']
    exact .inr ⟨r, rfl, ht⟩

/-- What `set` does to the message that it answers. -/
theorem changed_answered {r : Runner} {x : Nat} {m : Message} {tm : TimedMessage}
    (ht : s.target r = some (x, m)) (hr : tm.m_response = none)
    (hres : Resumed t tm.m_handle) : Changed s (.set r) t x tm (tm.answered m) where
  message := rfl
  handle := .inl rfl
  response := .inr ⟨hr, hres, r, m, rfl, ht⟩
  processed := processed_append ht

theorem resumed_enter {r : Runner} {x n : Nat} {m : Message} {c : Call}
    (hc : s.calls n = some c) : Resumed (((s.settle x m).resume x n).enter x r) (some n) := by
  have hresume : ((s.settle x m).resume x n).calls n =
      some { c.abort x with resumes := c.resumes + 1 } := by
    simp [hc]
  by_cases hr : r = .timer n
  · refine .inr ⟨n, _, rfl, by rw [enter_calls, if_pos hr, hresume]; rfl, ?_⟩
    exact Nat.succ_ne_zero _
  · exact .inr ⟨n, _, rfl, by rw [enter_calls, if_neg hr, hresume], Nat.succ_ne_zero _⟩

/-- Every step but a request updates the messages that are there. -/
theorem Step.changes (h : Step C s a t) (hI : s.Inv) (ha : a.requested = none) :
    ∃ g, Mapped s.messages t.messages g ∧
      ∀ x tm, s.messages x = some tm → Changed s a t x tm (g x tm) := by
  cases h with
  | shared | registered => cases ha
  | dangling | send | setExpiry | suspended | arrive | ignored | found | expire | fire
  | destroy => exact ⟨_, .same _, fun x tm _ => .refl ..⟩
  | coAwait | armWait | endAwait | abortedWait =>
    refine ⟨_, (Mapped.same _).update _ _, fun x tm _ => ?_⟩
    split_ifs
    · exact (Changed.refl ..).withOwners _
    · exact .refl ..
  | @storeHandle n c₀ tm hc₀ htm hpc =>
    refine ⟨_, (Mapped.same _).update _ _, fun x tm _ => ?_⟩
    split_ifs with hx
    · have hc' : ((s.modifyMessage c₀.tm fun tm => { tm with m_handle := some n }).modifyCall n
          fun c => { c with pc := .stored }).calls n = some { c₀ with pc := .stored } := by
        simp [hc₀]
      exact ⟨rfl, .inr ⟨n, c₀, _, rfl, hc₀, hx.symm, hc', hx.symm, rfl, rfl⟩, .inl rfl,
        fun _ => .inl⟩
    · exact .refl ..
  | @late r y m tm₀ ht htm hr =>
    refine changed_finish ((Mapped.same _).update y _) (fun x tm _ => ?_) y r
    split_ifs with hx
    · subst hx
      exact ⟨rfl, .inl rfl, .inl rfl, processed_append ht⟩
    · exact .refl ..
  | @resumed r y n m tm₀ ht htm hr hn =>
    obtain ⟨-, hid, -⟩ := target_spec hI ht htm
    obtain ⟨c, hc, -⟩ := hI.handle y tm₀ n htm hn
    have hmapped := (hI.settle_mapped htm hr hid).update y fun tm =>
      { tm with resumes := tm.resumes + 1 }
    refine ⟨_, fun x => (congrFun (enter_messages _ y r) x).trans (hmapped x),
      fun x tm htm' => ?_⟩
    split_ifs with hx
    · subst hx
      rw [htm] at htm'
      cases htm'
      exact { changed_answered ht hr (hn ▸ resumed_enter hc) with }
    · exact .refl ..
  | @unhandled r y m tm₀ fault ht htm hr hn =>
    obtain ⟨-, hid, -⟩ := target_spec hI ht htm
    refine ⟨_, hI.settle_mapped htm hr hid, fun x tm htm' => ?_⟩
    split_ifs with hx
    · subst hx
      rw [htm] at htm'
      cases htm'
      exact changed_answered ht hr (.inl ⟨hn, nofun⟩)
    · exact .refl ..
  | @setReturn r y hr =>
    refine changed_finish ((Mapped.same _).update y _) (fun x tm _ => ?_) y r
    split_ifs
    · exact ⟨rfl, .inl rfl, .inl rfl, fun _ => .inl⟩
    · exact .refl ..

section

variable (h : Step C s a t) (hI : s.Inv) {x : Nat} {tm tm' : TimedMessage}

include h hI

/-- No message is lost. -/
theorem Step.message_kept (htm : s.messages x = some tm) :
    ∃ tm', t.messages x = some tm' ∧ Changed s a t x tm tm' := by
  cases hreq : a.requested with
  | none =>
    obtain ⟨g, hg, hchanged⟩ := h.changes hI hreq
    exact ⟨g x tm, by rw [hg x, htm]; rfl, hchanged x tm htm⟩
  | some m =>
    refine ⟨tm, ?_, .refl ..⟩
    cases h with
    | shared => exact htm
    | @registered n _ hn =>
      have hne : x ≠ n := by
        rintro rfl
        simp [hI.fresh hn] at htm
      simpa [hne] using htm
    | dangling ha => simp [ha] at hreq
    | _ => cases hreq

/-- A message comes only from a `request` that finds no entry. -/
theorem Step.message_of (htm' : t.messages x = some tm') :
    (∃ tm, s.messages x = some tm ∧ Changed s a t x tm tm') ∨
      ∃ m, a = .request x m ∧ tm' = ⟨m, none, none, false, {.entry}, [], 0, false⟩ := by
  cases hreq : a.requested with
  | none =>
    obtain ⟨g, hg, hchanged⟩ := h.changes hI hreq
    rw [hg x] at htm'
    obtain ⟨tm, htm, rfl⟩ := Option.map_eq_some_iff.mp htm'
    exact .inl ⟨tm, htm, hchanged x tm htm⟩
  | some m =>
    cases h with
    | shared => exact .inl ⟨tm', htm', .refl ..⟩
    | registered =>
      rw [addCall_messages, register_messages] at htm'
      split_ifs at htm' with hx
      · cases htm'
        exact .inr ⟨_, by rw [hx], rfl⟩
      · exact .inl ⟨tm', htm', .refl ..⟩
    | dangling ha => simp [ha] at hreq
    | _ => cases hreq

end

end State

end Zatestil.Messaging
