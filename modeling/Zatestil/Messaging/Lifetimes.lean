import Zatestil.Websocket.Session

/-!
# Lifetimes of requesters

The constructor of `Requester` registers a handler that captures `this`, and the destructor
removes the handler of its `m_handleId`. Copying and moving are defaulted: the new object has
the id, the session and the table of the old one, no handler is registered for it, and a move
leaves null pointers behind.

Requesters are numbered in the order in which they come to life, so that a number stands for
one object and not for its storage. The table that a constructor makes has the number of its
requester.
-/
namespace Zatestil.Messaging.Lifetimes
open Library Websocket

structure Requester where
  m_handleId : Nat
  /-- Whether `m_session` is not null. -/
  m_session : Bool
  m_timedMessages : Option Nat
  /-- Somebody has moved from the object; no code reads this. -/
  movedFrom : Bool
  deriving DecidableEq, Repr

/-- A handler of a requester reads the members of `this` when it runs. -/
inductive Handler where
  | requester (this : Nat)
  | other
  deriving DecidableEq, Repr

structure State where
  handles : Handles Handler
  requesters : Nat → Option Requester
  next : Nat

inductive Action where
  | construct
  | copy (source : Nat)
  | move (source : Nat)
  | destroy (this : Nat)
  deriving DecidableEq, Repr

/-- A session on which no requester has been made. -/
def State.init (handles : Handles Handler) : State := ⟨handles, fun _ => none, 0⟩

namespace Requester

/-- What is left of the source of a move. -/
def release (r : Requester) : Requester :=
  { r with m_session := false, m_timedMessages := none, movedFrom := true }

/-- The defaulted copy and move constructors take over the members. -/
def takeOver (r : Requester) : Requester := { r with movedFrom := false }

end Requester

namespace State

/-- Put a new object into its place. -/
def add (s : State) (r : Requester) : State :=
  { s with requesters := Function.update s.requesters s.next (some r), next := s.next + 1 }

def replace (s : State) (this : Nat) (r : Option Requester) : State :=
  { s with requesters := Function.update s.requesters this r }

def construct (s : State) : State :=
  let registered := s.handles.setHandle (.requester s.next)
  { s with handles := registered.1 }.add ⟨registered.2, true, some s.next, false⟩

/-- What the destructor does, with the members of the object as they are. -/
def remove (s : State) (this : Nat) (r : Requester) : State :=
  { s.replace this none with handles := (s.handles.unsetHandle r.m_handleId).1 }

/-- The destructor dereferences `m_session`; on a null pointer the run ends. -/
def step (s : State) : Action → Option State
  | .construct => some s.construct
  | .copy source => (s.requesters source).map fun r => s.add r.takeOver
  | .move source =>
    (s.requesters source).map fun r => (s.replace source r.release).add r.takeOver
  | .destroy this =>
    match s.requesters this with
    | none => none
    | some r =>
      if r.m_session then some (s.remove this r) else none

inductive Step (s : State) : Action → State → Prop where
  | construct : Step s .construct s.construct
  | copy {source : Nat} {r : Requester} (h : s.requesters source = some r) :
      Step s (.copy source) (s.add r.takeOver)
  | move {source : Nat} {r : Requester} (h : s.requesters source = some r) :
      Step s (.move source) ((s.replace source r.release).add r.takeOver)
  | destroy {this : Nat} {r : Requester} (h : s.requesters this = some r)
      (hsession : r.m_session = true) : Step s (.destroy this) (s.remove this r)

theorem step_cases {s t : State} {a : Action} (h : s.step a = some t) : Step s a t := by
  cases a with
  | construct =>
    cases h
    exact .construct
  | copy source =>
    obtain ⟨r, hr, rfl⟩ := Option.map_eq_some_iff.mp h
    exact .copy hr
  | move source =>
    obtain ⟨r, hr, rfl⟩ := Option.map_eq_some_iff.mp h
    exact .move hr
  | destroy this =>
    simp only [step] at h
    split at h
    · cases h
    next r hr =>
      split at h
      next hsession =>
        cases h
        exact .destroy hr hsession
      · cases h

/-! ## Wiring -/

/-- The object is there and has not been moved from. -/
def Live (s : State) (x : Nat) (r : Requester) : Prop :=
  s.requesters x = some r ∧ r.movedFrom = false

/-- Some registered handler searches the table. -/
def Searched (s : State) (table : Nat) : Prop :=
  ∃ id q r, s.handles.m_handles.lookup id = some (.requester q) ∧
    s.requesters q = some r ∧ r.m_timedMessages = some table

structure Wired (s : State) : Prop where
  searched : ∀ x r, s.Live x r → ∃ table, r.m_timedMessages = some table ∧ s.Searched table
  registered : ∀ id q, s.handles.m_handles.lookup id = some (.requester q) → ∃ r, s.Live q r

/-- The steps that leave every requester with its handler. -/
def Careful (s : State) : Action → Prop
  | .construct => True
  | .copy source => ∃ r, s.Live source r
  | .move source =>
    (∃ r, s.Live source r) ∧ ∀ id, s.handles.m_handles.lookup id ≠ some (.requester source)
  | .destroy this => ∀ r, s.requesters this = some r →
    ∀ y r', y ≠ this → s.Live y r' → r'.m_handleId ≠ r.m_handleId

/-! ## Objects -/

theorem requesters_add (s : State) (r : Requester) (x : Nat) :
    (s.add r).requesters x = if x = s.next then some r else s.requesters x :=
  Function.update_apply ..

theorem requesters_replace (s : State) (y : Nat) (o : Option Requester) (x : Nat) :
    (s.replace y o).requesters x = if x = y then o else s.requesters x :=
  Function.update_apply ..

theorem live_add {s : State} {x : Nat} {r r' : Requester} (hr : r.movedFrom = false) :
    (s.add r).Live x r' ↔ x = s.next ∧ r' = r ∨ x ≠ s.next ∧ s.Live x r' := by
  rw [Live, requesters_add]
  split_ifs with hx
  · simp only [Option.some.injEq, hx, true_and, ne_eq, not_true, false_and, or_false]
    constructor
    · rintro ⟨rfl, -⟩
      rfl
    · rintro rfl
      exact ⟨rfl, hr⟩
  · simp [hx, Live]

/-- The new place of a requester holds nothing or a released object. -/
theorem live_replace {s : State} {x y : Nat} {o : Option Requester} {r : Requester}
    (ho : ∀ r, o = some r → r.movedFrom = true) :
    (s.replace y o).Live x r ↔ x ≠ y ∧ s.Live x r := by
  rw [Live, requesters_replace]
  split_ifs with hx
  · simp only [hx, ne_eq, not_true, false_and, iff_false, not_and]
    intro hr
    simp [ho r hr]
  · simp [hx, Live]

/-- The numbers from `next` on are free, and a move leaves no table behind. -/
structure Objects (s : State) : Prop where
  fresh : ∀ x, s.next ≤ x → s.requesters x = none
  released : ∀ x r, s.requesters x = some r → r.movedFrom = true → r.m_timedMessages = none

theorem Objects.lt_next {s : State} (hs : s.Objects) {x : Nat} {r : Requester}
    (h : s.requesters x = some r) : x < s.next := by
  by_contra hx
  rw [hs.fresh x (by omega)] at h
  cases h

theorem Objects.add {s : State} (hs : s.Objects) {r : Requester} (hr : r.movedFrom = false) :
    (s.add r).Objects where
  fresh x hx := by
    have hlt : s.next < x := hx
    rw [requesters_add, if_neg hlt.ne', hs.fresh x hlt.le]
  released x r' hr' hmoved := by
    rw [requesters_add] at hr'
    split_ifs at hr' with hx
    · cases hr'
      rw [hr] at hmoved
      cases hmoved
    · exact hs.released x r' hr' hmoved

theorem Objects.replace {s : State} (hs : s.Objects) {y : Nat} {r : Requester}
    (hr : s.requesters y = some r) {o : Option Requester}
    (ho : ∀ r, o = some r → r.m_timedMessages = none) : (s.replace y o).Objects where
  fresh x hx := by
    have hlt : y < x := Nat.lt_of_lt_of_le (hs.lt_next hr) hx
    rw [requesters_replace, if_neg hlt.ne', hs.fresh x hx]
  released x r' hr' hmoved := by
    rw [requesters_replace] at hr'
    split_ifs at hr' with hx
    · exact ho r' hr'
    · exact hs.released x r' hr' hmoved

/-! ## The invariant -/

/-- The id of a requester, the handler under it and the table belong together: of the requesters
with one id, the handler has captured one, and all of them have its table. -/
structure Linked (s : State) : Prop where
  objects : s.Objects
  given : ∀ id, s.handles.m_handles.lookup id ≠ none → id < s.handles.handleId
  table : ∀ x r, s.Live x r → ∃ table < s.next, r.m_timedMessages = some table
  handler : ∀ x r, s.Live x r →
    ∃ q, s.handles.m_handles.lookup r.m_handleId = some (.requester q)
  registered : ∀ id q, s.handles.m_handles.lookup id = some (.requester q) →
    ∃ r, s.Live q r ∧ r.m_handleId = id
  shares : ∀ x y r r', s.Live x r → s.Live y r' →
    (r.m_handleId = r'.m_handleId ↔ r.m_timedMessages = r'.m_timedMessages)

theorem linked_init {handles : Handles Handler}
    (hgiven : ∀ id, handles.m_handles.lookup id ≠ none → id < handles.handleId)
    (hother : ∀ id q, handles.m_handles.lookup id ≠ some (.requester q)) :
    (init handles).Linked where
  objects := ⟨fun _ _ => rfl, fun _ _ h => by cases h⟩
  given := hgiven
  table _ _ h := by cases h.1
  handler _ _ h := by cases h.1
  registered id q h := absurd h (hother id q)
  shares _ _ _ _ h := by cases h.1

theorem Linked.wired {s : State} (hs : s.Linked) : s.Wired where
  searched x r hr := by
    obtain ⟨table, -, htable⟩ := hs.table x r hr
    obtain ⟨q, hq⟩ := hs.handler x r hr
    obtain ⟨rq, hrq, hid⟩ := hs.registered _ q hq
    have hsame := (hs.shares q x rq r hrq hr).mp hid
    exact ⟨table, htable, _, q, rq, hq, hrq.1, hsame.trans htable⟩
  registered id q hq := by
    obtain ⟨r, hr, -⟩ := hs.registered id q hq
    exact ⟨r, hr⟩

theorem Linked.handleId_lt {s : State} (hs : s.Linked) {x : Nat} {r : Requester}
    (hr : s.Live x r) : r.m_handleId < s.handles.handleId := by
  obtain ⟨q, hq⟩ := hs.handler x r hr
  exact hs.given _ (by simp [hq])

/-! ## Construction -/

theorem live_construct {s : State} {x : Nat} {r : Requester} :
    s.construct.Live x r ↔
      x = s.next ∧ r = ⟨s.handles.handleId, true, some s.next, false⟩ ∨
        x ≠ s.next ∧ s.Live x r :=
  live_add (s := { s with handles := (s.handles.setHandle (.requester s.next)).1 }) rfl

theorem Linked.lookup_construct {s : State} (hs : s.Linked) (id : Nat) :
    s.construct.handles.m_handles.lookup id =
      if id = s.handles.handleId then some (.requester s.next)
      else s.handles.m_handles.lookup id := by
  split_ifs with hid
  · subst hid
    refine Handles.lookup_setHandle_self ?_
    by_contra h
    exact absurd (hs.given _ h) (by omega)
  · exact Handles.lookup_setHandle_of_ne hid

/-- The new id and the new table are different from all that are in use. -/
theorem Linked.construct {s : State} (hs : s.Linked) : s.construct.Linked where
  objects := by
    have hobjects : ({ s with handles := (s.handles.setHandle (.requester s.next)).1 } :
        State).Objects := ⟨hs.objects.fresh, hs.objects.released⟩
    exact hobjects.add rfl
  given id h := by
    rw [hs.lookup_construct] at h
    split_ifs at h with hid
    · exact hid ▸ Nat.lt_succ_self _
    · exact Nat.lt_succ_of_lt (hs.given id h)
  table x r hr := by
    rcases live_construct.mp hr with ⟨-, rfl⟩ | ⟨-, hr⟩
    · exact ⟨s.next, Nat.lt_succ_self _, rfl⟩
    · obtain ⟨table, hlt, htable⟩ := hs.table x r hr
      exact ⟨table, Nat.lt_succ_of_lt hlt, htable⟩
  handler x r hr := by
    rw [hs.lookup_construct]
    rcases live_construct.mp hr with ⟨-, rfl⟩ | ⟨-, hr⟩
    · exact ⟨s.next, if_pos rfl⟩
    · obtain ⟨q, hq⟩ := hs.handler x r hr
      exact ⟨q, by rw [if_neg (hs.handleId_lt hr).ne, hq]⟩
  registered id q h := by
    rw [hs.lookup_construct] at h
    split_ifs at h with hid
    · cases h
      exact ⟨_, live_construct.mpr (.inl ⟨rfl, rfl⟩), hid.symm⟩
    · obtain ⟨r, hr, hrid⟩ := hs.registered id q h
      exact ⟨r, live_construct.mpr (.inr ⟨(hs.objects.lt_next hr.1).ne, hr⟩), hrid⟩
  shares x y r r' hr hr' := by
    have hnew : ∀ z rz, s.Live z rz →
        rz.m_handleId ≠ s.handles.handleId ∧ rz.m_timedMessages ≠ some s.next := by
      intro z rz hz
      obtain ⟨table, hlt, htable⟩ := hs.table z rz hz
      refine ⟨(hs.handleId_lt hz).ne, ?_⟩
      simp [htable, hlt.ne]
    rcases live_construct.mp hr with ⟨-, rfl⟩ | ⟨-, hr⟩ <;>
      rcases live_construct.mp hr' with ⟨-, rfl⟩ | ⟨-, hr'⟩
    · simp
    · exact iff_of_false (hnew y r' hr').1.symm (hnew y r' hr').2.symm
    · exact iff_of_false (hnew x r hr).1 (hnew x r hr).2
    · exact hs.shares x y r r' hr hr'

/-! ## Copies, moves and destruction -/

/-- If all live objects have the members of objects that were live before, their tables and ids
still fit together, and only the handlers have to be looked at. -/
theorem Linked.of_members {s t : State} (hs : s.Linked) (hobjects : t.Objects)
    (hnext : s.next ≤ t.next) (hlive : ∀ x r, t.Live x r → ∃ y, s.Live y r)
    (hgiven : ∀ id, t.handles.m_handles.lookup id ≠ none → id < t.handles.handleId)
    (hhandler : ∀ x r, t.Live x r →
      ∃ q, t.handles.m_handles.lookup r.m_handleId = some (.requester q))
    (hregistered : ∀ id q, t.handles.m_handles.lookup id = some (.requester q) →
      ∃ r, t.Live q r ∧ r.m_handleId = id) : t.Linked where
  objects := hobjects
  given := hgiven
  table x r hr := by
    obtain ⟨y, hy⟩ := hlive x r hr
    obtain ⟨table, hlt, htable⟩ := hs.table y r hy
    exact ⟨table, by omega, htable⟩
  handler := hhandler
  registered := hregistered
  shares x x' r r' hr hr' := by
    obtain ⟨y, hy⟩ := hlive x r hr
    obtain ⟨y', hy'⟩ := hlive x' r' hr'
    exact hs.shares y y' r r' hy hy'

/-- A second object with the members of a live one. -/
theorem Linked.add {s : State} (hs : s.Linked) {y : Nat} {r : Requester} (hr : s.Live y r) :
    (s.add r).Linked := by
  have hlive : ∀ x rx, (s.add r).Live x rx → ∃ z, s.Live z rx := by
    intro x rx hx
    rcases (live_add hr.2).mp hx with ⟨-, rfl⟩ | ⟨-, hx⟩
    · exact ⟨y, hr⟩
    · exact ⟨x, hx⟩
  refine hs.of_members (hs.objects.add hr.2) (Nat.le_succ _) hlive hs.given ?_ ?_
  · intro x rx hx
    obtain ⟨z, hz⟩ := hlive x rx hx
    exact hs.handler z rx hz
  · intro id q hq
    obtain ⟨rq, hrq, hid⟩ := hs.registered id q hq
    exact ⟨rq, (live_add hr.2).mpr (.inr ⟨(hs.objects.lt_next hrq.1).ne, hrq⟩), hid⟩

/-- An object that no handler has captured can be left without its members. -/
theorem Linked.release {s : State} (hs : s.Linked) {y : Nat} {r : Requester}
    (hr : s.requesters y = some r)
    (hfree : ∀ id, s.handles.m_handles.lookup id ≠ some (.requester y)) :
    (s.replace y r.release).Linked := by
  have hlive : ∀ x rx, (s.replace y r.release).Live x rx ↔ x ≠ y ∧ s.Live x rx := by
    intro x rx
    exact live_replace (by rintro _ ⟨⟩; rfl)
  refine hs.of_members (hs.objects.replace hr (by rintro _ ⟨⟩; rfl)) le_rfl
    (fun x rx hx => ⟨x, ((hlive x rx).mp hx).2⟩) hs.given ?_ ?_
  · exact fun x rx hx => hs.handler x rx ((hlive x rx).mp hx).2
  · intro id q hq
    obtain ⟨rq, hrq, hid⟩ := hs.registered id q hq
    have hne : q ≠ y := by
      rintro rfl
      exact hfree id hq
    exact ⟨rq, (hlive q rq).mpr ⟨hne, hrq⟩, hid⟩

theorem live_remove {s : State} {x y : Nat} {r r' : Requester} :
    (s.remove x r).Live y r' ↔ y ≠ x ∧ s.Live y r' :=
  live_replace (s := s) (by rintro _ ⟨⟩)

theorem lookup_remove {s : State} {x : Nat} {r : Requester} (id : Nat) :
    (s.remove x r).handles.m_handles.lookup id =
      if id = r.m_handleId then none else s.handles.m_handles.lookup id :=
  Handles.lookup_unsetHandle ..

theorem Linked.remove {s : State} (hs : s.Linked) {x : Nat} {r : Requester}
    (hr : s.requesters x = some r)
    (halone : ∀ y r', y ≠ x → s.Live y r' → r'.m_handleId ≠ r.m_handleId) :
    (s.remove x r).Linked := by
  have hobjects := hs.objects.replace hr (o := none) (by rintro _ ⟨⟩)
  refine hs.of_members ⟨hobjects.fresh, hobjects.released⟩ le_rfl
    (fun y ry hy => ⟨y, (live_remove.mp hy).2⟩) ?_ ?_ ?_
  · intro id h
    rw [lookup_remove] at h
    split_ifs at h
    · exact absurd rfl h
    · exact hs.given id h
  · intro y ry hy
    obtain ⟨hne, hy⟩ := live_remove.mp hy
    obtain ⟨q, hq⟩ := hs.handler y ry hy
    exact ⟨q, by rw [lookup_remove, if_neg (halone y ry hne hy), hq]⟩
  · intro id q h
    rw [lookup_remove] at h
    split_ifs at h with hid
    obtain ⟨rq, hrq, hrid⟩ := hs.registered id q h
    refine ⟨rq, live_remove.mpr ⟨?_, hrq⟩, hrid⟩
    rintro rfl
    obtain rfl : r = rq := Option.some.inj (hr.symm.trans hrq.1)
    exact hid hrid.symm

theorem takeOver_of_live {s : State} {x : Nat} {r : Requester} (h : s.Live x r) :
    r.takeOver = r := by
  cases r
  cases h.2
  rfl

theorem add_replace_comm {s : State} {y : Nat} (hy : y ≠ s.next) (o : Option Requester)
    (r : Requester) : (s.replace y o).add r = (s.add r).replace y o := by
  simp only [add, replace]
  rw [Function.update_comm hy]

theorem Linked.step {s t : State} {a : Action} (hs : s.Linked) (ha : s.Careful a)
    (h : s.step a = some t) : t.Linked := by
  cases step_cases h with
  | construct => exact hs.construct
  | @copy source r hr =>
    obtain ⟨r', hlive⟩ := ha
    obtain rfl : r = r' := Option.some.inj (hr.symm.trans hlive.1)
    rw [takeOver_of_live hlive]
    exact hs.add hlive
  | @move source r hr =>
    obtain ⟨⟨r', hlive⟩, hfree⟩ := ha
    obtain rfl : r = r' := Option.some.inj (hr.symm.trans hlive.1)
    have hne := (hs.objects.lt_next hr).ne
    rw [takeOver_of_live hlive, add_replace_comm hne]
    exact (hs.add hlive).release (by rw [requesters_add, if_neg hne, hr]) hfree
  | @destroy this r hr hsession => exact hs.remove hr (ha r hr)

/-- An object made from one without members has none, and is live. -/
theorem Wired.live_source {s t : State} (hs : s.Objects) (ht : t.Wired) {y : Nat}
    {r : Requester} (hr : s.requesters y = some r) {x : Nat} (hx : t.Live x r.takeOver) :
    s.Live y r := by
  obtain ⟨table, htable, -⟩ := ht.searched x _ hx
  refine ⟨hr, ?_⟩
  by_contra hmoved
  have hnone := hs.released y r hr (by simpa using hmoved)
  have hsome : r.m_timedMessages = some table := htable
  rw [hnone] at hsome
  cases hsome

/-- A step that is not careful leaves a requester without a handler, or a handler without its
requester. -/
theorem Linked.careful {s t : State} {a : Action} (hs : s.Linked) (h : s.step a = some t)
    (ht : t.Wired) : s.Careful a := by
  cases step_cases h with
  | construct => trivial
  | @copy source r hr =>
    exact ⟨r, ht.live_source hs.objects hr ((live_add rfl).mpr (.inl ⟨rfl, rfl⟩))⟩
  | @move source r hr =>
    refine ⟨⟨r, ht.live_source hs.objects hr ((live_add rfl).mpr (.inl ⟨rfl, rfl⟩))⟩, ?_⟩
    intro id hid
    obtain ⟨r', hlive⟩ := ht.registered id source hid
    rcases (live_add rfl).mp hlive with ⟨hnext, -⟩ | ⟨-, hlive⟩
    · exact (hs.objects.lt_next hr).ne hnext
    · have hgone := (live_replace (by rintro _ ⟨⟩; rfl)).mp hlive
      exact hgone.1 rfl
  | @destroy this r hr hsession =>
    intro r' hr' y ry hne hy hid
    obtain rfl : r = r' := Option.some.inj (hr.symm.trans hr')
    obtain ⟨table, htable, id, q, rq, hq, hrq, hrqt⟩ :=
      ht.searched y ry ((live_remove (r := r)).mpr ⟨hne, hy⟩)
    have hlookup := (lookup_remove (s := s) (x := this) (r := r) id).symm.trans hq
    split_ifs at hlookup with hother
    -- the handler that searches the table is the one of the id, which is gone
    obtain ⟨rq', hrq', hrid⟩ := hs.registered id q hlookup
    have hkept := (requesters_replace s this none q).symm.trans hrq
    split_ifs at hkept
    obtain rfl : rq = rq' := Option.some.inj (hkept.symm.trans hrq'.1)
    have hsame := (hs.shares q y rq ry hrq' hy).mpr (hrqt.trans htable.symm)
    exact hother (hrid.symm.trans (hsame.trans hid))

end State

/-- On a session on which no requester has been made before, every state of a run has all live
requesters wired to their tables if and only if all of its steps are careful: copies and moves
are made from requesters that have not been moved from, a move takes no object that a handler
has captured, and a destructor runs only if no other live requester has the same id. -/
theorem requesters_wired_iff_careful {handles : Handles Handler} {as : List Action} {s : State}
    (hgiven : ∀ id, handles.m_handles.lookup id ≠ none → id < handles.handleId)
    (hother : ∀ id q, handles.m_handles.lookup id ≠ some (.requester q))
    (hs : exec State.step (.init handles) as = some s) :
    (∀ bs t, bs <+: as → exec State.step (.init handles) bs = some t → t.Wired) ↔
      Along State.step State.Careful (.init handles) as :=
  forall_states_iff_along (fun _ h => h.wired) (fun _ _ _ h ha hstep => h.step ha hstep)
    (fun _ _ _ h hstep ht => h.careful hstep ht) (State.linked_init hgiven hother) hs

/-- A session with a handler of somebody else. -/
def usedSession : Handles Handler := ((⟨0, .empty⟩ : Handles Handler).setHandle .other).1

/-- A copy is made and moved, and a second requester comes and goes. -/
def carefulRun : List Action := [.construct, .copy 0, .move 1, .construct, .destroy 3]

theorem requesters_wired_iff_careful_copy_moved :
    ∃ s, exec State.step (.init usedSession) carefulRun = some s ∧
      s.handles.m_handles.lookup 1 = some (.requester 0) ∧
      ((∀ bs t, bs <+: carefulRun → exec State.step (.init usedSession) bs = some t → t.Wired) ↔
        Along State.step State.Careful (.init usedSession) carefulRun) := by
  have hlookup : ∀ id, usedSession.m_handles.lookup id = if id = 0 then some .other else none := by
    intro id
    simp [usedSession, Handles.setHandle, SortedMap.lookup_insert]
  obtain ⟨s, hs, hhandler⟩ : ∃ s, exec State.step (.init usedSession) carefulRun = some s ∧
      s.handles.m_handles.lookup 1 = some (.requester 0) := ⟨_, rfl, rfl⟩
  refine ⟨s, hs, hhandler, requesters_wired_iff_careful ?_ ?_ hs⟩
  · intro id hid
    rw [hlookup] at hid
    split_ifs at hid with h0
    · rw [h0]
      decide
    · exact absurd rfl hid
  · intro id q
    rw [hlookup]
    split_ifs <;> simp

/-- The destructor of a copy takes the handler of the original away. -/
theorem copy_destroyed_unregisters_original :
    ∃ s r, exec State.step (.init usedSession) [.construct, .copy 0, .destroy 1] = some s ∧
      s.Live 0 r ∧ ¬ s.Wired := by
  obtain ⟨s, r, hs, hr, hcount⟩ : ∃ s r,
      exec State.step (.init usedSession) [.construct, .copy 0, .destroy 1] = some s ∧
      s.Live 0 r ∧ s.handles.m_handles.entries = [(0, .other)] :=
    ⟨_, _, rfl, ⟨rfl, rfl⟩, rfl⟩
  refine ⟨s, r, hs, hr, fun hwired => ?_⟩
  obtain ⟨table, -, id, q, -, hq, -⟩ := hwired.searched 0 r hr
  have hmem := SortedMap.lookup_eq_some.mp hq
  rw [hcount] at hmem
  simp at hmem

end Zatestil.Messaging.Lifetimes
