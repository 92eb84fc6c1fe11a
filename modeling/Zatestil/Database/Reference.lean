import Zatestil.Database.Mdbx

/-!
# A reference engine

A small executable engine with the documented behaviour: the laws of `Mdbx` can be met, and
concrete runs of the tables can be evaluated. Cursors are numbered as they are opened, and
a place is a key rather than a position in a page, so nothing has to be adjusted when
entries come and go. A failed `find` stays on the next greater entry and a
failed `insert` on the entry that was in the way.
-/
namespace Zatestil.Database.Reference
open Library

structure Txn where
  content : Content
  isReadonly : Bool
  cursors : Nat
  places : Nat → Place

namespace Txn

def moveTo (t : Txn) (c : Nat) (p : Place) : Txn :=
  { t with places := Function.update t.places c p }

/-- The entry that a cursor left on a key reads: the one there, or the next greater one. -/
def current (t : Txn) (c : Nat) : Option (Bytes × Bytes) :=
  match t.places c with
  | .on k => t.content.ceil k
  | _ => none

/-- Go to an entry if there is one, and else to `miss`. -/
def goto (t : Txn) (c : Nat) (e : Option (Bytes × Bytes)) (miss : Place) : Txn × Bool :=
  match e with
  | some e => (t.moveTo c (.on e.1), true)
  | none => (t.moveTo c miss, false)

def createMap (t : Txn) (_name : String) : Except String Txn :=
  if t.isReadonly then .error "MDBX_EACCESS" else .ok t

def openCursor (t : Txn) : Except String (Txn × Nat) :=
  .ok ({ t.moveTo t.cursors .unset with cursors := t.cursors + 1 }, t.cursors)

def toFirst (t : Txn) (c : Nat) : Txn × Bool := t.goto c t.content.first .past

def toNext (t : Txn) (c : Nat) : Txn × Bool :=
  match t.places c with
  | .on k => t.goto c (t.content.above k) .past
  | .unset => t.toFirst c
  | .past => (t, false)

def toPrevious (t : Txn) (c : Nat) : Txn × Bool :=
  match t.places c with
  | .on k => t.goto c (t.content.below k) (.on k)
  | p => t.goto c t.content.entries.getLast? p

def find (t : Txn) (c : Nat) (k : Bytes) : Txn × Bool :=
  ((t.goto c (t.content.ceil k) .past).1, (t.content.lookup k).isSome)

def lowerBound (t : Txn) (c : Nat) (k : Bytes) : Txn × Bool := t.goto c (t.content.ceil k) .past

def store (t : Txn) (c : Nat) (k v : Bytes) : Txn × Option String :=
  ({ t.moveTo c (.on k) with content := t.content.insert k v }, none)

def insert (t : Txn) (c : Nat) (k v : Bytes) : Txn × Option String :=
  if t.isReadonly then (t, some "MDBX_EACCESS")
  else if (t.content.lookup k).isSome then (t.moveTo c (.on k), some "MDBX_KEYEXIST")
  else t.store c k v

def upsert (t : Txn) (c : Nat) (k v : Bytes) : Txn × Option String :=
  if t.isReadonly then (t, some "MDBX_EACCESS") else t.store c k v

def update (t : Txn) (c : Nat) (k v : Bytes) : Txn × Option String :=
  if t.isReadonly then (t, some "MDBX_EACCESS")
  else if (t.current c).map (·.1) = some k then t.store c k v
  else (t, some "MDBX_EKEYMISMATCH")

def erase (t : Txn) (c : Nat) : Except String (Txn × Bool) :=
  if t.isReadonly then .error "MDBX_EACCESS"
  else match t.current c with
    | none => .ok (t, false)
    | some e => .ok ({ t.moveTo c (.on e.1) with content := t.content.erase e.1 }, true)

end Txn

/-- The reference engine. The environment is what has been published. -/
abbrev engine : Mdbx where
  Env := Content
  Txn := Txn
  Cursor := Nat
  published e := e
  startRead e := ⟨e, true, 0, fun _ => .unset⟩
  startWrite e := ⟨e, false, 0, fun _ => .unset⟩
  commit e t := if t.isReadonly then e else t.content
  abort e _ := e
  content := Txn.content
  isReadonly := Txn.isReadonly
  opened t c := c < t.cursors
  place := Txn.places
  createMap := Txn.createMap
  openCursor := Txn.openCursor
  eof t c := (t.current c).isNone
  current := Txn.current
  toFirst := Txn.toFirst
  toNext := Txn.toNext
  toPrevious := Txn.toPrevious
  find := Txn.find
  lowerBound := Txn.lowerBound
  insert := Txn.insert
  upsert := Txn.upsert
  update := Txn.update
  erase := Txn.erase

namespace Txn

variable (t : Txn) (c : Nat)

theorem frame_moveTo (p : Place) (m : Content) :
    engine.Frame c t ({ t.moveTo c p with content := m } : Txn) where
  readonly := rfl
  opened _ h := h
  place d hd _ := by simp [moveTo, Function.update_of_ne hd]

theorem moves_moveTo (p : Place) : engine.Moves c t (t.moveTo c p) where
  toFrame := frame_moveTo t c p t.content
  content := rfl

theorem moves_goto (e : Option (Bytes × Bytes)) (miss : Place) :
    engine.Moves c t (t.goto c e miss).1 := by
  cases e <;> exact moves_moveTo t c _

@[simp] theorem goto_some (e : Bytes × Bytes) (miss : Place) :
    t.goto c (some e) miss = (t.moveTo c (.on e.1), true) := rfl

@[simp] theorem goto_none (miss : Place) :
    t.goto c none miss = (t.moveTo c miss, false) := rfl

@[simp] theorem goto_result (e : Option (Bytes × Bytes)) (miss : Place) :
    (t.goto c e miss).2 = e.isSome := by
  cases e <;> rfl

@[simp] theorem places_moveTo (p : Place) : (t.moveTo c p).places c = p := by
  simp [moveTo]

end Txn

open Txn

theorem transactional : engine.Transactional where
  startRead_content _ := rfl
  startRead_readonly _ := rfl
  startWrite_content _ := rfl
  startWrite_readonly _ := rfl
  commit_write e t h := if_neg (by simpa using h)
  commit_read e t h := if_pos h
  abort_published _ _ := rfl

theorem documented : engine.Documented where
  createMap_ok t u name h := by
    have h : createMap t name = .ok u := h
    unfold createMap at h
    split_ifs at h
    cases h
    exact ⟨rfl, rfl⟩
  openCursor_ok t u c h := by
    cases h
    refine ⟨⟨⟨rfl, fun d hd => Nat.lt_succ_of_lt hd, ?_⟩, rfl⟩, Nat.lt_irrefl _,
      Nat.lt_succ_self _, places_moveTo _ _ _⟩
    intro d hd _
    exact Function.update_of_ne hd _ _
  current_on t c k v hp hk := by
    have hp : t.places c = .on k := hp
    simpa [current, hp] using SortedMap.ceil_of_lookup hk
  current_mem t c k v h := by
    have h : t.current c = some (k, v) := h
    unfold current at h
    split at h
    · exact SortedMap.lookup_of_ceil h
    · cases h
  current_unset t c hp := by
    have hp : t.places c = .unset := hp
    simp [current, hp]
  current_gone t c k hp hk := by
    have hp : t.places c = .on k := hp
    simpa [current, hp] using hk
  eof_on t c k v hp hk := by
    have hp : t.places c = .on k := hp
    have hk := SortedMap.ceil_of_lookup hk
    simp [current, hp, hk]
  eof_past t c hp := by
    have hp : t.places c = .past := hp
    simp [current, hp]
  toFirst_moves t c := moves_goto t c _ _
  toFirst_result t c := goto_result t c _ _
  toFirst_place t c e he := by
    have he : t.content.first = some e := he
    simp [toFirst, he]
  toNext_moves t c := by
    show engine.Moves c t (t.toNext c).1
    unfold toNext toFirst
    split
    · exact moves_goto t c _ _
    · exact moves_goto t c _ _
    · exact Mdbx.Moves.refl _ c t
  toNext_above t c k e hp he := by
    have hp : t.places c = .on k := hp
    have he : t.content.above k = some e := he
    simp [toNext, hp, he]
  toNext_last t c k hp he := by
    have hp : t.places c = .on k := hp
    have he : t.content.above k = none := he
    simp [toNext, hp, he]
  toPrevious_moves t c := by
    show engine.Moves c t (t.toPrevious c).1
    unfold toPrevious
    split
    · exact moves_goto t c _ _
    · exact moves_goto t c _ _
  toPrevious_below t c k e hp he := by
    have hp : t.places c = .on k := hp
    have he : t.content.below k = some e := he
    simp [toPrevious, hp, he]
  toPrevious_first t c k hp he := by
    have hp : t.places c = .on k := hp
    have he : t.content.below k = none := he
    simp [toPrevious, hp, he]
  find_moves t c k := moves_goto t c _ _
  find_result _ _ _ := rfl
  find_place t c k v hk := by
    have hk : t.content.ceil k = some (k, v) := SortedMap.ceil_of_lookup hk
    simp [find, hk]
  lowerBound_moves t c k := moves_goto t c _ _
  lowerBound_result t c k := goto_result t c _ _
  lowerBound_place t c k e he := by
    have he : t.content.ceil k = some e := he
    simp [lowerBound, he]
  insert_ok t c k v h := by
    have h : (t.insert c k v).2 = none := h
    show engine.Frame c t (t.insert c k v).1 ∧ t.content.lookup k = none ∧
      (t.insert c k v).1.content = t.content.insert k v ∧ (t.insert c k v).1.places c = .on k
    unfold Txn.insert at h ⊢
    split_ifs at h ⊢ with hr hk
    exact ⟨frame_moveTo t c _ _, by simpa using hk, rfl, places_moveTo _ _ _⟩
  insert_throws t c k v w h := by
    have h : (t.insert c k v).2 = some w := h
    show engine.Moves c t (t.insert c k v).1
    unfold Txn.insert at h ⊢
    split_ifs at h ⊢
    · exact Mdbx.Moves.refl _ c t
    · exact moves_moveTo t c _
    · cases h
  upsert_ok t c k v h := by
    have h : (t.upsert c k v).2 = none := h
    show engine.Frame c t (t.upsert c k v).1 ∧
      (t.upsert c k v).1.content = t.content.insert k v ∧ (t.upsert c k v).1.places c = .on k
    unfold upsert at h ⊢
    split_ifs at h ⊢
    exact ⟨frame_moveTo t c _ _, rfl, places_moveTo _ _ _⟩
  upsert_throws t c k v w h := by
    have h : (t.upsert c k v).2 = some w := h
    show engine.Moves c t (t.upsert c k v).1
    unfold upsert at h ⊢
    split_ifs at h ⊢
    · exact Mdbx.Moves.refl _ c t
    · cases h
  update_ok t c k v h := by
    have h : (t.update c k v).2 = none := h
    show engine.Frame c t (t.update c k v).1 ∧ (∃ w, t.current c = some (k, w)) ∧
      (t.update c k v).1.content = t.content.insert k v ∧ (t.update c k v).1.places c = .on k
    unfold update at h ⊢
    split_ifs at h ⊢ with hr hk
    obtain ⟨⟨j, w⟩, he, rfl⟩ := Option.map_eq_some_iff.mp hk
    exact ⟨frame_moveTo t c _ _, ⟨w, he⟩, rfl, places_moveTo _ _ _⟩
  update_throws t c k v w h := by
    have h : (t.update c k v).2 = some w := h
    show engine.Moves c t (t.update c k v).1
    unfold update at h ⊢
    split_ifs at h ⊢
    · exact Mdbx.Moves.refl _ c t
    · cases h
    · exact Mdbx.Moves.refl _ c t
  erase_current t u c b k v h he := by
    have h : t.erase c = .ok (u, b) := h
    have he : t.current c = some (k, v) := he
    unfold erase at h
    split_ifs at h
    rw [he] at h
    cases h
    exact ⟨frame_moveTo t c _ _, rfl, places_moveTo _ _ _⟩
  erase_nothing t u c b h he := by
    have h : t.erase c = .ok (u, b) := h
    have he : t.current c = none := he
    unfold erase at h
    split_ifs at h
    rw [he] at h
    cases h
    exact Mdbx.Moves.refl _ c t

theorem unfailing : engine.Unfailing where
  openCursor t := ⟨_, _, rfl⟩
  insert t c k v hr hk := by
    have hr : t.isReadonly = false := hr
    have hk : t.content.lookup k = none := hk
    simp [Txn.insert, store, hr, hk]
  upsert t c k v hr := by
    have hr : t.isReadonly = false := hr
    simp [upsert, store, hr]
  update t c k v w hr he := by
    have hr : t.isReadonly = false := hr
    have he : t.current c = some (k, w) := he
    simp [update, store, hr, he]
  erase t c k v hr he := by
    have hr : t.isReadonly = false := hr
    have he : t.current c = some (k, v) := he
    exact ⟨_, by simp [erase, hr, he]; rfl⟩

theorem tracking : engine.Tracking where
  current_on t c k hp := by
    have hp : t.places c = .on k := hp
    simp [current, hp]
  current_place t c e h := by
    have h : t.current c = some e := h
    unfold current at h
    split at h
    · rename_i k hk
      exact ⟨k, hk⟩
    · cases h
  eof_current t c e h := by
    have h : t.current c = some e := h
    simp [h]

end Zatestil.Database.Reference
