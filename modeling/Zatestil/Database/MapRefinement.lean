import Zatestil.Database.Transaction
import Mathlib.Order.Bounds.Basic

/-!
# A table is an ordered map

The abstract map is a function from keys to optional values. `MapOp.Spec` says what one
operation of such a map shows and leaves, `MapOp.call` runs the table operation and looks at
what it returned, and `table_refines_map` is the simulation over sequences of operations.
The engine is assumed to fail only for reasons that concern the data.

The section on `update` shows the one put that does not fit: it opens a new cursor and then
replaces the item at that cursor, which is never positioned.
-/
namespace Zatestil.Database
open Library Util

namespace ConstCursor

variable {E : Mdbx} {Value : Type} (S : Schema Value)

/-- What a caller sees of a returned cursor: nothing at the end, else key and raw value. -/
def look (t : E.Txn) (i : ConstCursor E) : Except Exn (Option (Bytes × Bytes)) := do
  if ← i.equal S t .marker then return none
  let k ← i.key S t
  let v ← i.rawValue S t
  return some (k, v)

theorem item_of_current {t : E.Txn} {c : E.Cursor} {e : Bytes × Bytes}
    (h : E.current t c = some e) : (⟨false, some c⟩ : ConstCursor E).item S t = .ok e := by
  simp [item, h]

theorem look_end (t : E.Txn) (c : Option E.Cursor) :
    (⟨true, c⟩ : ConstCursor E).look S t = .ok none := rfl

/-- A cursor placed on an entry shows that entry, whatever the result of the search was. -/
theorem look_on (hE : E.Documented) {t : E.Txn} {c : E.Cursor} {e : Bytes × Bytes}
    (hp : E.place t c = .on e.1) (he : (E.content t).lookup e.1 = some e.2) :
    (⟨E.eof t c, some c⟩ : ConstCursor E).look S t = .ok (some e) := by
  have hitem := item_of_current S (hE.current_on t c e.1 e.2 hp he)
  rw [hE.eof_on t c e.1 e.2 hp he]
  simp only [look, equal, key, rawValue, hitem]
  rfl

end ConstCursor

/-! ## The operations return, and what they return shows -/

namespace Table

variable {E : Mdbx} {Value : Type} (S : Schema Value) {w : Reader E}

theorem search_found (hE : E.Documented) (hU : E.Unfailing)
    {seek : E.Txn → E.Cursor → E.Txn × Bool} (hmoves : ∀ t c, E.Moves c t (seek t c).1)
    {e : Bytes × Bytes} (he : (E.content w.m_txn).lookup e.1 = some e.2)
    (hfound : ∀ t c, E.content t = E.content w.m_txn →
      (seek t c).2 = true ∧ E.place (seek t c).1 c = .on e.1) :
    ∃ w' i, search seek w = .ok (w', i) ∧ i.look S w'.m_txn = .ok (some e) := by
  obtain ⟨t, c, ht⟩ := hU.openCursor w.m_txn
  have hcontent := (hE.openCursor_ok _ _ _ ht).1.content
  obtain ⟨hres, hplace⟩ := hfound t c hcontent
  refine ⟨_, _, search_eq_ok.mpr ⟨t, c, ht, rfl, rfl⟩, ?_⟩
  simp only [hres, Bool.not_true, Bool.false_or]
  exact ConstCursor.look_on S hE hplace (by rw [(hmoves t c).content, hcontent, he])

theorem search_missed (hE : E.Documented) (hU : E.Unfailing)
    {seek : E.Txn → E.Cursor → E.Txn × Bool}
    (hmiss : ∀ t c, E.content t = E.content w.m_txn → (seek t c).2 = false) :
    ∃ w' i, search seek w = .ok (w', i) ∧ i.look S w'.m_txn = .ok none := by
  obtain ⟨t, c, ht⟩ := hU.openCursor w.m_txn
  have hres := hmiss t c (hE.openCursor_ok _ _ _ ht).1.content
  refine ⟨_, _, search_eq_ok.mpr ⟨t, c, ht, rfl, rfl⟩, ?_⟩
  simp only [hres, Bool.not_false, Bool.true_or]
  exact ConstCursor.look_end S _ _

theorem get_returns (hE : E.Documented) (hU : E.Unfailing) (k : Bytes) :
    ∃ w' i, get w k = .ok (w', i) ∧
      i.look S w'.m_txn = .ok (((E.content w.m_txn).lookup k).map (k, ·)) := by
  cases hk : (E.content w.m_txn).lookup k with
  | none =>
    refine search_missed S hE hU fun t c ht => ?_
    rw [hE.find_result, ht, hk, Option.isSome_none]
  | some v =>
    refine search_found S hE hU (fun t c => hE.find_moves t c k) (e := (k, v)) hk
      fun t c ht => ⟨?_, hE.find_place t c k v (by rw [ht, hk])⟩
    rw [hE.find_result, ht, hk, Option.isSome_some]

theorem lowerBound_returns (hE : E.Documented) (hU : E.Unfailing) (k : Bytes) :
    ∃ w' i, lowerBound w k = .ok (w', i) ∧
      i.look S w'.m_txn = .ok ((E.content w.m_txn).ceil k) := by
  cases hk : (E.content w.m_txn).ceil k with
  | none =>
    refine search_missed S hE hU fun t c ht => ?_
    rw [hE.lowerBound_result, ht, hk, Option.isSome_none]
  | some e =>
    refine search_found S hE hU (fun t c => hE.lowerBound_moves t c k)
      (SortedMap.lookup_of_ceil hk) fun t c ht => ⟨?_, hE.lowerBound_place t c k e (by rw [ht, hk])⟩
    rw [hE.lowerBound_result, ht, hk, Option.isSome_some]

theorem begin_returns (hE : E.Documented) (hU : E.Unfailing) :
    ∃ w' i, begin w = .ok (w', i) ∧ i.m_end = (E.content w.m_txn).first.isNone := by
  obtain ⟨t, c, ht⟩ := hU.openCursor w.m_txn
  have hcontent := (hE.openCursor_ok _ _ _ ht).1.content
  refine ⟨_, _, search_eq_ok.mpr ⟨t, c, ht, rfl, rfl⟩, ?_⟩
  cases hf : (E.content w.m_txn).first with
  | none => simp [hE.toFirst_result, hcontent, hf]
  | some e =>
    have hplace := hE.toFirst_place t c e (by rw [hcontent, hf])
    have hv : (E.content (E.toFirst t c).1).lookup e.1 = some e.2 := by
      rw [(hE.toFirst_moves t c).content, hcontent, SortedMap.lookup_of_first hf]
    simp [hE.toFirst_result, hcontent, hf, hE.eof_on _ _ _ _ hplace hv]

theorem empty_returns (hE : E.Documented) (hU : E.Unfailing) :
    ∃ w', empty S w = .ok (w', (E.content w.m_txn).first.isNone) := by
  obtain ⟨w', i, hw, hi⟩ := begin_returns (w := w) hE hU
  exact ⟨w', bind_eq_ok.mpr ⟨_, hw, by rw [← hi]; rfl⟩⟩

/-- A put that succeeds returns a cursor on the new entry. -/
theorem putWith_stores (hE : E.Documented) (hU : E.Unfailing)
    (put : E.Txn → E.Cursor → Bytes → Bytes → E.Txn × Option String) (k v : Bytes)
    (hput : ∀ t c, E.content t = E.content w.m_txn → E.isReadonly t = E.isReadonly w.m_txn →
      (put t c k v).2 = none ∧ E.content (put t c k v).1 = (E.content t).insert k v ∧
        E.place (put t c k v).1 c = .on k) :
    ∃ w' i, putWith put w k v = .ok (w', i) ∧ putEvent put w k v = .stored k v ∧
      i.look S w'.m_txn = .ok (some (k, v)) := by
  obtain ⟨t, c, ht⟩ := hU.openCursor w.m_txn
  have hopen := (hE.openCursor_ok _ _ _ ht).1
  obtain ⟨hok, hcontent, hplace⟩ := hput t c hopen.content hopen.readonly
  refine ⟨{ w with m_txn := (put t c k v).1 }, ⟨E.eof (put t c k v).1 c, some c⟩, ?_, ?_, ?_⟩
  · simp only [putWith, putBlock, ht, hok, make_some]
    rfl
  · simp only [putEvent, putBlock, ht, hok]
  · refine ConstCursor.look_on S hE (e := (k, v)) hplace ?_
    rw [hcontent, SortedMap.lookup_insert, if_pos rfl]

/-- A put that throws returns an end cursor. -/
theorem putWith_fails (hU : E.Unfailing)
    (put : E.Txn → E.Cursor → Bytes → Bytes → E.Txn × Option String) (k v : Bytes)
    (hput : ∀ t c, E.openCursor w.m_txn = .ok (t, c) → (put t c k v).2 ≠ none) :
    ∃ w' i, putWith put w k v = .ok (w', i) ∧ putEvent put w k v = .failed ∧ i.m_end = true := by
  obtain ⟨t, c, ht⟩ := hU.openCursor w.m_txn
  obtain ⟨what, hwhat⟩ := Option.ne_none_iff_exists'.mp (hput t c ht)
  refine ⟨recordError { w with m_txn := (put t c k v).1 } what, ⟨true, some c⟩, ?_, ?_, rfl⟩
  · simp only [putWith, putBlock, ht, hwhat]
    rfl
  · simp only [putEvent, putBlock, ht, hwhat]

theorem eraseKey_returns (hE : E.Documented) (hU : E.Unfailing)
    (hw : E.isReadonly w.m_txn = false) (k : Bytes) : ∃ w', eraseKey w k = .ok w' := by
  obtain ⟨t, c, ht⟩ := hU.openCursor w.m_txn
  have hopen := (hE.openCursor_ok _ _ _ ht).1
  have hmoves := hE.find_moves t c k
  have hcursor : openCursor w = .ok ({ w with m_txn := t }, c) :=
    openCursor_eq_ok.mpr ⟨t, ht, rfl⟩
  cases hk : (E.content t).lookup k with
  | none =>
    refine ⟨{ w with m_txn := (E.find t c k).1 }, bind_eq_ok.mpr ⟨_, hcursor, ?_⟩⟩
    simp only [hE.find_result, hk, Option.isSome_none]
    rfl
  | some v =>
    have hv : (E.content (E.find t c k).1).lookup k = some v := by rw [hmoves.content, hk]
    have hplace := hE.find_place t c k v hk
    obtain ⟨u, hu⟩ := hU.erase _ c k v (by rw [hmoves.readonly, hopen.readonly, hw])
      (hE.current_on _ _ _ _ hplace hv)
    refine ⟨{ w with m_txn := u }, bind_eq_ok.mpr ⟨_, hcursor, ?_⟩⟩
    simp only [hE.find_result, hk, Option.isSome_some, if_true, make_some,
      hE.eof_on _ _ _ _ hplace hv]
    refine bind_eq_ok.mpr ⟨⟨false, some c⟩, rfl, bind_eq_ok.mpr ⟨(u, true), ?_, rfl⟩⟩
    rw [noexcept_eq_ok, hu]

/-- The loop of `clear` stops: each turn takes one entry away. -/
theorem eraseRange_marker_returns (hE : E.Documented) (hU : E.Unfailing) {fuel : Nat}
    {i : ConstCursor E} (hw : E.isReadonly w.m_txn = false) (hi : AtFirst w.m_txn i)
    (hfuel : (E.content w.m_txn).entries.length < fuel) :
    ∃ w' i', eraseRange S .marker fuel w i = .ok (w', i') := by
  induction fuel generalizing w i with
  | zero => omega
  | succ fuel ih =>
    cases hi with
    | done c hempty => exact ⟨w, ⟨true, some c⟩, rfl⟩
    | on c e hf hp =>
      have hcur := hE.current_on _ _ _ _ hp (SortedMap.lookup_of_first hf)
      obtain ⟨u, hu⟩ := hU.erase _ c _ _ hw hcur
      have herase : eraseCursor w ⟨false, some c⟩ = .ok { w with m_txn := u } :=
        bind_eq_ok.mpr ⟨(u, true), by rw [noexcept_eq_ok, hu], rfl⟩
      obtain ⟨t, j, hnext, hj, hmoves, hlen⟩ := atFirst_turn (S := S) hE hf hp herase
      have hro : E.isReadonly t = false := by
        rw [hmoves.readonly, (performs_eraseCursor hE herase).readonly, hw]
      have hfewer : (E.content t).entries.length < fuel := by
        rw [hmoves.content]
        omega
      obtain ⟨w', i', h⟩ := ih (w := { w with m_txn := t }) hro hj hfewer
      refine ⟨w', i', ?_⟩
      rw [eraseRange_marker_on, herase]
      simpa only [bind, Except.bind, hnext] using h

theorem clear_returns (hE : E.Documented) (hU : E.Unfailing) {fuel : Nat}
    (hw : E.isReadonly w.m_txn = false) (hfuel : (E.content w.m_txn).entries.length < fuel) :
    ∃ w', clear S fuel w = .ok w' := by
  obtain ⟨u, i, hu, -⟩ := begin_returns (w := w) hE hU
  have hlook := performs_search hE hE.toFirst_moves hu
  have hcontent : E.content u.m_txn = E.content w.m_txn := hlook.content
  obtain ⟨w', i', h⟩ := eraseRange_marker_returns S hE hU (hlook.readonly.trans hw)
    (atFirst_begin hE hu) (by rw [hcontent]; exact hfuel)
  exact ⟨w', bind_eq_ok.mpr ⟨_, hu, bind_eq_ok.mpr ⟨_, h, rfl⟩⟩⟩

/-- The cursors of `get` and of `lowerBound` on a present key, held at the same time, are
equal. Opening the second one leaves the first one where it is. -/
theorem get_equals_lowerBound (hE : E.Documented) (hU : E.Unfailing) {k : Bytes}
    (hk : ((E.content w.m_txn).lookup k).isSome) :
    ∃ u i w' j, get w k = .ok (u, i) ∧ lowerBound u k = .ok (w', j) ∧
      i.equalCursor S w'.m_txn j = .ok true := by
  obtain ⟨v, hv⟩ := Option.isSome_iff_exists.mp hk
  obtain ⟨t, c, ht⟩ := hU.openCursor w.m_txn
  obtain ⟨hopen, -, hc, -⟩ := hE.openCursor_ok _ _ _ ht
  have hfind := hE.find_moves t c k
  have hvt : (E.content t).lookup k = some v := by rw [hopen.content, hv]
  have hplace := hE.find_place t c k v hvt
  have hvf : (E.content (E.find t c k).1).lookup k = some v := by rw [hfind.content, hvt]
  obtain ⟨t', c', ht'⟩ := hU.openCursor (E.find t c k).1
  obtain ⟨hopen', hnew, -, -⟩ := hE.openCursor_ok _ _ _ ht'
  have hlb := hE.lowerBound_moves t' c' k
  have hv' : (E.content t').lookup k = some v := by rw [hopen'.content, hvf]
  have hvl : (E.content (E.lowerBound t' c' k).1).lookup k = some v := by rw [hlb.content, hv']
  have hceil := SortedMap.ceil_of_lookup hv'
  have hplace' := hE.lowerBound_place t' c' k (k, v) hceil
  have hne : c ≠ c' := by
    rintro rfl
    exact hnew (hfind.opened c hc)
  have hstay : E.place (E.lowerBound t' c' k).1 c = .on k := by
    rw [hlb.place c hne (hopen'.opened c (hfind.opened c hc)),
      hopen'.place c hne (hfind.opened c hc), hplace]
  have hget : get w k = .ok ({ w with m_txn := (E.find t c k).1 }, ⟨false, some c⟩) := by
    refine search_eq_ok.mpr ⟨t, c, ht, rfl, ?_⟩
    simp [hE.find_result, hvt, hE.eof_on _ _ _ _ hplace hvf]
  have hlower : lowerBound { w with m_txn := (E.find t c k).1 } k =
      .ok ({ w with m_txn := (E.lowerBound t' c' k).1 }, ⟨false, some c'⟩) := by
    refine search_eq_ok.mpr ⟨t', c', ht', rfl, ?_⟩
    simp [hE.lowerBound_result, hceil, hE.eof_on _ _ _ _ hplace' hvl]
  refine ⟨_, _, _, _, hget, hlower, ?_⟩
  have hi := ConstCursor.item_of_current S (hE.current_on _ _ _ _ hstay hvl)
  have hj := ConstCursor.item_of_current S (hE.current_on _ _ _ _ hplace' hvl)
  simp [ConstCursor.equalCursor, ConstCursor.key, ConstCursor.rawValue, hi, hj, Except.map, bind,
    Except.bind, pure, Except.pure]

end Table

/-! ## The abstract map -/

/-- The operations of an ordered map that a writer offers. -/
inductive MapOp (Value : Type) where
  | insert (key value : Bytes)
  | insertValue (key : Bytes) (value : Value)
  | upsert (key value : Bytes)
  | upsertValue (key : Bytes) (value : Value)
  | erase (key : Bytes)
  | clear
  | get (key : Bytes)
  | lowerBound (key : Bytes)
  | empty

/-- What a caller sees of the return value. -/
inductive Seen where
  | cursor (entry : Option (Bytes × Bytes))
  | answer (b : Bool)
  | nothing
  deriving DecidableEq, Repr

/-- An observation: the return value, and whether the result is still `Success`. -/
structure Obs where
  seen : Seen
  ok : Bool
  deriving DecidableEq, Repr

namespace MapOp

variable {Value : Type} (S : Schema Value)

/-- `insert` adds an entry under a new key and fails on a present one. -/
def InsertSpec (f : Bytes → Option Bytes) (ok : Bool) (k v : Bytes) (o : Obs)
    (g : Bytes → Option Bytes) : Prop :=
  if (f k).isSome then g = f ∧ o = ⟨.cursor none, false⟩
  else g = Function.update f k (some v) ∧ o = ⟨.cursor (some (k, v)), ok⟩

/-- `upsert` always stores. -/
def UpsertSpec (f : Bytes → Option Bytes) (ok : Bool) (k v : Bytes) (o : Obs)
    (g : Bytes → Option Bytes) : Prop :=
  g = Function.update f k (some v) ∧ o = ⟨.cursor (some (k, v)), ok⟩

/-- One operation on the map `f`, with what is seen and the map that it leaves. -/
def Spec (f : Bytes → Option Bytes) (ok : Bool) :
    MapOp Value → Obs → (Bytes → Option Bytes) → Prop
  | .insert k v, o, g => InsertSpec f ok k v o g
  | .insertValue k x, o, g => InsertSpec f ok k (S.toBinary x) o g
  | .upsert k v, o, g => UpsertSpec f ok k v o g
  | .upsertValue k x, o, g => UpsertSpec f ok k (S.toBinary x) o g
  | .erase k, o, g => g = Function.update f k none ∧ o = ⟨.nothing, ok⟩
  | .clear, o, g => g = (fun _ => none) ∧ o = ⟨.nothing, ok⟩
  | .get k, o, g => g = f ∧ o = ⟨.cursor ((f k).map (k, ·)), ok⟩
  | .lowerBound k, o, g => g = f ∧
      ((∃ j v, IsLeast {j | k ≤ j ∧ (f j).isSome} j ∧ f j = some v ∧
          o = ⟨.cursor (some (j, v)), ok⟩) ∨
        (∀ j, k ≤ j → f j = none) ∧ o = ⟨.cursor none, ok⟩)
  | .empty, o, g => g = f ∧ ∃ b, (b = true ↔ ∀ k, f k = none) ∧ o = ⟨.answer b, ok⟩

/-- A sequence of operations of the abstract map. -/
def SpecRun (f : Bytes → Option Bytes) (ok : Bool) :
    List (MapOp Value) → List Obs → (Bytes → Option Bytes) → Prop
  | [], os, g => os = [] ∧ g = f
  | op :: ops, os, g => ∃ o h rest, os = o :: rest ∧ op.Spec S f ok o h ∧
      SpecRun h o.ok ops rest g

variable {E : Mdbx}

def observe (r : Except Halt (Reader E × ConstCursor E)) : Except Halt (Reader E × Obs) := do
  let (w, i) ← r
  let entry ← noexcept (i.look S w.m_txn)
  return (w, ⟨.cursor entry, w.m_result.isOk⟩)

/-- The table operation, and what is seen of it. -/
def call (fuel : Nat) (w : Reader E) : MapOp Value → Except Halt (Reader E × Obs)
  | .insert k v => observe S (Table.insert w k v)
  | .insertValue k x => observe S (Table.insertValue S w k x)
  | .upsert k v => observe S (Table.upsert w k v)
  | .upsertValue k x => observe S (Table.upsertValue S w k x)
  | .erase k => do
    let w ← Table.eraseKey w k
    return (w, ⟨.nothing, w.m_result.isOk⟩)
  | .clear => do
    let w ← Table.clear S fuel w
    return (w, ⟨.nothing, w.m_result.isOk⟩)
  | .get k => observe S (Table.get w k)
  | .lowerBound k => observe S (Table.lowerBound w k)
  | .empty => do
    let (w, b) ← Table.empty S w
    return (w, ⟨.answer b, w.m_result.isOk⟩)

def run (fuel : Nat) (w : Reader E) : List (MapOp Value) → Except Halt (Reader E × List Obs)
  | [] => .ok (w, [])
  | op :: ops => do
    let (w, o) ← op.call S fuel w
    let (w, rest) ← run fuel w ops
    return (w, o :: rest)

theorem observe_ok {r : Except Halt (Reader E × ConstCursor E)} {w : Reader E}
    {i : ConstCursor E} {entry : Option (Bytes × Bytes)} (hr : r = .ok (w, i))
    (hi : i.look S w.m_txn = .ok entry) :
    observe S r = .ok (w, ⟨.cursor entry, w.m_result.isOk⟩) := by
  simp only [observe, hr, bind, Except.bind, hi, noexcept_ok]
  rfl

/-! ## The simulation -/

/-- What one operation leaves behind it for the next one. -/
structure Ready (w w' : Reader E) : Prop where
  readonly : E.isReadonly w'.m_txn = E.isReadonly w.m_txn
  length : (E.content w'.m_txn).entries.length ≤ (E.content w.m_txn).entries.length + 1

theorem ready_looked {w w' : Reader E} (h : w.Performs .looked w') :
    Ready w w' ∧ (E.content w'.m_txn).lookup = (E.content w.m_txn).lookup ∧
      w'.m_result.isOk = w.m_result.isOk := by
  refine ⟨⟨h.readonly, ?_⟩, ?_, by simp [Result.isOk, h.code, Event.code]⟩
  · rw [h.content]
    exact Nat.le_succ _
  · rw [h.content]
    rfl

theorem ready_stored {w w' : Reader E} {k v : Bytes} (h : w.Performs (.stored k v) w') :
    Ready w w' ∧
      (E.content w'.m_txn).lookup = Function.update (E.content w.m_txn).lookup k (some v) ∧
      w'.m_result.isOk = w.m_result.isOk := by
  refine ⟨⟨h.readonly, ?_⟩, ?_, by simp [Result.isOk, h.code, Event.code]⟩
  · rw [h.content]
    exact SortedMap.length_insert_le _ k v
  · rw [h.content]
    exact SortedMap.lookup_insert_eq _ k v

theorem insert_refines (hE : E.Documented) (hU : E.Unfailing) {w : Reader E}
    (hw : E.isReadonly w.m_txn = false) (k v : Bytes) :
    ∃ w' o, observe S (Table.insert w k v) = .ok (w', o) ∧
      InsertSpec (E.content w.m_txn).lookup w.m_result.isOk k v o (E.content w'.m_txn).lookup ∧
      o.ok = w'.m_result.isOk ∧ Ready w w' := by
  unfold InsertSpec
  cases hk : (E.content w.m_txn).lookup k with
  | none =>
    obtain ⟨w', i, h, hev, hi⟩ := Table.putWith_stores S (w := w) hE hU E.insert k v (by
        intro t c hc hr
        have hok := hU.insert t c k v (hr.trans hw) (by rw [hc, hk])
        obtain ⟨-, -, hcontent, hplace⟩ := hE.insert_ok t c k v hok
        exact ⟨hok, hcontent, hplace⟩)
    have hp := Table.performs_putWith hE (Table.putLaw_insert hE) h
    rw [hev] at hp
    obtain ⟨hready, hlookup, hok⟩ := ready_stored hp
    exact ⟨w', _, observe_ok S h hi, by simp [hlookup, hok], rfl, hready⟩
  | some u =>
    obtain ⟨w', i, h, hev, hi⟩ := Table.putWith_fails (w := w) hU E.insert k v (by
        intro t c ht hnone
        have hc := (hE.openCursor_ok _ _ _ ht).1.content
        have := (hE.insert_ok t c k v hnone).2.1
        rw [hc, hk] at this
        cases this)
    have hp := Table.performs_putWith hE (Table.putLaw_insert hE) h
    rw [hev] at hp
    have hlook : i.look S w'.m_txn = .ok none := by
      simp only [ConstCursor.look, ConstCursor.equal, hi]
      rfl
    have hbad : w'.m_result.isOk = false := by simp [Result.isOk, hp.code, Event.code]
    refine ⟨w', _, observe_ok S h hlook, ?_, rfl, hp.readonly, ?_⟩
    · simp [hp.content, Event.apply, hbad]
    · rw [hp.content]
      exact Nat.le_succ _

theorem upsert_refines (hE : E.Documented) (hU : E.Unfailing) {w : Reader E}
    (hw : E.isReadonly w.m_txn = false) (k v : Bytes) :
    ∃ w' o, observe S (Table.upsert w k v) = .ok (w', o) ∧
      UpsertSpec (E.content w.m_txn).lookup w.m_result.isOk k v o (E.content w'.m_txn).lookup ∧
      o.ok = w'.m_result.isOk ∧ Ready w w' := by
  obtain ⟨w', i, h, hev, hi⟩ := Table.putWith_stores S (w := w) hE hU E.upsert k v (by
      intro t c hc hr
      have hok := hU.upsert t c k v (hr.trans hw)
      obtain ⟨-, hcontent, hplace⟩ := hE.upsert_ok t c k v hok
      exact ⟨hok, hcontent, hplace⟩)
  have hp := Table.performs_putWith hE (Table.putLaw_upsert hE) h
  rw [hev] at hp
  obtain ⟨hready, hlookup, hok⟩ := ready_stored hp
  exact ⟨w', _, observe_ok S h hi, ⟨hlookup, by rw [hok]⟩, rfl, hready⟩

theorem call_refines (hE : E.Documented) (hU : E.Unfailing) (fuel : Nat) {w : Reader E}
    (hw : E.isReadonly w.m_txn = false)
    (hfuel : (E.content w.m_txn).entries.length < fuel) (op : MapOp Value) :
    ∃ w' o, op.call S fuel w = .ok (w', o) ∧
      op.Spec S (E.content w.m_txn).lookup w.m_result.isOk o (E.content w'.m_txn).lookup ∧
      o.ok = w'.m_result.isOk ∧ Ready w w' := by
  cases op with
  | insert k v => exact insert_refines S hE hU hw k v
  | insertValue k x => exact insert_refines S hE hU hw k (S.toBinary x)
  | upsert k v => exact upsert_refines S hE hU hw k v
  | upsertValue k x => exact upsert_refines S hE hU hw k (S.toBinary x)
  | erase k =>
    obtain ⟨w', h⟩ := Table.eraseKey_returns hE hU hw k
    have hp := Table.performs_eraseKey hE h
    have hcontent : E.content w'.m_txn = (E.content w.m_txn).erase k := by
      rw [hp.content]
      cases hk : (E.content w.m_txn).lookup k with
      | none => simp [Event.apply, SortedMap.erase_of_lookup_eq_none hk]
      | some v => simp [Event.apply]
    refine ⟨w', _, bind_eq_ok.mpr ⟨w', h, rfl⟩, ⟨?_, ?_⟩, rfl, hp.readonly, ?_⟩
    · rw [hcontent, SortedMap.lookup_erase_eq]
    · simp [Result.isOk, hp.code, Event.code]
    · rw [hcontent]
      exact (SortedMap.length_erase_le _ k).trans (Nat.le_succ _)
  | clear =>
    obtain ⟨w', h⟩ := Table.clear_returns S hE hU hw hfuel
    have hp := Table.performs_clear hE h
    refine ⟨w', _, bind_eq_ok.mpr ⟨w', h, rfl⟩, ⟨?_, ?_⟩, rfl, hp.readonly, ?_⟩
    · rw [hp.content]
      rfl
    · simp [Result.isOk, hp.code, Event.code]
    · rw [hp.content]
      exact Nat.zero_le _
  | get k =>
    obtain ⟨w', i, h, hi⟩ := Table.get_returns S (w := w) hE hU k
    obtain ⟨hready, hlookup, hok⟩ :=
      ready_looked (Table.performs_search hE (fun t c => hE.find_moves t c k) h)
    exact ⟨w', _, observe_ok S h hi, ⟨hlookup, by rw [hok]⟩, rfl, hready⟩
  | lowerBound k =>
    obtain ⟨w', i, h, hi⟩ := Table.lowerBound_returns S (w := w) hE hU k
    obtain ⟨hready, hlookup, hok⟩ :=
      ready_looked (Table.performs_search hE (fun t c => hE.lowerBound_moves t c k) h)
    refine ⟨w', _, observe_ok S h hi, ⟨hlookup, ?_⟩, rfl, hready⟩
    cases hc : (E.content w.m_txn).ceil k with
    | none => exact .inr ⟨SortedMap.ceil_eq_none.mp hc, by rw [hok]⟩
    | some e =>
      exact .inl ⟨e.1, e.2, SortedMap.isLeast_ceil hc, SortedMap.lookup_of_ceil hc, by rw [hok]⟩
  | empty =>
    obtain ⟨w', h⟩ := Table.empty_returns S (w := w) hE hU
    obtain ⟨hready, hlookup, hok⟩ := ready_looked (Table.performs_empty hE h)
    refine ⟨w', ⟨.answer (E.content w.m_txn).first.isNone, w'.m_result.isOk⟩,
      bind_eq_ok.mpr ⟨_, h, rfl⟩, ⟨hlookup, _, ?_, by rw [hok]⟩, rfl, hready⟩
    rw [Option.isNone_iff_eq_none, SortedMap.first_eq_none]
    constructor
    · intro hm k
      rw [hm, SortedMap.lookup_empty]
    · intro hm
      exact SortedMap.ext_lookup fun k => by rw [hm k, SortedMap.lookup_empty]

/-- Any sequence of operations returns and behaves as one of the abstract map. -/
theorem run_refines (hE : E.Documented) (hU : E.Unfailing) (fuel : Nat)
    (ops : List (MapOp Value)) {w : Reader E} (hw : E.isReadonly w.m_txn = false)
    (hfuel : (E.content w.m_txn).entries.length + ops.length < fuel) :
    ∃ w' os, run S fuel w ops = .ok (w', os) ∧
      SpecRun S (E.content w.m_txn).lookup w.m_result.isOk ops os (E.content w'.m_txn).lookup := by
  induction ops generalizing w with
  | nil => exact ⟨w, [], rfl, rfl, rfl⟩
  | cons op ops ih =>
    simp only [List.length_cons] at hfuel
    obtain ⟨u, o, hcall, hspec, hok, hready⟩ :=
      call_refines S hE hU fuel hw (by omega) op
    have hlen := hready.length
    obtain ⟨w', os, hrun, hrest⟩ := ih (w := u) (hready.readonly.trans hw) (by omega)
    refine ⟨w', o :: os, ?_, o, _, os, rfl, hspec, by rwa [hok]⟩
    exact bind_eq_ok.mpr ⟨(u, o), hcall, bind_eq_ok.mpr ⟨(w', os), hrun, rfl⟩⟩

end MapOp

/-- A table is an ordered map. Through one writer every sequence of operations returns, with
the observations and the final content of the abstract map; and whenever a key is present the
cursors of `get` and `lowerBound` on it are equal. -/
theorem table_refines_map {E : Mdbx} {Value : Type} (S : Schema Value) (hE : E.Documented)
    (hU : E.Unfailing) (fuel : Nat) (ops : List (MapOp Value)) {w : Reader E}
    (hw : E.isReadonly w.m_txn = false)
    (hfuel : (E.content w.m_txn).entries.length + ops.length < fuel) :
    ∃ w' os, MapOp.run S fuel w ops = .ok (w', os) ∧
      MapOp.SpecRun S (E.content w.m_txn).lookup w.m_result.isOk ops os
        (E.content w'.m_txn).lookup ∧
      ∀ k, ((E.content w'.m_txn).lookup k).isSome →
        ∃ u i w'' j, Table.get w' k = .ok (u, i) ∧ Table.lowerBound u k = .ok (w'', j) ∧
          i.equalCursor S w''.m_txn j = .ok true := by
  obtain ⟨w', os, hrun, hspec⟩ := MapOp.run_refines S hE hU fuel ops hw hfuel
  exact ⟨w', os, hrun, hspec, fun k hk => Table.get_equals_lowerBound S hE hU hk⟩

/-- A writer on a table with one entry. -/
def oneEntryWriter : Reader Reference.engine :=
  .start .unique 0 (Reference.engine.startWrite (SortedMap.empty.insert [1] [1]))

theorem table_refines_map_one_entry :
    Reference.engine.isReadonly oneEntryWriter.m_txn = false ∧
      ∃ w' os, MapOp.run rawSchema 9 oneEntryWriter
          [.insert [1] [2], .lowerBound [0], .upsertValue [0, 7] [3], .lowerBound [0], .clear,
            .empty] = .ok (w', os) ∧
        os = [⟨.cursor none, false⟩, ⟨.cursor (some ([1], [1])), false⟩,
          ⟨.cursor (some ([0, 7], [3])), false⟩, ⟨.cursor (some ([0, 7], [3])), false⟩,
          ⟨.nothing, false⟩, ⟨.answer true, false⟩] ∧
        MapOp.SpecRun rawSchema (Reference.engine.content oneEntryWriter.m_txn).lookup true
          [.insert [1] [2], .lowerBound [0], .upsertValue [0, 7] [3], .lowerBound [0], .clear,
            .empty] os (Reference.engine.content w'.m_txn).lookup := by
  refine ⟨rfl, ?_⟩
  obtain ⟨w', os, hrun, hspec, -⟩ := table_refines_map rawSchema
    Reference.documented Reference.unfailing 9
    [.insert [1] [2], .lowerBound [0], .upsertValue [0, 7] [3], .lowerBound [0], .clear, .empty]
    (w := oneEntryWriter) rfl (by decide)
  refine ⟨w', os, hrun, ?_, hspec⟩
  cases hrun
  rfl

/-! ## Update -/

section Update

variable {E : Mdbx} {Value : Type} (S : Schema Value)

/-- What `update` is for: it replaces the value under a present key, and fails cleanly on an
absent one. `r` is the call, and `v` the raw value given to it. -/
def UpdateContract (w : Reader E) (k v : Bytes)
    (r : Except Halt (Reader E × ConstCursor E)) : Prop :=
  ∃ w' i, r = .ok (w', i) ∧
    (((E.content w.m_txn).lookup k).isSome →
      w'.m_result.code = .success ∧ i.look S w'.m_txn = .ok (some (k, v)) ∧
        E.content w'.m_txn = (E.content w.m_txn).insert k v) ∧
    ((E.content w.m_txn).lookup k = none →
      E.content w'.m_txn = E.content w.m_txn ∧ i.m_end = true ∧ w'.m_result.code = .error)

/-- The cursor that `update` opens is not positioned, so the put always fails. -/
theorem update_fails (hE : E.Documented) (hU : E.Unfailing) (w : Reader E) (k v : Bytes) :
    ∃ w' i, Table.update w k v = .ok (w', i) ∧ i.m_end = true ∧
      E.content w'.m_txn = E.content w.m_txn ∧ w'.m_result.code = .error := by
  obtain ⟨w', i, h, hev, hi⟩ := Table.putWith_fails (w := w) hU E.update k v (by
      intro t c ht hnone
      obtain ⟨-, -, -, hunset⟩ := hE.openCursor_ok _ _ _ ht
      obtain ⟨-, ⟨u, hu⟩, -⟩ := hE.update_ok t c k v hnone
      rw [hE.current_unset t c hunset] at hu
      cases hu)
  have hp := Table.performs_putWith hE (Table.putLaw_update hE) h
  rw [hev] at hp
  exact ⟨w', i, h, hi, hp.content, hp.code⟩

/-- `update` does what it is for exactly when the key is absent, in both overloads. -/
theorem update_meets_contract_iff (hE : E.Documented) (hU : E.Unfailing) (w : Reader E)
    (k v : Bytes) (x : Value) :
    (UpdateContract S w k v (Table.update w k v) ↔ (E.content w.m_txn).lookup k = none) ∧
      (UpdateContract S w k (S.toBinary x) (Table.updateValue S w k x) ↔
        (E.content w.m_txn).lookup k = none) := by
  have key : ∀ v, UpdateContract S w k v (Table.update w k v) ↔
      (E.content w.m_txn).lookup k = none := by
    intro v
    obtain ⟨w', i, h, hi, hcontent, hcode⟩ := update_fails hE hU w k v
    constructor
    · rintro ⟨u, j, hu, hpresent, -⟩
      rw [h] at hu
      cases hu
      by_contra hk
      have := (hpresent (Option.isSome_iff_ne_none.mpr hk)).1
      rw [hcode] at this
      cases this
    · intro hk
      refine ⟨w', i, h, ?_, fun _ => ⟨hcontent, hi, hcode⟩⟩
      intro hsome
      simp [hk] at hsome
  exact ⟨key v, key (S.toBinary x)⟩

end Update

theorem update_meets_contract_iff_absent :
    UpdateContract rawSchema oneEntryWriter [2] [5] (Table.update oneEntryWriter [2] [5]) :=
  ((update_meets_contract_iff rawSchema Reference.documented Reference.unfailing oneEntryWriter
    [2] [5] []).1).mpr (by decide)

/-- `update` of the only entry of a table fails, records an error and changes nothing. -/
theorem update_of_present_key_fails :
    ¬ UpdateContract rawSchema oneEntryWriter [1] [5] (Table.update oneEntryWriter [1] [5]) := by
  rintro ⟨w', i, h, hpresent, -⟩
  cases h
  exact absurd (hpresent (by decide)).1 (by decide)

end Zatestil.Database
