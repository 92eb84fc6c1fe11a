import Zatestil.Library.SortedMap
import Mathlib.Data.List.Lex

/-!
# The storage engine underneath the tables

The tables are written against libmdbx, which is not part of the repository. `Mdbx` is the
part of its interface that the database code calls, for one table of one environment; the
functions are parameters of the model. `content` and `place` say what is stored and where a
native cursor stands, and the laws below are what the library documents about them.

The calls that take `false` for `throw_notfound` report by their result; the put calls and
`open_cursor` throw. An exception is modelled by the text of its `what()`.
-/
namespace Zatestil.Database
open Library

instance linearOrderUInt8 : LinearOrder UInt8 where
  le_refl := UInt8.le_refl
  le_trans _ _ _ := UInt8.le_trans
  le_antisymm _ _ := UInt8.le_antisymm
  le_total := UInt8.le_total
  toDecidableLE := inferInstance
  toDecidableEq := inferInstance
  toDecidableLT := inferInstance
  lt_iff_le_not_ge _ _ := by
    simp only [UInt8.lt_iff_toNat_lt, UInt8.le_iff_toNat_le]
    omega

/-- Keys and raw values; keys are compared byte by byte, a prefix being smaller. -/
abbrev Bytes := List UInt8

/-- What a single-valued table holds. -/
abbrev Content := SortedMap Bytes Bytes

/-- Where a native cursor stands. A cursor stays on the key it was put on when the entry
under that key is erased. -/
inductive Place where
  | unset
  | on (key : Bytes)
  | past
  deriving DecidableEq, Repr

/-- The calls of libmdbx that the database code makes, with the state they act on. -/
structure Mdbx where
  Env : Type
  Txn : Type
  Cursor : Type
  published : Env → Content
  startRead : Env → Txn
  startWrite : Env → Txn
  commit : Env → Txn → Env
  abort : Env → Txn → Env
  content : Txn → Content
  isReadonly : Txn → Bool
  opened : Txn → Cursor → Prop
  place : Txn → Cursor → Place
  createMap : Txn → String → Except String Txn
  openCursor : Txn → Except String (Txn × Cursor)
  eof : Txn → Cursor → Bool
  current : Txn → Cursor → Option (Bytes × Bytes)
  toFirst : Txn → Cursor → Txn × Bool
  toNext : Txn → Cursor → Txn × Bool
  toPrevious : Txn → Cursor → Txn × Bool
  find : Txn → Cursor → Bytes → Txn × Bool
  lowerBound : Txn → Cursor → Bytes → Txn × Bool
  /-- The three puts give the state they leave and the text of the exception, if any. -/
  insert : Txn → Cursor → Bytes → Bytes → Txn × Option String
  upsert : Txn → Cursor → Bytes → Bytes → Txn × Option String
  update : Txn → Cursor → Bytes → Bytes → Txn × Option String
  erase : Txn → Cursor → Except String (Txn × Bool)

namespace Mdbx

/-- A call on the cursor `c` leaves the mode of the transaction and all other cursors alone. -/
structure Frame (E : Mdbx) (c : E.Cursor) (t u : E.Txn) : Prop where
  readonly : E.isReadonly u = E.isReadonly t
  opened : ∀ d, E.opened t d → E.opened u d
  place : ∀ d, d ≠ c → E.opened t d → E.place u d = E.place t d

/-- A call on the cursor `c` that does not change the data either. -/
structure Moves (E : Mdbx) (c : E.Cursor) (t u : E.Txn) : Prop extends Frame E c t u where
  content : E.content u = E.content t

theorem Frame.trans {E : Mdbx} {c : E.Cursor} {t u v : E.Txn} (h : E.Frame c t u)
    (g : E.Frame c u v) : E.Frame c t v where
  readonly := g.readonly.trans h.readonly
  opened d hd := g.opened d (h.opened d hd)
  place d hne hd := (g.place d hne (h.opened d hd)).trans (h.place d hne hd)

theorem Moves.trans {E : Mdbx} {c : E.Cursor} {t u v : E.Txn} (h : E.Moves c t u)
    (g : E.Moves c u v) : E.Moves c t v where
  toFrame := h.toFrame.trans g.toFrame
  content := g.content.trans h.content

theorem Moves.refl (E : Mdbx) (c : E.Cursor) (t : E.Txn) : E.Moves c t t :=
  ⟨⟨rfl, fun _ h => h, fun _ _ _ => rfl⟩, rfl⟩

/-- Transactions start from what is published; commit publishes a write transaction and
abort discards it. Ending a read transaction publishes nothing. -/
structure Transactional (E : Mdbx) : Prop where
  startRead_content : ∀ e, E.content (E.startRead e) = E.published e
  startRead_readonly : ∀ e, E.isReadonly (E.startRead e) = true
  startWrite_content : ∀ e, E.content (E.startWrite e) = E.published e
  startWrite_readonly : ∀ e, E.isReadonly (E.startWrite e) = false
  commit_write : ∀ e t, E.isReadonly t = false → E.published (E.commit e t) = E.content t
  commit_read : ∀ e t, E.isReadonly t = true → E.published (E.commit e t) = E.published e
  abort_published : ∀ e t, E.published (E.abort e t) = E.published e

/-- What the cursor calls do when they succeed, and that a put that throws changes nothing.
Nothing is said about where a failed search or a failed put leaves its cursor. -/
structure Documented (E : Mdbx) : Prop where
  createMap_ok : ∀ t u name, E.createMap t name = .ok u →
    E.content u = E.content t ∧ E.isReadonly u = E.isReadonly t
  openCursor_ok : ∀ t u c, E.openCursor t = .ok (u, c) →
    Moves E c t u ∧ ¬ E.opened t c ∧ E.opened u c ∧ E.place u c = .unset
  current_on : ∀ t c k v, E.place t c = .on k → (E.content t).lookup k = some v →
    E.current t c = some (k, v)
  current_mem : ∀ t c k v, E.current t c = some (k, v) → (E.content t).lookup k = some v
  current_unset : ∀ t c, E.place t c = .unset → E.current t c = none
  /-- After the greatest entry is erased, a cursor that stood on it has no current item. -/
  current_gone : ∀ t c k, E.place t c = .on k → (E.content t).ceil k = none →
    E.current t c = none
  eof_on : ∀ t c k v, E.place t c = .on k → (E.content t).lookup k = some v →
    E.eof t c = false
  eof_past : ∀ t c, E.place t c = .past → E.eof t c = true
  toFirst_moves : ∀ t c, Moves E c t (E.toFirst t c).1
  toFirst_result : ∀ t c, (E.toFirst t c).2 = (E.content t).first.isSome
  toFirst_place : ∀ t c e, (E.content t).first = some e →
    E.place (E.toFirst t c).1 c = .on e.1
  toNext_moves : ∀ t c, Moves E c t (E.toNext t c).1
  toNext_above : ∀ t c k e, E.place t c = .on k → (E.content t).above k = some e →
    (E.toNext t c).2 = true ∧ E.place (E.toNext t c).1 c = .on e.1
  toNext_last : ∀ t c k, E.place t c = .on k → (E.content t).above k = none →
    (E.toNext t c).2 = false ∧ E.place (E.toNext t c).1 c = .past
  toPrevious_moves : ∀ t c, Moves E c t (E.toPrevious t c).1
  toPrevious_below : ∀ t c k e, E.place t c = .on k → (E.content t).below k = some e →
    (E.toPrevious t c).2 = true ∧ E.place (E.toPrevious t c).1 c = .on e.1
  toPrevious_first : ∀ t c k, E.place t c = .on k → (E.content t).below k = none →
    (E.toPrevious t c).2 = false ∧ E.place (E.toPrevious t c).1 c = .on k
  find_moves : ∀ t c k, Moves E c t (E.find t c k).1
  find_result : ∀ t c k, (E.find t c k).2 = ((E.content t).lookup k).isSome
  find_place : ∀ t c k v, (E.content t).lookup k = some v →
    E.place (E.find t c k).1 c = .on k
  lowerBound_moves : ∀ t c k, Moves E c t (E.lowerBound t c k).1
  lowerBound_result : ∀ t c k, (E.lowerBound t c k).2 = ((E.content t).ceil k).isSome
  lowerBound_place : ∀ t c k e, (E.content t).ceil k = some e →
    E.place (E.lowerBound t c k).1 c = .on e.1
  insert_ok : ∀ t c k v, (E.insert t c k v).2 = none →
    Frame E c t (E.insert t c k v).1 ∧ (E.content t).lookup k = none ∧
      E.content (E.insert t c k v).1 = (E.content t).insert k v ∧
      E.place (E.insert t c k v).1 c = .on k
  insert_throws : ∀ t c k v w, (E.insert t c k v).2 = some w → Moves E c t (E.insert t c k v).1
  upsert_ok : ∀ t c k v, (E.upsert t c k v).2 = none →
    Frame E c t (E.upsert t c k v).1 ∧
      E.content (E.upsert t c k v).1 = (E.content t).insert k v ∧
      E.place (E.upsert t c k v).1 c = .on k
  upsert_throws : ∀ t c k v w, (E.upsert t c k v).2 = some w → Moves E c t (E.upsert t c k v).1
  /-- `update` is a put with `MDBX_CURRENT`: it replaces the item the cursor is on. -/
  update_ok : ∀ t c k v, (E.update t c k v).2 = none →
    Frame E c t (E.update t c k v).1 ∧ (∃ w, E.current t c = some (k, w)) ∧
      E.content (E.update t c k v).1 = (E.content t).insert k v ∧
      E.place (E.update t c k v).1 c = .on k
  update_throws : ∀ t c k v w, (E.update t c k v).2 = some w → Moves E c t (E.update t c k v).1
  erase_current : ∀ t u c b k v, E.erase t c = .ok (u, b) → E.current t c = some (k, v) →
    Frame E c t u ∧ E.content u = (E.content t).erase k ∧ E.place u c = .on k
  erase_nothing : ∀ t u c b, E.erase t c = .ok (u, b) → E.current t c = none → Moves E c t u

/-- The calls fail only for the reasons that concern the data: `insert` on a present key and
`update` away from the key. -/
structure Unfailing (E : Mdbx) : Prop where
  openCursor : ∀ t, ∃ u c, E.openCursor t = .ok (u, c)
  insert : ∀ t c k v, E.isReadonly t = false → (E.content t).lookup k = none →
    (E.insert t c k v).2 = none
  upsert : ∀ t c k v, E.isReadonly t = false → (E.upsert t c k v).2 = none
  update : ∀ t c k v w, E.isReadonly t = false → E.current t c = some (k, w) →
    (E.update t c k v).2 = none
  erase : ∀ t c k v, E.isReadonly t = false → E.current t c = some (k, v) →
    ∃ u, E.erase t c = .ok (u, true)

/-- Cursors are tracked. One that was left on a key reads the entry there, or the next greater
one when that entry is erased through any cursor; and only such a cursor reads anything. -/
structure Tracking (E : Mdbx) : Prop where
  current_on : ∀ t c k, E.place t c = .on k → E.current t c = (E.content t).ceil k
  current_place : ∀ t c e, E.current t c = some e → ∃ k, E.place t c = .on k
  eof_current : ∀ t c e, E.current t c = some e → E.eof t c = false

end Mdbx

end Zatestil.Database
