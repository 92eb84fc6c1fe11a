import Zatestil.Database.Reader

/-!
# Cursors

`ConstCursor` caches in `m_end` whether it stands past the data; `Cursor` adds only the
reference to its writer. The functions take the transaction the cursor belongs to, because
the native position lives there. Reading and moving throw, everything else is `noexcept`.
-/
namespace Zatestil.Database
open Util

inductive Id where
  | _0 | _1 | _2 | _3 | _4 | _5 | _6 | _7 | _8 | _9 | _10
  deriving DecidableEq, Repr

def toString : Id → String
  | ._0 => "0"
  | ._1 => "1"
  | ._2 => "2"
  | ._3 => "3"
  | ._4 => "4"
  | ._5 => "5"
  | ._6 => "6"
  | ._7 => "7"
  | ._8 => "8"
  | ._9 => "9"
  | ._10 => "10"

/-- The template parameters of a table and the binary codec of its values. -/
structure Schema (Value : Type) where
  id : Id
  tableId : Id
  toBinary : Value → Bytes
  fromBinary : Bytes → Except String Value

/-- A table of raw values. -/
def rawSchema : Schema Bytes := ⟨._0, ._0, id, .ok⟩

/-- What an exception inside a cursor loop comes from. All but `foreign` are derived from
`std::exception`; `what` gives their text. -/
inductive Exn where
  | cursor (what : String)
  | decoding (what : String)
  | predicate (what : String)
  | foreign
  deriving DecidableEq, Repr

/-- The text that `catch (std::exception const&)` sees, if it catches the exception at all. -/
def Exn.what : Exn → Option String
  | .cursor w | .decoding w | .predicate w => some w
  | .foreign => none

/-- The two codes of `MDBX_error_t` that the tables pass to cursor constructors. -/
inductive MdbxError where
  | success
  | resultTrue
  deriving DecidableEq, Repr

/-- `result ? MDBX_SUCCESS : MDBX_RESULT_TRUE`. -/
def MdbxError.ofResult (result : Bool) : MdbxError := if result then .success else .resultTrue

/-- `m_cursor` is `none` for a default-constructed or moved-from native cursor. -/
structure ConstCursor (E : Mdbx) where
  m_end : Bool
  m_cursor : Option E.Cursor

/-- The end of a range: the `EndCursor` marker or another cursor. -/
inductive EndCursor (E : Mdbx) where
  | marker
  | cursor (c : ConstCursor E)

namespace Schema

variable {Value : Type} (S : Schema Value)

def text (what : String) : String :=
  what ++ " db " ++ toString S.id ++ " table " ++ toString S.tableId

def badCursor : Exn := .cursor (S.text "bad cursor")
def badCurrent : Exn := .cursor (S.text "bad current")
def badNext : Exn := .cursor (S.text "bad next")
def badPrev : Exn := .cursor (S.text "bad prev")

end Schema

namespace ConstCursor

variable {E : Mdbx} {Value : Type} (S : Schema Value)

/-- The constructor; asking a null handle for `eof` throws out of a `noexcept` function. -/
def make (t : E.Txn) (cursor : Option E.Cursor) (error : MdbxError) :
    Except Halt (ConstCursor E) :=
  match error, cursor with
  | .resultTrue, c => .ok ⟨true, c⟩
  | .success, some c => .ok ⟨E.eof t c, some c⟩
  | .success, none => .error .terminate

/-- The current item, behind the two checks that `key` and `rawValue` share. A null handle
is rejected by the library itself. -/
def item (t : E.Txn) (i : ConstCursor E) : Except Exn (Bytes × Bytes) :=
  if i.m_end then .error S.badCursor
  else match i.m_cursor with
    | none => .error (.cursor "MDBX_EINVAL")
    | some c =>
      match E.current t c with
      | none => .error S.badCurrent
      | some e => .ok e

def key (t : E.Txn) (i : ConstCursor E) : Except Exn Bytes := (i.item S t).map (·.1)

def rawValue (t : E.Txn) (i : ConstCursor E) : Except Exn Bytes := (i.item S t).map (·.2)

def value (t : E.Txn) (i : ConstCursor E) : Except Exn Value := do
  let raw ← i.rawValue S t
  (S.fromBinary raw).mapError .decoding

/-- Comparison of two cursors; both are read only when neither is at the end. -/
def equalCursor (t : E.Txn) (i j : ConstCursor E) : Except Exn Bool :=
  if i.m_end || j.m_end then .ok (i.m_end == j.m_end)
  else do
    let k ← i.key S t
    let l ← j.key S t
    if k = l then
      let v ← i.rawValue S t
      let w ← j.rawValue S t
      return v = w
    else return false

def equal (t : E.Txn) (i : ConstCursor E) : EndCursor E → Except Exn Bool
  | .marker => .ok i.m_end
  | .cursor j => i.equalCursor S t j

/-- The common shape of `operator++` and `operator--`. The position and `m_end` are already
changed when the second check throws. -/
def move (step : E.Txn → E.Cursor → E.Txn × Bool) (bad : Exn) (t : E.Txn) (i : ConstCursor E) :
    E.Txn × ConstCursor E × Option Exn :=
  if i.m_end then (t, i, some S.badCursor)
  else match i.m_cursor with
    | none => (t, i, some (.cursor "MDBX_EINVAL"))
    | some c =>
      let (u, result) := step t c
      let i := { i with m_end := E.eof u c }
      if !result && !i.m_end then (u, i, some bad) else (u, i, none)

/-- `operator++`. -/
def next (t : E.Txn) (i : ConstCursor E) : E.Txn × ConstCursor E × Option Exn :=
  i.move S E.toNext S.badNext t

/-- `operator--`. -/
def prev (t : E.Txn) (i : ConstCursor E) : E.Txn × ConstCursor E × Option Exn :=
  i.move S E.toPrevious S.badPrev t

end ConstCursor

end Zatestil.Database
