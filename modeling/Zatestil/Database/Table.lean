import Zatestil.Database.Cursor

/-!
# Tables

The operations of `Table<Value, id, tableId>` on a transaction. All of them are `noexcept`:
an exception is either caught and recorded in `m_result`, or ends the program. The overloads
for readers and writers have the same bodies and are one definition here. The overloads of
`find` on a `ConstCursor` name a member that class does not have and cannot be instantiated.

The loops take fuel; `Halt.exhausted` is a loop that has not stopped yet.
-/
namespace Zatestil.Database
open Util

/-- What a predicate of `find` may throw. -/
inductive Thrown where
  | std (what : String)
  | foreign
  deriving DecidableEq, Repr

def Thrown.exn : Thrown → Exn
  | .std what => .predicate what
  | .foreign => .foreign

/-- The predicates that the two overloads of `find` take. -/
inductive Cond (Value : Type) where
  | pair (cond : Bytes → Value → Except Thrown Bool)
  | rawPair (cond : Bytes → Bytes → Except Thrown Bool)

namespace Table

variable {E : Mdbx} {Value : Type} (S : Schema Value)

/-- `writer.m_txn.open_cursor(*m_handle)` outside of a `try` block. -/
def openCursor (w : Reader E) : Except Halt (Reader E × E.Cursor) := do
  let (t, c) ← noexcept (E.openCursor w.m_txn)
  return ({ w with m_txn := t }, c)

/-- Open a cursor, search with it, and return it with the result of the search. -/
def search (seek : E.Txn → E.Cursor → E.Txn × Bool) (w : Reader E) :
    Except Halt (Reader E × ConstCursor E) := do
  let (w, c) ← openCursor w
  let (t, result) := seek w.m_txn c
  let i ← ConstCursor.make t (some c) (MdbxError.ofResult result)
  return ({ w with m_txn := t }, i)

def begin (w : Reader E) : Except Halt (Reader E × ConstCursor E) := search E.toFirst w

def lowerBound (w : Reader E) (key : Bytes) : Except Halt (Reader E × ConstCursor E) :=
  search (fun t c => E.lowerBound t c key) w

def get (w : Reader E) (key : Bytes) : Except Halt (Reader E × ConstCursor E) :=
  search (fun t c => E.find t c key) w

def empty (w : Reader E) : Except Halt (Reader E × Bool) := do
  let (w, i) ← begin w
  let b ← noexcept (i.equal S w.m_txn .marker)
  return (w, b)

/-- `erase(Cursor&)`: nothing happens at the end. -/
def eraseCursor (w : Reader E) (i : ConstCursor E) : Except Halt (Reader E) :=
  if i.m_end then .ok w
  else match i.m_cursor with
    | none => .error .terminate
    | some c => do
      let (t, _) ← noexcept (E.erase w.m_txn c)
      return { w with m_txn := t }

/-- `erase(Cursor&, EndCursorType const&)`. -/
def eraseRange (stop : EndCursor E) :
    Nat → Reader E → ConstCursor E → Except Halt (Reader E × ConstCursor E)
  | 0, _, _ => .error .exhausted
  | fuel + 1, w, i => do
    if ← noexcept (i.equal S w.m_txn stop) then return (w, i)
    let w ← eraseCursor w i
    match i.next S w.m_txn with
    | (_, _, some _) => .error .terminate
    | (t, i, none) => eraseRange stop fuel { w with m_txn := t } i

def clear (fuel : Nat) (w : Reader E) : Except Halt (Reader E) := do
  let (w, i) ← begin w
  let (w, _) ← eraseRange S .marker fuel w i
  return w

/-- `erase(Writer&, std::string_view)`. -/
def eraseKey (w : Reader E) (key : Bytes) : Except Halt (Reader E) := do
  let (w, c) ← openCursor w
  let (t, result) := E.find w.m_txn c key
  let w := { w with m_txn := t }
  if result then
    let i ← ConstCursor.make t (some c) .success
    eraseCursor w i
  else return w

/-- The condition of the loop of `find` at a cursor: the key is read first, then the value. -/
def test (cond : Cond Value) (t : E.Txn) (i : ConstCursor E) : Except Exn Bool := do
  let k ← i.key S t
  match cond with
  | .pair cond =>
    let v ← i.value S t
    (cond k v).mapError Thrown.exn
  | .rawPair cond =>
    let v ← i.rawValue S t
    (cond k v).mapError Thrown.exn

/-- The `try` block of `find`, with the exception that leaves it. -/
def findLoop (stop : EndCursor E) (cond : Cond Value) :
    Nat → E.Txn → ConstCursor E → Except Halt (E.Txn × ConstCursor E × Option Exn)
  | 0, _, _ => .error .exhausted
  | fuel + 1, t, i =>
    match i.equal S t stop with
    | .error x => .ok (t, i, some x)
    | .ok true => .ok (t, i, none)
    | .ok false =>
      match test S cond t i with
      | .error x => .ok (t, i, some x)
      | .ok true => .ok (t, i, none)
      | .ok false =>
        match i.next S t with
        | (t, i, some x) => .ok (t, i, some x)
        | (t, i, none) => findLoop stop cond fuel t i

/-- Record a caught exception in the transaction. -/
def recordError (w : Reader E) (what : String) : Reader E :=
  { w with m_result := ⟨.error, what⟩ }

/-- `find` takes the native cursor out of its argument: the second component is what is left
there, the third the cursor returned. -/
def find (stop : EndCursor E) (cond : Cond Value) (fuel : Nat) (w : Reader E)
    (i : ConstCursor E) : Except Halt (Reader E × ConstCursor E × ConstCursor E) := do
  let (t, i, thrown) ← findLoop S stop cond fuel w.m_txn i
  let w := { w with m_txn := t }
  match thrown with
  | none =>
    let found ← ConstCursor.make t i.m_cursor .success
    return (w, { i with m_cursor := none }, found)
  | some x =>
    match x.what with
    | none => .error .terminate
    | some what =>
      let found ← ConstCursor.make t i.m_cursor .resultTrue
      return (recordError w what, { i with m_cursor := none }, found)

/-- The `try` block shared by `insert`, `upsert` and `update`: the state it leaves, the native
cursor, and the text of the exception. -/
def putBlock (put : E.Txn → E.Cursor → Bytes → Bytes → E.Txn × Option String) (t : E.Txn)
    (key value : Bytes) : E.Txn × Option E.Cursor × Option String :=
  match E.openCursor t with
  | .error what => (t, none, some what)
  | .ok (t, c) =>
    let (t, thrown) := put t c key value
    (t, some c, thrown)

/-- The common body of the three put operations. -/
def putWith (put : E.Txn → E.Cursor → Bytes → Bytes → E.Txn × Option String) (w : Reader E)
    (key value : Bytes) : Except Halt (Reader E × ConstCursor E) :=
  match putBlock put w.m_txn key value with
  | (t, c, none) => do
    let i ← ConstCursor.make t c .success
    return ({ w with m_txn := t }, i)
  | (t, c, some what) => do
    let i ← ConstCursor.make t c .resultTrue
    return (recordError { w with m_txn := t } what, i)

def insert (w : Reader E) (key value : Bytes) : Except Halt (Reader E × ConstCursor E) :=
  putWith E.insert w key value

def upsert (w : Reader E) (key value : Bytes) : Except Halt (Reader E × ConstCursor E) :=
  putWith E.upsert w key value

def update (w : Reader E) (key value : Bytes) : Except Halt (Reader E × ConstCursor E) :=
  putWith E.update w key value

/-- The typed overloads encode the value and call the raw ones. -/
def insertValue (w : Reader E) (key : Bytes) (value : Value) :
    Except Halt (Reader E × ConstCursor E) := insert w key (S.toBinary value)

def upsertValue (w : Reader E) (key : Bytes) (value : Value) :
    Except Halt (Reader E × ConstCursor E) := upsert w key (S.toBinary value)

def updateValue (w : Reader E) (key : Bytes) (value : Value) :
    Except Halt (Reader E × ConstCursor E) := update w key (S.toBinary value)

end Table

end Zatestil.Database
