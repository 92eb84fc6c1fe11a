import Zatestil.Database.Mdbx
import Zatestil.Util
import Mathlib.Data.Finset.Basic

/-!
# Transactions

`Reader` is the transaction object and `Writer` adds nothing to its state, so one structure
stands for both. The lock is taken in the constructor and given back by `commit` or `abort`;
the destructor decides between the two by `m_result` alone. The counter behind `m_id` only
numbers log lines and is left out.
-/
set_option linter.dupNamespace false
namespace Zatestil.Database
open Util

/-- The alternatives of `std::variant<SharedLock, UniqueLock>`. -/
inductive LockKind where
  | shared
  | unique
  deriving DecidableEq, Repr

/-- A lock object of the transaction `owner`. After `unlock` the mutex is no longer owned. -/
structure Lock where
  kind : LockKind
  owner : Nat
  owns : Bool
  deriving DecidableEq, Repr

/-- `std::shared_mutex`, with the transactions that own it. -/
structure SharedMutex where
  shared : Finset Nat
  unique : Option Nat
  deriving DecidableEq

namespace SharedMutex

def free : SharedMutex := ⟨∅, none⟩

/-- Taking the mutex in a mode; `none` is a caller that has to wait. -/
def acquire (m : SharedMutex) (i : Nat) : LockKind → Option SharedMutex
  | .shared => if m.unique = none then some { m with shared := insert i m.shared } else none
  | .unique =>
    if m.unique = none ∧ m.shared = ∅ then some { m with unique := some i } else none

def release (m : SharedMutex) (i : Nat) : LockKind → SharedMutex
  | .shared => { m with shared := m.shared.erase i }
  | .unique => { m with unique := none }

end SharedMutex

/-- `Database<id>`: the mutex and the environment. -/
structure Database (E : Mdbx) where
  m_mutex : SharedMutex
  m_env : E.Env

/-- `Reader<id>`, and `Writer<id>` with the unique lock. -/
structure Reader (E : Mdbx) where
  m_txn : E.Txn
  m_isOpen : Bool
  m_lock : Lock
  m_result : Result

namespace Reader

variable {E : Mdbx}

/-- The transaction `i` after its constructor has taken the lock and started `txn`. -/
def start (kind : LockKind) (i : Nat) (txn : E.Txn) : Reader E where
  m_txn := txn
  m_isOpen := true
  m_lock := ⟨kind, i, true⟩
  m_result := ⟨.success, ""⟩

/-- The transaction that the constructor starts after taking the lock. -/
def startTxn (e : E.Env) : LockKind → E.Txn
  | .shared => E.startRead e
  | .unique => E.startWrite e

/-- `Reader(Database&)` and `Writer(Database&)`; `none` while the lock is not to be had. -/
def make (kind : LockKind) (i : Nat) (d : Database E) : Option (Database E × Reader E) := do
  let mutex ← d.m_mutex.acquire i kind
  return ({ d with m_mutex := mutex }, start kind i (startTxn d.m_env kind))

def makeReader (i : Nat) (d : Database E) : Option (Database E × Reader E) := make .shared i d

def makeWriter (i : Nat) (d : Database E) : Option (Database E × Reader E) := make .unique i d

/-- Unlocking a lock that is not owned throws, and `unlock` is `noexcept`. -/
def unlock (d : Database E) (r : Reader E) : Except Halt (Database E × Reader E) :=
  if r.m_lock.owns then
    .ok ({ d with m_mutex := d.m_mutex.release r.m_lock.owner r.m_lock.kind },
      { r with m_lock := { r.m_lock with owns := false } })
  else .error .terminate

def commit (d : Database E) (r : Reader E) : Except Halt (Database E × Reader E) :=
  if r.m_isOpen then
    unlock { d with m_env := E.commit d.m_env r.m_txn } { r with m_isOpen := false }
  else .ok (d, r)

/-- Unlike `commit`, this leaves `m_isOpen` as it is. -/
def abort (d : Database E) (r : Reader E) : Except Halt (Database E × Reader E) :=
  if r.m_isOpen then unlock { d with m_env := E.abort d.m_env r.m_txn } r
  else .ok (d, r)

/-- `operator<<` on a reader. -/
def shift (r : Reader E) (result : Result) : Reader E := { r with m_result := result }

/-- `~Reader`: the branch is taken on `m_result` alone, whatever ended the scope. -/
def destruct (d : Database E) (r : Reader E) : Except Halt (Database E × Reader E) := do
  let (d, r) ← if r.m_result.isOk then commit d r else abort d r
  return (d, { r with m_isOpen := false })

/-- A transaction that has not been ended: open, with its lock owned. -/
structure Live (r : Reader E) : Prop where
  isOpen : r.m_isOpen = true
  owns : r.m_lock.owns = true

theorem live_start (kind : LockKind) (i : Nat) (txn : E.Txn) : (start kind i txn).Live :=
  ⟨rfl, rfl⟩

/-- The destructor of a live transaction returns; the result decides what it did. -/
theorem destruct_live {r : Reader E} (h : r.Live) (d : Database E) :
    destruct d r = .ok
      (⟨d.m_mutex.release r.m_lock.owner r.m_lock.kind,
        if r.m_result.isOk then E.commit d.m_env r.m_txn else E.abort d.m_env r.m_txn⟩,
        { r with m_isOpen := false, m_lock := { r.m_lock with owns := false } }) := by
  by_cases hok : r.m_result.isOk
  · simp only [destruct, hok, commit, h.isOpen, unlock, h.owns, if_true]
    rfl
  · simp only [destruct, hok, abort, h.isOpen, unlock, h.owns, if_true]
    rfl

end Reader

end Zatestil.Database
