import Zatestil.Database.Transaction

/-!
# Scopes that own a transaction

A scope makes a transaction, calls operations on it and on the cursors it has been given,
and leaves; `~Reader` then runs. Cursors are named by the order in which they were returned.
An exception of a cursor operation is either caught inside the scope, and then the sequence
goes on, or it leaves the scope and the destructor runs while unwinding.
-/
namespace Zatestil.Database
open Library Util

/-- The end argument of a range operation in a scope. -/
inductive Stop where
  | marker
  | slot (j : Nat)
  deriving DecidableEq, Repr

/-- The operations a scope can call. The last five are those of `ConstCursor`. -/
inductive Op (Value : Type) where
  | begin
  | insert (key value : Bytes)
  | insertValue (key : Bytes) (value : Value)
  | upsert (key value : Bytes)
  | upsertValue (key : Bytes) (value : Value)
  | update (key value : Bytes)
  | updateValue (key : Bytes) (value : Value)
  | eraseKey (key : Bytes)
  | eraseCursor (i : Nat)
  | eraseRange (i : Nat) (stop : Stop)
  | clear
  | empty
  | get (key : Bytes)
  | lowerBound (key : Bytes)
  | find (i : Nat) (stop : Stop) (cond : Cond Value)
  | shift (result : Result)
  | key (i : Nat)
  | rawValue (i : Nat)
  | value (i : Nat)
  | next (i : Nat)
  | prev (i : Nat)

/-- The operations that have an overload for readers; `find` on a `ConstCursor` has none that
can be instantiated. -/
def Op.onReader {Value : Type} : Op Value → Bool
  | .begin | .empty | .get _ | .lowerBound _ | .shift _ => true
  | .key _ | .rawValue _ | .value _ | .next _ | .prev _ => true
  | _ => false

/-- The transaction and the cursors returned so far. -/
structure Session (E : Mdbx) where
  writer : Reader E
  cursors : List (ConstCursor E)

/-- What a call leaves: the session, the event, and the exception it let out, if any. -/
structure Called (E : Mdbx) where
  session : Session E
  event : Event
  thrown : Option Exn

namespace Session

variable {E : Mdbx} {Value : Type} (S : Schema Value) (fuel : Nat)

/-- A cursor by its number. Sequences that name a cursor they have not been given are not
programs; they are made to stop. -/
def cursor (s : Session E) (i : Nat) : Except Halt (ConstCursor E) :=
  match s.cursors[i]? with
  | some c => .ok c
  | none => .error .terminate

def stop (s : Session E) : Stop → Except Halt (EndCursor E)
  | .marker => .ok .marker
  | .slot j => do
    let c ← s.cursor j
    return .cursor c

/-- A table operation that returns a cursor. -/
def returning (s : Session E) (r : Except Halt (Reader E × ConstCursor E)) (event : Event) :
    Except Halt (Called E) := do
  let (w, c) ← r
  return ⟨⟨w, s.cursors ++ [c]⟩, event, none⟩

/-- A table operation that returns no cursor. -/
def silent (s : Session E) (r : Except Halt (Reader E)) (event : Event) :
    Except Halt (Called E) := do
  let w ← r
  return ⟨{ s with writer := w }, event, none⟩

/-- A read of a cursor, which changes nothing. -/
def reading {α : Type} (s : Session E) (i : Nat)
    (read : E.Txn → ConstCursor E → Except Exn α) : Except Halt (Called E) := do
  let c ← s.cursor i
  match read s.writer.m_txn c with
  | .ok _ => return ⟨s, .looked, none⟩
  | .error x => return ⟨s, .looked, some x⟩

/-- A move of a cursor; it may have moved although it throws. -/
def moving (s : Session E) (i : Nat)
    (move : E.Txn → ConstCursor E → E.Txn × ConstCursor E × Option Exn) :
    Except Halt (Called E) := do
  let c ← s.cursor i
  let (t, c, x) := move s.writer.m_txn c
  return ⟨⟨{ s.writer with m_txn := t }, s.cursors.set i c⟩, .looked, x⟩

def call (s : Session E) : Op Value → Except Halt (Called E)
  | .begin => s.returning (Table.begin s.writer) .looked
  | .insert k v => s.returning (Table.insert s.writer k v) (Table.putEvent E.insert s.writer k v)
  | .insertValue k v => s.returning (Table.insertValue S s.writer k v)
      (Table.putEvent E.insert s.writer k (S.toBinary v))
  | .upsert k v => s.returning (Table.upsert s.writer k v) (Table.putEvent E.upsert s.writer k v)
  | .upsertValue k v => s.returning (Table.upsertValue S s.writer k v)
      (Table.putEvent E.upsert s.writer k (S.toBinary v))
  | .update k v => s.returning (Table.update s.writer k v) (Table.putEvent E.update s.writer k v)
  | .updateValue k v => s.returning (Table.updateValue S s.writer k v)
      (Table.putEvent E.update s.writer k (S.toBinary v))
  | .eraseKey k => s.silent (Table.eraseKey s.writer k)
      (.removed (if ((E.content s.writer.m_txn).lookup k).isSome then [k] else []))
  | .eraseCursor i => do
    let c ← s.cursor i
    s.silent (Table.eraseCursor s.writer c) (.removed (Table.keyUnder s.writer c))
  | .eraseRange i stop => do
    let c ← s.cursor i
    let e ← s.stop stop
    let (w, c') ← Table.eraseRange S e fuel s.writer c
    return ⟨⟨w, s.cursors.set i c'⟩, .removed (Table.rangeKeys S e fuel s.writer c), none⟩
  | .clear => s.silent (Table.clear S fuel s.writer) .cleared
  | .empty => do
    let (w, _) ← Table.empty S s.writer
    return ⟨{ s with writer := w }, .looked, none⟩
  | .get k => s.returning (Table.get s.writer k) .looked
  | .lowerBound k => s.returning (Table.lowerBound s.writer k) .looked
  | .find i stop cond => do
    let c ← s.cursor i
    let e ← s.stop stop
    let (w, left, found) ← Table.find S e cond fuel s.writer c
    return ⟨⟨w, s.cursors.set i left ++ [found]⟩, Table.findEvent S e cond fuel s.writer c, none⟩
  | .shift result => return ⟨{ s with writer := s.writer.shift result }, .shifted result, none⟩
  | .key i => s.reading i (fun t c => c.key S t)
  | .rawValue i => s.reading i (fun t c => c.rawValue S t)
  | .value i => s.reading i (fun t c => c.value S t)
  | .next i => s.moving i (fun t c => c.next S t)
  | .prev i => s.moving i (fun t c => c.prev S t)

/-- A sequence of calls, with the events in order. Exceptions are caught in the scope. -/
def run (s : Session E) : List (Op Value) → Except Halt (Session E × List Event)
  | [] => .ok (s, [])
  | op :: ops => do
    let r ← s.call S fuel op
    let (t, log) ← run r.session ops
    return (t, r.event :: log)

/-! ## Every call performs its event -/

variable {S fuel} {s : Session E}

theorem performs_returning {r : Except Halt (Reader E × ConstCursor E)} {event : Event}
    {c : Called E} (hr : ∀ w i, r = .ok (w, i) → s.writer.Performs event w)
    (h : s.returning r event = .ok c) : s.writer.Performs c.event c.session.writer := by
  obtain ⟨⟨w, i⟩, hw, h⟩ := bind_eq_ok.mp h
  cases h
  exact hr w i hw

theorem performs_silent {r : Except Halt (Reader E)} {event : Event} {c : Called E}
    (hr : ∀ w, r = .ok w → s.writer.Performs event w) (h : s.silent r event = .ok c) :
    s.writer.Performs c.event c.session.writer := by
  obtain ⟨w, hw, h⟩ := bind_eq_ok.mp h
  cases h
  exact hr w hw

theorem performs_reading {α : Type} {i : Nat} {read : E.Txn → ConstCursor E → Except Exn α}
    {c : Called E} (h : s.reading i read = .ok c) :
    s.writer.Performs c.event c.session.writer := by
  obtain ⟨j, hj, h⟩ := bind_eq_ok.mp h
  split at h
  · cases h; exact Reader.performs_refl _
  · cases h; exact Reader.performs_refl _

theorem performs_moving {i : Nat}
    {move : E.Txn → ConstCursor E → E.Txn × ConstCursor E × Option Exn}
    (hmove : ∀ j, s.writer.Performs .looked
      { s.writer with m_txn := (move s.writer.m_txn j).1 })
    {c : Called E} (h : s.moving i move = .ok c) :
    s.writer.Performs c.event c.session.writer := by
  obtain ⟨j, hj, h⟩ := bind_eq_ok.mp h
  cases h
  exact hmove j

theorem call_performs (hE : E.Documented) {op : Op Value} {c : Called E}
    (h : s.call S fuel op = .ok c) : s.writer.Performs c.event c.session.writer := by
  cases op with
  | begin => exact performs_returning (fun _ _ => Table.performs_search hE hE.toFirst_moves) h
  | insert k v =>
    exact performs_returning (fun _ _ => Table.performs_putWith hE (Table.putLaw_insert hE)) h
  | insertValue k v =>
    exact performs_returning (fun _ _ => Table.performs_putWith hE (Table.putLaw_insert hE)) h
  | upsert k v =>
    exact performs_returning (fun _ _ => Table.performs_putWith hE (Table.putLaw_upsert hE)) h
  | upsertValue k v =>
    exact performs_returning (fun _ _ => Table.performs_putWith hE (Table.putLaw_upsert hE)) h
  | update k v =>
    exact performs_returning (fun _ _ => Table.performs_putWith hE (Table.putLaw_update hE)) h
  | updateValue k v =>
    exact performs_returning (fun _ _ => Table.performs_putWith hE (Table.putLaw_update hE)) h
  | eraseKey k => exact performs_silent (fun _ => Table.performs_eraseKey hE) h
  | eraseCursor i =>
    obtain ⟨j, hj, h⟩ := bind_eq_ok.mp h
    exact performs_silent (fun _ => Table.performs_eraseCursor hE) h
  | eraseRange i stop =>
    obtain ⟨j, hj, h⟩ := bind_eq_ok.mp h
    obtain ⟨e, he, h⟩ := bind_eq_ok.mp h
    obtain ⟨⟨w, j'⟩, hw, h⟩ := bind_eq_ok.mp h
    cases h
    exact Table.performs_eraseRange hE hw
  | clear => exact performs_silent (fun _ => Table.performs_clear hE) h
  | empty =>
    obtain ⟨⟨w, b⟩, hw, h⟩ := bind_eq_ok.mp h
    cases h
    exact Table.performs_empty hE hw
  | get k =>
    exact performs_returning
      (fun _ _ => Table.performs_search hE (fun t c => hE.find_moves t c k)) h
  | lowerBound k =>
    exact performs_returning
      (fun _ _ => Table.performs_search hE (fun t c => hE.lowerBound_moves t c k)) h
  | find i stop cond =>
    obtain ⟨j, hj, h⟩ := bind_eq_ok.mp h
    obtain ⟨e, he, h⟩ := bind_eq_ok.mp h
    obtain ⟨⟨w, left, found⟩, hw, h⟩ := bind_eq_ok.mp h
    cases h
    exact Table.performs_find hE hw
  | shift result =>
    cases h
    exact ⟨rfl, rfl, rfl, rfl, rfl⟩
  | key i => exact performs_reading h
  | rawValue i => exact performs_reading h
  | value i => exact performs_reading h
  | next i => exact performs_moving (fun j => Table.performs_next hE s.writer j) h
  | prev i => exact performs_moving (fun j => Table.performs_prev hE s.writer j) h

/-- A sequence performs its events in order. -/
theorem run_performs (hE : E.Documented) {ops : List (Op Value)} {t : Session E}
    {log : List Event} (h : s.run S fuel ops = .ok (t, log)) :
    E.content t.writer.m_txn = Event.applyAll (E.content s.writer.m_txn) log ∧
      t.writer.m_result.code = log.foldl Event.code s.writer.m_result.code ∧
      E.isReadonly t.writer.m_txn = E.isReadonly s.writer.m_txn ∧
      (s.writer.Live → t.writer.Live) ∧ t.writer.m_lock = s.writer.m_lock := by
  induction ops generalizing s log with
  | nil =>
    cases h
    exact ⟨rfl, rfl, rfl, id, rfl⟩
  | cons op ops ih =>
    obtain ⟨r, hr, h⟩ := bind_eq_ok.mp h
    obtain ⟨⟨u, rest⟩, hu, h⟩ := bind_eq_ok.mp h
    cases h
    have hstep := call_performs hE hr
    obtain ⟨hc, hcode, hro, hlive, hlock⟩ := ih hu
    refine ⟨?_, ?_, hro.trans hstep.readonly, fun hs => hlive (hstep.live hs),
      hlock.trans hstep.lock⟩
    · rw [hc, hstep.content]
      rfl
    · rw [hcode, hstep.code]
      rfl

/-! ## Where the result comes from -/

/-- The three kinds of calls: `operator<<` replaces the result by an arbitrary one; the calls
that only look are the ones that let exceptions out; the others are not for readers. -/
theorem call_cases {op : Op Value} {c : Called E} (h : s.call S fuel op = .ok c) :
    (∃ result, op = .shift result ∧ c.event = .shifted result ∧ c.thrown = none) ∨
      c.event = .looked ∨
      (op.onReader = false ∧ c.thrown = none ∧ ∀ result, c.event ≠ .shifted result) := by
  have hput : ∀ put k v result, Table.putEvent (E := E) put s.writer k v ≠ .shifted result := by
    intro put k v result
    unfold Table.putEvent
    split <;> simp
  have hfind : ∀ e cond i result,
      Table.findEvent S e cond fuel s.writer i ≠ .shifted result := by
    intro e cond i result
    unfold Table.findEvent
    split <;> simp
  cases op with
  | shift r =>
    cases h
    exact .inl ⟨r, rfl, rfl, rfl⟩
  | begin | get | lowerBound | empty =>
    obtain ⟨w, -, h⟩ := bind_eq_ok.mp h
    cases h
    exact .inr (.inl rfl)
  | insert | insertValue | upsert | upsertValue | update | updateValue =>
    obtain ⟨w, -, h⟩ := bind_eq_ok.mp h
    cases h
    exact .inr (.inr ⟨rfl, rfl, hput _ _ _⟩)
  | eraseKey | clear =>
    obtain ⟨w, -, h⟩ := bind_eq_ok.mp h
    cases h
    exact .inr (.inr ⟨rfl, rfl, by simp⟩)
  | eraseCursor =>
    obtain ⟨j, -, h⟩ := bind_eq_ok.mp h
    obtain ⟨w, -, h⟩ := bind_eq_ok.mp h
    cases h
    exact .inr (.inr ⟨rfl, rfl, by simp⟩)
  | eraseRange =>
    obtain ⟨j, -, h⟩ := bind_eq_ok.mp h
    obtain ⟨e, -, h⟩ := bind_eq_ok.mp h
    obtain ⟨w, -, h⟩ := bind_eq_ok.mp h
    cases h
    exact .inr (.inr ⟨rfl, rfl, by simp⟩)
  | find =>
    obtain ⟨j, -, h⟩ := bind_eq_ok.mp h
    obtain ⟨e, -, h⟩ := bind_eq_ok.mp h
    obtain ⟨w, -, h⟩ := bind_eq_ok.mp h
    cases h
    exact .inr (.inr ⟨rfl, rfl, hfind _ _ _⟩)
  | key | rawValue | value =>
    obtain ⟨j, -, h⟩ := bind_eq_ok.mp h
    split at h <;> cases h <;> exact .inr (.inl rfl)
  | next | prev =>
    obtain ⟨j, -, h⟩ := bind_eq_ok.mp h
    cases h
    exact .inr (.inl rfl)

theorem call_shifted {op : Op Value} {c : Called E} {result : Result}
    (h : s.call S fuel op = .ok c) (he : c.event = .shifted result) : op = .shift result := by
  obtain ⟨r, rfl, hr, -⟩ | hlook | ⟨-, -, hne⟩ := call_cases h
  · rw [hr] at he
    cases he
    rfl
  · rw [hlook] at he
    cases he
  · exact absurd he (hne result)

/-- The operations that let an exception out are those of the cursors, which record nothing. -/
theorem call_thrown {op : Op Value} {c : Called E} {x : Exn} (h : s.call S fuel op = .ok c)
    (hx : c.thrown = some x) : c.event = .looked := by
  obtain ⟨-, -, -, hnone⟩ | hlook | ⟨-, hnone, -⟩ := call_cases h
  · simp [hnone] at hx
  · exact hlook
  · simp [hnone] at hx

/-- What a reader can call does not change the data. -/
theorem call_onReader {op : Op Value} {c : Called E} (h : s.call S fuel op = .ok c)
    (hop : op.onReader = true) (m : Content) : c.event.apply m = m := by
  obtain ⟨r, -, hr, -⟩ | hlook | ⟨hno, -, -⟩ := call_cases h
  · rw [hr]
    rfl
  · rw [hlook]
    rfl
  · simp [hno] at hop

theorem run_shifted {ops : List (Op Value)} {t : Session E} {log : List Event}
    (h : s.run S fuel ops = .ok (t, log)) (hops : ∀ result, Op.shift result ∉ ops) :
    ∀ result, Event.shifted result ∉ log := by
  induction ops generalizing s log with
  | nil =>
    cases h
    simp
  | cons op ops ih =>
    obtain ⟨r, hr, h⟩ := bind_eq_ok.mp h
    obtain ⟨⟨u, rest⟩, hu, h⟩ := bind_eq_ok.mp h
    cases h
    intro result hmem
    rcases List.mem_cons.mp hmem with he | hmem
    · have := call_shifted hr he.symm
      exact hops result (by simp [this])
    · exact ih hu (fun r hr => hops r (List.mem_cons_of_mem _ hr)) result hmem

end Session

/-- Without `operator<<` an error stays: the result is `Success` iff nothing has failed. -/
theorem Event.foldl_code_eq_success {log : List Event} (h : ∀ r, Event.shifted r ∉ log)
    (c : Code) : log.foldl Event.code c = .success ↔
      c = .success ∧ Event.failed ∉ log ∧ ∀ x, Event.threw x ∉ log := by
  induction log generalizing c with
  | nil => simp
  | cons ev log ih =>
    have hlog : ∀ r, Event.shifted r ∉ log := fun r hr => h r (List.mem_cons_of_mem _ hr)
    rw [List.foldl_cons, ih hlog]
    cases ev with
    | shifted r => exact absurd (List.mem_cons_self ..) (h r)
    | failed => simp [Event.code]
    | threw x =>
      constructor
      · rintro ⟨hc, -⟩
        cases hc
      · rintro ⟨-, -, hx⟩
        exact absurd (List.mem_cons_self ..) (hx x)
    | stored | removed | cleared | looked => simp [Event.code]

/-! ## The end of a writer's scope -/

section Scope

variable {E : Mdbx} {Value : Type} {S : Schema Value} {fuel : Nat}

theorem makeWriter_eq_some {n : Nat} {d d₁ : Database E} {w : Reader E}
    (h : Reader.makeWriter n d = some (d₁, w)) :
    d₁.m_env = d.m_env ∧ w = Reader.start .unique n (E.startWrite d.m_env) := by
  obtain ⟨m, -, h⟩ := Option.bind_eq_some_iff.mp h
  cases h
  exact ⟨rfl, rfl⟩

/-- What the destructor publishes after any sequence of operations of a new writer. -/
theorem destruct_published (hE : E.Documented) (hT : E.Transactional) {n : Nat}
    {d d₁ : Database E} {w : Reader E} (hw : Reader.makeWriter n d = some (d₁, w))
    {ops : List (Op Value)} {s : Session E} {log : List Event}
    (h : (Session.mk w []).run S fuel ops = .ok (s, log)) :
    s.writer.m_result.code = Event.finalCode log ∧
      ∃ d₂ r, Reader.destruct d₁ s.writer = .ok (d₂, r) ∧
        E.published d₂.m_env =
          if s.writer.m_result.isOk then Event.applyAll (E.published d.m_env) log
          else E.published d.m_env := by
  obtain ⟨henv, rfl⟩ := makeWriter_eq_some hw
  obtain ⟨hcontent, hcode, hro, hlive, -⟩ := Session.run_performs hE h
  refine ⟨hcode, _, _, Reader.destruct_live (hlive (Reader.live_start _ _ _)) d₁, ?_⟩
  have hwrite : E.isReadonly s.writer.m_txn = false :=
    hro.trans (hT.startWrite_readonly d.m_env)
  by_cases hok : s.writer.m_result.isOk
  · simp only [hok, if_true]
    rw [hT.commit_write _ _ hwrite, hcontent]
    exact congrArg (Event.applyAll · log) (hT.startWrite_content d.m_env)
  · simp only [hok]
    exact (hT.abort_published _ _).trans (congrArg E.published henv)

/-- All or nothing. A writer's scope publishes all of its successful operations or none, the
first exactly when the result is `Success` at the end; and if `operator<<` is not used, the
result is not `Success` exactly when a put failed or an exception was caught by a `find`. -/
theorem writer_all_or_nothing (hE : E.Documented) (hT : E.Transactional) {n : Nat}
    {d d₁ : Database E} {w : Reader E} (hw : Reader.makeWriter n d = some (d₁, w))
    {ops : List (Op Value)} {s : Session E} {log : List Event}
    (h : (Session.mk w []).run S fuel ops = .ok (s, log)) :
    (∃ d₂ r, Reader.destruct d₁ s.writer = .ok (d₂, r) ∧
      E.published d₂.m_env =
        if s.writer.m_result.isOk then Event.applyAll (E.published d.m_env) log
        else E.published d.m_env) ∧
    ((∀ result, Op.shift result ∉ ops) →
      (s.writer.m_result.isOk = false ↔
        Event.failed ∈ log ∨ ∃ x, Event.threw x ∈ log)) := by
  obtain ⟨hcode, hpub⟩ := destruct_published hE hT hw h
  refine ⟨hpub, fun hops => ?_⟩
  have hsuccess := Event.foldl_code_eq_success (Session.run_shifted h hops) .success
  rw [← Event.finalCode, ← hcode, ← Result.isOk_iff] at hsuccess
  rw [← Bool.not_eq_true, hsuccess]
  simp only [true_and, not_and_or, not_not, not_forall]

end Scope

/-- A database with one entry and nobody using it. -/
def oneEntry : Database Reference.engine := ⟨.free, SortedMap.empty.insert [1] [1]⟩

/-- A put that fails takes the earlier one with it: `insert` of a new key, then `update` of a
missing one. -/
theorem writer_all_or_nothing_failed_update :
    ∃ d₁ w s log, Reader.makeWriter 0 oneEntry = some (d₁, w) ∧
      (Session.mk w []).run rawSchema 1 [.insert [2] [2], .update [3] [3]] = .ok (s, log) ∧
      log = [.stored [2] [2], .failed] ∧
      (∃ d₂ r, Reader.destruct d₁ s.writer = .ok (d₂, r) ∧
        d₂.m_env = if s.writer.m_result.isOk then Event.applyAll oneEntry.m_env log
          else oneEntry.m_env) ∧
      s.writer.m_result.isOk = false := by
  obtain ⟨d₁, w, s, log, hw, h, hlog⟩ : ∃ d₁ w s log, Reader.makeWriter 0 oneEntry = some (d₁, w) ∧
      (Session.mk w []).run rawSchema 1 [.insert [2] [2], .update [3] [3]] = .ok (s, log) ∧
      log = [.stored [2] [2], .failed] := ⟨_, _, _, _, rfl, rfl, rfl⟩
  obtain ⟨hpub, hresult⟩ :=
    writer_all_or_nothing Reference.documented Reference.transactional hw h
  refine ⟨d₁, w, s, log, hw, h, hlog, hpub, (hresult (by simp)).mpr ?_⟩
  exact .inl (by simp [hlog])

/-- The cursor of the only entry outlives the entry, and `find` is called on it. -/
def findErased : List (Op Bytes) :=
  [.get [1], .eraseCursor 0, .find 0 .marker (.rawPair fun _ _ => .ok true)]

/-- `find` on a cursor whose entry is gone throws in `key()`: the predicate is not called and
nothing is decoded, no put fails, and still the erase before it is discarded. -/
theorem find_on_erased_cursor_aborts :
    ∃ d₁ w s log, Reader.makeWriter 0 oneEntry = some (d₁, w) ∧
      (Session.mk w []).run rawSchema 1 findErased = .ok (s, log) ∧
      (∀ result, Op.shift result ∉ findErased) ∧
      Event.failed ∉ log ∧ Event.threw .foreign ∉ log ∧
      (∀ what, Event.threw (.predicate what) ∉ log ∧ Event.threw (.decoding what) ∉ log) ∧
      s.writer.m_result.isOk = false ∧
      Event.applyAll oneEntry.m_env log ≠ oneEntry.m_env ∧
      ∃ d₂ r, Reader.destruct d₁ s.writer = .ok (d₂, r) ∧ d₂.m_env = oneEntry.m_env := by
  refine ⟨_, _, _, [.looked, .removed [[1]], .threw (.cursor "bad current db 0 table 0")],
    rfl, rfl, ?_, by decide, by decide, ?_, rfl, by decide, _, _, rfl, rfl⟩
  · simp [findErased]
  · simp

/-! ## Exceptions that leave the scope -/

namespace Session

variable {E : Mdbx} {Value : Type} {S : Schema Value} {fuel : Nat} {s : Session E}

theorem run_concat {ops : List (Op Value)} {op : Op Value} {t : Session E} {log : List Event}
    {c : Called E} (h : s.run S fuel ops = .ok (t, log)) (hc : t.call S fuel op = .ok c) :
    s.run S fuel (ops ++ [op]) = .ok (c.session, log ++ [c.event]) := by
  induction ops generalizing s log with
  | nil =>
    cases h
    exact bind_eq_ok.mpr ⟨c, hc, rfl⟩
  | cons o ops ih =>
    obtain ⟨r, hr, h⟩ := bind_eq_ok.mp h
    obtain ⟨⟨u, rest⟩, hu, h⟩ := bind_eq_ok.mp h
    cases h
    exact bind_eq_ok.mpr ⟨r, hr, bind_eq_ok.mpr ⟨_, ih hu, rfl⟩⟩

end Session

section Scope

variable {E : Mdbx} {Value : Type} {S : Schema Value} {fuel : Nat}

/-- An exception out of a cursor operation leaves the scope, and the destructor runs while
unwinding. It does not know about the exception: nothing is published exactly when an error
had been recorded before, or the operations before had changed nothing. -/
theorem unwinding_publishes_nothing_iff (hE : E.Documented) (hT : E.Transactional)
    {n : Nat} {d d₁ : Database E} {w : Reader E}
    (hw : Reader.makeWriter n d = some (d₁, w))
    {ops : List (Op Value)} {s : Session E} {log : List Event}
    (h : (Session.mk w []).run S fuel ops = .ok (s, log)) {op : Op Value} {c : Called E}
    {x : Exn} (hc : s.call S fuel op = .ok c) (hx : c.thrown = some x) :
    ∃ d₂ r, Reader.destruct d₁ c.session.writer = .ok (d₂, r) ∧
      (E.published d₂.m_env = E.published d.m_env ↔
        Event.finalCode log ≠ .success ∨
          Event.applyAll (E.published d.m_env) log = E.published d.m_env) := by
  obtain ⟨hcode, d₂, r, hr, hpub⟩ := destruct_published hE hT hw (Session.run_concat h hc)
  refine ⟨d₂, r, hr, ?_⟩
  have hlook := Session.call_thrown hc hx
  have hfinal : Event.finalCode (log ++ [c.event]) = Event.finalCode log := by
    simp [Event.finalCode, hlook, Event.code]
  have happly : Event.applyAll (E.published d.m_env) (log ++ [c.event]) =
      Event.applyAll (E.published d.m_env) log := by
    simp [Event.applyAll, hlook, Event.apply]
  rw [hfinal] at hcode
  rw [hpub, happly]
  by_cases hok : Event.finalCode log = .success
  · simp [Result.isOk, hcode, hok]
  · simp [Result.isOk, hcode, hok]

end Scope

/-- The scope inserts an entry, searches for another one, does not find it, and reads the key
of the end cursor. -/
theorem unwinding_publishes_nothing_iff_end_cursor :
    ∃ d₁ w s log c, Reader.makeWriter 0 oneEntry = some (d₁, w) ∧
      (Session.mk w []).run rawSchema 1 [.insert [2] [2], .get [3]] = .ok (s, log) ∧
      s.call rawSchema 1 (.key 1) = .ok c ∧
      c.thrown = some (.cursor "bad cursor db 0 table 0") ∧
      ∃ d₂ r, Reader.destruct d₁ c.session.writer = .ok (d₂, r) ∧
        (d₂.m_env = oneEntry.m_env ↔ Event.finalCode log ≠ .success ∨
          Event.applyAll oneEntry.m_env log = oneEntry.m_env) := by
  obtain ⟨d₁, w, s, log, c, hw, h, hc, hx⟩ : ∃ d₁ w s log c,
      Reader.makeWriter 0 oneEntry = some (d₁, w) ∧
      (Session.mk w []).run rawSchema 1 [.insert [2] [2], .get [3]] = .ok (s, log) ∧
      s.call rawSchema 1 (.key 1) = .ok c ∧
      c.thrown = some (.cursor "bad cursor db 0 table 0") :=
    ⟨_, _, _, _, _, rfl, rfl, rfl, rfl⟩
  refine ⟨d₁, w, s, log, c, hw, h, hc, hx, ?_⟩
  exact unwinding_publishes_nothing_iff Reference.documented Reference.transactional hw h hc hx

/-- The insert of that scope is published although the scope was left by an exception. -/
theorem unwinding_publishes_insert :
    ∃ d₁ w s log c d₂ r, Reader.makeWriter 0 oneEntry = some (d₁, w) ∧
      (Session.mk w []).run rawSchema 1 [.insert [2] [2], .get [3]] = .ok (s, log) ∧
      s.call rawSchema 1 (.key 1) = .ok c ∧
      c.thrown = some (.cursor "bad cursor db 0 table 0") ∧
      Reader.destruct d₁ c.session.writer = .ok (d₂, r) ∧
      d₂.m_env = oneEntry.m_env.insert [2] [2] ∧ d₂.m_env ≠ oneEntry.m_env := by
  refine ⟨_, _, _, _, _, ⟨.free, oneEntry.m_env.insert [2] [2]⟩, _, rfl, rfl, rfl, rfl, rfl, rfl,
    by decide⟩

end Zatestil.Database
