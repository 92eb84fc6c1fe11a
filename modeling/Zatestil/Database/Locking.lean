import Zatestil.Database.Session
import Zatestil.Library.Machine

/-!
# Transactions of many threads

Any number of transactions live on one database, each used by one thread; an interleaving is
a list of numbered actions. The actions cut the constructors, `openTable` and the destructor
where another thread can come between: the lock, the start of the native transaction, its
commit or abort, and the unlock are steps of their own. A transaction is named by a number,
which is also the owner that the mutex records.

`base`, `log`, `released` and `committed` of a running transaction and the `lockOrder` of a
system are observations that no step reads. `finished` counts the ends of the native
transaction, which has its handle as long as there was none.

1. The invariant ties the mutex to the objects that hold it (`Inv`), and every step keeps it
   (`inv_step`).
2. The main result reads the guarantees off the invariant (`transactions_serialisable`).
-/
namespace Zatestil.Database
open Library Util

/-- What an object was made for: `makeReader`, `makeWriter`, or the writer of `openTable`. -/
inductive Role where
  | reader
  | writer
  | openTable (name : String)
  deriving DecidableEq, Repr

def Role.kind : Role → LockKind
  | .reader => .shared
  | .writer | .openTable _ => .unique

/-- The transactions of `makeReader` and `makeWriter` belong to a scope of the caller. -/
def Role.scoped : Role → Bool
  | .reader | .writer => true
  | .openTable _ => false

/-- `Reader::commit` or `Reader::abort`. -/
inductive Ending where
  | commit
  | abort
  deriving DecidableEq, Repr

/-- Who called it: the body of `openTable`, or `~Reader`. -/
inductive Caller where
  | body
  | destructor
  deriving DecidableEq, Repr

/-- Where the code that uses a transaction stands. -/
inductive Pc where
  | opened
  | created
  | finishing (how : Ending) (caller : Caller)
  | unlocking (caller : Caller)
  | returned
  | destroyed
  | gone
  deriving DecidableEq, Repr

namespace Pc

/-- The native transaction is started and neither committed nor aborted. -/
def inProgress : Pc → Bool
  | .opened | .created | .finishing _ _ => true
  | .unlocking _ | .returned | .destroyed | .gone => false

/-- The lock is taken and not given back. -/
def holds : Pc → Bool
  | .opened | .created | .finishing _ _ | .unlocking _ => true
  | .returned | .destroyed | .gone => false

end Pc

/-- A transaction after its start. -/
structure Running (E : Mdbx) where
  role : Role
  pc : Pc
  session : Session E
  base : Content
  log : List Event
  finished : Nat
  released : Nat
  committed : Bool

/-- A transaction object from its constructor on. -/
inductive Object (E : Mdbx) where
  | constructed (role : Role)
  | locked (role : Role) (lock : Lock)
  | started (x : Running E)

/-- The steps of one transaction. -/
inductive Act (Value : Type) where
  | make (role : Role)
  | lock
  | start
  | call (fuel : Nat) (op : Op Value)
  | createMap
  | commit
  | leave
  | finish
  | unlock
  | members

/-- The operations that a scope with this role calls. -/
def Role.calls {Value : Type} (role : Role) (op : Op Value) : Bool :=
  match role with
  | .reader => op.onReader
  | .writer => true
  | .openTable _ => false

namespace Running

variable {E : Mdbx} {Value : Type}

def reader (x : Running E) : Reader E := x.session.writer

def txn (x : Running E) : E.Txn := x.reader.m_txn

def setReader (x : Running E) (r : Reader E) : Running E :=
  { x with session := { x.session with writer := r } }

/-- Back from `commit` or `abort`; the destructor then clears `m_isOpen`. -/
def back (x : Running E) : Caller → Running E
  | .body => { x with pc := .returned }
  | .destructor => { x.setReader { x.reader with m_isOpen := false } with pc := .destroyed }

/-- The first lines of `commit` and `abort`. -/
def enter (x : Running E) (how : Ending) (caller : Caller) : Running E :=
  if x.reader.m_isOpen then { x with pc := .finishing how caller } else x.back caller

/-- The choice of `~Reader`. -/
def ending (x : Running E) : Ending := if x.reader.m_result.isOk then .commit else .abort

/-- The end of the native transaction. Only `commit` clears `m_isOpen`. -/
def finish (d : Database E) (x : Running E) (caller : Caller) :
    Ending → Database E × Running E
  | .commit => ({ d with m_env := E.commit d.m_env x.txn },
      { x.setReader { x.reader with m_isOpen := false } with
        pc := .unlocking caller, finished := x.finished + 1, committed := true })
  | .abort => ({ d with m_env := E.abort d.m_env x.txn },
      { x with pc := .unlocking caller, finished := x.finished + 1 })

/-- The members are destroyed after the body of `~Reader`: a lock that is still owned would
be unlocked, and a native transaction that was not ended would be aborted. -/
def members (d : Database E) (x : Running E) : Database E × Running E :=
  let (d, x) := if x.reader.m_lock.owns then
      ({ d with m_mutex := d.m_mutex.release x.reader.m_lock.owner x.reader.m_lock.kind },
        { x with released := x.released + 1 })
    else (d, x)
  if x.finished = 0 then
    ({ d with m_env := E.abort d.m_env x.txn }, { x with pc := .gone, finished := 1 })
  else (d, { x with pc := .gone })

variable (S : Schema Value)

/-- A step of a started transaction; `none` if the code is not there, if the program ends, or
if a loop needs more fuel. -/
def step (d : Database E) (x : Running E) : Act Value → Option (Database E × Running E)
  | .call fuel op =>
    if x.pc = .opened ∧ x.role.calls op then
      match x.session.call S fuel op with
      | .ok c => some (d, { x with session := c.session, log := x.log ++ [c.event] })
      | .error _ => none
    else none
  | .createMap =>
    match x.role, x.pc with
    | .openTable name, .opened =>
      match E.createMap x.txn name with
      | .ok u => some (d, { x.setReader { x.reader with m_txn := u } with pc := .created })
      | .error _ => none
    | _, _ => none
  | .commit => if x.pc = .created then some (d, x.enter .commit .body) else none
  | .leave =>
    if (x.pc = .opened ∧ x.role.scoped) ∨ x.pc = .returned then
      some (d, x.enter x.ending .destructor)
    else none
  | .finish =>
    match x.pc with
    | .finishing how caller => some (x.finish d caller how)
    | _ => none
  | .unlock =>
    match x.pc with
    | .unlocking caller =>
      match Reader.unlock d x.reader with
      | .ok (d, r) => some (d, { x.setReader r with released := x.released + 1 }.back caller)
      | .error _ => none
    | _ => none
  | .members => if x.pc = .destroyed then some (x.members d) else none
  | .make _ | .lock | .start => none

end Running

namespace Object

variable {E : Mdbx} {Value : Type} (S : Schema Value)

/-- A step of the transaction `i`, which is `none` before its constructor. -/
def step (i : Nat) (d : Database E) :
    Option (Object E) → Act Value → Option (Database E × Object E)
  | none, .make role => some (d, .constructed role)
  | some (.constructed role), .lock => do
    let mutex ← d.m_mutex.acquire i role.kind
    return ({ d with m_mutex := mutex }, .locked role ⟨role.kind, i, true⟩)
  | some (.locked role lock), .start =>
    let r := { Reader.start role.kind i (Reader.startTxn d.m_env role.kind) with m_lock := lock }
    some (d, .started ⟨role, .opened, ⟨r, []⟩, E.content r.m_txn, [], 0, 0, false⟩)
  | some (.started x), a => do
    let (d, x) ← x.step S d a
    return (d, .started x)
  | _, _ => none

/-- The mode in which an object holds the mutex. -/
def holding : Option (Object E) → Option LockKind
  | some (.locked role _) => some role.kind
  | some (.started x) => if x.pc.holds then some x.role.kind else none
  | _ => none

/-- The object has taken the mutex at some time. -/
def acquired : Option (Object E) → Bool
  | some (.locked _ _) | some (.started _) => true
  | _ => false

/-- The events of a writer that has committed. -/
def committedLog : Option (Object E) → List Event
  | some (.started x) => if x.committed ∧ x.role.kind = .unique then x.log else []
  | _ => []

end Object

/-- A database and the transactions on it, with the order in which unique locks were taken. -/
structure System (E : Mdbx) where
  database : Database E
  object : Nat → Option (Object E)
  lockOrder : List Nat

namespace System

variable {E : Mdbx} {Value : Type} (S : Schema Value)

def init (d : Database E) : System E := ⟨d, fun _ => none, []⟩

def published (s : System E) : Content := E.published s.database.m_env

/-- The transaction `a.1` takes the step `a.2`. -/
def step (s : System E) (a : Nat × Act Value) : Option (System E) := do
  let (d, o) ← Object.step S a.1 s.database (s.object a.1) a.2
  let order := if Object.acquired (s.object a.1) then s.lockOrder
    else if Object.holding (some o) = some .unique then s.lockOrder ++ [a.1] else s.lockOrder
  return ⟨d, Function.update s.object a.1 (some o), order⟩

/-- The committed writers one after the other, in lock order. -/
def serial (s : System E) (initial : Content) : Content :=
  Event.applyAll initial (s.lockOrder.flatMap fun i => Object.committedLog (s.object i))

end System

/-! ## One transaction -/

/-- What a started transaction keeps, by where its code stands; `p` is what is published. -/
structure Running.Ok {E : Mdbx} (i : Nat) (p : Content) (x : Running E) : Prop where
  lock : x.reader.m_lock = ⟨x.role.kind, i, x.pc.holds⟩
  readonly : E.isReadonly x.txn = decide (x.role.kind = .shared)
  content : E.content x.txn = Event.applyAll x.base x.log
  reading : x.role.kind = .shared → Event.applyAll x.base x.log = x.base
  base : x.pc.inProgress → x.base = p
  finished : x.finished = if x.pc.inProgress then 0 else 1
  released : x.released = if x.pc.holds then 0 else 1
  committed : x.pc.inProgress → x.committed = false
  isOpen : x.pc.inProgress → x.reader.m_isOpen = true
  closed : x.pc = .unlocking .body ∨ x.pc = .returned → x.reader.m_isOpen = false
  body : ∀ how, x.pc = .finishing how .body → how = .commit

/-- An object that is not started holds no other lock than its own. -/
def Object.Ok {E : Mdbx} (i : Nat) (p : Content) : Object E → Prop
  | .constructed _ => True
  | .locked role lock => lock = ⟨role.kind, i, true⟩
  | .started x => x.Ok i p

namespace Running

variable {E : Mdbx} {Value : Type} {S : Schema Value} {i : Nat} {p : Content} {x : Running E}

theorem holds_of_inProgress {pc : Pc} (h : pc.inProgress = true) : pc.holds = true := by
  cases pc <;> first | rfl | cases h

/-- Entering `commit` or `abort` while the transaction is in progress. -/
theorem ok_enter (h : x.Ok i p) (how : Ending) (caller : Caller)
    (hpc : x.pc.inProgress = true) (hbody : caller = .body → how = .commit) :
    x.enter how caller = { x with pc := .finishing how caller } ∧
      (x.enter how caller).Ok i p := by
  have hholds := holds_of_inProgress hpc
  have heq : x.enter how caller = { x with pc := .finishing how caller } :=
    if_pos (h.isOpen hpc)
  rw [heq]
  refine ⟨rfl, ?_, h.readonly, h.content, h.reading, fun _ => h.base hpc, ?_, ?_,
    fun _ => h.committed hpc, fun _ => h.isOpen hpc, ?_, ?_⟩
  · exact h.lock.trans (by rw [hholds]; rfl)
  · exact h.finished.trans (by rw [hpc]; rfl)
  · exact h.released.trans (by rw [hholds]; rfl)
  · rintro (h | h) <;> cases h
  · intro how' h
    cases h
    exact hbody rfl

/-- The destructor after an explicit `commit`: `m_isOpen` keeps it from ending the native
transaction or unlocking again. -/
theorem ok_enter_returned (h : x.Ok i p) (how : Ending) (hpc : x.pc = .returned) :
    x.enter how .destructor = x.back .destructor ∧ (x.enter how .destructor).Ok i p := by
  have heq : x.enter how .destructor = x.back .destructor :=
    if_neg (by simp [h.closed (.inr hpc)])
  rw [heq]
  refine ⟨rfl, ?_, h.readonly, h.content, h.reading, nofun, ?_, ?_, nofun, nofun, ?_, nofun⟩
  · exact h.lock.trans (by rw [hpc]; rfl)
  · exact h.finished.trans (by rw [hpc]; rfl)
  · exact h.released.trans (by rw [hpc]; rfl)
  · rintro (h | h) <;> cases h

/-- A call keeps what a transaction keeps; only its log grows. -/
theorem ok_call (hE : E.Documented) (h : x.Ok i p) (hpc : x.pc = .opened) {fuel : Nat}
    {op : Op Value} (hop : x.role.calls op = true) {c : Called E}
    (hc : x.session.call S fuel op = .ok c) :
    ({ x with session := c.session, log := x.log ++ [c.event] } : Running E).Ok i p := by
  have hp := Session.call_performs hE hc
  have hcontent : E.content c.session.writer.m_txn =
      Event.applyAll x.base (x.log ++ [c.event]) := by
    rw [hp.content]
    exact (congrArg (c.event.apply ·) h.content).trans (by simp [Event.applyAll])
  refine ⟨hp.lock.trans h.lock, hp.readonly.trans h.readonly, hcontent, ?_, h.base, h.finished,
    h.released, h.committed, fun hpr => hp.isOpen.trans (h.isOpen hpr), ?_, h.body⟩
  · intro hshared
    have honReader : op.onReader = true := by
      cases hr : x.role <;> simp_all [Role.kind, Role.calls]
    calc Event.applyAll x.base (x.log ++ [c.event])
        = c.event.apply (Event.applyAll x.base x.log) := by simp [Event.applyAll]
      _ = Event.applyAll x.base x.log := Session.call_onReader hc honReader _
      _ = x.base := h.reading hshared
  · rintro (h | h) <;> simp [hpc] at h

/-- `create_map` is no operation on the table. -/
theorem ok_createMap (hE : E.Documented) (h : x.Ok i p) (hpc : x.pc = .opened) {name : String}
    {u : E.Txn} (hu : E.createMap x.txn name = .ok u) :
    ({ x.setReader { x.reader with m_txn := u } with pc := .created } : Running E).Ok i p := by
  obtain ⟨hcontent, hreadonly⟩ := hE.createMap_ok _ _ _ hu
  have hpr : x.pc.inProgress = true := by rw [hpc]; rfl
  refine ⟨?_, hreadonly.trans h.readonly, hcontent.trans h.content, h.reading,
    fun _ => h.base hpr, ?_, ?_, fun _ => h.committed hpr, fun _ => h.isOpen hpr, ?_, nofun⟩
  · exact h.lock.trans (by rw [hpc]; rfl)
  · exact h.finished.trans (by rw [hpc]; rfl)
  · exact h.released.trans (by rw [hpc]; rfl)
  · rintro (h | h) <;> cases h

/-- The end of the native transaction, with the lock still held. -/
theorem ok_finish (h : x.Ok i p) {d : Database E} {how : Ending} {caller : Caller}
    (hpc : x.pc = .finishing how caller) (q : Content) : (x.finish d caller how).2.Ok i q := by
  have hreleased : x.released = 0 := h.released.trans (by rw [hpc]; rfl)
  have hfinished : x.finished = 0 := h.finished.trans (by rw [hpc]; rfl)
  have hlock : x.reader.m_lock = ⟨x.role.kind, i, true⟩ := h.lock.trans (by rw [hpc]; rfl)
  cases how with
  | commit =>
    refine ⟨hlock, h.readonly, h.content, h.reading, nofun, ?_, hreleased, nofun, nofun,
      fun _ => rfl, nofun⟩
    simp [finish, hfinished, Pc.inProgress]
  | abort =>
    refine ⟨hlock, h.readonly, h.content, h.reading, nofun, ?_, hreleased, nofun, nofun,
      ?_, nofun⟩
    · simp [finish, hfinished, Pc.inProgress]
    · rintro (hbody | hbody)
      · cases hbody
        cases h.body _ hpc
      · cases hbody

/-- Giving the lock back and returning to the caller. -/
theorem ok_unlock (h : x.Ok i p) {caller : Caller} (hpc : x.pc = .unlocking caller)
    (d : Database E) :
    ∃ r, Reader.unlock d x.reader =
        .ok ({ d with m_mutex := d.m_mutex.release i x.role.kind }, r) ∧
      (({ x.setReader r with released := x.released + 1 } : Running E).back caller).Ok i p := by
  have hlock : x.reader.m_lock = ⟨x.role.kind, i, true⟩ := h.lock.trans (by rw [hpc]; rfl)
  have hreleased : x.released = 0 := h.released.trans (by rw [hpc]; rfl)
  have hfinished : x.finished = 1 := h.finished.trans (by rw [hpc]; rfl)
  refine ⟨{ x.reader with m_lock := ⟨x.role.kind, i, false⟩ }, ?_, ?_⟩
  · simp [Reader.unlock, hlock]
  · cases caller with
    | body =>
      refine ⟨rfl, h.readonly, h.content, h.reading, fun hpc' => ?_, hfinished,
        congrArg (· + 1) hreleased, fun hpc' => ?_, fun hpc' => ?_,
        fun _ => h.closed (.inl hpc), fun _ hpc' => ?_⟩
      all_goals cases hpc'
    | destructor =>
      refine ⟨rfl, h.readonly, h.content, h.reading, fun hpc' => ?_, hfinished,
        congrArg (· + 1) hreleased, fun hpc' => ?_, fun hpc' => ?_, fun _ => rfl,
        fun _ hpc' => ?_⟩
      all_goals cases hpc'

/-- Nothing is left to do for the members. -/
theorem ok_members (h : x.Ok i p) (hpc : x.pc = .destroyed) (d : Database E) :
    x.members d = (d, { x with pc := .gone }) ∧ ({ x with pc := .gone } : Running E).Ok i p := by
  have hlock : x.reader.m_lock = ⟨x.role.kind, i, false⟩ := h.lock.trans (by rw [hpc]; rfl)
  have hreleased : x.released = 1 := h.released.trans (by rw [hpc]; rfl)
  have hfinished : x.finished = 1 := h.finished.trans (by rw [hpc]; rfl)
  refine ⟨by simp [members, hlock, hfinished], ?_⟩
  refine ⟨hlock, h.readonly, h.content, h.reading, nofun, hfinished, hreleased, nofun, nofun,
    ?_, nofun⟩
  rintro (h | h) <;> cases h

/-- Taken without interruption, the steps of the destructor are `~Reader`. -/
theorem destruct_steps (h : x.Ok i p) (hpc : x.pc = .opened) (hrole : x.role.scoped = true)
    (d : Database E) :
    ∃ d' y, exec (fun (q : Database E × Running E) (a : Act Value) => q.2.step S q.1 a) (d, x)
        [.leave, .finish, .unlock] = some (d', y) ∧
      Reader.destruct d x.reader = .ok (d', y.reader) ∧ y.pc = .destroyed := by
  have hopen : x.session.writer.m_isOpen = true := h.isOpen (by rw [hpc]; rfl)
  have hlock : x.session.writer.m_lock = ⟨x.role.kind, i, true⟩ :=
    h.lock.trans (by rw [hpc]; rfl)
  have hlive : x.reader.Live := ⟨hopen, by rw [reader, hlock]⟩
  rw [Reader.destruct_live hlive d]
  by_cases hok : x.session.writer.m_result.isOk = true
  · simp [exec, step, hpc, hrole, enter, ending, hok, hopen, finish, setReader, reader,
      Reader.unlock, hlock, back, txn]
  · simp [exec, step, hpc, hrole, enter, ending, hok, hopen, finish, setReader, reader,
      Reader.unlock, hlock, back, txn]

end Running

/-! ## What a step can do to the database -/

/-- The four effects of a step of the transaction `i` on the database and on what others see
of the transaction. -/
inductive Effect {E : Mdbx} (i : Nat) (d : Database E) (o : Option (Object E))
    (d' : Database E) (o' : Object E) : Prop where
  | quiet (mutex : d'.m_mutex = d.m_mutex)
      (published : E.published d'.m_env = E.published d.m_env)
      (holding : Object.holding (some o') = Object.holding o)
      (log : Object.committedLog (some o') = Object.committedLog o)
  | acquires (kind : LockKind) (mutex : d.m_mutex.acquire i kind = some d'.m_mutex)
      (published : E.published d'.m_env = E.published d.m_env)
      (before : Object.acquired o = false)
      (holding : Object.holding (some o') = some kind)
      (log : Object.committedLog (some o') = Object.committedLog o)
  | publishes (mutex : d'.m_mutex = d.m_mutex)
      (before : Object.holding o = some .unique)
      (holding : Object.holding (some o') = some .unique)
      (log : Object.committedLog o = [])
      (published : E.published d'.m_env =
        Event.applyAll (E.published d.m_env) (Object.committedLog (some o')))
  | releases (kind : LockKind) (mutex : d'.m_mutex = d.m_mutex.release i kind)
      (published : E.published d'.m_env = E.published d.m_env)
      (before : Object.holding o = some kind)
      (holding : Object.holding (some o') = none)
      (log : Object.committedLog (some o') = Object.committedLog o)

namespace Running

variable {E : Mdbx} {Value : Type} {S : Schema Value} {i : Nat} {d d' : Database E}
  {x x' : Running E}

/-- Only the commit of a writer publishes anything. -/
theorem effect_finish (hT : E.Transactional) (h : x.Ok i (E.published d.m_env)) {how : Ending}
    {caller : Caller} (hpc : x.pc = .finishing how caller) :
    Effect i d (some (.started x)) (x.finish d caller how).1
      (.started (x.finish d caller how).2) := by
  have hpr : x.pc.inProgress = true := by rw [hpc]; rfl
  have hholds := holds_of_inProgress hpr
  have hcommitted := h.committed hpr
  have hlog : Object.committedLog (some (.started x)) = [] := by
    simp [Object.committedLog, hcommitted]
  cases how with
  | abort =>
    refine .quiet rfl (hT.abort_published _ _) ?_ ?_
    · exact (if_pos hholds).symm
    · simp [finish, Object.committedLog, hcommitted]
  | commit =>
    have hreadonly := h.readonly
    by_cases hkind : x.role.kind = .shared
    · refine .quiet rfl (hT.commit_read _ _ (by simp [hreadonly, hkind])) ?_ ?_
      · exact (if_pos hholds).symm
      · simp [finish, setReader, Object.committedLog, hkind]
    · have hunique : x.role.kind = .unique := by
        cases hk : x.role.kind
        · exact absurd hk hkind
        · rfl
      refine .publishes rfl ?_ ?_ hlog ?_
      · simp [Object.holding, hholds, hunique]
      · simp [finish, setReader, Object.holding, hunique, Pc.holds]
      · have hcommit := hT.commit_write d.m_env x.txn (by simp [hreadonly, hkind])
        rw [h.content, h.base hpr] at hcommit
        simpa [finish, setReader, Object.committedLog, hunique] using hcommit

theorem step_effect (hE : E.Documented) (hT : E.Transactional)
    (h : x.Ok i (E.published d.m_env)) {a : Act Value} (hs : x.step S d a = some (d', x')) :
    Effect i d (some (.started x)) d' (.started x') ∧ x'.Ok i (E.published d'.m_env) := by
  cases a with
  | make | lock | start => cases hs
  | call fuel op =>
    simp only [step] at hs
    split_ifs at hs with hcond
    obtain ⟨hpc, hop⟩ := hcond
    split at hs
    · rename_i c hc
      cases hs
      refine ⟨.quiet rfl rfl rfl ?_, ok_call hE h hpc hop hc⟩
      have hcommitted := h.committed (by rw [hpc]; rfl)
      simp [Object.committedLog, hcommitted]
    · cases hs
  | createMap =>
    simp only [step] at hs
    split at hs
    · rename_i name hrole hpc
      split at hs
      · rename_i u hu
        cases hs
        refine ⟨.quiet rfl rfl ?_ rfl, ok_createMap hE h hpc hu⟩
        simp [Object.holding, hpc, Pc.holds, setReader]
      · cases hs
    · cases hs
  | commit =>
    simp only [step] at hs
    split_ifs at hs with hpc
    cases hs
    obtain ⟨heq, hok⟩ := ok_enter h .commit .body (by rw [hpc]; rfl) (fun _ => rfl)
    refine ⟨?_, hok⟩
    rw [heq]
    exact .quiet rfl rfl (by simp [Object.holding, hpc, Pc.holds]) rfl
  | leave =>
    simp only [step] at hs
    split_ifs at hs with hcond
    cases hs
    rcases hcond with ⟨hpc, -⟩ | hpc
    · obtain ⟨heq, hok⟩ := ok_enter h x.ending .destructor (by rw [hpc]; rfl) nofun
      refine ⟨?_, hok⟩
      rw [heq]
      exact .quiet rfl rfl (by simp [Object.holding, hpc, Pc.holds]) rfl
    · obtain ⟨heq, hok⟩ := ok_enter_returned h x.ending hpc
      refine ⟨?_, hok⟩
      rw [heq]
      exact .quiet rfl rfl (by simp [Object.holding, hpc, Pc.holds, back]) rfl
  | finish =>
    simp only [step] at hs
    split at hs
    · rename_i how caller hpc
      have heffect := effect_finish hT h hpc
      have hok := ok_finish (d := d) h hpc (E.published d'.m_env)
      rw [Option.some.inj hs] at heffect hok
      exact ⟨heffect, hok⟩
    · cases hs
  | unlock =>
    simp only [step] at hs
    split at hs
    · rename_i caller hpc
      obtain ⟨r, hr, hok⟩ := ok_unlock h hpc d
      rw [hr] at hs
      cases hs
      refine ⟨.releases x.role.kind rfl rfl ?_ ?_ ?_, hok⟩
      · simp [Object.holding, hpc, Pc.holds]
      · cases caller <;> simp [Object.holding, back, Pc.holds, setReader]
      · cases caller <;> rfl
    · cases hs
  | members =>
    simp only [step] at hs
    split_ifs at hs with hpc
    obtain ⟨heq, hok⟩ := ok_members h hpc d
    rw [heq] at hs
    cases hs
    exact ⟨.quiet rfl rfl (by simp [Object.holding, hpc, Pc.holds]) rfl, hok⟩

end Running

namespace Object

variable {E : Mdbx} {Value : Type} {S : Schema Value} {i : Nat} {d d' : Database E}

theorem holding_of_not_acquired {o : Option (Object E)} (h : acquired o = false) :
    holding o = none := by
  rcases o with _ | _ | _ | _ <;> first | rfl | cases h

theorem acquired_of_holding {o : Option (Object E)} {kind : LockKind}
    (h : holding o = some kind) : acquired o = true := by
  by_contra hno
  rw [holding_of_not_acquired (by simpa using hno)] at h
  cases h

/-- An object that holds nothing does not mind what others publish. -/
theorem Ok.of_not_holding {o : Object E} {p q : Content} (h : o.Ok i p)
    (hno : holding (some o) = none) : o.Ok i q := by
  cases o with
  | constructed => trivial
  | locked => cases hno
  | started x =>
    have hpr : ¬ x.pc.inProgress = true := by
      intro hpr
      simp [holding, Running.holds_of_inProgress hpr] at hno
    exact ⟨h.lock, h.readonly, h.content, h.reading, fun hp => absurd hp hpr, h.finished,
      h.released, h.committed, h.isOpen, h.closed, h.body⟩

theorem step_effect (hE : E.Documented) (hT : E.Transactional) {o : Option (Object E)}
    {o' : Object E} (h : ∀ x, o = some x → x.Ok i (E.published d.m_env)) {a : Act Value}
    (hs : step S i d o a = some (d', o')) :
    Effect i d o d' o' ∧ o'.Ok i (E.published d'.m_env) ∧
      (acquired o = true → acquired (some o') = true) := by
  rcases o with _ | role | ⟨role, lock⟩ | x
  · cases a with
    | make role =>
      cases hs
      exact ⟨.quiet rfl rfl rfl rfl, trivial, nofun⟩
    | _ => cases hs
  · cases a with
    | lock =>
      obtain ⟨m, hm, hs⟩ := Option.bind_eq_some_iff.mp hs
      cases hs
      exact ⟨.acquires role.kind hm rfl rfl rfl rfl, rfl, nofun⟩
    | _ => cases hs
  · cases a with
    | start =>
      cases hs
      have hlock : lock = ⟨role.kind, i, true⟩ := h _ rfl
      refine ⟨.quiet rfl rfl rfl rfl, ?_, fun _ => rfl⟩
      have hstart : E.content (Reader.startTxn d.m_env role.kind) = E.published d.m_env ∧
          E.isReadonly (Reader.startTxn d.m_env role.kind) = decide (role.kind = .shared) := by
        cases role.kind with
        | shared => exact ⟨hT.startRead_content _, hT.startRead_readonly _⟩
        | unique => exact ⟨hT.startWrite_content _, hT.startWrite_readonly _⟩
      exact ⟨hlock, hstart.2, rfl, fun _ => rfl, fun _ => hstart.1, rfl, rfl, fun _ => rfl,
        fun _ => rfl, nofun, nofun⟩
    | _ => cases hs
  · obtain ⟨⟨d₁, x'⟩, hx, hs⟩ := Option.bind_eq_some_iff.mp hs
    cases hs
    obtain ⟨heffect, hok⟩ := Running.step_effect hE hT (h _ rfl) hx
    exact ⟨heffect, hok, fun _ => rfl⟩

end Object

/-! ## All transactions -/

namespace System

variable {E : Mdbx} {Value : Type} {S : Schema Value} {initial : Content} {s t : System E}
  {i : Nat}

/-- The owners of the mutex are the objects that hold it, and the committed writers in lock
order make up what is published. -/
structure Inv (initial : Content) (s : System E) : Prop where
  shared : ∀ i, i ∈ s.database.m_mutex.shared ↔ Object.holding (s.object i) = some .shared
  unique : ∀ i, s.database.m_mutex.unique = some i ↔
    Object.holding (s.object i) = some .unique
  exclusive : s.database.m_mutex.unique = none ∨ s.database.m_mutex.shared = ∅
  ok : ∀ i o, s.object i = some o → o.Ok i s.published
  nodup : s.lockOrder.Nodup
  acquired : ∀ i ∈ s.lockOrder, Object.acquired (s.object i) = true
  last : ∀ i, s.database.m_mutex.unique = some i → s.lockOrder.getLast? = some i
  serial : s.published = s.serial initial

theorem inv_init (d : Database E) (hd : d.m_mutex = .free) :
    Inv (E.published d.m_env) (init d) where
  shared i := by simp [init, hd, SharedMutex.free, Object.holding]
  unique i := by simp [init, hd, SharedMutex.free, Object.holding]
  exclusive := .inl (by simp [init, hd, SharedMutex.free])
  ok i o h := by cases h
  nodup := List.nodup_nil
  acquired i h := by cases h
  last i h := by simp [init, hd, SharedMutex.free] at h
  serial := rfl

/-- Whoever holds the mutex in the unique mode is alone. -/
theorem Inv.alone (h : Inv initial s) {j : Nat} {kind : LockKind}
    (hi : Object.holding (s.object i) = some .unique)
    (hj : Object.holding (s.object j) = some kind) : j = i := by
  have hu := (h.unique i).mpr hi
  cases kind with
  | unique =>
    rw [(h.unique j).mpr hj] at hu
    exact Option.some.inj hu
  | shared =>
    have hmem := (h.shared j).mpr hj
    rcases h.exclusive with hnone | hempty
    · simp [hnone] at hu
    · simp [hempty] at hmem

/-- An update at `i` does not touch the committed logs of the others. -/
theorem flatMap_update {o' : Object E} {order : List Nat}
    (h : i ∈ order → Object.committedLog (some o') = Object.committedLog (s.object i)) :
    (order.flatMap fun j => Object.committedLog (Function.update s.object i (some o') j)) =
      order.flatMap fun j => Object.committedLog (s.object j) := by
  refine List.flatMap_congr fun j hj => ?_
  by_cases hji : j = i
  · subst hji
    simpa using h hj
  · simp [Function.update_of_ne hji]

/-- The state after a step of the transaction `i`. -/
def after (s : System E) (i : Nat) (d : Database E) (o : Object E) (order : List Nat) :
    System E := ⟨d, Function.update s.object i (some o), order⟩

variable {d : Database E} {o : Object E}

@[simp] theorem after_object_self (order : List Nat) : (s.after i d o order).object i = some o :=
  Function.update_self ..

theorem after_object_of_ne {j : Nat} (hj : j ≠ i) (order : List Nat) :
    (s.after i d o order).object j = s.object j := Function.update_of_ne hj ..

/-- What `i` holds is said by the new object, what the others hold by the old ones. -/
theorem holding_after (order : List Nat) (j : Nat) :
    Object.holding ((s.after i d o order).object j) =
      if j = i then Object.holding (some o) else Object.holding (s.object j) := by
  by_cases hj : j = i
  · subst hj
    simp
  · simp [after_object_of_ne hj, hj]

theorem Inv.ok_after (h : Inv initial s) (hok : o.Ok i (E.published d.m_env))
    (hp : ∀ j x, j ≠ i → s.object j = some x → E.published d.m_env = s.published ∨
      Object.holding (some x) = none) (order : List Nat) :
    ∀ j x, (s.after i d o order).object j = some x → x.Ok j (E.published d.m_env) := by
  intro j x hx
  by_cases hj : j = i
  · subst hj
    simp only [after_object_self, Option.some.injEq] at hx
    exact hx ▸ hok
  · rw [after_object_of_ne hj] at hx
    rcases hp j x hj hx with hp | hno
    · exact hp ▸ h.ok j x hx
    · exact (h.ok j x hx).of_not_holding hno

theorem Inv.acquired_after (h : Inv initial s)
    (ho : Object.acquired (s.object i) = true → Object.acquired (some o) = true)
    (order : List Nat) :
    ∀ j ∈ s.lockOrder, Object.acquired ((s.after i d o order).object j) = true := by
  intro j hj
  have hold := h.acquired j hj
  by_cases hji : j = i
  · subst hji
    simpa using ho hold
  · rwa [after_object_of_ne hji]

/-- A step that leaves the mutex to those who hold it. -/
theorem Inv.steady (h : Inv initial s)
    (hok : ∀ j x, (s.after i d o s.lockOrder).object j = some x → x.Ok j (E.published d.m_env))
    (ho : Object.acquired (s.object i) = true → Object.acquired (some o) = true)
    (mutex : d.m_mutex = s.database.m_mutex)
    (holding : Object.holding (some o) = Object.holding (s.object i))
    (serial : E.published d.m_env = (s.after i d o s.lockOrder).serial initial) :
    Inv initial (s.after i d o s.lockOrder) := by
  have hsame : ∀ j, Object.holding ((s.after i d o s.lockOrder).object j) =
      Object.holding (s.object j) := by
    intro j
    rw [holding_after]
    split_ifs with hj
    · rw [hj, holding]
    · rfl
  refine ⟨?_, ?_, ?_, hok, h.nodup, h.acquired_after ho _, ?_, serial⟩
  · intro j
    rw [hsame]
    exact mutex ▸ h.shared j
  · intro j
    rw [hsame]
    exact mutex ▸ h.unique j
  · exact mutex ▸ h.exclusive
  · exact fun j hj => h.last j (mutex ▸ hj)

theorem Inv.quiet (h : Inv initial s) (hok : o.Ok i (E.published d.m_env))
    (ho : Object.acquired (s.object i) = true → Object.acquired (some o) = true)
    (mutex : d.m_mutex = s.database.m_mutex) (published : E.published d.m_env = s.published)
    (holding : Object.holding (some o) = Object.holding (s.object i))
    (log : Object.committedLog (some o) = Object.committedLog (s.object i)) :
    Inv initial (s.after i d o s.lockOrder) := by
  refine h.steady (h.ok_after hok (fun _ _ _ _ => .inl published) _) ho mutex holding ?_
  calc E.published d.m_env = s.serial initial := published.trans h.serial
    _ = (s.after i d o s.lockOrder).serial initial :=
      congrArg (Event.applyAll initial) (flatMap_update fun _ => log).symm

/-- A writer that publishes is the last in lock order, so its events come last. -/
theorem Inv.publishes (h : Inv initial s) (hok : o.Ok i (E.published d.m_env))
    (mutex : d.m_mutex = s.database.m_mutex)
    (before : Object.holding (s.object i) = some .unique)
    (holding : Object.holding (some o) = some .unique)
    (log : Object.committedLog (s.object i) = [])
    (published : E.published d.m_env =
      Event.applyAll s.published (Object.committedLog (some o))) :
    Inv initial (s.after i d o s.lockOrder) := by
  have hothers : ∀ j x, j ≠ i → s.object j = some x → E.published d.m_env = s.published ∨
      Object.holding (some x) = none := by
    intro j x hj hx
    right
    by_contra hne
    obtain ⟨kind, hkind⟩ := Option.ne_none_iff_exists'.mp hne
    exact hj (h.alone before (hx ▸ hkind))
  obtain ⟨order, hlast⟩ := List.getLast?_eq_some_iff.mp (h.last i ((h.unique i).mpr before))
  have hnot : i ∉ order := by
    intro hmem
    have hnodup := h.nodup
    rw [hlast, List.nodup_append] at hnodup
    exact hnodup.2.2 i hmem i (List.mem_singleton_self i) rfl
  have hold : s.published = Event.applyAll initial
      (order.flatMap fun j => Object.committedLog (s.object j)) := by
    rw [h.serial, System.serial, hlast]
    simp [log]
  have hnew : (s.after i d o s.lockOrder).serial initial = Event.applyAll initial
      ((order.flatMap fun j => Object.committedLog (s.object j)) ++
        Object.committedLog (some o)) := by
    rw [System.serial, after, hlast, List.flatMap_append,
      flatMap_update fun hmem => absurd hmem hnot]
    simp
  refine h.steady (h.ok_after hok hothers _) (fun _ => Object.acquired_of_holding holding) mutex
    (holding.trans before.symm) ?_
  rw [hnew, published, hold]
  simp [Event.applyAll]

/-- Taking the mutex: alone, or together with other readers. -/
theorem Inv.acquires (h : Inv initial s) (hok : o.Ok i (E.published d.m_env))
    {kind : LockKind} (mutex : s.database.m_mutex.acquire i kind = some d.m_mutex)
    (published : E.published d.m_env = s.published)
    (before : Object.acquired (s.object i) = false)
    (holding : Object.holding (some o) = some kind)
    (log : Object.committedLog (some o) = Object.committedLog (s.object i)) :
    Inv initial (s.after i d o
      (if some kind = some .unique then s.lockOrder ++ [i] else s.lockOrder)) := by
  have hfree := Object.holding_of_not_acquired before
  have hnot : i ∉ s.lockOrder := by
    intro hmem
    rw [h.acquired i hmem] at before
    cases before
  have hacq : Object.acquired (some o) = true := Object.acquired_of_holding holding
  have hlog : Object.committedLog (some o) = [] := by
    rw [log]
    rcases ho : s.object i with _ | _ | _ | _ <;> simp_all [Object.committedLog, Object.acquired]
  cases kind with
  | shared =>
    simp only [SharedMutex.acquire, Option.ite_none_right_eq_some, Option.some.injEq] at mutex
    obtain ⟨hnone, hm⟩ := mutex
    rw [if_neg (by simp)]
    refine ⟨?_, ?_, .inl ?_, h.ok_after hok (fun _ _ _ _ => .inl published) _, h.nodup,
      h.acquired_after (fun _ => hacq) _, ?_, ?_⟩
    · intro j
      rw [holding_after, after, ← hm]
      split_ifs with hj
      · simp [hj, holding]
      · simp [hj, h.shared j]
    · intro j
      rw [holding_after, after, ← hm]
      split_ifs with hj
      · simp [holding, hnone]
      · exact h.unique j
    · rw [after, ← hm]
      exact hnone
    · intro j hj
      rw [after, ← hm] at hj
      exact h.last j hj
    · calc E.published d.m_env = s.serial initial := published.trans h.serial
        _ = (s.after i d o s.lockOrder).serial initial :=
          congrArg (Event.applyAll initial) (flatMap_update fun _ => log).symm
  | unique =>
    simp only [SharedMutex.acquire, Option.ite_none_right_eq_some, Option.some.injEq] at mutex
    obtain ⟨⟨hnone, hempty⟩, hm⟩ := mutex
    rw [if_pos rfl]
    refine ⟨?_, ?_, .inr ?_, h.ok_after hok (fun _ _ _ _ => .inl published) _, ?_, ?_, ?_, ?_⟩
    · intro j
      rw [holding_after, after, ← hm]
      split_ifs with hj
      · simp [hempty, holding]
      · exact h.shared j
    · intro j
      rw [holding_after, after, ← hm]
      split_ifs with hj
      · simp [holding, hj]
      · rw [← h.unique j, hnone]
        simp [Ne.symm hj]
    · rw [after, ← hm]
      exact hempty
    · exact h.nodup.append (List.nodup_singleton i) (by simpa using hnot)
    · intro j hj
      rcases List.mem_append.mp hj with hj | hj
      · exact h.acquired_after (fun _ => hacq) _ j hj
      · rw [List.mem_singleton.mp hj]
        simpa using hacq
    · intro j hj
      rw [after, ← hm] at hj
      simpa [after] using hj
    · calc E.published d.m_env = s.serial initial := published.trans h.serial
        _ = (s.after i d o (s.lockOrder ++ [i])).serial initial := by
          rw [System.serial, System.serial, after, List.flatMap_append,
            flatMap_update fun _ => log]
          simp [hlog]

theorem Inv.releases (h : Inv initial s) (hok : o.Ok i (E.published d.m_env))
    (ho : Object.acquired (s.object i) = true → Object.acquired (some o) = true)
    {kind : LockKind} (mutex : d.m_mutex = s.database.m_mutex.release i kind)
    (published : E.published d.m_env = s.published)
    (before : Object.holding (s.object i) = some kind)
    (holding : Object.holding (some o) = none)
    (log : Object.committedLog (some o) = Object.committedLog (s.object i)) :
    Inv initial (s.after i d o s.lockOrder) := by
  have hserial : E.published d.m_env = (s.after i d o s.lockOrder).serial initial :=
    calc E.published d.m_env = s.serial initial := published.trans h.serial
      _ = (s.after i d o s.lockOrder).serial initial :=
        congrArg (Event.applyAll initial) (flatMap_update fun _ => log).symm
  cases kind with
  | shared =>
    refine ⟨?_, ?_, ?_, h.ok_after hok (fun _ _ _ _ => .inl published) _, h.nodup,
      h.acquired_after ho _, ?_, hserial⟩
    · intro j
      rw [holding_after, after, mutex]
      split_ifs with hj
      · simp [SharedMutex.release, hj, holding]
      · simp [SharedMutex.release, hj, h.shared j]
    · intro j
      rw [holding_after, after, mutex]
      split_ifs with hj
      · rw [hj, holding]
        simp [SharedMutex.release, h.unique i, before]
      · exact h.unique j
    · rw [after, mutex]
      exact h.exclusive.imp id fun hempty => by simp [SharedMutex.release, hempty]
    · intro j hj
      rw [after, mutex] at hj
      exact h.last j hj
  | unique =>
    have hempty : s.database.m_mutex.shared = ∅ :=
      h.exclusive.resolve_left (by simp [(h.unique i).mpr before])
    refine ⟨?_, ?_, .inl (by rw [after, mutex]; rfl),
      h.ok_after hok (fun _ _ _ _ => .inl published) _, h.nodup, h.acquired_after ho _, ?_,
      hserial⟩
    · intro j
      rw [holding_after, after, mutex]
      split_ifs with hj
      · simp [SharedMutex.release, hempty, holding]
      · exact h.shared j
    · intro j
      rw [holding_after, after, mutex]
      split_ifs with hj
      · simp [SharedMutex.release, holding]
      · simp only [SharedMutex.release, reduceCtorEq, false_iff]
        exact fun hj' => hj (h.alone before hj')
    · intro j hj
      rw [after, mutex] at hj
      cases hj

/-- One step of any transaction. -/
theorem inv_step (hE : E.Documented) (hT : E.Transactional) {a : Nat × Act Value}
    (h : Inv initial s) (hs : step S s a = some t) : Inv initial t := by
  obtain ⟨⟨d, o⟩, ho, hs⟩ := Option.bind_eq_some_iff.mp hs
  cases hs
  obtain ⟨heffect, hok, hacq⟩ := Object.step_effect hE hT (h.ok a.1) ho
  by_cases hold : Object.acquired (s.object a.1) = true
  · rw [if_pos hold]
    cases heffect with
    | quiet mutex published holding log => exact h.quiet hok hacq mutex published holding log
    | acquires kind mutex published before => simp [hold] at before
    | publishes mutex before holding log published =>
      exact h.publishes hok mutex before holding log published
    | releases kind mutex published before holding log =>
      exact h.releases hok hacq mutex published before holding log
  · rw [if_neg hold]
    have hfree := Object.holding_of_not_acquired (by simpa using hold)
    cases heffect with
    | quiet mutex published holding log =>
      rw [if_neg (by simp [holding, hfree])]
      exact h.quiet hok hacq mutex published holding log
    | acquires kind mutex published before holding log =>
      rw [holding]
      exact h.acquires hok mutex published before holding log
    | publishes mutex before => simp [hfree] at before
    | releases kind mutex published before => simp [hfree] at before

theorem inv_exec (hE : E.Documented) (hT : E.Transactional) {d : Database E}
    (hd : d.m_mutex = .free) {as : List (Nat × Act Value)}
    (h : exec (step S) (init d) as = some s) : Inv (E.published d.m_env) s :=
  exec_induct (fun _ _ _ => inv_step hE hT) (inv_init d hd) h

/-- A transaction in progress holds the mutex in its mode. -/
theorem holding_of_inProgress {x : Running E} (hx : s.object i = some (.started x))
    (hpr : x.pc.inProgress = true) : Object.holding (s.object i) = some x.role.kind := by
  simp [hx, Object.holding, Running.holds_of_inProgress hpr]

/-- The constructor starts the native transaction on what is published. -/
theorem start_base (hT : E.Transactional) (hs : step S s (i, .start) = some t) :
    ∃ x, t.object i = some (.started x) ∧ E.content x.txn = s.published ∧
      x.base = s.published := by
  obtain ⟨⟨d, o⟩, ho, hs⟩ := Option.bind_eq_some_iff.mp hs
  cases hs
  have hstart : ∀ kind, E.content (Reader.startTxn s.database.m_env kind) = s.published := by
    intro kind
    cases kind with
    | shared => exact hT.startRead_content _
    | unique => exact hT.startWrite_content _
  rcases hobj : s.object i with _ | role | ⟨role, lock⟩ | x
  · simp [hobj, Object.step] at ho
  · simp [hobj, Object.step] at ho
  · simp only [hobj, Object.step, Option.some.injEq, Prod.mk.injEq] at ho
    obtain ⟨rfl, rfl⟩ := ho
    exact ⟨_, Function.update_self .., hstart role.kind, hstart role.kind⟩
  · simp [hobj, Object.step, Running.step] at ho

end System

/-- Readers and writers are serialisable. In every interleaving of transactions on a database:

* a writer in progress is the only transaction in progress;
* every transaction starts from what is published, which stays so until the transaction ends,
  and a reader sees nothing else;
* what is published is the composition of the committed writers in lock order;
* a native transaction is ended at most once, and the lock is released at most once and not
  before that; the unlock finds its lock owned; and when the object is gone both have
  happened. -/
theorem transactions_serialisable {E : Mdbx} {Value : Type} {S : Schema Value}
    (hE : E.Documented) (hT : E.Transactional) {d : Database E} (hd : d.m_mutex = .free)
    {as : List (Nat × Act Value)} {s : System E}
    (h : exec (System.step S) (System.init d) as = some s) :
    (∀ i j x y, s.object i = some (.started x) → s.object j = some (.started y) →
      x.role ≠ .reader → x.pc.inProgress = true → y.pc.inProgress = true → j = i) ∧
    (∀ i t, System.step S s (i, .start) = some t → ∃ x, t.object i = some (.started x) ∧
      x.base = s.serial (E.published d.m_env) ∧ E.content x.txn = x.base) ∧
    (∀ i x, s.object i = some (.started x) → x.pc.inProgress = true →
      x.base = s.serial (E.published d.m_env) ∧
      E.content x.txn = Event.applyAll x.base x.log ∧
      (x.role = .reader → E.content x.txn = x.base)) ∧
    s.published = s.serial (E.published d.m_env) ∧
    (∀ i x, s.object i = some (.started x) →
      x.finished ≤ 1 ∧ x.released ≤ x.finished ∧
      (∀ caller, x.pc = .unlocking caller →
        x.finished = 1 ∧ x.reader.m_lock = ⟨x.role.kind, i, true⟩) ∧
      (x.pc = .destroyed ∨ x.pc = .gone → x.finished = 1 ∧ x.released = 1)) := by
  have hinv := System.inv_exec hE hT hd h
  refine ⟨?_, ?_, ?_, hinv.serial, ?_⟩
  · intro i j x y hx hy hrole hxp hyp
    have hkind : x.role.kind = .unique := by
      cases hr : x.role with
      | reader => exact absurd hr hrole
      | writer | openTable => rfl
    have hi := System.holding_of_inProgress hx hxp
    rw [hkind] at hi
    exact hinv.alone hi (System.holding_of_inProgress hy hyp)
  · intro i t ht
    obtain ⟨x, hx, hcontent, hbase⟩ := System.start_base hT ht
    exact ⟨x, hx, hbase.trans hinv.serial, hcontent.trans hbase.symm⟩
  · intro i x hx hpr
    have hok : x.Ok i s.published := hinv.ok i _ hx
    refine ⟨(hok.base hpr).trans hinv.serial, hok.content, fun hrole => ?_⟩
    rw [hok.content, hok.reading (by rw [hrole]; rfl)]
  · intro i x hx
    have hok : x.Ok i s.published := hinv.ok i _ hx
    have hfinished := hok.finished
    have hreleased := hok.released
    refine ⟨?_, ?_, ?_, ?_⟩
    · split_ifs at hfinished <;> omega
    · by_cases hpr : x.pc.inProgress = true
      · rw [if_pos (Running.holds_of_inProgress hpr)] at hreleased
        omega
      · rw [if_neg hpr] at hfinished
        split_ifs at hreleased <;> omega
    · intro caller hpc
      have hlock := hok.lock
      rw [hpc] at hlock hfinished
      exact ⟨hfinished, hlock⟩
    · rintro (hpc | hpc)
      · rw [hpc] at hfinished hreleased
        exact ⟨hfinished, hreleased⟩
      · rw [hpc] at hfinished hreleased
        exact ⟨hfinished, hreleased⟩

/-- A table is opened while a writer waits; the writer stores an entry, and two readers come
after it. -/
def openWriteRead : List (Nat × Act Bytes) :=
  [(0, .make (.openTable "t")), (0, .lock), (0, .start), (0, .createMap), (0, .commit),
    (1, .make .writer), (0, .finish), (0, .unlock), (1, .lock), (0, .leave), (1, .start),
    (0, .members), (1, .call 1 (.insert [2] [2])), (2, .make .reader), (1, .leave), (1, .finish),
    (1, .unlock), (2, .lock), (3, .make .reader), (3, .lock), (2, .start), (3, .start),
    (2, .call 1 (.get [2])), (2, .leave), (2, .finish)]

theorem transactions_serialisable_open_write_read :
    ∃ s : System Reference.engine,
      exec (System.step rawSchema) (System.init oneEntry) openWriteRead = some s ∧
      s.lockOrder = [0, 1] ∧ s.published = oneEntry.m_env.insert [2] [2] ∧
      s.published = s.serial oneEntry.m_env := by
  obtain ⟨s, hs, horder, hpub⟩ : ∃ s : System Reference.engine,
      exec (System.step rawSchema) (System.init oneEntry) openWriteRead = some s ∧
      s.lockOrder = [0, 1] ∧ s.published = oneEntry.m_env.insert [2] [2] := ⟨_, rfl, rfl, rfl⟩
  obtain ⟨-, -, -, hserial, -⟩ :=
    transactions_serialisable Reference.documented Reference.transactional rfl hs
  exact ⟨s, hs, horder, hpub, hserial⟩

end Zatestil.Database
