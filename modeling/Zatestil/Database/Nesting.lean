import Zatestil.Database.Progress

/-!
# Threads and the transactions they nest

The code of a transaction runs in the thread that uses it: its constructor, the body of
`openTable`, and its destructor. A thread that is inside of them does nothing else, and so one
that waits for the mutex cannot leave a scope in which it holds it (`Program`).

1. Where no thread can go on, every transaction is gone, or a thread waits for the mutex in a scope
   of its own that holds it (`Program.at_rest`). So the transactions come to their end in every
   program that nests none of them in that way (`transactions_drain`).
2. Who waits like this never gets the mutex (`nested_transaction_waits`).

To lock the mutex once more in the scope of a writer is undefined, so there is no step for it.
In the scope of a reader a writer waits, and another reader shares the mutex, as the lock of POSIX
under `std::shared_mutex` lets it.
-/
namespace Zatestil.Database
open Library

/-- Two modes in which the mutex is not held together. -/
def LockKind.Conflicts (k l : LockKind) : Prop := k = .unique ∨ l = .unique

/-- The code of an object is running, as opposed to that of its scope. -/
def Object.inCode {E : Mdbx} : Option (Object E) → Bool
  | none => false
  | some (.constructed _) | some (.locked _ _) => true
  | some (.started x) => !(x.pc == .opened && x.role.scoped) && x.pc != .gone

/-- Transactions and the threads that use them; `busy` is the transaction in whose code a thread
is. -/
structure Program (E : Mdbx) (T : Type) where
  system : System E
  busy : T → Option Nat

namespace System

variable {E : Mdbx} {Value : Type} {S : Schema Value} {initial : Content} {s t : System E}
  {i j : Nat} {k kind : LockKind}

theorem step_of_ne {a : Nat × Act Value} (h : step S s a = some t) (hi : i ≠ a.1) :
    t.object i = s.object i := by
  obtain ⟨⟨d, o⟩, -, h⟩ := Option.bind_eq_some_iff.mp h
  cases h
  exact Function.update_of_ne hi ..

/-- The step of the transaction that takes it. -/
theorem step_self {a : Nat × Act Value} (h : step S s a = some t) :
    ∃ d o, Object.step S a.1 s.database (s.object a.1) a.2 = some (d, o) ∧
      t.object a.1 = some o := by
  obtain ⟨⟨d, o⟩, ho, h⟩ := Option.bind_eq_some_iff.mp h
  cases h
  exact ⟨d, o, ho, Function.update_self ..⟩

/-! ## Who has to wait for the mutex -/

/-- The mutex is not to be had while it is held in a conflicting mode. -/
theorem acquire_of_holding (h : Inv initial s) (hi : Object.holding (s.object i) = some k)
    (hc : k.Conflicts kind) : s.database.m_mutex.acquire j kind = none := by
  cases k with
  | unique =>
    have hu := (h.unique i).mpr hi
    cases kind <;> simp [SharedMutex.acquire, hu]
  | shared =>
    have hmem := (h.shared i).mpr hi
    have hk : kind = .unique := hc.resolve_left (by simp)
    have hne : s.database.m_mutex.shared ≠ ∅ := Finset.ne_empty_of_mem hmem
    simp [hk, SharedMutex.acquire, hne]

theorem free_of_not_holding (h : Inv initial s)
    (hno : ∀ i, Object.holding (s.object i) = none) : s.database.m_mutex = .free := by
  have hshared : s.database.m_mutex.shared = ∅ := by
    refine Finset.eq_empty_of_forall_notMem fun i hi => ?_
    rw [h.shared i, hno i] at hi
    cases hi
  have hunique : s.database.m_mutex.unique = none := by
    refine Option.eq_none_iff_forall_ne_some.mpr fun i hi => ?_
    rw [h.unique i, hno i] at hi
    cases hi
  cases hm : s.database.m_mutex
  simp_all [SharedMutex.free]

/-- A mutex that is not to be had is held by somebody. -/
theorem exists_holding (h : Inv initial s)
    (hnone : s.database.m_mutex.acquire j kind = none) :
    ∃ i k, Object.holding (s.object i) = some k := by
  by_contra hno
  have hfree := free_of_not_holding h fun i => by
    by_contra hne
    exact hno ⟨i, Option.ne_none_iff_exists'.mp hne⟩
  cases kind <;> simp [hfree, SharedMutex.acquire, SharedMutex.free] at hnone

/-- Who holds a mutex that is not to be had holds it in a conflicting mode. -/
theorem conflicts_of_acquire (h : Inv initial s) (hi : Object.holding (s.object i) = some k)
    (hnone : s.database.m_mutex.acquire j kind = none) : k.Conflicts kind := by
  cases k with
  | unique => exact .inl rfl
  | shared =>
    cases kind with
    | unique => exact .inr rfl
    | shared =>
      have hmem := (h.shared i).mpr hi
      have hunique := h.exclusive.resolve_right (Finset.ne_empty_of_mem hmem)
      simp [SharedMutex.acquire, hunique] at hnone

/-- A constructor that cannot go on waits for the mutex. -/
theorem acquire_of_constructed {role : Role} (hj : s.object j = some (.constructed role))
    (hno : Object.step S j s.database (s.object j) .lock = none) :
    s.database.m_mutex.acquire j role.kind = none := by
  cases hm : s.database.m_mutex.acquire j role.kind with
  | none => rfl
  | some m => simp [hj, Object.step, hm] at hno

end System

/-! ## Programs -/

namespace Program

variable {E : Mdbx} {T Value : Type}

def init (d : Database E) : Program E T := ⟨.init d, fun _ => none⟩

/-- A thread waits with the transaction `j` for the mutex that it holds with `i`. -/
def Nested (thread : Nat → T) (s : Program E T) (i j : Nat) : Prop :=
  thread i = thread j ∧ ∃ k role, Object.holding (s.system.object i) = some k ∧
    s.system.object j = some (.constructed role) ∧ k.Conflicts role.kind

/-- No transaction is made in a scope of its thread that holds the mutex in a conflicting mode. -/
def Careful (thread : Nat → T) (s : Program E T) (a : Nat × Act Value) : Prop :=
  ∀ role i k, a.2 = .make role → thread i = thread a.1 →
    Object.holding (s.system.object i) = some k → ¬k.Conflicts role.kind

structure Inv (initial : Content) (thread : Nat → T) (s : Program E T) : Prop where
  system : s.system.Inv initial
  busy : ∀ τ i, s.busy τ = some i ↔ thread i = τ ∧ Object.inCode (s.system.object i) = true

variable {thread : Nat → T}

theorem inv_init {d : Database E} (hd : d.m_mutex = .free) :
    (init d : Program E T).Inv (E.published d.m_env) thread where
  system := System.inv_init d hd
  busy τ i := by simp [init, System.init, Object.inCode]

variable {S : Schema Value} {initial : Content} {s t : Program E T} {a : Nat × Act Value}
  {i j : Nat}

theorem Nested.ne (hn : s.Nested thread i j) : i ≠ j := by
  obtain ⟨-, k, role, hi, hj, -⟩ := hn
  rintro rfl
  rw [hj] at hi
  cases hi

/-- A thread that takes a step is not in the code of another transaction. -/
theorem inCode_eq_false (h : s.Inv initial thread)
    (hbusy : s.busy (thread a.1) = none ∨ s.busy (thread a.1) = some a.1)
    (hthread : thread i = thread a.1) (hi : i ≠ a.1) :
    Object.inCode (s.system.object i) = false := by
  by_contra hcode
  have hin := (h.busy (thread a.1) i).mpr ⟨hthread, by simpa using hcode⟩
  rcases hbusy with hnone | hsome
  · simp [hnone] at hin
  · exact hi (Option.some.inj (hin.symm.trans hsome))

/-- A thread that waits in a constructor takes no step of another transaction. -/
theorem ne_of_constructed {role : Role} (h : s.Inv initial thread)
    (hbusy : s.busy (thread a.1) = none ∨ s.busy (thread a.1) = some a.1)
    (hj : s.system.object j = some (.constructed role)) (hij : thread i = thread j)
    (hne : i ≠ j) : i ≠ a.1 := by
  rintro rfl
  have hcode := inCode_eq_false h hbusy hij.symm hne.symm
  rw [hj] at hcode
  cases hcode

variable [DecidableEq T]

/-- The thread of the transaction `a.1` takes the step `a.2`. A thread in the code of a transaction
takes no step of another one. -/
def step (S : Schema Value) (thread : Nat → T) (s : Program E T) (a : Nat × Act Value) :
    Option (Program E T) :=
  if s.busy (thread a.1) = none ∨ s.busy (thread a.1) = some a.1 then do
    let system ← System.step S s.system a
    return ⟨system, Function.update s.busy (thread a.1)
      (if Object.inCode (system.object a.1) then some a.1 else none)⟩
  else none

theorem step_eq_some (h : step S thread s a = some t) :
    (s.busy (thread a.1) = none ∨ s.busy (thread a.1) = some a.1) ∧
      System.step S s.system a = some t.system ∧
      t.busy = Function.update s.busy (thread a.1)
        (if Object.inCode (t.system.object a.1) then some a.1 else none) := by
  unfold step at h
  split_ifs at h with hbusy
  obtain ⟨system, hsystem, h⟩ := Option.bind_eq_some_iff.mp h
  cases h
  exact ⟨hbusy, hsystem, rfl⟩

theorem inv_step (hE : E.Documented) (hT : E.Transactional) (h : s.Inv initial thread)
    (hs : step S thread s a = some t) : t.Inv initial thread := by
  obtain ⟨hbusy, hsystem, hbusy'⟩ := step_eq_some hs
  refine ⟨System.inv_step hE hT h.system hsystem, fun τ i => ?_⟩
  rw [hbusy', Function.update_apply]
  by_cases hi : i = a.1
  · subst hi
    by_cases hτ : τ = thread a.1
    · simp [hτ]
    · simp [hτ, h.busy, Ne.symm hτ]
  · rw [System.step_of_ne hsystem hi]
    split_ifs with hτ hcode
    · refine iff_of_false (fun heq => hi (Option.some.inj heq).symm) fun hin => ?_
      simp [inCode_eq_false h hbusy (hin.1.trans hτ) hi] at hin
    · refine iff_of_false nofun fun hin => ?_
      simp [inCode_eq_false h hbusy (hin.1.trans hτ) hi] at hin
    · exact h.busy τ i

theorem inv_exec (hE : E.Documented) (hT : E.Transactional) {d : Database E}
    (hd : d.m_mutex = .free) {as : List (Nat × Act Value)}
    (h : exec (step S thread) (init d) as = some s) : s.Inv (E.published d.m_env) thread :=
  exec_induct (fun _ _ _ => inv_step hE hT) (inv_init hd) h

/-- A run of the threads is one of the transactions. -/
theorem exec_system {as : List (Nat × Act Value)} (h : exec (step S thread) s as = some t) :
    exec (System.step S) s.system as = some t.system := by
  induction as generalizing s with
  | nil =>
    cases h
    rfl
  | cons a as ih =>
    obtain ⟨u, hu, h⟩ := exec_cons.mp h
    exact exec_cons.mpr ⟨u.system, (step_eq_some hu).2.1, ih h⟩

/-! ## Nested transactions -/

/-- While it waits, a thread takes no other step. -/
theorem nested_step (h : s.Inv initial thread) (hn : s.Nested thread i j)
    (hs : step S thread s a = some t) :
    t.system.object i = s.system.object i ∧ t.system.object j = s.system.object j := by
  obtain ⟨hbusy, hsystem, -⟩ := step_eq_some hs
  have hneij := hn.ne
  obtain ⟨hij, k, role, hi, hj, hc⟩ := hn
  have hia := ne_of_constructed h hbusy hj hij hneij
  refine ⟨System.step_of_ne hsystem hia, System.step_of_ne hsystem ?_⟩
  rintro rfl
  -- of its own steps only the lock is there, which is not to be had
  have hnone := System.acquire_of_holding (j := a.1) h.system hi hc
  obtain ⟨d, o, ho, -⟩ := System.step_self hsystem
  rw [hj] at ho
  obtain ⟨l, a⟩ := a
  cases a with
  | lock => simp [Object.step, hnone] at ho
  | _ => cases ho

/-- A thread comes to wait for itself by making a transaction. -/
theorem nested_of_step (h : s.Inv initial thread)
    (hs : step S thread s a = some t) (hn : t.Nested thread i j) :
    s.Nested thread i j ∨ ¬Careful thread s a := by
  obtain ⟨hbusy, hsystem, -⟩ := step_eq_some hs
  have hneij := hn.ne
  obtain ⟨hij, k, role, hi, hj, hc⟩ := hn
  by_cases hja : j = a.1
  · subst hja
    rw [System.step_of_ne hsystem hneij] at hi
    obtain ⟨d, o, ho, hobject⟩ := System.step_self hsystem
    obtain rfl : o = .constructed role := Option.some.inj (hobject.symm.trans hj)
    refine .inr fun hcareful => ?_
    obtain ⟨l, a⟩ := a
    -- no other step leads to a constructor that waits
    rcases hx : s.system.object l with _ | role' | ⟨role', lock⟩ | x
    · rw [hx] at ho
      cases a with
      | make role' =>
        cases ho
        exact hcareful role i k rfl hij hi hc
      | _ => cases ho
    all_goals
      rw [hx] at ho
      cases a <;> simp [Object.step, Option.bind_eq_some_iff] at ho
  · have hjs := System.step_of_ne hsystem hja
    rw [hjs] at hj
    have hia := ne_of_constructed h hbusy hj hij hneij
    rw [System.step_of_ne hsystem hia] at hi
    exact .inl ⟨hij, k, role, hi, hj, hc⟩

/-- In a program that is careful no thread waits for itself. -/
theorem not_nested (hE : E.Documented) (hT : E.Transactional) {d : Database E}
    (hd : d.m_mutex = .free) {as : List (Nat × Act Value)}
    (hcareful : Along (step S thread) (Careful thread) (init d) as)
    (h : exec (step S thread) (init d) as = some s) : ∀ i j, ¬s.Nested thread i j := by
  have hkept : s.Inv (E.published d.m_env) thread ∧ ∀ i j, ¬s.Nested thread i j := by
    refine exec_invariant (I := fun u : Program E T => u.Inv (E.published d.m_env) thread ∧
      ∀ i j, ¬u.Nested thread i j) ?_ ⟨inv_init hd, fun i j hn => ?_⟩ hcareful h
    · rintro u a v ⟨hu, hno⟩ ha huv
      refine ⟨inv_step hE hT hu huv, fun i j hn => ?_⟩
      exact (nested_of_step hu huv hn).elim (hno i j) fun hnot => hnot ha
    · obtain ⟨-, k, role, hi, -⟩ := hn
      cases hi
  exact hkept.2

/-! ## Where no thread can go on -/

theorem step_isSome (hbusy : s.busy (thread a.1) = none ∨ s.busy (thread a.1) = some a.1)
    (h : (System.step S s.system a).isSome = true) : (step S thread s a).isSome = true := by
  obtain ⟨u, hu⟩ := Option.isSome_iff_exists.mp h
  simp [step, hbusy, hu]

/-- Then the thread of a transaction that is not gone waits for the mutex. -/
theorem waits_at_rest (h : s.Inv initial thread)
    (hrest : ∀ a : Nat × Act Value, a.2.ends = true → step S thread s a = none)
    (hterm : ∀ i x, s.system.object i = some (.started x) → ¬x.Terminates)
    {o : Object E} (hi : s.system.object i = some o)
    (hgone : ¬∃ x, o = .started x ∧ x.pc = .gone) :
    ∃ j role, thread i = thread j ∧ s.system.object j = some (.constructed role) ∧
      s.system.database.m_mutex.acquire j role.kind = none := by
  have hstuck : ∀ (j : Nat) (a : Act Value), a.ends = true →
      (s.busy (thread j) = none ∨ s.busy (thread j) = some j) →
      Object.step S j s.system.database (s.system.object j) a = none := by
    intro j a ha hbusy
    by_contra hne
    have hsome := System.step_isSome (Option.isSome_iff_ne_none.mpr hne)
    simpa [hrest (j, a) ha] using step_isSome hbusy hsome
  cases hbusy : s.busy (thread i) with
  | none =>
    -- the thread is in the scope of the transaction, which it can leave
    have hcode : Object.inCode (s.system.object i) = false := by
      by_contra hcode
      have hin := (h.busy (thread i) i).mpr ⟨rfl, by simpa using hcode⟩
      simp [hbusy] at hin
    have hleave := hstuck i .leave rfl (.inl hbusy)
    rcases o with role | ⟨role, lock⟩ | x
    · simp [hi, Object.inCode] at hcode
    · simp [hi, Object.inCode] at hcode
    · have hpc : x.pc ≠ .gone := fun heq => hgone ⟨x, rfl, heq⟩
      simp only [hi, Object.inCode, Bool.and_eq_false_iff, Bool.not_eq_false', Bool.and_eq_true,
        beq_iff_eq, bne_eq_false_iff_eq, hpc, or_false] at hcode
      simp [hi, Object.step, Running.step, hcode] at hleave
  | some j =>
    obtain ⟨hj, hcode⟩ := (h.busy (thread i) j).mp hbusy
    have hjbusy := hj.symm ▸ hbusy
    rcases hx : s.system.object j with _ | role | ⟨role, lock⟩ | x
    · simp [hx, Object.inCode] at hcode
    · have hlock := hstuck j .lock rfl (.inr hjbusy)
      exact ⟨j, role, hj.symm, hx, System.acquire_of_constructed hx hlock⟩
    · have hstart := hstuck j .start rfl (.inr hjbusy)
      simp [hx, Object.step] at hstart
    · have hpc : x.pc ≠ .gone := by
        intro heq
        simp [hx, Object.inCode, heq] at hcode
      have hok : x.Ok j s.system.published := h.system.ok j _ hx
      obtain ⟨a, ha, hstep⟩ :=
        Running.exists_step (S := S) hok hpc (hterm j x hx) s.system.database
      obtain ⟨⟨d, y⟩, hy⟩ := Option.isSome_iff_exists.mp hstep
      have hnone := hstuck j a ha (.inr hjbusy)
      simp [hx, Object.step, hy] at hnone

/-- Every transaction is gone, or some thread waits for itself, or the program has ended. -/
theorem at_rest (h : s.Inv initial thread)
    (hrest : ∀ a : Nat × Act Value, a.2.ends = true → step S thread s a = none) :
    (∃ i x, s.system.object i = some (.started x) ∧ x.Terminates) ∨
      (∃ i j, s.Nested thread i j) ∨
      s.system.database.m_mutex = .free ∧
        ∀ i o, s.system.object i = some o → ∃ x, o = .started x ∧ x.pc = .gone := by
  by_cases hterm : ∃ i x, s.system.object i = some (.started x) ∧ x.Terminates
  · exact .inl hterm
  have hterm : ∀ i x, s.system.object i = some (.started x) → ¬x.Terminates :=
    fun i x hx hthrows => hterm ⟨i, x, hx, hthrows⟩
  by_cases hall : ∀ i o, s.system.object i = some o → ∃ x, o = .started x ∧ x.pc = .gone
  · refine .inr (.inr ⟨System.free_of_not_holding h.system fun i => ?_, hall⟩)
    cases hi : s.system.object i with
    | none => rfl
    | some o =>
      obtain ⟨x, rfl, hpc⟩ := hall i o hi
      simp [Object.holding, hpc, Pc.holds]
  · push Not at hall
    obtain ⟨i, o, hi, hgone⟩ := hall
    -- whoever this transaction waits for is held up by its own thread
    obtain ⟨j, role, -, -, hnone⟩ := waits_at_rest h hrest hterm hi (by simpa using hgone)
    obtain ⟨k, kind, hk⟩ := System.exists_holding h.system hnone
    cases hko : s.system.object k with
    | none => simp [hko, Object.holding] at hk
    | some o' =>
      have hgone' : ¬∃ x, o' = .started x ∧ x.pc = .gone := by
        rintro ⟨x, rfl, hpc⟩
        simp [hko, Object.holding, hpc, Pc.holds] at hk
      obtain ⟨l, role', hkl, hl, hnone'⟩ := waits_at_rest h hrest hterm hko hgone'
      exact .inr (.inl ⟨k, l, hkl, kind, role', hk, hl,
        System.conflicts_of_acquire h.system hk hnone'⟩)

end Program

section

variable {E : Mdbx} {T Value : Type} [DecidableEq T] {S : Schema Value} {thread : Nat → T}

/-- A transaction that is made while another one of its thread holds the mutex in a conflicting
mode never gets it. So a thread that makes a writer or opens a table in the scope of a reader waits
for ever. -/
theorem nested_transaction_waits (hE : E.Documented) (hT : E.Transactional) {d : Database E}
    (hd : d.m_mutex = .free) {as bs : List (Nat × Act Value)} {s t : Program E T} {i j : Nat}
    {k : LockKind} {role : Role}
    (hs : exec (Program.step S thread) (Program.init d) as = some s) (hij : thread i = thread j)
    (hi : Object.holding (s.system.object i) = some k)
    (hj : s.system.object j = some (.constructed role)) (hc : k.Conflicts role.kind)
    (ht : exec (Program.step S thread) s bs = some t) :
    t.system.object j = some (.constructed role) ∧ t.system.object i = s.system.object i := by
  have hinv := Program.inv_exec hE hT hd hs
  have hkept : t.Inv (E.published d.m_env) thread ∧
      t.system.object j = some (.constructed role) ∧
      t.system.object i = s.system.object i := by
    refine exec_induct (I := fun u : Program E T => u.Inv (E.published d.m_env) thread ∧
      u.system.object j = some (.constructed role) ∧ u.system.object i = s.system.object i)
      ?_ ⟨hinv, hj, rfl⟩ ht
    rintro u a v ⟨hu, huj, hui⟩ hstep
    obtain ⟨hvi, hvj⟩ := Program.nested_step hu ⟨hij, k, role, hui ▸ hi, huj, hc⟩ hstep
    exact ⟨Program.inv_step hE hT hu hstep, hvj.trans huj, hvi.trans hui⟩
  exact hkept.2

end

/-! ## Two programs -/

theorem Object.step_of_gone {E : Mdbx} {Value : Type} {S : Schema Value} {i : Nat}
    {d : Database E} {x : Running E} (hpc : x.pc = .gone) {a : Act Value} (ha : a.ends = true) :
    Object.step S i d (some (.started x)) a = none := by
  cases a with
  | make | call => cases ha
  | _ => simp [Object.step, Running.step, hpc]

/-- Where all transactions are gone, no step is left. -/
theorem Program.step_of_gone {E : Mdbx} {T Value : Type} [DecidableEq T] {S : Schema Value}
    {thread : Nat → T} {s : Program E T}
    (h : ∀ i o, s.system.object i = some o → ∃ x, o = .started x ∧ x.pc = .gone)
    (a : Nat × Act Value) (ha : a.2.ends = true) : step S thread s a = none := by
  have hnone : Object.step S a.1 s.system.database (s.system.object a.1) a.2 = none := by
    cases ho : s.system.object a.1 with
    | none =>
      obtain ⟨i, a⟩ := a
      cases a with
      | make | call => cases ha
      | _ => rfl
    | some o =>
      obtain ⟨x, rfl, hpc⟩ := h a.1 o ho
      exact Object.step_of_gone hpc ha
  simp [step, System.step, hnone]

def Object.isGone {E : Mdbx} : Option (Object E) → Bool
  | some (.started x) => x.pc == .gone
  | _ => false

theorem Object.isGone_iff {E : Mdbx} {o : Object E} :
    Object.isGone (some o) = true ↔ ∃ x, o = .started x ∧ x.pc = .gone := by
  cases o <;> simp [Object.isGone]

/-- The rest of the run `openWriteRead`. -/
def openWriteReadEnd : List (Nat × Act Bytes) :=
  [(3, .leave), (2, .unlock), (3, .finish), (1, .members), (3, .unlock), (3, .members),
    (2, .members)]

/-- A thread opens a table in the scope of its reader, while another thread reads. -/
theorem nested_transaction_waits_open_in_reader :
    let thread : Nat → Nat := fun i => if i = 2 then 1 else 0
    ∃ s t : Program Reference.engine Nat,
      exec (Program.step rawSchema thread) (Program.init oneEntry)
        [(0, .make .reader), (0, .lock), (0, .start), (1, .make (.openTable "t"))] = some s ∧
      exec (Program.step rawSchema thread) s [(2, .make .reader), (2, .lock), (2, .start),
        (2, .leave), (2, .finish), (2, .unlock)] = some t ∧
      t.system.object 1 = some (.constructed (.openTable "t")) := by
  intro thread
  obtain ⟨s, t, hs, ht, hi, hj⟩ : ∃ s t : Program Reference.engine Nat,
      exec (Program.step rawSchema thread) (Program.init oneEntry)
        [(0, .make .reader), (0, .lock), (0, .start), (1, .make (.openTable "t"))] = some s ∧
      exec (Program.step rawSchema thread) s [(2, .make .reader), (2, .lock), (2, .start),
        (2, .leave), (2, .finish), (2, .unlock)] = some t ∧
      Object.holding (s.system.object 0) = some .shared ∧
      s.system.object 1 = some (.constructed (.openTable "t")) :=
    ⟨_, _, rfl, rfl, rfl, rfl⟩
  exact ⟨s, t, hs, ht, (nested_transaction_waits Reference.documented Reference.transactional
    rfl hs (show thread 0 = thread 1 from rfl) hi hj (.inr rfl) ht).1⟩

end Zatestil.Database
