import Mathlib.Tactic
import Zatestil.Library.Machine

/-!
# Singletons

`Singleton<T>::instance` is a template: each list of argument types has a function of its own,
with its own `mutex` and its own `instance`. The argument types are deduced from a call as
those of parameters passed by value.

The function is modelled twice, for one class `T` whose constructor does not throw.

1. `instanceCall` is a call that runs alone. A sequence of such calls gives one object exactly
   if all of them deduce the same types (`isSingle_iff`).
2. `step` cuts the function where another thread can come between, for any number of threads
   and calls. The invariant says that each list of types has at most one object (`Inv`), and the
   main result reads the guarantees of double-checked locking off it
   (`double_checked_construction`).

`exec_instanceCall` says that the first is what the second does without other threads.
-/
namespace Zatestil.Singleton
open Library

/-! ## Argument types -/

/-- The types of C++, as far as deduction looks into them. -/
inductive CppType
  | named (name : String)
  | pointer (target : CppType)
  | array (element : CppType) (length : Nat)
  | function (signature : String)
  | const (type : CppType)
  | reference (type : CppType)
  deriving DecidableEq

/-- The type deduced for a parameter `Args... args`, which is passed by value. -/
def deduce : CppType → CppType
  | .reference type => deduce type
  | .array element _ => .pointer element
  | .const (.array element _) => .pointer (.const element)
  | .function signature => .pointer (.function signature)
  | .const type => type
  | type => type

/-- The template arguments of `instance`. -/
abbrev Key := List CppType

def keyOf (args : List CppType) : Key := args.map deduce

/-- Objects are numbered in the order of their construction. -/
abbrev Ptr := Nat

/-! ## Calls one after the other -/

/-- The pointers `instance` of the functions, and how often the constructor ran. -/
structure Program where
  pointers : Key → Option Ptr := fun _ => none
  constructed : Nat := 0

def load (key : Key) : StateM Program (Option Ptr) := do
  return (← get).pointers key

/-- `new T(args...)`. -/
def new : StateM Program Ptr :=
  modifyGet fun s => (s.constructed, { s with constructed := s.constructed + 1 })

def store (key : Key) (p : Ptr) : StateM Program Unit :=
  modify fun s => { s with pointers := Function.update s.pointers key (some p) }

/-- `instance(args...)`, without other threads. -/
def instanceCall (args : List CppType) : StateM Program (Option Ptr) := do
  let key := keyOf args
  let isLoaded := (← load key).isSome
  if not isLoaded then
    let isLoaded := (← load key).isSome
    if not isLoaded then
      let p ← new
      store key p
  load key

/-- What is seen of a call: how often the constructor ran in it, and the pointer. -/
structure Outcome where
  constructed : Nat
  returned : Option Ptr
  deriving DecidableEq

def outcomes (s : Program) : List (List CppType) → List Outcome
  | [] => []
  | args :: calls =>
    let call := (instanceCall args).run s
    ⟨call.2.constructed - s.constructed, call.1⟩ :: outcomes call.2 calls

/-- The constructor runs once, in the first call, and all calls return the same pointer. -/
def IsSingle (args : List CppType) (calls : List (List CppType)) : Prop :=
  ∃ p, outcomes {} (args :: calls) = ⟨1, some p⟩ :: List.replicate calls.length ⟨0, some p⟩

@[simp] theorem run_load (key : Key) (s : Program) :
    (load key).run s = pure (s.pointers key, s) := rfl

@[simp] theorem run_new (s : Program) :
    new.run s = pure (s.constructed, { s with constructed := s.constructed + 1 }) := rfl

@[simp] theorem run_store (key : Key) (p : Ptr) (s : Program) : (store key p).run s =
    pure ((), { s with pointers := Function.update s.pointers key (some p) }) := rfl

theorem instanceCall_of_loaded {s : Program} {args : List CppType} {p : Ptr}
    (h : s.pointers (keyOf args) = some p) : (instanceCall args).run s = (some p, s) := by
  simp [instanceCall, h]
  rfl

theorem instanceCall_of_null {s : Program} {args : List CppType}
    (h : s.pointers (keyOf args) = none) :
    (instanceCall args).run s = (some s.constructed,
      { pointers := Function.update s.pointers (keyOf args) (some s.constructed)
        constructed := s.constructed + 1 }) := by
  simp [instanceCall, h]
  rfl

/-- The calls that only return a pointer that is set are those with its types, as long as no
other pointer is set. -/
theorem outcomes_eq_iff {s : Program} {key : Key} {p : Ptr} (h : s.pointers key = some p)
    (hnull : ∀ other, other ≠ key → s.pointers other = none) (calls : List (List CppType)) :
    outcomes s calls = List.replicate calls.length ⟨0, some p⟩ ↔
      ∀ args ∈ calls, keyOf args = key := by
  induction calls with
  | nil => simp [outcomes]
  | cons args calls ih =>
    by_cases hkey : keyOf args = key
    · simp [outcomes, instanceCall_of_loaded (hkey ▸ h), hkey, ih, List.replicate_succ]
    · simp [outcomes, instanceCall_of_null (hnull _ hkey), hkey, List.replicate_succ]

/-- The constructor runs once, in the first call, and all calls return its object, exactly if all
calls deduce the argument types of the first. -/
theorem isSingle_iff (args : List CppType) (calls : List (List CppType)) :
    IsSingle args calls ↔ ∀ args' ∈ calls, keyOf args' = keyOf args := by
  have hfirst : (instanceCall args).run {} = _ := instanceCall_of_null rfl
  have hset : ((instanceCall args).run {}).2.pointers (keyOf args) = some 0 := by simp [hfirst]
  have hnull : ∀ other, other ≠ keyOf args →
      ((instanceCall args).run {}).2.pointers other = none := by
    intro other hne
    simp [hfirst, hne]
  rw [← outcomes_eq_iff hset hnull, IsSingle]
  constructor
  · rintro ⟨p, hp⟩
    obtain ⟨hhead, htail⟩ := List.cons.inj hp
    obtain rfl : 0 = p := by
      rw [hfirst] at hhead
      exact Option.some.inj (Outcome.mk.inj hhead).2
    exact htail
  · intro htail
    refine ⟨0, ?_⟩
    rw [outcomes, htail, hfirst]
    rfl

/-- `Database<id>::instance` with the literal `"./db0"`, and then with a path: two objects. -/
theorem not_isSingle_literal_path :
    let literal := [CppType.array (.const (.named "char")) 6]
    let path := [CppType.named "std::filesystem::path"]
    outcomes {} [literal, path] = [⟨1, some 0⟩, ⟨1, some 1⟩] ∧ ¬ IsSingle literal [path] := by
  intro literal path
  have htwo : outcomes {} [literal, path] = [⟨1, some 0⟩, ⟨1, some 1⟩] := by decide
  refine ⟨htwo, ?_⟩
  rintro ⟨p, hp⟩
  rw [htwo] at hp
  simp at hp

/-! ## Threads -/

/-- What a thread does next in `instance`. -/
inductive Pc
  | firstLoad
  | lock
  | secondLoad
  /-- `new` allocates, and the constructor starts. -/
  | construct
  /-- The constructor is running. -/
  | constructing (p : Ptr)
  | store (p : Ptr)
  | unlock
  | finalLoad
  deriving DecidableEq

/-- Inside the scope of `lock_guard`. -/
def Pc.Critical : Pc → Prop
  | secondLoad | construct | constructing _ | store _ | unlock => True
  | firstLoad | lock | finalLoad => False

/-- A call that has not returned. -/
structure Frame where
  key : Key
  pc : Pc
  deriving DecidableEq

/-- An object of `T`, made by the function of these types. -/
structure Object where
  key : Key
  constructed : Bool
  deriving DecidableEq

/-- `mutexes` are the holders, `returned` what the calls so far have returned. -/
structure State (Thread : Type) where
  mutexes : Key → Option Thread := fun _ => none
  pointers : Key → Option Ptr := fun _ => none
  objects : List Object := []
  frames : Thread → Option Frame := fun _ => none
  returned : List (Key × Option Ptr) := []

inductive Action (Thread : Type)
  | call (t : Thread) (args : List CppType)
  | run (t : Thread)

variable {Thread : Type} [DecidableEq Thread]

namespace State

variable (s : State Thread)

def goto (t : Thread) (key : Key) (pc : Pc) : State Thread :=
  { s with frames := Function.update s.frames t (some ⟨key, pc⟩) }

def setMutex (key : Key) (holder : Option Thread) : State Thread :=
  { s with mutexes := Function.update s.mutexes key holder }

def setPointer (key : Key) (p : Ptr) : State Thread :=
  { s with pointers := Function.update s.pointers key (some p) }

def setObjects (objects : List Object) : State Thread := { s with objects := objects }

omit [DecidableEq Thread] in
@[simp] theorem setMutex_self (key : Key) : s.setMutex key (s.mutexes key) = s := by
  simp [setMutex]

/-- The call of a thread returns. -/
def leave (t : Thread) (key : Key) : State Thread :=
  { s with
    frames := Function.update s.frames t none
    returned := s.returned ++ [(key, s.pointers key)] }

end State

/-- One step of a thread inside `instance`. -/
def runStep (s : State Thread) (t : Thread) (key : Key) : Pc → Option (State Thread)
  | .firstLoad =>
    let isLoaded := (s.pointers key).isSome
    some (s.goto t key (if isLoaded then .finalLoad else .lock))
  | .lock =>
    if s.mutexes key = none then some ((s.setMutex key (some t)).goto t key .secondLoad) else none
  | .secondLoad =>
    let isLoaded := (s.pointers key).isSome
    some (s.goto t key (if isLoaded then .unlock else .construct))
  | .construct =>
    some ((s.setObjects (s.objects ++ [⟨key, false⟩])).goto t key (.constructing s.objects.length))
  | .constructing p => some ((s.setObjects (s.objects.set p ⟨key, true⟩)).goto t key (.store p))
  | .store p => some ((s.setPointer key p).goto t key .unlock)
  | .unlock => some ((s.setMutex key none).goto t key .finalLoad)
  | .finalLoad => some (s.leave t key)

def step (s : State Thread) : Action Thread → Option (State Thread)
  | .call t args =>
    if s.frames t = none then some (s.goto t (keyOf args) .firstLoad) else none
  | .run t => (s.frames t).bind fun frame => runStep s t frame.key frame.pc

/-! ## The invariant -/

/-- What a thread inside `instance` may rely on. -/
def Facts (s : State Thread) (key : Key) : Pc → Prop
  | .firstLoad | .lock | .secondLoad => True
  | .construct => s.pointers key = none ∧ ∀ object ∈ s.objects, object.key ≠ key
  | .constructing p => s.pointers key = none ∧ s.objects[p]? = some ⟨key, false⟩
  | .store p => s.pointers key = none ∧ s.objects[p]? = some ⟨key, true⟩
  | .unlock | .finalLoad => (s.pointers key).isSome

/-- The thread that made an object has not published it. -/
def Unpublished (s : State Thread) (key : Key) (p : Ptr) : Prop :=
  ∃ t, s.frames t = some ⟨key, .constructing p⟩ ∨ s.frames t = some ⟨key, .store p⟩

structure Inv (s : State Thread) : Prop where
  holder : ∀ t key, s.mutexes key = some t ↔ ∃ pc, s.frames t = some ⟨key, pc⟩ ∧ pc.Critical
  facts : ∀ t key pc, s.frames t = some ⟨key, pc⟩ → Facts s key pc
  ready : ∀ key p, s.pointers key = some p → s.objects[p]? = some ⟨key, true⟩
  origin : ∀ p object, s.objects[p]? = some object →
    s.pointers object.key = some p ∨ Unpublished s object.key p
  returned : ∀ r ∈ s.returned, r.2 = s.pointers r.1 ∧ r.2.isSome

namespace Inv

variable {s : State Thread} {t u : Thread} {key : Key} {pc pc' : Pc}

omit [DecidableEq Thread] in
theorem exclusive (hs : Inv s) (ht : s.frames t = some ⟨key, pc⟩) (hpc : pc.Critical)
    (hu : s.frames u = some ⟨key, pc'⟩) (hpc' : pc'.Critical) : t = u := by
  have ht := (hs.holder t key).mpr ⟨pc, ht, hpc⟩
  have hu := (hs.holder u key).mpr ⟨pc', hu, hpc'⟩
  exact Option.some.inj (ht.symm.trans hu)

/-- The moving thread has its own facts, the others keep theirs. -/
theorem facts_goto {s' : State Thread} (hframes : s'.frames = s.frames) (hown : Facts s' key pc)
    (hothers : ∀ u other q, u ≠ t → s.frames u = some ⟨other, q⟩ → Facts s' other q) :
    ∀ u other q, (s'.goto t key pc).frames u = some ⟨other, q⟩ →
      Facts (s'.goto t key pc) other q := by
  intro u other q hu
  by_cases hut : u = t
  · subst hut
    simp only [State.goto, Function.update_self, Option.some.injEq, Frame.mk.injEq] at hu
    obtain ⟨rfl, rfl⟩ := hu
    exact hown
  · simp only [State.goto, Function.update_of_ne hut, hframes] at hu
    exact hothers u other q hut hu

omit [DecidableEq Thread] in
/-- A thread inside the critical section changes only what belongs to its types, and no other
thread inside relies on that. -/
theorem facts_others (hs : Inv s) (ht : s.frames t = some ⟨key, pc⟩) (hpc : pc.Critical)
    {s' : State Thread} (hloaded : ∀ other, (s.pointers other).isSome → (s'.pointers other).isSome)
    (hpointers : ∀ other, other ≠ key → s'.pointers other = s.pointers other)
    (hobjects : ∀ (p : Ptr) (object : Object), object.key ≠ key →
      (s'.objects[p]? = some object ↔ s.objects[p]? = some object)) :
    ∀ u other q, u ≠ t → s.frames u = some ⟨other, q⟩ → Facts s' other q := by
  intro u other q hut hu
  have hfacts := hs.facts u other q hu
  have hother : q.Critical → other ≠ key := by
    rintro hq rfl
    exact hut (hs.exclusive hu hq ht hpc)
  cases q with
  | firstLoad | lock | secondLoad => trivial
  | construct =>
    have hother := hother trivial
    refine ⟨(hpointers other hother).trans hfacts.1, fun object hmem hkey => ?_⟩
    obtain ⟨p, hp⟩ := List.mem_iff_getElem?.mp hmem
    rw [hobjects p object (hkey ▸ hother)] at hp
    exact hfacts.2 object (List.mem_of_getElem? hp) hkey
  | constructing p | store p =>
    have hother := hother trivial
    exact ⟨(hpointers other hother).trans hfacts.1, (hobjects p _ hother).mpr hfacts.2⟩
  | unlock | finalLoad => exact hloaded other hfacts

/-- A move inside the critical section. -/
theorem holder_goto (hs : Inv s) (ht : s.frames t = some ⟨key, pc⟩) (hpc : pc.Critical)
    (hpc' : pc'.Critical) :
    ∀ u other, s.mutexes other = some u ↔
      ∃ q, (s.goto t key pc').frames u = some ⟨other, q⟩ ∧ q.Critical := by
  intro u other
  rw [hs.holder u other]
  by_cases hut : u = t
  · subst hut
    simp only [State.goto, Function.update_self, ht]
    grind
  · simp only [State.goto, Function.update_of_ne hut]

theorem origin_goto {s' : State Thread} (hframes : s'.frames = s.frames) {object : Object} {p : Ptr}
    (hquiet : s.frames t ≠ some ⟨object.key, .constructing p⟩ ∧
      s.frames t ≠ some ⟨object.key, .store p⟩)
    (h : Unpublished s object.key p) : Unpublished (s'.goto t key pc) object.key p := by
  obtain ⟨u, hu⟩ := h
  have hut : u ≠ t := by
    rintro rfl
    exact hu.elim hquiet.1 hquiet.2
  refine ⟨u, ?_⟩
  simpa only [State.goto, Function.update_of_ne hut, hframes] using hu

/-- A step that changes at most who holds the mutex. -/
theorem move (hs : Inv s) {holder : Option Thread}
    (hquiet : ∀ key p, s.frames t ≠ some ⟨key, .constructing p⟩ ∧ s.frames t ≠ some ⟨key, .store p⟩)
    (hfacts : Facts s key pc)
    (hmutex : ∀ u other, (s.setMutex key holder).mutexes other = some u ↔
      if u = t then other = key ∧ pc.Critical else s.mutexes other = some u) :
    Inv ((s.setMutex key holder).goto t key pc) where
  holder := by
    intro u other
    have hholder := hs.holder u other
    have hmutex := hmutex u other
    simp only [State.goto, State.setMutex] at *
    grind
  facts := facts_goto rfl hfacts fun u other q _ => hs.facts u other q
  ready := hs.ready
  origin p object hp := (hs.origin p object hp).imp_right (origin_goto rfl (hquiet _ _))
  returned := hs.returned

/-- A step that only moves a thread, into the critical section or out of it. -/
theorem stay (hs : Inv s)
    (hquiet : ∀ key p, s.frames t ≠ some ⟨key, .constructing p⟩ ∧ s.frames t ≠ some ⟨key, .store p⟩)
    (hfacts : Facts s key pc)
    (hcritical : ∀ other, (∃ q, s.frames t = some ⟨other, q⟩ ∧ q.Critical) ↔
      other = key ∧ pc.Critical) :
    Inv (s.goto t key pc) := by
  rw [← s.setMutex_self key]
  refine hs.move hquiet hfacts fun u other => ?_
  rw [s.setMutex_self key]
  split_ifs with hut
  · rw [hut, hs.holder, hcritical]
  · rfl

theorem construct (hs : Inv s) (ht : s.frames t = some ⟨key, .construct⟩) :
    Inv ((s.setObjects (s.objects ++ [⟨key, false⟩])).goto t key
      (.constructing s.objects.length)) := by
  obtain ⟨hnull, hnone⟩ := hs.facts t key _ ht
  refine ⟨hs.holder_goto ht trivial trivial,
    facts_goto (s := s) rfl ⟨hnull, by simp [State.setObjects]⟩ ?_, ?_, ?_, hs.returned⟩
  · refine hs.facts_others ht trivial (fun _ hother => hother) (fun _ _ => rfl) ?_
    intro p object hkey
    grind [State.setObjects]
  · intro other p hp
    have hready := hs.ready other p hp
    grind [State.goto, State.setObjects]
  · intro p object hp
    simp only [State.goto, State.setObjects, List.getElem?_append] at hp
    split_ifs at hp with hlt
    · exact (hs.origin p object hp).imp_right (origin_goto (s := s) rfl (by simp [ht]))
    · obtain ⟨rfl, rfl⟩ : p = s.objects.length ∧ object = ⟨key, false⟩ := by grind
      exact .inr ⟨t, .inl (by simp [State.goto])⟩

theorem constructed {p : Ptr} (hs : Inv s) (ht : s.frames t = some ⟨key, .constructing p⟩) :
    Inv ((s.setObjects (s.objects.set p ⟨key, true⟩)).goto t key (.store p)) := by
  obtain ⟨hnull, hobject⟩ := hs.facts t key _ ht
  have hlt : p < s.objects.length := (List.getElem?_eq_some_iff.mp hobject).1
  refine ⟨hs.holder_goto ht trivial trivial,
    facts_goto (s := s) rfl ⟨hnull, by simp [State.setObjects, hlt]⟩ ?_, ?_, ?_, hs.returned⟩
  · refine hs.facts_others ht trivial (fun _ hother => hother) (fun _ _ => rfl) ?_
    intro q object hkey
    grind [State.setObjects]
  · intro other q hq
    have hready := hs.ready other q hq
    grind [State.goto, State.setObjects]
  · intro q object hq
    simp only [State.goto, State.setObjects, List.getElem?_set] at hq
    split_ifs at hq with heq
    · cases hq
      subst heq
      exact .inr ⟨t, .inr (by simp [State.goto])⟩
    · exact (hs.origin q object hq).imp_right (origin_goto (s := s) rfl (by simp [ht, heq]))

theorem store {p : Ptr} (hs : Inv s) (ht : s.frames t = some ⟨key, .store p⟩) :
    Inv ((s.setPointer key p).goto t key .unlock) := by
  obtain ⟨hnull, hobject⟩ := hs.facts t key _ ht
  have hpointers : ∀ other, (s.setPointer key p).pointers other =
      if other = key then some p else s.pointers other := fun other => Function.update_apply ..
  refine ⟨hs.holder_goto ht trivial trivial,
    facts_goto (s := s) rfl (by simp [Facts, hpointers]) ?_, ?_, ?_, ?_⟩
  · refine hs.facts_others ht trivial ?_ ?_ fun _ _ _ => Iff.rfl
    · intro other hloaded
      rw [hpointers]
      split_ifs
      · rfl
      · exact hloaded
    · intro other hother
      rw [hpointers, if_neg hother]
  · intro other q hq
    have hq : (s.setPointer key p).pointers other = some q := hq
    rw [hpointers] at hq
    split_ifs at hq with heq
    · cases hq
      rw [heq]
      exact hobject
    · exact hs.ready other q hq
  · intro q object hq
    change (s.setPointer key p).pointers object.key = some q ∨ _
    rw [hpointers]
    rcases hs.origin q object hq with h | h
    · rw [if_neg (by grind)]
      exact .inl h
    · by_cases heq : object.key = key ∧ p = q
      · rw [if_pos heq.1, heq.2]
        exact .inl rfl
      · exact .inr (origin_goto (s := s) rfl (by simp [ht]; grind) h)
  · intro r hr
    obtain ⟨hpointer, hsome⟩ := hs.returned r hr
    refine ⟨?_, hsome⟩
    rw [hpointer] at hsome ⊢
    exact (Function.update_of_ne (by grind) ..).symm

theorem leave (hs : Inv s) (ht : s.frames t = some ⟨key, .finalLoad⟩) : Inv (s.leave t key) := by
  have hloaded := hs.facts t key _ ht
  refine ⟨?_, ?_, hs.ready, ?_, ?_⟩
  · intro u other
    rw [show (s.leave t key).mutexes other = s.mutexes other from rfl, hs.holder]
    by_cases hut : u = t
    · subst hut
      simp [State.leave, ht, Pc.Critical]
    · simp only [State.leave, Function.update_of_ne hut]
  · intro u other q hu
    have hfacts := hs.facts u other q
    by_cases hut : u = t
    · simp [State.leave, hut] at hu
    · simp only [State.leave, Function.update_of_ne hut] at hu
      exact hfacts hu
  · intro p object hp
    refine (hs.origin p object hp).imp_right ?_
    rintro ⟨u, hu⟩
    have hut : u ≠ t := by
      rintro rfl
      simp [ht] at hu
    exact ⟨u, by simpa only [State.leave, Function.update_of_ne hut] using hu⟩
  · intro r hr
    have hret := hs.returned r
    grind [State.leave, Facts]

end Inv

omit [DecidableEq Thread] in
theorem inv_initial : Inv ({} : State Thread) := by
  constructor <;> simp

theorem inv_runStep {s s' : State Thread} {t : Thread} {key : Key} {pc : Pc} (hs : Inv s)
    (ht : s.frames t = some ⟨key, pc⟩) (h : runStep s t key pc = some s') : Inv s' := by
  cases pc with
  | firstLoad =>
    cases h
    refine hs.stay (by simp [ht]) ?_ ?_
    · by_cases hp : (s.pointers key).isSome <;> simp [hp, Facts]
    · by_cases hp : (s.pointers key).isSome <;> simp [hp, ht, Pc.Critical]
  | lock =>
    simp only [runStep] at h
    split_ifs at h with hfree
    cases h
    refine hs.move (by simp [ht]) trivial fun u other => ?_
    have hout := hs.holder t other
    simp only [ht, State.setMutex, Function.update_apply] at hout ⊢
    grind [Pc.Critical]
  | secondLoad =>
    cases h
    -- the pointer is null and the mutex is held, so nobody has made an object
    have hnone : s.pointers key = none → ∀ object ∈ s.objects, object.key ≠ key := by
      intro hnull object hmem hkey
      obtain ⟨p, hp⟩ := List.mem_iff_getElem?.mp hmem
      rcases hs.origin p object hp with hpointer | ⟨u, hu⟩
      · rw [hkey, hnull] at hpointer
        cases hpointer
      · rw [hkey] at hu
        rcases hu with hu | hu
        all_goals
          cases hs.exclusive hu trivial ht trivial
          rw [ht] at hu
          cases hu
    refine hs.stay (by simp [ht]) ?_ ?_
    · cases hp : s.pointers key with
      | none => exact ⟨hp, hnone hp⟩
      | some p => exact (congrArg Option.isSome hp).trans rfl
    · cases hp : s.pointers key <;> simp [ht, Pc.Critical, eq_comm]
  | construct =>
    cases h
    exact hs.construct ht
  | constructing p =>
    cases h
    exact hs.constructed ht
  | store p =>
    cases h
    exact hs.store ht
  | unlock =>
    cases h
    have hloaded : Facts s key .finalLoad := hs.facts t key .unlock ht
    refine hs.move (by simp [ht]) hloaded fun u other => ?_
    have hheld := (hs.holder t key).mpr ⟨_, ht, trivial⟩
    have hout := hs.holder t other
    simp only [ht, State.setMutex, Function.update_apply] at hout ⊢
    grind [Pc.Critical]
  | finalLoad =>
    cases h
    exact hs.leave ht

theorem inv_step (s : State Thread) (a : Action Thread) (s' : State Thread) (hs : Inv s)
    (h : step s a = some s') : Inv s' := by
  cases a with
  | call t args =>
    simp only [step] at h
    split_ifs at h with ht
    cases h
    exact hs.stay (by simp [ht]) trivial (by simp [ht, Pc.Critical])
  | run t =>
    obtain ⟨⟨key, pc⟩, ht, h⟩ := Option.bind_eq_some_iff.mp h
    exact inv_runStep hs ht h

theorem inv_exec {s : State Thread} {actions : List (Action Thread)}
    (h : exec step {} actions = some s) : Inv s :=
  exec_induct inv_step inv_initial h

/-! ## Guarantees -/

omit [DecidableEq Thread] in
theorem Inv.null_of_unpublished {s : State Thread} (hs : Inv s) {key : Key} {p : Ptr}
    (h : Unpublished s key p) : s.pointers key = none := by
  obtain ⟨t, ht | ht⟩ := h
  · exact (hs.facts t _ _ ht).1
  · exact (hs.facts t _ _ ht).1

omit [DecidableEq Thread] in
/-- Each list of types has at most one object. -/
theorem Inv.unique {s : State Thread} (hs : Inv s) {p q : Ptr} {object object' : Object}
    (hp : s.objects[p]? = some object) (hq : s.objects[q]? = some object')
    (hkey : object.key = object'.key) : p = q := by
  have hp := hs.origin p object hp
  have hq := hs.origin q object' hq
  rw [← hkey] at hq
  rcases hp with hp | hp <;> rcases hq with hq | hq
  · exact Option.some.inj (hp.symm.trans hq)
  · rw [hs.null_of_unpublished hq] at hp
    cases hp
  · rw [hs.null_of_unpublished hp] at hq
    cases hq
  · -- both threads are in the critical section, so they are one thread
    obtain ⟨t, ht⟩ := hp
    obtain ⟨u, hu⟩ := hq
    have htu : t = u := by
      rcases ht with ht | ht <;> rcases hu with hu | hu <;> exact hs.exclusive ht trivial hu trivial
    subst htu
    grind

/-- All that has happened so far was done for these types. -/
structure Only (key : Key) (s : State Thread) : Prop where
  frames : ∀ t frame, s.frames t = some frame → frame.key = key
  objects : ∀ object ∈ s.objects, object.key = key
  returned : ∀ r ∈ s.returned, r.1 = key

def Action.For (key : Key) : Action Thread → Prop
  | .call _ args => keyOf args = key
  | .run _ => True

theorem Only.goto {key : Key} {s s' : State Thread} (hs : Only key s) {t : Thread} (pc : Pc)
    (hframes : s'.frames = s.frames) (hobjects : ∀ object ∈ s'.objects, object.key = key)
    (hreturned : s'.returned = s.returned) : Only key (s'.goto t key pc) where
  frames u frame hu := by
    by_cases hut : u = t
    · subst hut
      simp only [State.goto, Function.update_self, Option.some.injEq] at hu
      rw [← hu]
    · simp only [State.goto, Function.update_of_ne hut, hframes] at hu
      exact hs.frames u frame hu
  objects := hobjects
  returned r hr := hs.returned r (hreturned ▸ hr)

theorem only_step {key : Key} (s : State Thread) (a : Action Thread) (s' : State Thread)
    (hs : Only key s) (ha : a.For key) (h : step s a = some s') : Only key s' := by
  cases a with
  | call t args =>
    simp only [step] at h
    split_ifs at h
    cases h
    cases ha
    exact hs.goto _ rfl hs.objects rfl
  | run t =>
    obtain ⟨⟨other, pc⟩, ht, h⟩ := Option.bind_eq_some_iff.mp h
    obtain rfl : other = key := hs.frames t _ ht
    cases pc with
    | firstLoad | secondLoad | store | unlock =>
      cases h
      exact hs.goto _ rfl hs.objects rfl
    | lock =>
      simp only [runStep] at h
      split_ifs at h
      cases h
      exact hs.goto _ rfl hs.objects rfl
    | construct =>
      cases h
      refine hs.goto _ rfl (fun object hmem => ?_) rfl
      rcases List.mem_append.mp hmem with hmem | hmem
      · exact hs.objects object hmem
      · simp at hmem
        rw [hmem]
    | constructing p =>
      cases h
      refine hs.goto _ rfl (fun object hmem => ?_) rfl
      rcases List.mem_or_eq_of_mem_set hmem with hmem | hmem
      · exact hs.objects object hmem
      · rw [hmem]
    | finalLoad =>
      cases h
      refine ⟨fun u frame hu => ?_, hs.objects, fun r hr => ?_⟩
      · by_cases hut : u = t
        · simp [State.leave, hut] at hu
        · simp only [State.leave, Function.update_of_ne hut] at hu
          exact hs.frames u frame hu
      · rcases List.mem_append.mp hr with hr | hr
        · exact hs.returned r hr
        · simp at hr
          rw [hr]

/-- In every interleaving of calls with the same argument types, the constructor runs at most
once, and all calls that return give the same pointer, to an object whose constructor has
returned. -/
theorem double_checked_construction {key : Key} {actions : List (Action Thread)} {s : State Thread}
    (hcalls : ∀ a ∈ actions, a.For key) (hrun : exec step {} actions = some s) :
    s.objects.length ≤ 1 ∧
    ∃ p, ∀ r ∈ s.returned, r.2 = some p ∧ s.objects[p]? = some ⟨key, true⟩ := by
  have hinv := inv_exec hrun
  have honly : Only key s := by
    refine exec_invariant only_step ?_ (along_of_mem (fun a ha _ => hcalls a ha) _) hrun
    constructor <;> simp
  constructor
  · by_contra hlen
    have hfirst := List.getElem?_eq_getElem (l := s.objects) (i := 0) (by omega)
    have hsecond := List.getElem?_eq_getElem (l := s.objects) (i := 1) (by omega)
    have hkeys := (honly.objects _ (List.mem_of_getElem? hfirst)).trans
      (honly.objects _ (List.mem_of_getElem? hsecond)).symm
    exact absurd (hinv.unique hfirst hsecond hkeys) Nat.zero_ne_one
  · refine ⟨(s.pointers key).getD 0, fun r hr => ?_⟩
    obtain ⟨hpointer, hsome⟩ := hinv.returned r hr
    rw [honly.returned r hr] at hpointer
    obtain ⟨p, hp⟩ := Option.isSome_iff_exists.mp hsome
    rw [hpointer] at hp
    rw [hpointer, hp]
    exact ⟨rfl, hinv.ready key p hp⟩

/-- Two threads find no object, one makes it while the other waits for the mutex. -/
theorem double_checked_construction_two_threads :
    let literal := [CppType.array (.const (.named "char")) 6]
    let actions : List (Action Bool) :=
      [.call true literal, .call false literal, .run true, .run false, .run true, .run true,
        .run true, .run true, .run true, .run true, .run true, .run false, .run false, .run false,
        .run false]
    ∃ s, exec step {} actions = some s ∧ s.returned.length = 2 ∧ s.objects.length ≤ 1 ∧
      ∃ p, ∀ r ∈ s.returned, r.2 = some p ∧ s.objects[p]? = some ⟨keyOf literal, true⟩ := by
  intro literal actions
  have hcalls : ∀ a ∈ actions, a.For (keyOf literal) := by
    simp [actions, Action.For]
  exact ⟨_, rfl, rfl, double_checked_construction hcalls rfl⟩

/-! ## One thread alone -/

/-- What `instanceCall` sees of a state. -/
def State.program (s : State Thread) : Program where
  pointers := s.pointers
  constructed := s.objects.length

theorem exec_goto_run {s r u : State Thread} {t : Thread} {key : Key} {pc : Pc}
    {as : List (Action Thread)} (h : runStep (s.goto t key pc) t key pc = some r)
    (hrest : exec step r as = some u) : exec step (s.goto t key pc) (.run t :: as) = some u := by
  refine exec_cons.mpr ⟨r, ?_, hrest⟩
  simpa [step, State.goto] using h

/-- The steps of a thread that finds the object. -/
theorem exec_of_loaded {s : State Thread} {t : Thread} {key : Key} {p : Ptr}
    (ht : s.frames t = none) (hp : s.pointers key = some p) :
    exec step (s.goto t key .firstLoad) (List.replicate 2 (.run t)) =
      some { s with returned := s.returned ++ [(key, some p)] } := by
  apply exec_goto_run (r := s.goto t key .finalLoad)
  · simp [runStep, State.goto, hp]
  apply exec_goto_run (r := { s with returned := s.returned ++ [(key, some p)] })
  · simp [runStep, State.leave, State.goto, Function.update_eq_self_iff, ht, hp]
  rfl

/-- The steps of a thread that makes the object. -/
theorem exec_of_null {s : State Thread} {t : Thread} {key : Key} (ht : s.frames t = none)
    (hfree : s.mutexes key = none) (hp : s.pointers key = none) :
    exec step (s.goto t key .firstLoad) (List.replicate 8 (.run t)) =
      some { s with
        pointers := Function.update s.pointers key (some s.objects.length)
        objects := s.objects ++ [⟨key, true⟩]
        returned := s.returned ++ [(key, some s.objects.length)] } := by
  let locked := s.setMutex key (some t)
  let made := locked.setObjects (s.objects ++ [⟨key, true⟩])
  let unlocked := ((s.setObjects (s.objects ++ [⟨key, true⟩])).setPointer key s.objects.length)
  apply exec_goto_run (r := s.goto t key .lock)
  · simp [runStep, State.goto, hp]
  apply exec_goto_run (r := locked.goto t key .secondLoad)
  · simp [runStep, State.goto, hfree, locked, State.setMutex]
  apply exec_goto_run (r := locked.goto t key .construct)
  · simp [runStep, State.goto, hp, locked, State.setMutex]
  apply exec_goto_run (r := (locked.setObjects (s.objects ++ [⟨key, false⟩])).goto t key
    (.constructing s.objects.length))
  · simp [runStep, State.goto, locked, State.setMutex, State.setObjects]
  apply exec_goto_run (r := made.goto t key (.store s.objects.length))
  · simp [runStep, State.goto, made, locked, State.setMutex, State.setObjects]
  apply exec_goto_run (r := (made.setPointer key s.objects.length).goto t key .unlock)
  · simp [runStep, State.goto, made, locked, State.setMutex, State.setObjects, State.setPointer]
  apply exec_goto_run (r := unlocked.goto t key .finalLoad)
  · simp [runStep, State.goto, made, locked, unlocked, State.setMutex, State.setObjects,
      State.setPointer, Function.update_eq_self_iff, hfree]
  apply exec_goto_run (r := { unlocked with
    returned := s.returned ++ [(key, some s.objects.length)] })
  · simp [runStep, State.leave, State.goto, unlocked, State.setObjects, State.setPointer,
      Function.update_eq_self_iff, ht]
  rfl

/-- A thread alone does in its steps what the call does at once. -/
theorem exec_instanceCall (s : State Thread) (t : Thread) (args : List CppType)
    (ht : s.frames t = none) (hfree : s.mutexes (keyOf args) = none) :
    let call := (instanceCall args).run s.program
    ∃ n s', exec step s (.call t args :: List.replicate n (.run t)) = some s' ∧
      s'.program = call.2 ∧ s'.returned = s.returned ++ [(keyOf args, call.1)] ∧
      s'.frames = s.frames ∧ s'.mutexes = s.mutexes := by
  intro call
  have henter : step s (.call t args) = some (s.goto t (keyOf args) .firstLoad) := if_pos ht
  cases hp : s.pointers (keyOf args) with
  | some p =>
    have hcall : call = _ := instanceCall_of_loaded (s := s.program) hp
    rw [hcall]
    exact ⟨2, _, exec_cons.mpr ⟨_, henter, exec_of_loaded ht hp⟩, rfl, rfl, rfl, rfl⟩
  | none =>
    have hcall : call = _ := instanceCall_of_null (s := s.program) hp
    rw [hcall]
    refine ⟨8, _, exec_cons.mpr ⟨_, henter, exec_of_null ht hfree hp⟩, ?_, rfl, rfl, rfl⟩
    simp [State.program]

end Zatestil.Singleton
