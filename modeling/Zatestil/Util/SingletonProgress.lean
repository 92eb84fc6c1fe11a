import Zatestil.Util.Singleton

/-!
# Calls of `instance` return

The constructors are taken to return: they neither throw nor call `instance`, with the same types
above all. Then the mutexes are the only thing a thread waits for in `instance`, and a thread that
holds one is in the critical section and goes on. So there is no deadlock, and a call takes at most
eight steps (`Pc.rank`). The books of a run are kept for each list of types: its calls are those that have
returned and those still inside (`exec_entered`).
-/
namespace Zatestil.Singleton
open Library

/-- The steps a call has left at most. -/
def Pc.rank : Pc → Nat
  | firstLoad => 8
  | lock => 7
  | secondLoad => 6
  | construct => 5
  | constructing _ => 4
  | store _ => 3
  | unlock => 2
  | finalLoad => 1

def Frame.rank : Option Frame → Nat
  | none => 0
  | some frame => frame.pc.rank

/-- One for a call of this function. -/
def Frame.at (key : Key) : Option Frame → Nat
  | none => 0
  | some frame => if frame.key = key then 1 else 0

@[simp] theorem Frame.rank_none : Frame.rank none = 0 := rfl

@[simp] theorem Frame.rank_some (key : Key) (pc : Pc) :
    Frame.rank (some ⟨key, pc⟩) = pc.rank := rfl

@[simp] theorem Frame.at_none (key : Key) : Frame.at key none = 0 := rfl

@[simp] theorem Frame.at_some (key other : Key) (pc : Pc) :
    Frame.at key (some ⟨other, pc⟩) = if other = key then 1 else 0 := rfl

namespace Action

variable {Thread : Type}

def thread : Action Thread → Thread
  | call t _ | run t => t

/-- The function that is called. -/
def key? : Action Thread → Option Key
  | call _ args => some (keyOf args)
  | run _ => none

def isCall : Action Thread → Bool
  | call _ _ => true
  | run _ => false

end Action

/-- The functions called in a run, in the order of the calls. -/
def calledKeys {Thread : Type} (actions : List (Action Thread)) : List Key :=
  actions.filterMap Action.key?

variable {Thread : Type} [DecidableEq Thread]

/-! ## What a step does to the calls -/

/-- A thread inside `instance` moves on in its call or returns from it. -/
theorem runStep_cases {s s' : State Thread} {t : Thread} {key : Key} {pc : Pc}
    (h : runStep s t key pc = some s') :
    (∃ pc', s'.frames = Function.update s.frames t (some ⟨key, pc'⟩) ∧ pc'.rank < pc.rank ∧
      s'.returned = s.returned) ∨
    (pc = .finalLoad ∧ s' = s.leave t key) := by
  cases pc with
  | firstLoad | secondLoad =>
    cases h
    refine .inl ⟨_, rfl, ?_, rfl⟩
    split_ifs <;> decide
  | lock =>
    simp only [runStep] at h
    split_ifs at h
    cases h
    exact .inl ⟨_, rfl, by decide, rfl⟩
  | construct | constructing p | store p | unlock =>
    cases h
    exact .inl ⟨_, rfl, by simp [Pc.rank], rfl⟩
  | finalLoad =>
    cases h
    exact .inr ⟨rfl, rfl⟩

namespace State

def rank (F : Finset Thread) (s : State Thread) : Nat := ∑ t ∈ F, Frame.rank (s.frames t)

/-- The calls of a function, those that have returned and those that are inside. -/
def entered (F : Finset Thread) (key : Key) (s : State Thread) : Nat :=
  (s.returned.map Prod.fst).count key + ∑ t ∈ F, Frame.at key (s.frames t)

variable {F : Finset Thread} {s s' : State Thread} {a : Action Thread}

/-- A call brings eight steps, every other step is one of them. -/
theorem step_rank (ha : a.thread ∈ F) (h : step s a = some s') :
    (if !a.isCall then 1 else 0) + s'.rank F ≤ s.rank F + if a.isCall then 8 else 0 := by
  cases a with
  | call t args =>
    have hmem : t ∈ F := ha
    simp only [step] at h
    split_ifs at h with ht
    cases h
    have hsum := sum_update_add s.frames (some ⟨keyOf args, .firstLoad⟩) Frame.rank hmem
    rw [ht, Frame.rank_none, Frame.rank_some] at hsum
    simp only [rank, goto, Action.isCall, Bool.not_true, Bool.false_eq_true, if_false, if_true]
    simp only [Pc.rank] at hsum
    omega
  | run t =>
    have hmem : t ∈ F := ha
    obtain ⟨⟨key, pc⟩, ht, h⟩ := Option.bind_eq_some_iff.mp h
    have hlt : s'.rank F < s.rank F := by
      rcases runStep_cases h with ⟨pc', hframes, hpc, -⟩ | ⟨rfl, rfl⟩
      · rw [rank, hframes]
        refine sum_update_lt hmem ?_
        rw [ht]
        exact hpc
      · refine sum_update_lt hmem ?_
        rw [ht, Frame.rank_none, Frame.rank_some]
        exact Nat.one_pos
    simp only [Action.isCall, Bool.not_false, Bool.false_eq_true, if_false, if_true]
    omega

/-- A function is entered with its calls and not otherwise. -/
theorem step_entered (key : Key) (ha : a.thread ∈ F) (h : step s a = some s') :
    s'.entered F key = s.entered F key + if a.key? = some key then 1 else 0 := by
  cases a with
  | call t args =>
    have hmem : t ∈ F := ha
    simp only [step] at h
    split_ifs at h with ht
    cases h
    have hsum := sum_update_add s.frames (some ⟨keyOf args, .firstLoad⟩) (Frame.at key) hmem
    rw [ht, Frame.at_none, Frame.at_some] at hsum
    simp only [entered, goto, Action.key?, Option.some.injEq]
    omega
  | run t =>
    have hmem : t ∈ F := ha
    obtain ⟨⟨other, pc⟩, ht, h⟩ := Option.bind_eq_some_iff.mp h
    change runStep s t other pc = some s' at h
    simp only [Action.key?, reduceCtorEq, if_false, entered]
    rcases runStep_cases h with ⟨pc', hframes, -, hreturned⟩ | ⟨-, rfl⟩
    · have hsum := sum_update_add s.frames (some ⟨other, pc'⟩) (Frame.at key) hmem
      rw [ht, Frame.at_some, Frame.at_some] at hsum
      rw [hframes, hreturned]
      omega
    · have hsum := sum_update_add s.frames none (Frame.at key) hmem
      rw [ht, Frame.at_none, Frame.at_some] at hsum
      simp only [leave, List.map_append, List.map_singleton, List.count_append,
        List.count_singleton, beq_iff_eq]
      omega

/-- An object is made or completed by a thread that is in a call of its function. -/
theorem step_objects (h : step s a = some s') : ∀ object ∈ s'.objects,
    object ∈ s.objects ∨ ∃ pc, s.frames a.thread = some ⟨object.key, pc⟩ := by
  intro object hobject
  cases a with
  | call t args =>
    simp only [step] at h
    split_ifs at h
    cases h
    exact .inl hobject
  | run t =>
    obtain ⟨⟨key, pc⟩, ht, h⟩ := Option.bind_eq_some_iff.mp h
    cases pc with
    | firstLoad | secondLoad | store | unlock | finalLoad =>
      cases h
      exact .inl hobject
    | lock =>
      simp only [runStep] at h
      split_ifs at h
      cases h
      exact .inl hobject
    | construct =>
      cases h
      rcases List.mem_append.mp hobject with hold | hnew
      · exact .inl hold
      · obtain rfl := List.mem_singleton.mp hnew
        exact .inr ⟨_, ht⟩
    | constructing p =>
      cases h
      rcases List.mem_or_eq_of_mem_set hobject with hold | rfl
      · exact .inl hold
      · exact .inr ⟨_, ht⟩

end State

/-! ## Runs -/

/-- The threads of a run. -/
def threads (actions : List (Action Thread)) : Finset Thread := (actions.map Action.thread).toFinset

theorem along_threads (s : State Thread) (actions : List (Action Thread)) :
    Along step (fun _ a => a.thread ∈ threads actions) s actions :=
  along_of_mem (fun _ ha _ => List.mem_toFinset.mpr (List.mem_map_of_mem ha)) s

/-- A call takes at most eight steps, whatever the other threads do. -/
theorem exec_steps {s : State Thread} {actions : List (Action Thread)}
    (h : exec step {} actions = some s) :
    actions.countP (!·.isCall) ≤ 8 * actions.countP Action.isCall := by
  have hpaid : (actions.map fun a => if !a.isCall then 1 else 0).sum +
      s.rank (threads actions) ≤ ({} : State Thread).rank (threads actions) +
        (actions.map fun a => if a.isCall then 8 else 0).sum :=
    exec_amortised (I := fun _ => True) (fun _ _ _ _ ha h => ⟨trivial, State.step_rank ha h⟩)
      trivial (along_threads _ actions) h
  rw [sum_map_ite, sum_map_ite] at hpaid
  have hnone : ({} : State Thread).rank (threads actions) = 0 := Finset.sum_const_zero
  omega

/-- The calls of a function have returned or are inside it. -/
theorem exec_entered {s : State Thread} {actions : List (Action Thread)}
    (h : exec step {} actions = some s) (key : Key) :
    s.entered (threads actions) key = (calledKeys actions).count key := by
  have hpaid : (actions.map fun _ => 0).sum + s.entered (threads actions) key =
      ({} : State Thread).entered (threads actions) key +
        (actions.map fun a => if a.key? == some key then 1 else 0).sum := by
    refine exec_balanced (I := fun _ => True) (fun u a v _ ha huv => ⟨trivial, ?_⟩)
      trivial (along_threads _ actions) h
    rw [State.step_entered key ha huv]
    simp
  have hnone : ({} : State Thread).entered (threads actions) key = 0 := by simp [State.entered]
  rw [sum_map_ite, hnone] at hpaid
  rw [calledKeys, List.count_filterMap]
  simpa using hpaid

/-- Every object was made in a call. -/
theorem objects_exec {s : State Thread} {actions : List (Action Thread)}
    (h : exec step {} actions = some s) :
    ∀ object ∈ s.objects, object.key ∈ calledKeys actions := by
  have hentered : ∀ object ∈ s.objects, 0 < s.entered (threads actions) object.key := by
    refine exec_invariant (I := fun u : State Thread => ∀ object ∈ u.objects,
      0 < u.entered (threads actions) object.key) ?_ (by simp) (along_threads _ actions) h
    intro u a v hu ha huv object hobject
    rw [State.step_entered object.key ha huv]
    rcases State.step_objects huv object hobject with hold | ⟨pc, hpc⟩
    · have := hu object hold
      omega
    · have hself : 0 < Frame.at object.key (u.frames a.thread) := by simp [hpc]
      have hinside := Finset.single_le_sum (f := fun t => Frame.at object.key (u.frames t))
        (fun _ _ => Nat.zero_le _) ha
      simp only [State.entered]
      omega
  intro object hobject
  have hpos := hentered object hobject
  rw [exec_entered h] at hpos
  exact List.count_pos_iff.mp hpos

/-! ## At rest -/

/-- A thread that cannot go on waits for a mutex, and its holder can. -/
theorem Inv.exists_run {s : State Thread} (hs : Inv s) {t : Thread} (ht : s.frames t ≠ none) :
    ∃ u, step s (.run u) ≠ none := by
  obtain ⟨⟨key, pc⟩, hframe⟩ := Option.ne_none_iff_exists'.mp ht
  by_cases hrun : step s (.run t) = none
  · have hlock : pc = .lock ∧ s.mutexes key ≠ none := by
      simp only [step, hframe, Option.bind_some] at hrun
      cases pc <;> simp_all [runStep]
    obtain ⟨u, hu⟩ := Option.ne_none_iff_exists'.mp hlock.2
    obtain ⟨pc', hframe', hcritical⟩ := (hs.holder u key).mp hu
    refine ⟨u, ?_⟩
    simp only [step, hframe', Option.bind_some]
    cases pc' <;> first | exact absurd hcritical id | simp [runStep]
  · exact ⟨t, hrun⟩

/-- Calls of `instance` return, as far as the constructors do. In every run the steps inside are at most eight times as many as
the calls. Where no thread can go on, no thread is inside and no mutex is held, every call has
returned, and each list of types that was called has one object, which all its calls have
returned and whose constructor has returned. -/
theorem instance_calls_return {actions : List (Action Thread)} {s : State Thread}
    (hrun : exec step {} actions = some s) :
    actions.countP (!·.isCall) ≤ 8 * actions.countP Action.isCall ∧
    ((∀ t, step s (.run t) = none) →
      (∀ t, s.frames t = none) ∧ (∀ key, s.mutexes key = none) ∧
      (s.returned.map Prod.fst).Perm (calledKeys actions) ∧
      (s.objects.map Object.key).Perm (calledKeys actions).dedup ∧
      ∀ r ∈ s.returned, ∃ p, r.2 = some p ∧ s.objects[p]? = some ⟨r.1, true⟩) := by
  have hinv := inv_exec hrun
  refine ⟨exec_steps hrun, fun hrest => ?_⟩
  have hframes : ∀ t, s.frames t = none := by
    intro t
    by_contra ht
    obtain ⟨u, hu⟩ := hinv.exists_run ht
    exact hu (hrest u)
  have hreturned : (s.returned.map Prod.fst).Perm (calledKeys actions) := by
    refine List.perm_iff_count.mpr fun key => ?_
    have hentered := exec_entered hrun key
    simp only [State.entered, hframes, Frame.at_none, Finset.sum_const_zero, add_zero] at hentered
    exact hentered
  have hsound : ∀ r ∈ s.returned, ∃ p, r.2 = some p ∧ s.objects[p]? = some ⟨r.1, true⟩ := by
    intro r hr
    obtain ⟨hpointer, hsome⟩ := hinv.returned r hr
    obtain ⟨p, hp⟩ := Option.isSome_iff_exists.mp hsome
    exact ⟨p, hp, hinv.ready r.1 p (hpointer ▸ hp)⟩
  refine ⟨hframes, fun key => ?_, hreturned, ?_, hsound⟩
  · by_contra hheld
    obtain ⟨t, ht⟩ := Option.ne_none_iff_exists'.mp hheld
    obtain ⟨pc, hframe, -⟩ := (hinv.holder t key).mp ht
    rw [hframes] at hframe
    cases hframe
  · have hnodup : (s.objects.map Object.key).Nodup := by
      refine List.pairwise_iff_getElem.mpr fun p q hp hq hlt hkey => ?_
      rw [List.getElem_map, List.getElem_map] at hkey
      have heq := hinv.unique (List.getElem?_eq_getElem (by simpa using hp))
        (List.getElem?_eq_getElem (by simpa using hq)) hkey
      exact absurd heq (Nat.ne_of_lt hlt)
    refine (List.perm_ext_iff_of_nodup hnodup (List.nodup_dedup _)).mpr fun key => ?_
    rw [List.mem_dedup]
    constructor
    · intro hkey
      obtain ⟨object, hobject, rfl⟩ := List.mem_map.mp hkey
      exact objects_exec hrun object hobject
    · intro hkey
      obtain ⟨r, hr, rfl⟩ := List.mem_map.mp (hreturned.mem_iff.mpr hkey)
      obtain ⟨p, -, hp⟩ := hsound r hr
      exact List.mem_map.mpr ⟨_, List.mem_of_getElem? hp, rfl⟩

/-- Three threads and two functions: one object is made while its other caller waits. -/
theorem instance_calls_return_two_functions :
    let literal := [CppType.array (.const (.named "char")) 6]
    let path := [CppType.named "std::filesystem::path"]
    let run : Nat → Fin 3 → List (Action (Fin 3)) := fun n t => List.replicate n (.run t)
    let actions : List (Action (Fin 3)) :=
      [.call 0 literal, .call 1 literal, .call 2 path] ++ run 3 0 ++ run 1 1 ++ run 8 2 ++
        run 5 0 ++ run 4 1
    ∃ s, exec step {} actions = some s ∧ actions.countP (!·.isCall) ≤ 24 ∧
      (s.returned.map Prod.fst).Perm [keyOf literal, keyOf literal, keyOf path] ∧
      (s.objects.map Object.key).Perm [keyOf literal, keyOf path] := by
  intro literal path run actions
  obtain ⟨s, hs, hframes⟩ : ∃ s, exec step {} actions = some s ∧ ∀ t, s.frames t = none :=
    ⟨_, rfl, by decide⟩
  obtain ⟨hsteps, hrest⟩ := instance_calls_return hs
  obtain ⟨-, -, hreturned, hobjects, -⟩ := hrest fun t => by simp [step, hframes t]
  exact ⟨s, hs, hsteps, hreturned, hobjects⟩

end Zatestil.Singleton
