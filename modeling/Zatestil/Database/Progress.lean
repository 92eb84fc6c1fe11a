import Zatestil.Database.Locking

/-!
# The steps that end a transaction

The constructor of a transaction waits for the mutex and nothing else in the code does. What
is left to do for an object is bounded by its place in the code (`Object.rank`), so the steps
that bring transactions to their end are taken only finitely often (`System.inv_rank`), and a
transaction that is started can take one, unless `create_map` throws
(`Running.exists_step`).
-/
namespace Zatestil.Database
open Library Util

/-- The steps that bring a transaction to its end; a scope may make as many calls as it likes
and threads may make new transactions. -/
def Act.ends {Value : Type} : Act Value → Bool
  | .make _ | .call _ _ => false
  | .lock | .start | .createMap | .commit | .leave | .finish | .unlock | .members => true

/-- The number of steps that are left at most. -/
def Pc.rank : Pc → Nat
  | .opened => 7
  | .created => 6
  | .finishing _ .body => 5
  | .unlocking .body => 4
  | .returned => 3
  | .finishing _ .destructor => 3
  | .unlocking .destructor => 2
  | .destroyed => 1
  | .gone => 0

def Object.rank {E : Mdbx} : Option (Object E) → Nat
  | none => 0
  | some (.constructed _) => 9
  | some (.locked _ _) => 8
  | some (.started x) => x.pc.rank

/-- `create_map` throws in `openTable`, which is `noexcept`. -/
def Running.Terminates {E : Mdbx} (x : Running E) : Prop :=
  ∃ name error, x.role = .openTable name ∧ x.pc = .opened ∧ E.createMap x.txn name = .error error

namespace Running

variable {E : Mdbx} {Value : Type} {S : Schema Value} {i : Nat} {d d' : Database E}
  {x x' : Running E} {p : Content}

theorem rank_finish (d : Database E) (x : Running E) (how : Ending) (caller : Caller) :
    (x.finish d caller how).2.pc = .unlocking caller := by
  cases how <;> rfl

/-- Every step but a call moves the code on. -/
theorem step_rank (h : x.Ok i p) {a : Act Value} (ha : a.ends = true)
    (hs : x.step S d a = some (d', x')) : x'.pc.rank < x.pc.rank := by
  cases a with
  | make | call => cases ha
  | lock | start => cases hs
  | createMap =>
    simp only [step] at hs
    split at hs
    · rename_i name hrole hpc
      split at hs
      · cases hs
        simp [hpc, Pc.rank]
      · cases hs
    · cases hs
  | commit =>
    simp only [step] at hs
    split_ifs at hs with hpc
    cases hs
    rw [(ok_enter h .commit .body (by rw [hpc]; rfl) (fun _ => rfl)).1, hpc]
    simp [Pc.rank]
  | leave =>
    simp only [step] at hs
    split_ifs at hs with hcond
    cases hs
    rcases hcond with ⟨hpc, -⟩ | hpc
    · rw [(ok_enter h x.ending .destructor (by rw [hpc]; rfl) (fun h => by cases h)).1, hpc]
      simp [Pc.rank]
    · rw [(ok_enter_returned h x.ending hpc).1, hpc]
      simp [Pc.rank, back]
  | finish =>
    simp only [step] at hs
    split at hs
    · rename_i how caller hpc
      have hx : (x.finish d caller how).2 = x' := congrArg Prod.snd (Option.some.inj hs)
      rw [← hx, rank_finish, hpc]
      cases caller <;> simp [Pc.rank]
    · cases hs
  | unlock =>
    simp only [step] at hs
    split at hs
    · rename_i caller hpc
      obtain ⟨r, hr, -⟩ := ok_unlock h hpc d
      rw [hr] at hs
      cases hs
      cases caller <;> simp [hpc, back, Pc.rank]
    · cases hs
  | members =>
    simp only [step] at hs
    split_ifs at hs with hpc
    rw [(ok_members h hpc d).1] at hs
    cases hs
    simp [hpc, Pc.rank]

/-- A started transaction waits for nobody. -/
theorem exists_step (h : x.Ok i p) (hpc : x.pc ≠ .gone) (hx : ¬x.Terminates) (d : Database E) :
    ∃ a : Act Value, a.ends = true ∧ (x.step S d a).isSome = true := by
  cases hxpc : x.pc with
  | opened =>
    cases hrole : x.role with
    | reader | writer => exact ⟨.leave, rfl, by simp [step, hxpc, hrole, Role.scoped]⟩
    | openTable name =>
      cases hu : E.createMap x.txn name with
      | error e => exact absurd ⟨name, e, hrole, hxpc, hu⟩ hx
      | ok u => exact ⟨.createMap, rfl, by simp [step, hxpc, hrole, hu]⟩
  | created => exact ⟨.commit, rfl, by simp [step, hxpc]⟩
  | finishing how caller => exact ⟨.finish, rfl, by simp [step, hxpc]⟩
  | unlocking caller =>
    obtain ⟨r, hr, -⟩ := ok_unlock h hxpc d
    exact ⟨.unlock, rfl, by simp [step, hxpc, hr]⟩
  | returned => exact ⟨.leave, rfl, by simp [step, hxpc]⟩
  | destroyed => exact ⟨.members, rfl, by simp [step, hxpc]⟩
  | gone => exact absurd hxpc hpc

end Running

namespace Object

variable {E : Mdbx} {Value : Type} {S : Schema Value} {i : Nat} {d d' : Database E} {p : Content}

theorem step_rank {o : Option (Object E)} {o' : Object E} (h : ∀ x, o = some x → x.Ok i p)
    {a : Act Value} (ha : a.ends = true) (hs : step S i d o a = some (d', o')) :
    o ≠ none ∧ rank (some o') < rank o := by
  rcases o with _ | role | ⟨role, lock⟩ | x
  · cases a with
    | make => cases ha
    | _ => cases hs
  · cases a with
    | lock =>
      obtain ⟨m, -, hs⟩ := Option.bind_eq_some_iff.mp hs
      cases hs
      simp [rank]
    | _ => cases hs
  · cases a with
    | start =>
      cases hs
      simp [rank, Pc.rank]
    | _ => cases hs
  · obtain ⟨⟨d₁, x'⟩, hx, hs⟩ := Option.bind_eq_some_iff.mp hs
    cases hs
    exact ⟨by simp, Running.step_rank (h _ rfl) ha hx⟩

end Object

namespace System

variable {E : Mdbx} {Value : Type} {S : Schema Value} {initial : Content} {s t : System E}

/-- What is left to do for the objects in `F`. -/
def rank (F : Finset Nat) (s : System E) : Nat := ∑ i ∈ F, Object.rank (s.object i)

/-- The objects that exist are in `F`. -/
def Within (F : Finset Nat) (s : System E) : Prop := ∀ i, s.object i ≠ none → i ∈ F

theorem rank_le (F : Finset Nat) (s : System E) : s.rank F ≤ 9 * F.card := by
  have hle : ∀ i ∈ F, Object.rank (s.object i) ≤ 9 := by
    intro i _
    rcases s.object i with _ | role | ⟨role, lock⟩ | x <;> simp only [Object.rank]
    · omega
    · omega
    · omega
    · rcases x.pc with _ | _ | ⟨_, _ | _⟩ | ⟨_ | _⟩ | _ | _ | _ <;> simp [Pc.rank]
  simpa [rank, mul_comm] using Finset.sum_le_card_nsmul F _ 9 hle

theorem within_step {F : Finset Nat} {a : Nat × Act Value} (h : s.Within F)
    (hs : step S s a = some t) : t.Within (insert a.1 F) := by
  obtain ⟨⟨d, o⟩, -, hs⟩ := Option.bind_eq_some_iff.mp hs
  cases hs
  intro j hj
  by_cases hji : j = a.1
  · simp [hji]
  · refine Finset.mem_insert_of_mem (h j ?_)
    simpa [Function.update_of_ne hji] using hj

/-- Only the transactions that took a step exist. -/
theorem within_exec {F : Finset Nat} {as : List (Nat × Act Value)} (h : s.Within F)
    (ht : exec (step S) s as = some t) : t.Within (F ∪ (as.map Prod.fst).toFinset) := by
  induction as generalizing s F with
  | nil =>
    cases ht
    simpa using h
  | cons a as ih =>
    obtain ⟨u, hu, ht⟩ := exec_cons.mp ht
    have hrest := ih (within_step h hu) ht
    intro j hj
    have := hrest j hj
    simp only [List.map_cons, List.toFinset_cons, Finset.mem_union, Finset.mem_insert] at this ⊢
    tauto

theorem step_rank {F : Finset Nat} {a : Nat × Act Value} (h : Inv initial s) (hF : s.Within F)
    (ha : a.2.ends = true) (hs : step S s a = some t) : t.Within F ∧ t.rank F < s.rank F := by
  have hwithin := within_step hF hs
  obtain ⟨⟨d, o⟩, ho, hs⟩ := Option.bind_eq_some_iff.mp hs
  cases hs
  obtain ⟨hsome, hlt⟩ := Object.step_rank (h.ok a.1) ha ho
  have hmem := hF a.1 hsome
  rw [Finset.insert_eq_of_mem hmem] at hwithin
  exact ⟨hwithin, sum_update_lt (r := Object.rank) hmem hlt⟩

/-- A step of the code of the transaction `i` is a step of the system. -/
theorem step_isSome {i : Nat} {a : Act Value}
    (h : (Object.step S i s.database (s.object i) a).isSome = true) :
    (step S s (i, a)).isSome = true := by
  obtain ⟨⟨d, o⟩, ho⟩ := Option.isSome_iff_exists.mp h
  simp [step, ho]

/-- The invariant together with the transactions that there are. -/
theorem inv_rank (hE : E.Documented) (hT : E.Transactional) {F : Finset Nat} :
    ∀ (s : System E) (a : Nat × Act Value) t, Inv initial s ∧ s.Within F → a.2.ends = true →
      step S s a = some t → (Inv initial t ∧ t.Within F) ∧ t.rank F < s.rank F := by
  rintro s a t ⟨hinv, hF⟩ ha hs
  obtain ⟨hwithin, hlt⟩ := step_rank hinv hF ha hs
  exact ⟨⟨inv_step hE hT hinv hs, hwithin⟩, hlt⟩

end System

end Zatestil.Database
