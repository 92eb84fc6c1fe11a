import Mathlib.Tactic

/-!
# Machines driven by lists of actions

A machine is a partial step function: `step s a = none` says that the action `a` is
not possible in `s`. An interleaving of several threads is a list of actions, and the
state it reaches is computed by `exec`. `Along` says that every step of a run meets a
condition on the state before it, and `exec_invariant` is the one induction on runs. What the
steps of a run cost is bounded by what there is at its start and what comes in on the way
(`exec_amortised`, `exec_balanced`): so runs whose steps all lower a rank are bounded by it
(`exec_length_le`), and where every step is one unit of work their length does not depend on the
order (`exec_length_eq`).
-/
namespace Zatestil.Library

variable {σ α : Type*} (step : σ → α → Option σ)

/-- Take the actions of a list in order. -/
def exec : σ → List α → Option σ
  | s, [] => some s
  | s, a :: as => (step s a).bind fun t => exec t as

/-- Every action of the run meets `P` in the state in which it is taken. -/
def Along (P : σ → α → Prop) : σ → List α → Prop
  | _, [] => True
  | s, a :: as => P s a ∧ ∀ t, step s a = some t → Along P t as

variable {step}

@[simp] theorem exec_nil (s : σ) : exec step s [] = some s := rfl

theorem exec_cons {s u : σ} {a : α} {as : List α} :
    exec step s (a :: as) = some u ↔ ∃ t, step s a = some t ∧ exec step t as = some u := by
  simp [exec, Option.bind_eq_some_iff]

theorem exec_append {s u : σ} {as bs : List α} :
    exec step s (as ++ bs) = some u ↔ ∃ t, exec step s as = some t ∧ exec step t bs = some u := by
  induction as generalizing s with
  | nil => simp
  | cons a as ih =>
    simp only [List.cons_append, exec_cons, ih]
    constructor
    · rintro ⟨r, hr, t, ht, hu⟩
      exact ⟨t, ⟨r, hr, ht⟩, hu⟩
    · rintro ⟨t, ⟨r, hr, ht⟩, hu⟩
      exact ⟨r, hr, t, ht, hu⟩

/-- What holds at the start and is kept by every step that meets `P` holds after a run. -/
theorem exec_invariant {I : σ → Prop} {P : σ → α → Prop}
    (keep : ∀ s a t, I s → P s a → step s a = some t → I t) :
    ∀ {s t : σ} {as : List α}, I s → Along step P s as → exec step s as = some t → I t := by
  intro s t as
  induction as generalizing s with
  | nil =>
    intro hs _ ht
    cases ht
    exact hs
  | cons a as ih =>
    intro hs hP ht
    obtain ⟨u, hu, ht⟩ := exec_cons.mp ht
    exact ih (keep s a u hs hP.1 hu) (hP.2 u hu) ht

/-- A condition that does not depend on the states can be checked on the list. -/
theorem along_of_mem {P : σ → α → Prop} {as : List α} (h : ∀ a ∈ as, ∀ s, P s a) (s : σ) :
    Along step P s as := by
  induction as generalizing s with
  | nil => trivial
  | cons a as ih =>
    exact ⟨h a (List.mem_cons_self ..) s, fun t _ =>
      ih (fun b hb => h b (List.mem_cons_of_mem a hb)) t⟩

theorem Along.forall_mem {R : α → Prop} {s t : σ} {as : List α}
    (h : Along step (fun _ a => R a) s as) (ht : exec step s as = some t) : ∀ a ∈ as, R a := by
  induction as generalizing s with
  | nil => simp
  | cons a as ih =>
    obtain ⟨u, hu, hut⟩ := exec_cons.mp ht
    intro b hb
    rcases List.mem_cons.mp hb with rfl | hb
    · exact h.1
    · exact ih (h.2 u hu) hut b hb

theorem along_append {P : σ → α → Prop} {s : σ} {as bs : List α} (hs : Along step P s as)
    (ht : ∀ t, exec step s as = some t → Along step P t bs) : Along step P s (as ++ bs) := by
  induction as generalizing s with
  | nil => exact ht s rfl
  | cons a as ih =>
    refine ⟨hs.1, fun u hu => ih (hs.2 u hu) fun t hut => ?_⟩
    exact ht t (exec_cons.mpr ⟨u, hu, hut⟩)

theorem Along.front {P : σ → α → Prop} {s : σ} {as bs : List α}
    (h : Along step P s (as ++ bs)) : Along step P s as := by
  induction as generalizing s with
  | nil => trivial
  | cons a as ih => exact ⟨h.1, fun t ht => ih (h.2 t ht)⟩

/-- The part of a run after a state it goes through. -/
theorem Along.rest {P : σ → α → Prop} {s t : σ} {as bs : List α}
    (h : Along step P s (as ++ bs)) (ht : exec step s as = some t) : Along step P t bs := by
  induction as generalizing s with
  | nil =>
    cases ht
    exact h
  | cons a as ih =>
    obtain ⟨u, hu, ht⟩ := exec_cons.mp ht
    exact ih (h.2 u hu) ht

theorem Along.and {P Q : σ → α → Prop} {s : σ} {as : List α} (hP : Along step P s as)
    (hQ : Along step Q s as) : Along step (fun s a => P s a ∧ Q s a) s as := by
  induction as generalizing s with
  | nil => trivial
  | cons a as ih => exact ⟨⟨hP.1, hQ.1⟩, fun t ht => ih (hP.2 t ht) (hQ.2 t ht)⟩

/-- The rule for invariants that every step keeps. -/
theorem exec_induct {I : σ → Prop} (keep : ∀ s a t, I s → step s a = some t → I t)
    {s t : σ} {as : List α} (hs : I s) (ht : exec step s as = some t) : I t :=
  exec_invariant (P := fun _ _ => True) (fun s a t hI _ h => keep s a t hI h) hs
    (along_of_mem (fun _ _ _ => trivial) s) ht

/-- A machine seen through `view` is another machine. -/
theorem exec_view {τ : Type*} {step' : τ → α → Option τ} {view : σ → τ}
    (h : ∀ s a, (step s a).map view = step' (view s) a) (s : σ) (as : List α) :
    (exec step s as).map view = exec step' (view s) as := by
  induction as generalizing s with
  | nil => rfl
  | cons a as ih =>
    simp only [exec, ← h s a]
    cases step s a with
    | none => rfl
    | some t => exact ih t

/-- A condition that says exactly which steps keep `W`, from states with the invariant, says
exactly in which runs `W` holds all the way. -/
theorem forall_states_iff_along {I W : σ → Prop} {P : σ → α → Prop} (hIW : ∀ s, I s → W s)
    (keep : ∀ s a t, I s → P s a → step s a = some t → I t)
    (exact : ∀ s a t, I s → step s a = some t → W t → P s a) :
    ∀ {s t : σ} {as : List α}, I s → exec step s as = some t →
      ((∀ bs u, bs <+: as → exec step s bs = some u → W u) ↔ Along step P s as) := by
  intro s t as
  induction as generalizing s with
  | nil =>
    intro hs _
    refine iff_of_true (fun bs u hbs hu => ?_) trivial
    obtain rfl := List.prefix_nil.mp hbs
    cases hu
    exact hIW s hs
  | cons a as ih =>
    intro hs ht
    obtain ⟨u, hu, hut⟩ := exec_cons.mp ht
    constructor
    · intro hW
      have hua := hW [a] u (by simp) (exec_cons.mpr ⟨u, hu, rfl⟩)
      have hP := exact s a u hs hu hua
      refine ⟨hP, fun v hv => ?_⟩
      obtain rfl : u = v := Option.some.inj (hu.symm.trans hv)
      refine (ih (keep s a u hs hP hu) hut).mp fun bs v hbs hv => ?_
      exact hW (a :: bs) v (List.prefix_cons_inj a |>.mpr hbs) (exec_cons.mpr ⟨u, hu, hv⟩)
    · rintro ⟨hP, hrest⟩ bs v hbs hv
      cases bs with
      | nil =>
        cases hv
        exact hIW s hs
      | cons b bs =>
        obtain ⟨rfl, hprefix⟩ := List.cons_prefix_cons.mp hbs
        obtain ⟨w, hw, hv⟩ := exec_cons.mp hv
        obtain rfl : u = w := Option.some.inj (hu.symm.trans hw)
        exact (ih (keep s b u hs hP hu) hut).mpr (hrest u hu) bs v hprefix hv

/-- Steps that are paid for: what is spent on a run is at most what was there at its start and
what came in. -/
theorem exec_amortised {I : σ → Prop} {P : σ → α → Prop} {rank : σ → Nat} {cost income : α → Nat}
    (pay : ∀ s a t, I s → P s a → step s a = some t →
      I t ∧ cost a + rank t ≤ rank s + income a) :
    ∀ {s t : σ} {as : List α}, I s → Along step P s as → exec step s as = some t →
      (as.map cost).sum + rank t ≤ rank s + (as.map income).sum := by
  intro s t as
  induction as generalizing s with
  | nil =>
    intro _ _ ht
    cases ht
    simp
  | cons a as ih =>
    intro hs hP ht
    obtain ⟨u, hu, ht⟩ := exec_cons.mp ht
    obtain ⟨hu', hpay⟩ := pay s a u hs hP.1 hu
    have hrest := ih hu' (hP.2 u hu) ht
    simp only [List.map_cons, List.sum_cons]
    omega

/-- Steps that keep the books: nothing is lost on a run. -/
theorem exec_balanced {I : σ → Prop} {P : σ → α → Prop} {stock : σ → Nat} {cost income : α → Nat}
    (pay : ∀ s a t, I s → P s a → step s a = some t →
      I t ∧ cost a + stock t = stock s + income a) :
    ∀ {s t : σ} {as : List α}, I s → Along step P s as → exec step s as = some t →
      (as.map cost).sum + stock t = stock s + (as.map income).sum := by
  intro s t as
  induction as generalizing s with
  | nil =>
    intro _ _ ht
    cases ht
    simp
  | cons a as ih =>
    intro hs hP ht
    obtain ⟨u, hu, ht⟩ := exec_cons.mp ht
    obtain ⟨hu', hpay⟩ := pay s a u hs hP.1 hu
    have hrest := ih hu' (hP.2 u hu) ht
    simp only [List.map_cons, List.sum_cons]
    omega

/-- Steps that lower a rank cannot be taken more often than the rank says. -/
theorem exec_length_le {I : σ → Prop} {P : σ → α → Prop} {rank : σ → Nat}
    (lower : ∀ s a t, I s → P s a → step s a = some t → I t ∧ rank t < rank s)
    {s t : σ} {as : List α} (hs : I s) (hP : Along step P s as) (ht : exec step s as = some t) :
    as.length + rank t ≤ rank s := by
  have hpaid : (as.map fun _ => 1).sum + rank t ≤ rank s + (as.map fun _ => 0).sum := by
    refine exec_amortised (fun u a v hu ha huv => ?_) hs hP ht
    obtain ⟨hv, hlt⟩ := lower u a v hu ha huv
    exact ⟨hv, by omega⟩
  simpa using hpaid

/-- Steps that are one unit of work each add up to the work that is done, in any order. -/
theorem exec_length_eq {I : σ → Prop} {P : σ → α → Prop} {work : σ → Nat}
    (unit : ∀ s a t, I s → P s a → step s a = some t → I t ∧ work t + 1 = work s)
    {s t : σ} {as : List α} (hs : I s) (hP : Along step P s as) (ht : exec step s as = some t) :
    as.length + work t = work s := by
  have hdone : (as.map fun _ => 1).sum + work t = work s + (as.map fun _ => 0).sum := by
    refine exec_balanced (fun u a v hu ha huv => ?_) hs hP ht
    obtain ⟨hv, hone⟩ := unit u a v hu ha huv
    exact ⟨hv, by omega⟩
  simpa using hdone

/-- The same price for every action of a kind. -/
theorem sum_map_ite (p : α → Bool) (price : Nat) (as : List α) :
    (as.map fun a => if p a then price else 0).sum = price * as.countP p := by
  induction as with
  | nil => simp
  | cons a as ih =>
    by_cases ha : p a
    · simp only [List.map_cons, List.sum_cons, ha, if_true, ih, List.countP_cons_of_pos]
      ring
    · simp [ha, ih]

/-- What several components have together, when one of them changes. -/
theorem sum_update_add {ι β : Type*} [DecidableEq ι] {F : Finset ι} (f : ι → β) {i : ι} (b : β)
    (r : β → Nat) (hi : i ∈ F) :
    ∑ j ∈ F, r (Function.update f i b j) + r (f i) = ∑ j ∈ F, r (f j) + r b := by
  have hrest : ∑ j ∈ F.erase i, r (Function.update f i b j) = ∑ j ∈ F.erase i, r (f j) :=
    Finset.sum_congr rfl fun j hj => by rw [Function.update_of_ne (Finset.ne_of_mem_erase hj)]
  rw [← Finset.sum_erase_add _ _ hi, ← Finset.sum_erase_add F (fun j => r (f j)) hi, hrest,
    Function.update_self]
  ring

/-- The ranks of several components, of which one is lowered. -/
theorem sum_update_lt {ι β : Type*} [DecidableEq ι] {F : Finset ι} {f : ι → β} {i : ι} {b : β}
    {r : β → Nat} (hi : i ∈ F) (h : r b < r (f i)) :
    ∑ j ∈ F, r (Function.update f i b j) < ∑ j ∈ F, r (f j) := by
  have hsum := sum_update_add f b r hi
  omega

end Zatestil.Library
