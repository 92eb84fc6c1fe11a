import Mathlib.Tactic

/-!
# Calls that unwind

A call changes a state and returns, or an exception leaves it with the changes made so far, or
the program ends in it. `EStateM` has the first two; an ended program is an error that nothing
catches. `final` is the state in which the caller finds things in the first two cases.

A scope guard runs when its scope is left in either way and drops its own exceptions, so for
the state a guarded scope is its body followed by the guard. `Keeps` is the frame rule for the
parts of the state that a call does not touch.
-/
namespace Zatestil.Library

/-- What can take the place of a return. -/
inductive Abrupt (ε : Type) where
  | exception (e : ε)
  | terminated

abbrev Call (ε σ α : Type) := EStateM (Abrupt ε) σ α

namespace Call

variable {ε σ α β : Type}

def mayThrow : Option ε → Call ε σ Unit
  | none => pure ()
  | some e => throw (.exception e)

/-- The boundary of a function that promises not to throw. -/
def noThrow (x : Call ε σ α) : Call ε σ α := fun s =>
  match x s with
  | .ok a t => .ok a t
  | .error _ t => .error .terminated t

/-- Run `guard` when `body` is left. -/
def onScopeExit (guard : Call ε σ Unit) (body : Call ε σ α) : Call ε σ α := fun s =>
  match body s with
  | .error .terminated t => .error .terminated t
  | .ok a t =>
    match guard t with
    | .ok _ u | .error (.exception _) u => .ok a u
    | .error .terminated u => .error .terminated u
  | .error (.exception e) t =>
    match guard t with
    | .ok _ u | .error (.exception _) u => .error (.exception e) u
    | .error .terminated u => .error .terminated u

/-- The state after the call, if there still is a program. -/
def final (x : Call ε σ α) (s : σ) : Option σ :=
  match x s with
  | .ok _ t | .error (.exception _) t => some t
  | .error .terminated _ => none

theorem final_onScopeExit (guard : Call ε σ Unit) (body : Call ε σ α) (s : σ) :
    (onScopeExit guard body).final s = (body.final s).bind guard.final := by
  rcases hb : body s with ⟨a, t⟩ | ⟨_ | _, t⟩
  · rcases hg : guard t with ⟨_, u⟩ | ⟨_ | _, u⟩ <;> simp [final, onScopeExit, hb, hg]
  · rcases hg : guard t with ⟨_, u⟩ | ⟨_ | _, u⟩ <;> simp [final, onScopeExit, hb, hg]
  · simp [final, onScopeExit, hb]

theorem final_bind_of_ok {x : Call ε σ α} {f : α → Call ε σ β} {a : α} {s t : σ}
    (h : x s = .ok a t) : (x >>= f).final s = (f a).final t := by
  simp only [final, bind, EStateM.bind, h]

theorem final_bind_of_exception {x : Call ε σ α} {f : α → Call ε σ β} {e : ε} {s t : σ}
    (h : x s = .error (.exception e) t) : (x >>= f).final s = some t := by
  simp only [final, bind, EStateM.bind, h]

theorem final_bind_of_terminated {x : Call ε σ α} {f : α → Call ε σ β} {s t : σ}
    (h : x s = .error .terminated t) : (x >>= f).final s = none := by
  simp only [final, bind, EStateM.bind, h]

@[simp] theorem final_pure (a : α) (s : σ) : (pure a : Call ε σ α).final s = some s := rfl

@[simp] theorem final_modify (f : σ → σ) (s : σ) :
    (modify f : Call ε σ PUnit).final s = some (f s) := rfl

@[simp] theorem final_modify_bind (f : σ → σ) (k : PUnit → Call ε σ β) (s : σ) :
    (modify f >>= k).final s = (k ⟨⟩).final (f s) := rfl

@[simp] theorem final_get_bind (k : σ → Call ε σ β) (s : σ) :
    (get >>= k).final s = (k s).final s := rfl

@[simp] theorem final_mayThrow_bind (e : Option ε) (k : Unit → Call ε σ β) (s : σ) :
    (mayThrow e >>= k).final s = if e.isSome then some s else (k ()).final s := by
  cases e <;> rfl

/-- The call leaves a part of the state alone, however it ends. -/
def Keeps {γ : Type} (view : σ → γ) (x : Call ε σ α) : Prop :=
  ∀ s t, x.final s = some t → view t = view s

section Frame

variable {γ : Type} {view : σ → γ}

theorem keeps_pure (a : α) : Keeps view (pure a : Call ε σ α) := by
  intro s t h
  cases h
  rfl

theorem keeps_mayThrow (e : Option ε) : Keeps view (mayThrow e : Call ε σ Unit) := by
  intro s t h
  cases e <;> cases h <;> rfl

theorem Keeps.noThrow {x : Call ε σ α} (hx : Keeps view x) : Keeps view (noThrow x) := by
  intro s t h
  have hxs := hx s
  rcases hr : x s with ⟨a, u⟩ | ⟨_ | _, u⟩ <;>
    simp only [final, Call.noThrow, hr] at h hxs
  · exact hxs t h
  · cases h
  · cases h

theorem Keeps.bind {x : Call ε σ α} {f : α → Call ε σ β} (hx : Keeps view x)
    (hf : ∀ a, Keeps view (f a)) : Keeps view (x >>= f) := by
  intro s t h
  have hxs := hx s
  rcases hr : x s with ⟨a, u⟩ | ⟨_ | _, u⟩
  · rw [final_bind_of_ok hr] at h
    simp only [final, hr] at hxs
    exact (hf a u t h).trans (hxs u rfl)
  · rw [final_bind_of_exception hr] at h
    simp only [final, hr] at hxs
    exact hxs t h
  · rw [final_bind_of_terminated hr] at h
    cases h

end Frame

end Call

end Zatestil.Library
