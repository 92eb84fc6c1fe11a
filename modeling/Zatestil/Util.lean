import Mathlib.Tactic

/-!
# Results and abnormal ends

`util::Result` is the status that the repository's components hand around. A C++ function
can also fail to return: a `noexcept` function that lets an exception out ends the program,
and a loop may not stop. `Halt` is the error type of the functions that can do this.
-/
namespace Zatestil.Util

inductive Code where
  | success
  | error
  | critical
  deriving DecidableEq, Repr

structure Result where
  code : Code
  message : String
  deriving DecidableEq, Repr

def Result.isOk (r : Result) : Bool := r.code == .success

theorem Result.isOk_iff (r : Result) : r.isOk = true ↔ r.code = .success := by
  simp [Result.isOk]

/-- Ways of not returning: `std::terminate`, and a loop that used up its fuel. -/
inductive Halt where
  | terminate
  | exhausted
  deriving DecidableEq, Repr

/-- The boundary of a `noexcept` function. -/
def noexcept {ε α : Type*} : Except ε α → Except Halt α
  | .ok a => .ok a
  | .error _ => .error .terminate

@[simp] theorem noexcept_ok {ε α : Type*} (a : α) :
    noexcept (.ok a : Except ε α) = .ok a := rfl

theorem noexcept_eq_ok {ε α : Type*} {x : Except ε α} {a : α} :
    noexcept x = .ok a ↔ x = .ok a := by
  cases x <;> simp [noexcept]

/-- A sequence returns when its first part does and the second does from there. -/
theorem bind_eq_ok {ε α β : Type} {x : Except ε α} {f : α → Except ε β} {b : β} :
    (x >>= f) = .ok b ↔ ∃ a, x = .ok a ∧ f a = .ok b := by
  cases x <;> simp [bind, Except.bind]

end Zatestil.Util
