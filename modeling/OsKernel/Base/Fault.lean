import Mathlib

/-!
# Faults

The kernel's C code can stop in the middle of a call: an assertion fails, a NULL
pointer is followed, an array is indexed past its end. None of these returns a
value, and a proof that treats them as returning one proves too much. Every
modelled function that can stop this way returns a `Result`, and the theorems
that promise a value promise the `ok` case.
-/

namespace OsKernel

/-- The ways in which a call ends without returning. -/
inductive Fault where
  /-- `assert`, `panic` or `verify_not_reached` fired. -/
  | panic
  /-- A NULL pointer was followed. -/
  | nullDeref
  /-- An array was indexed past its end. -/
  | outOfBounds
  /-- A list operation on a node that is on no list, or a union member that was not stored. -/
  | badMemory
  /-- The fuel of a loop was used up. -/
  | outOfFuel
  deriving DecidableEq, Repr

/-- What a call that may stop returns. -/
abbrev Result (α : Type) := Except Fault α

namespace Result

variable {α β : Type}

theorem bind_eq_ok {x : Result α} {f : α → Result β} {b : β} :
    x >>= f = .ok b ↔ ∃ a, x = .ok a ∧ f a = .ok b := by
  cases x with
  | error e => simp [bind, Except.bind]
  | ok a => simp [bind, Except.bind]

theorem map_eq_ok {x : Result α} {f : α → β} {b : β} :
    x.map f = .ok b ↔ ∃ a, x = .ok a ∧ f a = b := by
  cases x with
  | error e => simp [Except.map]
  | ok a => simp [Except.map]

@[simp] theorem ok_bind (a : α) (f : α → Result β) : ((Except.ok a : Result α) >>= f) = f a := rfl

@[simp] theorem pure_eq_ok (a : α) : (pure a : Result α) = .ok a := rfl

/-- What a call returns, if it returns, has a property. -/
def All {α : Type} (P : α → Prop) : Result α → Prop
  | .error _ => True
  | .ok a => P a

theorem all_ok {P : α → Prop} {a : α} : All P (.ok a) ↔ P a := Iff.rfl

instance {α : Type} (P : α → Prop) [DecidablePred P] : (x : Result α) → Decidable (x.All P)
  | .error _ => .isTrue trivial
  | .ok a => inferInstanceAs (Decidable (P a))

end Result

export Result (bind_eq_ok map_eq_ok ok_bind pure_eq_ok all_ok)

end OsKernel
