import Mathlib.Logic.Basic
import Mathlib.Tactic.Common

/-!
# Routines that fail cleanly or fault

A C routine that returns `false` and one that reads outside its buffer both give no result, but only
the first is an outcome its caller may see. `Outcome` keeps the two apart, and `Sat` says what holds
of the result and which faults are possible; a clean failure is always allowed.

Results: `sat_bind`, `Sat.mono`, `UpTo.bind`.
-/

namespace Apple.Lib

/-- A result, a clean failure (the routine returned `false`), or a fault. -/
inductive Outcome (ε α : Type)
  | ok (a : α)
  | fail
  | fault (e : ε)
deriving DecidableEq

namespace Outcome

variable {ε α β : Type}

/-- Running `f` on the result; a failure or a fault ends the routine. -/
protected def bind : Outcome ε α → (α → Outcome ε β) → Outcome ε β
  | ok a, f => f a
  | fail, _ => fail
  | fault e, _ => fault e

instance : Monad (Outcome ε) where
  pure := ok
  bind := Outcome.bind

/-- `if (!p) return false`. -/
def check (p : Prop) [Decidable p] : Outcome ε Unit := if p then ok () else fail

@[simp] theorem pure_eq (a : α) : (pure a : Outcome ε α) = ok a := rfl

@[simp] theorem ok_bind (a : α) (f : α → Outcome ε β) : (ok a >>= f) = f a := rfl

@[simp] theorem fail_bind (f : α → Outcome ε β) : ((fail : Outcome ε α) >>= f) = fail := rfl

@[simp] theorem fault_bind (e : ε) (f : α → Outcome ε β) :
    ((fault e : Outcome ε α) >>= f) = fault e := rfl

variable {p : Prop} {x : Outcome ε α} {f : α → Outcome ε β} {e : ε}

@[simp] theorem check_true [Decidable p] (h : p) : (check p : Outcome ε Unit) = ok () := if_pos h

@[simp] theorem check_false [Decidable p] (h : ¬ p) : (check p : Outcome ε Unit) = fail := if_neg h

/-! ## Postconditions -/

/-- The result satisfies `P` when there is one, and a fault is one of `E`. -/
def Sat (E : ε → Prop) (P : α → Prop) : Outcome ε α → Prop
  | ok a => P a
  | fail => True
  | fault e => E e

section Sat

variable {E F : ε → Prop} {P Q : α → Prop}

@[simp] theorem sat_ok {a : α} : Sat E P (ok a) ↔ P a := Iff.rfl

@[simp] theorem sat_fail : Sat E P fail ↔ True := Iff.rfl

@[simp] theorem sat_fault : Sat E P (fault e) ↔ E e := Iff.rfl

@[simp] theorem sat_bind {R : β → Prop} : Sat E R (x >>= f) ↔ Sat E (fun a => Sat E R (f a)) x := by
  match x with
  | ok a | fail | fault e => exact Iff.rfl

@[simp] theorem sat_check [Decidable p] {R : Unit → Prop} : Sat E R (check p) ↔ (p → R ()) := by
  by_cases h : p
  · simp [h]
  · simp [h]

theorem Sat.mono (h : Sat E P x) (hPQ : ∀ a, P a → Q a) : Sat E Q x := by
  match x with
  | ok a => exact hPQ a h
  | fail => trivial
  | fault e => exact h

theorem Sat.mono_fault (h : Sat E P x) (hEF : ∀ e, E e → F e) : Sat F P x := by
  match x with
  | ok a => exact h
  | fail => trivial
  | fault e => exact hEF e h

theorem Sat.of_ok {a : α} (h : Sat E P x) (hx : x = ok a) : P a := by
  rw [hx] at h
  exact h

theorem Sat.eq_fail (h : Sat E P x) (hE : ∀ e, ¬ E e) (hP : ∀ a, ¬ P a) : x = fail := by
  match x with
  | ok a => exact absurd h (hP a)
  | fail => rfl
  | fault e => exact absurd h (hE e)

end Sat

/-! ## Bounded recursion -/

/-- `x` is `y`, or gave up with the fault `e`. -/
def UpTo (e : ε) (x y : Outcome ε α) : Prop := x = fault e ∨ x = y

theorem UpTo.refl (e : ε) (x : Outcome ε α) : UpTo e x x := Or.inr rfl

theorem UpTo.bind {y : Outcome ε α} {g : α → Outcome ε β} (hxy : UpTo e x y)
    (hfg : ∀ a, UpTo e (f a) (g a)) : UpTo e (x >>= f) (y >>= g) := by
  rcases hxy with rfl | rfl
  · exact Or.inl rfl
  · match x with
    | ok a => exact hfg a
    | fail | fault d => exact Or.inr rfl

end Outcome

/-! ## Routines of type `Except` -/

section Except

variable {ε α β : Type}

@[simp] theorem except_pure (a : α) : (pure a : Except ε α) = .ok a := rfl

@[simp] theorem except_ok_bind (a : α) (f : α → Except ε β) : (Except.ok a >>= f) = f a := rfl

@[simp] theorem except_error_bind (e : ε) (f : α → Except ε β) :
    (Except.error e >>= f) = .error e := rfl

end Except

end Apple.Lib
