import Mathlib.Data.List.Forall2
import Mathlib.Data.Nat.Digits.Defs
import Mathlib.Order.Compare
import Mathlib.Tactic.Linarith
import Mathlib.Tactic.Ring

/-!
# Numbers as lists of digits

Digit lists of one length, least significant digit first, in any base: they are compared from the
most significant digit down, and added and subtracted digit by digit.

Results: `compareDigits_eq`, `carry_step`, `subBorrow_spec`.
-/

namespace Apple.Lib

open Nat (ofDigits)

/-- The first difference from the most significant digit down decides. -/
def compareDigits : List ℕ → List ℕ → Ordering
  | x :: xs, y :: ys => (compareDigits xs ys).then (compare x y)
  | _, _ => .eq

variable {b : ℕ}

theorem compare_add_mul {x y m n : ℕ} (hx : x < b) (hy : y < b) :
    compare (x + b * m) (y + b * n) = (compare m n).then (compare x y) := by
  rcases lt_trichotomy m n with h | rfl | h
  · have hlt : x + b * m < y + b * n := by nlinarith
    rw [compare_lt_iff_lt.mpr hlt, compare_lt_iff_lt.mpr h]
    rfl
  · rw [compare_eq_iff_eq.mpr (rfl : m = m), Ordering.then]
    rcases lt_trichotomy x y with h | rfl | h
    · rw [compare_lt_iff_lt.mpr h, compare_lt_iff_lt.mpr (by omega)]
    · rw [compare_eq_iff_eq.mpr (rfl : x = x), compare_eq_iff_eq.mpr rfl]
    · rw [compare_gt_iff_gt.mpr h, compare_gt_iff_gt.mpr (by omega)]
  · have hlt : y + b * n < x + b * m := by nlinarith
    rw [compare_gt_iff_gt.mpr hlt, compare_gt_iff_gt.mpr h]
    rfl

/-- **Digit lists of one length are ordered as their numbers.** -/
theorem compareDigits_eq : ∀ {xs ys : List ℕ}, xs.length = ys.length →
    (∀ x ∈ xs, x < b) → (∀ y ∈ ys, y < b) →
    compareDigits xs ys = compare (ofDigits b xs) (ofDigits b ys)
  | [], [], _, _, _ => (compare_eq_iff_eq.mpr rfl).symm | x :: xs, y :: ys, hlen, hxs, hys => by
    have ih := compareDigits_eq (Nat.succ.inj hlen) (fun z hz => hxs z (List.mem_cons_of_mem _ hz))
      (fun z hz => hys z (List.mem_cons_of_mem _ hz))
    rw [compareDigits, ih, Nat.ofDigits_cons, Nat.ofDigits_cons,
      compare_add_mul (hxs x List.mem_cons_self) (hys y List.mem_cons_self)]

/-- The digits of `xs - ys - borrow`, and the borrow that is left. -/
def subBorrow (b : ℕ) : List ℕ → List ℕ → ℕ → List ℕ × ℕ
  | x :: xs, y :: ys, borrow =>
    if x < y + borrow then
      ((x + b - (y + borrow)) :: (subBorrow b xs ys 1).1, (subBorrow b xs ys 1).2)
    else
      ((x - (y + borrow)) :: (subBorrow b xs ys 0).1, (subBorrow b xs ys 0).2)
  | _, _, borrow => ([], borrow)

/-- One digit of a sum, put before the others. -/
theorem carry_step {z x y c c' zs xs ys out l : ℕ} (hhead : z + c' * b = x + y + c)
    (htail : zs + out * l = xs + ys + c') :
    z + b * zs + out * (l * b) = x + b * xs + (y + b * ys) + c :=
  calc z + b * zs + out * (l * b) = z + b * (zs + out * l) := by ring
    _ = z + c' * b + b * (xs + ys) := by rw [htail]; ring
    _ = x + b * xs + (y + b * ys) + c := by rw [hhead]; ring

/-- One digit of a difference, put before the others. -/
theorem borrow_step {d y c x c' ds ys xs out l : ℕ} (hhead : d + y + c = x + c' * b)
    (htail : ds + ys + c' = xs + out * l) :
    d + b * ds + (y + b * ys) + c = x + b * xs + out * (l * b) :=
  calc d + b * ds + (y + b * ys) + c = d + y + c + b * (ds + ys) := by ring
    _ = x + b * (ds + ys + c') := by rw [hhead]; ring
    _ = x + b * xs + out * (l * b) := by rw [htail]; ring

/-- Two lists of digits, of one length. -/
abbrev DigitPairs (b : ℕ) : List ℕ → List ℕ → Prop := List.Forall₂ fun x y => x < b ∧ y < b

theorem digitPairs_of_length {xs ys : List ℕ} (hlen : xs.length = ys.length)
    (hxs : ∀ x ∈ xs, x < b) (hys : ∀ y ∈ ys, y < b) : DigitPairs b xs ys :=
  List.forall₂_iff_zip.mpr
    ⟨hlen, fun h => ⟨hxs _ (List.of_mem_zip h).1, hys _ (List.of_mem_zip h).2⟩⟩

/-- **Subtraction with borrow**: the digits are digits, and only the last borrow is missing from
the difference. -/
theorem subBorrow_spec {xs ys : List ℕ} (h : DigitPairs b xs ys) :
    ∀ {borrow : ℕ}, borrow ≤ 1 → (∀ z ∈ (subBorrow b xs ys borrow).1, z < b) ∧
      (subBorrow b xs ys borrow).2 ≤ 1 ∧
      ofDigits b (subBorrow b xs ys borrow).1 + ofDigits b ys + borrow =
        ofDigits b xs + (subBorrow b xs ys borrow).2 * b ^ xs.length := by
  induction h with
  | nil => intro borrow hborrow; simp [subBorrow, hborrow]
  | @cons x y xs ys hxy _ ih =>
    intro borrow hborrow
    rw [subBorrow]
    split
    all_goals
      simp only [List.forall_mem_cons, Nat.ofDigits_cons]
    · obtain ⟨hdigits, hout, hvalue⟩ := ih (le_refl 1)
      exact ⟨⟨by omega, hdigits⟩, hout, borrow_step (by omega) hvalue⟩
    · obtain ⟨hdigits, hout, hvalue⟩ := ih zero_le
      exact ⟨⟨by omega, hdigits⟩, hout, borrow_step (by omega) hvalue⟩

end Apple.Lib
