import Mathlib.Data.Int.Log
import Mathlib.Data.Rat.Floor
import Mathlib.Tactic

/-!
# Integers and quotients in a double

An IEEE double holds an integer of up to 53 bits exactly. A larger one is rounded to the nearest
multiple of a power of two, and to the even multiple half way between two of them; so is a quotient.
Exponents are not bounded here: the numbers in question stay far from the largest double and the
smallest.

Results: `toDouble_eq`, `floor_closestDouble`.
-/

namespace Apple.Lib

/-- `n` rounded to 53 significant bits, to nearest, ties to even. -/
def roundNat (n : ℕ) : ℕ :=
  let unit := 2 ^ (Nat.log2 n - 52)
  let quotient := n / unit
  let rest := n % unit
  if unit < 2 * rest ∨ 2 * rest = unit ∧ quotient % 2 = 1 then (quotient + 1) * unit
  else quotient * unit

/-- The double closest to an integer. -/
def toDouble (z : ℤ) : ℤ := z.sign * roundNat z.natAbs

theorem roundNat_eq {n : ℕ} (h : n ≤ 2 ^ 53) : roundNat n = n := by
  rcases Nat.lt_or_eq_of_le h with h | rfl
  · have hlog : Nat.log2 n - 52 = 0 := by
      rcases Nat.eq_zero_or_pos n with rfl | hpos
      · decide
      · have hlt := (Nat.log2_lt hpos.ne').mpr h
        omega
    rw [roundNat, hlog]
    simp [Nat.mod_one]
  · decide

/-- Integers of up to 53 bits are doubles. -/
theorem toDouble_eq {z : ℤ} (hlo : -2 ^ 53 ≤ z) (hhi : z ≤ 2 ^ 53) : toDouble z = z := by
  rw [toDouble, roundNat_eq (by omega), Int.sign_mul_natAbs]

/-! ## Quotients -/

/-- The integer closest to a rational, ties to even. -/
def roundEven (x : ℚ) : ℤ :=
  if x - ⌊x⌋ < 1 / 2 ∨ x - ⌊x⌋ = 1 / 2 ∧ ⌊x⌋ % 2 = 0 then ⌊x⌋ else ⌊x⌋ + 1

/-- The double closest to a rational, for exponents without bounds. -/
def closestDouble (q : ℚ) : ℚ :=
  let unit : ℚ := 2 ^ (Int.log 2 |q| - 52)
  roundEven (q / unit) * unit

theorem abs_roundEven_sub (x : ℚ) : |roundEven x - x| ≤ 1 / 2 := by
  have hlo := Int.floor_le x
  have hhi := Int.lt_floor_add_one x
  rw [roundEven, abs_le]
  split_ifs with h
  · constructor
    · rcases h with h | h <;> linarith
    · linarith
  · rw [not_or, not_lt] at h
    push_cast
    constructor <;> linarith

/-- The rounding error is half a unit in the last place. -/
theorem abs_closestDouble_sub {q : ℚ} (hq : q ≠ 0) : |closestDouble q - q| * 2 ^ 53 ≤ |q| := by
  have hunit : (0 : ℚ) < 2 ^ (Int.log 2 |q| - 52) := by positivity
  have hlog : (2 : ℚ) ^ Int.log 2 |q| ≤ |q| := Int.zpow_log_le_self one_lt_two (abs_pos.mpr hq)
  rw [← sub_add_cancel (Int.log 2 |q|) 52, zpow_add₀ two_ne_zero] at hlog
  rw [closestDouble]
  generalize (2 : ℚ) ^ (Int.log 2 |q| - 52) = unit at *
  have herror := abs_roundEven_sub (q / unit)
  rw [show roundEven (q / unit) * unit - q = (roundEven (q / unit) - q / unit) * unit by field_simp,
    abs_mul, abs_of_pos hunit]
  nlinarith

theorem closestDouble_intCast {z : ℤ} (hz : |z| < 2 ^ 53) : closestDouble z = z := by
  have hround (z : ℤ) : roundEven z = z := by simp [roundEven]
  rcases eq_or_ne z 0 with rfl | hne
  · simp [closestDouble, roundEven]
  have hlog : Int.log 2 |(z : ℚ)| < 53 := by
    rw [← Int.lt_zpow_iff_log_lt one_lt_two (abs_pos.mpr (Int.cast_ne_zero.mpr hne))]
    exact_mod_cast hz
  obtain ⟨k, hk⟩ : ∃ k : ℕ, Int.log 2 |(z : ℚ)| - 52 = -k :=
    ⟨(52 - Int.log 2 |(z : ℚ)|).toNat, by omega⟩
  have hscale : (z : ℚ) / 2 ^ (-(k : ℤ)) = ((z * 2 ^ k : ℤ) : ℚ) := by
    rw [zpow_neg, div_inv_eq_mul, zpow_natCast]
    push_cast
    rfl
  rw [closestDouble, hk, hscale, hround, ← hscale, div_mul_cancel₀ _ (by positivity)]

/-- The quotient of integers of up to 53 bits may be rounded, but not up to the next integer. -/
theorem floor_closestDouble {z m : ℤ} (hz : |z| < 2 ^ 53) (hm : 0 < m) :
    ⌊closestDouble (z / m)⌋ = z / m := by
  have hm' : (0 : ℚ) < m := Int.cast_pos.mpr hm
  have hrest : (z : ℚ) / m = (z / m : ℤ) + (z % m : ℤ) / m := by
    rw [div_eq_iff hm'.ne', add_mul, div_mul_cancel₀ _ hm'.ne']
    exact_mod_cast (Int.ediv_mul_add_emod z m).symm
  rcases eq_or_ne (z % m) 0 with hdvd | hdvd
  · rw [hrest, hdvd, Int.cast_zero, zero_div, add_zero,
      closestDouble_intCast ((Int.abs_ediv_le_abs z m).trans_lt hz), Int.floor_intCast]
  · have hone : (1 : ℚ) ≤ (z % m : ℤ) := by
      have := Int.emod_nonneg z hm.ne'
      exact_mod_cast (by omega : 1 ≤ z % m)
    have hlast : ((z % m : ℤ) : ℚ) + 1 ≤ m := by exact_mod_cast Int.emod_lt_of_pos z hm
    have hq : (z : ℚ) / m ≠ 0 :=
      div_ne_zero (Int.cast_ne_zero.mpr fun h => hdvd (h ▸ Int.zero_emod m)) hm'.ne'
    have herror : |closestDouble (z / m) - z / m| < 1 / m := by
      have habs : |(z : ℚ) / m| < 2 ^ 53 * (1 / m) := by
        rw [abs_div, abs_of_pos hm', mul_one_div]
        gcongr
        exact_mod_cast hz
      have := abs_closestDouble_sub hq
      linarith
    rw [Int.floor_eq_iff]
    rw [abs_lt] at herror
    have h1 : 1 / (m : ℚ) ≤ (z % m : ℤ) / m := by gcongr
    have h2 : ((z % m : ℤ) : ℚ) / m + 1 / m ≤ 1 := by
      rw [← add_div, div_le_one hm']
      exact hlast
    constructor <;> linarith

end Apple.Lib
