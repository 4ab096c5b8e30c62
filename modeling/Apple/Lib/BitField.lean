import Mathlib.Data.List.Basic
import Mathlib.Data.Nat.Bitwise
import Mathlib.Tactic

/-!
# Words made of bit fields

`pack fs` is the word with the fields `fs`, least significant first; a field is a pair
of its width in bits and its value. Words with the same widths are equal exactly when
their fields are (`pack_injective`), and adding to the most significant field is adding
a multiple of its unit to the word, with a carry out of the word exactly when the field
overflows (`pack_concat_add`, `pack_concat_lt_iff`).

The last section reads masks as fields: a mask of low bits does not change the fields above it.
-/

namespace Apple.Lib

open Nat

/-- The word with fields `fs`, least significant first. -/
def pack : List (ℕ × ℕ) → ℕ
  | [] => 0
  | (w, v) :: fs => v + 2 ^ w * pack fs

/-- The number of bits of all fields. -/
def packWidth (fs : List (ℕ × ℕ)) : ℕ := (fs.map Prod.fst).sum

/-- Every value fits its field. -/
def PackFits (fs : List (ℕ × ℕ)) : Prop := ∀ f ∈ fs, f.2 < 2 ^ f.1

variable {fs : List (ℕ × ℕ)}

theorem packFits_cons {f : ℕ × ℕ} : PackFits (f :: fs) ↔ f.2 < 2 ^ f.1 ∧ PackFits fs :=
  List.forall_mem_cons

theorem pack_concat (fs : List (ℕ × ℕ)) (w v : ℕ) :
    pack (fs ++ [(w, v)]) = pack fs + 2 ^ packWidth fs * v := by
  induction fs with
  | nil => simp [pack, packWidth]
  | cons f fs ih =>
    simp only [List.cons_append, pack, ih, packWidth, List.map_cons, List.sum_cons]
    ring

theorem pack_lt (h : PackFits fs) : pack fs < 2 ^ packWidth fs := by
  induction fs with
  | nil => simp [pack]
  | cons f fs ih =>
    obtain ⟨hf, hfs⟩ := packFits_cons.mp h
    have hpack := ih hfs
    calc pack (f :: fs) = f.2 + 2 ^ f.1 * pack fs := rfl
      _ < 2 ^ f.1 + 2 ^ f.1 * pack fs := by omega
      _ = 2 ^ f.1 * (pack fs + 1) := by ring
      _ ≤ 2 ^ f.1 * 2 ^ packWidth fs := Nat.mul_le_mul_left _ hpack
      _ = 2 ^ packWidth (f :: fs) := by simp [packWidth, pow_add]

theorem pack_injective {gs : List (ℕ × ℕ)} (hfs : PackFits fs) (hgs : PackFits gs)
    (hwidth : fs.map Prod.fst = gs.map Prod.fst) (h : pack fs = pack gs) : fs = gs := by
  induction fs generalizing gs with
  | nil => simpa using hwidth
  | cons f fs ih =>
    cases gs with
    | nil => simp at hwidth
    | cons g gs =>
      obtain ⟨hf, hfs'⟩ := packFits_cons.mp hfs
      obtain ⟨hg, hgs'⟩ := packFits_cons.mp hgs
      obtain ⟨w, v⟩ := f
      obtain ⟨w', v'⟩ := g
      simp only [List.map_cons, List.cons.injEq] at hwidth
      obtain ⟨rfl, hwidth⟩ := hwidth
      simp only [pack] at h
      have hv : v = v' := by
        have := congrArg (· % 2 ^ w) h
        simpa [mod_eq_of_lt hf, mod_eq_of_lt hg] using this
      subst hv
      have hrest : pack fs = pack gs :=
        Nat.eq_of_mul_eq_mul_left (Nat.two_pow_pos w) (add_left_cancel h)
      rw [ih hfs' hgs' hwidth hrest]

/-- Adding `n` to the most significant field. -/
theorem pack_concat_add (fs : List (ℕ × ℕ)) (w v n : ℕ) :
    pack (fs ++ [(w, v + n)]) = pack (fs ++ [(w, v)]) + 2 ^ packWidth fs * n := by
  rw [pack_concat, pack_concat, mul_add, add_assoc]

/-- The word overflows exactly when its most significant field does. -/
theorem pack_concat_lt_iff (h : PackFits fs) (w v : ℕ) :
    pack (fs ++ [(w, v)]) < 2 ^ (packWidth fs + w) ↔ v < 2 ^ w := by
  rw [pack_concat, pow_add]
  have hlt := pack_lt h
  constructor
  · intro hword
    exact Nat.lt_of_mul_lt_mul_left (lt_of_le_of_lt (Nat.le_add_left _ _) hword)
  · intro hv
    calc pack fs + 2 ^ packWidth fs * v < 2 ^ packWidth fs + 2 ^ packWidth fs * v := by omega
      _ = 2 ^ packWidth fs * (v + 1) := by ring
      _ ≤ 2 ^ packWidth fs * 2 ^ w := Nat.mul_le_mul_left _ hv

/-! ## Masks -/

theorem and_two_pow_eq_zero (s k : ℕ) : s &&& 2 ^ k = 0 ↔ s / 2 ^ k % 2 = 0 := by
  rw [and_two_pow, testBit_eq_decide_div_mod_eq]
  simp

theorem or_div (a b k : ℕ) : (a ||| b) / 2 ^ k = a / 2 ^ k ||| b / 2 ^ k := by
  simp only [← shiftRight_eq_div_pow, shiftRight_or_distrib]

theorem or_div_of_lt (a : ℕ) {b k : ℕ} (h : b < 2 ^ k) : (a ||| b) / 2 ^ k = a / 2 ^ k := by
  rw [or_div, div_eq_of_lt h, or_zero]

theorem xor_div_of_lt (a : ℕ) {b k : ℕ} (h : b < 2 ^ k) : (a ^^^ b) / 2 ^ k = a / 2 ^ k := by
  rw [← shiftRight_eq_div_pow, shiftRight_xor_distrib, shiftRight_eq_div_pow,
    shiftRight_eq_div_pow, div_eq_of_lt h, xor_zero]

/-- Two words differ in a bit. -/
theorem xor_and_two_pow_eq_zero (a b k : ℕ) :
    (a ^^^ b) &&& 2 ^ k = 0 ↔ a / 2 ^ k % 2 = b / 2 ^ k % 2 := by
  rw [and_two_pow, testBit_xor, testBit_eq_decide_div_mod_eq,
    testBit_eq_decide_div_mod_eq]
  rcases mod_two_eq_zero_or_one (a / 2 ^ k) with ha | ha <;>
    rcases mod_two_eq_zero_or_one (b / 2 ^ k) with hb | hb <;> simp [hb]

/-- A field of `n` bits. -/
theorem and_mask (s n k : ℕ) : s &&& ((2 ^ n - 1) * 2 ^ k) = s / 2 ^ k % 2 ^ n * 2 ^ k := by
  rw [← shiftLeft_eq, ← shiftLeft_eq]
  apply eq_of_testBit_eq
  intro i
  simp only [testBit_shiftLeft, testBit_mod_two_pow, testBit_div_two_pow]
  by_cases h : k ≤ i
  · simp [h, Bool.and_comm]
  · simp [h]

/-- Clearing low bits of a word. -/
theorem and_complement_div {s m n k : ℕ} (hs : s < 2 ^ n) (hm : m < 2 ^ k) (hk : k ≤ n) :
    (s &&& (2 ^ n - 1 - m)) / 2 ^ k = s / 2 ^ k := by
  have hpow : 2 ^ n = 2 ^ k * 2 ^ (n - k) := by rw [← pow_add, Nat.add_sub_cancel' hk]
  have hmask : (2 ^ n - 1 - m) / 2 ^ k = 2 ^ (n - k) - 1 := by
    rw [Nat.div_eq_of_lt_le]
    · rw [Nat.sub_mul, mul_comm]
      omega
    · rw [Nat.sub_add_cancel Nat.one_le_two_pow, mul_comm]
      omega
  rw [← shiftRight_eq_div_pow, shiftRight_and_distrib, shiftRight_eq_div_pow,
    shiftRight_eq_div_pow, hmask, and_two_pow_sub_one_eq_mod, mod_eq_of_lt]
  exact Nat.div_lt_of_lt_mul (hpow ▸ hs)

end Apple.Lib
