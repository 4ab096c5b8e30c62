import Apple.Lib.RadixDigits
import Mathlib.Data.Int.Order.Basic

/-!
# `CFBigNumber`

Model of `CF-1153.18/CFBigNumber.c`: five digits in base `10 ^ 9` and a sign, with the functions
that make such a number (90–209) and `_CFBigNumCompare`, `_CFBigNumNeg`, `_CFBigNumAdd` and
`_CFBigNumSub` (416–515). Machine words are natural numbers and integers, cut to their width where
the source stores them.

The value of a sum or difference is always exact. It is not always normalised: a digit sum of
exactly `10 ^ 9` is kept as one digit, and a difference of equal numbers has the sign of the first.

Results:
* `bigNumCompare_eq`: normalised numbers are ordered as integers.
* `initWithInt_spec`, `initWithUInt_spec`: what a number is made from.
* `bigNum_arithmetic_iff`: when sums and differences are exact and normalised.
-/

namespace Apple.CF.BigNumber

open Apple.Lib List Nat
open Nat (ofDigits)

/-- `BIG_DIGITS_LIMIT`. -/
def bigDigitsLimit : ℕ := 1000000000

/-- `_CFBigNum`: `uint32_t digits[5]`, least significant first, and `int32_t sign:8`. -/
structure BigNum where
  digits : List ℕ
  sign : ℤ
  length_digits : digits.length = 5
  digit_lt : ∀ d ∈ digits, d < 2 ^ 32
  sign_mem : -128 ≤ sign ∧ sign < 128

/-! ## The source -/

/-- `_CFBigNumCompare` (416–431). -/
def bigNumCompare (a b : BigNum) : Ordering :=
  if a.sign = b.sign then
    if a.sign < 0 then (compareDigits a.digits b.digits).swap
    else compareDigits a.digits b.digits
  else if a.sign < b.sign then .lt
  else .gt

/-- `_CFBigNumAbsoluteLessThan` (435–445). -/
def bigNumAbsoluteLessThan (a b : BigNum) : Bool := compareDigits a.digits b.digits = .lt

/-- `_CFBigNumNeg` (448–463). -/
def bigNumNeg (a : BigNum) : BigNum :=
  if a.digits.all (· = 0) then a
  else
    { a with
      sign := Int.bmod (a.sign * a.sign - 1) 256
      sign_mem := ⟨Int.le_bmod (by decide), Int.bmod_lt (by decide)⟩ }

/-- The loop of the first branch of `_CFBigNumAdd` (469–478). -/
def addDigits : List ℕ → List ℕ → ℕ → List ℕ × ℕ
  | a :: as, b :: bs, carry =>
    let result := (a + b + carry) % 2 ^ 32
    if bigDigitsLimit < result then
      ((result - bigDigitsLimit) :: (addDigits as bs 1).1, (addDigits as bs 1).2)
    else
      (result :: (addDigits as bs 0).1, (addDigits as bs 0).2)
  | _, _, carry => ([], carry)

/-- The loop of the second branch of `_CFBigNumAdd` (492–501). -/
def subDigits : List ℕ → List ℕ → ℕ → List ℕ × ℕ
  | big :: bigs, small :: smalls, carry =>
    let result : ℤ := big - small - carry
    if result < 0 then
      (((result + bigDigitsLimit) % 2 ^ 32).toNat :: (subDigits bigs smalls 1).1,
        (subDigits bigs smalls 1).2)
    else
      ((result % 2 ^ 32).toNat :: (subDigits bigs smalls 0).1, (subDigits bigs smalls 0).2)
  | _, _, carry => ([], carry)

theorem length_addDigits : ∀ {as bs : List ℕ} {carry : ℕ}, as.length = bs.length →
    (addDigits as bs carry).1.length = as.length
  | [], [], _, _ => rfl
  | a :: as, b :: bs, carry, hlen => by
    have ih : ∀ c, (addDigits as bs c).1.length = as.length :=
      fun _ => length_addDigits (Nat.succ.inj hlen)
    rw [addDigits]
    split <;> simp [ih]

theorem addDigits_lt : ∀ {as bs : List ℕ} {carry : ℕ}, ∀ d ∈ (addDigits as bs carry).1, d < 2 ^ 32
  | a :: as, b :: bs, carry => by
    have ih : ∀ c, ∀ d ∈ (addDigits as bs c).1, d < 2 ^ 32 := fun _ => addDigits_lt
    rw [addDigits]
    split <;> simp only [forall_mem_cons] <;> exact ⟨by omega, ih _⟩
  | [], _, _ => by simp [addDigits]
  | _ :: _, [], _ => by simp [addDigits]

theorem length_subDigits : ∀ {as bs : List ℕ} {carry : ℕ}, as.length = bs.length →
    (subDigits as bs carry).1.length = as.length
  | [], [], _, _ => rfl
  | a :: as, b :: bs, carry, hlen => by
    have ih : ∀ c, (subDigits as bs c).1.length = as.length :=
      fun _ => length_subDigits (Nat.succ.inj hlen)
    rw [subDigits]
    split <;> simp [ih]

theorem subDigits_lt : ∀ {as bs : List ℕ} {carry : ℕ}, ∀ d ∈ (subDigits as bs carry).1, d < 2 ^ 32
  | a :: as, b :: bs, carry => by
    have ih : ∀ c, ∀ d ∈ (subDigits as bs c).1, d < 2 ^ 32 := fun _ => subDigits_lt
    rw [subDigits]
    split <;> simp only [forall_mem_cons] <;> exact ⟨by grind, ih _⟩
  | [], _, _ => by simp [subDigits]
  | _ :: _, [], _ => by simp [subDigits]

/-- The second branch of `_CFBigNumAdd` once the larger number is found (492–507). -/
def subMagnitudes (bigNum smallNum : BigNum) : BigNum × ℕ :=
  let difference := subDigits bigNum.digits smallNum.digits 0
  (⟨difference.1, if bigNum.sign < 0 then -1 else 0,
    (length_subDigits (bigNum.length_digits.trans smallNum.length_digits.symm)).trans
      bigNum.length_digits, subDigits_lt, by split <;> decide⟩, difference.2)

/-- `_CFBigNumAdd` (465–509): `*r` and the carry. -/
def bigNumAdd (a b : BigNum) : BigNum × ℕ :=
  if a.sign = b.sign then
    let sum := addDigits a.digits b.digits 0
    (⟨sum.1, a.sign, (length_addDigits (a.length_digits.trans b.length_digits.symm)).trans
      a.length_digits, addDigits_lt, a.sign_mem⟩, sum.2)
  else if bigNumAbsoluteLessThan a b then subMagnitudes b a
  else subMagnitudes a b

/-- `_CFBigNumSub` (511–515). -/
def bigNumSub (a b : BigNum) : BigNum × ℕ := bigNumAdd a (bigNumNeg b)

/-- The digits of a machine word, split off from the top: `GET_FIFTH_DIGIT` to `GET_SECOND_DIGIT`
with the remainders that go with them (79–87). Each digit goes through a `uint32_t`. -/
def splitDigits : ℕ → ℕ → List ℕ
  | 0, num => [num % 2 ^ 32]
  | n + 1, num =>
    let digit := num / bigDigitsLimit ^ (n + 1) % 2 ^ 32
    splitDigits n (num - digit * bigDigitsLimit ^ (n + 1)) ++ [digit]

theorem length_splitDigits : ∀ {n num : ℕ}, (splitDigits n num).length = n + 1
  | 0, _ => rfl
  | n + 1, num => by rw [splitDigits, length_append, length_splitDigits, length_singleton]

theorem splitDigits_lt : ∀ {n num : ℕ}, ∀ d ∈ splitDigits n num, d < 2 ^ 32
  | 0, num => by simpa [splitDigits] using mod_lt num (Nat.two_pow_pos 32)
  | n + 1, num => by
    have hmod := mod_lt (num / bigDigitsLimit ^ (n + 1)) (Nat.two_pow_pos 32)
    intro d hd
    rw [splitDigits, mem_append, mem_singleton] at hd
    rcases hd with hd | rfl
    · exact splitDigits_lt d hd
    · exact hmod

/-- A number whose digits above the first `n + 1` are those of the `memset`. -/
def initWithMagnitude (n : ℕ) (hn : n ≤ 4) (num : ℕ) (negative : Bool) : BigNum where
  digits := splitDigits n num ++ List.replicate (4 - n) 0
  sign := if negative then -1 else 0
  length_digits := by
    rw [length_append, length_splitDigits, length_replicate]
    omega
  digit_lt d hd := by
    rw [mem_append, mem_replicate] at hd
    rcases hd with hd | ⟨-, rfl⟩
    · exact splitDigits_lt d hd
    · decide
  sign_mem := by split <;> decide

/-- A number from a signed word: the sign is taken off with `-1 * inNum`. -/
def initWithInt (n : ℕ) (hn : n ≤ 4) {w : ℕ} (inNum : BitVec w) : BigNum :=
  if inNum.toInt < 0 then initWithMagnitude n hn (-inNum).toNat true
  else initWithMagnitude n hn inNum.toNat false

/-- A number from an unsigned word. -/
def initWithUInt (n : ℕ) (hn : n ≤ 4) {w : ℕ} (inNum : BitVec w) : BigNum :=
  initWithMagnitude n hn inNum.toNat false

/-- `_CFBigNumInitWithInt8` (90–98). -/
def initWithInt8 : BitVec 8 → BigNum := initWithInt 0 (by decide)

/-- `_CFBigNumInitWithInt16` (100–108). -/
def initWithInt16 : BitVec 16 → BigNum := initWithInt 0 (by decide)

/-- `_CFBigNumInitWithInt32` (110–120). -/
def initWithInt32 : BitVec 32 → BigNum := initWithInt 1 (by decide)

/-- `_CFBigNumInitWithInt64` (122–135). -/
def initWithInt64 : BitVec 64 → BigNum := initWithInt 2 (by decide)

/-- `_CFBigNumInitWithInt128` (138–157). -/
def initWithInt128 : BitVec 128 → BigNum := initWithInt 4 (by decide)

/-- `_CFBigNumInitWithUInt8` (160–164). -/
def initWithUInt8 : BitVec 8 → BigNum := initWithUInt 0 (by decide)

/-- `_CFBigNumInitWithUInt16` (166–170). -/
def initWithUInt16 : BitVec 16 → BigNum := initWithUInt 0 (by decide)

/-- `_CFBigNumInitWithUInt32` (172–178). -/
def initWithUInt32 : BitVec 32 → BigNum := initWithUInt 1 (by decide)

/-- `_CFBigNumInitWithUInt64` (180–189). -/
def initWithUInt64 : BitVec 64 → BigNum := initWithUInt 2 (by decide)

/-- `_CFBigNumInitWithUInt128` (192–209). -/
def initWithUInt128 : BitVec 128 → BigNum := initWithUInt 4 (by decide)

/-! ## What a number stands for -/

variable {a b : BigNum} {n : ℕ} {as bs : List ℕ}

namespace BigNum

def magnitude (a : BigNum) : ℕ := ofDigits bigDigitsLimit a.digits

def value (a : BigNum) : ℤ := if a.sign < 0 then -a.magnitude else a.magnitude

/-- Every digit is below `10 ^ 9`, and the sign is `-1` exactly for negative values. -/
structure Normalised (a : BigNum) : Prop where
  digits_lt : ∀ d ∈ a.digits, d < bigDigitsLimit
  sign_eq : a.sign = if a.value < 0 then -1 else 0

theorem value_lt_zero_iff : a.value < 0 ↔ a.sign < 0 ∧ 0 < a.magnitude := by
  rw [value]
  split <;> omega

theorem normalised_iff : a.Normalised ↔ (∀ d ∈ a.digits, d < bigDigitsLimit) ∧
    (a.sign = 0 ∨ a.sign = -1 ∧ 0 < a.magnitude) := by
  have hneg := value_lt_zero_iff (a := a)
  constructor
  · rintro ⟨hdigits, hsign⟩
    refine ⟨hdigits, ?_⟩
    split at hsign <;> omega
  · rintro ⟨hdigits, hsign⟩
    refine ⟨hdigits, ?_⟩
    split <;> omega

theorem Normalised.sign_cases (ha : a.Normalised) : a.sign = 0 ∧ a.value = a.magnitude ∨
      a.sign = -1 ∧ a.value = -a.magnitude ∧ 0 < a.magnitude := by
  rcases (normalised_iff.mp ha).2 with h | ⟨h, hpos⟩
  · exact .inl ⟨h, if_neg (by omega)⟩
  · exact .inr ⟨h, if_pos (by omega), hpos⟩

theorem magnitude_lt (ha : ∀ d ∈ a.digits, d < bigDigitsLimit) :
    a.magnitude < bigDigitsLimit ^ 5 := by
  have h := ofDigits_lt_base_pow_length (by decide) ha
  rwa [a.length_digits] at h

theorem compareDigits_digits (ha : ∀ d ∈ a.digits, d < bigDigitsLimit)
    (hb : ∀ d ∈ b.digits, d < bigDigitsLimit) :
    compareDigits a.digits b.digits = compare a.magnitude b.magnitude :=
  compareDigits_eq (a.length_digits.trans b.length_digits.symm) ha hb

end BigNum

open BigNum

/-- **Normalised numbers are ordered as integers.** -/
theorem bigNumCompare_eq (ha : a.Normalised) (hb : b.Normalised) :
    bigNumCompare a b = compare a.value b.value := by
  rw [bigNumCompare, compareDigits_digits ha.digits_lt hb.digits_lt]
  rcases ha.sign_cases with ⟨hsa, hva⟩ | ⟨hsa, hva, hpa⟩ <;>
    rcases hb.sign_cases with ⟨hsb, hvb⟩ | ⟨hsb, hvb, hpb⟩ <;> rw [hsa, hsb, hva, hvb]
  · simp [compare_eq_ite_lt, Int.compare_eq_ite_lt]
  · rw [if_neg (by decide), if_neg (by decide), eq_comm, compare_gt_iff_gt]
    omega
  · rw [if_neg (by decide), if_pos (by decide), eq_comm, compare_lt_iff_lt]
    omega
  · rw [Nat.compare_swap]
    simp [compare_eq_ite_lt, Int.compare_eq_ite_lt]

/-! ## Numbers from machine words -/

theorem splitDigits_spec : ∀ {n num : ℕ}, num < bigDigitsLimit ^ (n + 1) →
    ofDigits bigDigitsLimit (splitDigits n num) = num ∧ ∀ d ∈ splitDigits n num, d < bigDigitsLimit
  | 0, num, hnum => by
    have hlimit : bigDigitsLimit < 2 ^ 32 := by decide
    have hmod : num % 2 ^ 32 = num := mod_eq_of_lt (hnum.trans hlimit)
    rw [splitDigits, hmod]
    exact ⟨rfl, by simpa using hnum⟩
  | n + 1, num, hnum => by
    have hlimit : bigDigitsLimit < 2 ^ 32 := by decide
    have hpos : 0 < bigDigitsLimit ^ (n + 1) := pow_pos (by decide) _
    have hdigit : num / bigDigitsLimit ^ (n + 1) < bigDigitsLimit := by
      rw [Nat.div_lt_iff_lt_mul hpos, ← pow_succ']
      exact hnum
    have hmod : num / bigDigitsLimit ^ (n + 1) % 2 ^ 32 = num / bigDigitsLimit ^ (n + 1) :=
      mod_eq_of_lt (hdigit.trans hlimit)
    have hrest : num - num / bigDigitsLimit ^ (n + 1) * bigDigitsLimit ^ (n + 1) =
        num % bigDigitsLimit ^ (n + 1) := by
      rw [mod_eq_sub, mul_comm]
    obtain ⟨hvalue, hdigits⟩ := splitDigits_spec (mod_lt num hpos)
    rw [splitDigits, hmod, hrest, ofDigits_append, hvalue, length_splitDigits,
      ofDigits_singleton, mod_add_div]
    exact ⟨rfl, forall_mem_append.mpr ⟨hdigits, forall_mem_singleton.mpr hdigit⟩⟩

theorem initWithMagnitude_spec (hn : n ≤ 4) {num : ℕ}
    (hnum : num < bigDigitsLimit ^ (n + 1)) {negative : Bool} (hneg : negative = true → 0 < num) :
    (initWithMagnitude n hn num negative).Normalised ∧
      (initWithMagnitude n hn num negative).value = if negative then -(num : ℤ) else num := by
  obtain ⟨hvalue, hdigits⟩ := splitDigits_spec hnum
  have hmagnitude : (initWithMagnitude n hn num negative).magnitude = num := by
    rw [magnitude, initWithMagnitude, ofDigits_append, hvalue, ofDigits_replicate_zero,
      Nat.mul_zero, add_zero]
  have hlt : ∀ d ∈ (initWithMagnitude n hn num negative).digits, d < bigDigitsLimit := by
    intro d hd
    rw [initWithMagnitude, mem_append, mem_replicate] at hd
    rcases hd with hd | ⟨-, rfl⟩
    · exact hdigits d hd
    · decide
  rw [normalised_iff, value, hmagnitude]
  match negative with
  | true => exact ⟨⟨hlt, .inr ⟨rfl, hneg rfl⟩⟩, rfl⟩
  | false => exact ⟨⟨hlt, .inl rfl⟩, rfl⟩

/-- **A signed word** of as many bits as the digits can hold is taken over as it is. -/
theorem initWithInt_spec (hn : n ≤ 4) {w : ℕ} (hw : 2 ^ w ≤ bigDigitsLimit ^ (n + 1))
    (inNum : BitVec w) :
    (initWithInt n hn inNum).Normalised ∧ (initWithInt n hn inNum).value = inNum.toInt := by
  rw [initWithInt]
  split
  · next hneg =>
    have hnat : ((-inNum).toNat : ℤ) = -inNum.toInt := by
      rw [BitVec.toInt_eq_toNat_cond] at hneg ⊢
      split at hneg
      · omega
      · rw [BitVec.toNat_neg, mod_eq_of_lt (by omega)]
        omega
    obtain ⟨hnormal, hvalue⟩ := initWithMagnitude_spec hn ((-inNum).isLt.trans_le hw)
      (fun _ => (by omega))
    refine ⟨hnormal, hvalue.trans ?_⟩
    rw [if_pos rfl, hnat, Int.neg_neg]
  · next hpos =>
    have hnat : (inNum.toNat : ℤ) = inNum.toInt := by
      rw [BitVec.toInt_eq_toNat_cond] at hpos ⊢
      split at hpos <;> omega
    obtain ⟨hnormal, hvalue⟩ := initWithMagnitude_spec hn (inNum.isLt.trans_le hw)
      (fun h : false = true => absurd h (by decide))
    exact ⟨hnormal, hvalue.trans hnat⟩

/-- **An unsigned word** is taken over as it is. -/
theorem initWithUInt_spec (hn : n ≤ 4) {w : ℕ} (hw : 2 ^ w ≤ bigDigitsLimit ^ (n + 1))
    (inNum : BitVec w) :
    (initWithUInt n hn inNum).Normalised ∧ (initWithUInt n hn inNum).value = inNum.toNat :=
  initWithMagnitude_spec hn (inNum.isLt.trans_le hw) (fun h : false = true => absurd h (by decide))

/-! ## Sums -/

/-- The digits that are added do not overflow. -/
theorem addDigits_cons {x y carry : ℕ} (h : x < bigDigitsLimit ∧ y < bigDigitsLimit)
    (hcarry : carry ≤ 1) (as bs : List ℕ) : addDigits (x :: as) (y :: bs) carry =
      if bigDigitsLimit < x + y + carry then
        ((x + y + carry - bigDigitsLimit) :: (addDigits as bs 1).1, (addDigits as bs 1).2)
      else ((x + y + carry) :: (addDigits as bs 0).1, (addDigits as bs 0).2) := by
  have hlimit : bigDigitsLimit = 1000000000 := rfl
  rw [addDigits, mod_eq_of_lt (by omega)]

section

variable (h : DigitPairs bigDigitsLimit as bs)
include h

/-- The sum of the digits is exact, with its last carry. -/
theorem addDigits_value : ∀ {carry : ℕ}, carry ≤ 1 →
    ofDigits bigDigitsLimit (addDigits as bs carry).1 +
        (addDigits as bs carry).2 * bigDigitsLimit ^ as.length =
      ofDigits bigDigitsLimit as + ofDigits bigDigitsLimit bs + carry := by
  induction h with
  | nil => simp [addDigits]
  | cons hxy _ ih =>
    intro carry hcarry
    rw [addDigits_cons hxy hcarry]
    split
    · rw [ofDigits_cons, ofDigits_cons, ofDigits_cons]
      exact carry_step (by omega) (ih (le_refl 1))
    · rw [ofDigits_cons, ofDigits_cons, ofDigits_cons]
      exact carry_step (by omega) (ih zero_le)

/-- A digit above the limit leaves a digit above 0, so only zeros have a sum of zeros. -/
theorem eq_zero_of_addDigits : ∀ {carry : ℕ}, carry ≤ 1 →
    ofDigits bigDigitsLimit (addDigits as bs carry).1 = 0 → ofDigits bigDigitsLimit as = 0 := by
  induction h with
  | nil => exact fun _ _ => rfl
  | cons hxy _ ih =>
    intro carry hcarry hzero
    rw [addDigits_cons hxy hcarry] at hzero
    split at hzero
    · rw [ofDigits_cons] at hzero
      omega
    · rw [ofDigits_cons, Nat.add_eq_zero_iff, mul_eq_zero] at hzero
      have htail := ih zero_le (hzero.2.resolve_left (by decide))
      rw [ofDigits_cons, htail]
      omega

/-- The digit sums below `i` that carry exactly at `10 ^ 9`. -/
def NoFullDigit (carry m n count : ℕ) : Prop :=
  ∀ i < count, (m % bigDigitsLimit ^ (i + 1) + n % bigDigitsLimit ^ (i + 1) + carry) /
    bigDigitsLimit ^ i ≠ bigDigitsLimit

omit h in
theorem noFullDigit_succ {a b carry m count : ℕ} (ha : a < bigDigitsLimit)
    (hb : b < bigDigitsLimit) :
    NoFullDigit carry (a + bigDigitsLimit * m) (b + bigDigitsLimit * n) (count + 1) ↔
      a + b + carry ≠ bigDigitsLimit ∧
        NoFullDigit ((a + b + carry) / bigDigitsLimit) m n count := by
  have hpos : 0 < bigDigitsLimit := by decide
  have hmod : ∀ {x k : ℕ} (i : ℕ), x < bigDigitsLimit →
      (x + bigDigitsLimit * k) % bigDigitsLimit ^ (i + 1) =
        x + bigDigitsLimit * (k % bigDigitsLimit ^ i) := by
    intro x k i hx
    rw [pow_succ', mod_mul, add_mul_mod_self_left, mod_eq_of_lt hx,
      add_mul_div_left _ _ hpos, div_eq_of_lt hx, zero_add]
  have hdiv : ∀ i, (a + bigDigitsLimit * (m % bigDigitsLimit ^ (i + 1)) +
      (b + bigDigitsLimit * (n % bigDigitsLimit ^ (i + 1))) + carry) / bigDigitsLimit ^ (i + 1) =
        (m % bigDigitsLimit ^ (i + 1) + n % bigDigitsLimit ^ (i + 1) +
          (a + b + carry) / bigDigitsLimit) / bigDigitsLimit ^ i := by
    intro i
    rw [pow_succ' bigDigitsLimit i, ← Nat.div_div_eq_div_mul]
    rw [show ∀ u v : ℕ, a + bigDigitsLimit * u + (b + bigDigitsLimit * v) + carry =
      a + b + carry + bigDigitsLimit * (u + v) by intros; ring, add_mul_div_left _ _ hpos,
      add_comm]
  rw [NoFullDigit, forall_lt_succ_left']
  simp only [hmod _ ha, hmod _ hb, pow_zero, mod_one, Nat.div_one,
    hdiv]
  rfl

/-- **A sum is normalised exactly when no digit sum is `10 ^ 9`.** -/
theorem addDigits_lt_iff : ∀ {carry : ℕ}, carry ≤ 1 →
    ((∀ d ∈ (addDigits as bs carry).1, d < bigDigitsLimit) ↔
      NoFullDigit carry (ofDigits bigDigitsLimit as) (ofDigits bigDigitsLimit bs) as.length) := by
  induction h with
  | nil => simp [addDigits, NoFullDigit]
  | @cons x y as bs hxy _ ih =>
    intro carry hcarry
    have hlimit : bigDigitsLimit = 1000000000 := rfl
    rw [ofDigits_cons, ofDigits_cons, length_cons, noFullDigit_succ hxy.1 hxy.2,
      addDigits_cons hxy hcarry]
    split
    · next hgt =>
      have hcarry' : (x + y + carry) / bigDigitsLimit = 1 := by rw [hlimit]; omega
      rw [forall_mem_cons, ih (le_refl 1), hcarry']
      exact and_congr_left' ⟨fun _ => by omega, fun _ => by omega⟩
    · next hle =>
      rw [forall_mem_cons, ih zero_le]
      by_cases hfull : x + y + carry = bigDigitsLimit
      · simp [hfull]
      · have hcarry' : (x + y + carry) / bigDigitsLimit = 0 := div_eq_of_lt (by omega)
        rw [hcarry']
        exact and_congr_left' ⟨fun _ => hfull, fun _ => by omega⟩

/-! ## Differences -/

theorem subDigits_eq : ∀ {carry : ℕ}, carry ≤ 1 →
    subDigits as bs carry = subBorrow bigDigitsLimit as bs carry := by
  induction h with
  | nil => exact fun _ => rfl
  | @cons x y as bs hxy _ ih =>
    intro carry hcarry
    have hlimit : bigDigitsLimit = 1000000000 := rfl
    rw [subDigits, subBorrow, ih (le_refl 1), ih zero_le]
    by_cases hlt : x < y + carry
    · have hdigit : (((x : ℤ) - y - carry + bigDigitsLimit) % 2 ^ 32).toNat =
          x + bigDigitsLimit - (y + carry) := by omega
      rw [if_pos hlt, if_pos (by omega), hdigit]
    · have hdigit : (((x : ℤ) - y - carry) % 2 ^ 32).toNat = x - (y + carry) := by omega
      rw [if_neg hlt, if_neg (by omega), hdigit]

end

/-- The smaller magnitude is taken from the larger without a borrow. -/
theorem subMagnitudes_spec {big small : BigNum} (hbig : ∀ d ∈ big.digits, d < bigDigitsLimit)
    (hsmall : ∀ d ∈ small.digits, d < bigDigitsLimit) (hle : small.magnitude ≤ big.magnitude) :
    (∀ d ∈ (subMagnitudes big small).1.digits, d < bigDigitsLimit) ∧
      (subMagnitudes big small).1.magnitude = big.magnitude - small.magnitude ∧
      (subMagnitudes big small).2 = 0 := by
  have hlt := fun h => magnitude_lt (a := (subMagnitudes big small).1) h
  have hpairs := digitPairs_of_length
    (big.length_digits.trans small.length_digits.symm) hbig hsmall
  obtain ⟨hdigits, hout, hvalue⟩ := subBorrow_spec hpairs zero_le
  rw [← subDigits_eq hpairs zero_le] at hdigits hout hvalue
  specialize hlt hdigits
  rw [big.length_digits] at hvalue
  have hvalue' : (subMagnitudes big small).1.magnitude + small.magnitude =
      big.magnitude + (subMagnitudes big small).2 * bigDigitsLimit ^ 5 := hvalue
  have hout' : (subMagnitudes big small).2 ≤ 1 := hout
  have hzero : (subMagnitudes big small).2 = 0 := by
    by_contra hne
    rw [show (subMagnitudes big small).2 = 1 by omega] at hvalue'
    omega
  rw [hzero] at hvalue'
  exact ⟨hdigits, by omega, hzero⟩

theorem ofDigits_eq_zero_iff : ∀ {ds : List ℕ},
    ofDigits bigDigitsLimit ds = 0 ↔ ds.all (· = 0) = true
  | [] => by simp
  | d :: ds => by
    have hpos : bigDigitsLimit ≠ 0 := by decide
    rw [ofDigits_cons, all_cons, Bool.and_eq_true, ← ofDigits_eq_zero_iff]
    simp [hpos]

theorem bigNumNeg_spec (ha : a.Normalised) :
    (bigNumNeg a).Normalised ∧ (bigNumNeg a).value = -a.value := by
  rw [bigNumNeg]
  split
  · next hzero =>
    rw [← ofDigits_eq_zero_iff, ← magnitude] at hzero
    refine ⟨ha, ?_⟩
    rcases ha.sign_cases with ⟨-, hvalue⟩ | ⟨-, -, hpos⟩
    · omega
    · omega
  · next hne =>
    rw [← ofDigits_eq_zero_iff] at hne
    rw [normalised_iff]
    rcases ha.sign_cases with ⟨hsign, hvalue⟩ | ⟨hsign, hvalue, hpos⟩
    · simp only [value, hsign]
      exact ⟨⟨ha.digits_lt, .inr ⟨rfl, Nat.pos_of_ne_zero hne⟩⟩, rfl⟩
    · rw [hvalue, neg_neg]
      simp only [hsign]
      exact ⟨⟨ha.digits_lt, .inl rfl⟩, rfl⟩

/-! ## When the results are normalised -/

/-- The number returned is normalised, its value and the carry make `v`, and it is ordered as its
value. -/
structure Exact (r : BigNum × ℕ) (v : ℤ) : Prop where
  normalised : r.1.Normalised
  value_eq : r.1.value + (if r.1.sign < 0 then -1 else 1) * (r.2 * bigDigitsLimit ^ 5 : ℕ) = v
  compare_eq : ∀ c : BigNum, c.Normalised → bigNumCompare r.1 c = compare r.1.value c.value

theorem exact_iff {r : BigNum × ℕ} {v : ℤ}
    (hv : r.1.value + (if r.1.sign < 0 then -1 else 1) * (r.2 * bigDigitsLimit ^ 5 : ℕ) = v) :
    Exact r v ↔ r.1.Normalised :=
  ⟨fun h => h.normalised, fun h => ⟨h, hv, fun _ => bigNumCompare_eq h⟩⟩

/-- Numbers of one sign have no digit sum of `10 ^ 9`, with the carry from the digits below; the
negative of two numbers of different signs is not the negation of the other. -/
def Safe (x y : ℤ) : Prop :=
  if x < 0 ↔ y < 0 then NoFullDigit 0 x.natAbs y.natAbs 5
  else x < 0 → x + y ≠ 0

theorem bigNumAdd_iff_of_eq (ha : a.Normalised) (hb : b.Normalised) (hsign : a.sign = b.sign) :
    Exact (bigNumAdd a b) (a.value + b.value) ↔ NoFullDigit 0 a.magnitude b.magnitude 5 := by
  have hpairs := digitPairs_of_length
    (a.length_digits.trans b.length_digits.symm) ha.digits_lt hb.digits_lt
  have hsum := addDigits_value hpairs zero_le
  have hlt := addDigits_lt_iff hpairs zero_le
  have hzero := eq_zero_of_addDigits hpairs zero_le
  rw [a.length_digits] at hsum hlt
  rw [bigNumAdd, if_pos hsign, exact_iff, normalised_iff, hlt]
  · simp only [magnitude, and_iff_left_iff_imp]
    intro _
    rcases ha.sign_cases with ⟨hsa, -⟩ | ⟨hsa, -, hpos⟩
    · exact .inl hsa
    · refine .inr ⟨hsa, Nat.pos_of_ne_zero fun h => ?_⟩
      rw [magnitude] at hpos
      omega
  · simp only [value, magnitude] at hsum ⊢
    split
    · omega
    · omega

theorem subMagnitudes_iff {big small : BigNum} (hbig : big.Normalised) (hsmall : small.Normalised)
    (hsign : big.sign ≠ small.sign) (hle : small.magnitude ≤ big.magnitude) :
    Exact (subMagnitudes big small) (big.value + small.value) ↔
      (big.value < 0 → big.value + small.value ≠ 0) := by
  obtain ⟨hdigits, hmagnitude, hout⟩ := subMagnitudes_spec hbig.digits_lt hsmall.digits_lt hle
  have hresult : (subMagnitudes big small).1.sign = if big.sign < 0 then -1 else 0 := rfl
  rcases hbig.sign_cases with ⟨hs, hv⟩ | ⟨hs, hv, hpos⟩ <;>
    rcases hsmall.sign_cases with ⟨hs', hv'⟩ | ⟨hs', hv', hpos'⟩
  · exact absurd (hs.trans hs'.symm) hsign
  · rw [if_neg (by omega)] at hresult
    rw [exact_iff, normalised_iff]
    · exact ⟨fun _ _ => by omega, fun _ => ⟨hdigits, .inl hresult⟩⟩
    · rw [value, hresult, hout]
      omega
  · rw [if_pos (by omega)] at hresult
    rw [exact_iff, normalised_iff, and_iff_right hdigits]
    · omega
    · rw [value, hresult, hout]
      omega
  · exact absurd (hs.trans hs'.symm) hsign

theorem bigNumAdd_iff_of_ne (ha : a.Normalised) (hb : b.Normalised) (hsign : a.sign ≠ b.sign) :
    Exact (bigNumAdd a b) (a.value + b.value) ↔ (a.value < 0 → a.value + b.value ≠ 0) := by
  have hcompare := compareDigits_digits ha.digits_lt hb.digits_lt
  rw [bigNumAdd, if_neg hsign]
  split
  · next hlt =>
    rw [bigNumAbsoluteLessThan, hcompare, decide_eq_true_eq, compare_lt_iff_lt] at hlt
    have hne : a.value + b.value ≠ 0 := by
      rcases ha.sign_cases with ⟨-, hv⟩ | ⟨-, hv, -⟩ <;>
        rcases hb.sign_cases with ⟨-, hv'⟩ | ⟨-, hv', -⟩ <;> omega
    rw [Int.add_comm] at hne ⊢
    rw [subMagnitudes_iff hb ha hsign.symm hlt.le]
    exact ⟨fun _ _ => hne, fun _ _ => hne⟩
  · next hge =>
    rw [bigNumAbsoluteLessThan, hcompare, decide_eq_true_eq, compare_lt_iff_lt, not_lt] at hge
    exact subMagnitudes_iff ha hb hsign hge

theorem bigNumAdd_iff (ha : a.Normalised) (hb : b.Normalised) :
    Exact (bigNumAdd a b) (a.value + b.value) ↔ Safe a.value b.value := by
  have hsa := ha.sign_eq
  have hsb := hb.sign_eq
  have hma : a.value.natAbs = a.magnitude := by
    rcases ha.sign_cases with ⟨-, hv⟩ | ⟨-, hv, -⟩ <;> omega
  have hmb : b.value.natAbs = b.magnitude := by
    rcases hb.sign_cases with ⟨-, hv⟩ | ⟨-, hv, -⟩ <;> omega
  rw [Safe]
  split
  · next hiff =>
    rw [hma, hmb]
    exact bigNumAdd_iff_of_eq ha hb (by rw [hsa, hsb]; simp only [hiff])
  · next hiff =>
    refine bigNumAdd_iff_of_ne ha hb fun heq => hiff ?_
    rw [hsa, hsb] at heq
    split at heq <;> split at heq <;> omega

/-- **Sums and differences.** For normalised numbers the result of `_CFBigNumAdd` and of
`_CFBigNumSub` is normalised, exact together with its carry and ordered as the integer it stands
for, exactly when no two digits and the carry below them sum to `10 ^ 9` and no negative number is
brought to 0. -/
theorem bigNum_arithmetic_iff {a b : BigNum} (ha : a.Normalised) (hb : b.Normalised) :
    (Exact (bigNumAdd a b) (a.value + b.value) ↔ Safe a.value b.value) ∧
      (Exact (bigNumSub a b) (a.value - b.value) ↔ Safe a.value (-b.value)) := by
  obtain ⟨hneg, hvalue⟩ := bigNumNeg_spec hb
  refine ⟨bigNumAdd_iff ha hb, ?_⟩
  rw [Int.sub_eq_add_neg, ← hvalue]
  exact bigNumAdd_iff ha hneg

/-- The largest 64-bit number added to itself, and taken from itself. -/
theorem bigNum_arithmetic_max : (initWithInt64 0x7FFFFFFFFFFFFFFF).Normalised ∧
      Exact (bigNumAdd (initWithInt64 0x7FFFFFFFFFFFFFFF) (initWithInt64 0x7FFFFFFFFFFFFFFF))
        (9223372036854775807 + 9223372036854775807) ∧
      Exact (bigNumSub (initWithInt64 0x7FFFFFFFFFFFFFFF) (initWithInt64 0x7FFFFFFFFFFFFFFF))
        (9223372036854775807 - 9223372036854775807) := by
  obtain ⟨ha, hvalue⟩ : (initWithInt64 0x7FFFFFFFFFFFFFFF).Normalised ∧
      (initWithInt64 0x7FFFFFFFFFFFFFFF).value = 9223372036854775807 :=
    initWithInt_spec _ (by decide) _
  obtain ⟨hadd, hsub⟩ := bigNum_arithmetic_iff ha ha
  refine ⟨ha, hadd.mpr ?_, hsub.mpr ?_⟩
  · rw [Safe, NoFullDigit]
    decide +kernel
  · rw [Safe, NoFullDigit]
    decide +kernel

/-- `999999999 + 1` is one digit of `10 ^ 9`, which is not below the limit and is ordered before the
number `10 ^ 9` it should be; `-1 - -1` is a zero with the sign of a negative number. -/
theorem bigNum_not_normalised :
    (initWithInt32 999999999).Normalised ∧ (initWithInt32 1).Normalised ∧
      (initWithInt32 (-1)).Normalised ∧
      ¬ (bigNumAdd (initWithInt32 999999999) (initWithInt32 1)).1.Normalised ∧
      bigNumCompare (bigNumAdd (initWithInt32 999999999) (initWithInt32 1)).1
        (initWithInt32 1000000000) = .lt ∧
      ¬ (bigNumSub (initWithInt32 (-1)) (initWithInt32 (-1))).1.Normalised ∧
      bigNumCompare (bigNumSub (initWithInt32 (-1)) (initWithInt32 (-1))).1 (initWithInt32 0) =
        .lt := by
  have hw : 2 ^ 32 ≤ bigDigitsLimit ^ (1 + 1) := by decide
  refine ⟨(initWithInt_spec _ hw _).1, (initWithInt_spec _ hw _).1, (initWithInt_spec _ hw _).1,
    fun h => ?_, by decide, fun h => ?_, by decide⟩
  · exact absurd h.digits_lt (by decide)
  · exact absurd h.sign_eq (by decide)

end Apple.CF.BigNumber
