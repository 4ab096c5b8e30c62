import Apple.Lib.DoubleInteger
import Mathlib.Algebra.Order.BigOperators.Group.List
import Mathlib.Tactic.IntervalCases

/-!
# Gregorian dates in `CFDate`

Model of `isleap`, `__CFDaysBeforeMonth`, `__CFDaysAfterMonth`, `__CFYMDFromAbsolute`,
`__CFAbsoluteFromYMD` (`CF-1153.18/CFDate.c`, 217–286) and `CFAbsoluteTimeGetWeekOfYear` (496–527).
Years count from 2001, and day 0 is the first of January 2001. `none` is an access outside of a
table, or a loop that does not end. Day numbers are far below `2 ^ 63`, so 64-bit arithmetic is that
of the integers; `double`s are rounded.

Results:
* `dayNumber_next`, `dayNumber_injective`: the calendar as such.
* `ymdFromAbsolute_eq`: a day number gives its date.
* `absoluteFromYMD_eq`: a date gives its day number, if the first day of its year is a double.
* `calendar_iff`: the two are inverse for all but seven day numbers of up to 53 bits.
* `week_iff`: the week is that of ISO 8601 but for some of the first days of a year.
-/

namespace Apple.CF.Gregorian

open Apple.Lib Option

/-! ## The source -/

/-- `daysBeforeMonth` (217). -/
def daysBeforeMonthTable : List ℕ :=
  [0, 0, 31, 59, 90, 120, 151, 181, 212, 243, 273, 304, 334, 365, 0, 0]

/-- `daysAfterMonth` (218). -/
def daysAfterMonthTable : List ℕ :=
  [365, 334, 306, 275, 245, 214, 184, 153, 122, 92, 61, 31, 0, 0, 0, 0]

/-- An entry of a table at a signed index. -/
def entry (table : List ℕ) (idx : ℤ) : Option ℕ := if 0 ≤ idx then table[idx.toNat]? else none

/-- `isleap` (220–224). -/
def isleap (year : ℤ) : Bool :=
  let y := (year + 1).tmod 400
  let y := if y < 0 then -y else y
  0 = y.toNat &&& 3 && 100 ≠ y && 200 ≠ y && 300 ≠ y

/-- `__CFDaysBeforeMonth` (232–234). -/
def daysBeforeMonth (month : ℤ) (leap : Bool) : Option ℤ := do
  let days ← entry daysBeforeMonthTable month
  some (days + if 2 < month && leap then 1 else 0)

/-- `__CFDaysAfterMonth` (237–239). -/
def daysAfterMonth (month : ℤ) (leap : Bool) : Option ℤ := do
  let days ← entry daysAfterMonthTable month
  some (days + if month < 2 && leap then 1 else 0)

/-- A value stored in an `int8_t`. -/
def toInt8 (z : ℤ) : ℤ := z.bmod 256

/-- A year (from 2001), a month and a day. -/
@[ext]
structure Date where
  year : ℤ
  month : ℤ
  day : ℤ
deriving DecidableEq

/-- The loop at 247–250. -/
def yearsDown : ℕ → ℤ → ℤ → Option (ℤ × ℤ)
  | 0, _, _ => none
  | fuel + 1, y, absolute =>
    if absolute < 0 then do
      let days ← daysAfterMonth 0 (isleap (y - 1))
      yearsDown fuel (y - 1) (absolute + days)
    else some (y, absolute)

/-- The loop at 252–257. -/
def yearsUp : ℕ → ℤ → ℤ → Option (ℤ × ℤ)
  | 0, _, _ => none
  | fuel + 1, y, absolute => do
    let ydays ← daysAfterMonth 0 (isleap y)
    if ydays ≤ absolute then yearsUp fuel (y + 1) (absolute - ydays)
    else some (y, absolute)

/-- The loop at 263. -/
def monthsUp (leap : Bool) (absolute : ℤ) : ℕ → ℤ → Option ℤ
  | 0, _ => none
  | fuel + 1, m => do
    let days ← daysBeforeMonth (m + 1) leap
    if days ≤ absolute then monthsUp leap absolute fuel (toInt8 (m + 1))
    else some m

/-- `__CFYMDFromAbsolute` (242–267). A year has at least one day and a step goes over a whole year,
so the days that are left bound the steps. -/
def ymdFromAbsolute (absolute : ℤ) : Option Date := do
  let b := absolute.tdiv 146097
  let rest := absolute - b * 146097
  let (y, rest) ← yearsDown (rest.natAbs + 1) (b * 400) rest
  let (y, rest) ← yearsUp (rest.natAbs + 1) y rest
  let leap := isleap y
  let m ← monthsUp leap rest 16 (toInt8 (rest.tdiv 33 + 1))
  let days ← daysBeforeMonth m leap
  some ⟨y, m, toInt8 (rest - days + 1)⟩

/-- The loop at 277–278, for `n` years up to 2000. -/
def subYears : ℕ → ℤ → Option ℤ
  | 0, absolute => some absolute
  | n + 1, absolute => do
    let days ← daysAfterMonth 0 (isleap (-(n + 1 : ℕ)))
    subYears n (toDouble (absolute - days))

/-- The loop at 280–281, for the `n` years from `idx` on. -/
def addYears : ℕ → ℤ → ℤ → Option ℤ
  | 0, _, absolute => some absolute
  | n + 1, idx, absolute => do
    let days ← daysAfterMonth 0 (isleap idx)
    addYears n (idx + 1) (toDouble (absolute + days))

/-- `__CFAbsoluteFromYMD` (270–286). -/
def absoluteFromYMD (year month day : ℤ) : Option ℤ := do
  let b := year.tdiv 400
  let absolute := toDouble (0 + toDouble (toDouble b * 146097))
  let rest := year - b * 400
  let absolute ← if rest < 0 then subYears rest.natAbs absolute
    else addYears rest.natAbs 0 absolute
  let days ← daysBeforeMonth month (isleap rest)
  some (toDouble (absolute + (days + day - 1)))

/-! ## The calendar -/

/-- The Gregorian rule, for a year counted from 2001. -/
def leapYear (year : ℤ) : Bool :=
  (2001 + year) % 4 = 0 ∧ ((2001 + year) % 100 ≠ 0 ∨ (2001 + year) % 400 = 0)

/-- How long the months are. -/
def monthLength (leap : Bool) (month : ℤ) : ℤ :=
  if month = 2 then if leap then 29 else 28
  else if month = 4 ∨ month = 6 ∨ month = 9 ∨ month = 11 then 30
  else 31

/-- The days from January up to a month. -/
def daysUpTo (leap : Bool) (month : ℤ) : ℤ :=
  ((List.range (month - 1).toNat).map fun k : ℕ => monthLength leap (k + 1)).sum

def yearLength (year : ℤ) : ℤ := if leapYear year then 366 else 365

/-- The days from the first of January 2001 to the first of January of a year: 365 for each year,
and a leap day every four years, but for the centuries that four does not divide. -/
def daysBeforeYear (year : ℤ) : ℤ :=
  365 * year + ((year + 2000) / 4 - (year + 2000) / 100 + (year + 2000) / 400 - 485)

namespace Date

def Valid (date : Date) : Prop :=
  1 ≤ date.month ∧ date.month ≤ 12 ∧ 1 ≤ date.day ∧
    date.day ≤ monthLength (leapYear date.year) date.month

def next (date : Date) : Date :=
  if date.day < monthLength (leapYear date.year) date.month then
    { date with day := date.day + 1 }
  else if date.month < 12 then { date with month := date.month + 1, day := 1 }
  else ⟨date.year + 1, 1, 1⟩

/-- The days from the first of January 2001 to a date. -/
def dayNumber (date : Date) : ℤ :=
  daysBeforeYear date.year + daysUpTo (leapYear date.year) date.month + date.day - 1

end Date

variable (year : ℤ)

theorem daysBeforeYear_succ :
    daysBeforeYear (year + 1) = daysBeforeYear year + yearLength year := by
  rw [daysBeforeYear, daysBeforeYear, yearLength, leapYear]
  split
  all_goals
    next h =>
      rw [decide_eq_true_eq] at h
      omega

theorem daysBeforeYear_add_mul (year b : ℤ) :
    daysBeforeYear (b * 400 + year) = b * 146097 + daysBeforeYear year := by
  rw [daysBeforeYear, daysBeforeYear]
  omega

theorem yearLength_pos : 365 ≤ yearLength year ∧ yearLength year ≤ 366 := by
  rw [yearLength]
  split <;> omega

theorem daysBeforeYear_mono {year year' : ℤ} (h : year < year') :
    daysBeforeYear year + yearLength year ≤ daysBeforeYear year' := by
  rw [← daysBeforeYear_succ, daysBeforeYear, daysBeforeYear]
  omega

variable {leap : Bool} {month : ℤ} {date : Date}

theorem daysUpTo_succ (h : 1 ≤ month) :
    daysUpTo leap (month + 1) = daysUpTo leap month + monthLength leap month := by
  obtain ⟨n, rfl⟩ : ∃ n : ℕ, month = n + 1 := ⟨(month - 1).toNat, by omega⟩
  rw [daysUpTo, daysUpTo, show ((n : ℤ) + 1 + 1 - 1).toNat = n + 1 by omega,
    List.range_succ]
  simp

theorem daysUpTo_thirteen : daysUpTo (leapYear year) 13 = yearLength year := by
  rw [yearLength]
  match leapYear year with
  | true => rfl
  | false => rfl

theorem monthLength_pos (leap : Bool) (month : ℤ) : 28 ≤ monthLength leap month := by
  rw [monthLength]
  split_ifs <;> omega

theorem monthLength_le (leap : Bool) (month : ℤ) : monthLength leap month ≤ 31 := by
  rw [monthLength]
  split_ifs <;> omega

theorem daysUpTo_mono {month' : ℤ} (h : 1 ≤ month) (hlt : month < month') :
    daysUpTo leap month + monthLength leap month ≤ daysUpTo leap month' := by
  rw [← daysUpTo_succ h]
  obtain ⟨n, rfl⟩ : ∃ n : ℕ, month' = month + 1 + n := ⟨(month' - month - 1).toNat, by omega⟩
  induction n with
  | zero => simp
  | succ n ih =>
    have hstep : daysUpTo leap (month + 1 + n + 1) = _ := daysUpTo_succ (by omega)
    have hpos := monthLength_pos leap (month + 1 + n)
    rw [show month + 1 + ((n + 1 : ℕ) : ℤ) = month + 1 + n + 1 by omega]
    omega

/-- **The day after.** -/
theorem dayNumber_next (h : date.Valid) :
    date.next.Valid ∧ date.next.dayNumber = date.dayNumber + 1 := by
  obtain ⟨hmonth, hmonth', hday, hday'⟩ := h
  rw [Date.next]
  split_ifs with hlt hlt'
  · refine ⟨⟨hmonth, hmonth', by simp only; omega, by simp only; omega⟩, ?_⟩
    simp only [Date.dayNumber]
    omega
  · have hstep : daysUpTo (leapYear date.year) (date.month + 1) = _ := daysUpTo_succ hmonth
    have hpos := monthLength_pos (leapYear date.year) (date.month + 1)
    refine ⟨⟨by simp only; omega, by simp only; omega, le_refl 1, by simp only; omega⟩, ?_⟩
    simp only [Date.dayNumber]
    omega
  · have hstep : daysUpTo (leapYear date.year) (date.month + 1) = _ := daysUpTo_succ hmonth
    have htwelve : date.month = 12 := by omega
    have hyear := daysUpTo_thirteen date.year
    have hnext := daysBeforeYear_succ date.year
    have hpos := monthLength_pos (leapYear (date.year + 1)) 1
    have hzero : daysUpTo (leapYear (date.year + 1)) 1 = 0 := rfl
    rw [htwelve] at hstep hday' hlt
    refine ⟨⟨le_refl 1, by norm_num, le_refl 1, by simp only; omega⟩, ?_⟩
    simp only [Date.dayNumber, htwelve]
    norm_num at hstep
    omega

theorem Date.Valid.dayOfYear (h : date.Valid) : daysBeforeYear date.year ≤ date.dayNumber ∧
      date.dayNumber < daysBeforeYear date.year + yearLength date.year ∧
      daysUpTo (leapYear date.year) date.month ≤ date.dayNumber - daysBeforeYear date.year ∧
      date.dayNumber - daysBeforeYear date.year <
        daysUpTo (leapYear date.year) date.month + monthLength (leapYear date.year) date.month := by
  obtain ⟨hmonth, hmonth', hday, hday'⟩ := h
  have hmono : _ ≤ daysUpTo (leapYear date.year) 13 := daysUpTo_mono hmonth (by omega)
  have hyear := daysUpTo_thirteen date.year
  have hnonneg : 0 ≤ daysUpTo (leapYear date.year) date.month :=
    List.sum_nonneg fun x hx => by
      obtain ⟨k, -, rfl⟩ := List.mem_map.mp hx
      have := monthLength_pos (leapYear date.year) (k + 1)
      omega
  rw [Date.dayNumber]
  omega

theorem year_unique {d year year' : ℤ} (hlo : daysBeforeYear year ≤ d)
    (hhi : d < daysBeforeYear year + yearLength year) (hlo' : daysBeforeYear year' ≤ d)
    (hhi' : d < daysBeforeYear year' + yearLength year') : year = year' := by
  by_contra hne
  rcases lt_or_gt_of_ne hne with hlt | hlt
  · have := daysBeforeYear_mono hlt
    omega
  · have := daysBeforeYear_mono hlt
    omega

/-- **A day has one date.** -/
theorem dayNumber_injective {date' : Date} (h : date.Valid) (h' : date'.Valid)
    (heq : date.dayNumber = date'.dayNumber) : date = date' := by
  obtain ⟨hlo, hhi, hmlo, hmhi⟩ := h.dayOfYear
  obtain ⟨hlo', hhi', hmlo', hmhi'⟩ := h'.dayOfYear
  rw [heq] at hlo hhi
  have hyear := year_unique hlo hhi hlo' hhi'
  rw [← hyear] at hmlo' hmhi'
  have hmonth : date.month = date'.month := by
    rcases lt_trichotomy date.month date'.month with hlt | heq | hlt
    · have : _ ≤ daysUpTo (leapYear date.year) _ := daysUpTo_mono h.1 hlt
      omega
    · exact heq
    · have : _ ≤ daysUpTo (leapYear date.year) _ := daysUpTo_mono h'.1 hlt
      omega
  have hday : date.day = date'.day := by
    rw [Date.dayNumber, Date.dayNumber, ← hyear, ← hmonth] at heq
    omega
  exact Date.ext hyear hmonth hday

/-! ## From a day number to its date -/

theorem isleap_eq : isleap year = leapYear year := by
  have hand : ∀ n : ℕ, n &&& 3 = n % 4 := fun n => Nat.and_two_pow_sub_one_eq_mod n 2
  rw [Bool.eq_iff_iff, isleap, leapYear]
  simp only [hand, Bool.and_eq_true, decide_eq_true_eq]
  rw [Int.tmod_eq_emod]
  split_ifs <;> omega

theorem daysAfterMonth_zero : daysAfterMonth 0 (isleap year) = some (yearLength year) := by
  rw [isleap_eq, yearLength]
  match leapYear year with
  | true => rfl
  | false => rfl

/-- The table is that of the calendar. -/
theorem daysBeforeMonth_eq (h : 1 ≤ month) (h' : month ≤ 13) (leap : Bool) :
    daysBeforeMonth month leap = some (daysUpTo leap month) := by
  match leap with
  | true | false => interval_cases month <;> rfl

theorem yearsDown_spec : ∀ {fuel : ℕ} {y absolute : ℤ}, 0 < fuel → -absolute < fuel →
    ∃ y' rest, yearsDown fuel y absolute = some (y', rest) ∧ 0 ≤ rest ∧
      daysBeforeYear y' + rest = daysBeforeYear y + absolute
  | fuel + 1, y, absolute, _, hfuel => by
    have hstep := daysBeforeYear_succ (y - 1)
    have hpos := yearLength_pos (y - 1)
    rw [Int.sub_add_cancel] at hstep
    rw [yearsDown, daysAfterMonth_zero, bind_eq_bind]
    split
    · obtain ⟨y', rest, hok, hrest, heq⟩ := yearsDown_spec (show 0 < fuel by omega)
        (show -(absolute + yearLength (y - 1)) < fuel by omega)
      exact ⟨y', rest, hok, hrest, by omega⟩
    · exact ⟨y, absolute, rfl, by omega, rfl⟩

theorem yearsUp_spec : ∀ {fuel : ℕ} {y absolute : ℤ}, 0 ≤ absolute → absolute < fuel →
    ∃ y' rest, yearsUp fuel y absolute = some (y', rest) ∧ 0 ≤ rest ∧ rest < yearLength y' ∧
      daysBeforeYear y' + rest = daysBeforeYear y + absolute
  | fuel + 1, y, absolute, hnonneg, hfuel => by
    have hstep := daysBeforeYear_succ y
    have hpos := yearLength_pos y
    rw [yearsUp, daysAfterMonth_zero, bind_eq_bind, bind_some]
    split
    · obtain ⟨y', rest, hok, hrest, hlt, heq⟩ := yearsUp_spec
        (show 0 ≤ absolute - yearLength y by omega)
        (show absolute - yearLength y < fuel by omega)
      exact ⟨y', rest, hok, hrest, hlt, by omega⟩
    · exact ⟨y, absolute, rfl, hnonneg, by omega, rfl⟩

theorem toInt8_eq {z : ℤ} (h : 0 ≤ z) (h' : z < 128) : toInt8 z = z := by
  rw [toInt8, Int.bmod_eq_of_le (by omega) (by omega)]

theorem monthsUp_from {rest : ℤ} (h : rest < daysUpTo leap 13) :
    ∀ {fuel : ℕ} {m : ℤ}, 1 ≤ m → m ≤ 12 → 12 - m < fuel → daysUpTo leap m ≤ rest →
      ∃ m', monthsUp leap rest fuel m = some m' ∧ 1 ≤ m' ∧ m' ≤ 12 ∧ daysUpTo leap m' ≤ rest ∧
        rest < daysUpTo leap m' + monthLength leap m'
  | 0, m, _, hm', hfuel, _ => by omega
  | fuel + 1, m, hm, hm', hfuel, hle => by
    rw [monthsUp, daysBeforeMonth_eq (by omega) (by omega), bind_eq_bind, bind_some]
    split
    · next hnext =>
      have hlt : m + 1 ≤ 12 := by
        by_contra hge
        rw [show m + 1 = 13 by omega] at hnext
        omega
      rw [toInt8_eq (by omega) (by omega)]
      exact monthsUp_from h (by omega) hlt (by omega) hnext
    · next hnext =>
      rw [daysUpTo_succ hm] at hnext
      exact ⟨m, rfl, hm, hm', hle, by omega⟩

/-- The search for the month starts at or before it: no month is longer than 33 days. -/
theorem daysUpTo_approximation (leap : Bool) {k : ℤ} (h : 0 ≤ k) (h' : k ≤ 11) :
    daysUpTo leap (k + 1) ≤ 33 * k := by
  match leap with
  | true | false => interval_cases k <;> decide

/-- The month of a day of the year. -/
theorem monthsUp_spec (leap : Bool) {rest : ℤ} (h : 0 ≤ rest) (h' : rest < daysUpTo leap 13) :
    ∃ m, monthsUp leap rest 16 (toInt8 (rest.tdiv 33 + 1)) = some m ∧ 1 ≤ m ∧ m ≤ 12 ∧
      daysUpTo leap m ≤ rest ∧ rest < daysUpTo leap m + monthLength leap m := by
  have hyear : daysUpTo leap 13 ≤ 366 := by
    match leap with
    | true => decide
    | false => decide
  rw [Int.tdiv_eq_ediv_of_nonneg h, toInt8_eq (by omega) (by omega)]
  have hstart := daysUpTo_approximation leap (show 0 ≤ rest / 33 by omega) (by omega)
  exact monthsUp_from h' (by omega) (by omega) (by omega) (by omega)

/-- **A day number gives its date.** -/
theorem ymdFromAbsolute_eq (absolute : ℤ) : ∃ date, ymdFromAbsolute absolute = some date ∧
    date.Valid ∧ date.dayNumber = absolute := by
  have hblock := daysBeforeYear_add_mul 0 (absolute.tdiv 146097)
  have hzero : daysBeforeYear 0 = 0 := rfl
  rw [Int.add_zero] at hblock
  obtain ⟨y₁, rest₁, hdown, hrest₁, heq₁⟩ : ∃ y' rest, yearsDown
      ((absolute - absolute.tdiv 146097 * 146097).natAbs + 1) (absolute.tdiv 146097 * 400)
      (absolute - absolute.tdiv 146097 * 146097) = some (y', rest) ∧ _ :=
    yearsDown_spec (by omega) (by omega)
  obtain ⟨y, rest, hup, hrest, hlt, heq⟩ : ∃ y' rest, yearsUp (rest₁.natAbs + 1) y₁ rest₁ =
      some (y', rest) ∧ _ := yearsUp_spec hrest₁ (by omega)
  rw [← daysUpTo_thirteen] at hlt
  obtain ⟨m, hmonths, hm, hm', hmlo, hmhi⟩ := monthsUp_spec (leapYear y) hrest hlt
  have hle := monthLength_le (leapYear y) m
  refine ⟨⟨y, m, rest - daysUpTo (leapYear y) m + 1⟩, ?_, ⟨hm, hm', ?_, ?_⟩, ?_⟩
  · rw [ymdFromAbsolute]
    simp only [bind_eq_bind]
    rw [hdown, bind_some, hup, bind_some]
    dsimp only
    rw [isleap_eq, hmonths, bind_some, daysBeforeMonth_eq hm (by omega), bind_some,
      toInt8_eq (by omega) (by omega)]
  · simp only
    omega
  · simp only
    omega
  · simp only [Date.dayNumber]
    omega

/-! ## From a date to its day number -/

theorem exists_subYears : ∀ (n : ℕ) (absolute : ℤ), ∃ result, subYears n absolute = some result
  | 0, absolute => ⟨absolute, rfl⟩
  | n + 1, absolute => by
    exact exists_subYears n _

theorem exists_addYears : ∀ (n : ℕ) (idx absolute : ℤ),
    ∃ result, addYears n idx absolute = some result
  | 0, _, absolute => ⟨absolute, rfl⟩
  | n + 1, idx, absolute => by
    exact exists_addYears n _ _

/-- Years are taken off exactly while the days stay doubles. -/
theorem subYears_eq : ∀ {n : ℕ} {absolute : ℤ}, absolute ≤ 2 ^ 53 →
    -2 ^ 53 ≤ absolute + daysBeforeYear (-n) →
    subYears n absolute = some (absolute + daysBeforeYear (-n))
  | 0, absolute, _, _ => by
    rw [subYears, show daysBeforeYear (-((0 : ℕ) : ℤ)) = 0 from rfl, Int.add_zero]
  | n + 1, absolute, hhi, hlo => by
    have hstep := daysBeforeYear_succ (-(n + 1 : ℕ))
    have hpos := yearLength_pos (-(n + 1 : ℕ))
    have hneg : daysBeforeYear (-(n : ℕ)) ≤ 0 := by
      rw [daysBeforeYear]
      omega
    rw [show -((n + 1 : ℕ) : ℤ) + 1 = -n by omega] at hstep
    rw [subYears, daysAfterMonth_zero, bind_eq_bind, bind_some,
      toDouble_eq (by omega) (by omega), subYears_eq (by omega) (by omega)]
    congr 1
    omega

/-- Years are added exactly while the days stay doubles. -/
theorem addYears_eq : ∀ {n : ℕ} {idx absolute : ℤ}, -2 ^ 53 ≤ absolute →
    absolute + (daysBeforeYear (idx + n) - daysBeforeYear idx) ≤ 2 ^ 53 →
    addYears n idx absolute = some (absolute + (daysBeforeYear (idx + n) - daysBeforeYear idx))
  | 0, idx, absolute, _, _ => by
    rw [addYears, Nat.cast_zero, Int.add_zero, Int.sub_self, Int.add_zero]
  | n + 1, idx, absolute, hlo, hhi => by
    have hstep := daysBeforeYear_succ idx
    have hpos := yearLength_pos idx
    have hmono : daysBeforeYear (idx + 1) ≤ daysBeforeYear (idx + 1 + n) := by
      rw [daysBeforeYear, daysBeforeYear]
      omega
    rw [show idx + ((n + 1 : ℕ) : ℤ) = idx + 1 + n by omega] at hhi ⊢
    rw [addYears, daysAfterMonth_zero, bind_eq_bind, bind_some,
      toDouble_eq (by omega) (by omega), addYears_eq (by omega) (by omega)]
    congr 1
    omega

/-- **A date is accepted** whatever its year and day are. -/
theorem exists_absoluteFromYMD (year day : ℤ) (h : 1 ≤ month) (h' : month ≤ 12) :
    ∃ absolute, absoluteFromYMD year month day = some absolute := by
  rw [absoluteFromYMD]
  simp only [bind_eq_bind, daysBeforeMonth_eq h (by omega), bind_some]
  split
  · obtain ⟨result, hresult⟩ := exists_subYears (year - year.tdiv 400 * 400).natAbs
      (toDouble (0 + toDouble (toDouble (year.tdiv 400) * 146097)))
    exact ⟨_, by rw [hresult, bind_some]⟩
  · obtain ⟨result, hresult⟩ := exists_addYears (year - year.tdiv 400 * 400).natAbs 0
      (toDouble (0 + toDouble (toDouble (year.tdiv 400) * 146097)))
    exact ⟨_, by rw [hresult, bind_some]⟩

theorem leapYear_sub_mul (year b : ℤ) : leapYear (year - b * 400) = leapYear year := by
  rw [leapYear, leapYear, decide_eq_decide]
  omega

/-- The rest of a division in C has the sign of the dividend. -/
theorem tdiv_rest : 0 ≤ year ∧ 0 ≤ year.tdiv 400 ∧ 0 ≤ year - year.tdiv 400 * 400 ∨
    year.tdiv 400 ≤ 0 ∧ year - year.tdiv 400 * 400 ≤ 0 := by
  rcases Int.le_total 0 year with h | h
  · rw [Int.tdiv_eq_ediv_of_nonneg h]
    omega
  · obtain ⟨k, rfl⟩ : ∃ k, year = -k := ⟨-year, by omega⟩
    rw [Int.neg_tdiv, Int.tdiv_eq_ediv_of_nonneg (by omega)]
    omega

/-- **A date gives its day number**, when the first day of its year and the day are doubles. -/
theorem absoluteFromYMD_eq (h : date.Valid)
    (hyear : -2 ^ 53 ≤ daysBeforeYear date.year) (hday : date.dayNumber ≤ 2 ^ 53) :
    absoluteFromYMD date.year date.month date.day = some date.dayNumber := by
  obtain ⟨hlo, hhi, hmlo, -⟩ := h.dayOfYear
  have hmonth := daysBeforeMonth_eq h.1 (by have := h.2.1; omega)
  have hsplit := daysBeforeYear_add_mul (date.year - date.year.tdiv 400 * 400) (date.year.tdiv 400)
  rw [add_sub_cancel] at hsplit
  have hsign := tdiv_rest date.year
  have hnumber : date.dayNumber = daysBeforeYear date.year +
    (daysUpTo (leapYear date.year) date.month + date.day - 1) := by rw [Date.dayNumber]; omega
  have hrest : (date.year - date.year.tdiv 400 * 400 ≤ 0 →
        daysBeforeYear (date.year - date.year.tdiv 400 * 400) ≤ 0) ∧
      (0 ≤ date.year - date.year.tdiv 400 * 400 →
        0 ≤ daysBeforeYear (date.year - date.year.tdiv 400 * 400)) := by
    rw [daysBeforeYear]
    omega
  rw [absoluteFromYMD]
  simp only [bind_eq_bind, isleap_eq, leapYear_sub_mul, hmonth, bind_some]
  generalize date.year.tdiv 400 = b at *
  generalize hr : date.year - b * 400 = rest at *
  rw [toDouble_eq (z := b) (by omega) (by omega),
    toDouble_eq (z := b * 146097) (by omega) (by omega), toDouble_eq (by omega) (by omega)]
  split
  · next hneg =>
    have habs : -(rest.natAbs : ℤ) = rest := by omega
    rw [subYears_eq (by omega) (by rw [habs]; omega), habs, bind_some,
      toDouble_eq (by omega) (by omega)]
    congr 1
    omega
  · next hpos =>
    have habs : 0 + (rest.natAbs : ℤ) = rest := by omega
    have hzero : daysBeforeYear 0 = 0 := rfl
    rw [addYears_eq (by omega) (by rw [habs]; omega), habs, bind_some,
      toDouble_eq (by omega) (by omega)]
    congr 1
    omega

/-! ## The two together -/

/-- What is asked of the two functions at the day `d`: it has the date that the calendar gives it,
the next day has the next date, the date leads back to the day and from there to itself; and day 0
is the first of January 2001, and every date with a month is accepted. -/
structure Agrees (d : ℤ) : Prop where
  epoch : ymdFromAbsolute 0 = some ⟨0, 1, 1⟩
  date : ∃ date, ymdFromAbsolute d = some date ∧ date.Valid ∧ date.dayNumber = d ∧
    ymdFromAbsolute (d + 1) = some date.next
  absolute : ∀ date, date.Valid → date.dayNumber = d →
    absoluteFromYMD date.year date.month date.day = some d ∧ ymdFromAbsolute d = some date
  accepts : ∀ year month day, 1 ≤ month → month ≤ 12 →
    ∃ absolute, absoluteFromYMD year month day = some absolute

theorem ymdFromAbsolute_eq_some (h : date.Valid) : ymdFromAbsolute date.dayNumber = some date := by
  obtain ⟨date', hok, hvalid, hnumber⟩ := ymdFromAbsolute_eq date.dayNumber
  rw [hok, dayNumber_injective hvalid h hnumber]

/-- The day number that the date of a day leads back to. -/
def roundTrip (d : ℤ) : Option ℤ := do
  let date ← ymdFromAbsolute d
  absoluteFromYMD date.year date.month date.day

/-- The first seven days of more than `-2 ^ 53` end a year whose first day is not a double, and they
come back as the day after. -/
theorem roundTrip_first_days : ∀ k : Fin 7,
    roundTrip (-2 ^ 53 + 1 + (k.val : ℤ)) = some (-2 ^ 53 + 2 + (k.val : ℤ)) := by
  decide +kernel

/-- **The calendar.** At every day number of up to 53 bits the two functions are inverse and agree
with the Gregorian calendar, but for the first seven: the first day of their year is no double. -/
theorem calendar_iff (d : ℤ) (hd : |d| < 2 ^ 53) : Agrees d ↔ -2 ^ 53 + 7 < d := by
  have hd' := abs_lt.mp hd
  constructor
  · intro h
    by_contra hle
    obtain ⟨date, hok, hvalid, hnumber, -⟩ := h.date
    obtain ⟨k, hk⟩ : ∃ k : Fin 7, d = -2 ^ 53 + 1 + (k.val : ℤ) :=
      ⟨⟨(d + 2 ^ 53 - 1).toNat, by omega⟩, by simp only; omega⟩
    have hlost := roundTrip_first_days k
    rw [← hk, roundTrip, hok, bind_eq_bind, bind_some,
      (h.absolute date hvalid hnumber).1, some.injEq] at hlost
    omega
  · intro hlt
    refine ⟨by decide +kernel, ?_, ?_,
      fun year month day h h' => exists_absoluteFromYMD year day h h'⟩
    · obtain ⟨date, hok, hvalid, hnumber⟩ := ymdFromAbsolute_eq d
      obtain ⟨hnext, hnext'⟩ := dayNumber_next hvalid
      refine ⟨date, hok, hvalid, hnumber, ?_⟩
      rw [← hnumber, ← hnext', ymdFromAbsolute_eq_some hnext]
    · intro date hvalid hnumber
      obtain ⟨hlo, hhi, -, -⟩ := hvalid.dayOfYear
      have hyear : -2 ^ 53 ≤ daysBeforeYear date.year := by
        -- the first year that begins after `-2 ^ 53`
        have hfirst : daysBeforeYear (-24660873952897) = -2 ^ 53 + 8 := by decide
        rcases lt_or_ge date.year (-24660873952897) with h | h
        · have hmono := daysBeforeYear_mono h
          omega
        · rw [daysBeforeYear]
          omega
      rw [← hnumber]
      exact ⟨absoluteFromYMD_eq hvalid hyear (by omega), ymdFromAbsolute_eq_some hvalid⟩

/-- The twenty-ninth of February 2000, 307 days before the first of January 2001. -/
theorem calendar_leap_day : Agrees (-307) :=
  (calendar_iff (-307) (by decide)).mpr (by decide)

/-- Day `-9007199254740991` is the 25th of December of the year `-24660873950897`, and that date
is day `-9007199254740990`. -/
theorem calendar_lost_day :
    |(-9007199254740991 : ℤ)| < 2 ^ 53 ∧
      ymdFromAbsolute (-9007199254740991) = some ⟨-24660873952898, 12, 25⟩ ∧
      absoluteFromYMD (-24660873952898) 12 25 = some (-9007199254740990) := by
  decide +kernel

/-! ## The week of the year -/

/-- `__CFDoubleModToInt` (204–208). The rest is small, so `float` and `int32_t` keep it. -/
def doubleModToInt (d modulus : ℤ) : ℤ :=
  let result := toDouble (d - toDouble (⌊closestDouble (d / modulus)⌋ * modulus))
  if result < 0 then result + modulus else result

/-- `CFAbsoluteTimeGetWeekOfYear` (496–527), at a whole second and without a time zone. -/
def getWeekOfYear (time : ℤ) : Option ℤ := do
  let date ← ymdFromAbsolute ⌊closestDouble (time / (86400 : ℤ))⌋
  let absolute0101 ← absoluteFromYMD date.year 1 1
  let dow0101 := doubleModToInt absolute0101 7 + 1
  if 1 = date.month ∧ date.day < 4 then
    if date.day < 4 ∧ 5 = dow0101 ∨ date.day < 3 ∧ 6 = dow0101 ∨ date.day < 2 ∧ 7 = dow0101 then
      return 53
  if 12 = date.month ∧ 28 < date.day then
    let absolute20101 ← absoluteFromYMD (date.year + 1) 1 1
    let dow20101 := doubleModToInt absolute20101 7 + 1
    if 28 < date.day ∧ 4 = dow20101 ∨ 29 < date.day ∧ 3 = dow20101 ∨
        30 < date.day ∧ 2 = dow20101 then
      return 1
  let days ← daysBeforeMonth date.month (isleap date.year)
  return (days + date.day + (dow0101 - 11).tmod 7 + 2).tdiv 7 + 1

/-- The Monday of the week with the first Thursday of a year. Day 0 is a Monday. -/
def weekOne (year : ℤ) : ℤ := daysBeforeYear year + (3 - daysBeforeYear year) % 7 - 3

/-- Day `d` is in a week of a year as ISO 8601 counts them. -/
structure IsoWeek (d year week : ℤ) : Prop where
  first : 1 ≤ week
  last : week ≤ (weekOne (year + 1) - weekOne year) / 7
  monday : weekOne year + 7 * (week - 1) ≤ d
  sunday : d < weekOne year + 7 * week

/-- What is asked of the week at a time. -/
def WeekCorrect (time : ℤ) : Prop :=
  ∃ week year, getWeekOfYear time = some week ∧ IsoWeek (time / 86400) year week ∧ week ≤ 53

/-- The first of January if it is a Sunday, and the first two days of a year that begins on a
Saturday after a common year: they belong to week 52 of the year before. -/
def Misplaced (d year : ℤ) : Prop :=
  d = daysBeforeYear year ∧ d % 7 = 6 ∨
    (d = daysBeforeYear year ∧ d % 7 = 5 ∨ d = daysBeforeYear year + 1 ∧ d % 7 = 6) ∧
      yearLength (year - 1) = 365

theorem IsoWeek.unique {d year week year' week' : ℤ} (h : IsoWeek d year week)
    (h' : IsoWeek d year' week') : week = week' := by
  obtain ⟨hfirst, hlast, hmonday, hsunday⟩ := h
  obtain ⟨hfirst', hlast', hmonday', hsunday'⟩ := h'
  have hmono {y y' : ℤ} (hlt : y < y') : weekOne (y + 1) ≤ weekOne y' := by
    have hlt' := daysBeforeYear_mono hlt
    rw [← daysBeforeYear_succ] at hlt'
    rw [weekOne, weekOne]
    omega
  rcases lt_trichotomy year year' with hlt | rfl | hlt
  · have := hmono hlt
    omega
  · omega
  · have := hmono hlt
    omega

theorem doubleModToInt_seven {d : ℤ} (hd : |d| < 2 ^ 52) : doubleModToInt d 7 = d % 7 := by
  have hd' := abs_lt.mp hd
  rw [doubleModToInt, floor_closestDouble (by omega) (by omega),
    toDouble_eq (z := d / 7 * 7) (by omega) (by omega), toDouble_eq (by omega) (by omega)]
  split <;> omega

theorem first_of_year (h : |daysBeforeYear year| < 2 ^ 52) :
    absoluteFromYMD year 1 1 = some (daysBeforeYear year) := by
  have hd := abs_lt.mp h
  have hnumber : (⟨year, 1, 1⟩ : Date).dayNumber = daysBeforeYear year := by
    show daysBeforeYear year + 0 + 1 - 1 = _
    omega
  have hvalid : (⟨year, 1, 1⟩ : Date).Valid :=
    ⟨le_rfl, by simp only; omega, le_rfl, (monthLength_pos _ 1).trans' (by simp only; omega)⟩
  rw [← hnumber]
  exact absoluteFromYMD_eq hvalid (by simp only; omega) (by omega)

/-- The days that the source gives to the year before are those before week 1. -/
theorem january_iff (h : date.Valid) : (1 = date.month ∧ date.day < 4) ∧
      (date.day < 4 ∧ 5 = daysBeforeYear date.year % 7 + 1 ∨
        date.day < 3 ∧ 6 = daysBeforeYear date.year % 7 + 1 ∨
        date.day < 2 ∧ 7 = daysBeforeYear date.year % 7 + 1) ↔
    date.dayNumber < weekOne date.year := by
  obtain ⟨hmonth, -, hday, -⟩ := h
  have hzero : daysUpTo (leapYear date.year) 1 = 0 := rfl
  rw [Date.dayNumber, weekOne]
  rcases eq_or_ne date.month 1 with hone | hone
  · rw [hone]
    omega
  · have hjan : daysUpTo (leapYear date.year) 1 + 31 ≤ _ :=
      daysUpTo_mono le_rfl (show 1 < date.month by omega)
    omega

/-- The days that the source gives to the year after are those of its week 1. -/
theorem december_iff (h : date.Valid) : (12 = date.month ∧ 28 < date.day) ∧
      (28 < date.day ∧ 4 = daysBeforeYear (date.year + 1) % 7 + 1 ∨
        29 < date.day ∧ 3 = daysBeforeYear (date.year + 1) % 7 + 1 ∨
        30 < date.day ∧ 2 = daysBeforeYear (date.year + 1) % 7 + 1) ↔
    weekOne (date.year + 1) ≤ date.dayNumber := by
  have hnext := daysBeforeYear_succ date.year
  obtain ⟨hmonth, hmonth', -, hday⟩ := h
  have hlast : daysUpTo (leapYear date.year) 13 = _ + 31 :=
    daysUpTo_succ (show (1 : ℤ) ≤ 12 by omega)
  rw [daysUpTo_thirteen] at hlast
  rw [Date.dayNumber, weekOne]
  rcases eq_or_ne date.month 12 with htwelve | htwelve
  · have hday' := hday.trans (monthLength_le _ _)
    rw [htwelve]
    omega
  · have hdec : _ ≤ daysUpTo (leapYear date.year) 12 := daysUpTo_mono hmonth (by omega)
    omega

/-- **What the source computes.** -/
theorem getWeekOfYear_eq {time : ℤ} (h : |time| < 2 ^ 53) (hvalid : date.Valid)
    (hnumber : date.dayNumber = time / 86400) : getWeekOfYear time =
      some (if date.dayNumber < weekOne date.year then 53
        else if weekOne (date.year + 1) ≤ date.dayNumber then 1
        else (date.dayNumber - weekOne date.year) / 7 + 1) := by
  have hfloor := floor_closestDouble h (show (0 : ℤ) < 86400 by omega)
  have htime := abs_lt.mp h
  obtain ⟨hlo, hhi, -, -⟩ := hvalid.dayOfYear
  have hlen := yearLength_pos date.year
  have hnext := daysBeforeYear_succ date.year
  have hfirst : |daysBeforeYear date.year| < 2 ^ 52 := abs_lt.mpr (by omega)
  have hfirst' : |daysBeforeYear (date.year + 1)| < 2 ^ 52 := abs_lt.mpr (by omega)
  rw [getWeekOfYear, hfloor, ← hnumber, ymdFromAbsolute_eq_some hvalid]
  simp only [bind_eq_bind, bind_some, first_of_year _ hfirst, first_of_year _ hfirst',
    doubleModToInt_seven hfirst, doubleModToInt_seven hfirst', isleap_eq, ← ite_and,
    daysBeforeMonth_eq hvalid.1 (show date.month ≤ 13 by have := hvalid.2.1; omega),
    january_iff hvalid, december_iff hvalid]
  split_ifs with hjan hdec
  · rfl
  · rfl
  · have hshift : (daysBeforeYear date.year % 7 + 1 - 11).tmod 7 =
        -((3 - daysBeforeYear date.year) % 7) := by
      rw [show daysBeforeYear date.year % 7 + 1 - 11 =
          -(10 - daysBeforeYear date.year % 7) by omega,
        Int.neg_tmod, Int.tmod_eq_emod_of_nonneg (by omega)]
      omega
    have hsum : daysUpTo (leapYear date.year) date.month + date.day +
        -((3 - daysBeforeYear date.year) % 7) + 2 = date.dayNumber - weekOne date.year := by
      rw [Date.dayNumber, weekOne]
      omega
    rw [hshift, hsum, Int.tdiv_eq_ediv_of_nonneg (by omega)]
    rfl

theorem isoWeek_of_mem {d year : ℤ} (h : weekOne year ≤ d) (h' : d < weekOne (year + 1)) :
    IsoWeek d year ((d - weekOne year) / 7 + 1) := by
  have hmonday (year : ℤ) : weekOne year % 7 = 0 := by
    rw [weekOne]
    omega
  have hfirst := hmonday year
  have hnext := hmonday (year + 1)
  constructor <;> omega

theorem Misplaced.isoWeek {d year : ℤ} (h : Misplaced d year) :
    IsoWeek d (year - 1) 52 ∧ d < weekOne year := by
  have hprev := daysBeforeYear_succ (year - 1)
  have hlen := yearLength_pos (year - 1)
  rw [Int.sub_add_cancel] at hprev
  rw [Misplaced] at h
  refine ⟨⟨by omega, ?_, ?_, ?_⟩, ?_⟩ <;> simp only [Int.sub_add_cancel, weekOne] <;> omega

/-- The days before week 1 are misplaced, or in week 53 of the year before. -/
theorem isoWeek_before {d year : ℤ} (h : daysBeforeYear year ≤ d) (h' : d < weekOne year)
    (hm : ¬Misplaced d year) : IsoWeek d (year - 1) 53 := by
  have hprev := daysBeforeYear_succ (year - 1)
  have hlen := yearLength_pos (year - 1)
  rw [Int.sub_add_cancel] at hprev
  rw [Misplaced] at hm
  rw [weekOne] at h'
  refine ⟨by omega, ?_, ?_, ?_⟩ <;> simp only [Int.sub_add_cancel, weekOne] <;> omega

/-- **The week of the year.** -/
theorem week_iff (time : ℤ) (h : |time| < 2 ^ 53) :
    WeekCorrect time ↔ ∀ year, ¬Misplaced (time / 86400) year := by
  obtain ⟨date, -, hvalid, hnumber⟩ := ymdFromAbsolute_eq (time / 86400)
  obtain ⟨hlo, hhi, -, -⟩ := hvalid.dayOfYear
  rw [WeekCorrect, getWeekOfYear_eq h hvalid hnumber, ← hnumber]
  constructor
  · rintro ⟨week, year, hweek, hiso, -⟩ year' hm
    obtain ⟨hiso', hbefore⟩ := hm.isoWeek
    have hlen := yearLength_pos year'
    rw [Misplaced] at hm
    rw [@year_unique _ _ year' hlo hhi (by omega) (by omega), some.injEq] at hweek
    have := hiso.unique hiso'
    omega
  · intro hm
    have hnext := daysBeforeYear_succ date.year
    have hlen := yearLength_pos date.year
    split_ifs with hjan hdec
    · exact ⟨53, _, rfl, isoWeek_before hlo hjan (hm _), le_rfl⟩
    · refine ⟨1, date.year + 1, rfl, ⟨le_rfl, ?_, by omega, ?_⟩, by omega⟩
      · have := daysBeforeYear_succ (date.year + 1)
        have := yearLength_pos (date.year + 1)
        rw [weekOne]
        omega
      · rw [weekOne]
        omega
    · refine ⟨_, date.year, rfl, isoWeek_of_mem (by omega) (by omega), ?_⟩
      rw [weekOne] at *
      omega

/-- The first of January 2001. -/
theorem week_first_day : WeekCorrect 0 :=
  (week_iff 0 (by decide)).mpr fun year hm => by
    rw [Misplaced] at hm
    omega

/-- The first of January 2006 is a Sunday, and in week 52 of 2005. -/
theorem week_misplaced : |(157766400 : ℤ)| < 2 ^ 53 ∧ getWeekOfYear 157766400 = some 53 ∧
    IsoWeek (157766400 / 86400) 4 52 := by
  have hvalid : (⟨5, 1, 1⟩ : Date).Valid := ⟨by decide, by decide, by decide, by decide⟩
  refine ⟨by decide, ?_, by decide, by decide, by decide, by decide⟩
  rw [getWeekOfYear_eq (by decide) hvalid (by decide)]
  decide

end Apple.CF.Gregorian
