import Apple.Objc.Isa
import Mathlib.Data.Nat.Bitwise

/-!
# The side-table retain count

`objc4-750/runtime/NSObject.mm` (constants at lines 76–82, functions at lines
1366–1631). The side table maps an object to a word: bit 0 is "weakly referenced", bit
1 is "deallocating", the retain count starts at bit 2, and the top bit is
`SIDE_TABLE_RC_PINNED`, set when the count has grown into it. The entry may be absent.

Each function is followed by one theorem that says what it does to the value of the
word, with an absent entry read as zero.
-/

namespace Apple.Objc

open Nat

/-- The entry of one object in `table.refcnts`: absent, or a `size_t`. -/
abbrev Side (A : Arch) := Option (BitVec A.wordBits)

section SideTable

variable {A : Arch}

/-! ## Model -/

def sideTableWeaklyReferenced : BitVec A.wordBits := BitVec.ofNat _ (1 <<< 0)

def sideTableDeallocating : BitVec A.wordBits := BitVec.ofNat _ (1 <<< 1)

def sideTableRcOne : BitVec A.wordBits := BitVec.ofNat _ (1 <<< 2)

def sideTableRcPinned : BitVec A.wordBits := BitVec.ofNat _ (1 <<< (A.wordBits - 1))

/-- `SIDE_TABLE_RC_SHIFT`. -/
def sideTableRcShift : ℕ := 2

/-- `SIDE_TABLE_FLAG_MASK`. -/
def sideTableFlagMask : BitVec A.wordBits := sideTableRcOne - 1

/-- `addc(a, b, 0, &carry)`. -/
def addc (a b : BitVec A.wordBits) : BitVec A.wordBits × Bool :=
  (a + b, decide (2 ^ A.wordBits ≤ a.toNat + b.toNat))

/-- A count in the position it has in the word. -/
def shiftRc (n : ℕ) : BitVec A.wordBits := BitVec.ofNat _ (n <<< sideTableRcShift)

/-- `sidetable_moveExtraRC_nolock` (lines 1366–1388). -/
def sidetableMoveExtraRC (extraRc : ℕ) (isDeallocating weaklyReferenced : Bool) (side : Side A) :
    Side A :=
  let oldRefcnt := side.getD 0
  let (refcnt, carry) := addc oldRefcnt (shiftRc extraRc)
  let refcnt := if carry then sideTableRcPinned else refcnt
  let refcnt := if isDeallocating then refcnt ||| sideTableDeallocating else refcnt
  let refcnt := if weaklyReferenced then refcnt ||| sideTableWeaklyReferenced else refcnt
  some refcnt

/-- `sidetable_addExtraRC_nolock` (lines 1396–1429). The result, which no caller reads, says
whether the object is now pinned. -/
def sidetableAddExtraRC (deltaRc : ℕ) (side : Side A) : Side A × Bool :=
  let oldRefcnt := side.getD 0
  if oldRefcnt &&& sideTableRcPinned ≠ 0 then (some oldRefcnt, true)
  else
    let (newRefcnt, carry) := addc oldRefcnt (shiftRc deltaRc)
    if carry then (some (sideTableRcPinned ||| (oldRefcnt &&& sideTableFlagMask)), true)
    else (some newRefcnt, false)

/-- `sidetable_subExtraRC_nolock` (lines 1437–1460): the new entry and the count borrowed. -/
def sidetableSubExtraRC (deltaRc : ℕ) (side : Side A) : Side A × ℕ :=
  match side with
  | none => (none, 0)
  | some oldRefcnt =>
    if oldRefcnt = 0 then (some oldRefcnt, 0)
    else (some (oldRefcnt - shiftRc deltaRc), deltaRc)

/-- `sidetable_retain` (lines 1481–1496), between its lock and unlock. -/
def sidetableRetain (side : Side A) : Side A :=
  let refcnt := side.getD 0
  if refcnt &&& sideTableRcPinned = 0 then some (refcnt + sideTableRcOne) else some refcnt

/-- `sidetable_tryRetain` (lines 1499–1528). -/
def sidetableTryRetain (side : Side A) : Side A × Bool :=
  match side with
  | none => (some sideTableRcOne, true)
  | some refcnt =>
    if refcnt &&& sideTableDeallocating ≠ 0 then (some refcnt, false)
    else if refcnt &&& sideTableRcPinned = 0 then (some (refcnt + sideTableRcOne), true)
    else (some refcnt, true)

/-- `sidetable_release` (lines 1604–1631), between its lock and unlock; the result is
`do_dealloc`. -/
def sidetableRelease (side : Side A) : Side A × Bool :=
  match side with
  | none => (some sideTableDeallocating, true)
  | some refcnt =>
    if refcnt < sideTableDeallocating then (some (refcnt ||| sideTableDeallocating), true)
    else if refcnt &&& sideTableRcPinned = 0 then (some (refcnt - sideTableRcOne), false)
    else (some refcnt, false)

/-! ## The word as a number -/

/-- The value of the entry; an absent entry is zero. -/
def Side.value (side : Side A) : ℕ := (side.getD 0).toNat

/-- `SIDE_TABLE_DEALLOCATING` is set in a word of value `v`. -/
def valueDeallocating (v : ℕ) : Bool := v / 2 % 2 == 1

/-- `SIDE_TABLE_RC_PINNED` is set in a word of value `v`. -/
def valuePinned (A : Arch) (v : ℕ) : Prop := 2 ^ (A.wordBits - 1) ≤ v

instance (v : ℕ) : Decidable (valuePinned A v) := inferInstanceAs (Decidable (_ ≤ _))

/-- The count in a word of value `v`, the pinned bit included. -/
def valueCount (v : ℕ) : ℕ := v / 4

@[simp] theorem value_none : Side.value (none : Side A) = 0 := by simp [Side.value]

@[simp] theorem value_some (w : BitVec A.wordBits) : Side.value (some w) = w.toNat := rfl

theorem two_pow_wordBits (A : Arch) : 2 ^ A.wordBits = 2 * 2 ^ (A.wordBits - 1) := by
  cases A <;> decide

theorem wordBits_ge (A : Arch) : 2 ^ 32 ≤ 2 ^ A.wordBits := by
  cases A <;> decide

variable {n : ℕ}

theorem toNat_ofNat_small (h : n < 2 ^ 32) : (BitVec.ofNat A.wordBits n).toNat = n := by
  exact mod_eq_of_lt (lt_of_lt_of_le h (wordBits_ge A))

@[simp] theorem toNat_weaklyReferenced :
    (sideTableWeaklyReferenced : BitVec A.wordBits).toNat = 1 :=
  toNat_ofNat_small (by decide)

@[simp] theorem toNat_deallocating : (sideTableDeallocating : BitVec A.wordBits).toNat = 2 :=
  toNat_ofNat_small (by decide)

@[simp] theorem toNat_rcOne : (sideTableRcOne : BitVec A.wordBits).toNat = 4 :=
  toNat_ofNat_small (by decide)

@[simp] theorem toNat_pinned :
    (sideTableRcPinned : BitVec A.wordBits).toNat = 2 ^ (A.wordBits - 1) := by
  cases A <;> decide

theorem toNat_shiftRc (h : n < 2 ^ A.rcBits) : (shiftRc n : BitVec A.wordBits).toNat = 4 * n := by
  have hbits : 2 ^ A.rcBits * 4 ≤ 2 ^ 32 := by cases A <;> decide
  rw [shiftRc, sideTableRcShift, shiftLeft_eq, toNat_ofNat_small (by omega)]
  ring

theorem and_pinned_eq_zero (w : BitVec A.wordBits) :
    w &&& sideTableRcPinned = 0 ↔ ¬ valuePinned A w.toNat := by
  have hlt : w.toNat < 2 * 2 ^ (A.wordBits - 1) := two_pow_wordBits A ▸ w.isLt
  have hpos := Nat.two_pow_pos (A.wordBits - 1)
  rw [← BitVec.toNat_inj, BitVec.toNat_and, toNat_pinned, and_two_pow,
    testBit_eq_decide_div_mod_eq, valuePinned, not_le]
  have hdiv : w.toNat / 2 ^ (A.wordBits - 1) < 2 := Nat.div_lt_of_lt_mul (by rwa [mul_comm] at hlt)
  rw [← div_eq_zero_iff_lt hpos]
  generalize w.toNat / 2 ^ (A.wordBits - 1) = q at hdiv ⊢
  interval_cases q <;> simp

theorem and_deallocating_eq_zero (w : BitVec A.wordBits) :
    w &&& sideTableDeallocating = 0 ↔ valueDeallocating w.toNat = false := by
  rw [← BitVec.toNat_inj, BitVec.toNat_and, toNat_deallocating, show 2 = 2 ^ 1 from rfl,
    and_two_pow, testBit_eq_decide_div_mod_eq, valueDeallocating]
  rcases mod_two_eq_zero_or_one (w.toNat / 2 ^ 1) with h | h <;> simp_all

/-- Setting a flag bit below the count. -/
theorem or_flag (v flag : ℕ) (hflag : flag < 4) : v ||| flag = v / 4 * 4 + (v % 4 ||| flag) := by
  have hdiv : (v ||| flag) / 2 ^ 2 = v / 4 := by
    rw [or_div_two_pow, show flag / 2 ^ 2 = 0 from div_eq_of_lt hflag, or_zero]
  have hmod : (v ||| flag) % 2 ^ 2 = v % 4 ||| flag := by
    rw [or_mod_two_pow, show flag % 2 ^ 2 = flag from mod_eq_of_lt hflag]
  omega

theorem or_two (v : ℕ) : v ||| 2 = if valueDeallocating v then v else v + 2 := by
  have hsmall : ∀ r : Fin 4, r.val ||| 2 = if r.val / 2 % 2 = 1 then r.val else r.val + 2 := by
    decide
  have h := hsmall ⟨v % 4, mod_lt _ (by decide)⟩
  rw [or_flag v 2 (by decide), h, valueDeallocating]
  simp only [beq_iff_eq]
  split_ifs <;> omega

theorem or_one (v : ℕ) : v ||| 1 = if v % 2 = 1 then v else v + 1 := by
  have hsmall : ∀ r : Fin 4, r.val ||| 1 = if r.val % 2 = 1 then r.val else r.val + 1 := by
    decide
  have h := hsmall ⟨v % 4, mod_lt _ (by decide)⟩
  simp only at h
  rw [or_flag v 1 (by decide), h]
  split_ifs <;> omega

/-! ## What the functions do -/

theorem value_sidetableRetain (side : Side A) : (sidetableRetain side).value =
      if valuePinned A side.value then side.value else (side.value + 4) % 2 ^ A.wordBits := by
  simp only [sidetableRetain, and_pinned_eq_zero, ite_not]
  show Side.value (if valuePinned A side.value then _ else _) = _
  split_ifs
  · rfl
  · rw [value_some, BitVec.toNat_add, toNat_rcOne]
    rfl

theorem sidetableTryRetain_spec (side : Side A) :
    (sidetableTryRetain side).2 = !valueDeallocating side.value ∧
      (sidetableTryRetain side).1.value =
        if valueDeallocating side.value then side.value
        else if valuePinned A side.value then side.value
        else (side.value + 4) % 2 ^ A.wordBits := by
  have hge := wordBits_ge A
  cases side with
  | none =>
    have h0 : ¬ valuePinned A 0 := by simp [valuePinned]
    simp only [sidetableTryRetain, value_none, value_some, toNat_rcOne, if_neg h0]
    refine ⟨by decide, ?_⟩
    rw [if_neg (by decide), mod_eq_of_lt (by omega)]
  | some w =>
    simp only [sidetableTryRetain, and_pinned_eq_zero, and_deallocating_eq_zero, ite_not,
      value_some]
    split_ifs <;> simp_all

theorem sidetableRelease_spec (side : Side A) :
    (sidetableRelease side).2 = decide (side.value < 2) ∧
      (sidetableRelease side).1.value =
        if side.value < 2 then side.value + 2
        else if valuePinned A side.value then side.value
        else (side.value + (2 ^ A.wordBits - 4)) % 2 ^ A.wordBits := by
  cases side with
  | none => simp [sidetableRelease]
  | some w =>
    simp only [sidetableRelease, BitVec.lt_def, toNat_deallocating, and_pinned_eq_zero, value_some]
    split_ifs with h2 hpin
    · have hd : valueDeallocating w.toNat = false := by
        rw [valueDeallocating, div_eq_of_lt h2]
        rfl
      simp [or_two, hd, h2]
    · simp [h2, hpin]
    · simp [h2, hpin, add_comm]

/-- An addition that fits the word. -/
theorem addc_of_lt {a b : BitVec A.wordBits} (h : a.toNat + b.toNat < 2 ^ A.wordBits) :
    addc a b = (a + b, false) ∧ (a + b).toNat = a.toNat + b.toNat := by
  refine ⟨?_, by rw [BitVec.toNat_add, mod_eq_of_lt h]⟩
  rw [addc, decide_eq_false (not_le.mpr h)]

theorem sidetableAddExtraRC_spec (hn : n < 2 ^ A.rcBits) (side : Side A) :
    (sidetableAddExtraRC n side).1.value =
      if valuePinned A side.value then side.value else side.value + 4 * n := by
  have hpin := and_pinned_eq_zero (side.getD 0)
  have hbits : 4 * 2 ^ A.rcBits ≤ 2 ^ (A.wordBits - 1) := by cases A <;> decide
  have htwo := two_pow_wordBits A
  rw [sidetableAddExtraRC]
  by_cases h : valuePinned A side.value
  · rw [if_pos (by rw [Ne, hpin]; exact not_not_intro h), if_pos h]
    rfl
  · -- an unpinned word has room for one more bit, so that there is no carry
    have hlt : side.value < 2 ^ (A.wordBits - 1) := not_le.mp h
    have hsum : side.value + 4 * n < 2 ^ A.wordBits := by omega
    obtain ⟨hadd, hval⟩ := addc_of_lt (a := side.getD 0)
      (by rw [toNat_shiftRc hn]; exact hsum)
    rw [if_neg (by rw [not_not]; exact hpin.mpr h), if_neg h, hadd]
    simp only [Bool.false_eq_true, if_false, value_some, hval, toNat_shiftRc hn]
    rfl

theorem sidetableSubExtraRC_spec (hn : n < 2 ^ A.rcBits) (side : Side A) :
    (sidetableSubExtraRC n side).2 = (if side.value = 0 then 0 else n) ∧
      (sidetableSubExtraRC n side).1.value = if side.value = 0 then 0
        else (side.value + (2 ^ A.wordBits - 4 * n)) % 2 ^ A.wordBits := by
  cases side with
  | none => simp [sidetableSubExtraRC]
  | some w =>
    have hzero : w = 0 ↔ w.toNat = 0 := by rw [← BitVec.toNat_inj]; rfl
    simp only [sidetableSubExtraRC, value_some, hzero]
    split_ifs with h
    · simp [h]
    · simp [h, toNat_shiftRc hn, add_comm]

/-- Moving the whole count of a packed `isa` to an entry without flags. -/
theorem sidetableMoveExtraRC_spec (hn : n < 2 ^ A.rcBits) (d w : Bool) {side : Side A}
    (hclean : side.value % 4 = 0) (hroom : side.value + 4 * n < 2 ^ A.wordBits) :
    (sidetableMoveExtraRC n d w side).value = side.value + 4 * n + 2 * d.toNat + w.toNat := by
  obtain ⟨hadd, hval⟩ := addc_of_lt (a := side.getD 0)
    (by rw [toNat_shiftRc hn]; exact hroom)
  have hsum : (side.getD 0 + shiftRc n).toNat = side.value + 4 * n := by
    rw [hval, toNat_shiftRc hn]
    rfl
  have hd : valueDeallocating (side.value + 4 * n) = false := by
    simp only [valueDeallocating, beq_eq_false_iff_ne]
    omega
  rw [sidetableMoveExtraRC, hadd]
  generalize side.getD 0 + shiftRc n = refcnt at hsum
  cases d <;> cases w <;> simp [hsum, or_two, or_one, hd] <;> omega

end SideTable

end Apple.Objc
