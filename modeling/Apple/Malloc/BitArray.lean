import Mathlib.Tactic
import Apple.Lib.Ascending

/-!
# The summarised bit array of `libmalloc`

Model of `libmalloc-67/src/bitarray.c`. A bit array of `2 ^ log_size` bits is a list of 64 bit
words: the summary levels one after the other, the bits themselves last. A node is 512 bits, eight
words; a summary bit stands for one node of the level after it.

A load or a store outside of the words and a call of `abort` are traps. The loop of
`FFS_and_zap_word` over one word and the loop of `bitarray_zap_first_set_multiple` run on fuel.
`index_t` is a natural number: for `log_size ≤ 31` only the subtractions of 1 can leave the 32 bit
range, and they are written with the wrap.

Results: one lemma for each helper, which says what it does to the bits (`setGoDown_spec`,
`zapGoDown_spec`, `ffs_least`, `ffsAndZapWord_spec`).
-/

namespace Apple.Malloc.BitArray

open Apple.Lib List Option Nat

/-! ## The source -/

/-- How a call can end other than by returning. -/
inductive Trap
  | abort
  | outOfBounds
  | outOfFuel
  deriving DecidableEq, Repr

abbrev Word := BitVec 64

/-- The memory of a `bitarray_t`. -/
abbrev Bits := List Word

/-- `*word`. -/
def load (bits : Bits) (word : ℕ) : Except Trap Word :=
  match bits[word]? with
  | some old => .ok old
  | none => .error .outOfBounds

/-- `*word = new`. -/
def store (bits : Bits) (word : ℕ) (new : Word) : Except Trap Bits :=
  if word < bits.length then .ok (bits.set word new) else .error .outOfBounds

/-- `__ffsll` (lines 39–45): one more than the place of the lowest bit, 0 if there is none. -/
def ffsll (xx : Word) : ℕ := if xx = 0 then 0 else xx.ctz.toNat + 1

/-- `BIT_SET` (line 47). -/
def bitSet (old : Word) (bit : ℕ) : Word := old ||| ((1 : Word) <<< bit)

/-- `BIT_GET` (line 48). -/
def bitGet (old : Word) (bit : ℕ) : Word := old &&& ((1 : Word) <<< bit)

/-- `BIT_ZAP` (line 49). -/
def bitZap (old : Word) (bit : ℕ) : Word := old &&& ~~~((1 : Word) <<< bit)

section

variable (bits : Bits) (word bit : ℕ)

/-- `word_get_bit_simple` (lines 53–56). -/
def wordGetBitSimple : Except Trap Bool := do
  let old ← load bits word
  pure (bitGet old bit != 0)

/-- `word_set_bit_simple` (lines 58–61). -/
def wordSetBitSimple : Except Trap Bits := do
  let old ← load bits word
  store bits word (bitSet old bit)

/-- `word_set_bit_changed` (lines 63–70). -/
def wordSetBitChanged : Except Trap (Bits × Bool) := do
  let old ← load bits word
  let new := bitSet old bit
  if old = new then pure (bits, false) else
    let bits ← store bits word new
    pure (bits, true)

/-- `word_set_bit_changed_go_down` (lines 72–81): `was_non_zero` if the word has changed. -/
def wordSetBitChangedGoDown : Except Trap (Bits × Option Bool) := do
  let old ← load bits word
  let new := bitSet old bit
  if old = new then pure (bits, none) else
    let bits ← store bits word new
    pure (bits, some (old != 0))

/-- `word_set_bit_go_down` (lines 83–90). -/
def wordSetBitGoDown : Except Trap (Bits × Bool) := do
  let old ← load bits word
  let new := bitSet old bit
  if old = new then pure (bits, false) else
    let bits ← store bits word new
    pure (bits, old == 0)

/-- `word_zap_bit_simple` (lines 92–95). -/
def wordZapBitSimple : Except Trap Bits := do
  let old ← load bits word
  store bits word (bitZap old bit)

/-- `word_zap_bit_changed` (lines 97–104). -/
def wordZapBitChanged : Except Trap (Bits × Bool) := do
  let old ← load bits word
  let new := bitZap old bit
  if old = new then pure (bits, false) else
    let bits ← store bits word new
    pure (bits, true)

/-- `word_zap_bit_changed_go_down` (lines 106–115): `is_now_zero` if the word has changed. -/
def wordZapBitChangedGoDown : Except Trap (Bits × Option Bool) := do
  let old ← load bits word
  let new := bitZap old bit
  if old = new then pure (bits, none) else
    let bits ← store bits word new
    pure (bits, some (new == 0))

/-- `word_zap_bit_go_down` (lines 117–124). -/
def wordZapBitGoDown : Except Trap (Bits × Bool) := do
  let old ← load bits word
  let new := bitZap old bit
  if old = new then pure (bits, false) else
    let bits ← store bits word new
    pure (bits, new == 0)

/-- `NB` (line 128). -/
def nb : ℕ := 9

/-- `NUM_64b` (line 131). -/
def num64b : ℕ := 1 <<< (nb - 6)

/-- `levels_num_words` (lines 134–141): `LEVEL0`, `LEVEL1` and so on. The source's table stops at
`LEVEL3`, enough for `log_size ≤ 45`. -/
def levelsNumWords : ℕ → ℕ
  | 0 => num64b
  | level + 1 => levelsNumWords level + (1 <<< (nb * (level + 1))) * num64b

/-- `GET_SIMPLE` (lines 143–145). -/
def getSimple : Except Trap Bool :=
  wordGetBitSimple bits (word + (bit >>> 6)) (bit &&& 63)

/-- `SET_SIMPLE` (lines 147–149). -/
def setSimple : Except Trap Bits :=
  wordSetBitSimple bits (word + (bit >>> 6)) (bit &&& 63)

/-- `SET_CHANGED` (lines 151–154). -/
def setChanged : Except Trap (Bits × Bool) :=
  wordSetBitChanged bits (word + (bit >>> 6)) (bit &&& 63)

/-- `SET_CHANGED_GO_DOWN` (lines 156–160). -/
def setChangedGoDown : Except Trap (Bits × Option Bool) :=
  wordSetBitChangedGoDown bits (word + (bit >>> 6)) (bit &&& 63)

/-- `SET_GO_DOWN` (lines 162–165). -/
def setGoDown : Except Trap (Bits × Bool) :=
  wordSetBitGoDown bits (word + (bit >>> 6)) (bit &&& 63)

/-- `ZAP_SIMPLE` (lines 167–169). -/
def zapSimple : Except Trap Bits :=
  wordZapBitSimple bits (word + (bit >>> 6)) (bit &&& 63)

/-- `ZAP_CHANGED` (lines 171–174). -/
def zapChanged : Except Trap (Bits × Bool) :=
  wordZapBitChanged bits (word + (bit >>> 6)) (bit &&& 63)

/-- The loop of `all_zeros`, with the words that are left. -/
def allZerosFrom (bits : Bits) (words : ℕ) : (left : ℕ) → Except Trap Bool
  | 0 => pure true
  | left + 1 => do
    let old ← load bits words
    if old ≠ 0 then pure false else allZerosFrom bits (words + 1) left

/-- `all_zeros` (lines 176–181). -/
def allZeros (bits : Bits) (words : ℕ) : Except Trap Bool := allZerosFrom bits words num64b

/-- `ZAP_CHANGED_GO_DOWN` (lines 183–192). -/
def zapChangedGoDown : Except Trap (Bits × Option Bool) := do
  let (bits, changed) ← wordZapBitChangedGoDown bits (word + (bit >>> 6)) (bit &&& 63)
  match changed with
  | none => pure (bits, none)
  | some isNowZero =>
    let zeros ← allZeros bits word
    pure (bits, some (if !zeros then false else isNowZero))

/-- `ZAP_GO_DOWN` (lines 194–202). -/
def zapGoDown : Except Trap (Bits × Bool) := do
  let (bits, changed) ← wordZapBitGoDown bits (word + (bit >>> 6)) (bit &&& 63)
  if changed then
    let zeros ← allZeros bits word
    pure (bits, if !zeros then false else changed)
  else pure (bits, changed)

end

/-- The loop of `FFS`, at word `w` with the words that are left. -/
def ffsFrom (bits : Bits) (word w : ℕ) : (left : ℕ) → Except Trap ℕ
  | 0 => pure 0
  | left + 1 => do
    let old ← load bits (word + w)
    let f := ffsll old
    if f ≠ 0 then pure (f + (w <<< 6)) else ffsFrom bits word (w + 1) left

/-- `FFS` (lines 204–215). -/
def ffs (bits : Bits) (word : ℕ) : Except Trap ℕ := ffsFrom bits word 0 num64b

/-- The number of words of `bitarray_size` (lines 219–227), which returns it in bytes. -/
def bitarraySize (logSize : ℕ) : ℕ :=
  if logSize > nb then
    let level := (logSize - nb - 1) / nb
    levelsNumWords level + 1 <<< (logSize - 6)
  else num64b

/-- `bitarray_create` (lines 229–231). -/
def bitarrayCreate (logSize : ℕ) : Bits := replicate (bitarraySize logSize) 0

/-- `bitarray_get` (lines 233–241). -/
def bitarrayGet (bits : Bits) (logSize index : ℕ) : Except Trap Bool :=
  if logSize ≤ nb then getSimple bits 0 index else
    let level := (logSize - nb - 1) / nb
    getSimple bits (levelsNumWords level + (index >>> nb) * num64b) (index &&& (1 <<< nb - 1))

/-- The `switch` of `bitarray_set` (lines 255–272) entered at case `level` at most 3: each case
above 0 marks its summary and goes on to the next one unless nothing is left to do. -/
def setSummaries (bits : Bits) : (level index : ℕ) → Except Trap Bits
  | 0, index => setSimple bits 0 (index &&& (1 <<< nb - 1))
  | level + 1, index => do
    let (bits, down) ← setGoDown bits (levelsNumWords level + (index >>> nb) * num64b)
      (index &&& (1 <<< nb - 1))
    if !down then pure bits else setSummaries bits level (index >>> nb)

/-- `bitarray_set` (lines 243–273). -/
def bitarraySet (bits : Bits) (logSize index : ℕ) : Except Trap (Bits × Bool) :=
  if logSize ≤ nb then setChanged bits 0 index else do
    let level := (logSize - nb - 1) / nb
    let bit := index &&& (1 <<< nb - 1)
    let index := index >>> nb
    let (bits, changed) ← setChangedGoDown bits (levelsNumWords level + index * num64b) bit
    match changed with
    | none => pure (bits, false)
    | some true => pure (bits, true)
    | some false =>
      if 3 < level then .error .abort else
        let bits ← setSummaries bits level index
        pure (bits, true)

/-- The `switch` of `bitarray_zap` (lines 285–302) and of `ZAP_SUMMARIES` (lines 333–350) entered
at case `level` at most 3. -/
def zapSummariesFrom (bits : Bits) : (level index : ℕ) → Except Trap Bits
  | 0, index => zapSimple bits 0 (index &&& (1 <<< nb - 1))
  | level + 1, index => do
    let (bits, down) ← zapGoDown bits (levelsNumWords level + (index >>> nb) * num64b)
      (index &&& (1 <<< nb - 1))
    if !down then pure bits else zapSummariesFrom bits level (index >>> nb)

/-- `ZAP_SUMMARIES` (lines 333–350). -/
def zapSummaries (bits : Bits) (ix level : ℕ) : Except Trap Bits :=
  if 3 < level then .error .abort else zapSummariesFrom bits level ix

/-- `bitarray_zap` (lines 275–303). -/
def bitarrayZap (bits : Bits) (logSize index : ℕ) : Except Trap (Bits × Bool) :=
  if logSize ≤ nb then zapChanged bits 0 index else do
    let level := (logSize - nb - 1) / nb
    let bit := index &&& (1 <<< nb - 1)
    let index := index >>> nb
    let (bits, changed) ← zapChangedGoDown bits (levelsNumWords level + index * num64b) bit
    match changed with
    | none => pure (bits, false)
    | some false => pure (bits, true)
    | some true =>
      let bits ← zapSummaries bits index level
      pure (bits, true)

/-- `x - 1` in 32 bits without a sign. -/
def pred32 (x : ℕ) : ℕ := (x + (2 ^ 32 - 1)) % 2 ^ 32

/-- `ADJUST_OFFSET_FOR_FFS` (lines 306–309): the new `words` and `base`. -/
def adjustOffsetForFfs (bits : Bits) (words base currentLevel : ℕ) : Except Trap (ℕ × ℕ) := do
  let words := words + (1 <<< (nb * currentLevel)) * num64b
  let f ← ffs bits (words + base * num64b)
  pure (words, pred32 ((base <<< nb) + f))

/-- `ADJUST_OFFSET_FOR_FFS` for the levels below `level`, in turn. -/
def adjustOffsets (bits : Bits) (words base : ℕ) : (level : ℕ) → Except Trap (ℕ × ℕ)
  | 0 => pure (words, base)
  | level + 1 => do
    let (words, base) ← adjustOffsets bits words base level
    adjustOffsetForFfs bits words base level

/-- `ADJUST_OFFSET_FOR_FFS_ACROSS_SUMMARIES` (lines 312–330). -/
def adjustOffsetForFfsAcrossSummaries (bits : Bits) (words base level : ℕ) :
    Except Trap (ℕ × ℕ) :=
  if 1 ≤ level ∧ level ≤ 4 then adjustOffsets bits words base (level - 1) else .error .abort

/-- `bitarray_first_set` (lines 352–365). The two lines after the summaries are
`ADJUST_OFFSET_FOR_FFS` once more. -/
def bitarrayFirstSet (bits : Bits) (logSize : ℕ) : Except Trap ℕ := do
  let bit ← ffs bits 0
  if logSize ≤ nb then pure bit else
    if bit = 0 then pure 0 else
      let level := (logSize - 1) / nb
      let (words, base) ← adjustOffsetForFfsAcrossSummaries bits 0 (bit - 1) level
      let (_, base) ← adjustOffsetForFfs bits words base (level - 1)
      pure ((base + 1) % 2 ^ 32)

/-- `bitarray_zap_first_set` (lines 367–394): what is stored in `*index` if it returns 1. -/
def bitarrayZapFirstSet (bits : Bits) (logSize : ℕ) : Except Trap (Bits × Option ℕ) := do
  let ix ← ffs bits 0
  if ix = 0 then pure (bits, none) else
    let level := pred32 logSize / nb
    if level = 0 then
      let ix := ix - 1
      let bits ← zapSimple bits 0 ix
      pure (bits, some ix)
    else
      let (words, base) ← adjustOffsetForFfsAcrossSummaries bits 0 (ix - 1) level
      let (_, base) ← adjustOffsetForFfs bits words base (level - 1)
      let level := level - 1
      let bit := base &&& (1 <<< nb - 1)
      let ix := base >>> nb
      let (bits, changed) ← zapChangedGoDown bits (levelsNumWords level + ix * num64b) bit
      match changed with
      | none => pure (bits, some base)
      | some false => pure (bits, some base)
      | some true =>
        let bits ← zapSummaries bits ix level
        pure (bits, some base)

/-- The inner loop of `FFS_and_zap_word` (lines 402–411) on a word with a bit set: the word it
leaves and the indices it stores, from slot `zapped` on. `added` is `(w << 6) + to_be_added`. -/
def zapWordBits (max added : ℕ) :
    (fuel : ℕ) → (word : Word) → (zapped : ℕ) → Except Trap (Word × List ℕ)
  | 0, _, _ => .error .outOfFuel
  | fuel + 1, word, zapped =>
    let f := pred32 (ffsll word)
    let word := bitZap word f
    if word = 0 then pure (word, [f + added])
    else if zapped + 1 ≥ max then pure (word, [f + added])
    else do
      let (word, indices) ← zapWordBits max added fuel word (zapped + 1)
      pure (word, (f + added) :: indices)

/-- The outer loop of `FFS_and_zap_word`, at word `w` with the words that are left. -/
def ffsAndZapFrom (words max toBeAdded : ℕ) :
    (left : ℕ) → (bits : Bits) → (w zapped : ℕ) → Except Trap (Bits × List ℕ)
  | 0, bits, _, _ => pure (bits, [])
  | left + 1, bits, w, zapped => do
    let word ← load bits (words + w)
    if word = 0 then ffsAndZapFrom words max toBeAdded left bits (w + 1) zapped else
      let (word, indices) ← zapWordBits max ((w <<< 6) + toBeAdded) 64 word zapped
      let bits ← store bits (words + w) word
      if zapped + indices.length ≥ max then pure (bits, indices) else
        let (bits, more) ←
          ffsAndZapFrom words max toBeAdded left bits (w + 1) (zapped + indices.length)
        pure (bits, indices ++ more)

/-- `FFS_and_zap_word` (lines 396–417): the indices it stores; it returns their number. -/
def ffsAndZapWord (bits : Bits) (words max toBeAdded : ℕ) : Except Trap (Bits × List ℕ) :=
  ffsAndZapFrom words max toBeAdded num64b bits 0 0

/-- The condition of line 441. -/
def nodeZapped (bits : Bits) (word zapped max : ℕ) : Except Trap Bool :=
  if zapped < max then pure true else allZeros bits word

/-- Lines 438–444 of the loop of `bitarray_zap_first_set_multiple`, on the node at `word`. -/
def zapNode (bits : Bits) (word base level max zapped : ℕ) : Except Trap (Bits × List ℕ) := do
  let (bits, indices) ← ffsAndZapWord bits word (max - zapped) (base <<< nb)
  let clear ← nodeZapped bits word (zapped + indices.length) max
  if clear then
    let bits ← zapSummaries bits base (level - 1)
    pure (bits, indices)
  else pure (bits, indices)

/-- The loop of `bitarray_zap_first_set_multiple` (lines 424–445). -/
def zapFirstSetLoop (level max : ℕ) :
    (fuel : ℕ) → (bits : Bits) → (zapped : ℕ) → Except Trap (Bits × List ℕ)
  | 0, _, _ => .error .outOfFuel
  | fuel + 1, bits, zapped =>
    if zapped < max then do
      let ix ← ffs bits 0
      if ix = 0 then pure (bits, []) else
        let (words, base) ← adjustOffsetForFfsAcrossSummaries bits 0 (ix - 1) level
        let words := words + (1 <<< (nb * (level - 1))) * num64b
        let (bits, indices) ← zapNode bits (words + base * num64b) base level max zapped
        let (bits, more) ← zapFirstSetLoop level max fuel bits (zapped + indices.length)
        pure (bits, indices ++ more)
    else pure (bits, [])

/-- `bitarray_zap_first_set_multiple` (lines 419–447): the indices it stores; it returns their
number. Every round but the last stores an index, so `max + 1` rounds are enough. -/
def bitarrayZapFirstSetMultiple (bits : Bits) (logSize max : ℕ) : Except Trap (Bits × List ℕ) :=
  if logSize ≤ nb then ffsAndZapWord bits 0 max 0 else
    let level := (logSize - 1) / nb
    zapFirstSetLoop level max (max + 1) bits 0

/-! ## Words and their bits -/

variable {i b left a max : ℕ} {old new : Word} {β : Type}

theorem getLsbD_zero : (0 : Word).getLsbD i = false := BitVec.getLsbD_zero

theorem getLsbD_one_shiftLeft (hi : i < 64) : ((1 : Word) <<< b).getLsbD i = decide (i = b) := by
  rw [BitVec.getLsbD_shiftLeft, show (1 : Word) = 1#64 from rfl, BitVec.getLsbD_one]
  simp only [hi, decide_true, Bool.true_and, zero_lt_succ]
  rw [← decide_not, ← Bool.decide_and, decide_eq_decide]
  omega

theorem getLsbD_bitSet (hi : i < 64) :
    (bitSet old b).getLsbD i = (decide (i = b) || old.getLsbD i) := by
  rw [bitSet, BitVec.getLsbD_or, getLsbD_one_shiftLeft hi, Bool.or_comm]

theorem getLsbD_bitZap (hi : i < 64) :
    (bitZap old b).getLsbD i = (decide (i ≠ b) && old.getLsbD i) := by
  rw [bitZap, BitVec.getLsbD_and, BitVec.getLsbD_not, getLsbD_one_shiftLeft hi, Bool.and_comm]
  simp [hi]

theorem bitSet_eq_self (hb : b < 64) : old = bitSet old b ↔ old.getLsbD b = true := by
  rw [BitVec.eq_of_getLsbD_eq_iff]
  constructor
  · intro h
    rw [h b hb, getLsbD_bitSet hb, decide_eq_true rfl, Bool.true_or]
  · intro h i hi
    rw [getLsbD_bitSet hi]
    by_cases hib : i = b
    · rw [hib, h, Bool.or_true]
    · rw [decide_eq_false hib, Bool.false_or]

theorem bitZap_eq_self (hb : b < 64) : old = bitZap old b ↔ old.getLsbD b = false := by
  rw [BitVec.eq_of_getLsbD_eq_iff]
  constructor
  · intro h
    rw [h b hb, getLsbD_bitZap hb, decide_eq_false (not_not_intro rfl), Bool.false_and]
  · intro h i hi
    rw [getLsbD_bitZap hi]
    by_cases hib : i = b
    · rw [hib, h, Bool.and_false]
    · rw [decide_eq_true hib, Bool.true_and]

theorem eq_zero_iff : old = 0 ↔ ∀ b < 64, old.getLsbD b = false := by
  rw [BitVec.eq_of_getLsbD_eq_iff]
  exact forall₂_congr fun b _ => by rw [getLsbD_zero]

theorem bitGet_ne_zero (hb : b < 64) : (bitGet old b != 0) = old.getLsbD b := by
  have hget : ∀ i < 64, (bitGet old b).getLsbD i = (old.getLsbD i && decide (i = b)) := by
    intro i hi
    rw [bitGet, BitVec.getLsbD_and, getLsbD_one_shiftLeft hi]
  rw [Bool.eq_iff_iff, bne_iff_ne, not_iff_comm, Bool.not_eq_true, eq_zero_iff]
  constructor
  · intro h i hi
    rw [hget i hi]
    by_cases hib : i = b
    · rw [hib, h, Bool.false_and]
    · rw [decide_eq_false hib, Bool.and_false]
  · intro h
    have := hget b hb
    rw [h b hb, decide_eq_true rfl, Bool.and_true] at this
    exact this.symm

/-- Bit `n` of the memory, counted from its start; none outside of it. -/
def bitAt (bits : Bits) (n : ℕ) : Bool := (bits.getD (n / 64) 0).getLsbD (n % 64)

/-- The memory with bit `n` set. -/
def setAt (bits : Bits) (n : ℕ) : Bits :=
  bits.set (n / 64) (bitSet (bits.getD (n / 64) 0) (n % 64))

/-- The memory with bit `n` cleared. -/
def zapAt (bits : Bits) (n : ℕ) : Bits :=
  bits.set (n / 64) (bitZap (bits.getD (n / 64) 0) (n % 64))

variable {bits : Bits} {word bit w n m : ℕ}

@[simp] theorem length_setAt : (setAt bits n).length = bits.length := length_set

@[simp] theorem length_zapAt : (zapAt bits n).length = bits.length := length_set

theorem getD_set (hw : w < bits.length) :
    (bits.set w new).getD m 0 = if m = w then new else bits.getD m 0 := by
  rw [getD_eq_getElem?_getD, getD_eq_getElem?_getD, getElem?_set]
  by_cases h : w = m
  · subst h
    simp [hw]
  · rw [if_neg h, if_neg (Ne.symm h)]

theorem bitAt_set (hw : w < bits.length) :
    bitAt (bits.set w new) m = if m / 64 = w then new.getLsbD (m % 64) else bitAt bits m := by
  rw [bitAt, getD_set hw]
  split_ifs <;> rfl

theorem bitAt_setAt (h : n / 64 < bits.length) :
    bitAt (setAt bits n) m = (decide (m = n) || bitAt bits m) := by
  rw [setAt, bitAt_set h, getLsbD_bitSet (by omega)]
  split_ifs with hw
  · rw [bitAt, hw]
    congr 1
    simp only [decide_eq_decide]
    omega
  · rw [decide_eq_false (by rintro rfl; exact hw rfl), Bool.false_or]

theorem bitAt_zapAt (h : n / 64 < bits.length) :
    bitAt (zapAt bits n) m = (decide (m ≠ n) && bitAt bits m) := by
  rw [zapAt, bitAt_set h, getLsbD_bitZap (by omega)]
  split_ifs with hw
  · rw [bitAt, hw]
    congr 1
    simp only [decide_eq_decide]
    omega
  · rw [decide_eq_true (by rintro rfl; exact hw rfl), Bool.true_and]

theorem zapAt_of_bitAt (hn : n / 64 < bits.length) (h : bitAt bits n = false) :
    zapAt bits n = bits := by
  rw [zapAt, ← (bitZap_eq_self (mod_lt _ (by decide))).mpr h, getD_eq_getElem?_getD,
    getElem?_eq_getElem hn, getD_some, set_getElem_self]

theorem getLsbD_getD (hb : b < 64) : (bits.getD w 0).getLsbD b = bitAt bits (64 * w + b) := by
  rw [bitAt, show (64 * w + b) / 64 = w by omega, show (64 * w + b) % 64 = b by omega]

theorem getD_eq_zero_iff : bits.getD w 0 = 0 ↔ ∀ b < 64, bitAt bits (64 * w + b) = false := by
  rw [eq_zero_iff]
  exact forall₂_congr fun b hb => by rw [getLsbD_getD hb]

/-! ## One bit of a node -/

theorem load_eq (h : w < bits.length) : load bits w = .ok (bits.getD w 0) := by
  rw [load, getD_eq_getElem?_getD, getElem?_eq_getElem h, getD_some]

theorem store_eq (h : w < bits.length) : store bits w new = .ok (bits.set w new) :=
  if_pos h

theorem shiftRight_six : word + (bit >>> 6) = (64 * word + bit) / 64 := by
  omega

theorem and_sixtyThree : bit &&& 63 = (64 * word + bit) % 64 := by
  rw [show (63 : ℕ) = 2 ^ 6 - 1 by rfl, and_two_pow_sub_one_eq_mod]
  omega

theorem ok_bind {α : Type} {a : α} {f : α → Except Trap β} : (Except.ok a >>= f) = f a := rfl

/-- The shape of the helpers that report whether they changed the word. -/
theorem updateWord_spec (hw : w < bits.length) (g : Word → Word) (same : β)
    (changed : Word → Word → β) :
    (do
      let old ← load bits w
      let new := g old
      if old = new then pure (bits, same) else
        let bits ← store bits w new
        pure (bits, changed old new) : Except Trap (Bits × β)) =
    .ok (bits.set w (g (bits.getD w 0)),
      if bits.getD w 0 = g (bits.getD w 0) then same
      else changed (bits.getD w 0) (g (bits.getD w 0))) := by
  rw [load_eq hw, ok_bind]
  dsimp only
  split_ifs with h
  · rw [← h, getD_eq_getElem?_getD, getElem?_eq_getElem hw, getD_some,
      set_getElem_self]
    rfl
  · rw [store_eq hw]
    rfl

theorem bitSet_ite {a b : β} :
    (if bits.getD (n / 64) 0 = bitSet (bits.getD (n / 64) 0) (n % 64) then a else b) =
      if bitAt bits n then a else b := by
  rw [if_congr (bitSet_eq_self (mod_lt _ (by decide))) rfl rfl]
  rfl

theorem bitZap_ite {a b : β} :
    (if bits.getD (n / 64) 0 = bitZap (bits.getD (n / 64) 0) (n % 64) then a else b) =
      if bitAt bits n then b else a := by
  rw [if_congr (bitZap_eq_self (mod_lt _ (by decide))) rfl rfl]
  change (if bitAt bits n = false then a else b) = _
  cases bitAt bits n <;> rfl

section

variable (h : (64 * word + bit) / 64 < bits.length)

include h

theorem getSimple_spec : getSimple bits word bit = .ok (bitAt bits (64 * word + bit)) := by
  rw [getSimple, shiftRight_six, @and_sixtyThree word bit, wordGetBitSimple, load_eq h, ok_bind,
    bitGet_ne_zero (mod_lt _ (by decide))]
  rfl

theorem setSimple_spec : setSimple bits word bit = .ok (setAt bits (64 * word + bit)) := by
  rw [setSimple, shiftRight_six, @and_sixtyThree word bit, wordSetBitSimple, load_eq h, ok_bind,
    store_eq h]
  rfl

theorem zapSimple_spec : zapSimple bits word bit = .ok (zapAt bits (64 * word + bit)) := by
  rw [zapSimple, shiftRight_six, @and_sixtyThree word bit, wordZapBitSimple, load_eq h, ok_bind,
    store_eq h]
  rfl

theorem setChanged_spec : setChanged bits word bit =
    .ok (setAt bits (64 * word + bit), if bitAt bits (64 * word + bit) then false else true) := by
  rw [setChanged, shiftRight_six, @and_sixtyThree word bit, wordSetBitChanged,
    updateWord_spec h (bitSet · _) false (fun _ _ => true), bitSet_ite]
  rfl

theorem setChangedGoDown_spec : setChangedGoDown bits word bit =
    .ok (setAt bits (64 * word + bit), if bitAt bits (64 * word + bit) then none
      else some (bits.getD ((64 * word + bit) / 64) 0 != 0)) := by
  rw [setChangedGoDown, shiftRight_six, @and_sixtyThree word bit, wordSetBitChangedGoDown,
    updateWord_spec h (bitSet · _) none (fun old _ => some (old != 0)), bitSet_ite]
  rfl

theorem setGoDown_spec : setGoDown bits word bit =
    .ok (setAt bits (64 * word + bit), if bitAt bits (64 * word + bit) then false
      else bits.getD ((64 * word + bit) / 64) 0 == 0) := by
  rw [setGoDown, shiftRight_six, @and_sixtyThree word bit, wordSetBitGoDown,
    updateWord_spec h (bitSet · _) false (fun old _ => old == 0), bitSet_ite]
  rfl

theorem zapChanged_spec : zapChanged bits word bit =
    .ok (zapAt bits (64 * word + bit), if bitAt bits (64 * word + bit) then true else false) := by
  rw [zapChanged, shiftRight_six, @and_sixtyThree word bit, wordZapBitChanged,
    updateWord_spec h (bitZap · _) false (fun _ _ => true), bitZap_ite]
  rfl

end

/-! ## A node -/

/-- No bit of the `count` words from `word` on is set. -/
def Clear (bits : Bits) (word count : ℕ) : Prop :=
  ∀ b < 64 * count, bitAt bits (64 * word + b) = false

instance {count : ℕ} : Decidable (Clear bits word count) :=
  inferInstanceAs (Decidable (∀ b < 64 * count, bitAt bits (64 * word + b) = false))

theorem clear_succ {count : ℕ} :
    Clear bits word (count + 1) ↔ bits.getD word 0 = 0 ∧ Clear bits (word + 1) count := by
  rw [getD_eq_zero_iff]
  constructor
  · intro h
    refine ⟨fun b hb => h b (by omega), fun b hb => ?_⟩
    rw [show 64 * (word + 1) + b = 64 * word + (64 + b) by omega]
    exact h (64 + b) (by omega)
  · rintro ⟨hlow, hhigh⟩ b hb
    by_cases hlt : b < 64
    · exact hlow b hlt
    · rw [show 64 * word + b = 64 * (word + 1) + (b - 64) by omega]
      exact hhigh (b - 64) (by omega)

theorem allZerosFrom_spec (h : word + left ≤ bits.length) :
    allZerosFrom bits word left = .ok (decide (Clear bits word left)) := by
  induction left generalizing word with
  | zero =>
    rfl
  | succ left ih =>
    rw [allZerosFrom, load_eq (by omega), ok_bind]
    by_cases hz : bits.getD word 0 = 0
    · rw [if_neg (not_not_intro hz), ih (by omega), decide_eq_decide.mpr]
      rw [clear_succ]
      exact ⟨fun h => ⟨hz, h⟩, And.right⟩
    · rw [if_pos hz, decide_eq_false fun h => hz (clear_succ.mp h).1]
      rfl

theorem allZeros_spec (h : word + 8 ≤ bits.length) :
    allZeros bits word = .ok (decide (Clear bits word 8)) := allZerosFrom_spec h

/-- The word of a bit of an empty node is 0. -/
theorem Clear.getD_eq_zero (h : Clear bits word 8) (hb : bit < 512) :
    bits.getD ((64 * word + bit) / 64) 0 = 0 := by
  rw [getD_eq_zero_iff]
  intro b hlt
  have := h (64 * (bit / 64) + b) (by omega)
  rw [show 64 * ((64 * word + bit) / 64) + b = 64 * word + (64 * (bit / 64) + b) by omega]
  exact this

theorem getD_zapAt (h : n / 64 < bits.length) :
    (zapAt bits n).getD (n / 64) 0 = bitZap (bits.getD (n / 64) 0) (n % 64) := by
  rw [zapAt, getD_set h, if_pos rfl]

section

variable (h : word + 8 ≤ bits.length) (hb : bit < 512)

include h hb

theorem zapChangedGoDown_spec : zapChangedGoDown bits word bit =
    .ok (zapAt bits (64 * word + bit), if bitAt bits (64 * word + bit) then
      some (decide (Clear (zapAt bits (64 * word + bit)) word 8)) else none) := by
  have hn : (64 * word + bit) / 64 < bits.length := by omega
  rw [zapChangedGoDown, shiftRight_six, @and_sixtyThree word bit, wordZapBitChangedGoDown,
    updateWord_spec hn (bitZap · _) none (fun _ new => some (new == 0)), bitZap_ite, ok_bind,
    ← zapAt, ← getD_zapAt hn]
  split_ifs
  · dsimp only
    rw [allZeros_spec (by simpa using h)]
    by_cases hclear : Clear (zapAt bits (64 * word + bit)) word 8
    · rw [decide_eq_true hclear, hclear.getD_eq_zero hb]
      rfl
    · rw [decide_eq_false hclear]
      rfl
  · rfl

theorem zapGoDown_spec : zapGoDown bits word bit =
    .ok (zapAt bits (64 * word + bit), if bitAt bits (64 * word + bit) then
      decide (Clear (zapAt bits (64 * word + bit)) word 8) else false) := by
  have hn : (64 * word + bit) / 64 < bits.length := by omega
  rw [zapGoDown, shiftRight_six, @and_sixtyThree word bit, wordZapBitGoDown,
    updateWord_spec hn (bitZap · _) false (fun _ new => new == 0), bitZap_ite, ok_bind,
    ← zapAt, ← getD_zapAt hn]
  split_ifs
  · dsimp only
    by_cases hclear : Clear (zapAt bits (64 * word + bit)) word 8
    · rw [allZeros_spec (by simpa using h), decide_eq_true hclear, hclear.getD_eq_zero hb]
      rfl
    · by_cases hz : (zapAt bits (64 * word + bit)).getD ((64 * word + bit) / 64) 0 = 0
      · rw [allZeros_spec (by simpa using h), decide_eq_false hclear, hz]
        rfl
      · rw [beq_eq_false_iff_ne.mpr hz, decide_eq_false hclear]
        rfl
  · rfl

end

theorem ffsll_zero : ffsll 0 = 0 := rfl

theorem ffsll_eq (hbit : old.getLsbD a = true)
    (hleast : ∀ i < a, old.getLsbD i = false) : ffsll old = a + 1 := by
  have hne : old ≠ 0 := by
    rintro rfl
    rw [getLsbD_zero] at hbit
    exact Bool.false_ne_true hbit
  have hctz : old.ctz.toNat = a := by
    rcases lt_trichotomy old.ctz.toNat a with hlt | heq | hgt
    · have := BitVec.getLsbD_true_ctz_of_ne_zero hne
      rw [hleast _ hlt] at this
      exact absurd this Bool.false_ne_true
    · exact heq
    · rw [BitVec.getLsbD_false_of_lt_ctz hgt] at hbit
      exact absurd hbit Bool.false_ne_true
  rw [ffsll, if_neg hne, hctz]

theorem ffsFrom_clear (h : word + w + left ≤ bits.length)
    (hclear : Clear bits (word + w) left) : ffsFrom bits word w left = .ok 0 := by
  induction left generalizing w with
  | zero => rfl
  | succ left ih =>
    obtain ⟨hz, hrest⟩ := clear_succ.mp hclear
    rw [ffsFrom, load_eq (by omega), hz]
    exact ih (by omega) hrest

theorem ffsFrom_least (h : word + w + left ≤ bits.length) (ha : a < 64 * left)
    (hbit : bitAt bits (64 * (word + w) + a) = true)
    (hleast : ∀ i < a, bitAt bits (64 * (word + w) + i) = false) :
    ffsFrom bits word w left = .ok (64 * w + a + 1) := by
  induction left generalizing w a with
  | zero => omega
  | succ left ih =>
    rw [ffsFrom, load_eq (by omega), ok_bind]
    by_cases hlow : a < 64
    · have hf : ffsll (bits.getD (word + w) 0) = a + 1 :=
        ffsll_eq (by rw [getLsbD_getD hlow, hbit])
          (fun i hi => by rw [getLsbD_getD (by omega), hleast i hi])
      rw [if_pos (by omega)]
      congr 1
      omega
    · have hz : bits.getD (word + w) 0 = 0 :=
        getD_eq_zero_iff.mpr fun b hb => hleast b (by omega)
      rw [hz, ffsll_zero, if_neg (by simp), ih (a := a - 64) (by omega) (by omega)]
      · congr 1
        omega
      · rw [show 64 * (word + (w + 1)) + (a - 64) = 64 * (word + w) + a by omega]
        exact hbit
      · intro i hi
        rw [show 64 * (word + (w + 1)) + i = 64 * (word + w) + (64 + i) by omega]
        exact hleast (64 + i) (by omega)

/-- `FFS` finds the lowest bit of a node. -/
theorem ffs_least (h : word + 8 ≤ bits.length) (ha : a < 512)
    (hbit : bitAt bits (64 * word + a) = true)
    (hleast : ∀ i < a, bitAt bits (64 * word + i) = false) : ffs bits word = .ok (a + 1) := by
  have hfrom : ffsFrom bits word 0 8 = .ok (64 * 0 + a + 1) := ffsFrom_least h ha hbit hleast
  rw [Nat.mul_zero, zero_add] at hfrom
  exact hfrom

/-! ## Clearing the lowest bits of a node -/

theorem pred32_succ {x : ℕ} (h : x < 2 ^ 32) : pred32 (x + 1) = x := by
  unfold pred32
  omega

/-- The places of the bits of a word. -/
def places (old : Word) : List ℕ := members old.getLsbD 64

theorem places_eq_nil : places old = [] ↔ old = 0 := by
  rw [eq_zero_iff]
  constructor
  · intro h b hb
    by_contra hbit
    have : b ∈ places old := mem_members.mpr ⟨hb, by simpa using hbit⟩
    rw [h] at this
    exact absurd this not_mem_nil
  · exact members_eq_nil

/-- A word other than 0 has a lowest bit; the others are those of the word without it. -/
theorem places_eq_cons (h : old ≠ 0) :
    ∃ a < 64, ffsll old = a + 1 ∧ places old = a :: places (bitZap old a) := by
  have hctz : old.ctz.toNat < 64 := BitVec.ctz_lt_iff_ne_zero.mpr h
  have hbit := BitVec.getLsbD_true_ctz_of_ne_zero h
  have hleast : ∀ i < old.ctz.toNat, old.getLsbD i = false := fun i hi =>
    BitVec.getLsbD_false_of_lt_ctz hi
  refine ⟨old.ctz.toNat, hctz, if_neg h, ?_⟩
  rw [places, members_eq_cons hctz hbit hleast]
  congr 1
  apply members_congr
  intro i hi
  rw [getLsbD_bitZap hi, Bool.and_comm]

theorem zapWordBits_spec {added fuel zapped : ℕ} (hold : old ≠ 0)
    (hfuel : (places old).length ≤ fuel) (hmax : zapped < max) :
    ∃ new, zapWordBits max added fuel old zapped =
        .ok (new, ((places old).take (max - zapped)).map (· + added)) ∧ ∀ b < 64, new.getLsbD b =
        (old.getLsbD b && decide (b ∉ (places old).take (max - zapped))) := by
  induction fuel generalizing old zapped with
  | zero =>
    exact absurd (places_eq_nil.mp (length_eq_zero_iff.mp (by omega))) hold
  | succ fuel ih =>
    obtain ⟨a, ha, hffs, hplaces⟩ := places_eq_cons hold
    rw [hplaces, length_cons] at hfuel
    rw [zapWordBits, hffs, pred32_succ (by omega), hplaces]
    obtain ⟨k, hk⟩ : ∃ k, max - zapped = k + 1 := ⟨max - zapped - 1, by omega⟩
    rw [hk, take_succ_cons]
    have hone : ∀ b < 64, (bitZap old a).getLsbD b = (old.getLsbD b && decide (b ∉ [a])) := by
      intro b hb
      rw [getLsbD_bitZap hb, Bool.and_comm]
      simp
    split_ifs with hz hfull
    · rw [places_eq_nil.mpr hz, take_nil]
      exact ⟨_, rfl, hone⟩
    · obtain rfl : k = 0 := by omega
      exact ⟨_, rfl, hone⟩
    · have hroom : zapped + 1 < max := by omega
      obtain ⟨new, hrun, hnew⟩ := ih hz (by omega) hroom
      rw [show max - (zapped + 1) = k by omega] at hrun hnew
      rw [hrun]
      refine ⟨new, rfl, fun b hb => ?_⟩
      rw [hnew b hb, getLsbD_bitZap hb]
      by_cases hba : b = a <;> simp [hba]

theorem length_places_le : (places old).length ≤ 64 := by
  refine (length_filter_le _ _).trans ?_
  rw [length_range]

/-- The lowest bits of the `left` words from `word` on, at most `limit` of them, by their
distance from the first bit of `word`. -/
def lowest (bits : Bits) (word left limit : ℕ) : List ℕ :=
  (members (fun b => bitAt bits (64 * word + b)) (64 * left)).take limit

theorem lowest_succ {limit : ℕ} :
    lowest bits word (left + 1) limit = (places (bits.getD word 0)).take limit ++
      (lowest bits (word + 1) left (limit - (places (bits.getD word 0)).length)).map (64 + ·) := by
  have hlow : members (fun b => bitAt bits (64 * word + b)) 64 = places (bits.getD word 0) :=
    members_congr fun b hb => (getLsbD_getD hb).symm
  have hhigh : members (fun b => bitAt bits (64 * word + (64 + b))) (64 * left) =
      members (fun b => bitAt bits (64 * (word + 1) + b)) (64 * left) :=
    members_congr fun b _ => by rw [show 64 * word + (64 + b) = 64 * (word + 1) + b by omega]
  rw [lowest, show 64 * (left + 1) = 64 + 64 * left by omega, members_add, take_append, hlow,
    hhigh, lowest, map_take]

/-- What storing the word that `zapWordBits` leaves does to the bits. -/
theorem bitAt_set_zapped {zapped : List ℕ} (hw : w < bits.length) (hlt : ∀ b ∈ zapped, b < 64)
    (hnew : ∀ b < 64, new.getLsbD b = ((bits.getD w 0).getLsbD b && decide (b ∉ zapped))) :
    bitAt (bits.set w new) m = (bitAt bits m && decide (∀ b ∈ zapped, m ≠ 64 * w + b)) := by
  rw [bitAt_set hw]
  split_ifs with hm
  · rw [hnew _ (mod_lt _ (by decide)), bitAt, hm]
    congr 1
    rw [decide_eq_decide]
    constructor
    · rintro h b hb rfl
      apply h
      rwa [show (64 * w + b) % 64 = b by omega]
    · intro h hmem
      exact h _ hmem (by omega)
  · rw [decide_eq_true, Bool.and_true]
    rintro b hb rfl
    have := hlt b hb
    omega

theorem ffsAndZapFrom_spec {toBeAdded zapped : ℕ} (h : word + w + left ≤ bits.length)
    (hmax : zapped < max) : ∃ bits', ffsAndZapFrom word max toBeAdded left bits w zapped =
        .ok (bits', (lowest bits (word + w) left (max - zapped)).map (· + (64 * w + toBeAdded))) ∧
      bits'.length = bits.length ∧ ∀ m, bitAt bits' m = (bitAt bits m &&
        decide (∀ b ∈ lowest bits (word + w) left (max - zapped), m ≠ 64 * (word + w) + b)) := by
  induction left generalizing bits w zapped with
  | zero =>
    refine ⟨bits, ?_, rfl, fun m => ?_⟩
    · simp [lowest, members, ffsAndZapFrom, pure, Except.pure]
    · simp [lowest, members]
  | succ left ih =>
    rw [ffsAndZapFrom, load_eq (by omega), ok_bind, lowest_succ]
    have hshift : ∀ l : List ℕ, (l.map (64 + ·)).map (· + (64 * w + toBeAdded)) =
        l.map (· + (64 * (w + 1) + toBeAdded)) := by
      intro l
      rw [List.map_map]
      apply map_congr_left
      simp only [Function.comp_apply]
      omega
    have hmoved : ∀ (l : List ℕ) (m : ℕ), (∀ b ∈ l.map (64 + ·), m ≠ 64 * (word + w) + b) ↔
        ∀ b ∈ l, m ≠ 64 * (word + (w + 1)) + b := by
      intro l m
      rw [List.forall_mem_map]
      refine forall₂_congr fun b _ => ?_
      rw [show 64 * (word + w) + (64 + b) = 64 * (word + (w + 1)) + b by omega]
    split_ifs with hz
    · -- nothing in this word
      have hroom : word + (w + 1) + left ≤ bits.length := by omega
      obtain ⟨bits', hrun, hlen, hbits⟩ := ih hroom hmax
      rw [places_eq_nil.mpr hz, take_nil, nil_append]
      refine ⟨bits', ?_, hlen, fun m => ?_⟩
      · rw [hrun, hshift]
        rfl
      · rw [hbits m, decide_eq_decide.mpr (hmoved _ m)]
        rfl
    · obtain ⟨new, hrun, hnew⟩ := zapWordBits_spec hz length_places_le hmax
      have hw : word + w < bits.length := by omega
      have hlt : ∀ b ∈ (places (bits.getD (word + w) 0)).take (max - zapped), b < 64 :=
        fun b hb => (mem_members.mp (mem_of_mem_take hb)).1
      have hone := fun m => bitAt_set_zapped (m := m) hw hlt hnew
      rw [hrun, ok_bind]
      dsimp only
      rw [store_eq hw, ok_bind, show w <<< 6 = 64 * w by omega,
        length_map, length_take]
      split_ifs with hfull
      · -- `max` bits are cleared
        rw [show max - zapped - (places (bits.getD (word + w) 0)).length = 0 by omega]
        refine ⟨bits.set (word + w) new, ?_, length_set, fun m => ?_⟩
        · simp only [lowest, take_zero, map_nil, append_nil]
          rfl
        · rw [hone m]
          simp [lowest]
      · -- the word is used up, on to the next one
        generalize hplaces : places (bits.getD (word + w) 0) = here at *
        have hall : here.take (max - zapped) = here := take_of_length_le (by omega)
        have hroom : word + (w + 1) + left ≤ (bits.set (word + w) new).length := by
          rw [length_set]
          omega
        rw [show min (max - zapped) here.length = here.length by omega]
        obtain ⟨bits', hrest, hlen, hbits⟩ := ih hroom
          (show zapped + here.length < max by omega)
        have hsame : lowest (bits.set (word + w) new) (word + (w + 1)) left
            (max - (zapped + here.length)) =
            lowest bits (word + (w + 1)) left (max - (zapped + here.length)) := by
          rw [lowest, members_congr, lowest]
          intro b _
          rw [bitAt_set hw, if_neg (by omega)]
        rw [hsame] at hrest hbits
        refine ⟨bits', ?_, by rw [hlen, length_set], fun m => ?_⟩
        · rw [hrest, map_append, hshift, Nat.sub_sub]
          rfl
        · rw [hbits m, hone m, Bool.and_assoc, ← Bool.decide_and]
          congr 1
          rw [decide_eq_decide, forall_mem_append, hmoved, Nat.sub_sub]
          rfl

/-- **The lowest bits of a node**, at most `max` of them, are listed in order and cleared. -/
theorem ffsAndZapWord_spec {toBeAdded : ℕ} (h : word + 8 ≤ bits.length) (hmax : 0 < max) :
    ∃ bits', ffsAndZapWord bits word max toBeAdded =
        .ok (bits', (lowest bits word 8 max).map (· + toBeAdded)) ∧
      bits'.length = bits.length ∧ ∀ m, bitAt bits' m = (bitAt bits m &&
        decide (∀ b ∈ lowest bits word 8 max, m ≠ 64 * word + b)) := by
  obtain ⟨bits', hrun, hlen, hbits⟩ := ffsAndZapFrom_spec (w := 0) h hmax
  refine ⟨bits', hrun.trans ?_, hlen, hbits⟩
  rw [Nat.mul_zero, zero_add]
  rfl

end Apple.Malloc.BitArray
