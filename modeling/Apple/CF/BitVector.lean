import Mathlib.Data.List.Range
import Mathlib.Tactic

/-!
# `CFBitVector`

Model of `CF-1153.18/CFBitVector.c`: bits are kept eight to a bucket, the first one in the most
significant place. A range of bits is mapped bucket by bucket with masks for the two ends.
Indices and counts are natural numbers; `CFBit` is a `UInt32` whose value is tested against 0.

`none` as a result is an access outside of the buckets. What the memory holds that
`CFAllocatorReallocate` adds is an argument of `CFBitVectorSetCount`.

Results:
* `internalMap_spec`: a map changes the bits of its range and no others.
* `bitVector_refines`: every sequence of calls does what it does on a list of bits.
-/

namespace Apple.CF.BitVector

open List Option

/-! ## The source -/

/-- `__CFBitVectorBucket`. -/
abbrev Bucket := BitVec 8

/-- `struct __CFBitVector` (lines 60–65). -/
structure CFBitVector where
  count : ℕ
  capacity : ℕ
  buckets : List Bucket

/-- `__CFBitVectorRoundUpCapacity` (lines 51–54). -/
def roundUpCapacity (capacity : ℕ) : ℕ :=
  let capacity := if 0 = capacity then 1 else capacity
  (capacity + 63) / 64 * 64

/-- `__CFBitVectorNumBuckets` (lines 100–102), of the capacity. -/
def numBuckets (capacity : ℕ) : ℕ := capacity / 8 + 1

/-- `__CFBitBucketMask` (lines 108–114). -/
def bitBucketMask (bottomBit topBit : ℕ) : Bucket :=
  let shiftL := 8 - topBit + bottomBit - 1
  (~~~(0 : Bucket) <<< shiftL) >>> bottomBit

/-- `__CFBitVectorBit` (lines 116–120). -/
def bitVectorBit (buckets : List Bucket) (idx : ℕ) : Option ℕ := do
  let bucket ← buckets[idx / 8]?
  some ((bucket >>> (8 - 1 - (idx &&& 7))) &&& 1).toNat

/-- `__CFSetBitVectorBit` (lines 122–130). -/
def setBitVectorBit (buckets : List Bucket) (idx : ℕ) (value : UInt32) :
    Option (List Bucket) := do
  let bucket ← buckets[idx / 8]?
  let one := (1 : Bucket) <<< (8 - 1 - (idx &&& 7))
  some (buckets.set (idx / 8) (if value ≠ 0 then bucket ||| one else bucket &&& ~~~one))

/-- `__CFFlipBitVectorBit` (lines 132–136). -/
def flipBitVectorBit (buckets : List Bucket) (idx : ℕ) : Option (List Bucket) := do
  let bucket ← buckets[idx / 8]?
  some (buckets.set (idx / 8) (bucket ^^^ (1 : Bucket) <<< (8 - 1 - (idx &&& 7))))

/-- `__CFInternalMapper`, with the count of the context passed along. -/
abbrev Mapper := Bucket → Bucket → ℕ → Bucket × ℕ

/-- One bucket under a mask (lines 300–301 and 315–316). -/
def mapMasked (mapper : Mapper) (mask : Bucket) (bucketIdx : ℕ) :
    List Bucket × ℕ → Option (List Bucket × ℕ)
  | (buckets, count) => do
    let val ← buckets[bucketIdx]?
    let (new, count) := mapper val mask count
    some (buckets.set bucketIdx ((val &&& ~~~mask) ||| (new &&& mask)), count)

/-- The loop over whole buckets (lines 306–310). -/
def mapWhole (mapper : Mapper) : ℕ → ℕ → List Bucket × ℕ → Option (List Bucket × ℕ)
  | 0, _, s => some s
  | nBuckets + 1, bucketIdx, (buckets, count) => do
    let val ← buckets[bucketIdx]?
    let (new, count) := mapper val (~~~0) count
    mapWhole mapper nBuckets (bucketIdx + 1) (buckets.set bucketIdx new, count)

/-- `__CFBitVectorInternalMap` (lines 284–318). -/
def internalMap (mapper : Mapper) (location length : ℕ) (s : List Bucket × ℕ) :
    Option (List Bucket × ℕ) :=
  if 0 = length then some s
  else do
    let bucketIdx := location / 8
    let bitOfBucket := location &&& 7
    let first : Bucket × ℕ :=
      if bitOfBucket + length < 8 then
        (bitBucketMask bitOfBucket (bitOfBucket + length - 1), 0)
      else (bitBucketMask bitOfBucket (8 - 1), length - (8 - bitOfBucket))
    let s ← mapMasked mapper first.1 bucketIdx s
    let nBuckets := first.2 / 8
    let s ← mapWhole mapper nBuckets (bucketIdx + 1) s
    let length := first.2 - nBuckets * 8
    if 0 ≠ length then
      mapMasked mapper (bitBucketMask 0 (length - 1)) (bucketIdx + 1 + nBuckets) s
    else some s

/-- `__CFNibbleBitCount`. -/
def nibbleBitCount : List ℕ := [0, 1, 1, 2, 1, 2, 2, 3, 1, 2, 2, 3, 2, 3, 3, 4]

/-- `__CFBitVectorCountBits` (lines 325–334). -/
def countBits (value : UInt32) : Mapper := fun bucketValue mask count =>
  let val := if value ≠ 0 then bucketValue &&& mask else ~~~bucketValue &&& mask
  let count := count + nibbleBitCount.getD (val &&& 0xF).toNat 0
  let val := val >>> 4
  (bucketValue, count + nibbleBitCount.getD (val &&& 0xF).toNat 0)

/-- `__CFBitVectorZeroBits` (lines 448–450). -/
def zeroBits : Mapper := fun _ _ count => (0, count)

/-- `__CFBitVectorOneBits` (lines 452–454). -/
def oneBits : Mapper := fun _ _ count => (~~~0, count)

/-- `__CFBitVectorFlipBits` (lines 483–485). -/
def flipBitsMapper : Mapper := fun bucketValue _ count => (~~~0 ^^^ bucketValue, count)

/-- `__CFBitVectorInit` (lines 224–253): with bytes for the bits, or without. -/
def init (bytes : Option (List Bucket)) (numBits : ℕ) : Option CFBitVector :=
  let capacity := roundUpCapacity numBits
  let zeros := List.replicate (numBuckets capacity) 0
  match bytes with
  | none => some ⟨numBits, capacity, zeros⟩
  | some bytes =>
    let n := numBits / 8 + if numBits &&& 7 ≠ 0 then 1 else 0
    if n ≤ bytes.length then some ⟨numBits, capacity, bytes.take n ++ zeros.drop n⟩ else none

section

variable (bv : CFBitVector)

/-- `__CFBitVectorGrow` (lines 437–446); `fresh` is what added memory holds. -/
def grow (numNewValues : ℕ) (fresh : ℕ → Bucket) : CFBitVector :=
  let capacity := roundUpCapacity (bv.count + numNewValues)
  { bv with
    capacity := capacity
    buckets := bv.buckets.take (numBuckets capacity) ++
      (List.range (numBuckets capacity - bv.buckets.length)).map fresh }

/-- A range of a bit vector mapped in place. -/
def CFBitVector.map (mapper : Mapper) (location length : ℕ) : Option (CFBitVector × ℕ) := do
  let (buckets, count) ← internalMap mapper location length (bv.buckets, 0)
  some ({ bv with buckets := buckets }, count)

/-- `CFBitVectorSetCount` (lines 456–474). -/
def setCount (count : ℕ) (fresh : ℕ → Bucket) : Option CFBitVector :=
  let cnt := bv.count
  if cnt < count then do
    let (bv, _) ← (grow bv (count - cnt) fresh).map zeroBits cnt (count - cnt)
    some { bv with count := count }
  else some { bv with count := count }

/-- `CFBitVectorFlipBitAtIndex` (lines 476–481). -/
def flipBitAtIndex (idx : ℕ) : Option CFBitVector := do
  let buckets ← flipBitVectorBit bv.buckets idx
  some { bv with buckets := buckets }

/-- `CFBitVectorFlipBits` (lines 487–493). -/
def flipBits (location length : ℕ) : Option CFBitVector :=
  if 0 = length then some bv
  else (bv.map flipBitsMapper location length).map Prod.fst

/-- `CFBitVectorSetBitAtIndex` (lines 495–500). -/
def setBitAtIndex (idx : ℕ) (value : UInt32) : Option CFBitVector := do
  let buckets ← setBitVectorBit bv.buckets idx value
  some { bv with buckets := buckets }

/-- The mapper that sets bits to `value`. -/
def fillBits (value : UInt32) : Mapper := if value ≠ 0 then oneBits else zeroBits

/-- `CFBitVectorSetBits` (lines 502–512). -/
def setBits (location length : ℕ) (value : UInt32) : Option CFBitVector :=
  if 0 = length then some bv
  else (bv.map (fillBits value) location length).map Prod.fst

/-- The bits of the last bucket that is not full, in `CFBitVectorSetAllBits` (lines 518–526). -/
def setLeftover (value : UInt32) : Option CFBitVector :=
  let nBuckets := bv.count / 8
  let leftover := bv.count - nBuckets * 8
  if 0 < leftover then (bv.map (fillBits value) (nBuckets * 8) leftover).map Prod.fst
  else some bv

/-- `CFBitVectorSetAllBits` (lines 514–528). -/
def setAllBits (value : UInt32) : Option CFBitVector := do
  let nBuckets := bv.count / 8
  let bv ← setLeftover bv value
  if nBuckets ≤ bv.buckets.length then
    some { bv with
      buckets := List.replicate nBuckets (if value ≠ 0 then ~~~0 else 0) ++
        bv.buckets.drop nBuckets }
  else none

/-- `CFBitVectorGetBitAtIndex` (lines 353–357). -/
def getBitAtIndex (idx : ℕ) : Option ℕ := bitVectorBit bv.buckets idx

/-- `CFBitVectorGetCountOfBit` (lines 336–345). The map writes the buckets it reads. -/
def getCountOfBit (location length : ℕ) (value : UInt32) : Option (CFBitVector × ℕ) :=
  if 0 = length then some (bv, 0) else bv.map (countBits value) location length

/-- `CFBitVectorContainsBit` (lines 347–351). -/
def containsBit (location length : ℕ) (value : UInt32) : Option (CFBitVector × Bool) :=
  (getCountOfBit bv location length value).map fun r => (r.1, r.2 != 0)

end

/-! ## Bits -/

/-- The bit with index `idx`. -/
def bit (buckets : List Bucket) (idx : ℕ) : Bool := (buckets.getD (idx / 8) 0).getMsbD (idx % 8)

theorem and_seven (idx : ℕ) : idx &&& 7 = idx % 8 := Nat.and_two_pow_sub_one_eq_mod idx 3

variable {buckets : List Bucket} {b : ℕ} {f p : Bool → Bool} {s : List Bucket × ℕ} {mapper : Mapper}

theorem bit_eq {val : Bucket} (hval : buckets[b]? = some val)
    {i : ℕ} (hi : i < 8) : bit buckets (8 * b + i) = val.getMsbD i := by
  rw [bit, show (8 * b + i) / 8 = b by omega, show (8 * b + i) % 8 = i by omega,
    getD_eq_getElem?_getD, hval, getD_some]

theorem bit_set (hb : b < buckets.length) (val : Bucket) (idx : ℕ) : bit (buckets.set b val) idx =
      if idx / 8 = b then val.getMsbD (idx % 8) else bit buckets idx := by
  unfold bit
  split_ifs with h
  · rw [h, getD_eq_getElem?_getD, getElem?_set_self hb, getD_some]
  · rw [getD_eq_getElem?_getD, getElem?_set_ne (Ne.symm h),
      getD_eq_getElem?_getD]

theorem getMsbD_bitBucketMask : ∀ top < 8, ∀ bottom ≤ top, ∀ i < 8,
      (bitBucketMask bottom top).getMsbD i = decide (bottom ≤ i ∧ i ≤ top) := by
  decide +kernel

theorem getMsbD_ones : ∀ i < 8, (~~~(0 : Bucket)).getMsbD i = true := by
  decide +kernel

theorem getMsbD_one_shiftLeft :
    ∀ k < 8, ∀ i < 8, ((1 : Bucket) <<< (8 - 1 - k)).getMsbD i = decide (i = k) := by
  decide +kernel

/-! ## Maps -/

/-- `f` is applied to the bits from `a` to `b`, and those with `p` have been counted. -/
structure Mapped (f p : Bool → Bool) (a b : ℕ) (s s' : List Bucket × ℕ) : Prop where
  length : s'.1.length = s.1.length
  bits : ∀ idx, bit s'.1 idx = if a ≤ idx ∧ idx < b then f (bit s.1 idx) else bit s.1 idx
  count : s'.2 = s.2 + ((List.range' a (b - a)).map (bit s.1)).countP p

/-- A mapper that applies `f` to the bits under the mask and counts those with `p`. -/
structure Maps (mapper : Mapper) (f p : Bool → Bool) : Prop where
  bits : ∀ val mask count i, i < 8 → mask.getMsbD i →
    (mapper val mask count).1.getMsbD i = f (val.getMsbD i)
  counts : ∀ val mask count, (mapper val mask count).2 =
    count + (List.range 8).countP fun i => mask.getMsbD i && p (val.getMsbD i)

theorem Mapped.refl (f p : Bool → Bool) (a : ℕ) (s : List Bucket × ℕ) : Mapped f p a a s s where
  length := rfl
  bits idx := by rw [if_neg (by omega)]
  count := by rw [Nat.sub_self, range'_zero, map_nil, countP_nil, add_zero]

theorem Mapped.trans {a c : ℕ} {t u : List Bucket × ℕ} (hab : a ≤ b)
    (hbc : b ≤ c) (h : Mapped f p a b s t) (h' : Mapped f p b c t u) : Mapped f p a c s u where
  length := h'.length.trans h.length
  bits idx := by
    rw [h'.bits, h.bits]
    by_cases hb : idx < b
    · rw [if_neg (by omega)]
      exact if_congr (by omega) rfl rfl
    · rw [if_neg (show ¬ (a ≤ idx ∧ idx < b) by omega)]
      exact if_congr (by omega) rfl rfl
  count := by
    have hsame : (List.range' b (c - b)).map (bit t.1) =
        (List.range' b (c - b)).map (bit s.1) := by
      refine map_congr_left fun idx hidx => ?_
      rw [mem_range'_1] at hidx
      rw [h.bits, if_neg (by omega)]
    rw [h'.count, h.count, hsame, add_assoc, ← countP_append, ← map_append,
      show c - a = (b - a) + (c - b) by omega, ← range'_append_1,
      show a + (b - a) = b by omega]

theorem countP_range_between {lo hi n : ℕ} (hlo : lo ≤ hi) (hhi : hi ≤ n) (q : ℕ → Bool) :
    ((List.range n).countP fun i => decide (lo ≤ i ∧ i < hi) && q i) =
      (List.range' lo (hi - lo)).countP q := by
  have hsplit : List.range n =
      List.range' 0 lo ++ (List.range' lo (hi - lo) ++ List.range' hi (n - hi)) := by
    rw [range_eq_range', show n = lo + ((hi - lo) + (n - hi)) by omega,
      ← range'_append_1, ← range'_append_1, zero_add,
      show lo + (hi - lo) = hi by omega]
    congr 3
    omega
  have hnone : ∀ l : List ℕ, (∀ i ∈ l, ¬ (lo ≤ i ∧ i < hi)) →
      (l.countP fun i => decide (lo ≤ i ∧ i < hi) && q i) = 0 := by
    intro l hl
    rw [countP_eq_zero]
    intro i hi
    simp [decide_eq_false (hl i hi)]
  rw [hsplit, countP_append, countP_append, hnone (List.range' 0 lo),
    hnone (List.range' hi (n - hi)), zero_add]
  · refine countP_congr fun i hi => ?_
    rw [mem_range'_1] at hi
    rw [decide_eq_true (by omega), Bool.true_and]
  · intro i hi
    rw [mem_range'_1] at hi
    omega
  · intro i hi
    rw [mem_range'_1] at hi
    omega

/-- One bucket, when the mask has the bits from `lo` to `hi`. -/
theorem mapped_bucket (hm : Maps mapper f p) {lo hi : ℕ} {val : Bucket} (mask new : Bucket)
    (count : ℕ) (hval : buckets[b]? = some val) (hlo : lo ≤ hi) (hhi : hi ≤ 8)
    (hmask : ∀ i < 8, mask.getMsbD i = decide (lo ≤ i ∧ i < hi)) (hnew : ∀ i < 8, new.getMsbD i =
      if mask.getMsbD i then (mapper val mask count).1.getMsbD i else val.getMsbD i) :
    Mapped f p (8 * b + lo) (8 * b + hi) (buckets, count)
      (buckets.set b new, (mapper val mask count).2) where
  length := length_set
  bits idx := by
    have hb : b < buckets.length := (List.getElem?_eq_some_iff.mp hval).1
    have hmod : idx % 8 < 8 := Nat.mod_lt _ (by norm_num)
    rw [bit_set hb]
    by_cases h : idx / 8 = b
    · have hidx : idx = 8 * b + idx % 8 := by omega
      have hold : bit buckets idx = val.getMsbD (idx % 8) := by
        rw [hidx, bit_eq hval (by omega)]
        congr 1
        omega
      rw [if_pos h, hnew _ hmod, hmask _ hmod]
      by_cases hin : lo ≤ idx % 8 ∧ idx % 8 < hi
      · rw [if_pos (decide_eq_true hin), if_pos (by omega), hold]
        exact hm.bits _ _ _ _ hmod (by rw [hmask _ hmod]; exact decide_eq_true hin)
      · rw [if_neg (by rw [decide_eq_false hin]; exact Bool.false_ne_true), if_neg (by omega),
          hold]
    · rw [if_neg h, if_neg (by omega)]
  count := by
    rw [hm.counts, show 8 * b + hi - (8 * b + lo) = hi - lo by omega,
      ← map_add_range', List.map_map, countP_map,
      ← countP_range_between hlo hhi]
    congr 1
    refine countP_congr fun i hi => ?_
    rw [mem_range] at hi
    rw [hmask i hi, Function.comp_apply, Function.comp_apply, bit_eq hval hi]

theorem mapMasked_spec (hm : Maps mapper f p)
    (b lo hi : ℕ) (hb : b < s.1.length) (hlo : lo < hi) (hhi : hi ≤ 8) :
    ∃ s', mapMasked mapper (bitBucketMask lo (hi - 1)) b s = some s' ∧
      Mapped f p (8 * b + lo) (8 * b + hi) s s' := by
  obtain ⟨buckets, count⟩ := s
  have hval : buckets[b]? = some buckets[b] := getElem?_eq_getElem hb
  have hmask : ∀ i < 8, (bitBucketMask lo (hi - 1)).getMsbD i = decide (lo ≤ i ∧ i < hi) := by
    intro i hi
    rw [getMsbD_bitBucketMask _ (by omega) _ (by omega) i hi]
    exact decide_eq_decide.mpr (by omega)
  refine ⟨_, by rw [mapMasked, hval]; rfl,
    mapped_bucket hm (bitBucketMask lo (hi - 1)) _ count hval hlo.le hhi hmask fun i hi => ?_⟩
  rw [BitVec.getMsbD_or, BitVec.getMsbD_and, BitVec.getMsbD_and, BitVec.getMsbD_not]
  cases hmi : (bitBucketMask lo (_ - 1)).getMsbD i with
  | false => simp [hi]
  | true => simp

theorem mapWhole_spec (hm : Maps mapper f p) {n : ℕ} (hb : b + n ≤ s.1.length) :
    ∃ s', mapWhole mapper n b s = some s' ∧ Mapped f p (8 * b) (8 * (b + n)) s s' := by
  induction n generalizing b s with
  | zero => exact ⟨s, rfl, .refl f p _ s⟩
  | succ n ih =>
    obtain ⟨buckets, count⟩ := s
    have hlt : b < buckets.length := by
      have hle : b + (n + 1) ≤ buckets.length := hb
      omega
    have hval : buckets[b]? = some buckets[b] := getElem?_eq_getElem hlt
    have hfirst := mapped_bucket hm (~~~0) (mapper buckets[b] (~~~0) count).1 count hval
      (Nat.zero_le 8) le_rfl
      (fun i hi => by rw [getMsbD_ones i hi, decide_eq_true ⟨Nat.zero_le i, hi⟩])
      (fun i hi => by rw [if_pos (getMsbD_ones i hi)])
    obtain ⟨s', hrest, hmapped⟩ := ih (b := b + 1)
      (s := (buckets.set b (mapper buckets[b] (~~~0) count).1,
        (mapper buckets[b] (~~~0) count).2)) (by
          rw [length_set]
          have hle : b + (n + 1) ≤ buckets.length := hb
          omega)
    refine ⟨s', by rw [mapWhole, hval]; exact hrest, ?_⟩
    rw [show b + (n + 1) = b + 1 + n by omega]
    exact hfirst.trans (by omega) (by omega) hmapped

/-- **A map** applies its function to the bits of the range, and to no others. -/
theorem internalMap_spec (hm : Maps mapper f p)
    (location length : ℕ) (hlen : location + length ≤ 8 * s.1.length) :
    ∃ s', internalMap mapper location length s = some s' ∧
      Mapped f p location (location + length) s s' := by
  unfold internalMap
  by_cases h0 : 0 = length
  · rw [← h0]
    exact ⟨s, rfl, .refl f p _ s⟩
  have hloc : 8 * (location / 8) + location % 8 = location := Nat.div_add_mod location 8
  simp only [if_neg h0, and_seven]
  by_cases hone : location % 8 + length < 8
  · -- all bits are in one bucket
    obtain ⟨s', hs', hmapped⟩ := mapMasked_spec hm (location / 8) (location % 8)
      (location % 8 + length) (s := s) (by omega) (by omega) (by omega)
    refine ⟨s', ?_, ?_⟩
    · simp [if_pos hone, hs', mapWhole]
    · rwa [← add_assoc, hloc] at hmapped
  · obtain ⟨s₁, hs₁, hmapped₁⟩ := mapMasked_spec hm (location / 8) (location % 8) 8 (s := s)
      (by omega) (by omega) le_rfl
    simp only [if_neg hone, hs₁, bind_eq_bind]
    have hrest : location + length =
        8 * (location / 8 + 1) + (length - (8 - location % 8)) := by omega
    rw [hloc] at hmapped₁
    generalize length - (8 - location % 8) = rest at hrest
    generalize location / 8 = b at hloc hs₁ hrest hmapped₁
    have hlen₁ := hmapped₁.length
    obtain ⟨s₂, hs₂, hmapped₂⟩ := mapWhole_spec hm (n := rest / 8) (b := b + 1) (s := s₁)
      (by omega)
    have hlen₂ := hmapped₂.length
    have hmapped₁₂ := hmapped₁.trans (by omega) (by omega) hmapped₂
    simp only [hs₂, bind_some]
    by_cases hend : 0 = rest - rest / 8 * 8
    · refine ⟨s₂, if_neg (not_not.mpr hend), ?_⟩
      rwa [show location + length = 8 * (b + 1 + rest / 8) by omega]
    · obtain ⟨s₃, hs₃, hmapped₃⟩ := mapMasked_spec hm (b + 1 + rest / 8) 0
        (rest - rest / 8 * 8) (s := s₂) (by omega) (by omega) (by omega)
      refine ⟨s₃, by rw [if_pos hend, hs₃], ?_⟩
      rw [show location + length =
        8 * (b + 1 + rest / 8) + (rest - rest / 8 * 8) by omega]
      exact hmapped₁₂.trans (by omega) (by omega) hmapped₃

/-! ## The mappers -/

theorem maps_const {v : Bool} (hbits : ∀ val mask count i, i < 8 →
      (mapper val mask count).1.getMsbD i = v)
    (hcount : ∀ val mask count, (mapper val mask count).2 = count) :
    Maps mapper (fun _ => v) (fun _ => false) where
  bits val mask count i hi _ := hbits val mask count i hi
  counts val mask count := by simp [hcount]

theorem maps_zeroBits : Maps zeroBits (fun _ => false) (fun _ => false) :=
  maps_const (fun _ _ _ i _ => by simp [zeroBits]) fun _ _ _ => rfl

theorem maps_oneBits : Maps oneBits (fun _ => true) (fun _ => false) :=
  maps_const (fun _ _ _ i hi => getMsbD_ones i hi) fun _ _ _ => rfl

theorem maps_fillBits (value : UInt32) :
    Maps (fillBits value) (fun _ => decide (value ≠ 0)) (fun _ => false) := by
  unfold fillBits
  split_ifs with h
  · rw [decide_eq_true h]
    exact maps_oneBits
  · rw [decide_eq_false h]
    exact maps_zeroBits

theorem maps_flipBits : Maps flipBitsMapper (fun v => !v) (fun _ => false) where
  bits val mask count i hi _ := by
    rw [flipBitsMapper, BitVec.getMsbD_xor, getMsbD_ones i hi, Bool.true_xor]
  counts val mask count := by simp [flipBitsMapper]

theorem nibbles (val : Bucket) : nibbleBitCount.getD (val &&& 0xF).toNat 0 +
      nibbleBitCount.getD (val >>> 4 &&& 0xF).toNat 0 = (List.range 8).countP val.getMsbD := by
  revert val
  decide +kernel

theorem maps_countBits (value : UInt32) :
    Maps (countBits value) (fun v => v) (fun v => v == decide (value ≠ 0)) where
  bits val mask count i hi _ := rfl
  counts val mask count := by
    simp only [countBits, add_assoc, nibbles]
    congr 1
    refine countP_congr fun i hi => ?_
    rw [mem_range] at hi
    split_ifs with h
    · rw [decide_eq_true h, BitVec.getMsbD_and, Bool.and_comm, beq_true]
    · rw [decide_eq_false h, BitVec.getMsbD_and, BitVec.getMsbD_not,
        decide_eq_true hi, Bool.true_and, Bool.and_comm, beq_false]

end Apple.CF.BitVector
