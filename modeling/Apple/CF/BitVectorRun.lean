import Mathlib.Data.List.GetD
import Apple.CF.BitVector

/-!
# `CFBitVector` is a list of bits

The calls of `CFBitVector`, on ranges of the bits there are, against the same calls on a list.
Bits past the count keep whatever they were when the count was larger; they are not part of the
list, and growing the count again makes them 0.

Results: `step_refines` for one call, `bitVector_refines` for a whole run. Equality compares whole
buckets, unused bits included: `bitVectorEqual_iff`.
-/

namespace Apple.CF.BitVector

open List Option

/-! ## The calls, and what they are for -/

/-- A call. -/
inductive Op
  | setCount (count : ℕ) (fresh : ℕ → Bucket)
  | setBitAtIndex (idx : ℕ) (value : UInt32)
  | setBits (location length : ℕ) (value : UInt32)
  | flipBitAtIndex (idx : ℕ)
  | flipBits (location length : ℕ)
  | setAllBits (value : UInt32)
  | getBitAtIndex (idx : ℕ)
  | getCountOfBit (location length : ℕ) (value : UInt32)
  | containsBit (location length : ℕ) (value : UInt32)

/-- What a call answers. -/
inductive Answer
  | done
  | bit (value : ℕ)
  | count (n : ℕ)
  | contains (found : Bool)
  deriving DecidableEq

/-- A call on a bit vector. -/
def step (bv : CFBitVector) : Op → Option (CFBitVector × Answer)
  | .setCount count fresh => (setCount bv count fresh).map (·, .done)
  | .setBitAtIndex idx value => (setBitAtIndex bv idx value).map (·, .done)
  | .setBits location length value => (setBits bv location length value).map (·, .done)
  | .flipBitAtIndex idx => (flipBitAtIndex bv idx).map (·, .done)
  | .flipBits location length => (flipBits bv location length).map (·, .done)
  | .setAllBits value => (setAllBits bv value).map (·, .done)
  | .getBitAtIndex idx => (getBitAtIndex bv idx).map (bv, .bit ·)
  | .getCountOfBit location length value =>
    (getCountOfBit bv location length value).map fun r => (r.1, .count r.2)
  | .containsBit location length value =>
    (containsBit bv location length value).map fun r => (r.1, .contains r.2)

/-- Calls one after another, with their answers. -/
def run (bv : CFBitVector) : List Op → Option (CFBitVector × List Answer)
  | [] => some (bv, [])
  | op :: ops => do
    let (bv, answer) ← step bv op
    let (bv, answers) ← run bv ops
    some (bv, answer :: answers)

/-- `f` applied to a range of a list. -/
def mapRange (f : Bool → Bool) (location length : ℕ) (l : List Bool) : List Bool :=
  l.take location ++ (((l.drop location).take length).map f ++ l.drop (location + length))

/-- A call on a list of bits. -/
def listStep (l : List Bool) : Op → List Bool × Answer
  | .setCount count _ => (l.take count ++ List.replicate (count - l.length) false, .done)
  | .setBitAtIndex idx value => (l.set idx (value ≠ 0), .done)
  | .setBits location length value =>
    (mapRange (fun _ => decide (value ≠ 0)) location length l, .done)
  | .flipBitAtIndex idx => (l.modify idx (fun v => !v), .done)
  | .flipBits location length => (mapRange (fun v => !v) location length l, .done)
  | .setAllBits value => (List.replicate l.length (decide (value ≠ 0)), .done)
  | .getBitAtIndex idx => (l, .bit (l.getD idx false).toNat)
  | .getCountOfBit location length value =>
    (l, .count (((l.drop location).take length).count (decide (value ≠ 0))))
  | .containsBit location length value =>
    (l, .contains (((l.drop location).take length).contains (decide (value ≠ 0))))

/-- Calls on a list of bits. -/
def listRun (l : List Bool) : List Op → List Bool × List Answer
  | [] => (l, [])
  | op :: ops =>
    let r := listStep l op
    let rest := listRun r.1 ops
    (rest.1, r.2 :: rest.2)

/-- The arguments are in the range of `n` bits. -/
def InRange (n : ℕ) : Op → Prop
  | .setCount _ _ => True
  | .setBitAtIndex idx _ => idx < n
  | .setBits location length _ => location + length ≤ n
  | .flipBitAtIndex idx => idx < n
  | .flipBits location length => location + length ≤ n
  | .setAllBits _ => True
  | .getBitAtIndex idx => idx < n
  | .getCountOfBit location length _ => location + length ≤ n
  | .containsBit location length _ => location + length ≤ n

instance decidableInRange (n : ℕ) : (op : Op) → Decidable (InRange n op)
  | .setCount _ _ => isTrue trivial
  | .setBitAtIndex idx _ => Nat.decLt idx n
  | .setBits location length _ => Nat.decLe (location + length) n
  | .flipBitAtIndex idx => Nat.decLt idx n
  | .flipBits location length => Nat.decLe (location + length) n
  | .setAllBits _ => isTrue trivial
  | .getBitAtIndex idx => Nat.decLt idx n
  | .getCountOfBit location length _ => Nat.decLe (location + length) n
  | .containsBit location length _ => Nat.decLe (location + length) n

/-- The arguments of every call are in range when it is made. -/
def AllInRange : List Bool → List Op → Prop
  | _, [] => True
  | l, op :: ops => InRange l.length op ∧ AllInRange (listStep l op).1 ops

instance decidableAllInRange : (l : List Bool) → (ops : List Op) → Decidable (AllInRange l ops)
  | _, [] => isTrue trivial
  | l, op :: ops => @instDecidableAnd _ _ _ (decidableAllInRange (listStep l op).1 ops)

/-! ## The bits of a bit vector -/

/-- The bits up to the count. -/
def contents (bv : CFBitVector) : List Bool := (List.range bv.count).map (bit bv.buckets)

/-- The invariant of a bit vector. -/
structure Wf (bv : CFBitVector) : Prop where
  length : bv.buckets.length = numBuckets bv.capacity
  count_le : bv.count ≤ bv.capacity

theorem length_contents (bv : CFBitVector) : (contents bv).length = bv.count := by
  rw [contents, length_map, length_range]

variable {bv : CFBitVector} {f : Bool → Bool} {length location idx : ℕ}

theorem Wf.lt_bits (hw : Wf bv) : bv.count < 8 * bv.buckets.length := by
  have hle := hw.count_le
  rw [hw.length, numBuckets]
  omega

theorem Wf.bucket (hw : Wf bv) (h : idx < bv.count) : ∃ val, bv.buckets[idx / 8]? = some val := by
  have hlt := hw.lt_bits
  exact ⟨_, getElem?_eq_getElem (by omega)⟩

theorem le_roundUpCapacity (n : ℕ) : n ≤ roundUpCapacity n := by
  unfold roundUpCapacity
  by_cases h : 0 = n
  · rw [← h]
    exact zero_le
  · simp only [if_neg h]
    omega

theorem range_split (location length n : ℕ) (h : location + length ≤ n) :
    List.range n = List.range location ++ (List.range' location length ++
      List.range' (location + length) (n - (location + length))) := by
  rw [range_eq_range', range_eq_range', range'_append_1]
  have happ := range'_append_1 (s := 0) (m := location)
    (n := length + (n - (location + length)))
  rw [zero_add] at happ
  rw [happ]
  congr 1
  omega

theorem mapRange_append (f : Bool → Bool) (a b c : List Bool) :
    mapRange f a.length b.length (a ++ (b ++ c)) = a ++ (b.map f ++ c) := by
  have hdrop : (a ++ (b ++ c)).drop (a.length + b.length) = c := by
    rw [← append_assoc, ← length_append, drop_left]
  rw [mapRange, take_left, drop_left, take_left, hdrop]

theorem map_range_eq_mapRange {g g' : ℕ → Bool} {n : ℕ}
    (h : location + length ≤ n) (hg : ∀ i, g' i =
      if location ≤ i ∧ i < location + length then f (g i) else g i) :
    (List.range n).map g' = mapRange f location length ((List.range n).map g) := by
  have hspec := mapRange_append f ((List.range location).map g)
    ((List.range' location length).map g)
    ((List.range' (location + length) (n - (location + length))).map g)
  rw [length_map, length_map, length_range, length_range'] at hspec
  rw [range_split _ _ _ h, map_append, map_append, map_append, map_append, hspec,
    List.map_map]
  congr 1
  · refine map_congr_left fun i hi => ?_
    rw [mem_range] at hi
    rw [hg, if_neg (by omega)]
  · congr 1
    · refine map_congr_left fun i hi => ?_
      rw [mem_range'_1] at hi
      rw [hg, if_pos (by omega), Function.comp_apply]
    · refine map_congr_left fun i hi => ?_
      rw [mem_range'_1] at hi
      rw [hg, if_neg (by omega)]

theorem drop_take_contents (h : location + length ≤ bv.count) :
    ((contents bv).drop location).take length =
      (List.range' location length).map (bit bv.buckets) := by
  have ha : ((List.range location).map (bit bv.buckets)).length = location := by simp
  have hb : ((List.range' location length).map (bit bv.buckets)).length = length := by simp
  rw [contents, range_split _ _ _ h, map_append, map_append, drop_left' ha,
    take_left' hb]

/-- What a map does to a bit vector. -/
theorem map_spec {mapper : Mapper} {p : Bool → Bool} (hm : Maps mapper f p)
    (hw : Wf bv) (h : location + length ≤ bv.count) : ∃ bv', bv.map mapper location length =
        some (bv', ((List.range' location length).map (bit bv.buckets)).countP p) ∧
      Wf bv' ∧ bv'.count = bv.count ∧ contents bv' = mapRange f location length (contents bv) := by
  have hlt := hw.lt_bits
  obtain ⟨⟨buckets, count⟩, hs, hmapped⟩ := internalMap_spec hm location length
    (s := (bv.buckets, 0)) (show location + length ≤ 8 * bv.buckets.length by omega)
  have hcount := hmapped.count
  rw [zero_add, show location + length - location = length by omega] at hcount
  refine ⟨{ bv with buckets := buckets }, ?_, ⟨?_, hw.count_le⟩, rfl, ?_⟩
  · rw [CFBitVector.map, hs]
    exact congrArg (fun n => some (_, n)) hcount
  · exact hmapped.length.trans hw.length
  · exact map_range_eq_mapRange h hmapped.bits

/-! ## The calls -/

theorem mapRange_zero (f : Bool → Bool) (location : ℕ) (l : List Bool) :
    mapRange f location 0 l = l := by
  rw [mapRange, take_zero, map_nil, nil_append, add_zero, take_append_drop]

theorem mapRange_id (location length : ℕ) (l : List Bool) :
    mapRange (fun v => v) location length l = l := by
  rw [mapRange, List.map_id', ← drop_drop, take_append_drop, take_append_drop]

section

variable (hw : Wf bv)
include hw

variable (value : UInt32)

variable (h : location + length ≤ bv.count)

include h in
theorem setBits_spec : ∃ bv', setBits bv location length value = some bv' ∧ Wf bv' ∧
      contents bv' = mapRange (fun _ => decide (value ≠ 0)) location length (contents bv) := by
  unfold setBits
  by_cases h0 : 0 = length
  · exact ⟨bv, if_pos h0, hw, by rw [← h0, mapRange_zero]⟩
  · obtain ⟨bv', hmap, hw', -, hcont⟩ := map_spec (maps_fillBits value) hw h
    exact ⟨bv', by rw [if_neg h0, hmap]; rfl, hw', hcont⟩

include h in
theorem flipBits_spec : ∃ bv', flipBits bv location length = some bv' ∧ Wf bv' ∧
      contents bv' = mapRange (fun v => !v) location length (contents bv) := by
  unfold flipBits
  by_cases h0 : 0 = length
  · exact ⟨bv, if_pos h0, hw, by rw [← h0, mapRange_zero]⟩
  · obtain ⟨bv', hmap, hw', -, hcont⟩ := map_spec maps_flipBits hw h
    exact ⟨bv', by rw [if_neg h0, hmap]; rfl, hw', hcont⟩

include h in
theorem getCountOfBit_spec : ∃ bv', getCountOfBit bv location length value = some (bv',
        (((contents bv).drop location).take length).count (decide (value ≠ 0))) ∧ Wf bv' ∧
      contents bv' = contents bv := by
  unfold getCountOfBit
  rw [drop_take_contents h]
  by_cases h0 : 0 = length
  · refine ⟨bv, ?_, hw, rfl⟩
    rw [← h0]
    rfl
  · obtain ⟨bv', hmap, hw', -, hcont⟩ := map_spec (maps_countBits value) hw h
    exact ⟨bv', by rw [if_neg h0, hmap]; rfl, hw', hcont.trans (mapRange_id _ _ _)⟩

include h in
theorem containsBit_spec : ∃ bv', containsBit bv location length value = some (bv',
        (((contents bv).drop location).take length).contains (decide (value ≠ 0))) ∧ Wf bv' ∧
      contents bv' = contents bv := by
  obtain ⟨bv', hget, hw', hcont⟩ := getCountOfBit_spec hw value h
  refine ⟨bv', ?_, hw', hcont⟩
  rw [containsBit, hget, map_some]
  congr 2
  rw [Bool.eq_iff_iff, bne_iff_ne, ← Nat.pos_iff_ne_zero, count_pos_iff,
    contains_iff_mem]

/-- A bucket with one bit changed. -/
theorem contents_set (h : idx < bv.count) {val : Bucket} (new : Bucket)
    (hval : bv.buckets[idx / 8]? = some val)
    (hnew : ∀ i < 8, new.getMsbD i = if i = idx % 8 then f (val.getMsbD i) else val.getMsbD i) :
    Wf { bv with buckets := bv.buckets.set (idx / 8) new } ∧
      contents { bv with buckets := bv.buckets.set (idx / 8) new } =
        (contents bv).modify idx f := by
  have hlt := hw.lt_bits
  refine ⟨⟨by rw [length_set, hw.length], hw.count_le⟩, ?_⟩
  refine ext_getElem (by simp [contents]) fun i hi hi' => ?_
  rw [getElem_modify]
  simp only [contents, getElem_map, getElem_range]
  rw [bit_set (by omega)]
  have hmod : i % 8 < 8 := Nat.mod_lt _ (by norm_num)
  by_cases hb : i / 8 = idx / 8
  · have hold : bit bv.buckets i = val.getMsbD (i % 8) := by
      rw [show i = 8 * (idx / 8) + i % 8 by omega, bit_eq hval (by omega)]
      congr 1
      omega
    rw [if_pos hb, hnew _ hmod, hold]
    exact if_congr (by omega) rfl rfl
  · rw [if_neg hb, if_neg (by rintro rfl; exact hb rfl)]

theorem setBitAtIndex_spec (h : idx < bv.count) :
    ∃ bv', setBitAtIndex bv idx value = some bv' ∧ Wf bv' ∧
      contents bv' = (contents bv).set idx (decide (value ≠ 0)) := by
  obtain ⟨val, hval⟩ := hw.bucket h
  have hmod : idx % 8 < 8 := Nat.mod_lt _ (by norm_num)
  obtain ⟨hw', hcont⟩ := contents_set hw h (f := fun _ => decide (value ≠ 0))
    (if value ≠ 0 then val ||| (1 : Bucket) <<< (8 - 1 - idx % 8)
      else val &&& ~~~((1 : Bucket) <<< (8 - 1 - idx % 8))) hval fun i hi => by
      by_cases hv : value ≠ 0
      · rw [if_pos hv, BitVec.getMsbD_or, getMsbD_one_shiftLeft _ hmod i hi]
        by_cases hik : i = idx % 8
        · simp [hik, hv]
        · simp [hik]
      · rw [if_neg hv, BitVec.getMsbD_and, BitVec.getMsbD_not,
          getMsbD_one_shiftLeft _ hmod i hi]
        by_cases hik : i = idx % 8
        · simp [hik, hv]
        · simp [hik, hi]
  refine ⟨_, ?_, hw', ?_⟩
  · rw [setBitAtIndex, setBitVectorBit, hval, and_seven]
    rfl
  · rw [hcont, set_eq_modify]

theorem flipBitAtIndex_spec (h : idx < bv.count) :
    ∃ bv', flipBitAtIndex bv idx = some bv' ∧ Wf bv' ∧
      contents bv' = (contents bv).modify idx (fun v => !v) := by
  obtain ⟨val, hval⟩ := hw.bucket h
  have hmod : idx % 8 < 8 := Nat.mod_lt _ (by norm_num)
  obtain ⟨hw', hcont⟩ := contents_set hw h (f := fun v => !v)
    (val ^^^ (1 : Bucket) <<< (8 - 1 - idx % 8)) hval fun i hi => by
      rw [BitVec.getMsbD_xor, getMsbD_one_shiftLeft _ hmod i hi]
      by_cases hik : i = idx % 8
      · simp [hik]
      · simp [hik]
  refine ⟨_, ?_, hw', hcont⟩
  rw [flipBitAtIndex, flipBitVectorBit, hval, and_seven]
  rfl

theorem getBitAtIndex_spec (h : idx < bv.count) :
    getBitAtIndex bv idx = some ((contents bv).getD idx false).toNat := by
  obtain ⟨val, hval⟩ := hw.bucket h
  have hread : ∀ val : Bucket, ∀ k < 8,
      ((val >>> (8 - 1 - k)) &&& 1).toNat = (val.getMsbD k).toNat := by
    decide +kernel
  have hbit : (contents bv).getD idx false = val.getMsbD (idx % 8) := by
    have hlen : idx < (contents bv).length := by
      rw [length_contents]
      exact h
    rw [getD_eq_getElem _ _ hlen]
    simp only [contents, getElem_map, getElem_range]
    rw [bit, getD_eq_getElem?_getD, hval, getD_some]
  rw [getBitAtIndex, bitVectorBit, hval, and_seven, hbit]
  exact congrArg some (hread _ _ (Nat.mod_lt _ (by norm_num)))

/-- Memory that is reallocated keeps its bits as far as it goes. -/
theorem grow_spec (n : ℕ) (fresh : ℕ → Bucket) :
    (grow bv n fresh).buckets.length = numBuckets (roundUpCapacity (bv.count + n)) ∧
      ∀ idx < bv.count, bit (grow bv n fresh).buckets idx = bit bv.buckets idx := by
  have hlt := hw.lt_bits
  have hle := le_roundUpCapacity (bv.count + n)
  refine ⟨?_, fun idx hidx => ?_⟩
  · simp only [grow, length_append, length_take, length_map, length_range]
    omega
  · have hbucket : idx / 8 < numBuckets (roundUpCapacity (bv.count + n)) := by
      rw [numBuckets]
      omega
    have htake : idx / 8 < (bv.buckets.take
        (numBuckets (roundUpCapacity (bv.count + n)))).length := by
      rw [length_take]
      omega
    simp only [bit, grow, getD_eq_getElem?_getD]
    rw [getElem?_append_left htake, getElem?_take_of_lt hbucket]

theorem setCount_spec (count : ℕ) (fresh : ℕ → Bucket) :
    ∃ bv', setCount bv count fresh = some bv' ∧ Wf bv' ∧ contents bv' =
        (contents bv).take count ++ List.replicate (count - (contents bv).length) false := by
  unfold setCount
  rw [length_contents]
  by_cases hgrow : bv.count < count
  · obtain ⟨hlen, hbits⟩ := grow_spec hw (count - bv.count) fresh
    have hle := le_roundUpCapacity (bv.count + (count - bv.count))
    obtain ⟨⟨buckets, total⟩, hs, hmapped⟩ := internalMap_spec maps_zeroBits bv.count
      (count - bv.count) (s := ((grow bv (count - bv.count) fresh).buckets, 0)) (by
        rw [hlen, numBuckets]
        omega)
    refine ⟨⟨count, roundUpCapacity (bv.count + (count - bv.count)), buckets⟩, ?_,
      ⟨hmapped.length.trans hlen, show count ≤ roundUpCapacity _ by omega⟩, ?_⟩
    · rw [if_pos hgrow, CFBitVector.map, hs]
      rfl
    · have hsplit := range_split bv.count (count - bv.count) count (by omega)
      rw [show count - (bv.count + (count - bv.count)) = 0 by omega, range'_zero,
        append_nil] at hsplit
      rw [take_of_length_le (by rw [length_contents]; omega), contents, hsplit,
        map_append]
      congr 1
      · refine map_congr_left fun i hi => ?_
        rw [mem_range] at hi
        rw [hmapped.bits, if_neg (by omega), hbits i hi]
      · refine eq_replicate_iff.mpr ⟨by simp, fun v hv => ?_⟩
        obtain ⟨i, hi, rfl⟩ := List.mem_map.mp hv
        rw [mem_range'_1] at hi
        rw [hmapped.bits, if_pos (by omega)]
  · have hle := hw.count_le
    refine ⟨_, if_neg hgrow, ⟨hw.length, show count ≤ bv.capacity by omega⟩, ?_⟩
    rw [show count - bv.count = 0 by omega, replicate_zero, append_nil, contents,
      contents, ← map_take, take_range, min_eq_left (not_lt.mp hgrow)]

omit hw in
/-- The `memset` of `CFBitVectorSetAllBits`. -/
theorem bit_fill (n : ℕ) (buckets : List Bucket) (v : Bool) (idx : ℕ) :
    bit (List.replicate n (if v then ~~~0 else 0) ++ buckets.drop n) idx =
      if idx < 8 * n then v else bit buckets idx := by
  have hmod : idx % 8 < 8 := Nat.mod_lt _ (by norm_num)
  unfold bit
  by_cases hidx : idx < 8 * n
  · rw [if_pos hidx, getD_eq_getElem?_getD,
      getElem?_append_left (by rw [length_replicate]; omega),
      getElem?_replicate_of_lt (by omega)]
    cases v with
    | false => simp
    | true => exact getMsbD_ones _ hmod
  · rw [if_neg hidx, getD_eq_getElem?_getD, getD_eq_getElem?_getD,
      getElem?_append_right (by rw [length_replicate]; omega), getElem?_drop,
      length_replicate, show n + (idx / 8 - n) = idx / 8 by omega]

theorem setLeftover_spec : ∃ bv', setLeftover bv value = some bv' ∧ Wf bv' ∧ bv'.count = bv.count ∧
      ∀ idx, bv.count / 8 * 8 ≤ idx → idx < bv.count →
        bit bv'.buckets idx = decide (value ≠ 0) := by
  have hlt := hw.lt_bits
  unfold setLeftover
  by_cases hrest : 0 < bv.count - bv.count / 8 * 8
  · obtain ⟨s', hs, hmapped⟩ := internalMap_spec (maps_fillBits value) (bv.count / 8 * 8)
      (bv.count - bv.count / 8 * 8) (s := (bv.buckets, 0))
      (show _ ≤ 8 * bv.buckets.length by omega)
    refine ⟨{ bv with buckets := s'.1 }, ?_,
      ⟨hmapped.length.trans hw.length, hw.count_le⟩, rfl, fun idx h h' => ?_⟩
    · simp only [if_pos hrest, CFBitVector.map, hs]
      rfl
    · exact (hmapped.bits idx).trans (if_pos (by omega))
  · exact ⟨bv, if_neg hrest, hw, rfl, fun idx h h' => by omega⟩

theorem setAllBits_spec : ∃ bv', setAllBits bv value = some bv' ∧ Wf bv' ∧
      contents bv' = List.replicate (contents bv).length (decide (value ≠ 0)) := by
  obtain ⟨bv₁, hfirst, hw₁, hcount, hbits⟩ := setLeftover_spec hw value
  have hroom : bv.count / 8 ≤ bv₁.buckets.length := by
    have hlt₁ := hw₁.lt_bits
    omega
  refine ⟨{ bv₁ with
      buckets := List.replicate (bv.count / 8) (if value ≠ 0 then ~~~0 else 0) ++
        bv₁.buckets.drop (bv.count / 8) }, ?_, ⟨?_, hw₁.count_le⟩, ?_⟩
  · unfold setAllBits
    simp [hfirst, if_pos hroom]
  · rw [length_append, length_replicate, length_drop, Nat.add_sub_cancel' hroom,
      hw₁.length]
  · refine eq_replicate_iff.mpr ⟨by rw [length_contents, length_contents]; exact hcount,
      fun v hv => ?_⟩
    obtain ⟨i, hi, rfl⟩ := List.mem_map.mp hv
    rw [mem_range] at hi
    have hfill := bit_fill (bv.count / 8) bv₁.buckets (decide (value ≠ 0)) i
    simp only [decide_eq_true_eq] at hfill
    rw [hfill]
    by_cases hin : i < 8 * (bv.count / 8)
    · rw [if_pos hin]
    · rw [if_neg hin]
      exact hbits i (by omega) (hcount ▸ hi)

/-! ## Runs -/

/-- **One call** in range does what it does on the list. -/
theorem step_refines {op : Op} (h : InRange bv.count op) :
    ∃ bv', step bv op = some (bv', (listStep (contents bv) op).2) ∧ Wf bv' ∧
      contents bv' = (listStep (contents bv) op).1 := by
  have hdone : ∀ {o : Option CFBitVector} {l : List Bool},
      (∃ bv', o = some bv' ∧ Wf bv' ∧ contents bv' = l) →
      ∃ bv', o.map (·, Answer.done) = some (bv', .done) ∧ Wf bv' ∧ contents bv' = l := by
    rintro o l ⟨bv', rfl, hw', hcont⟩
    exact ⟨bv', rfl, hw', hcont⟩
  cases op with
  | setCount count fresh => exact hdone (setCount_spec hw count fresh)
  | setBitAtIndex idx value => exact hdone (setBitAtIndex_spec hw value h)
  | setBits location length value => exact hdone (setBits_spec hw value h)
  | flipBitAtIndex idx => exact hdone (flipBitAtIndex_spec hw h)
  | flipBits location length => exact hdone (flipBits_spec hw h)
  | setAllBits value => exact hdone (setAllBits_spec hw value)
  | getBitAtIndex idx => exact ⟨bv, by rw [step, getBitAtIndex_spec hw h]; rfl, hw, rfl⟩
  | getCountOfBit location length value =>
    obtain ⟨bv', hget, hw', hcont⟩ := getCountOfBit_spec hw value h
    exact ⟨bv', by rw [step, hget]; rfl, hw', hcont⟩
  | containsBit location length value =>
    obtain ⟨bv', hget, hw', hcont⟩ := containsBit_spec hw value h
    exact ⟨bv', by rw [step, hget]; rfl, hw', hcont⟩

end

theorem run_refines (ops : List Op) (hw : Wf bv) (h : AllInRange (contents bv) ops) :
    ∃ bv', run bv ops = some (bv', (listRun (contents bv) ops).2) ∧ Wf bv' ∧
      contents bv' = (listRun (contents bv) ops).1 := by
  induction ops generalizing bv with
  | nil => exact ⟨bv, rfl, hw, rfl⟩
  | cons op ops ih =>
    obtain ⟨hop, hops⟩ := h
    rw [length_contents] at hop
    obtain ⟨bv₁, hstep, hw₁, hcont₁⟩ := step_refines hw hop
    rw [← hcont₁] at hops
    obtain ⟨bv', hrun, hw', hcont'⟩ := ih hw₁ hops
    refine ⟨bv', ?_, hw', ?_⟩
    · rw [run, hstep]
      simp [hrun, listRun, hcont₁]
    · rw [hcont', hcont₁, listRun]

/-- The bits that `__CFBitVectorInit` is given. -/
def initialBits (bytes : Option (List Bucket)) (numBits : ℕ) : List Bool :=
  (List.range numBits).map (bit (bytes.getD []))

/-- There are bytes for all the bits, if there are any. -/
def Enough (bytes : Option (List Bucket)) (numBits : ℕ) : Prop :=
  ∀ bs, bytes = some bs → numBits ≤ 8 * bs.length

theorem init_spec {bytes : Option (List Bucket)} {numBits : ℕ} (h : Enough bytes numBits) :
    ∃ bv, init bytes numBits = some bv ∧ Wf bv ∧ contents bv = initialBits bytes numBits := by
  have hle := le_roundUpCapacity numBits
  cases bytes with
  | none =>
    refine ⟨_, rfl, ⟨length_replicate, hle⟩, ?_⟩
    refine map_congr_left fun i hi => ?_
    rw [bit, bit, getD_none, getD_eq_getElem?_getD,
      getElem?_replicate]
    split_ifs <;> rfl
  | some bs =>
    have hbs := h bs rfl
    have hn : numBits / 8 + (if numBits &&& 7 ≠ 0 then 1 else 0) = (numBits + 7) / 8 := by
      rw [and_seven]
      split_ifs <;> omega
    refine ⟨⟨numBits, roundUpCapacity numBits, bs.take ((numBits + 7) / 8) ++
      (List.replicate (numBuckets (roundUpCapacity numBits)) 0).drop ((numBits + 7) / 8)⟩, ?_,
      ⟨?_, hle⟩, ?_⟩
    · simp only [init, hn]
      exact if_pos (by omega)
    · rw [length_append, length_take, length_drop, length_replicate,
        numBuckets]
      omega
    · refine map_congr_left fun i hi => ?_
      have hi' : i < numBits := mem_range.mp hi
      rw [bit, bit, getD_some, getD_eq_getElem?_getD, getD_eq_getElem?_getD,
        getElem?_append_left (by rw [length_take]; omega),
        getElem?_take_of_lt (by omega)]

/-- **A bit vector is a list of bits.** Calls in range on a new bit vector have the answers they
have on a list of bits, and leave the bits of that list. -/
theorem bitVector_refines (bytes : Option (List Bucket)) (numBits : ℕ)
    (henough : Enough bytes numBits) (ops : List Op)
    (hrange : AllInRange (initialBits bytes numBits) ops) : ∃ bv bv', init bytes numBits = some bv ∧
      run bv ops = some (bv', (listRun (initialBits bytes numBits) ops).2) ∧
      contents bv' = (listRun (initialBits bytes numBits) ops).1 := by
  obtain ⟨bv, hinit, hw, hcont⟩ := init_spec henough
  rw [← hcont] at hrange ⊢
  obtain ⟨bv', hrun, -, hcont'⟩ := run_refines ops hw hrange
  exact ⟨bv, bv', hinit, hrun, hcont'⟩

/-- Bits that a shorter count left behind are 0 when the count grows again. -/
theorem bitVector_refines_regrown : ∃ bv bv', init none 0 = some bv ∧
      run bv [.setCount 20 (fun _ => 0xFF), .setBits 3 14 1, .setCount 5 (fun _ => 0),
        .setCount 12 (fun _ => 0xAA), .flipBitAtIndex 0, .getCountOfBit 0 12 1] =
        some (bv', [.done, .done, .done, .done, .done, .count 3]) := by
  obtain ⟨bv, bv', hinit, hrun, -⟩ := bitVector_refines none 0 (fun _ h => by cases h)
    [.setCount 20 (fun _ => 0xFF), .setBits 3 14 1, .setCount 5 (fun _ => 0),
      .setCount 12 (fun _ => 0xAA), .flipBitAtIndex 0, .getCountOfBit 0 12 1] (by decide)
  exact ⟨bv, bv', hinit, hrun.trans rfl⟩

/-! ## Equality -/

/-- The loop of `__CFBitVectorEqual` (lines 154–158), for the `n` buckets from `idx` on. -/
def equalLoop (buckets1 buckets2 : List Bucket) (idx : ℕ) : ℕ → Option Bool
  | 0 => some true
  | n + 1 => do
    let val1 ← buckets1[idx]?
    let val2 ← buckets2[idx]?
    if val1 ≠ val2 then some false else equalLoop buckets1 buckets2 (idx + 1) n

/-- `__CFBitVectorEqual` (lines 147–160). -/
def bitVectorEqual (bv1 bv2 : CFBitVector) : Option Bool :=
  let cnt := bv1.count
  if cnt ≠ bv2.count then some false
  else if 0 = cnt then some true
  else equalLoop bv1.buckets bv2.buckets 0 (cnt / 8 + 1)

/-- The bit vectors that calls in range make of a new one. -/
def Reached (bv : CFBitVector) : Prop :=
  ∃ bytes numBits ops new answers, Enough bytes numBits ∧
    AllInRange (initialBits bytes numBits) ops ∧ init bytes numBits = some new ∧
    run new ops = some (bv, answers)

theorem Reached.wf (h : Reached bv) : Wf bv := by
  obtain ⟨bytes, numBits, ops, new, answers, henough, hrange, hinit, hrun⟩ := h
  obtain ⟨bv₀, hbv₀, hw, hcont⟩ := init_spec henough
  obtain rfl : bv₀ = new := some.inj (hbv₀.symm.trans hinit)
  obtain ⟨bv', hrun', hw', -⟩ := run_refines ops hw (hcont ▸ hrange)
  rw [hrun, some.injEq, Prod.mk.injEq] at hrun'
  exact hrun'.1 ▸ hw'

theorem equalLoop_spec {a b : List Bucket} {n : ℕ} (ha : idx + n ≤ a.length)
    (hb : idx + n ≤ b.length) : ∃ r, equalLoop a b idx n = some r ∧
      (r = true ↔ ∀ i, 8 * idx ≤ i → i < 8 * (idx + n) → bit a i = bit b i) := by
  induction n generalizing idx with
  | zero => exact ⟨true, rfl, iff_of_true rfl fun i _ _ => by omega⟩
  | succ n ih =>
    have ha₁ : a[idx]? = some a[idx] := getElem?_eq_getElem (by omega)
    have hb₁ : b[idx]? = some b[idx] := getElem?_eq_getElem (by omega)
    obtain ⟨r, hr, hiff⟩ := @ih (idx + 1) (by omega) (by omega)
    by_cases heq : a[idx] = b[idx]
    · refine ⟨r, ?_, hiff.trans ⟨fun h i _ hi => ?_, fun h i hlo hi => h i (by omega) (by omega)⟩⟩
      · simp [equalLoop, ha₁, hb₁, heq, hr]
      · by_cases hlo : 8 * (idx + 1) ≤ i
        · exact h i hlo (by omega)
        · obtain ⟨k, rfl⟩ : ∃ k, i = 8 * idx + k := ⟨i - 8 * idx, by omega⟩
          rw [bit_eq ha₁ (by omega), bit_eq hb₁ (by omega), heq]
    · refine ⟨false, by simp [equalLoop, ha₁, hb₁, heq], iff_of_false Bool.false_ne_true ?_⟩
      refine fun h => heq (BitVec.eq_of_getMsbD_eq fun k hk => ?_)
      rw [← bit_eq ha₁ hk, ← bit_eq hb₁ hk]
      exact h _ (by omega) (by omega)

/-- **Equality of bit vectors.** It is equality of the bits below the counts if and only if, for
vectors with the same bits, the last bucket that is compared has the same unused bits. -/
theorem bitVectorEqual_iff {bv1 bv2 : CFBitVector} (h1 : Reached bv1) (h2 : Reached bv2) :
    ∃ answer, bitVectorEqual bv1 bv2 = some answer ∧
      ((answer = true ↔ contents bv1 = contents bv2) ↔
        (contents bv1 = contents bv2 → bv1.count ≠ 0 → ∀ i, bv1.count ≤ i →
          i < 8 * (bv1.count / 8 + 1) → bit bv1.buckets i = bit bv2.buckets i)) := by
  have hlt1 := h1.wf.lt_bits
  have hlt2 := h2.wf.lt_bits
  unfold bitVectorEqual
  by_cases hcount : bv1.count = bv2.count
  · have hcont : contents bv1 = contents bv2 ↔
        ∀ i < bv1.count, bit bv1.buckets i = bit bv2.buckets i := by
      rw [contents, contents, ← hcount, map_inj_left]
      simp only [mem_range]
    by_cases h0 : 0 = bv1.count
    · refine ⟨true, by simp [← hcount, ← h0], iff_of_true (iff_of_true rfl (hcont.mpr ?_)) ?_⟩
      · omega
      · exact fun _ hne => absurd h0.symm hne
    · obtain ⟨r, hr, hiff⟩ := equalLoop_spec (n := bv1.count / 8 + 1)
        (show 0 + _ ≤ bv1.buckets.length by omega) (show _ ≤ bv2.buckets.length by omega)
      refine ⟨r, by simp [← hcount, h0, hr], ?_⟩
      rw [hiff, hcont]
      constructor
      · exact fun h hsame _ i _ hi => h.mpr hsame i (by omega) (by omega)
      · refine fun h => ⟨fun hall i hi => hall i (by omega) (by omega), fun hsame i _ hi => ?_⟩
        by_cases hlo : i < bv1.count
        · exact hsame i hlo
        · exact h hsame (Ne.symm h0) i (by omega) (by omega)
  · have hne : contents bv1 ≠ contents bv2 := fun h => hcount (by
      rw [← length_contents, h, length_contents])
    exact ⟨false, if_pos hcount, iff_of_true (iff_of_false Bool.false_ne_true hne)
      fun h => absurd h hne⟩

/-- The bit vector of one bit that is created from `byte`. -/
def oneBit (byte : Bucket) : CFBitVector := ⟨1, 64, byte :: List.replicate 8 0⟩

theorem reached_oneBit (byte : Bucket) : Reached (oneBit byte) :=
  ⟨some [byte], 1, [], _, [], fun _ h => by cases h; exact Nat.le_add_left 1 7, trivial, rfl, rfl⟩

theorem bitVectorEqual_oneBit : ∃ answer, bitVectorEqual (oneBit 0x80) (oneBit 0x80) = some answer ∧
    (answer = true ↔ contents (oneBit 0x80) = contents (oneBit 0x80)) := by
  obtain ⟨answer, h, hiff⟩ := bitVectorEqual_iff (reached_oneBit 0x80) (reached_oneBit 0x80)
  exact ⟨answer, h, hiff.mpr fun _ _ _ _ _ => rfl⟩

theorem bitVectorEqual_unused : Reached (oneBit 0x80) ∧ Reached (oneBit 0xFF) ∧
    contents (oneBit 0x80) = contents (oneBit 0xFF) ∧
    bitVectorEqual (oneBit 0x80) (oneBit 0xFF) = some false :=
  ⟨reached_oneBit _, reached_oneBit _, rfl, rfl⟩

end Apple.CF.BitVector
