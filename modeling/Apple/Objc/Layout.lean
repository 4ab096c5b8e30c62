import Mathlib.Data.Nat.Bitwise
import Mathlib.Data.List.Basic
import Mathlib.Data.List.Range
import Mathlib.Tactic

/-!
# Ivar layout strings

`objc4-750/runtime/objc-layout.mm`. A layout bitmap has one bit for each word of
an instance. `compress_layout` codes it as a string of nibble pairs: the high
nibble skips words, the low nibble scans words, a zero byte ends the string. Two
bitmaps are coded as `NULL`: the weak one with no bit set and the strong one with
every bit set. `decompress_layout` and `layout_bitmap_create` go the other way.

The output buffer of `compress_layout` is modelled with its length, so that a
write past its end is a fault, and the string that is returned is what `strdup`
copies: the bytes before the first zero.

Results:
* `layoutBuffer_spec`: the loop of `compress_layout` stays inside its
  `bitmap_bits + 1` bytes, writes no zero before the terminator, and the nibbles it
  writes spell the bits of the bitmap.
* `decompressLayout_spec`: `decompress_layout` sets the bits that the nibbles spell.
* `layoutString_roundTrip`: bitmap to string to bitmap to string.
-/

namespace Apple.Objc.Layout

open List

/-! ## Model -/

/-- How a layout function can go wrong: a write outside its buffer, or `_objc_fatal`. -/
inductive Fault where
  | bufferOverrun
  | fatal (message : String)
deriving DecidableEq, Repr

/-- `sizeof(id)`. -/
def sizeofId : ℕ := 8

/-- `layout_bitmap` (`objc-private.h`, lines 601–606). The bits are allocated in whole
bytes, and the instance that the bitmap spans has a size that fits `size_t`. -/
structure LayoutBitmap where
  bits : List UInt8
  bitCount : ℕ
  bitsAllocated : ℕ
  weak : Bool
  bits_length : bits.length = (bitsAllocated + 7) / 8
  bitCount_le : bitCount ≤ bitsAllocated
  span_lt : bitCount * sizeofId < 2 ^ 64

/-- `n * sizeof(id)` for a bitmap of `n` bits, as a `size_t`. -/
def LayoutBitmap.instanceSize (b : LayoutBitmap) : Fin (2 ^ 64) :=
  ⟨b.bitCount * sizeofId, b.span_lt⟩

/-- `(bits[i/8] >> (i % 8)) & 1`. -/
def bitAt (bits : List UInt8) (i : ℕ) : Bool :=
  ((bits.getD (i / 8) 0).toNat >>> (i % 8)) &&& 1 == 1

/-- The inner loops of `compress_layout` (lines 77–89): the length of the run of
`bit`s that starts at `i`, when `left` bits are left. -/
def countRun (bits : List UInt8) (bit : Bool) : (left : ℕ) → (i : ℕ) → ℕ
  | 0, _ => 0
  | left + 1, i => if bitAt bits i = bit then countRun bits bit left (i + 1) + 1 else 0

/-- The local variables of `compress_layout`; `l` is an index into `layout`. -/
structure Compress where
  layout : List UInt8
  l : ℕ
  allSet : Bool
  noneSet : Bool
deriving DecidableEq, Repr

/-- `*l = v`. -/
def Compress.store (st : Compress) (v : UInt8) : Except Fault Compress :=
  if st.l < st.layout.length then .ok { st with layout := st.layout.set st.l v }
  else .error .bufferOverrun

/-- `*l |= v`. -/
def Compress.orIn (st : Compress) (v : UInt8) : Except Fault Compress :=
  st.store (st.layout.getD st.l 0 ||| v)

/-- `l++`. -/
def Compress.next (st : Compress) : Compress := { st with l := st.l + 1 }

/-- `while (skip > 0xf) { *l++ = 0xf0; skip -= 0xf; }` (lines 94–97). -/
def recordSkip (skip : ℕ) (st : Compress) : Except Fault (ℕ × Compress) :=
  if skip > 0xf then do
    let st ← st.store 0xf0
    recordSkip (skip - 0xf) st.next
  else .ok (skip, st)
termination_by skip

/-- `while (scan > 0xf) { *l++ |= 0x0f; scan -= 0xf; } *l++ |= scan;` (lines 100–105). -/
def recordScan (scan : ℕ) (st : Compress) : Except Fault Compress :=
  if scan > 0xf then do
    let st ← st.orIn 0x0f
    recordScan (scan - 0xf) st.next
  else do
    let st ← st.orIn (UInt8.ofNat scan)
    .ok st.next
termination_by scan

/-- "Record skip and scan" (lines 91–106). -/
def record (skip scan : ℕ) (st : Compress) : Except Fault Compress := do
  let st := { st with allSet := st.allSet && decide (skip = 0),
                      noneSet := st.noneSet && decide (scan = 0) }
  let (skip, st) ← recordSkip skip st
  if skip ≠ 0 ∨ scan ≠ 0 then
    let st ← st.store (UInt8.ofNat (skip <<< 4))
    recordScan scan st
  else .ok st

variable {i n scan skip : ℕ} {c : UInt8} {s bits bits' : List UInt8} {st : Compress}

theorem countRun_pos (bits : List UInt8) (hi : i < n) : 0 < countRun bits false (n - i) i +
      countRun bits true (n - (i + countRun bits false (n - i) i))
        (i + countRun bits false (n - i) i) := by
  obtain ⟨left, hleft⟩ : ∃ left, n - i = left + 1 := ⟨n - i - 1, by omega⟩
  cases hbit : bitAt bits i with
  | false | true => simp [hleft, countRun, hbit]

/-- The outer loop of `compress_layout` (lines 71–107). -/
def compressLoop (bits : List UInt8) (bitmapBits i : ℕ) (st : Compress) : Except Fault Compress :=
  if i < bitmapBits then do
    let skip := countRun bits false (bitmapBits - i) i
    let scan := countRun bits true (bitmapBits - (i + skip)) (i + skip)
    let st ← record skip scan st
    compressLoop bits bitmapBits (i + skip + scan) st
  else .ok st
termination_by bitmapBits - i
decreasing_by
  have := countRun_pos bits ‹i < bitmapBits›
  omega

/-- The buffer of `compress_layout` when the terminating byte has been written (lines
62–110). -/
def layoutBuffer (bits : List UInt8) (bitmapBits : ℕ) : Except Fault Compress := do
  let st ← compressLoop bits bitmapBits 0 ⟨List.replicate (bitmapBits + 1) 0, 0, true, true⟩
  let st ← st.store 0
  .ok st.next

/-- The bytes that `strdup` copies, without the terminator. -/
def strdup (layout : List UInt8) : List UInt8 := layout.takeWhile (· ≠ 0)

/-- `compress_layout` (lines 59–122). `NULL` is `none`. -/
def compressLayout (bits : List UInt8) (bitmapBits : ℕ) (weak : Bool) :
    Except Fault (Option (List UInt8)) := do
  let st ← layoutBuffer bits bitmapBits
  if st.noneSet && weak then .ok none
  else if st.allSet && !weak then .ok none
  else .ok (some (strdup st.layout))

/-- The loop of `set_bits` (lines 129–131) on `bit`, with `count` bits to go; returns the
final `bit`. -/
def setBitsLoop (bitCount : ℕ) : (count : ℕ) → (bit : ℕ) → List UInt8 → ℕ × List UInt8
  | 0, bit, bits => (bit, bits)
  | count + 1, bit, bits =>
    if bit < bitCount then
      setBitsLoop bitCount count (bit + 1)
        (bits.set (bit / 8) (bits.getD (bit / 8) 0 ||| UInt8.ofNat (1 <<< (bit % 8))))
    else (bit, bits)

theorem length_setBitsLoop (bitCount count bit : ℕ) (bits : List UInt8) :
    (setBitsLoop bitCount count bit bits).2.length = bits.length := by
  induction count generalizing bit bits with
  | zero => rfl
  | succ count ih =>
    rw [setBitsLoop]
    split_ifs with h
    · rw [ih, length_set]
    · rfl

/-- `set_bits` (lines 125–136). -/
def setBits (b : LayoutBitmap) (which count : ℕ) : Except Fault LayoutBitmap :=
  let r := setBitsLoop b.bitCount count which b.bits
  if r.1 = b.bitCount ∧ r.1 < which + count then .error (.fatal "layout bitmap too short")
  else .ok { b with
    bits := r.2
    bits_length := (length_setBitsLoop _ _ _ _).trans b.bits_length }

/-- `(c & 0xf0) >> 4`. -/
def skipOf (c : UInt8) : ℕ := ((c &&& 0xf0) >>> 4).toNat

/-- `c & 0x0f`. -/
def scanOf (c : UInt8) : ℕ := (c &&& 0x0f).toNat

/-- `decompress_layout` (lines 193–204) from bit number `bit` on. -/
def decompressLayout : (layoutString : List UInt8) → (bit : ℕ) → LayoutBitmap →
    Except Fault LayoutBitmap
  | [], _, b => .ok b
  | c :: layoutString, bit, b =>
    if c = 0 then .ok b
    else do
      let b ← setBits b (bit + skipOf c) (scanOf c)
      decompressLayout layoutString (bit + skipOf c + scanOf c) b

/-- `layout_bitmap_create_empty` (lines 251–263), which is also how
`layout_bitmap_create` starts. -/
def layoutBitmapCreateEmpty (instanceSize : Fin (2 ^ 64)) (weak : Bool) : LayoutBitmap where
  bits := List.replicate ((instanceSize.val / sizeofId + 7) / 8) 0
  bitCount := instanceSize.val / sizeofId
  bitsAllocated := instanceSize.val / sizeofId
  weak := weak
  bits_length := length_replicate
  bitCount_le := le_rfl
  span_lt := lt_of_le_of_lt (Nat.div_mul_le_self _ _) instanceSize.isLt

/-- `layout_bitmap_create` (lines 215–241). -/
def layoutBitmapCreate (layoutString : Option (List UInt8))
    (layoutStringInstanceSize instanceSize : Fin (2 ^ 64)) (weak : Bool) :
    Except Fault LayoutBitmap :=
  let result := layoutBitmapCreateEmpty instanceSize weak
  match layoutString with
  | none => if !weak then setBits result 0 (layoutStringInstanceSize.val / sizeofId) else .ok result
  | some s => decompressLayout s 0 result

/-- `layout_string_create` (lines 271–293); `debug` is the `DEBUG` build, which cycles to a
bitmap and back to a string and compares. -/
def layoutStringCreate (debug : Bool) (b : LayoutBitmap) : Except Fault (Option (List UInt8)) := do
  let result ← compressLayout b.bits b.bitCount b.weak
  if debug then
    let check ← layoutBitmapCreate result b.instanceSize b.instanceSize b.weak
    let result2 ← compressLayout check.bits check.bitCount check.weak
    if result ≠ result2 then .error (.fatal "libobjc bug: mishandled layout bitmap")
    else .ok result
  else .ok result

/-! ## What a layout string spells -/

/-- The bits that the nibbles of a layout string spell. -/
def layoutBits (s : List UInt8) : List Bool :=
  s.flatMap fun c => List.replicate (skipOf c) false ++ List.replicate (scanOf c) true

@[simp] theorem layoutBits_nil : layoutBits [] = [] := rfl

@[simp] theorem layoutBits_append (s t : List UInt8) :
    layoutBits (s ++ t) = layoutBits s ++ layoutBits t :=
  flatMap_append

@[simp] theorem layoutBits_cons (c : UInt8) (s : List UInt8) : layoutBits (c :: s) =
      List.replicate (skipOf c) false ++ List.replicate (scanOf c) true ++ layoutBits s :=
  flatMap_cons

/-- The byte with nibbles `skip` and `scan`, as `compress_layout` builds it. -/
theorem nibbles : ∀ skip scan : Fin 16,
    skipOf (UInt8.ofNat (skip.val <<< 4) ||| UInt8.ofNat scan.val) = skip ∧
      scanOf (UInt8.ofNat (skip.val <<< 4) ||| UInt8.ofNat scan.val) = scan := by
  decide

theorem nibbles_ne_zero (h : 0 < skipOf c + scanOf c) : c ≠ 0 := by
  rintro rfl
  simp [skipOf, scanOf] at h

theorem skipOf_add_scanOf_pos (h : c ≠ 0) : 0 < skipOf c + scanOf c := by
  have hall : ∀ n : Fin 256, UInt8.ofNat n ≠ 0 →
      0 < skipOf (UInt8.ofNat n) + scanOf (UInt8.ofNat n) := by
    decide +kernel
  simpa using hall ⟨c.toNat, c.toNat_lt⟩ (by simpa using h)

/-- A string without zero bytes spells at least one bit a byte. -/
theorem length_le_layoutBits (h0 : 0 ∉ s) : s.length ≤ (layoutBits s).length := by
  induction s with
  | nil => simp
  | cons c s ih =>
    have hc : c ≠ 0 := fun h => h0 (h ▸ mem_cons_self)
    have := skipOf_add_scanOf_pos hc
    have := ih fun h => h0 (mem_cons_of_mem _ h)
    simp only [layoutBits_cons, length_cons, length_append, length_replicate]
    omega

/-- The first `i` bits of a bitmap. -/
def bitsUpTo (bits : List UInt8) (i : ℕ) : List Bool := (List.range i).map (bitAt bits)

@[simp] theorem length_bitsUpTo (bits : List UInt8) (i : ℕ) : (bitsUpTo bits i).length = i := by
  simp [bitsUpTo]

theorem bitsUpTo_run {k : ℕ} {v : Bool} (h : ∀ j < k, bitAt bits (i + j) = v) :
    bitsUpTo bits (i + k) = bitsUpTo bits i ++ List.replicate k v := by
  have hrun : (List.range k).map (fun j => bitAt bits (i + j)) = List.replicate k v := by
    rw [eq_replicate_iff]
    refine ⟨by simp, ?_⟩
    intro b hb
    obtain ⟨j, hj, rfl⟩ := List.mem_map.mp hb
    exact h j (mem_range.mp hj)
  rw [bitsUpTo, range_add, map_append, List.map_map]
  exact congrArg _ hrun

/-! ## `compress_layout` -/

theorem countRun_le (bits : List UInt8) (v : Bool) (left i : ℕ) :
    countRun bits v left i ≤ left := by
  induction left generalizing i with
  | zero => simp [countRun]
  | succ left ih =>
    rw [countRun]
    split_ifs
    · exact Nat.succ_le_succ (ih _)
    · exact zero_le

theorem countRun_run (bits : List UInt8) (v : Bool) (left i : ℕ) :
    ∀ j < countRun bits v left i, bitAt bits (i + j) = v := by
  induction left generalizing i with
  | zero => simp [countRun]
  | succ left ih =>
    intro j hj
    rw [countRun] at hj
    split_ifs at hj with h
    · cases j with
      | zero => simpa using h
      | succ j => simpa [add_assoc, add_comm 1] using ih (i + 1) j (by omega)
    · omega

/-- The buffer holds the string `s`, zeros after it, and `l` is at its end. -/
structure Written (n : ℕ) (s : List UInt8) (st : Compress) : Prop where
  layout : st.layout = s ++ List.replicate (n + 1 - s.length) 0
  l : st.l = s.length
  no_zero : 0 ∉ s

theorem Written.length_le (h : Written n s st) : s.length ≤ (layoutBits s).length :=
  length_le_layoutBits h.no_zero

/-- The buffer holds `s`, then the unfinished byte `c` at `l`, then zeros. -/
structure Pending (n : ℕ) (s : List UInt8) (c : UInt8) (st : Compress) : Prop where
  layout : st.layout = s ++ c :: List.replicate (n - s.length) 0
  l : st.l = s.length
  no_zero : 0 ∉ s

theorem Written.pending (h : Written n s st) (hs : s.length ≤ n) : Pending n s 0 st := by
  refine ⟨?_, h.l, h.no_zero⟩
  rw [h.layout, ← replicate_succ, show n + 1 - s.length = n - s.length + 1 by omega]

theorem Pending.next (h : Pending n s c st) (hc : c ≠ 0) : Written n (s ++ [c]) st.next := by
  refine ⟨?_, ?_, ?_⟩
  · simp [Compress.next, h.layout]
  · simp [Compress.next, h.l]
  · simpa [h.no_zero] using hc.symm

/-- A store at `l` succeeds, replaces the pending byte and leaves the flags alone. -/
theorem Pending.store (h : Pending n s c st) (v : UInt8) :
    ∃ st', st.store v = .ok st' ∧ Pending n s v st' ∧ st'.allSet = st.allSet ∧
      st'.noneSet = st.noneSet := by
  refine ⟨{ st with layout := st.layout.set st.l v }, ?_, ⟨?_, h.l, h.no_zero⟩, rfl, rfl⟩
  · rw [Compress.store, if_pos (by simp [h.layout, h.l])]
  · simp [h.layout, h.l]

theorem Pending.orIn (h : Pending n s c st) (v : UInt8) :
    ∃ st', st.orIn v = .ok st' ∧ Pending n s (c ||| v) st' ∧ st'.allSet = st.allSet ∧
      st'.noneSet = st.noneSet := by
  have hget : st.layout.getD st.l 0 = c := by simp [h.layout, h.l]
  rw [Compress.orIn, hget]
  exact h.store _

/-- The skip loop writes bytes that spell `skip` up to a rest of at most 15. -/
theorem recordSkip_spec (skip : ℕ) (h : Written n s st) (hn : (layoutBits s).length + skip ≤ n) :
    ∃ skip' s' st', recordSkip skip st = .ok (skip', st') ∧ Written n s' st' ∧ skip' ≤ 15 ∧
      (skip' = 0 → skip = 0) ∧
      layoutBits s' ++ List.replicate skip' false = layoutBits s ++ List.replicate skip false ∧
      st'.allSet = st.allSet ∧ st'.noneSet = st.noneSet := by
  induction skip using Nat.strong_induction_on generalizing s st with
  | _ skip ih =>
    rw [recordSkip]
    split_ifs with h15
    · have hs := h.length_le
      obtain ⟨st1, hst1, h1, ha1, hn1⟩ := (h.pending (by omega)).store 0xf0
      have hspell : layoutBits (s ++ [0xf0]) = layoutBits s ++ List.replicate 15 false := by
        simp [skipOf, scanOf]
      obtain ⟨skip', s', st', hrun, hw, hle, hzero, hbits, ha, hno⟩ :=
        ih (skip - 0xf) (by omega) (h1.next (by decide)) (by simp [hspell]; omega)
      have hne : skip' ≠ 0 := fun h0 => by omega
      refine ⟨skip', s', st', by rw [hst1]; exact hrun, hw, hle, fun h0 => absurd h0 hne, ?_,
        ha.trans ha1, hno.trans hn1⟩
      rw [hbits, hspell, append_assoc, ← replicate_add,
        show 15 + (skip - 0xf) = skip by omega]
    · exact ⟨skip, s, st, rfl, h, by omega, id, rfl, rfl, rfl⟩

/-- Or-ing `scan` into a pending skip nibble and moving on. -/
theorem Pending.finish
    (h : Pending n s (UInt8.ofNat (skip <<< 4)) st) (hskip : skip ≤ 15) (hscan : scan ≤ 15)
    (hpos : 0 < skip + scan) :
    ∃ s' st', st.orIn (UInt8.ofNat scan) = .ok st' ∧ Written n s' st'.next ∧
      layoutBits s' = layoutBits s ++ (List.replicate skip false ++ List.replicate scan true) ∧
      st'.allSet = st.allSet ∧ st'.noneSet = st.noneSet := by
  obtain ⟨st', hst', h', hall, hnone⟩ := h.orIn (UInt8.ofNat scan)
  obtain ⟨hsk, hsc⟩ := nibbles ⟨skip, by omega⟩ ⟨scan, by omega⟩
  dsimp only at hsk hsc
  refine ⟨_, st', hst', h'.next (nibbles_ne_zero (by omega)), ?_, hall, hnone⟩
  simp only [layoutBits_append, layoutBits_cons, layoutBits_nil, hsk, hsc, append_nil]

/-- The scan loop completes the pending byte and writes bytes that spell `scan`. -/
theorem recordScan_spec (scan : ℕ)
    (h : Pending n s (UInt8.ofNat (skip <<< 4)) st) (hskip : skip ≤ 15) (hpos : 0 < skip + scan)
    (hn : (layoutBits s).length + skip + scan ≤ n) :
    ∃ s' st', recordScan scan st = .ok st' ∧ Written n s' st' ∧
      layoutBits s' = layoutBits s ++ (List.replicate skip false ++ List.replicate scan true) ∧
      st'.allSet = st.allSet ∧ st'.noneSet = st.noneSet := by
  induction scan using Nat.strong_induction_on generalizing skip s st with
  | _ scan ih =>
    rw [recordScan]
    split_ifs with h15
    · obtain ⟨s1, st1, hst1, hw1, hbits1, ha1, hn1⟩ :=
        h.finish hskip (le_refl 15) (by omega)
      have hlen1 : (layoutBits s1).length = (layoutBits s).length + skip + 15 := by
        simp [hbits1, add_assoc]
      have hs1 := hw1.length_le
      -- the next byte is still zero, that is, a pending byte with no skip
      have hp1 : Pending n s1 (UInt8.ofNat (0 <<< 4)) st1.next := hw1.pending (by omega)
      obtain ⟨s', st', hrun, hw, hbits, ha, hno⟩ :=
        ih (scan - 0xf) (by omega) hp1 (by omega) (by omega) (by omega)
      have hst1 : st.orIn 0x0f = .ok st1 := hst1
      refine ⟨s', st', by rw [hst1]; exact hrun, hw, ?_, ha.trans ha1, hno.trans hn1⟩
      rw [hbits, hbits1]
      simp only [replicate_zero, nil_append, append_assoc, ← replicate_add,
        show 15 + (scan - 0xf) = scan by omega]
    · obtain ⟨s', st', hst', hw, hbits, ha, hno⟩ :=
        h.finish hskip (by omega) hpos
      exact ⟨s', st'.next, by rw [hst']; rfl, hw, hbits, ha, hno⟩

/-- One iteration of the outer loop records its run of zeros and its run of ones. -/
theorem record_spec (skip scan : ℕ) (h : Written n s st)
    (hn : (layoutBits s).length + skip + scan ≤ n) :
    ∃ s' st', record skip scan st = .ok st' ∧ Written n s' st' ∧
      layoutBits s' = layoutBits s ++ (List.replicate skip false ++ List.replicate scan true) ∧
      st'.allSet = (st.allSet && decide (skip = 0)) ∧
      st'.noneSet = (st.noneSet && decide (scan = 0)) := by
  have h0 : Written n s { st with allSet := st.allSet && decide (skip = 0),
                                  noneSet := st.noneSet && decide (scan = 0) } :=
    ⟨h.layout, h.l, h.no_zero⟩
  obtain ⟨skip', s1, st1, hrun, hw1, hle, hzero, hbits1, ha1, hn1⟩ :=
    recordSkip_spec skip h0 (by omega)
  have hlen1 : (layoutBits s1).length + skip' = (layoutBits s).length + skip := by
    simpa using congrArg List.length hbits1
  rw [record, hrun]
  show ∃ s' st', (if skip' ≠ 0 ∨ scan ≠ 0 then _ else _) = _ ∧ _
  split_ifs with hpos
  · have hs1 := hw1.length_le
    obtain ⟨st2, hst2, hp2, ha2, hn2⟩ :=
      (hw1.pending (by omega)).store (UInt8.ofNat (skip' <<< 4))
    obtain ⟨s', st', hrun', hw, hbits, ha, hno⟩ :=
      recordScan_spec scan hp2 hle (by omega) (by omega)
    refine ⟨s', st', by rw [hst2]; exact hrun', hw, ?_, ha.trans (ha2.trans ha1),
      hno.trans (hn2.trans hn1)⟩
    rw [hbits, ← append_assoc, hbits1, append_assoc]
  · obtain ⟨rfl, rfl⟩ : skip' = 0 ∧ scan = 0 := by omega
    exact ⟨s1, st1, rfl, hw1, by simpa using hbits1, ha1, hn1⟩

/-- No bit below `i` has the value `v`. -/
def noneBelow (bits : List UInt8) (v : Bool) (i : ℕ) : Bool := v ∉ bitsUpTo bits i

theorem noneBelow_run (v : Bool) (h : bitsUpTo bits (i + skip + scan) =
      bitsUpTo bits i ++ (List.replicate skip false ++ List.replicate scan true)) :
    noneBelow bits v (i + skip + scan) =
      (noneBelow bits v i && decide ((if v then scan else skip) = 0)) := by
  simp only [noneBelow, h]
  cases v <;> simp

/-- The outer loop, from a state that has recorded the first `i` bits. -/
theorem compressLoop_spec (bits : List UInt8) (n i : ℕ)
    (hi : i ≤ n) (h : Written n s st) (hbits : layoutBits s = bitsUpTo bits i)
    (hall : st.allSet = noneBelow bits false i) (hnone : st.noneSet = noneBelow bits true i) :
    ∃ s' st', compressLoop bits n i st = .ok st' ∧ Written n s' st' ∧
      layoutBits s' = bitsUpTo bits n ∧ st'.allSet = noneBelow bits false n ∧
      st'.noneSet = noneBelow bits true n := by
  induction hm : n - i using Nat.strong_induction_on generalizing i s st with
  | _ m ih =>
    rw [compressLoop]
    split_ifs with hlt
    · set skip := countRun bits false (n - i) i with hskip
      set scan := countRun bits true (n - (i + skip)) (i + skip) with hscan
      have hle1 := countRun_le bits false (n - i) i
      have hle2 := countRun_le bits true (n - (i + skip)) (i + skip)
      have hpos : 0 < skip + scan := countRun_pos bits hlt
      have hrun : bitsUpTo bits (i + skip + scan) =
          bitsUpTo bits i ++ (List.replicate skip false ++ List.replicate scan true) := by
        rw [bitsUpTo_run (countRun_run bits true _ _), bitsUpTo_run (countRun_run bits false _ _),
          append_assoc]
      have hlen : (layoutBits s).length = i := by simp [hbits]
      obtain ⟨s1, st1, hst1, hw1, hbits1, ha1, hn1⟩ :=
        record_spec skip scan h (by omega)
      obtain ⟨s', st', hloop, hrest⟩ :=
        ih (n - (i + skip + scan)) (by omega) (i + skip + scan) (by omega) hw1
          (by rw [hbits1, hbits, hrun]) (by rw [ha1, hall, noneBelow_run false hrun]; rfl)
          (by rw [hn1, hnone, noneBelow_run true hrun]; rfl) rfl
      refine ⟨s', st', ?_, hrest⟩
      show (do let st ← record skip scan st; compressLoop bits n (i + skip + scan) st) = _
      rw [hst1]
      exact hloop
    · obtain rfl : i = n := by omega
      exact ⟨s, st, rfl, h, hbits, hall, hnone⟩

/-- **`compress_layout` fits its buffer.** The string stays inside the `n + 1` bytes that
are allocated, has no zero byte before its terminator and spells the `n` bits. -/
theorem layoutBuffer_spec (bits : List UInt8) (n : ℕ) :
    ∃ s st, layoutBuffer bits n = .ok st ∧ st.l = s.length + 1 ∧ st.l ≤ n + 1 ∧ 0 ∉ s ∧
      st.layout = s ++ 0 :: List.replicate (n - s.length) 0 ∧ layoutBits s = bitsUpTo bits n ∧
      st.allSet = noneBelow bits false n ∧ st.noneSet = noneBelow bits true n := by
  have h0 : Written n [] ⟨List.replicate (n + 1) 0, 0, true, true⟩ := ⟨by simp, rfl, by simp⟩
  obtain ⟨s, st, hloop, hw, hbits, hall, hnone⟩ :=
    compressLoop_spec bits n 0 zero_le h0 rfl rfl rfl
  have hlen : s.length ≤ n := by
    simpa [hbits] using hw.length_le
  obtain ⟨st', hst', hp, ha, hn⟩ := (hw.pending hlen).store 0
  refine ⟨s, st'.next, ?_, by simp [Compress.next, hp.l], by simp [Compress.next, hp.l, hlen],
    hw.no_zero, hp.layout, hbits, ha.trans hall, hn.trans hnone⟩
  rw [layoutBuffer, hloop]
  show (do let st ← st.store 0; Except.ok st.next) = _
  rw [hst']
  rfl

/-- When `compress_layout` returns `NULL`. -/
def isNull (bits : List UInt8) (n : ℕ) (weak : Bool) : Bool :=
  if weak then noneBelow bits true n else noneBelow bits false n

theorem strdup_append (h0 : 0 ∉ s) (rest : List UInt8) : strdup (s ++ 0 :: rest) = s := by
  have hs : ∀ c ∈ s, decide (c ≠ 0) = true := by
    intro c hc
    have : c ≠ 0 := fun h => h0 (h ▸ hc)
    simpa using this
  simp only [strdup, takeWhile_append_of_pos hs]
  simp

/-- What `compress_layout` returns: `NULL`, or the string that `strdup` copies, which is the
whole buffer up to the terminator. -/
theorem compressLayout_spec (bits : List UInt8) (n : ℕ) (weak : Bool) :
    ∃ s st, layoutBuffer bits n = .ok st ∧ st.l = s.length + 1 ∧ st.l ≤ n + 1 ∧ 0 ∉ s ∧
      st.layout = s ++ 0 :: List.replicate (n - s.length) 0 ∧ layoutBits s = bitsUpTo bits n ∧
      compressLayout bits n weak = .ok (if isNull bits n weak then none else some s) := by
  obtain ⟨s, st, hst, hl, hle, h0, hlayout, hbits, hall, hnone⟩ := layoutBuffer_spec bits n
  refine ⟨s, st, hst, hl, hle, h0, hlayout, hbits, ?_⟩
  rw [compressLayout, hst]
  show (if st.noneSet && weak then _ else _) = _
  rw [hlayout, strdup_append h0, hall, hnone]
  cases weak with
  | false => cases h : noneBelow bits false n <;> simp [isNull, h]
  | true => cases h : noneBelow bits true n <;> simp [isNull, h]

/-! ## `decompress_layout` -/

theorem bitAt_eq_testBit (bits : List UInt8) (i : ℕ) :
    bitAt bits i = (bits.getD (i / 8) 0).toNat.testBit (i % 8) := by
  rw [bitAt, Nat.and_one_is_mod, Nat.shiftRight_eq_div_pow, Nat.testBit_eq_decide_div_mod_eq]
  rfl

/-- `bits[k/8] |= 1 << (k % 8)` sets bit `k` and no other. -/
theorem bitAt_set {k : ℕ} (hk : k / 8 < bits.length) (i : ℕ) :
    bitAt (bits.set (k / 8) (bits.getD (k / 8) 0 ||| UInt8.ofNat (1 <<< (k % 8)))) i =
      (bitAt bits i || decide (i = k)) := by
  rw [bitAt_eq_testBit, bitAt_eq_testBit]
  by_cases hbyte : i / 8 = k / 8
  · have hlt : 1 <<< (k % 8) < 256 := by
      rw [Nat.shiftLeft_eq, one_mul]
      exact Nat.pow_lt_pow_right (by norm_num) (Nat.mod_lt k (by norm_num))
    have hbit : decide (k % 8 = i % 8) = decide (i = k) := by
      rw [decide_eq_decide]
      omega
    rw [hbyte, getD_eq_getElem?_getD,
      getElem?_set_self hk,
      Option.getD_some, UInt8.toNat_or, UInt8.toNat_ofNat_of_lt' hlt, Nat.testBit_or,
      Nat.shiftLeft_eq, one_mul, Nat.testBit_two_pow, hbit]
  · have hne : i ≠ k := fun h => hbyte (by rw [h])
    rw [getD_eq_getElem?_getD, getElem?_set_ne (Ne.symm hbyte)]
    simp [hne]

theorem setBitsLoop_spec {bitCount : ℕ} (count : ℕ) {bit : ℕ}
    (hcount : bit + count ≤ bitCount) (hlen : bitCount ≤ 8 * bits.length) :
    (setBitsLoop bitCount count bit bits).1 = bit + count ∧
      ∀ i, bitAt (setBitsLoop bitCount count bit bits).2 i =
        (bitAt bits i || decide (bit ≤ i ∧ i < bit + count)) := by
  induction count generalizing bit bits with
  | zero => simp [setBitsLoop]
  | succ count ih =>
    rw [setBitsLoop, if_pos (by omega)]
    have hk : bit / 8 < bits.length := by omega
    have hlen' : bitCount ≤ 8 * (bits.set (bit / 8)
        (bits.getD (bit / 8) 0 ||| UInt8.ofNat (1 <<< (bit % 8)))).length := by
      rwa [length_set]
    obtain ⟨hbit, hbits⟩ := ih (show bit + 1 + count ≤ bitCount by omega) hlen'
    refine ⟨by omega, fun i => ?_⟩
    rw [hbits, bitAt_set hk, Bool.or_assoc, ← Bool.decide_or]
    congr 2
    simp only [eq_iff_iff]
    omega

variable (b : LayoutBitmap)

theorem LayoutBitmap.bitCount_le_bits : b.bitCount ≤ 8 * b.bits.length := by
  have := b.bits_length
  have := b.bitCount_le
  omega

/-- `set_bits` on a range inside the bitmap does not fail and sets that range. -/
theorem setBits_spec {which count : ℕ} (h : which + count ≤ b.bitCount) :
    ∃ b', setBits b which count = .ok b' ∧ b'.bitCount = b.bitCount ∧ b'.weak = b.weak ∧
      ∀ i, bitAt b'.bits i = (bitAt b.bits i || decide (which ≤ i ∧ i < which + count)) := by
  obtain ⟨hbit, hbits⟩ := setBitsLoop_spec count h b.bitCount_le_bits
  rw [setBits, if_neg (by omega)]
  exact ⟨_, rfl, rfl, rfl, hbits⟩

theorem getD_replicate_append (k : ℕ) (v : Bool) (rest : List Bool) (i : ℕ) :
    (List.replicate k v ++ rest).getD i false = if i < k then v else rest.getD (i - k) false := by
  simp only [getD_eq_getElem?_getD, getElem?_append, length_replicate,
    getElem?_replicate]
  split_ifs <;> rfl

/-- `decompress_layout` sets the bits that its string spells. -/
theorem decompressLayout_spec (s : List UInt8) (bit : ℕ) (b : LayoutBitmap) (h0 : 0 ∉ s)
    (hlen : bit + (layoutBits s).length ≤ b.bitCount) :
    ∃ b', decompressLayout s bit b = .ok b' ∧ b'.bitCount = b.bitCount ∧ b'.weak = b.weak ∧
      ∀ i, bitAt b'.bits i =
        (bitAt b.bits i || (decide (bit ≤ i) && (layoutBits s).getD (i - bit) false)) := by
  induction s generalizing bit b with
  | nil => exact ⟨b, rfl, rfl, rfl, by simp⟩
  | cons c s ih =>
    have hc : c ≠ 0 := fun h => h0 (h ▸ mem_cons_self)
    simp only [layoutBits_cons, length_append, length_replicate] at hlen
    obtain ⟨b1, hb1, hcount1, hweak1, hbits1⟩ :=
      setBits_spec b (show bit + skipOf c + scanOf c ≤ b.bitCount by omega)
    obtain ⟨b', hb', hcount, hweak, hbits⟩ :=
      ih (bit + skipOf c + scanOf c) b1 (fun h => h0 (mem_cons_of_mem _ h)) (by omega)
    refine ⟨b', ?_, hcount.trans hcount1, hweak.trans hweak1, fun i => ?_⟩
    · rw [decompressLayout, if_neg hc, hb1]
      exact hb'
    · rw [hbits, hbits1, layoutBits_cons, append_assoc, getD_replicate_append,
        getD_replicate_append]
      -- `i` is before this byte, in its skip, in its scan, or after it
      rcases lt_or_ge i bit with h | h
      · simp [show ¬ bit ≤ i by omega, show ¬ bit + skipOf c ≤ i by omega,
          show ¬ bit + skipOf c + scanOf c ≤ i by omega]
      · rcases lt_or_ge i (bit + skipOf c) with h1 | h1
        · simp [show i - bit < skipOf c by omega, show ¬ bit + skipOf c ≤ i by omega,
            show ¬ bit + skipOf c + scanOf c ≤ i by omega]
        · rcases lt_or_ge i (bit + skipOf c + scanOf c) with h2 | h2
          · simp [h, h1, h2, show ¬ i - bit < skipOf c by omega,
              show i - bit - skipOf c < scanOf c by omega]
          · simp [h, h2, show ¬ i - bit < skipOf c by omega,
              show ¬ i - bit - skipOf c < scanOf c by omega,
              show ¬ i < bit + skipOf c + scanOf c by omega,
              show i - (bit + skipOf c + scanOf c) = i - bit - skipOf c - scanOf c by omega]

theorem bitAt_replicate_zero (k i : ℕ) : bitAt (List.replicate k 0) i = false := by
  rw [bitAt_eq_testBit, getD_eq_getElem?_getD, getElem?_replicate]
  split_ifs <;> simp

theorem getD_bitsUpTo (bits : List UInt8) (hi : i < n) :
    (bitsUpTo bits n).getD i false = bitAt bits i := by
  simp [bitsUpTo, hi]

section

variable (h : ∀ i < n, bitAt bits' i = bitAt bits i)
include h

theorem countRun_eq_of_bitAt
    (v : Bool) (left i : ℕ) (hi : i + left ≤ n) :
    countRun bits' v left i = countRun bits v left i := by
  induction left generalizing i with
  | zero => rfl
  | succ left ih => rw [countRun, countRun, h i (by omega), ih (i + 1) (by omega)]

/-- `compress_layout` reads only the first `n` bits. -/
theorem compressLoop_eq_of_bitAt
    (i : ℕ) (st : Compress) :
    compressLoop bits' n i st = compressLoop bits n i st := by
  induction i, st using compressLoop.induct bits n with
  | case1 i st hlt skip scan ih =>
    have hskip := countRun_eq_of_bitAt h false (n - i) i (by omega)
    have hle := countRun_le bits false (n - i) i
    have hscan := countRun_eq_of_bitAt h true (n - (i + skip)) (i + skip) (by omega)
    rw [compressLoop, if_pos hlt]
    conv_rhs => rw [compressLoop, if_pos hlt]
    simp only [hskip]
    rw [hscan]
    exact bind_congr ih
  | case2 i st hlt => rw [compressLoop, compressLoop, if_neg hlt, if_neg hlt]

theorem compressLayout_eq_of_bitAt (weak : Bool) :
    compressLayout bits' n weak = compressLayout bits n weak := by
  rw [compressLayout, layoutBuffer, compressLoop_eq_of_bitAt h]
  rfl

end

/-! ## Round trip -/

theorem instanceSize_words : b.instanceSize.val / sizeofId = b.bitCount :=
  Nat.mul_div_cancel b.bitCount (by decide)

theorem noneBelow_eq_true {v : Bool} : noneBelow bits v n = true ↔ ∀ i < n, bitAt bits i = !v := by
  simp only [noneBelow, bitsUpTo]
  cases v <;> simp

/-- `layout_bitmap_create` rebuilds the bits from the string of `compress_layout`. -/
theorem layoutBitmapCreate_spec (h0 : 0 ∉ s) (hbits : layoutBits s = bitsUpTo b.bits b.bitCount) :
    ∃ b', layoutBitmapCreate (if isNull b.bits b.bitCount b.weak then none else some s)
        b.instanceSize b.instanceSize b.weak = .ok b' ∧
      b'.bitCount = b.bitCount ∧ b'.weak = b.weak ∧
      ∀ i < b.bitCount, bitAt b'.bits i = bitAt b.bits i := by
  set empty := layoutBitmapCreateEmpty b.instanceSize b.weak with hempty
  have hcount : empty.bitCount = b.bitCount := instanceSize_words b
  have hzero : ∀ i, bitAt empty.bits i = false := bitAt_replicate_zero _
  cases hnull : isNull b.bits b.bitCount b.weak with
  | true =>
    cases hweak : b.weak with
    | true =>
      -- weak and none set: the empty bitmap
      rw [isNull, hweak, if_pos rfl, noneBelow_eq_true] at hnull
      refine ⟨empty, by simp [layoutBitmapCreate, hempty, hweak], hcount, hweak, fun i hi => ?_⟩
      rw [hzero, hnull i hi]
      rfl
    | false =>
      -- strong and all set: `set_bits` of the whole bitmap
      rw [isNull, hweak, if_neg (by decide), noneBelow_eq_true] at hnull
      obtain ⟨b', hb', hcount', hweak', hbits'⟩ :=
        setBits_spec empty (show 0 + b.instanceSize.val / sizeofId ≤ empty.bitCount by
          rw [hcount, instanceSize_words, zero_add])
      refine ⟨b', by simpa [layoutBitmapCreate, hempty, hweak] using hb', hcount'.trans hcount,
        hweak'.trans hweak, fun i hi => ?_⟩
      rw [hbits', hnull i hi, instanceSize_words]
      simp [hi]
  | false =>
    obtain ⟨b', hb', hcount', hweak', hbits'⟩ :=
      decompressLayout_spec s 0 empty h0 (by simp [hbits, hcount])
    refine ⟨b', by simpa [layoutBitmapCreate] using hb', hcount'.trans hcount, hweak',
      fun i hi => ?_⟩
    rw [hbits', hzero, hbits, Nat.sub_zero, getD_bitsUpTo b.bits hi]
    simp

/-- **Layout strings round-trip.** For every bitmap `b`, weak or strong, and in both builds,
`layout_string_create` returns a string, which is `NULL` exactly for the weak bitmap with
no bit set and the strong bitmap with every bit set; `layout_bitmap_create` of that string
succeeds and has the bits of `b`; and `compress_layout` of the rebuilt bitmap returns the
same string. The buffer of `compress_layout` ends, within its `n + 1` bytes, with the
terminator of a string without zero bytes, which is the string returned. -/
theorem layoutString_roundTrip (debug : Bool) (b : LayoutBitmap) :
    ∃ str b', layoutStringCreate debug b = .ok str ∧
      layoutBitmapCreate str b.instanceSize b.instanceSize b.weak = .ok b' ∧
      b'.bitCount = b.bitCount ∧ b'.weak = b.weak ∧
      (∀ i < b.bitCount, bitAt b'.bits i = bitAt b.bits i) ∧
      compressLayout b'.bits b'.bitCount b'.weak = .ok str ∧
      (str = none ↔ ∀ i < b.bitCount, bitAt b.bits i = !b.weak) ∧
      ∃ s st, layoutBuffer b.bits b.bitCount = .ok st ∧
        st.layout = s ++ 0 :: List.replicate (b.bitCount - s.length) 0 ∧
        st.l = s.length + 1 ∧ st.l ≤ b.bitCount + 1 ∧ 0 ∉ s ∧ ∀ t, str = some t → t = s := by
  obtain ⟨s, st, hst, hl, hle, h0, hlayout, hspell, hcompress⟩ :=
    compressLayout_spec b.bits b.bitCount b.weak
  obtain ⟨b', hb', hcount, hweak, hbits⟩ := layoutBitmapCreate_spec b h0 hspell
  have hagain : compressLayout b'.bits b'.bitCount b'.weak =
      .ok (if isNull b.bits b.bitCount b.weak then none else some s) := by
    rw [hcount, hweak, compressLayout_eq_of_bitAt hbits, hcompress]
  refine ⟨_, b', ?_, hb', hcount, hweak, hbits, hagain, ?_, s, st, hst, hlayout, hl, hle, h0, ?_⟩
  · rw [layoutStringCreate, hcompress]
    cases debug with
    | false => rfl
    | true =>
      simp only [bind, Except.bind, hb', hagain]
      exact if_neg (not_not_intro rfl)
  · have hiff : isNull b.bits b.bitCount b.weak = true ↔
        ∀ i < b.bitCount, bitAt b.bits i = !b.weak := by
      rw [isNull]
      cases b.weak <;> simp [noneBelow_eq_true]
    rw [← hiff]
    split_ifs with h <;> simp [h]
  · intro t ht
    split_ifs at ht
    exact (Option.some.inj ht).symm

end Apple.Objc.Layout
