import Apple.Dispatch.BaseEncode

/-!
# `_dispatch_transform_from_base64` and `_dispatch_transform_from_base32`

The decoders of `libdispatch-913.60.2/src/transform.c` (lines 578–661 and
821–894) shift 6 (5) bits per character into the accumulator `x` and write 3
(5) bytes whenever `count` reaches a multiple of 4 (8). The accumulator, `count`
and `pad` live across regions. Each region's buffer is trimmed at its end by an
amount that depends on `pad`. `BaseDecoder` has the parts that differ.

Results:
* `decodeBytes_group`: what one full group of characters does to the state.
* `fromBase64_rfc4648`, `fromBase32_rfc4648`: decoding the RFC 4648 encoding of
  `b`, held in one region, gives `b` back.
* `baseN_codec`: both codecs, end to end.
* `base32hex_roundTrip_iff`: the base 32 hex decoder takes no character of its alphabet.
-/

namespace Apple.Dispatch

open List Option

/-! ## Model -/

/-- What distinguishes the base32 from the base64 decoder. -/
structure BaseDecoder where
  /-- Bits per character. -/
  bits : ℕ
  /-- Characters per group; the code tests `count & (chars - 1)`. -/
  chars : ℕ
  /-- Bytes per group. -/
  group : ℕ
  table : List ℤ
  tableSize : ℕ
  /-- The bytes written for a complete group. -/
  out : ℕ → Bytes
  /-- How much `final` is reduced, from the number of pad characters. -/
  trim : ℕ → ℕ

/-- The `__block` variables `x`, `count` and `pad`, and what has been written at
`dest` in the current region. -/
structure DecodeState where
  x : ℕ
  count : ℕ
  pad : ℕ
  dest : Bytes

/-- The body of the `for` loop (lines 598–625 and 842–866); `none` is a
character outside the alphabet. -/
def decodeByte (d : BaseDecoder) (b : UInt8) (st : DecodeState) : Option DecodeState :=
  if b = 0x0a ∨ b = 0x09 ∨ b = 0x20 then some st
  else
    let index := b.toNat
    if index ≥ d.tableSize ∨ d.table.getD index (-1) = -1 then none
    else
      let count := st.count + 1
      let value := d.table.getD index (-1)
      let pad := if value = -2 then st.pad + 1 else st.pad
      let value := if value = -2 then 0 else value
      let x := ((st.x <<< d.bits) + value.toNat) % 2 ^ 64
      let dest := if count &&& (d.chars - 1) = 0 then st.dest ++ d.out x else st.dest
      some { x := x, count := count, pad := pad, dest := dest }

/-- The `for (i = 0; i < size; i++)` loop. -/
def decodeBytes (d : BaseDecoder) : Bytes → DecodeState → Option DecodeState
  | [], st => some st
  | b :: rest, st => (decodeByte d b st).bind (decodeBytes d rest)

/-- The data object made from one region: `destSize` bytes allocated, `dest` of
them written, `final` of them used. -/
structure DecodedRegion where
  dest : Bytes
  destSize : ℕ
  final : ℕ

/-- The bytes of a region, unless `final` runs past what was written. -/
def DecodedRegion.contents? (r : DecodedRegion) : Option Bytes :=
  if r.final ≤ r.dest.length then some (r.dest.take r.final) else none

/-- The block given to `dispatch_data_apply` (lines 586–653 and 830–886). `final`
is a `size_t`. -/
def decodeRegion (d : BaseDecoder) (_offset : ℕ) (bytes : Bytes)
    (st : DecodeState × List DecodedRegion) : Option (DecodeState × List DecodedRegion) :=
  (decodeBytes d bytes { st.1 with dest := [] }).map fun st' =>
    (st', st.2 ++ [{
      dest := st'.dest
      destSize := howmany bytes.length d.chars * d.group
      final := (st'.dest.length + 2 ^ 64 - d.trim st'.pad) % 2 ^ 64 }])

/-- The whole decoder: the regions of `rv`, or `NULL`. -/
def transformFromBase (d : BaseDecoder) (data : DispatchData) : Option (List DecodedRegion) :=
  (dispatchDataApply data (decodeRegion d) ({ x := 0, count := 0, pad := 0, dest := [] }, [])).map
    Prod.snd

/-- The byte string of `rv`. -/
def decodedBytes (rv : List DecodedRegion) : Option Bytes :=
  (rv.mapM DecodedRegion.contents?).map List.flatten

/-- `base64_decode_table` (lines 94–104). -/
def base64DecodeTable : List ℤ := [
  -1, -1, -1, -1, -1, -1, -1, -1, -1, -1, -1, -1, -1, -1,
  -1, -1, -1, -1, -1, -1, -1, -1, -1, -1, -1, -1, -1, -1,
  -1, -1, -1, -1, -1, -1, -1, -1, -1, -1, -1, -1, -1, -1,
  -1, 62, -1, -1, -1, 63, 52, 53, 54, 55, 56, 57, 58, 59,
  60, 61, -1, -1, -1, -2, -1, -1, -1, 0, 1, 2, 3, 4,
  5, 6, 7, 8, 9, 10, 11, 12, 13, 14, 15, 16, 17, 18,
  19, 20, 21, 22, 23, 24, 25, -1, -1, -1, -1, -1, -1, 26,
  27, 28, 29, 30, 31, 32, 33, 34, 35, 36, 37, 38, 39, 40,
  41, 42, 43, 44, 45, 46, 47, 48, 49, 50, 51]

/-- `base32_decode_table` (lines 60–67). -/
def base32DecodeTable : List ℤ := [
  -1, -1, -1, -1, -1, -1, -1, -1, -1, -1, -1, -1, -1, -1, -1, -1, -1,
  -1, -1, -1, -1, -1, -1, -1, -1, -1, -1, -1, -1, -1, -1, -1, -1, -1,
  -1, -1, -1, -1, -1, -1, -1, -1, -1, -1, -1, -1, -1, -1, -1, -1, 26,
  27, 28, 29, 30, 31, -1, -1, -1, -1, -1, -2, -1, -1, -1, 0, 1, 2,
  3, 4, 5, 6, 7, 8, 9, 10, 11, 12, 13, 14, 15, 16, 17, 18, 19,
  20, 21, 22, 23, 24, 25]

/-- The loop and the trimming of `_dispatch_transform_from_base64`. -/
def base64Decoder : BaseDecoder where
  bits := 6
  chars := 4
  group := 3
  table := base64DecodeTable
  tableSize := base64DecodeTable.length
  out x := [x >>> 16, x >>> 8, x].map fun y => UInt8.ofNat (y &&& 0xff)
  trim pad := pad

/-- The loop and the `switch (pad)` of
`_dispatch_transform_from_base32_with_table` (lines 617–643). -/
def base32Decoder (table : List ℤ) (tableSize : ℕ) : BaseDecoder where
  bits := 5
  chars := 8
  group := 5
  table := table
  tableSize := tableSize
  out x := [x >>> 32, x >>> 24, x >>> 16, x >>> 8, x].map fun y => UInt8.ofNat (y &&& 0xff)
  trim pad :=
    match pad with
    | 1 => 1
    | 3 => 2
    | 4 => 3
    | 6 => 4
    | _ => 0

/-- `_dispatch_transform_from_base64` (lines 821–894). -/
def dispatchTransformFromBase64 (data : DispatchData) : Option (List DecodedRegion) :=
  transformFromBase base64Decoder data

/-- `_dispatch_transform_from_base32_with_table` (lines 578–661). -/
def dispatchTransformFromBase32WithTable (data : DispatchData) (table : List ℤ) (tableSize : ℕ) :
    Option (List DecodedRegion) :=
  transformFromBase (base32Decoder table tableSize) data

/-- `_dispatch_transform_from_base32` (lines 791–796). -/
def dispatchTransformFromBase32 (data : DispatchData) : Option (List DecodedRegion) :=
  dispatchTransformFromBase32WithTable data base32DecodeTable base32DecodeTable.length

/-- `base32hex_decode_table` (lines 76–83). -/
def base32hexDecodeTable : List ℤ := [
  -1, -1, -1, -1, -1, -1, -1, -1, -1, -1, -1, -1, -1, -1, -1, -1, -1,
  -1, -1, -1, -1, -1, -1, -1, -1, -1, -1, -1, -1, -1, -1, -1, -1, -1,
  -1, -1, -1, -1, -1, -1, -1, -1, -1, -1, -1, -1, -1, -1, 0, 1, 2,
  3, 4, 5, 6, 7, 8, 9, -1, -1, -1, -2, -1, -1, -1, 10, 11, 12,
  13, 14, 15, 16, 17, 18, 19, 20, 21, 22, 23, 24, 25, 26, 27, 28, 29,
  30, 31]

/-- `base32hex_decode_table_size` (lines 84–85): the size of the *encode* table, which is a
string literal with its terminating NUL. -/
def base32hexDecodeTableSize : ℕ := base32hexEncodeTable.length + 1

/-- `_dispatch_transform_from_base32hex` (lines 804–809). -/
def dispatchTransformFromBase32hex (data : DispatchData) : Option (List DecodedRegion) :=
  dispatchTransformFromBase32WithTable data base32hexDecodeTable base32hexDecodeTableSize

/-! ## Reading the characters of one group -/

/-- The decoder's table inverts the alphabet. -/
structure Inverts (d : BaseDecoder) (alphabet : Bytes) : Prop where
  not_blank : ∀ v < 2 ^ d.bits, tableAt alphabet v ∉ [0x0a, 0x09, 0x20]
  lt_size : ∀ v < 2 ^ d.bits, (tableAt alphabet v).toNat < d.tableSize
  value : ∀ v < 2 ^ d.bits, d.table.getD (tableAt alphabet v).toNat (-1) = v
  pad_lt : padChar.toNat < d.tableSize
  pad_value : d.table.getD padChar.toNat (-1) = -2

theorem inverts_base64 : Inverts base64Decoder base64EncodeTable := by
  constructor <;> decide +kernel

theorem inverts_base32 :
    Inverts (base32Decoder base32DecodeTable base32DecodeTable.length) base32EncodeTable := by
  constructor <;> decide +kernel

/-- A digit, or `none` for a pad character, as the character it is written as. -/
def symChar (alphabet : Bytes) : Option ℕ → UInt8
  | some v => tableAt alphabet v
  | none => padChar

/-- The accumulator after one symbol. -/
def shiftIn (bits x : ℕ) (s : Option ℕ) : ℕ := (x * 2 ^ bits + s.getD 0) % 2 ^ 64

variable {k chars w : ℕ}

section Group

variable {d : BaseDecoder} {alphabet : Bytes}

theorem decodeByte_sym (h : Inverts d alphabet) (hk : d.chars = 2 ^ k) (s : Option ℕ)
    (hs : ∀ v ∈ s, v < 2 ^ d.bits) (st : DecodeState) :
    decodeByte d (symChar alphabet s) st = some {
      x := shiftIn d.bits st.x s
      count := st.count + 1
      pad := if s = none then st.pad + 1 else st.pad
      dest := if (st.count + 1) % d.chars = 0 then st.dest ++ d.out (shiftIn d.bits st.x s)
        else st.dest } := by
  have hmask : ∀ c, c &&& (d.chars - 1) = c % d.chars := fun c => by
    rw [hk, Nat.and_two_pow_sub_one_eq_mod]
  cases s with
  | none =>
    have hb : ¬(padChar = 0x0a ∨ padChar = 0x09 ∨ padChar = 0x20) := by decide
    have hlt := h.pad_lt
    simp only [decodeByte, symChar, hb, if_false, h.pad_value, hmask, shiftIn, Nat.shiftLeft_eq]
    rw [if_neg (by omega)]
    simp
  | some v =>
    have hv := hs v rfl
    have hb := h.not_blank v hv
    have hlt := h.lt_size v hv
    have hval := h.value v hv
    simp only [mem_cons, not_mem_nil, or_false] at hb
    simp only [decodeByte, symChar, hval, hmask, shiftIn, Nat.shiftLeft_eq]
    rw [if_neg (by omega), if_neg (by omega)]
    simp

/-- The symbols of a group that does not complete only fill the accumulator. -/
theorem decodeBytes_syms (h : Inverts d alphabet) (hk : d.chars = 2 ^ k)
    (syms : List (Option ℕ)) (st : DecodeState) (hs : ∀ s ∈ syms, ∀ v ∈ s, v < 2 ^ d.bits)
    (hlen : st.count % d.chars + syms.length < d.chars) :
    decodeBytes d (syms.map (symChar alphabet)) st = some {
      x := syms.foldl (shiftIn d.bits) st.x
      count := st.count + syms.length
      pad := st.pad + syms.count none
      dest := st.dest } := by
  induction syms generalizing st with
  | nil => rfl
  | cons s syms ih =>
    rw [length_cons] at hlen
    have hmod : (st.count + 1) % d.chars = st.count % d.chars + 1 := by
      rw [Nat.add_mod, Nat.mod_eq_of_lt (show 1 < d.chars by omega), Nat.mod_eq_of_lt (by omega)]
    have hne : (st.count + 1) % d.chars ≠ 0 := by rw [hmod]; exact Nat.succ_ne_zero _
    rw [map_cons, decodeBytes, decodeByte_sym h hk s (hs s (by simp)), bind_some,
      ih _ (fun s' hs' => hs s' (by simp [hs'])) (by simp only; omega)]
    cases s <;> simp <;> omega

theorem decodeBytes_append (d : BaseDecoder) (p q : Bytes) (st : DecodeState) :
    decodeBytes d (p ++ q) st = (decodeBytes d p st).bind (decodeBytes d q) := by
  induction p generalizing st with
  | nil => rfl
  | cons b p ih =>
    rw [cons_append, decodeBytes, decodeBytes, bind_assoc]
    congr 1
    funext st'
    exact ih st'

/-- One complete group of symbols: `out` of the accumulator is written. -/
theorem decodeBytes_group (h : Inverts d alphabet) (hk : d.chars = 2 ^ k)
    (syms : List (Option ℕ)) (st : DecodeState) (hs : ∀ s ∈ syms, ∀ v ∈ s, v < 2 ^ d.bits)
    (hlen : syms.length = d.chars) (hcount : st.count % d.chars = 0) :
    decodeBytes d (syms.map (symChar alphabet)) st = some {
      x := syms.foldl (shiftIn d.bits) st.x
      count := st.count + syms.length
      pad := st.pad + syms.count none
      dest := st.dest ++ d.out (syms.foldl (shiftIn d.bits) st.x) } := by
  have hpos : 0 < d.chars := by rw [hk]; positivity
  rcases eq_nil_or_concat syms with rfl | ⟨init, s, rfl⟩
  · simp at hlen; omega
  · simp only [concat_eq_append, length_append, length_singleton] at hlen hs ⊢
    have hmod : (st.count + init.length + 1) % d.chars = 0 := by
      rw [show st.count + init.length + 1 = st.count + d.chars by omega, Nat.add_mod_right, hcount]
    rw [map_append, decodeBytes_append,
      decodeBytes_syms h hk init st (fun s hs' => hs s (by simp [hs'])) (by omega),
      bind_some, map_singleton, decodeBytes, decodeByte_sym h hk s (hs s (by simp)),
      bind_some, decodeBytes, if_pos hmod]
    cases s <;> simp [add_assoc]

end Group

/-! ## The accumulator -/

/-- The number a sequence of symbols spells. -/
def symValue (bits : ℕ) (syms : List (Option ℕ)) : ℕ :=
  syms.foldl (fun n s => n * 2 ^ bits + s.getD 0) 0

theorem foldl_shiftIn (bits : ℕ) (syms : List (Option ℕ)) (x : ℕ) : syms.foldl (shiftIn bits) x ≡
    syms.foldl (fun n s => n * 2 ^ bits + s.getD 0) x [MOD 2 ^ 64] := by
  induction syms using List.reverseRecOn with
  | nil => rfl
  | append_singleton syms s ih =>
    rw [foldl_append, foldl_append]
    exact (Nat.mod_modEq _ _).trans ((ih.mul_right _).add_right _)

theorem foldl_symValue (bits : ℕ) (syms : List (Option ℕ)) (n : ℕ) :
    syms.foldl (fun n s => n * 2 ^ bits + s.getD 0) n =
      n * 2 ^ (bits * syms.length) + symValue bits syms := by
  induction syms using List.reverseRecOn with
  | nil => simp [symValue]
  | append_singleton syms s ih =>
    simp only [symValue, foldl_append, foldl_cons, foldl_nil, length_append] at ih ⊢
    rw [ih, length_singleton, Nat.mul_succ]
    ring

/-- A group of at most 64 bits overwrites what the accumulator held before. -/
theorem foldl_shiftIn_mod (bits : ℕ) (syms : List (Option ℕ)) (x : ℕ)
    (h : bits * syms.length ≤ 64) :
    syms.foldl (shiftIn bits) x % 2 ^ (bits * syms.length) =
      symValue bits syms % 2 ^ (bits * syms.length) := by
  have h1 := foldl_shiftIn bits syms x
  rw [foldl_symValue] at h1
  have h2 : syms.foldl (shiftIn bits) x ≡ x * 2 ^ (bits * syms.length) + symValue bits syms
      [MOD 2 ^ (bits * syms.length)] := h1.of_dvd (pow_dvd_pow 2 h)
  rw [h2, Nat.mul_add_mod_self_right]

/-! ## Round trip -/

/-- The symbols of an RFC 4648 group: `k` digits and `chars - k` pads. -/
def groupSyms (w chars : ℕ) (g : Bytes) (k : ℕ) : List (Option ℕ) :=
  (digits w chars (groupValue g) k).map some ++ List.replicate (chars - k) none

theorem encodeGroup_eq_syms (alphabet : Bytes) (w chars : ℕ) (g : Bytes) (k : ℕ) :
    encodeGroup alphabet w chars g k = (groupSyms w chars g k).map (symChar alphabet) := by
  simp [encodeGroup, groupSyms, symChar]

theorem groupSyms_lt (w chars : ℕ) (g : Bytes) (k : ℕ) :
    ∀ s ∈ groupSyms w chars g k, ∀ v ∈ s, v < 2 ^ w := by
  intro s hs v hv
  simp only [groupSyms, mem_append, List.mem_map, mem_replicate] at hs
  rcases hs with ⟨u, hu, rfl⟩ | ⟨-, rfl⟩
  · cases hv
    obtain ⟨i, -, rfl⟩ := List.mem_map.mp hu
    exact Nat.mod_lt _ (by positivity)
  · cases hv

theorem length_groupSyms (g : Bytes) (h : k ≤ chars) :
    (groupSyms w chars g k).length = chars := by
  simp [groupSyms, digits]; omega

theorem count_none_groupSyms (w chars : ℕ) (g : Bytes) (k : ℕ) :
    (groupSyms w chars g k).count none = chars - k := by
  rw [groupSyms, count_append, count_eq_zero_of_not_mem]
  · simp
  · simp

variable {d : BaseDecoder}

/-- Decoding one encoded group, from a group boundary. The digits past `k` are
zero, as the pads are read. -/
theorem decodeBytes_encodeGroup {alphabet : Bytes} (h : Inverts d alphabet)
    (hk : d.chars = 2 ^ k) (hbits : d.bits * d.chars ≤ 64) (g : Bytes) (j : ℕ)
    (hj : j ≤ d.chars) (hval : symValue d.bits (groupSyms d.bits d.chars g j) = groupValue g)
    (hout : ∀ x, x % 2 ^ (d.bits * d.chars) = groupValue g % 2 ^ (d.bits * d.chars) → d.out x = g)
    (st : DecodeState) (hcount : st.count % d.chars = 0) :
    ∃ x, decodeBytes d (encodeGroup alphabet d.bits d.chars g j) st =
      some ⟨x, st.count + d.chars, st.pad + (d.chars - j), st.dest ++ g⟩ := by
  have hlen := length_groupSyms (w := d.bits) g hj
  refine ⟨(groupSyms d.bits d.chars g j).foldl (shiftIn d.bits) st.x, ?_⟩
  rw [encodeGroup_eq_syms, decodeBytes_group h hk _ st (groupSyms_lt _ _ _ _) hlen hcount, hlen,
    count_none_groupSyms, hout]
  have hmod := foldl_shiftIn_mod d.bits (groupSyms d.bits d.chars g j) st.x
    (by rw [hlen]; exact hbits)
  rwa [hlen, hval] at hmod

theorem base64_out (a b c : UInt8) (x : ℕ)
    (h : x % 2 ^ (6 * 4) = groupValue [a, b, c] % 2 ^ (6 * 4)) :
    base64Decoder.out x = [a, b, c] := by
  have ha := a.toNat_lt
  have hb := b.toNat_lt
  have hc := c.toNat_lt
  have hn : groupValue [a, b, c] = (a.toNat * 256 + b.toNat) * 256 + c.toNat := by
    simp [groupValue]
  have h0 : (x >>> 16) &&& 0xff = a.toNat := (inside x 16 8).trans (by omega)
  have h1 : (x >>> 8) &&& 0xff = b.toNat := (inside x 8 8).trans (by omega)
  have h2 : x &&& 0xff = c.toNat := (Nat.and_two_pow_sub_one_eq_mod x 8).trans (by omega)
  simp only [base64Decoder, map_cons, map_nil, h0, h1, h2, UInt8.ofNat_toNat]

theorem base32_out (table : List ℤ) (tableSize : ℕ) (a b c d f : UInt8) (x : ℕ)
    (h : x % 2 ^ (5 * 8) = groupValue [a, b, c, d, f] % 2 ^ (5 * 8)) :
    (base32Decoder table tableSize).out x = [a, b, c, d, f] := by
  have ha := a.toNat_lt
  have hb := b.toNat_lt
  have hc := c.toNat_lt
  have hd := d.toNat_lt
  have hf := f.toNat_lt
  have hn : groupValue [a, b, c, d, f] =
      (((a.toNat * 256 + b.toNat) * 256 + c.toNat) * 256 + d.toNat) * 256 + f.toNat := by
    simp [groupValue]
  have h0 : (x >>> 32) &&& 0xff = a.toNat := (inside x 32 8).trans (by omega)
  have h1 : (x >>> 24) &&& 0xff = b.toNat := (inside x 24 8).trans (by omega)
  have h2 : (x >>> 16) &&& 0xff = c.toNat := (inside x 16 8).trans (by omega)
  have h3 : (x >>> 8) &&& 0xff = d.toNat := (inside x 8 8).trans (by omega)
  have h4 : x &&& 0xff = f.toNat := (Nat.and_two_pow_sub_one_eq_mod x 8).trans (by omega)
  simp only [base32Decoder, map_cons, map_nil, h0, h1, h2, h3, h4, UInt8.ofNat_toNat]

/-- The first `k` digits spell the group without its low bits. -/
theorem symValue_digits {n : ℕ} (hn : n < 2 ^ (w * chars)) (hk : k ≤ chars) :
    symValue w ((digits w chars n k).map some) = n / 2 ^ (w * (chars - k)) := by
  induction k with
  | zero => rw [Nat.sub_zero, Nat.div_eq_of_lt hn]; rfl
  | succ k ih =>
    have hpow : 2 ^ (w * (chars - k)) = 2 ^ (w * (chars - (k + 1))) * 2 ^ w := by
      rw [← pow_add, ← Nat.mul_succ]
      congr 2
      omega
    have hstep : symValue w ((digits w chars n (k + 1)).map some) =
        symValue w ((digits w chars n k).map some) * 2 ^ w +
          n / 2 ^ (w * (chars - 1 - k)) % 2 ^ w := by
      simp [symValue, digits, range_succ]
    rw [hstep, ih (by omega), show chars - 1 - k = chars - (k + 1) by omega, hpow,
      ← Nat.div_div_eq_div_mul]
    exact Nat.div_add_mod' _ _

/-- The digits of a group followed by pads spell the group when the bits the
pads stand for are zero. -/
theorem symValue_groupSyms (g : Bytes) (hk : k ≤ chars)
    (hn : groupValue g < 2 ^ (w * chars)) (hdvd : 2 ^ (w * (chars - k)) ∣ groupValue g) :
    symValue w (groupSyms w chars g k) = groupValue g := by
  have hpads : ∀ m n : ℕ, (List.replicate m (none : Option ℕ)).foldl
      (fun n s => n * 2 ^ w + s.getD 0) n = n * 2 ^ (w * m) := by
    intro m n
    induction m generalizing n with
    | zero => simp
    | succ m ih => rw [replicate_succ, foldl_cons, ih]; simp; ring
  have hd := symValue_digits hn hk
  unfold symValue at hd ⊢
  rw [groupSyms, foldl_append, hd, hpads, Nat.div_mul_cancel hdvd]

theorem groupValue_lt (g : Bytes) : groupValue g < 2 ^ (8 * g.length) := by
  induction g using List.reverseRecOn with
  | nil => simp [groupValue]
  | append_singleton g b ih =>
    have hb := b.toNat_lt
    have hstep : groupValue (g ++ [b]) = groupValue g * 256 + b.toNat := by simp [groupValue]
    rw [length_append, length_singleton, Nat.mul_add, pow_add]
    omega

/-- Decoding the encoding of `bs` from a group boundary writes `bs` and the zero
bytes that the trimming will drop. -/
theorem decodeBytes_rfc4648Base64 (bs : Bytes) (st : DecodeState) (hst : st.count % 4 = 0) :
    ∃ x count pad, decodeBytes base64Decoder (rfc4648Base64 bs) st = some
      ⟨x, count, st.pad + pad, st.dest ++ bs ++ List.replicate (base64Decoder.trim pad) 0⟩ := by
  have hgroup : ∀ (a b c : UInt8) (j : ℕ), j ≤ 4 → 2 ^ (6 * (4 - j)) ∣ groupValue [a, b, c] →
      ∀ st : DecodeState, st.count % 4 = 0 →
        ∃ x, decodeBytes base64Decoder (encodeGroup base64EncodeTable 6 4 [a, b, c] j) st =
          some ⟨x, st.count + 4, st.pad + (4 - j), st.dest ++ [a, b, c]⟩ :=
    fun a b c j hj hdvd st hst => decodeBytes_encodeGroup inverts_base64 (k := 2) rfl (by decide)
      [a, b, c] j hj (symValue_groupSyms _ hj (groupValue_lt [a, b, c]) hdvd)
      (base64_out a b c) st hst
  induction bs using rfc4648Base64.induct generalizing st with
  | case1 => exact ⟨st.x, st.count, 0, by simp [rfc4648Base64, decodeBytes, base64Decoder]⟩
  | case2 a =>
    obtain ⟨x, hx⟩ := hgroup a 0 0 2 (by norm_num) (by simp [groupValue]; omega) st hst
    exact ⟨x, _, 2, by simpa [rfc4648Base64, base64Decoder] using hx⟩
  | case3 a b =>
    obtain ⟨x, hx⟩ := hgroup a b 0 3 (by norm_num) (by simp [groupValue]; omega) st hst
    exact ⟨x, _, 1, by simpa [rfc4648Base64, base64Decoder] using hx⟩
  | case4 a b c rest ih =>
    obtain ⟨x, hx⟩ := hgroup a b c 4 (by norm_num) (by simp) st hst
    simp only [Nat.sub_self, add_zero] at hx
    obtain ⟨y, count, pad, hy⟩ := ih ⟨x, st.count + 4, st.pad, st.dest ++ [a, b, c]⟩
      (by simp only; omega)
    rw [rfc4648Base64, decodeBytes_append, hx, bind_some, hy]
    simp

theorem decodeBytes_rfc4648Base32 {table : List ℤ} {tableSize : ℕ} {alphabet : Bytes}
    (h : Inverts (base32Decoder table tableSize) alphabet) (bs : Bytes) (st : DecodeState)
    (hst : st.count % 8 = 0) :
    ∃ x count pad, decodeBytes (base32Decoder table tableSize) (rfc4648Base32 alphabet bs) st =
      some ⟨x, count, st.pad + pad,
        st.dest ++ bs ++ List.replicate ((base32Decoder table tableSize).trim pad) 0⟩ := by
  have hgroup : ∀ (a b c d f : UInt8) (j : ℕ), j ≤ 8 →
      2 ^ (5 * (8 - j)) ∣ groupValue [a, b, c, d, f] →
      ∀ st : DecodeState, st.count % 8 = 0 →
        ∃ x, decodeBytes (base32Decoder table tableSize)
          (encodeGroup alphabet 5 8 [a, b, c, d, f] j) st =
            some ⟨x, st.count + 8, st.pad + (8 - j), st.dest ++ [a, b, c, d, f]⟩ :=
    fun a b c d f j hj hdvd st hst => decodeBytes_encodeGroup h (k := 3) rfl (by simp [base32Decoder])
      [a, b, c, d, f] j hj (symValue_groupSyms _ hj (groupValue_lt [a, b, c, d, f]) hdvd)
      (base32_out table tableSize a b c d f) st hst
  induction bs using rfc4648Base32.induct generalizing st with
  | case1 => exact ⟨st.x, st.count, 0, by simp [rfc4648Base32, decodeBytes, base32Decoder]⟩
  | case2 a =>
    obtain ⟨x, hx⟩ := hgroup a 0 0 0 0 2 (by norm_num) (by simp [groupValue]; omega) st hst
    exact ⟨x, _, 6, by simpa [rfc4648Base32, base32Decoder] using hx⟩
  | case3 a b =>
    obtain ⟨x, hx⟩ := hgroup a b 0 0 0 4 (by norm_num) (by simp [groupValue]; omega) st hst
    exact ⟨x, _, 4, by simpa [rfc4648Base32, base32Decoder] using hx⟩
  | case4 a b c =>
    obtain ⟨x, hx⟩ := hgroup a b c 0 0 5 (by norm_num) (by simp [groupValue]; omega) st hst
    exact ⟨x, _, 3, by simpa [rfc4648Base32, base32Decoder] using hx⟩
  | case5 a b c d =>
    obtain ⟨x, hx⟩ := hgroup a b c d 0 7 (by norm_num) (by simp [groupValue]; omega) st hst
    exact ⟨x, _, 1, by simpa [rfc4648Base32, base32Decoder] using hx⟩
  | case6 a b c d f rest ih =>
    obtain ⟨x, hx⟩ := hgroup a b c d f 8 (by norm_num) (by simp) st hst
    simp only [Nat.sub_self, add_zero] at hx
    obtain ⟨y, count, pad, hy⟩ := ih ⟨x, st.count + 8, st.pad, st.dest ++ [a, b, c, d, f]⟩
      (by simp only; omega)
    rw [rfc4648Base32, decodeBytes_append, hx, bind_some, hy]
    simp

/-- A contiguous text whose loop writes `b` and the bytes to trim decodes to `b`. -/
theorem transformFromBase_contiguous {text b : Bytes} (hne : text ≠ [])
    (hb : b.length < 2 ^ 64) {x count pad : ℕ} (h : decodeBytes d text ⟨0, 0, 0, []⟩ =
      some ⟨x, count, pad, b ++ List.replicate (d.trim pad) 0⟩) :
    (transformFromBase d (DispatchData.contiguous text)).bind decodedBytes = some b := by
  have hfinal : (b.length + d.trim pad + 2 ^ 64 - d.trim pad) % 2 ^ 64 = b.length := by
    rw [show b.length + d.trim pad + 2 ^ 64 - d.trim pad = b.length + 2 ^ 64 by omega,
      Nat.add_mod_right, Nat.mod_eq_of_lt hb]
  simp only [transformFromBase, dispatchDataApply, DispatchData.contiguous, hne, if_false,
    applyRegions, decodeRegion, h, map_some, bind_some, nil_append,
    decodedBytes, length_append, length_replicate, hfinal]
  simp [DecodedRegion.contents?]

theorem fromBase64_rfc4648 (b : Bytes) (hne : b ≠ []) (hb : b.length < 2 ^ 64) :
    (dispatchTransformFromBase64 (DispatchData.contiguous (rfc4648Base64 b))).bind decodedBytes =
      some b := by
  obtain ⟨x, count, pad, h⟩ := decodeBytes_rfc4648Base64 b ⟨0, 0, 0, []⟩ rfl
  have htext : rfc4648Base64 b ≠ [] := by
    have := length_pos_iff.mpr hne
    rw [← length_pos_iff, length_rfc4648Base64, howmany]
    omega
  exact transformFromBase_contiguous htext hb (by simpa using h)

theorem fromBase32_rfc4648 (b : Bytes) (hne : b ≠ []) (hb : b.length < 2 ^ 64) :
    (dispatchTransformFromBase32 (DispatchData.contiguous
      (rfc4648Base32 base32EncodeTable b))).bind decodedBytes = some b := by
  obtain ⟨x, count, pad, h⟩ := decodeBytes_rfc4648Base32 inverts_base32 b ⟨0, 0, 0, []⟩ rfl
  have htext : rfc4648Base32 base32EncodeTable b ≠ [] := by
    have := length_pos_iff.mpr hne
    rw [← length_pos_iff, length_rfc4648Base32, howmany]
    omega
  exact transformFromBase_contiguous htext hb (by simpa using h)

/-! ## Both codecs -/

/-- **Base 64 and base 32, end to end.** For every non-empty byte string and
every way of cutting it into regions, provided the two encoded sizes pass the
overflow guards (lines 672 and 907), the encoders write exactly `dest_size`
bytes, which are the RFC 4648 encoding of the bytes, and decoding that text
from one region gives the bytes back. -/
theorem baseN_codec (data : DispatchData) (hne : data.bytes ≠ [])
    (h64 : howmany data.getSize 3 ≤ sizeTMax / 4) (h32 : howmany data.getSize 5 ≤ sizeTMax / 8) :
    (∃ destSize, dispatchTransformToBase64 data = some (rfc4648Base64 data.bytes, destSize) ∧
      (rfc4648Base64 data.bytes).length = destSize) ∧
    (∃ destSize, dispatchTransformToBase32 data =
        some (rfc4648Base32 base32EncodeTable data.bytes, destSize) ∧
      (rfc4648Base32 base32EncodeTable data.bytes).length = destSize) ∧
    (dispatchTransformFromBase64
      (DispatchData.contiguous (rfc4648Base64 data.bytes))).bind decodedBytes = some data.bytes ∧
    (dispatchTransformFromBase32
      (DispatchData.contiguous (rfc4648Base32 base32EncodeTable data.bytes))).bind decodedBytes =
        some data.bytes := by
  have hlt : data.bytes.length < 2 ^ 64 := by
    simp only [howmany, DispatchData.getSize, sizeTMax] at h64
    omega
  exact ⟨⟨_, toBase64_eq_rfc4648 data hne h64, rfl⟩,
    ⟨_, toBase32WithTable_eq_rfc4648 base32EncodeTable data hne h32, rfl⟩,
    fromBase64_rfc4648 data.bytes hne hlt, fromBase32_rfc4648 data.bytes hne hlt⟩

/-- `"fo"`, `"obar"`: the second region starts inside a group. -/
def fooBar : DispatchData where
  regions := [ascii "fo", ascii "obar"]
  regions_ne_nil := by decide

theorem baseN_codec_fooBar :
    (∃ destSize, dispatchTransformToBase64 fooBar = some (rfc4648Base64 fooBar.bytes, destSize) ∧
      (rfc4648Base64 fooBar.bytes).length = destSize) ∧
    rfc4648Base64 fooBar.bytes = ascii "Zm9vYmFy" ∧
    rfc4648Base32 base32EncodeTable fooBar.bytes = ascii "MZXW6YTBOI======" :=
  ⟨(baseN_codec fooBar (by decide) (by decide) (by decide)).1, by decide +kernel, by decide +kernel⟩

/-- Three quarters of the address space: encoded in base 64 it has `2 ^ 64`
characters, one more than `SIZE_T_MAX`. -/
def hugeData : DispatchData := DispatchData.contiguous (List.replicate (3 * 2 ^ 62) 0)

/-- The guard at line 907 turns such data away. -/
theorem toBase64_hugeData :
    hugeData.bytes ≠ [] ∧ dispatchTransformToBase64 hugeData = none := by
  have hbytes : hugeData.bytes = List.replicate (3 * 2 ^ 62) 0 := DispatchData.contiguous_bytes _
  have hsize : hugeData.getSize = 3 * 2 ^ 62 := by
    rw [DispatchData.getSize, hbytes, length_replicate]
  constructor
  · rw [← length_pos_iff, ← DispatchData.getSize, hsize]
    norm_num
  · have hguard : howmany hugeData.getSize base64Encoder.group > sizeTMax / base64Encoder.chars := by
      rw [hsize]
      decide
    simp only [dispatchTransformToBase64, transformToBase]
    rw [if_pos hguard]

/-! ## Base 32 with the extended hex alphabet -/

theorem mem_encodeGroup {alphabet g : Bytes} {w chars k : ℕ} {c : UInt8}
    (h : c ∈ encodeGroup alphabet w chars g k) :
    ∃ s : Option ℕ, (∀ v ∈ s, v < 2 ^ w) ∧ symChar alphabet s = c := by
  rw [encodeGroup_eq_syms, List.mem_map] at h
  obtain ⟨s, hs, rfl⟩ := h
  exact ⟨s, groupSyms_lt w chars g k s hs, rfl⟩

theorem mem_rfc4648Base32 {alphabet : Bytes} {c : UInt8} : ∀ b : Bytes,
    c ∈ rfc4648Base32 alphabet b →
      ∃ s : Option ℕ, (∀ v ∈ s, v < 2 ^ 5) ∧ symChar alphabet s = c
  | [], h => absurd h not_mem_nil
  | [_], h | [_, _], h | [_, _, _], h | [_, _, _, _], h => mem_encodeGroup h
  | _ :: _ :: _ :: _ :: _ :: rest, h =>
    (mem_append.mp h).elim mem_encodeGroup (mem_rfc4648Base32 rest)

theorem decodeByte_base32hex {b : UInt8} (hb : 33 ≤ b.toNat) (st : DecodeState) :
    decodeByte (base32Decoder base32hexDecodeTable base32hexDecodeTableSize) b st = none := by
  have hblank : ¬(b = 0x0a ∨ b = 0x09 ∨ b = 0x20) := by
    rintro (rfl | rfl | rfl) <;> simp at hb
  rw [decodeByte, if_neg hblank]
  exact if_pos (.inl hb)

/-- **Base 32 hex.** The decoder takes no character of the alphabet: the round trip gives back
the empty string only. -/
theorem base32hex_roundTrip_iff (x : Bytes) :
    ((dispatchTransformToBase32hex (DispatchData.contiguous x)).bind fun text =>
      (dispatchTransformFromBase32hex (DispatchData.contiguous text.1)).bind decodedBytes) = some x ↔
      x = [] := by
  constructor
  · intro h
    by_contra hne
    obtain ⟨⟨text, n⟩, hto, hfrom⟩ := bind_eq_some_iff.mp h
    have hbytes := DispatchData.contiguous_bytes x
    have hguard : howmany (DispatchData.contiguous x).getSize 5 ≤ sizeTMax / 8 := by
      by_contra hbig
      have hnone : dispatchTransformToBase32hex (DispatchData.contiguous x) = none :=
        if_pos (not_le.mp hbig)
      rw [hnone] at hto
      cases hto
    rw [dispatchTransformToBase32hex,
      toBase32WithTable_eq_rfc4648 _ _ (by rwa [hbytes]) hguard, hbytes] at hto
    obtain ⟨rfl, -⟩ := Prod.mk.inj (some.inj hto)
    -- the first character is beyond the table
    obtain ⟨c, rest, htext⟩ : ∃ c rest, rfc4648Base32 base32hexEncodeTable x = c :: rest := by
      apply exists_cons_of_ne_nil
      have := length_pos_iff.mpr hne
      rw [← length_pos_iff, length_rfc4648Base32, howmany]
      omega
    have hc : 33 ≤ c.toNat := by
      obtain ⟨s, hs, rfl⟩ := mem_rfc4648Base32 x (htext ▸ mem_cons_self)
      rcases s with _ | v
      · decide
      · have hall : ∀ v < 2 ^ 5, 33 ≤ (tableAt base32hexEncodeTable v).toNat := by decide +kernel
        exact hall v (hs v rfl)
    have hnone : dispatchTransformFromBase32hex (DispatchData.contiguous (c :: rest)) = none := by
      simp [dispatchTransformFromBase32hex, dispatchTransformFromBase32WithTable, transformFromBase,
        dispatchDataApply, DispatchData.contiguous, applyRegions, decodeRegion, decodeBytes,
        decodeByte_base32hex hc]
    rw [htext, hnone] at hfrom
    cases hfrom
  · rintro rfl
    rfl

/-- One zero byte is encoded as `"00======"`, which the decoder turns away. -/
theorem base32hex_zero : (dispatchTransformToBase32hex (DispatchData.contiguous [0])).map Prod.fst =
      some (ascii "00======") ∧
    (dispatchTransformFromBase32hex (DispatchData.contiguous (ascii "00======"))).isNone := by
  decide +kernel

end Apple.Dispatch
