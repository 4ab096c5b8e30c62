import Apple.Dispatch.Data

/-!
# `_dispatch_transform_to_base64` and `_dispatch_transform_to_base32`

The two encoders of `libdispatch-913.60.2/src/transform.c` (lines 663–789 and
896–988) share one shape. They walk the regions of the data, and for every byte
write the characters that the byte completes. A character may straddle two
bytes; the previous byte is then `bytes[i - 1]`, or, at the start of a region,
the byte before the region, re-read through a one-byte subrange map. Padding is
written after the last region. `BaseEncoder` has the parts that differ.

Specification: RFC 4648, which the source cites (line 899). Input groups of 3
(5) bytes are 24-bit (40-bit) integers cut into 4 (8) digits of 6 (5) bits; a
final short group is padded with zero bits and its missing digits with `=`.

Results:
* `transformToBase_eq`: on every non-empty data object the encoder writes what
  it would write on the contiguous bytes, whatever the regions are.
* `toBase64_eq_rfc4648`, `toBase32WithTable_eq_rfc4648`: the characters written are the
  RFC 4648 encoding, and `dest_size` is their number.
-/

namespace Apple.Dispatch

open List Option

/-- The bytes of an ASCII string literal. -/
def ascii (s : String) : Bytes := s.toList.map fun c => UInt8.ofNat c.toNat

/-- `'='`. -/
def padChar : UInt8 := 0x3d

/-! ## Model -/

/-- What distinguishes the base32 from the base64 encoder. -/
structure BaseEncoder where
  /-- Input bytes per group. -/
  group : ℕ
  /-- Characters per group. -/
  chars : ℕ
  /-- The `switch (count % group)` of the loop, on `count % group`, `last` and
      `curr`: the characters appended at `ptr`. -/
  emit : ℕ → ℕ → ℕ → Bytes
  /-- The two `switch`es after the last region, on `count % group` and
      `bytes[size-1]`. -/
  finish : ℕ → ℕ → Bytes

/-- `last` (lines 694–707 and 928–941). `prev` is `bytes[i - 1]`, absent at
`i = 0`. At `offset = 0` the offset `offset - 1` wraps to `SIZE_T_MAX`, past
the end of every data object. -/
def lastByte (group : ℕ) (data : DispatchData) (offset count : ℕ) (prev : Option UInt8) :
    Option UInt8 :=
  if count % group ≠ 0 then
    match prev, offset with
    | some b, _ => some b
    | none, 0 => none
    | none, o + 1 => (data.subrangeMap o 1).bind List.head?
  else some 0

/-- The `for (i = 0; i < size; i++, count++)` loop (lines 691–738 and 925–955)
on `(count, bytes written)`. -/
def encodeBytes (e : BaseEncoder) (data : DispatchData) (offset : ℕ) :
    Option UInt8 → Bytes → ℕ × Bytes → Option (ℕ × Bytes)
  | _, [], st => some st
  | prev, curr :: rest, (count, out) =>
    (lastByte e.group data offset count prev).bind fun last =>
      encodeBytes e data offset (some curr) rest
        (count + 1, out ++ e.emit (count % e.group) last.toNat curr.toNat)

/-- The block given to `dispatch_data_apply` (lines 685–782 and 919–975). -/
def encodeRegion (e : BaseEncoder) (data : DispatchData) (total offset : ℕ) (bytes : Bytes)
    (st : ℕ × Bytes) : Option (ℕ × Bytes) :=
  (encodeBytes e data offset none bytes st).map fun st =>
    if offset + bytes.length = total then
      (st.1, st.2 ++ e.finish (st.1 % e.group) (bytes.getLastD 0).toNat)
    else st

/-- The whole encoder: the bytes written at `dest` and `dest_size`, the size of
the data object made from `dest`. `none` is `NULL`. -/
def transformToBase (e : BaseEncoder) (data : DispatchData) : Option (Bytes × ℕ) :=
  let total := data.getSize
  let destSize := howmany total e.group
  if destSize > sizeTMax / e.chars then none
  else
    let destSize := destSize * e.chars
    (dispatchDataApply data (encodeRegion e data total) (0, [])).map fun st => (st.2, destSize)

/-- `base64_encode_table` (lines 91–92). -/
def base64EncodeTable : Bytes :=
  ascii "ABCDEFGHIJKLMNOPQRSTUVWXYZabcdefghijklmnopqrstuvwxyz0123456789+/"

/-- `base32_encode_table` (lines 57–58). -/
def base32EncodeTable : Bytes := ascii "ABCDEFGHIJKLMNOPQRSTUVWXYZ234567"

/-- `base32hex_encode_table` (lines 72–73). -/
def base32hexEncodeTable : Bytes := ascii "0123456789ABCDEFGHIJKLMNOPQRSTUV"

/-- `table[index]`. -/
def tableAt (table : Bytes) (index : ℕ) : UInt8 := table.getD index 0

/-- The two `switch`es of `_dispatch_transform_to_base64` (lines 943–954 and
959–971). -/
def base64Encoder : BaseEncoder where
  group := 3
  chars := 4
  emit count last curr :=
    let t := tableAt base64EncodeTable
    match count with
    | 0 => [t ((curr >>> 2) &&& 0x3f)]
    | 1 => [t (((last <<< 4) ||| (curr >>> 4)) &&& 0x3f)]
    | 2 => [t (((last <<< 2) ||| (curr >>> 6)) &&& 0x3f), t (curr &&& 0x3f)]
    | _ => []
  finish count b :=
    let t := tableAt base64EncodeTable
    match count with
    | 1 => [t ((b <<< 4) &&& 0x30), padChar, padChar]
    | 2 => [t ((b <<< 2) &&& 0x3c), padChar]
    | _ => []

/-- The three `switch`es of `_dispatch_transform_to_base32_with_table`
(lines 709–737, 742–760 and 761–775; the last one falls through). -/
def base32Encoder (table : Bytes) : BaseEncoder where
  group := 5
  chars := 8
  emit count last curr :=
    let t := tableAt table
    match count with
    | 0 => [t ((curr >>> 3) &&& 0x1f)]
    | 1 => [t (((last <<< 2) ||| (curr >>> 6)) &&& 0x1f), t ((curr >>> 1) &&& 0x1f)]
    | 2 => [t (((last <<< 4) ||| (curr >>> 4)) &&& 0x1f)]
    | 3 => [t (((last <<< 1) ||| (curr >>> 7)) &&& 0x1f), t ((curr >>> 2) &&& 0x1f)]
    | 4 => [t (((last <<< 3) ||| (curr >>> 5)) &&& 0x1f), t (curr &&& 0x1f)]
    | _ => []
  finish count b :=
    let t := tableAt table
    match count with
    | 1 => [t ((b <<< 2) &&& 0x1c), padChar, padChar, padChar, padChar, padChar, padChar]
    | 2 => [t ((b <<< 4) &&& 0x10), padChar, padChar, padChar, padChar]
    | 3 => [t ((b <<< 1) &&& 0x1e), padChar, padChar, padChar]
    | 4 => [t ((b <<< 3) &&& 0x18), padChar]
    | _ => []

/-- `_dispatch_transform_to_base64` (lines 896–988). -/
def dispatchTransformToBase64 (data : DispatchData) : Option (Bytes × ℕ) :=
  transformToBase base64Encoder data

/-- `_dispatch_transform_to_base32_with_table` (lines 663–789). -/
def dispatchTransformToBase32WithTable (data : DispatchData) (table : Bytes) :
    Option (Bytes × ℕ) :=
  transformToBase (base32Encoder table) data

/-- `_dispatch_transform_to_base32` (lines 798–802). -/
def dispatchTransformToBase32 (data : DispatchData) : Option (Bytes × ℕ) :=
  dispatchTransformToBase32WithTable data base32EncodeTable

/-- `_dispatch_transform_to_base32hex` (lines 811–816). -/
def dispatchTransformToBase32hex (data : DispatchData) : Option (Bytes × ℕ) :=
  dispatchTransformToBase32WithTable data base32hexEncodeTable

/-! ## Specification: RFC 4648 -/

/-- An input group as a big-endian integer. -/
def groupValue (g : Bytes) : ℕ := g.foldl (fun n b => n * 256 + b.toNat) 0

/-- The first `k` of the `chars` digits, of `w` bits each, of the group `n`. -/
def digits (w chars n k : ℕ) : List ℕ :=
  (List.range k).map fun i => n / 2 ^ (w * (chars - 1 - i)) % 2 ^ w

/-- The characters of a group of which `k` digits carry input bits. -/
def encodeGroup (alphabet : Bytes) (w chars : ℕ) (g : Bytes) (k : ℕ) : Bytes :=
  (digits w chars (groupValue g) k).map (tableAt alphabet) ++ replicate (chars - k) padChar

/-- RFC 4648, section 4: base 64. -/
def rfc4648Base64 : Bytes → Bytes
  | [] => []
  | [a] => encodeGroup base64EncodeTable 6 4 [a, 0, 0] 2
  | [a, b] => encodeGroup base64EncodeTable 6 4 [a, b, 0] 3
  | a :: b :: c :: rest => encodeGroup base64EncodeTable 6 4 [a, b, c] 4 ++ rfc4648Base64 rest

/-- RFC 4648, section 6 (and 7, with the extended hex alphabet): base 32. -/
def rfc4648Base32 (alphabet : Bytes) : Bytes → Bytes
  | [] => []
  | [a] => encodeGroup alphabet 5 8 [a, 0, 0, 0, 0] 2
  | [a, b] => encodeGroup alphabet 5 8 [a, b, 0, 0, 0] 4
  | [a, b, c] => encodeGroup alphabet 5 8 [a, b, c, 0, 0] 5
  | [a, b, c, d] => encodeGroup alphabet 5 8 [a, b, c, d, 0] 7
  | a :: b :: c :: d :: f :: rest =>
    encodeGroup alphabet 5 8 [a, b, c, d, f] 8 ++ rfc4648Base32 alphabet rest

/-! ## The region boundaries do not matter -/

/-- What the loop writes for `bytes`, starting at `count` after the byte `last`. -/
def encodeFrom (e : BaseEncoder) : ℕ → UInt8 → Bytes → Bytes
  | _, _, [] => []
  | count, last, curr :: rest =>
    e.emit (count % e.group) (if count % e.group ≠ 0 then last else 0).toNat curr.toNat ++
      encodeFrom e (count + 1) curr rest

variable {e : BaseEncoder} {count : ℕ} {data : DispatchData}

theorem encodeFrom_start (h : count % e.group = 0)
    (last curr : UInt8) (rest : Bytes) : encodeFrom e count last (curr :: rest) =
      e.emit 0 (0 : UInt8).toNat curr.toNat ++ encodeFrom e (count + 1) curr rest := by
  simp [encodeFrom, h]

theorem encodeFrom_next (h : count % e.group = 0) (r : ℕ)
    (hr : r % e.group = r := by rfl) (hne : r ≠ 0 := by decide) (last curr : UInt8) (rest : Bytes) :
    encodeFrom e (count + r) last (curr :: rest) =
      e.emit r last.toNat curr.toNat ++ encodeFrom e (count + (r + 1)) curr rest := by
  have hmod : (count + r) % e.group = r := by rw [Nat.add_mod, h, zero_add, hr, hr]
  simp [encodeFrom, hmod, hne, add_assoc]

variable (e : BaseEncoder)

theorem encodeFrom_append (p q : Bytes) (count : ℕ) (last : UInt8) :
    encodeFrom e count last (p ++ q) =
      encodeFrom e count last p ++ encodeFrom e (count + p.length) (p.getLastD last) q := by
  induction p generalizing count last with
  | nil => simp [encodeFrom]
  | cons b p ih =>
    rw [cons_append, encodeFrom, encodeFrom, ih, append_assoc, getLastD_cons,
      length_cons, show count + 1 + p.length = count + (p.length + 1) by omega]

/-- Inside a region the previous byte is at hand. -/
theorem encodeBytes_some (data : DispatchData) (offset : ℕ) (bytes : Bytes)
    (b : UInt8) (count : ℕ) (out : Bytes) : encodeBytes e data offset (some b) bytes (count, out) =
      some (count + bytes.length, out ++ encodeFrom e count b bytes) := by
  induction bytes generalizing b count out with
  | nil => simp [encodeBytes, encodeFrom]
  | cons curr rest ih =>
    have hlast : lastByte e.group data offset count (some b) =
        some (if count % e.group ≠ 0 then b else 0) := by
      unfold lastByte; split_ifs <;> rfl
    rw [encodeBytes, hlast, bind_some, ih, encodeFrom, append_assoc,
      length_cons, show count + 1 + rest.length = count + (rest.length + 1) by omega]

/-- At the start of a region the previous byte comes from the subrange map. -/
theorem lastByte_none {group : ℕ} {p s : Bytes}
    (hdata : data.bytes = p ++ s) : lastByte group data p.length p.length none =
      some (if p.length % group ≠ 0 then p.getLastD 0 else 0) := by
  unfold lastByte
  split_ifs with h
  · rcases eq_nil_or_concat p with rfl | ⟨q, b, rfl⟩
    · simp at h
    · simp [DispatchData.subrangeMap, DispatchData.createSubrange, hdata]
  · rfl

theorem encodeBytes_region {p s : Bytes} (bytes out : Bytes)
    (hdata : data.bytes = p ++ bytes ++ s) :
    encodeBytes e data p.length none bytes (p.length, out) =
      some (p.length + bytes.length, out ++ encodeFrom e p.length (p.getLastD 0) bytes) := by
  cases bytes with
  | nil => simp [encodeBytes, encodeFrom]
  | cons curr rest =>
    rw [encodeBytes, lastByte_none (by rw [hdata, append_assoc]), bind_some,
      encodeBytes_some, encodeFrom, append_assoc, length_cons,
      show p.length + 1 + rest.length = p.length + (rest.length + 1) by omega]

/-- The whole output on contiguous bytes. -/
def encodeAll (e : BaseEncoder) (b : Bytes) : Bytes :=
  encodeFrom e 0 0 b ++ e.finish (b.length % e.group) (b.getLastD 0).toNat

/-- The state after the regions that make up the prefix `p`. -/
def EncodeInv (e : BaseEncoder) (total : ℕ) (p : Bytes) (st : ℕ × Bytes) : Prop :=
  st.1 = p.length ∧
    st.2 = if p.length = total ∧ p ≠ [] then encodeAll e p else encodeFrom e 0 0 p

theorem encodeRegion_inv (data : DispatchData) (p r s : Bytes) (st : ℕ × Bytes)
    (hdata : data.bytes = p ++ r ++ s) (hr : r ≠ []) (h : EncodeInv e data.getSize p st) :
    ∃ st', encodeRegion e data data.getSize p.length r st = some st' ∧
      EncodeInv e data.getSize (p ++ r) st' := by
  obtain ⟨count, out⟩ := st
  obtain ⟨rfl, hout⟩ := h
  -- `r` is not empty, so `p` was not the last region
  have hlt : p.length < data.getSize := by
    have := length_pos_iff.mpr hr
    simp only [DispatchData.getSize, hdata, length_append]
    omega
  have hout' : out = encodeFrom e 0 0 p := hout.trans (if_neg (by omega))
  have hflat : encodeFrom e 0 0 (p ++ r) =
      encodeFrom e 0 0 p ++ encodeFrom e p.length (p.getLastD 0) r := by
    rw [encodeFrom_append, zero_add]
  have hlast : r.getLastD 0 = (p ++ r).getLastD 0 := by
    rw [getLastD_eq_getLast?, getLastD_eq_getLast?, getLast?_append_of_ne_nil _ hr]
  unfold encodeRegion
  rw [encodeBytes_region e r out hdata, map_some, hout', ← hflat]
  by_cases hend : p.length + r.length = data.getSize
  · refine ⟨_, rfl, ?_, ?_⟩
    · simp [hend]
    · rw [if_pos hend, if_pos ⟨by simpa using hend, by simp [hr]⟩, encodeAll, hlast,
        length_append]
  · refine ⟨_, rfl, ?_, ?_⟩
    · simp [hend]
    · rw [if_neg hend, if_neg (by simp [hend])]

/-- **The encoders do not depend on fragmentation.** On non-empty data whose
encoded size is representable, the output is that of the contiguous bytes. -/
theorem transformToBase_eq (data : DispatchData) (hne : data.bytes ≠ [])
    (hsize : howmany data.getSize e.group ≤ sizeTMax / e.chars) : transformToBase e data =
      some (encodeAll e data.bytes, howmany data.getSize e.group * e.chars) := by
  obtain ⟨st, hst, hcount, hout⟩ := applyRegions_invariant
    (fun p r s st hall hmem h =>
      encodeRegion_inv e data p r s st hall (data.regions_ne_nil r hmem) h)
    data.regions [] (0, []) (fun _ h => h) rfl ⟨rfl, by simp [encodeFrom]⟩
  unfold transformToBase
  rw [if_neg (by omega), dispatchDataApply]
  simp only [length_nil] at hst
  rw [hst, map_some, hout, if_pos ⟨rfl, hne⟩]
  rfl

/-! ## Bit extraction -/

theorem or_shift (a : ℕ) {b k : ℕ} (h : b < 2 ^ k) : (a <<< k) ||| b = a * 2 ^ k + b := by
  rw [← Nat.shiftLeft_add_eq_or_of_lt h, Nat.shiftLeft_eq]

/-- A character that straddles two bytes: the low bits of `last` above the high
bits of `curr`. -/
theorem straddle (last : ℕ) {curr k : ℕ} (w : ℕ) (hk : k ≤ 8) (h : curr < 256) :
    ((last <<< k) ||| (curr >>> (8 - k))) &&& (2 ^ w - 1) =
      (last * 2 ^ k + curr / 2 ^ (8 - k)) % 2 ^ w := by
  have hlt : curr >>> (8 - k) < 2 ^ k := by
    rw [Nat.shiftRight_eq_div_pow, Nat.div_lt_iff_lt_mul (by positivity), ← pow_add,
      show k + (8 - k) = 8 by omega]
    exact h
  rw [or_shift last hlt, Nat.and_two_pow_sub_one_eq_mod, Nat.shiftRight_eq_div_pow]

/-- A character inside one byte. -/
theorem inside (curr k w : ℕ) : (curr >>> k) &&& (2 ^ w - 1) = curr / 2 ^ k % 2 ^ w := by
  rw [Nat.and_two_pow_sub_one_eq_mod, Nat.shiftRight_eq_div_pow]

/-- The last character of a short group: `m` low bits of the last byte, moved up. -/
theorem trailing (b k m : ℕ) : (b <<< k) &&& ((2 ^ m - 1) <<< k) = b % 2 ^ m * 2 ^ k := by
  rw [← Nat.shiftLeft_and_distrib, Nat.and_two_pow_sub_one_eq_mod, Nat.shiftLeft_eq]

/-! ## Groups of base 64 -/

section Base64Groups

variable (last a b c : UInt8)

/-- Digit `i` of a base64 group, as a character. -/
def char64 (g : Bytes) (i : ℕ) : UInt8 :=
  tableAt base64EncodeTable (groupValue g / 2 ^ (6 * (3 - i)) % 2 ^ 6)

theorem base64_emit : base64Encoder.emit 0 last.toNat a.toNat = [char64 [a, b, c] 0] ∧
    base64Encoder.emit 1 a.toNat b.toNat = [char64 [a, b, c] 1] ∧
    base64Encoder.emit 2 b.toNat c.toNat = [char64 [a, b, c] 2, char64 [a, b, c] 3] := by
  have hb := b.toNat_lt
  have hc := c.toNat_lt
  have hn : groupValue [a, b, c] = (a.toNat * 256 + b.toNat) * 256 + c.toNat := by
    simp [groupValue]
  have h0 : (a.toNat >>> 2) &&& 0x3f = groupValue [a, b, c] / 2 ^ 18 % 2 ^ 6 :=
    (inside _ 2 6).trans (by omega)
  have h1 : ((a.toNat <<< 4) ||| (b.toNat >>> 4)) &&& 0x3f =
      groupValue [a, b, c] / 2 ^ 12 % 2 ^ 6 :=
    (straddle _ 6 (by norm_num) hb).trans (by omega)
  have h2 : ((b.toNat <<< 2) ||| (c.toNat >>> 6)) &&& 0x3f =
      groupValue [a, b, c] / 2 ^ 6 % 2 ^ 6 :=
    (straddle _ 6 (by norm_num) hc).trans (by omega)
  have h3 : c.toNat &&& 0x3f = groupValue [a, b, c] / 2 ^ 0 % 2 ^ 6 :=
    (Nat.and_two_pow_sub_one_eq_mod _ 6).trans (by omega)
  simp only [base64Encoder, h0, h1, h2, h3]
  exact ⟨rfl, rfl, rfl⟩

theorem base64_finish : base64Encoder.finish 1 a.toNat = [char64 [a, 0, 0] 1, padChar, padChar] ∧
    base64Encoder.finish 2 b.toNat = [char64 [a, b, 0] 2, padChar] := by
  have h1 : (a.toNat <<< 4) &&& 0x30 = groupValue [a, 0, 0] / 2 ^ 12 % 2 ^ 6 :=
    (trailing _ 4 2).trans (by simp [groupValue]; omega)
  have h2 : (b.toNat <<< 2) &&& 0x3c = groupValue [a, b, 0] / 2 ^ 6 % 2 ^ 6 :=
    (trailing _ 2 4).trans (by simp [groupValue]; omega)
  simp only [base64Encoder, h1, h2]
  exact ⟨rfl, rfl⟩

end Base64Groups

/-- From a group boundary on, the loop and the padding write the RFC 4648
encoding. The recursion is that of the specification, one group at a time. -/
theorem encodeFrom_base64 : ∀ (bs : Bytes) (count : ℕ) (last : UInt8), count % 3 = 0 →
    encodeFrom base64Encoder count last bs ++
      base64Encoder.finish ((count + bs.length) % 3) (bs.getLastD last).toNat = rfc4648Base64 bs
  | [], count, last, h => by simp [encodeFrom, h, base64Encoder, rfc4648Base64]
  | [a], count, last, h => by
    rw [encodeFrom_start h, length_singleton, show (count + 1) % 3 = 1 by omega,
      (base64_emit 0 a 0 0).1]
    exact congrArg _ (base64_finish a 0).1
  | [a, b], count, last, h => by
    rw [encodeFrom_start h, encodeFrom_next h 1,
      show (count + [a, b].length) % 3 = 2 by simp; omega, (base64_emit 0 a b 0).1,
      (base64_emit 0 a b 0).2.1]
    exact congrArg (_ :: _ :: ·) (base64_finish a b).2
  | a :: b :: c :: rest, count, last, h => by
    have ih := encodeFrom_base64 rest (count + 3) c (by omega)
    rw [encodeFrom_start h, encodeFrom_next h 1, encodeFrom_next h 2,
      (base64_emit 0 a b c).1, (base64_emit 0 a b c).2.1, (base64_emit 0 a b c).2.2,
      rfc4648Base64, ← ih, getLastD_cons, getLastD_cons, getLastD_cons,
      show count + (a :: b :: c :: rest).length = count + 3 + rest.length by
        simp; omega]
    rfl

/-! ## Groups of base 32 -/

section Base32Groups

variable (table : Bytes) (last a b c d f : UInt8)

/-- Digit `i` of a base32 group, as a character. -/
def char32 (g : Bytes) (i : ℕ) : UInt8 :=
  tableAt table (groupValue g / 2 ^ (5 * (7 - i)) % 2 ^ 5)

theorem base32_emit :
    let g := [a, b, c, d, f]
    (base32Encoder table).emit 0 last.toNat a.toNat = [char32 table g 0] ∧
    (base32Encoder table).emit 1 a.toNat b.toNat = [char32 table g 1, char32 table g 2] ∧
    (base32Encoder table).emit 2 b.toNat c.toNat = [char32 table g 3] ∧
    (base32Encoder table).emit 3 c.toNat d.toNat = [char32 table g 4, char32 table g 5] ∧
    (base32Encoder table).emit 4 d.toNat f.toNat = [char32 table g 6, char32 table g 7] := by
  intro g
  have hb := b.toNat_lt
  have hc := c.toNat_lt
  have hd := d.toNat_lt
  have hf := f.toNat_lt
  have hn : groupValue g =
      (((a.toNat * 256 + b.toNat) * 256 + c.toNat) * 256 + d.toNat) * 256 + f.toNat := by
    simp [g, groupValue]
  have h0 : (a.toNat >>> 3) &&& 0x1f = groupValue g / 2 ^ 35 % 2 ^ 5 :=
    (inside _ 3 5).trans (by omega)
  have h1 : ((a.toNat <<< 2) ||| (b.toNat >>> 6)) &&& 0x1f = groupValue g / 2 ^ 30 % 2 ^ 5 :=
    (straddle _ 5 (by norm_num) hb).trans (by omega)
  have h2 : (b.toNat >>> 1) &&& 0x1f = groupValue g / 2 ^ 25 % 2 ^ 5 :=
    (inside _ 1 5).trans (by omega)
  have h3 : ((b.toNat <<< 4) ||| (c.toNat >>> 4)) &&& 0x1f = groupValue g / 2 ^ 20 % 2 ^ 5 :=
    (straddle _ 5 (by norm_num) hc).trans (by omega)
  have h4 : ((c.toNat <<< 1) ||| (d.toNat >>> 7)) &&& 0x1f = groupValue g / 2 ^ 15 % 2 ^ 5 :=
    (straddle _ 5 (by norm_num) hd).trans (by omega)
  have h5 : (d.toNat >>> 2) &&& 0x1f = groupValue g / 2 ^ 10 % 2 ^ 5 :=
    (inside _ 2 5).trans (by omega)
  have h6 : ((d.toNat <<< 3) ||| (f.toNat >>> 5)) &&& 0x1f = groupValue g / 2 ^ 5 % 2 ^ 5 :=
    (straddle _ 5 (by norm_num) hf).trans (by omega)
  have h7 : f.toNat &&& 0x1f = groupValue g / 2 ^ 0 % 2 ^ 5 :=
    (Nat.and_two_pow_sub_one_eq_mod _ 5).trans (by omega)
  simp only [base32Encoder, h0, h1, h2, h3, h4, h5, h6, h7]
  exact ⟨rfl, rfl, rfl, rfl, rfl⟩

/-- The last digit of a short group and the padding. -/
theorem base32_finish : (base32Encoder table).finish 1 a.toNat =
      char32 table [a, 0, 0, 0, 0] 1 :: replicate 6 padChar ∧
    (base32Encoder table).finish 2 b.toNat =
      char32 table [a, b, 0, 0, 0] 3 :: replicate 4 padChar ∧
    (base32Encoder table).finish 3 c.toNat =
      char32 table [a, b, c, 0, 0] 4 :: replicate 3 padChar ∧
    (base32Encoder table).finish 4 d.toNat =
      char32 table [a, b, c, d, 0] 6 :: replicate 1 padChar := by
  have h1 : (a.toNat <<< 2) &&& 0x1c = groupValue [a, 0, 0, 0, 0] / 2 ^ 30 % 2 ^ 5 :=
    (trailing _ 2 3).trans (by simp [groupValue]; omega)
  have h2 : (b.toNat <<< 4) &&& 0x10 = groupValue [a, b, 0, 0, 0] / 2 ^ 20 % 2 ^ 5 :=
    (trailing _ 4 1).trans (by simp [groupValue]; omega)
  have h3 : (c.toNat <<< 1) &&& 0x1e = groupValue [a, b, c, 0, 0] / 2 ^ 15 % 2 ^ 5 :=
    (trailing _ 1 4).trans (by simp [groupValue]; omega)
  have h4 : (d.toNat <<< 3) &&& 0x18 = groupValue [a, b, c, d, 0] / 2 ^ 5 % 2 ^ 5 :=
    (trailing _ 3 2).trans (by simp [groupValue]; omega)
  simp only [base32Encoder, h1, h2, h3, h4]
  exact ⟨rfl, rfl, rfl, rfl⟩

end Base32Groups

theorem encodeFrom_base32 (table : Bytes) : ∀ (bs : Bytes) (count : ℕ) (last : UInt8),
    count % 5 = 0 → encodeFrom (base32Encoder table) count last bs ++
      (base32Encoder table).finish ((count + bs.length) % 5) (bs.getLastD last).toNat =
        rfc4648Base32 table bs
  | [], count, last, h => by simp [encodeFrom, h, base32Encoder, rfc4648Base32]
  | [a], count, last, h => by
    rw [encodeFrom_start h, length_singleton, show (count + 1) % 5 = 1 by omega,
      (base32_emit table 0 a 0 0 0 0).1]
    exact congrArg _ (base32_finish table a 0 0 0).1
  | [a, b], count, last, h => by
    obtain ⟨e0, e1, -⟩ := base32_emit table 0 a b 0 0 0
    rw [encodeFrom_start h, encodeFrom_next h 1,
      show (count + [a, b].length) % 5 = 2 by simp; omega, e0, e1]
    exact congrArg (_ :: _ :: _ :: ·) (base32_finish table a b 0 0).2.1
  | [a, b, c], count, last, h => by
    obtain ⟨e0, e1, e2, -⟩ := base32_emit table 0 a b c 0 0
    rw [encodeFrom_start h, encodeFrom_next h 1, encodeFrom_next h 2,
      show (count + [a, b, c].length) % 5 = 3 by simp; omega, e0, e1, e2]
    exact congrArg (_ :: _ :: _ :: _ :: ·) (base32_finish table a b c 0).2.2.1
  | [a, b, c, d], count, last, h => by
    obtain ⟨e0, e1, e2, e3, -⟩ := base32_emit table 0 a b c d 0
    rw [encodeFrom_start h, encodeFrom_next h 1, encodeFrom_next h 2, encodeFrom_next h 3,
      show (count + [a, b, c, d].length) % 5 = 4 by simp; omega, e0, e1, e2, e3]
    exact congrArg (_ :: _ :: _ :: _ :: _ :: _ :: ·) (base32_finish table a b c d).2.2.2
  | a :: b :: c :: d :: f :: rest, count, last, h => by
    have ih := encodeFrom_base32 table rest (count + 5) f (by omega)
    obtain ⟨e0, e1, e2, e3, e4⟩ := base32_emit table 0 a b c d f
    rw [encodeFrom_start h, encodeFrom_next h 1, encodeFrom_next h 2, encodeFrom_next h 3,
      encodeFrom_next h 4,
      e0, e1, e2, e3, e4, rfc4648Base32, ← ih, getLastD_cons, getLastD_cons,
      getLastD_cons, getLastD_cons, getLastD_cons,
      show count + (a :: b :: c :: d :: f :: rest).length = count + 5 + rest.length by
        simp; omega]
    rfl

theorem encodeAll_base64 (b : Bytes) : encodeAll base64Encoder b = rfc4648Base64 b := by
  have := encodeFrom_base64 b 0 0 rfl
  rwa [zero_add] at this

theorem encodeAll_base32 (table b : Bytes) :
    encodeAll (base32Encoder table) b = rfc4648Base32 table b := by
  have := encodeFrom_base32 table b 0 0 rfl
  rwa [zero_add] at this

theorem length_encodeGroup (alphabet : Bytes) (w : ℕ) {chars k : ℕ} (g : Bytes) (h : k ≤ chars) :
    (encodeGroup alphabet w chars g k).length = chars := by
  simp [encodeGroup, digits]; omega

theorem length_rfc4648Base64 : ∀ b : Bytes, (rfc4648Base64 b).length = howmany b.length 3 * 4
  | [] => rfl
  | [_] | [_, _] => by simp [rfc4648Base64, length_encodeGroup, howmany]
  | a :: b :: c :: rest => by
    rw [rfc4648Base64, length_append, length_encodeGroup _ _ _ (by norm_num),
      length_rfc4648Base64 rest]
    simp [howmany]; omega

theorem length_rfc4648Base32 (table : Bytes) :
    ∀ b : Bytes, (rfc4648Base32 table b).length = howmany b.length 5 * 8
  | [] => rfl
  | [_] | [_, _] | [_, _, _] | [_, _, _, _] => by
    simp [rfc4648Base32, length_encodeGroup, howmany]
  | a :: b :: c :: d :: f :: rest => by
    rw [rfc4648Base32, length_append, length_encodeGroup _ _ _ (by norm_num),
      length_rfc4648Base32 table rest]
    simp [howmany]; omega

/-- **`_dispatch_transform_to_base64` is the RFC 4648 encoder.** -/
theorem toBase64_eq_rfc4648 (data : DispatchData) (hne : data.bytes ≠ [])
    (hsize : howmany data.getSize 3 ≤ sizeTMax / 4) : dispatchTransformToBase64 data =
      some (rfc4648Base64 data.bytes, (rfc4648Base64 data.bytes).length) := by
  rw [dispatchTransformToBase64, transformToBase_eq base64Encoder data hne hsize, encodeAll_base64,
    length_rfc4648Base64]
  rfl

/-- **`_dispatch_transform_to_base32_with_table` is the RFC 4648 encoder** over
the given alphabet. -/
theorem toBase32WithTable_eq_rfc4648 (table : Bytes) (data : DispatchData) (hne : data.bytes ≠ [])
    (hsize : howmany data.getSize 5 ≤ sizeTMax / 8) :
    dispatchTransformToBase32WithTable data table =
      some (rfc4648Base32 table data.bytes, (rfc4648Base32 table data.bytes).length) := by
  rw [dispatchTransformToBase32WithTable, transformToBase_eq (base32Encoder table) data hne hsize,
    encodeAll_base32, length_rfc4648Base32]
  rfl

end Apple.Dispatch
