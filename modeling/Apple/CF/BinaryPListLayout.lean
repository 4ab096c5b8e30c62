import Apple.CF.BinaryPListSizes
import Apple.CF.BinaryPListWrite

/-!
# Binary property lists: the layout of a written file

Where the parts of a written file stand, and that the reader finds them there: each object at its
offset, each offset in the table, and a trailer that `__CFBinaryPlistGetTopLevelInfo` accepts.

Results: `Written.at_encoding`, `Written.accepted`, `getTopLevelInfo_written`.
-/

namespace Apple.CF.BinaryPList

open Apple.Lib List
open Apple.Lib.Outcome

/-! ## Bytes at an offset -/

/-- The data has the bytes `part` at the offset `off`. -/
def Buffer.At (buf : Buffer) (off : ℕ) (part : List UInt8) : Prop := part <+: buf.bytes.drop off

variable {parts : List (List UInt8)} {i : ℕ}

section At

variable {buf : Buffer} {off : ℕ}

theorem Buffer.at_append {a b : List UInt8} :
    buf.At off (a ++ b) ↔ buf.At off a ∧ buf.At (off + a.length) b := by
  rw [Buffer.At, Buffer.At, Buffer.At, ← drop_drop]
  constructor
  · rintro ⟨rest, hrest⟩
    rw [← hrest]
    constructor
    · rw [append_assoc]
      exact prefix_append _ _
    · rw [append_assoc, drop_left]
      exact prefix_append _ _
  · rintro ⟨⟨rest, hrest⟩, ⟨rest', hrest'⟩⟩
    rw [← hrest, drop_left] at hrest'
    rw [← hrest, ← hrest', ← append_assoc]
    exact prefix_append _ _

variable {b : UInt8} {rest : List UInt8} {w : ℕ}

theorem Buffer.At.head (h : buf.At off (b :: rest)) : buf.bytes[off]? = some b := by
  obtain ⟨more, hmore⟩ := h
  have hget : (buf.bytes.drop off)[0]? = some b := by
    rw [← hmore]
    rfl
  rwa [getElem?_drop] at hget

theorem Buffer.At.tail (h : buf.At off (b :: rest)) : buf.At (off + 1) rest := by
  rw [← singleton_append, Buffer.at_append] at h
  exact h.2

theorem Buffer.At.slice_eq {part : List UInt8} (h : buf.At off part) :
    buf.slice off part.length = part := (prefix_iff_eq_take.mp h).symm

/-- A number is read back from its bytes. -/
theorem Buffer.At.ofBigEndian_slice {v : ℕ} (h : buf.At off (toBigEndian w v))
    (hv : v < 256 ^ w) : ofBigEndian (buf.slice off w) = v := by
  have hslice := h.slice_eq
  rw [length_toBigEndian] at hslice
  rw [hslice, ofBigEndian_toBigEndian, Nat.mod_eq_of_lt hv]

/-- One block of a sequence of blocks of the same size. -/
theorem Buffer.At.block {α : Type} {f : α → List UInt8} (hf : ∀ x, (f x).length = w)
    {l : List α} (h : buf.At off (l.flatMap f)) {k : ℕ} {x : α} (hk : l[k]? = some x) :
    buf.At (off + k * w) (f x) := by
  induction l generalizing off k with
  | nil => simp at hk
  | cons y l ih =>
    rw [flatMap_cons, Buffer.at_append, hf] at h
    match k, hk with
    | 0, hk =>
      obtain rfl : y = x := by simpa using hk
      simpa using h.1
    | k + 1, hk =>
      have hblock := ih h.2 (by simpa using hk)
      rwa [add_mul, one_mul, add_comm (k * w), ← add_assoc]

/-- One part of a sequence of parts. -/
theorem Buffer.At.part (h : buf.At off parts.flatten)
    {part : List UInt8} (hi : parts[i]? = some part) :
    buf.At (off + (parts.take i).flatten.length) part := by
  induction parts generalizing off i with
  | nil => simp at hi
  | cons first parts ih =>
    rw [flatten_cons, Buffer.at_append] at h
    match i, hi with
    | 0, hi =>
      obtain rfl : first = part := by simpa using hi
      simpa using h.1
    | i + 1, hi =>
      have hpart := ih h.2 (by simpa using hi)
      rwa [take_succ_cons, flatten_cons, length_append, ← add_assoc]

end At

/-! ## Offsets -/

theorem length_offsetsFrom (start : ℕ) (parts : List (List UInt8)) :
    (offsetsFrom start parts).length = parts.length := by
  induction parts generalizing start with
  | nil => rfl
  | cons part parts ih => rw [offsetsFrom, length_cons, ih, length_cons]

theorem getElem?_offsetsFrom {start : ℕ} (hi : i < parts.length) :
    (offsetsFrom start parts)[i]? = some (start + (parts.take i).flatten.length) := by
  induction parts generalizing start i with
  | nil => simp at hi
  | cons part parts ih =>
    match i, hi with
    | 0, _ => rfl
    | i + 1, hi =>
      rw [offsetsFrom, getElem?_cons_succ, ih (by simpa using hi), take_succ_cons,
        flatten_cons, length_append, ← add_assoc]

/-- Parts that are not empty end before the next one starts. -/
theorem length_take_flatten_lt (hne : ∀ part ∈ parts, part ≠ [])
    {j : ℕ} (hij : i < j) (hj : j ≤ parts.length) :
    (parts.take i).flatten.length < (parts.take j).flatten.length := by
  induction parts generalizing i j with
  | nil =>
    rw [length_nil] at hj
    omega
  | cons part parts ih =>
    obtain ⟨j, rfl⟩ := Nat.exists_eq_add_one_of_ne_zero (show j ≠ 0 by omega)
    have hpart : 0 < part.length := length_pos_of_ne_nil (hne part mem_cons_self)
    rw [take_succ_cons, flatten_cons, length_append]
    match i with
    | 0 =>
      rw [take_zero, flatten_nil, length_nil]
      omega
    | i + 1 =>
      rw [take_succ_cons, flatten_cons, length_append]
      have hlt := ih (fun part hpart => hne part (mem_cons_of_mem _ hpart))
        (show i < j by omega) (by simpa using hj)
      omega

/-! ## A written file -/

/-- The objects of the property lists that are written and read back: strings, 64-bit integers,
booleans, data, UIDs, arrays, and dictionaries whose keys are strings. -/
def Heap.Plain {ι : Type} (h : Heap ι) : Obj ι → Prop
  | .string _ | .number (.sint64 _) | .bool _ | .data _ | .uid _ | .array _ => True
  | .dict keys _ => ∀ k ∈ keys, ∃ chars, h.obj k = .string chars
  | .number (.sint128 _ _) | .number (.float32 _) | .number (.float64 _) | .date _ | .other => False

/-- The data holds the file of the property list `p`. -/
structure Written {ι : Type} [DecidableEq ι] (h : Heap ι) (p : ι) (buf : Buffer) : Prop where
  bytes_eq : buf.bytes = file h p
  count_lt : (flatten h p).objlist.length < 2 ^ 32
  le_longMax : (file h p).length ≤ longMax
  plain : ∀ q ∈ (flatten h p).objlist, h.Plain (h.obj q)

theorem encodeInt_ne_nil (bigint : ℕ) : encodeInt bigint ≠ [] := cons_ne_nil _ _

theorem encodeCount_ne_nil (marker count : ℕ) : encodeCount marker count ≠ [] :=
  cons_ne_nil _ _

theorem encode_ne_nil {ι : Type} {h : Heap ι} {o : Obj ι} (ho : h.Plain o) (ref : ι → ℕ)
    (size : ℕ) : o.encode ref size ≠ [] := by
  match o, ho with
  | .string chars, _ =>
    rw [Obj.encode, encodeString]
    split
    · simp [encodeCount_ne_nil]
    · simp [encodeCount_ne_nil]
  | .number (.sint64 value), _ => exact encodeInt_ne_nil _
  | .bool value, _ => exact cons_ne_nil _ _
  | .uid value, _ => exact cons_ne_nil _ _
  | .data bytes, _ | .array elements, _ | .dict keys values, _ =>
    simp [Obj.encode, encodeCount_ne_nil]

section File

variable {ι : Type} [DecidableEq ι] {h : Heap ι} {p : ι} {buf : Buffer}

/-- The offset of the object listed at `i`. -/
def fileOffset (h : Heap ι) (p : ι) (i : ℕ) : ℕ := 8 + ((encodings h p).take i).flatten.length

/-- The bytes of the object `q`. -/
def encoding (h : Heap ι) (p q : ι) : List UInt8 :=
  (h.obj q).encode (refnum (flatten h p).objtable) (fileTrailer h p).objectRefSize

theorem length_encodings : (encodings h p).length = (flatten h p).objlist.length :=
  length_map _

theorem length_fileOffsets : (fileOffsets h p).length = (flatten h p).objlist.length := by
  rw [fileOffsets, length_offsetsFrom, length_encodings]

theorem getElem?_fileOffsets (hi : i < (flatten h p).objlist.length) :
    (fileOffsets h p)[i]? = some (fileOffset h p i) :=
  getElem?_offsetsFrom (by rwa [length_encodings])

variable {q : ι}

variable (hi : (flatten h p).objlist[i]? = some q)

include hi in
theorem getElem?_encodings : (encodings h p)[i]? = some (encoding h p q) := by
  rw [encodings, getElem?_map, hi]
  rfl

theorem length_fileBody : (fileBody h p).length = 8 + (encodings h p).flatten.length := by
  rw [fileBody, length_append]
  rfl

theorem length_toBytes (trailer : Trailer) : trailer.toBytes.length = trailerSize := by
  simp [Trailer.toBytes, trailerSize]

theorem length_file : (file h p).length = (fileTrailer h p).offsetTableOffset +
    (fileTrailer h p).numObjects * (fileTrailer h p).offsetIntSize + trailerSize := by
  rw [file, length_append, length_append, length_flatMap]
  simp only [length_toBigEndian, map_const', sum_replicate, length_fileOffsets]
  rfl

theorem length_objlist_pos : 0 < (flatten h p).objlist.length := by
  have hhead := head_flatten h p
  obtain ⟨hlt, -⟩ := List.getElem?_eq_some_iff.mp hhead
  exact hlt

include hi in
/-- The objects stand before the offset table. -/
theorem fileOffset_add_le :
    fileOffset h p i + (encoding h p q).length ≤ (fileTrailer h p).offsetTableOffset := by
  have hsplit : (encodings h p).take (i + 1) = (encodings h p).take i ++ [encoding h p q] := by
    rw [take_add_one, getElem?_encodings hi]
    rfl
  have hle : ((encodings h p).take (i + 1)).flatten.length ≤ (encodings h p).flatten.length :=
    (List.take_prefix _ _).flatten.length_le
  rw [hsplit, flatten_append, length_append, flatten_singleton] at hle
  show _ ≤ (fileBody h p).length
  rw [length_fileBody, fileOffset]
  omega

namespace Written

variable (hw : Written h p buf)

include hw

theorem datalen_eq : buf.datalen = (file h p).length := by rw [Buffer.datalen, hw.bytes_eq]

theorem at_file : buf.At 0 (file h p) := by
  rw [Buffer.At, hw.bytes_eq]
  exact prefix_rfl

theorem at_body : buf.At 0 (fileBody h p) := by
  have hfile := hw.at_file
  rw [file, append_assoc, Buffer.at_append] at hfile
  exact hfile.1

theorem at_magic : buf.At 0 magic := by
  have hbody := hw.at_body
  rw [fileBody, append_assoc, Buffer.at_append] at hbody
  exact hbody.1

theorem at_table : buf.At (fileTrailer h p).offsetTableOffset
    ((fileOffsets h p).flatMap fun off => toBigEndian (fileTrailer h p).offsetIntSize off) := by
  have hfile := hw.at_file
  rw [file, append_assoc, Buffer.at_append, Buffer.at_append, zero_add] at hfile
  exact hfile.2.1

theorem at_trailer : buf.At (buf.datalen - trailerSize) (fileTrailer h p).toBytes := by
  have hfile := hw.at_file
  rw [file, Buffer.at_append, zero_add] at hfile
  have hlen := hw.datalen_eq
  rw [file, length_append, length_toBytes] at hlen
  rw [hlen]
  exact hfile.2

include hi in
/-- **Every object stands at its offset.** -/
theorem at_encoding : buf.At (fileOffset h p i) (encoding h p q) := by
  have hbody := hw.at_body
  rw [fileBody, Buffer.at_append] at hbody
  exact hbody.2.part (getElem?_encodings hi)

theorem encodings_ne_nil : ∀ part ∈ encodings h p, part ≠ [] := by
  intro part hpart
  obtain ⟨q, hq, rfl⟩ := List.mem_map.mp hpart
  exact encode_ne_nil (hw.plain q hq) _ _

include hi in
theorem encoding_ne_nil : 0 < (encoding h p q).length :=
  length_pos_of_ne_nil (encode_ne_nil (hw.plain q (mem_of_getElem? hi)) _ _)

theorem fileOffset_lt (hi : i < (flatten h p).objlist.length) :
    fileOffset h p i < (fileTrailer h p).offsetTableOffset := by
  have hget := getElem?_eq_getElem hi
  have hle := fileOffset_add_le hget
  have hpos := hw.encoding_ne_nil hget
  omega

/-- Objects listed at different places have different offsets. -/
theorem fileOffset_injective {j : ℕ} (hi : i < (flatten h p).objlist.length)
    (hj : j < (flatten h p).objlist.length) (heq : fileOffset h p i = fileOffset h p j) :
    i = j := by
  have hlt : ∀ i j, i < j → j < (flatten h p).objlist.length →
      fileOffset h p i < fileOffset h p j := by
    intro i j hij hj
    have := length_take_flatten_lt hw.encodings_ne_nil hij (by rw [length_encodings]; omega)
    rw [fileOffset, fileOffset]
    omega
  rcases lt_trichotomy i j with hij | hij | hij
  · have := hlt i j hij hj
    omega
  · exact hij
  · have := hlt j i hij hi
    omega

theorem offsetTableOffset_le : (fileTrailer h p).offsetTableOffset ≤ longMax := by
  have hle := hw.le_longMax
  rw [length_file] at hle
  omega

/-- **A written file is laid out as the reader expects.** -/
theorem accepted : Accepted buf (fileTrailer h p) where
  after_header := by
    have hlt := hw.fileOffset_lt length_objlist_pos
    rw [fileOffset] at hlt
    omega
  le_longMax := hw.offsetTableOffset_le
  offsetIntSize_lt := by
    have hle := hw.offsetTableOffset_le
    rw [longMax] at hle
    have : byteCount (fileBody h p).length ≤ 8 :=
      byteCount_le_eight (show (fileTrailer h p).offsetTableOffset < 2 ^ 64 by omega)
    show byteCount (fileBody h p).length < 256
    omega
  objectRefSize_lt := by
    have : byteCount (flatten h p).objlist.length ≤ 4 := byteCount_le hw.count_lt
    show byteCount (flatten h p).objlist.length < 256
    omega
  datalen_eq := by rw [hw.datalen_eq, length_file]

theorem offsetTableOffset_lt_pow : (fileTrailer h p).offsetTableOffset <
    256 ^ (fileTrailer h p).offsetIntSize := by
  have hle := hw.offsetTableOffset_le
  rw [longMax] at hle
  exact lt_of_byteCount (by omega)

theorem numObjects_lt_pow : (fileTrailer h p).numObjects < 256 ^ (fileTrailer h p).objectRefSize :=
  lt_of_byteCount (hw.count_lt.trans (by decide))

/-- **The offset table holds the offsets.** -/
theorem offsetAt_eq {k : ℕ} (hk : k < (fileTrailer h p).numObjects) :
    offsetAt buf (fileTrailer h p) k = fileOffset h p k := by
  have hblock := hw.at_table.block (fun off => length_toBigEndian _ off) (getElem?_fileOffsets hk)
  have hlt := hw.fileOffset_lt hk
  have hle := hw.offsetTableOffset_le
  rw [longMax] at hle
  rw [offsetAt, hblock.ofBigEndian_slice (hlt.trans hw.offsetTableOffset_lt_pow)]
  exact Nat.mod_eq_of_lt (by omega)

theorem checkOffsets_eq (n k : ℕ) (hk : k + n = (fileTrailer h p).numObjects) :
    checkOffsets buf (fileTrailer h p) n (buf.databytes + (fileTrailer h p).offsetTableOffset +
      k * (fileTrailer h p).offsetIntSize) = .ok () := by
  induction n generalizing k with
  | zero => rfl
  | succ n ih =>
    have hoff : getSizedInt buf (buf.databytes + (fileTrailer h p).offsetTableOffset +
        k * (fileTrailer h p).offsetIntSize) (fileTrailer h p).offsetIntSize = _ :=
      getOffset_eq hw.accepted (by omega)
    have hlt := hw.fileOffset_lt (show k < (flatten h p).objlist.length from by
      have : (fileTrailer h p).numObjects = (flatten h p).objlist.length := rfl
      omega)
    have hnext := ih (k + 1) (by omega)
    rw [add_mul, one_mul, ← add_assoc] at hnext
    rw [checkOffsets, hoff, ok_bind, hw.offsetAt_eq (by omega),
      check_true (by rw [Trailer.objectsRangeEnd]; omega), ok_bind, hnext]

end Written

theorem ofBytes_toBytes {trailer : Trailer} (hint : trailer.offsetIntSize < 256)
    (href : trailer.objectRefSize < 256) (hnum : trailer.numObjects < 2 ^ 64)
    (htop : trailer.topObject < 2 ^ 64) (hoff : trailer.offsetTableOffset < 2 ^ 64) :
    Trailer.ofBytes trailer.toBytes = trailer := by
  have hword : ∀ v < 2 ^ 64, ofBigEndian (toBigEndian 8 v) = v := by
    intro v hv
    rw [ofBigEndian_toBigEndian]
    exact Nat.mod_eq_of_lt (by omega)
  have htake : ∀ (v : ℕ) (rest : List UInt8), (toBigEndian 8 v ++ rest).take 8 = toBigEndian 8 v :=
    fun v rest => take_left' (length_toBigEndian 8 v)
  have hdrop : ∀ (v : ℕ) (rest : List UInt8), (toBigEndian 8 v ++ rest).drop 8 = rest :=
    fun v rest => drop_left' (length_toBigEndian 8 v)
  have h8 : trailer.toBytes.drop 8 = toBigEndian 8 trailer.numObjects ++
      (toBigEndian 8 trailer.topObject ++ (toBigEndian 8 trailer.offsetTableOffset ++ [])) := by
    rw [Trailer.toBytes, append_assoc, append_assoc]
    exact drop_left' rfl
  have h16 : trailer.toBytes.drop 16 = toBigEndian 8 trailer.topObject ++
      (toBigEndian 8 trailer.offsetTableOffset ++ []) := by
    rw [show 16 = 8 + 8 from rfl, ← drop_drop, h8, hdrop]
  have h24 : trailer.toBytes.drop 24 = toBigEndian 8 trailer.offsetTableOffset ++ [] := by
    rw [show 24 = 16 + 8 from rfl, ← drop_drop, h16, hdrop]
  have h6 : trailer.toBytes.getD 6 0 = UInt8.ofNat trailer.offsetIntSize := rfl
  have h7 : trailer.toBytes.getD 7 0 = UInt8.ofNat trailer.objectRefSize := rfl
  rw [Trailer.ofBytes, h6, h7, h8, h16, h24, htake, htake, htake, hword _ hnum, hword _ htop,
    hword _ hoff, UInt8.toNat_ofNat', UInt8.toNat_ofNat', Nat.mod_eq_of_lt hint,
    Nat.mod_eq_of_lt href]

/-- **What the reader asks of a trailer is all it asks.** -/
theorem getTopLevelInfo_eq {buf : Buffer} {t : Trailer} (hacc : Accepted buf t)
    (hmagic : buf.slice 0 7 = magic)
    (hparse : Trailer.ofBytes (buf.slice (buf.datalen - trailerSize) trailerSize) = t)
    (hnum : t.numObjects ≤ longMax) (htop : t.topObject < t.numObjects)
    (hint : 0 < t.offsetIntSize) (href : 0 < t.objectRefSize)
    (hnumLt : t.numObjects < 256 ^ t.objectRefSize)
    (hoffLt : t.offsetTableOffset < 256 ^ t.offsetIntSize)
    (hoffsets : checkOffsets buf t t.numObjects (buf.databytes + t.offsetTableOffset) = .ok ())
    (hrange : 8 ≤ offsetAt buf t t.topObject ∧ offsetAt buf t t.topObject < t.offsetTableOffset) :
    ∃ marker, getTopLevelInfo buf = .ok (marker, offsetAt buf t t.topObject, t) := by
  have hafter := hacc.after_header
  have hmax := hacc.le_longMax
  have hdata := hacc.datalen_eq
  have hlt := hacc.offsetTableOffset_lt
  have haddr : buf.databytes + buf.datalen < 2 ^ 64 := buf.addressable
  have htable : 0 < t.numObjects * t.offsetIntSize := Nat.mul_pos (by omega) hint
  have hpow : ∀ w, 256 ^ w = 2 ^ (8 * w) := fun w => by rw [Nat.pow_mul]
  rw [hpow] at hnumLt hoffLt
  rw [trailerSize] at hdata
  have hhead := buf.loadBytes_eq (show 0 + 7 ≤ buf.datalen by omega)
  rw [Nat.add_zero, hmagic] at hhead
  have htail := buf.loadBytes_eq (show buf.datalen - 32 + 32 ≤ buf.datalen by omega)
  rw [← Nat.add_sub_assoc (by omega)] at htail
  obtain ⟨marker, hmarker⟩ := Buffer.exists_byte (hrange.2.trans hlt)
  refine ⟨marker, ?_⟩
  rw [trailerSize] at hparse
  rw [getTopLevelInfo, trailerSize, check_true (by omega), ok_bind, hhead, ok_bind,
    check_true rfl, ok_bind, htail, ok_bind, hparse]
  dsimp only
  rw [check_true hnum, ok_bind, check_true hmax, ok_bind, check_true (by omega), ok_bind,
    check_true htop, ok_bind, check_true hafter, ok_bind, check_true (by omega), ok_bind,
    check_true (by omega), ok_bind, check_true (by omega), ok_bind, checkMul_eq (by omega), ok_bind,
    check_true (by omega), ok_bind, checkAdd_eq (by omega), ok_bind, checkAdd_eq (by omega), ok_bind,
    checkAdd_eq (by omega), ok_bind, check_true (by omega), ok_bind, check_true (by omega), ok_bind,
    check_true (by omega), ok_bind, checkAdd_eq (by omega), ok_bind, checkAdd_eq (by omega), ok_bind,
    checkAdd_eq (by omega), ok_bind, hoffsets, ok_bind, getOffset_eq hacc htop, ok_bind,
    check_true hrange, ok_bind, Buffer.load_eq hmarker, ok_bind, pure_eq]

/-- **The trailer of a written file is accepted**, with the first object at the top. -/
theorem getTopLevelInfo_written (hw : Written h p buf) :
    ∃ marker, getTopLevelInfo buf = .ok (marker, fileOffset h p 0, fileTrailer h p) := by
  have hacc := hw.accepted
  have hmax := hacc.le_longMax
  rw [longMax] at hmax
  have hcount : (fileTrailer h p).numObjects < 2 ^ 32 := hw.count_lt
  have hpos : 0 < (fileTrailer h p).numObjects := length_objlist_pos
  have htop : offsetAt buf (fileTrailer h p) (fileTrailer h p).topObject = fileOffset h p 0 :=
    hw.offsetAt_eq hpos
  have hslice := hw.at_trailer.slice_eq
  rw [length_toBytes] at hslice
  have hoffsets := hw.checkOffsets_eq (fileTrailer h p).numObjects 0 (by omega)
  rw [Nat.zero_mul] at hoffsets
  rw [← htop]
  apply getTopLevelInfo_eq hacc
  · exact hw.at_magic.slice_eq
  · rw [hslice]
    exact ofBytes_toBytes hacc.offsetIntSize_lt hacc.objectRefSize_lt (by omega)
      (show 0 < 2 ^ 64 by decide) (by omega)
  · rw [longMax]
    omega
  · exact hpos
  · exact byteCount_pos (show (fileTrailer h p).offsetTableOffset < 2 ^ 64 by omega)
  · exact byteCount_pos (hw.count_lt.trans (by decide))
  · exact hw.numObjects_lt_pow
  · exact hw.offsetTableOffset_lt_pow
  · exact hoffsets
  · rw [htop]
    exact ⟨Nat.le_add_right _ _, hw.fileOffset_lt hpos⟩

end File

end Apple.CF.BinaryPList
