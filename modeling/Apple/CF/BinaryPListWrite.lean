import Apple.CF.BinaryPListFlatten

/-!
# Binary property lists: the writer

The writing half of `CFBinaryPList.c` (`CF-1153.18`): the write buffer (158–239), `_appendInt`,
`_appendUID`, `_appendString`, `_appendNumber` and `_appendObject` (329–540), `_byteCount` (589–604)
and `__CFBinaryPlistWrite` (608–707). The stream is a `CFMutableData`, which takes every byte.

A reference is written from the address of a `uint32_t` on the stack, so a reference of more than
four bytes begins below that variable: that read is the fault of the writer.

Results: `bytes_write`, `appendObject_eq`, `binaryPlistWrite_eq`, `binaryPlistWrite_fault`.
-/

namespace Apple.CF.BinaryPList

open Apple.Lib List
open Apple.Lib.Outcome

/-! ## The buffer -/

/-- `sizeof(buf->buffer)`. -/
def bufferSize : ℕ := 8192 - 32

/-- `__CFBinaryPlistWriteBuffer`: what was given to the stream, and the used part of the buffer,
which is never full between two calls. -/
structure WriteBuffer where
  stream : List UInt8
  buffer : List UInt8
  used_lt : buffer.length < bufferSize

namespace WriteBuffer

/-- A buffer with nothing written. -/
def empty : WriteBuffer := ⟨[], [], by decide⟩

/-- Everything written so far; `buf->written + buf->used` is its length. -/
def bytes (buf : WriteBuffer) : List UInt8 := buf.stream ++ buf.buffer

/-- `bufferFlush` (207–210). -/
def flush (buf : WriteBuffer) : WriteBuffer := ⟨buf.stream ++ buf.buffer, [], by decide⟩

/-- `bufferWrite` (212–239). -/
def write (buf : WriteBuffer) (bytes : List UInt8) : WriteBuffer :=
  if bytes.length = 0 then buf
  else if hlarge : bufferSize ≤ bytes.length then
    ⟨buf.flush.stream ++ bytes, [], by decide⟩
  else
    let copyLen := min bytes.length (bufferSize - buf.buffer.length)
    let filled := buf.buffer ++ bytes.take copyLen
    if hfull : filled.length = bufferSize then
      ⟨buf.stream ++ filled, bytes.drop copyLen, by rw [length_drop]; omega⟩
    else
      ⟨buf.stream, filled, by
        have hlt := buf.used_lt
        have hlen : filled.length = buf.buffer.length + copyLen := by
          rw [length_append, length_take, min_eq_left (min_le_left _ _)]
        have hmin : copyLen ≤ bufferSize - buf.buffer.length := min_le_right _ _
        omega⟩

@[simp] theorem bytes_empty : empty.bytes = [] := rfl

@[simp] theorem stream_flush (buf : WriteBuffer) : buf.flush.stream = buf.bytes := rfl

/-- **Nothing is lost in the buffer.** -/
@[simp] theorem bytes_write (buf : WriteBuffer) (bytes : List UInt8) :
    (buf.write bytes).bytes = buf.bytes ++ bytes := by
  rw [write]
  split
  · next hzero => simp [length_eq_zero_iff.mp hzero]
  split
  · simp [WriteBuffer.bytes]
  · dsimp only
    split
    · next hfull => simp [WriteBuffer.bytes]
    · next hfull =>
      -- the buffer is not full, so all of the bytes were copied
      have hlt := buf.used_lt
      have hcopy : min bytes.length (bufferSize - buf.buffer.length) = bytes.length := by
        rw [length_append, length_take] at hfull
        omega
      show buf.stream ++ (buf.buffer ++ List.take _ bytes) = _
      rw [hcopy, take_length, ← append_assoc]
      rfl

end WriteBuffer

/-! ## Scalars -/

/-- The two-logarithm of the number of bytes that `_appendInt` takes. -/
def intWidth (bigint : ℕ) : ℕ :=
  if bigint ≤ 0xff then 0
  else if bigint ≤ 0xffff then 1
  else if bigint ≤ 0xffffffff then 2
  else 3

/-- `_appendInt` (329–350). -/
def appendInt (buf : WriteBuffer) (bigint : ℕ) : WriteBuffer :=
  (buf.write [UInt8.ofNat (0x10 + intWidth bigint)]).write (toBigEndian (2 ^ intWidth bigint) bigint)

/-- `_appendUID` (352–371). -/
def appendUID (buf : WriteBuffer) (uid : BitVec 32) : WriteBuffer :=
  let nbytes := 2 ^ intWidth uid.toNat
  (buf.write [UInt8.ofNat (0x80 + (nbytes - 1))]).write (toBigEndian nbytes uid.toNat)

/-- The marker of an object with a count, and the count when it does not fit in the marker. -/
def appendCount (buf : WriteBuffer) (marker count : ℕ) : WriteBuffer :=
  let buf := buf.write [UInt8.ofNat (marker + if count < 15 then count else 0xf)]
  if 15 ≤ count then appendInt buf count else buf

/-- `_appendString` (373–404). `CFStringGetBytes` converts to ASCII as long as the characters are
below `0x80` (`CFBuiltinConverters.c`, 88–97). -/
def appendString (buf : WriteBuffer) (chars : List UInt16) : WriteBuffer :=
  if ∀ c ∈ chars, c.toNat < 0x80 then
    (appendCount buf 0x50 chars.length).write (chars.map fun c => c.toUInt8)
  else
    (appendCount buf 0x60 chars.length).write (chars.flatMap fun c => toBigEndian 2 c.toNat)

/-- `_appendNumber` (408–454). -/
def appendNumber (buf : WriteBuffer) : Number → WriteBuffer
  | .float32 bits => (buf.write [0x22]).write (toBigEndian 4 bits.toNat)
  | .float64 bits => (buf.write [0x23]).write (toBigEndian 8 bits.toNat)
  | .sint128 high low =>
    (buf.write [0x14]).write (toBigEndian 8 high.toNat ++ toBigEndian 8 low.toNat)
  | .sint64 value => appendInt buf value.toNat

/-! ## Objects -/

/-- What ends a write before it returns. -/
inductive WriteFault
  /-- Bytes below the variable that holds a reference are read. -/
  | stackUnderread
deriving DecidableEq

section Objects

variable {ι : Type} [DecidableEq ι]

/-- `(uint32_t)(uintptr_t)CFDictionaryGetValue(objtable, value)`. -/
def refnum (objtable : List (ι × ℕ)) (value : ι) : ℕ := (objtable.lookup value).getD 0

/-- One reference: the last `objRefSize` bytes of a `uint32_t` in big-endian order (494–498). -/
def appendRef (objtable : List (ι × ℕ)) (objRefSize : ℕ) (buf : WriteBuffer) (value : ι) :
    Outcome WriteFault WriteBuffer :=
  if 4 < objRefSize then .fault .stackUnderread
  else .ok (buf.write (toBigEndian objRefSize (refnum objtable value)))

/-- The references of a collection. -/
def appendRefs (objtable : List (ι × ℕ)) (objRefSize : ℕ) :
    WriteBuffer → List ι → Outcome WriteFault WriteBuffer
  | buf, [] => .ok buf
  | buf, value :: values => do
    let buf ← appendRef objtable objRefSize buf value
    appendRefs objtable objRefSize buf values

/-- `_appendObject` (456–540) with an object table. -/
def appendObject (buf : WriteBuffer) (objtable : List (ι × ℕ)) (objRefSize : ℕ) :
    Obj ι → Outcome WriteFault WriteBuffer
  | .string chars => .ok (appendString buf chars)
  | .number value => .ok (appendNumber buf value)
  | .bool value => .ok (buf.write [if value then 0x09 else 0x08])
  | .data bytes => .ok ((appendCount buf 0x40 bytes.length).write bytes)
  | .date bits => .ok ((buf.write [0x33]).write (toBigEndian 8 bits.toNat))
  | .dict keys values =>
    appendRefs objtable objRefSize (appendCount buf 0xD0 keys.length) (keys ++ values)
  | .array elements =>
    appendRefs objtable objRefSize (appendCount buf 0xA0 elements.length) elements
  | .uid value => .ok (appendUID buf value)
  | .other => .fail

/-! ## The file -/

/-- The first loop of `_byteCount` (590–597): the bytes needed to hold `count`. -/
def neededBytes (count : ℕ) : ℕ → ℕ → ℕ
  | 0, size => size
  | n + 1, size => if count / 256 ^ size = 0 then size else neededBytes count n (size + 1)

/-- The second loop of `_byteCount` (599–603): up to the next of 1, 2, 4 and 8. -/
def roundSize (size : ℕ) : ℕ :=
  if size ≤ 1 then 1 else if size ≤ 2 then 2 else if size ≤ 4 then 4 else if size ≤ 8 then 8 else size

/-- `_byteCount` (589–604). -/
def byteCount (count : ℕ) : ℕ := roundSize (neededBytes count 9 0)

/-- The loop over the objects (658–676): the buffer and the offsets of the objects. -/
def writeObjects (h : Heap ι) (objtable : List (ι × ℕ)) (objRefSize : ℕ) :
    WriteBuffer → List ι → Outcome WriteFault (WriteBuffer × List ℕ)
  | buf, [] => .ok (buf, [])
  | buf, obj :: objs => do
    let offset := buf.bytes.length
    let buf ← appendObject buf objtable objRefSize (h.obj obj)
    let (buf, offsets) ← writeObjects h objtable objRefSize buf objs
    return (buf, offset :: offsets)

/-- The bytes of a trailer. -/
def Trailer.toBytes (trailer : Trailer) : List UInt8 :=
  [0, 0, 0, 0, 0, 0, UInt8.ofNat trailer.offsetIntSize, UInt8.ofNat trailer.objectRefSize] ++
    toBigEndian 8 trailer.numObjects ++ toBigEndian 8 trailer.topObject ++
    toBigEndian 8 trailer.offsetTableOffset

/-- `__CFBinaryPlistWrite` (608–707) into a `CFMutableData`: the bytes of the data. -/
def binaryPlistWrite (h : Heap ι) (plist : ι) : Outcome WriteFault (List UInt8) := do
  let flat := flatten h plist
  let cnt := flat.objlist.length
  let buf := WriteBuffer.empty.write (magic ++ [0x30])
  let objectRefSize := byteCount cnt
  let (buf, offsets) ← writeObjects h flat.objtable objectRefSize buf flat.objlist
  let lengthSoFar := buf.bytes.length
  let offsetIntSize := byteCount lengthSoFar
  let buf := offsets.foldl (fun buf offset => buf.write (toBigEndian offsetIntSize offset)) buf
  let trailer : Trailer := ⟨offsetIntSize, objectRefSize, cnt, 0, lengthSoFar⟩
  let buf := buf.write trailer.toBytes
  return buf.flush.stream

end Objects

/-! ## What is written -/

/-- The bytes of `_appendInt`. -/
def encodeInt (bigint : ℕ) : List UInt8 :=
  UInt8.ofNat (0x10 + intWidth bigint) :: toBigEndian (2 ^ intWidth bigint) bigint

/-- The bytes of a marker with its count. -/
def encodeCount (marker count : ℕ) : List UInt8 :=
  UInt8.ofNat (marker + if count < 15 then count else 0xf) ::
    if 15 ≤ count then encodeInt count else []

/-- The bytes of a number. -/
def encodeNumber : Number → List UInt8
  | .float32 bits => 0x22 :: toBigEndian 4 bits.toNat
  | .float64 bits => 0x23 :: toBigEndian 8 bits.toNat
  | .sint128 high low => 0x14 :: (toBigEndian 8 high.toNat ++ toBigEndian 8 low.toNat)
  | .sint64 value => encodeInt value.toNat

/-- The bytes of a string. -/
def encodeString (chars : List UInt16) : List UInt8 :=
  if ∀ c ∈ chars, c.toNat < 0x80 then
    encodeCount 0x50 chars.length ++ chars.map fun c => c.toUInt8
  else encodeCount 0x60 chars.length ++ chars.flatMap fun c => toBigEndian 2 c.toNat

/-- The bytes of a keyed-archiver UID. -/
def encodeUID (uid : BitVec 32) : List UInt8 :=
  UInt8.ofNat (0x80 + (2 ^ intWidth uid.toNat - 1)) ::
    toBigEndian (2 ^ intWidth uid.toNat) uid.toNat

/-- The bytes of an object, its references of `size` bytes. -/
def Obj.encode {ι : Type} (ref : ι → ℕ) (size : ℕ) : Obj ι → List UInt8
  | .string chars => encodeString chars
  | .number value => encodeNumber value
  | .bool value => [if value then 0x09 else 0x08]
  | .data bytes => encodeCount 0x40 bytes.length ++ bytes
  | .date bits => 0x33 :: toBigEndian 8 bits.toNat
  | .dict keys values =>
    encodeCount 0xD0 keys.length ++ (keys ++ values).flatMap fun q => toBigEndian size (ref q)
  | .array elements =>
    encodeCount 0xA0 elements.length ++ elements.flatMap fun q => toBigEndian size (ref q)
  | .uid value => encodeUID value
  | .other => []

@[simp] theorem bytes_appendInt (buf : WriteBuffer) (bigint : ℕ) :
    (appendInt buf bigint).bytes = buf.bytes ++ encodeInt bigint := by
  simp [appendInt, encodeInt]

@[simp] theorem bytes_appendUID (buf : WriteBuffer) (uid : BitVec 32) :
    (appendUID buf uid).bytes = buf.bytes ++ encodeUID uid := by
  simp [appendUID, encodeUID]

@[simp] theorem bytes_appendCount (buf : WriteBuffer) (marker count : ℕ) :
    (appendCount buf marker count).bytes = buf.bytes ++ encodeCount marker count := by
  rw [appendCount, encodeCount]
  split
  · simp
  · simp

@[simp] theorem bytes_appendString (buf : WriteBuffer) (chars : List UInt16) :
    (appendString buf chars).bytes = buf.bytes ++ encodeString chars := by
  rw [appendString, encodeString]
  split
  · simp
  · simp

@[simp] theorem bytes_appendNumber (buf : WriteBuffer) (value : Number) :
    (appendNumber buf value).bytes = buf.bytes ++ encodeNumber value := by
  match value with
  | .float32 bits | .float64 bits | .sint128 high low | .sint64 value =>
    simp [appendNumber, encodeNumber]

section Written

variable {ι : Type} [DecidableEq ι] (objtable : List (ι × ℕ)) {size : ℕ}

theorem appendRefs_eq (hsize : size ≤ 4) (buf : WriteBuffer) (values : List ι) :
    ∃ buf', appendRefs objtable size buf values = .ok buf' ∧
      buf'.bytes = buf.bytes ++ values.flatMap fun q => toBigEndian size (refnum objtable q) := by
  induction values generalizing buf with
  | nil => exact ⟨buf, rfl, by simp⟩
  | cons q values ih =>
    obtain ⟨buf', hok, hbytes⟩ := ih (buf.write (toBigEndian size (refnum objtable q)))
    refine ⟨buf', ?_, ?_⟩
    · rw [appendRefs, appendRef, if_neg (by omega), ok_bind, hok]
    · rw [hbytes, WriteBuffer.bytes_write, flatMap_cons, append_assoc]

/-- **An object is appended as it is encoded**, when a reference fits in four bytes. -/
theorem appendObject_eq (hsize : size ≤ 4) (buf : WriteBuffer) {o : Obj ι} (ho : o ≠ .other) :
    ∃ buf', appendObject buf objtable size o = .ok buf' ∧
      buf'.bytes = buf.bytes ++ o.encode (refnum objtable) size := by
  match o, ho with
  | .string chars, _ | .number value, _ | .bool value, _ | .data bytes, _ | .date bits, _
  | .uid value, _ => exact ⟨_, rfl, by simp [Obj.encode]⟩
  | .array elements, _ =>
    obtain ⟨buf', hok, hbytes⟩ := appendRefs_eq objtable hsize
      (appendCount buf 0xA0 elements.length) elements
    exact ⟨buf', hok, by rw [hbytes]; simp [Obj.encode]⟩
  | .dict keys values, _ =>
    obtain ⟨buf', hok, hbytes⟩ := appendRefs_eq objtable hsize
      (appendCount buf 0xD0 keys.length) (keys ++ values)
    exact ⟨buf', hok, by rw [hbytes]; simp [Obj.encode]⟩

/-- The places of encodings that stand one after the other. -/
def offsetsFrom : ℕ → List (List UInt8) → List ℕ
  | _, [] => []
  | start, e :: es => start :: offsetsFrom (start + e.length) es

theorem writeObjects_eq {h : Heap ι} (hsize : size ≤ 4) {objs : List ι}
    (hobjs : ∀ q ∈ objs, h.obj q ≠ .other) (buf : WriteBuffer) :
    ∃ buf', writeObjects h objtable size buf objs = .ok (buf', offsetsFrom buf.bytes.length
        (objs.map fun q => (h.obj q).encode (refnum objtable) size)) ∧
      buf'.bytes = buf.bytes ++ objs.flatMap fun q => (h.obj q).encode (refnum objtable) size := by
  induction objs generalizing buf with
  | nil => exact ⟨buf, rfl, by simp⟩
  | cons q objs ih =>
    obtain ⟨buf₁, hok₁, hbytes₁⟩ := appendObject_eq objtable hsize buf
      (hobjs q mem_cons_self)
    obtain ⟨buf₂, hok₂, hbytes₂⟩ := ih (fun r hr => hobjs r (mem_cons_of_mem q hr)) buf₁
    refine ⟨buf₂, ?_, ?_⟩
    · rw [writeObjects, hok₁, ok_bind, hok₂, hbytes₁, length_append]
      rfl
    · rw [hbytes₂, hbytes₁, flatMap_cons, append_assoc]

theorem bytes_foldl_write (buf : WriteBuffer) (pieces : List ℕ) (f : ℕ → List UInt8) :
    (pieces.foldl (fun buf piece => buf.write (f piece)) buf).bytes =
      buf.bytes ++ pieces.flatMap f := by
  induction pieces generalizing buf with
  | nil => simp
  | cons piece pieces ih => rw [foldl_cons, ih]; simp

end Written

/-! ## Widths -/

theorem le_neededBytes (count n size : ℕ) : size ≤ neededBytes count n size := by
  induction n generalizing size with
  | zero => exact le_rfl
  | succ n ih =>
    rw [neededBytes]
    split
    · exact le_rfl
    · exact (Nat.le_succ size).trans (ih (size + 1))

theorem neededBytes_le_iff (count : ℕ) {n size m : ℕ} (hle : size ≤ m) (hlt : m < size + n) :
    neededBytes count n size ≤ m ↔ count < 256 ^ m := by
  induction n generalizing size with
  | zero => omega
  | succ n ih =>
    rw [neededBytes]
    split
    · next hzero =>
      have hcount : count < 256 ^ size := (Nat.div_eq_zero_iff_lt (by positivity)).mp hzero
      exact iff_of_true hle (hcount.trans_le (Nat.pow_le_pow_right (by decide) hle))
    · next hzero =>
      rcases hle.eq_or_lt with rfl | hlt'
      · have hneeded := le_neededBytes count n (size + 1)
        have hcount : ¬ count < 256 ^ size := fun h => hzero (Nat.div_eq_of_lt h)
        exact iff_of_false (by omega) hcount
      · exact ih hlt' (by omega)

theorem byteCount_eq (count : ℕ) : byteCount count =
    if count < 2 ^ 8 then 1 else if count < 2 ^ 16 then 2 else if count < 2 ^ 32 then 4
    else if count < 2 ^ 64 then 8 else neededBytes count 9 0 := by
  have hle : ∀ m < 9, (neededBytes count 9 0 ≤ m ↔ count < 256 ^ m) := fun m hm =>
    neededBytes_le_iff count zero_le (by omega)
  have h1 := hle 1 (by decide)
  have h2 := hle 2 (by decide)
  have h4 := hle 4 (by decide)
  have h8 := hle 8 (by decide)
  rw [byteCount, roundSize]
  split_ifs
  all_goals omega

variable {count : ℕ}

/-- A count fits in the bytes taken for it. -/
theorem lt_of_byteCount (h : count < 2 ^ 64) : count < 256 ^ byteCount count := by
  rw [byteCount_eq]
  split_ifs
  all_goals omega

theorem byteCount_le (h : count < 2 ^ 32) : byteCount count ≤ 4 := by
  rw [byteCount_eq]
  split_ifs
  all_goals omega

theorem lt_byteCount (h : 2 ^ 32 ≤ count) : 4 < byteCount count := by
  have hneeded : ¬ neededBytes count 9 0 ≤ 4 := by
    rw [neededBytes_le_iff count (by omega) (by omega)]
    omega
  rw [byteCount_eq]
  split_ifs
  all_goals omega

theorem byteCount_pos (h : count < 2 ^ 64) : 0 < byteCount count := by
  rw [byteCount_eq]
  split_ifs
  all_goals omega

theorem byteCount_le_eight (h : count < 2 ^ 64) : byteCount count ≤ 8 := by
  rw [byteCount_eq]
  split_ifs
  all_goals omega

theorem intWidth_le (bigint : ℕ) : intWidth bigint ≤ 3 := by
  rw [intWidth]
  split_ifs
  all_goals omega

theorem lt_of_intWidth {bigint : ℕ} (h : bigint < 2 ^ 64) : bigint < 256 ^ 2 ^ intWidth bigint := by
  rw [intWidth]
  split_ifs
  all_goals omega

/-! ## The file as a whole -/

section File

variable {ι : Type} [DecidableEq ι] (h : Heap ι) (p : ι)

/-- The encodings of the objects listed for `p`. -/
def encodings : List (List UInt8) :=
  (flatten h p).objlist.map fun q =>
    (h.obj q).encode (refnum (flatten h p).objtable) (byteCount (flatten h p).objlist.length)

/-- The header and the objects. -/
def fileBody : List UInt8 := magic ++ [0x30] ++ (encodings h p).flatten

/-- The offsets of the objects. -/
def fileOffsets : List ℕ := offsetsFrom 8 (encodings h p)

/-- The trailer that is written. -/
def fileTrailer : Trailer where
  offsetIntSize := byteCount (fileBody h p).length
  objectRefSize := byteCount (flatten h p).objlist.length
  numObjects := (flatten h p).objlist.length
  topObject := 0
  offsetTableOffset := (fileBody h p).length

/-- The bytes of the file. -/
def file : List UInt8 :=
  fileBody h p ++
    ((fileOffsets h p).flatMap fun off => toBigEndian (fileTrailer h p).offsetIntSize off) ++
    (fileTrailer h p).toBytes

variable {h p}

/-- **The file is written as it is encoded**, when fewer than `2 ^ 32` objects are listed. -/
theorem binaryPlistWrite_eq (hcount : (flatten h p).objlist.length < 2 ^ 32)
    (hobjs : ∀ q ∈ (flatten h p).objlist, h.obj q ≠ .other) :
    binaryPlistWrite h p = .ok (file h p) := by
  obtain ⟨buf, hok, hbytes⟩ := writeObjects_eq (flatten h p).objtable (byteCount_le hcount) hobjs
    (WriteBuffer.empty.write (magic ++ [0x30]))
  have hbody : buf.bytes = fileBody h p := by
    rw [hbytes, fileBody, flatMap_def]
    rfl
  rw [binaryPlistWrite]
  rw [hok, ok_bind]
  dsimp only
  rw [WriteBuffer.stream_flush, WriteBuffer.bytes_write, bytes_foldl_write, hbody]
  rfl

/-- **Too many objects**: with `2 ^ 32` objects or more the first reference is read from below its
variable. -/
theorem binaryPlistWrite_fault (hcount : 2 ^ 32 ≤ (flatten h p).objlist.length) :
    binaryPlistWrite h p = .fault .stackUnderread := by
  have hsize := lt_byteCount hcount
  obtain ⟨objs, hobjs⟩ : ∃ objs, (flatten h p).objlist = p :: objs := by
    have hhead := head_flatten h p
    rcases hlist : (flatten h p).objlist with _ | ⟨q, objs⟩
    · simp [hlist] at hhead
    · simp_all
  have hchildren : (h.obj p).children ≠ [] := by
    intro hnil
    have hone : (flatten h p).objlist = [p] := by
      rw [flatten, flattenPlist, hnil]
      simp
    rw [hone] at hcount
    simp at hcount
  have hrefs : ∀ (buf : WriteBuffer) (qs : List ι), qs ≠ [] →
      appendRefs (flatten h p).objtable (byteCount (flatten h p).objlist.length) buf qs =
        .fault .stackUnderread := by
    intro buf qs hqs
    obtain ⟨q, qs, rfl⟩ := exists_cons_of_ne_nil hqs
    rw [appendRefs, appendRef, if_pos hsize]
    rfl
  have hobject : ∀ buf : WriteBuffer, appendObject buf (flatten h p).objtable
      (byteCount (flatten h p).objlist.length) (h.obj p) = .fault .stackUnderread := by
    intro buf
    cases hobj : h.obj p with
    | array | dict => exact hrefs _ _ (by simpa [hobj, Obj.children] using hchildren)
    | string | number | bool | data | date | uid | other =>
      simp [hobj, Obj.children] at hchildren
  rw [binaryPlistWrite]
  nth_rewrite 2 [hobjs]
  rw [writeObjects]
  rw [hobject]
  rfl

end File

end Apple.CF.BinaryPList
