import Apple.Lib.Outcome
import Apple.Lib.BigEndian

/-!
# Binary property lists: the reader

The reading half of `CFBinaryPList.c` (`CF-1153.18`) on a 64-bit machine: the sized integers and
`__CFBinaryPlistGetTopLevelInfo` (735–847), `_readInt` and `_getOffsetOfRefAt` (855–886),
`__CFBinaryPlistCreateObjectFiltered` without key paths (1061–1559) and `__CFTryParseBinaryPlist`
(1566–1608).

Pointers are addresses: the data stands at `databytes`, every `*p` is a `Buffer.load`, and one
outside the data is a fault. `FAIL_FALSE` is the outcome `fail`. The recursion of
`__CFBinaryPlistCreateObjectFiltered` is bounded by a number of nested activations; running out of
them is the fault `tooDeep`.

Allocation succeeds, and a collection is the list of objects it is created from.
-/

namespace Apple.CF.BinaryPList

open Apple.Lib
open Apple.Lib.Outcome (check)

/-! ## Property lists -/

/-- A `CFNumber`: an integer by its two's complement words, a float by its bits. -/
inductive Number
  | sint64 (value : BitVec 64)
  | sint128 (high low : BitVec 64)
  | float32 (bits : BitVec 32)
  | float64 (bits : BitVec 64)
deriving DecidableEq

/-- The objects the reader creates. A string is its UTF-16 code units, a dictionary the keys and
the values it is created from, in order. -/
inductive Value
  | null
  | bool (value : Bool)
  | number (value : Number)
  | date (bits : BitVec 64)
  | data (bytes : List UInt8)
  | string (chars : List UInt16)
  | uid (value : BitVec 32)
  | array (elements : List Value)
  | set (members : List Value)
  | dict (keys values : List Value)

/-- `_plistIsPrimitive` (849–853). -/
def plistIsPrimitive : Value → Bool
  | .array _ | .set _ | .dict _ _ => false
  | _ => true

/-- The `mutabilityOption` of the reader. -/
inductive Mutability
  | immutable
  | mutableContainers
  | mutableContainersAndLeaves
deriving DecidableEq

/-- What the high four bits of a marker byte say (`ForFoundationOnly.h`, 382–397). -/
inductive Kind
  | null
  | int
  | real
  | date
  | data
  | asciiString
  | unicode16String
  | uid
  | array
  | set
  | dict
deriving DecidableEq

/-- The cases of `switch (marker & 0xf0)`. -/
def kindOf (marker : UInt8) : Option Kind :=
  match marker.toNat / 16 with
  | 0x0 => some .null
  | 0x1 => some .int
  | 0x2 => some .real
  | 0x3 => some .date
  | 0x4 => some .data
  | 0x5 => some .asciiString
  | 0x6 => some .unicode16String
  | 0x8 => some .uid
  | 0xA => some .array
  | 0xC => some .set
  | 0xD => some .dict
  | _ => none

/-- `marker & 0x0f`. -/
def nibble (marker : UInt8) : ℕ := marker.toNat % 16

/-- `LONG_MAX`. -/
def longMax : ℕ := 2 ^ 63 - 1

/-- `UINT64_MAX`. -/
def uint64Max : ℕ := 2 ^ 64 - 1

/-! ## The data -/

/-- What ends a call before it returns. -/
inductive Fault
  /-- A byte outside the data is read. -/
  | outOfBounds (address : ℕ)
  /-- More activations are nested than were allowed. -/
  | tooDeep
deriving DecidableEq

/-- The data to read: its address and its bytes. -/
structure Buffer where
  databytes : ℕ
  bytes : List UInt8
  nonnull : 0 < databytes
  addressable : databytes + bytes.length < 2 ^ 64

/-- The `datalen` of the data. -/
def Buffer.datalen (buf : Buffer) : ℕ := buf.bytes.length

/-- The byte at an address of the data. -/
def Buffer.byte? (buf : Buffer) (p : ℕ) : Option UInt8 :=
  if buf.databytes ≤ p then buf.bytes[p - buf.databytes]? else none

/-- `*p`. -/
def Buffer.load (buf : Buffer) (p : ℕ) : Outcome Fault UInt8 :=
  match buf.byte? p with
  | some b => .ok b
  | none => .fault (.outOfBounds p)

/-- The `n` bytes from `p` on, as `memmove` and `memcmp` read them. -/
def Buffer.loadBytes (buf : Buffer) : ℕ → ℕ → Outcome Fault (List UInt8)
  | _, 0 => .ok []
  | p, n + 1 => do
    let b ← buf.load p
    let rest ← Buffer.loadBytes buf (p + 1) n
    return b :: rest

/-- `check_ptr_add` and `__check_uint64_add_unsigned_unsigned` (64–68); every caller tests the
error before it uses the sum. -/
def checkAdd (x y : ℕ) : Outcome Fault ℕ :=
  if uint64Max - y < x then .fail else .ok (x + y)

/-- `check_size_t_mul` and `__check_uint64_mul_unsigned_unsigned` (70–75). -/
def checkMul (x y : ℕ) : Outcome Fault ℕ :=
  if x = 0 then .ok 0 else if uint64Max / x < y then .fail else .ok (x * y)

/-- The loop of `_getSizedInt` (752–755). -/
def getSizedIntLoop (buf : Buffer) : ℕ → ℕ → ℕ → Outcome Fault ℕ
  | 0, _, res => .ok res
  | n + 1, p, res => do
    let b ← buf.load p
    getSizedIntLoop buf n (p + 1) ((res * 256 + b.toNat) % 2 ^ 64)

/-- `_getSizedInt` (735–757); `valSize` is a `uint8_t`, so wider sizes are cut to their low byte.
The single loads of 1, 2, 4 and 8 bytes on Intel read the same big-endian number. -/
def getSizedInt (buf : Buffer) (data valSize : ℕ) : Outcome Fault ℕ :=
  getSizedIntLoop buf (valSize % 256) data 0

/-! ## The trailer -/

/-- `CFBinaryPlistTrailer` in host order (`ForFoundationOnly.h`, 404–412); the unused bytes and the
sort version are not looked at. -/
structure Trailer where
  offsetIntSize : ℕ
  objectRefSize : ℕ
  numObjects : ℕ
  topObject : ℕ
  offsetTableOffset : ℕ
deriving DecidableEq

/-- `sizeof(CFBinaryPlistTrailer)`. -/
def trailerSize : ℕ := 32

/-- The trailer of its 32 bytes, the three words swapped from big-endian. -/
def Trailer.ofBytes (bytes : List UInt8) : Trailer where
  offsetIntSize := (bytes.getD 6 0).toNat
  objectRefSize := (bytes.getD 7 0).toNat
  numObjects := ofBigEndian ((bytes.drop 8).take 8)
  topObject := ofBigEndian ((bytes.drop 16).take 8)
  offsetTableOffset := ofBigEndian ((bytes.drop 24).take 8)

/-- `objectsRangeEnd`: the last offset before the offset table. -/
def Trailer.objectsRangeEnd (trailer : Trailer) : ℕ := trailer.offsetTableOffset - 1

/-- The entry of the offset table for the object number `ref`. -/
def getOffset (buf : Buffer) (trailer : Trailer) (ref : ℕ) : Outcome Fault ℕ :=
  getSizedInt buf (buf.databytes + trailer.offsetTableOffset + ref * trailer.offsetIntSize)
    trailer.offsetIntSize

/-- The characters `bplist0`. -/
def magic : List UInt8 := [0x62, 0x70, 0x6c, 0x69, 0x73, 0x74, 0x30]

/-- The loop over the offset table (832–838). -/
def checkOffsets (buf : Buffer) (trailer : Trailer) : ℕ → ℕ → Outcome Fault Unit
  | 0, _ => .ok ()
  | n + 1, bytesptr => do
    let off ← getSizedInt buf bytesptr trailer.offsetIntSize
    check (off ≤ trailer.objectsRangeEnd)
    checkOffsets buf trailer n (bytesptr + trailer.offsetIntSize)

/-- `__CFBinaryPlistGetTopLevelInfo` (759–847): the top object's marker and offset, and the
trailer. -/
def getTopLevelInfo (buf : Buffer) : Outcome Fault (UInt8 × ℕ × Trailer) := do
  check (trailerSize + 8 + 1 ≤ buf.datalen)
  let head ← buf.loadBytes buf.databytes 7
  check (head = magic)
  let tail ← buf.loadBytes (buf.databytes + buf.datalen - trailerSize) trailerSize
  let trail := Trailer.ofBytes tail
  check (trail.numObjects ≤ longMax)
  check (trail.offsetTableOffset ≤ longMax)
  check (1 ≤ trail.numObjects)
  check (trail.topObject < trail.numObjects)
  check (9 ≤ trail.offsetTableOffset)
  check (trail.offsetTableOffset < buf.datalen - trailerSize)
  check (1 ≤ trail.offsetIntSize)
  check (1 ≤ trail.objectRefSize)
  let offsetTableSize ← checkMul trail.numObjects trail.offsetIntSize
  check (1 ≤ offsetTableSize)
  let objectDataSize := trail.offsetTableOffset - 8
  let tmpSum ← checkAdd 8 objectDataSize
  let tmpSum ← checkAdd tmpSum offsetTableSize
  let tmpSum ← checkAdd tmpSum trailerSize
  check (buf.datalen = tmpSum)
  check (¬ (trail.objectRefSize < 8 ∧ 2 ^ (8 * trail.objectRefSize) ≤ trail.numObjects))
  check (¬ (trail.offsetIntSize < 8 ∧ 2 ^ (8 * trail.offsetIntSize) ≤ trail.offsetTableOffset))
  let _ ← checkAdd buf.databytes 8
  let offsetsFirstByte ← checkAdd buf.databytes trail.offsetTableOffset
  let _ ← checkAdd offsetsFirstByte (offsetTableSize - 1)
  checkOffsets buf trail trail.numObjects (buf.databytes + trail.offsetTableOffset)
  let off ← getOffset buf trail trail.topObject
  check (8 ≤ off ∧ off < trail.offsetTableOffset)
  let marker ← buf.load (buf.databytes + off)
  return (marker, off, trail)

/-! ## Counts and references -/

/-- `_readInt` (855–870): the integer at `ptr` and the address after it. -/
def readInt (buf : Buffer) (ptr endByte : ℕ) : Outcome Fault (ℕ × ℕ) := do
  check (ptr ≤ endByte)
  let marker ← buf.load ptr
  check (kindOf marker = some .int)
  let cnt := 2 ^ nibble marker
  let extent ← checkAdd (ptr + 1) cnt
  check (extent - 1 ≤ endByte)
  let bigint ← getSizedInt buf (ptr + 1) cnt
  return (bigint, ptr + 1 + cnt)

/-- `_getOffsetOfRefAt` (871–886); `FAIL_MAXOFFSET` returns `UINT64_MAX`. -/
def getOffsetOfRefAt (buf : Buffer) (bytesptr : ℕ) (trailer : Trailer) : Outcome Fault ℕ :=
  if bytesptr < buf.databytes + 8 ∨
      buf.databytes + trailer.offsetTableOffset < bytesptr + trailer.objectRefSize then
    .ok uint64Max
  else do
    let ref ← getSizedInt buf bytesptr trailer.objectRefSize
    if trailer.numObjects ≤ ref then return uint64Max
    getOffset buf trailer ref

/-- The test that `cnt` bytes from `ptr` on end before the offset table. -/
def checkExtent (buf : Buffer) (trailer : Trailer) (ptr cnt : ℕ) : Outcome Fault Unit := do
  let extent ← checkAdd ptr cnt
  check (extent - 1 ≤ buf.databytes + trailer.objectsRangeEnd)

/-- The same test for `cnt` characters of two bytes each (1255–1258). -/
def checkExtent16 (buf : Buffer) (trailer : Trailer) (ptr cnt : ℕ) : Outcome Fault Unit := do
  let extent ← checkAdd ptr cnt
  let extent ← checkAdd (extent - 1) cnt
  check (extent ≤ buf.databytes + trailer.objectsRangeEnd)

/-- The count of a data, a string or a collection: the low bits of its marker or, when they are all
set, the integer that follows. With the address after it. -/
def readCount (buf : Buffer) (trailer : Trailer) (startOffset : ℕ) (marker : UInt8) :
    Outcome Fault (ℕ × ℕ) := do
  let ptr ← checkAdd (buf.databytes + startOffset) 1
  if nibble marker = 0xf then do
    let (bigint, ptr) ← readInt buf ptr (buf.databytes + trailer.objectsRangeEnd)
    check (bigint ≤ longMax)
    return (bigint, ptr)
  else return (nibble marker, ptr)

/-! ## Scalars -/

section Scalars

variable (buf : Buffer) (trailer : Trailer) (startOffset : ℕ) (marker : UInt8)

/-- Lines 1085–1097. -/
def createNull : Outcome Fault Value :=
  match nibble marker with
  | 0x0 => .ok .null
  | 0x8 => .ok (.bool false)
  | 0x9 => .ok (.bool true)
  | _ => .fail

/-- Lines 1098–1127. -/
def createInt : Outcome Fault Value := do
  let ptr ← checkAdd (buf.databytes + startOffset) 1
  let cnt := 2 ^ nibble marker
  checkExtent buf trailer ptr cnt
  check (cnt ≤ 16)
  let bigint ← getSizedInt buf ptr cnt
  if 8 < cnt then return .number (.sint128 0 (BitVec.ofNat 64 bigint))
  else return .number (.sint64 (BitVec.ofNat 64 bigint))

/-- The bits of a float of `cnt` bytes. -/
def createFloat (cnt : ℕ) : Outcome Fault ℕ := do
  let ptr ← checkAdd (buf.databytes + startOffset) 1
  checkExtent buf trailer ptr cnt
  let bytes ← buf.loadBytes ptr cnt
  return ofBigEndian bytes

/-- Lines 1128–1167. -/
def createReal : Outcome Fault Value :=
  match nibble marker with
  | 2 => do
    let bits ← createFloat buf trailer startOffset 4
    return .number (.float32 (BitVec.ofNat 32 bits))
  | 3 => do
    let bits ← createFloat buf trailer startOffset 8
    return .number (.float64 (BitVec.ofNat 64 bits))
  | _ => .fail

/-- Lines 1168–1189; the only date marker is `0x33`. -/
def createDate : Outcome Fault Value :=
  match nibble marker with
  | 3 => do
    let bits ← createFloat buf trailer startOffset 8
    return .date (BitVec.ofNat 64 bits)
  | _ => .fail

/-- The counted bytes of a data or an ASCII string. -/
def createBytes : Outcome Fault (List UInt8) := do
  let (cnt, ptr) ← readCount buf trailer startOffset marker
  checkExtent buf trailer ptr cnt
  buf.loadBytes ptr cnt

/-- Lines 1190–1215. -/
def createData : Outcome Fault Value := do
  let bytes ← createBytes buf trailer startOffset marker
  return .data bytes

/-- Lines 1216–1242. `CFStringCreateWithBytes` takes an ASCII byte to the code unit of the same
value, also above `0x7f` (`CFStringEncodings.c`, 429–430). -/
def createASCIIString : Outcome Fault Value := do
  let bytes ← createBytes buf trailer startOffset marker
  return .string (bytes.map fun b => b.toUInt16)

/-- The big-endian code units of a byte string. -/
def unichars : List UInt8 → List UInt16
  | a :: b :: rest => UInt16.ofNat (a.toNat * 256 + b.toNat) :: unichars rest
  | _ => []

/-- Lines 1243–1279. -/
def createUnicode16String : Outcome Fault Value := do
  let (cnt, ptr) ← readCount buf trailer startOffset marker
  checkExtent16 buf trailer ptr cnt
  let byteCnt ← checkMul cnt 2
  let bytes ← buf.loadBytes ptr byteCnt
  return .string (unichars bytes)

/-- Lines 1280–1298. -/
def createUID : Outcome Fault Value := do
  let ptr ← checkAdd (buf.databytes + startOffset) 1
  let cnt := nibble marker + 1
  checkExtent buf trailer ptr cnt
  let bigint ← getSizedInt buf ptr cnt
  check (bigint ≤ 2 ^ 32 - 1)
  return .uid (BitVec.ofNat 32 bigint)

end Scalars

/-! ## Objects -/

/-- The dictionary `objects` of what was created, by offset, or `NULL`. -/
abbrev Objects := Option (List (ℕ × Value))

/-- `CFDictionaryGetValue(objects, startOffset)`. -/
def Objects.get (objects : Objects) (startOffset : ℕ) : Option Value :=
  objects.bind fun table => table.lookup startOffset

/-- `if (objects) CFDictionarySetValue(objects, startOffset, plist)`. -/
def Objects.save (objects : Objects) (startOffset : ℕ) (plist : Value) : Objects :=
  objects.map fun table => (startOffset, plist) :: table

/-- The elements of a collection of `n` references from `ptr` on; the first `keys` of them have to
be primitive (the loops at 1377–1389 and 1513–1526). -/
def createElements (buf : Buffer) (trailer : Trailer)
    (create : ℕ → Objects → Outcome Fault (Value × Objects)) :
    ℕ → ℕ → ℕ → Objects → Outcome Fault (List Value × Objects)
  | 0, _, _, objects => .ok ([], objects)
  | n + 1, keys, ptr, objects => do
    let off ← getOffsetOfRefAt buf ptr trailer
    let (pl, objects) ← create off objects
    check (0 < keys → plistIsPrimitive pl = true)
    let (rest, objects) ←
      createElements buf trailer create n (keys - 1) (ptr + trailer.objectRefSize) objects
    return (pl :: rest, objects)

/-- The path set of a collection's elements (1322–1328): it is made from depth 16 on, and holds the
offsets on the way down. `CFSetRemoveValue` takes the offset out again on return, so a caller finds
its set as it was. -/
def pathSet (set : Option (List ℕ)) (curDepth startOffset : ℕ) : Option (List ℕ) :=
  match set with
  | some path => some (startOffset :: path)
  | none => if 15 < curDepth then some [startOffset] else none

section

variable (buf : Buffer) (trailer : Trailer)

/-- The number of references of a collection and the address of the first, after the checks at
1301–1318 and 1440–1459. -/
def readRefs (startOffset : ℕ) (marker : UInt8) (perEntry : ℕ) : Outcome Fault (ℕ × ℕ) := do
  let (cnt, ptr) ← readCount buf trailer startOffset marker
  let cnt ← checkMul cnt perEntry
  let byteCnt ← checkMul cnt trailer.objectRefSize
  checkExtent buf trailer ptr byteCnt
  let _ ← checkMul cnt 8
  return (cnt, ptr)

/-- Lines 1299–1438 for an array or a set, by its constructor. -/
def createList (make : List Value → Value) (create : ℕ → Objects → Outcome Fault (Value × Objects))
    (startOffset : ℕ) (marker : UInt8) (objects : Objects) : Outcome Fault (Value × Objects) := do
  let (arrayCount, ptr) ← readRefs buf trailer startOffset marker 1
  let (list, objects) ← createElements buf trailer create arrayCount 0 ptr objects
  return (make list, objects)

/-- Lines 1439–1556. -/
def createDict (create : ℕ → Objects → Outcome Fault (Value × Objects))
    (startOffset : ℕ) (marker : UInt8) (objects : Objects) : Outcome Fault (Value × Objects) := do
  let (dictionaryCount, ptr) ← readRefs buf trailer startOffset marker 2
  let half := dictionaryCount / 2
  let (list, objects) ← createElements buf trailer create dictionaryCount half ptr objects
  return (.dict (list.take half) (list.drop half), objects)

/-- The body of `__CFBinaryPlistCreateObjectFiltered` after the marker is read; `create` is the
recursive call for an element. -/
def createKind (option : Mutability) (create : ℕ → Objects → Outcome Fault (Value × Objects))
    (startOffset : ℕ) (marker : UInt8) (objects : Objects) :
    Option Kind → Outcome Fault (Value × Objects)
  | some .null => do
    let plist ← createNull marker
    return (plist, objects)
  | some .int => do
    let plist ← createInt buf trailer startOffset marker
    return (plist, objects.save startOffset plist)
  | some .real => do
    let plist ← createReal buf trailer startOffset marker
    return (plist, objects.save startOffset plist)
  | some .date => do
    let plist ← createDate buf trailer startOffset marker
    return (plist, objects.save startOffset plist)
  | some .data => do
    let plist ← createData buf trailer startOffset marker
    return (plist, saveLeaf plist)
  | some .asciiString => do
    let plist ← createASCIIString buf trailer startOffset marker
    return (plist, saveLeaf plist)
  | some .unicode16String => do
    let plist ← createUnicode16String buf trailer startOffset marker
    return (plist, saveLeaf plist)
  | some .uid => do
    let plist ← createUID buf trailer startOffset marker
    return (plist, objects.save startOffset plist)
  | some .array => do
    let (plist, objects) ← createList buf trailer .array create startOffset marker objects
    return (plist, saveContainer plist objects)
  | some .set => do
    let (plist, objects) ← createList buf trailer .set create startOffset marker objects
    return (plist, saveContainer plist objects)
  | some .dict => do
    let (plist, objects) ← createDict buf trailer create startOffset marker objects
    return (plist, saveContainer plist objects)
  | none => .fail
where
  /-- Data and strings are shared unless each of them is to be mutable. -/
  saveLeaf (plist : Value) : Objects :=
    if option = .mutableContainersAndLeaves then objects else objects.save startOffset plist
  /-- Collections are shared when they are immutable. -/
  saveContainer (plist : Value) (objects : Objects) : Objects :=
    if option = .immutable then objects.save startOffset plist else objects

end

/-- `__CFBinaryPlistCreateObjectFiltered` with `keyPaths` null (1061–1559), with at most `fuel`
nested activations. -/
def createObjectFiltered (buf : Buffer) (trailer : Trailer) (option : Mutability) :
    ℕ → ℕ → Objects → Option (List ℕ) → ℕ → Outcome Fault (Value × Objects)
  | 0, _, _, _, _ => .fault .tooDeep
  | fuel + 1, startOffset, objects, set, curDepth =>
    match objects.get startOffset with
    | some plist => .ok (plist, objects)
    | none => do
      check (∀ path ∈ set, startOffset ∉ path)
      check (8 ≤ startOffset ∧ startOffset ≤ trailer.objectsRangeEnd)
      let marker ← buf.load (buf.databytes + startOffset)
      createKind buf trailer option
        (fun off objects => createObjectFiltered buf trailer option fuel off objects
          (pathSet set curDepth startOffset) (curDepth + 1))
        startOffset marker objects (kindOf marker)

/-- `__CFTryParseBinaryPlist` (1566–1608). -/
def tryParseBinaryPlist (buf : Buffer) (option : Mutability) (fuel : ℕ) : Outcome Fault Value := do
  check (8 ≤ buf.datalen)
  let (_, offset, trailer) ← getTopLevelInfo buf
  let (plist, _) ← createObjectFiltered buf trailer option fuel offset (some []) none 0
  return plist

/-! ## Reads inside the data -/

/-- The `n` bytes of the data from index `i` on. -/
def Buffer.slice (buf : Buffer) (i n : ℕ) : List UInt8 := (buf.bytes.drop i).take n

variable {i n x y : ℕ} {buf : Buffer}

theorem Buffer.length_slice (h : i + n ≤ buf.datalen) : (buf.slice i n).length = n := by
  rw [Buffer.datalen] at h
  rw [Buffer.slice, List.length_take, List.length_drop]
  omega

variable {b : UInt8} {E : Fault → Prop} {P : ℕ → Prop}

theorem Buffer.slice_succ (h : buf.bytes[i]? = some b) :
    buf.slice i (n + 1) = b :: buf.slice (i + 1) n := by
  obtain ⟨hi, rfl⟩ := List.getElem?_eq_some_iff.mp h
  rw [Buffer.slice, List.drop_eq_getElem_cons hi, List.take_succ_cons, Buffer.slice]

theorem Buffer.load_eq (h : buf.bytes[i]? = some b) : buf.load (buf.databytes + i) = .ok b := by
  simp [Buffer.load, Buffer.byte?, h]

theorem Buffer.exists_byte (h : i < buf.datalen) :
    ∃ b, buf.bytes[i]? = some b := ⟨_, List.getElem?_eq_getElem h⟩

theorem Buffer.loadBytes_eq (h : i + n ≤ buf.datalen) :
    buf.loadBytes (buf.databytes + i) n = .ok (buf.slice i n) := by
  induction n generalizing i with
  | zero => simp [Buffer.loadBytes, Buffer.slice]
  | succ n ih =>
    obtain ⟨b, hb⟩ := Buffer.exists_byte (show i < buf.datalen by omega)
    rw [Buffer.loadBytes, Buffer.load_eq hb, Buffer.slice_succ hb, add_assoc,
      ih (by omega)]
    rfl

theorem getSizedIntLoop_eq (h : i + n ≤ buf.datalen) (res : ℕ) :
    getSizedIntLoop buf n (buf.databytes + i) (res % 2 ^ 64) =
      .ok ((res * 256 ^ n + ofBigEndian (buf.slice i n)) % 2 ^ 64) := by
  induction n generalizing i res with
  | zero => simp [getSizedIntLoop, Buffer.slice]
  | succ n ih =>
    obtain ⟨b, hb⟩ := Buffer.exists_byte (show i < buf.datalen by omega)
    have hlen : (buf.slice (i + 1) n).length = n := Buffer.length_slice (by omega)
    have hres : (res % 2 ^ 64 * 256 + b.toNat) % 2 ^ 64 = (res * 256 + b.toNat) % 2 ^ 64 := by
      omega
    rw [getSizedIntLoop, Buffer.load_eq hb, Outcome.ok_bind, hres, add_assoc,
      ih (by omega), Buffer.slice_succ hb, ofBigEndian_cons, hlen]
    ring

theorem getSizedInt_eq (h : i + n % 256 ≤ buf.datalen) :
    getSizedInt buf (buf.databytes + i) n = .ok (ofBigEndian (buf.slice i (n % 256)) % 2 ^ 64) := by
  have hloop := getSizedIntLoop_eq h 0
  simpa [getSizedInt] using hloop

theorem checkAdd_eq (h : x + y < 2 ^ 64) : checkAdd x y = .ok (x + y) :=
  if_neg (by rw [uint64Max]; omega)

theorem checkMul_eq (h : x * y < 2 ^ 64) : checkMul x y = .ok (x * y) := by
  rw [checkMul]
  split
  · next hx => simp [hx]
  · next hx =>
    rw [if_neg]
    rw [uint64Max, not_lt, Nat.le_div_iff_mul_le (by omega), mul_comm]
    omega

theorem sat_checkAdd (h : P (x + y)) : Outcome.Sat E P (checkAdd x y) := by
  rw [checkAdd]
  split
  · trivial
  · exact h

theorem sat_checkMul (h : P (x * y)) : Outcome.Sat E P (checkMul x y) := by
  rw [checkMul]
  split
  · next hx => simpa [hx] using h
  · split
    · trivial
    · exact h

end Apple.CF.BinaryPList
