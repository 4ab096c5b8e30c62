import Apple.Dispatch.Data

/-!
# `_dispatch_transform_to_utf16` and `_dispatch_transform_from_utf16`

Model of the UTF transforms of `libdispatch-913.60.2/src/transform.c` (lines 105–154 and
197–529). Both go through the regions of a data object and write to a buffer that
is moved to the result whenever it is full and at the end of each region. A character that
crosses the end of a region is read from the data object (`_dispatch_data_subrange_map`), and
`skip` says how many bytes of the next regions it has used up.

`none` is a transform that returns `NULL`, a write outside of the buffer, or a value that
depends on bytes outside of what may be read: the region, or the mapped subrange. The host
is little-endian, and `malloc` does not fail.
-/

namespace Apple.Dispatch.Utf

/-! ## The buffer -/

/-- `BUFFER_MALLOC_MAX` (line 117). -/
def bufferMallocMax : ℕ := 100 * 1024 * 1024

/-- `dispatch_transform_buffer_s` (lines 108–115): the data object so far, what has been written
from `start` to `ptr`, and `size`. `start` is `NULL` exactly if `size` is 0. -/
structure Buffer where
  data : Bytes
  written : Bytes
  size : ℕ

/-- The buffer before the first region. -/
def Buffer.empty : Buffer := { data := [], written := [], size := 0 }

/-- `_dispatch_transform_buffer_new` (lines 119–154). -/
def bufferNew (buffer : Buffer) (required size : ℕ) : Option Buffer :=
  let remaining := buffer.size - buffer.written.length
  if required = 0 ∨ remaining < required then
    if bufferMallocMax < required + size then none
    else some { data := buffer.data ++ buffer.written, written := [], size := required + size }
  else some buffer

/-- `*(buffer.ptr)++ = ..` for each of the bytes. -/
def write (buffer : Buffer) (bytes : Bytes) : Option Buffer :=
  if buffer.written.length + bytes.length ≤ buffer.size then
    some { buffer with written := buffer.written ++ bytes }
  else none

/-! ## 16-bit units -/

/-- The argument `byteOrder`. -/
inductive ByteOrder
  | little
  | big
  deriving DecidableEq

/-- `OSSwapInt16`. -/
def swapInt16 (x : ℕ) : ℕ := x % 256 * 256 + x / 256

/-- `_dispatch_transform_swap_to_host` (lines 197–204). -/
def swapToHost (order : ByteOrder) (x : ℕ) : ℕ :=
  match order with
  | .little => x
  | .big => swapInt16 x

/-- `_dispatch_transform_swap_from_host` (lines 206–213). -/
def swapFromHost (order : ByteOrder) (x : ℕ) : ℕ :=
  match order with
  | .little => x
  | .big => swapInt16 x

/-- A `uint16_t` in memory. -/
def storeU16 (x : ℕ) : Bytes := [UInt8.ofNat (x % 256), UInt8.ofNat (x / 256)]

/-- `*(uint16_t *)p`, where `p` points to the given bytes. -/
def loadU16 : Bytes → Option ℕ
  | a :: b :: _ => some (a.toNat + 256 * b.toNat)
  | _ => none

/-- `*(buffer.ptr.u16)++ = _dispatch_transform_swap_from_host(x, byteOrder)`. -/
def writeUnit (order : ByteOrder) (buffer : Buffer) (x : ℕ) : Option Buffer :=
  write buffer (storeU16 (swapFromHost order x))

/-! ## UTF-8 sequences -/

/-- `_dispatch_transform_utf8_length` (lines 218–231). -/
def utf8Length (byte : UInt8) : ℕ :=
  if byte &&& 0x80 = 0 then 1
  else if byte &&& 0xe0 = 0xc0 then 2
  else if byte &&& 0xf0 = 0xe0 then 3
  else if byte &&& 0xf8 = 0xf0 then 4
  else 0

/-- The `while` loop of `_dispatch_transform_read_utf8_sequence` (lines 263–270). -/
def readContinuation : ℕ → Bytes → ℕ → Option ℕ
  | 0, _, wch => some wch
  | _ + 1, [], _ => none
  | seqLength + 1, b :: bytes, wch =>
    let wch := wch ||| (b.toNat &&& 0x3f)
    readContinuation seqLength bytes (if 0 < seqLength then wch <<< 6 % 2 ^ 32 else wch)

/-- `_dispatch_transform_read_utf8_sequence` (lines 233–273). `seq_length` is a `uint8_t`, so a
byte that does not start a sequence is followed by 255 others. -/
def readUtf8Sequence : Bytes → Option ℕ
  | [] => none
  | b :: bytes =>
    let seqLength := utf8Length b
    let wch :=
      match seqLength with
      | 4 => (b.toNat &&& 0x7) <<< 6
      | 3 => (b.toNat &&& 0xf) <<< 6
      | 2 => (b.toNat &&& 0x1f) <<< 6
      | 1 => b.toNat &&& 0x7f
      | _ => 0
    readContinuation ((seqLength + 255) % 256) bytes wch

/-! ## To UTF-16 -/

/-- The `__block` variables of a transform. -/
structure UtfState where
  skip : ℕ
  buffer : Buffer

/-- What is written for a code point (lines 349–370); `next` is the size to add to a new
buffer. -/
def emitUtf16 (order : ByteOrder) (buffer : Buffer) (wch next : ℕ) : Option Buffer :=
  if 0xd800 ≤ wch ∧ wch < 0xdfff then none
  else if 0x10000 ≤ wch then do
    let buffer ← bufferNew buffer (2 * 2) next
    let wch := wch - 0x10000
    let buffer ← writeUnit order buffer ((wch >>> 10 &&& 0x3ff) + 0xd800)
    writeUnit order buffer ((wch &&& 0x3ff) + 0xdc00)
  else do
    let buffer ← bufferNew buffer (1 * 2) next
    writeUnit order buffer (wch &&& 0xffff)

/-- The `for` loop over a region (lines 316–371): `src` is what is left of the region. -/
def toUtf16Loop (order : ByteOrder) (data : DispatchData) (offset size : ℕ) :
    ℕ → ℕ → Bytes → UtfState → Option UtfState
  | 0, _, _, _ => none
  | fuel + 1, i, src, st =>
    if i < size then do
      let byte ← src.head?
      let byteSize := utf8Length byte
      if byteSize = 0 then none
      else do
        let (wch, i, skip) ←
          if size < byteSize + i then do
            let p ← data.subrangeMap (offset + i) byteSize
            let wch ← readUtf8Sequence p
            some (wch, size, st.skip + (byteSize - (size - i)))
          else do
            let wch ← readUtf8Sequence src
            some (wch, i + byteSize, st.skip)
        let next := (size - i) * 2
        if sizeTMax < next then none
        else if wch = 0xfeff ∧ offset + i = 3 then
          toUtf16Loop order data offset size fuel i (src.drop byteSize) { st with skip := skip }
        else do
          let buffer ← emitUtf16 order st.buffer wch next
          toUtf16Loop order data offset size fuel i (src.drop byteSize)
            { skip := skip, buffer := buffer }
    else some st

section

variable (order : ByteOrder) (data : DispatchData)

/-- The block given to `dispatch_data_apply` (lines 287–376). -/
def toUtf16Region (offset : ℕ) (bytes : Bytes) (st : UtfState) : Option UtfState := do
  let size := bytes.length
  let st ←
    if offset = 0 then do
      let destSize := size * 2 + 2
      if sizeTMax < destSize then none
      else do
        let buffer ← bufferNew st.buffer destSize 0
        let buffer ← writeUnit order buffer 0xfeff
        some { st with buffer := buffer }
    else some st
  if size ≤ st.skip then some { st with skip := st.skip - size }
  else do
    let size := size - st.skip
    let src := bytes.drop st.skip
    let st ← toUtf16Loop order data offset size (size + 1) 0 src { st with skip := 0 }
    let buffer ← bufferNew st.buffer 0 0
    some { st with buffer := buffer }

/-- `_dispatch_transform_to_utf16` (lines 277–385): the bytes of the result, or `NULL`. -/
def transformToUtf16 : Option Bytes :=
  (dispatchDataApply data (toUtf16Region order data) { skip := 0, buffer := .empty }).map
    (·.buffer.data)

/-! ## From UTF-16 -/

/-- What is written for a code point (lines 488–514). -/
def emitUtf8 (buffer : Buffer) (wch next : ℕ) : Option Buffer :=
  if wch < 0x80 then do
    let buffer ← bufferNew buffer 1 next
    write buffer [UInt8.ofNat (wch &&& 0xff)]
  else if wch < 0x800 then do
    let buffer ← bufferNew buffer 2 next
    write buffer [UInt8.ofNat (0xc0 ||| wch >>> 6), UInt8.ofNat (0x80 ||| wch &&& 0x3f)]
  else if wch < 0x10000 then do
    let buffer ← bufferNew buffer 3 next
    write buffer [UInt8.ofNat (0xe0 ||| wch >>> 12), UInt8.ofNat (0x80 ||| wch >>> 6 &&& 0x3f),
      UInt8.ofNat (0x80 ||| wch &&& 0x3f)]
  else if wch < 0x200000 then do
    let buffer ← bufferNew buffer 4 next
    write buffer [UInt8.ofNat (0xf0 ||| wch >>> 18), UInt8.ofNat (0x80 ||| wch >>> 12 &&& 0x3f),
      UInt8.ofNat (0x80 ||| wch >>> 6 &&& 0x3f), UInt8.ofNat (0x80 ||| wch &&& 0x3f)]
  else some buffer

/-- `src[i]`, in host order. -/
def srcUnit (order : ByteOrder) (src : Bytes) (i : ℕ) : Option ℕ :=
  (loadU16 (src.drop (2 * i))).map (swapToHost order)

/-- A unit from a mapped subrange, in host order. Line 440 loads 8 bytes and keeps the first
two. -/
def mappedUnit (offset : ℕ) : Option ℕ := do
  let p ← data.subrangeMap offset 2
  (loadU16 p).map (swapToHost order)

/-- The unit `i` of a region with `max` units (lines 431–446), and `skip` after it. The last
unit of a region of odd size is read ahead. -/
def readUnit (offset size max : ℕ) (src : Bytes) (i skip : ℕ) : Option (ℕ × ℕ) :=
  if i = max - 1 ∧ size / 2 < max then
    (mappedUnit order data (offset + i * 2)).map (·, skip + 1)
  else (srcUnit order src i).map (·, skip)

/-- The second unit of a surrogate pair (lines 459–472). -/
def readLowUnit (offset max : ℕ) (src : Bytes) (i skip : ℕ) : Option (ℕ × ℕ) :=
  if max ≤ i then (mappedUnit order data (offset + i * 2)).map (·, skip + 2)
  else (srcUnit order src i).map (·, skip)

/-- The code point that starts with the unit `ch` (lines 456–483): the code point, the index of
its last unit, and `skip`. -/
def readCodePoint (offset max : ℕ) (src : Bytes) (ch i skip : ℕ) : Option (ℕ × ℕ × ℕ) :=
  if 0xd800 ≤ ch ∧ ch ≤ 0xdbff then do
    let (ch', skip) ← readLowUnit order data offset max src (i + 1) skip
    if ¬ (0xdc00 ≤ ch' ∧ ch' ≤ 0xdfff) then none
    else some (((ch - 0xd800) <<< 10 ||| (ch' &&& 0x3ff)) + 0x10000, i + 1, skip)
  else if 0xdc00 ≤ ch ∧ ch ≤ 0xdfff then none
  else some (ch, i, skip)

/-- The `for` loop over a region (lines 427–515). -/
def fromUtf16Loop (order : ByteOrder) (data : DispatchData) (offset size max : ℕ) (src : Bytes) :
    ℕ → ℕ → UtfState → Option UtfState
  | 0, _, _ => none
  | fuel + 1, i, st =>
    if i < max then do
      let (ch, skip) ← readUnit order data offset size max src i st.skip
      if ch = 0xfffe ∧ offset = 0 ∧ i = 0 then none
      else if ch = 0xfeff ∧ offset = 0 ∧ i = 0 then
        fromUtf16Loop order data offset size max src fuel (i + 1) { st with skip := skip }
      else do
        let (wch, i, skip) ← readCodePoint order data offset max src ch i skip
        let next := (max - i) * 2
        if sizeTMax < next then none
        else do
          let buffer ← emitUtf8 st.buffer wch next
          fromUtf16Loop order data offset size max src fuel (i + 1)
            { skip := skip, buffer := buffer }
    else some st

/-- The block given to `dispatch_data_apply` (lines 396–520). -/
def fromUtf16Region (offset : ℕ) (bytes : Bytes) (st : UtfState) : Option UtfState := do
  let size := bytes.length
  let st ←
    if offset = 0 then do
      let buffer ← bufferNew st.buffer (howmany size 3 * 2) 0
      some { st with buffer := buffer }
    else some st
  if size ≤ st.skip then some { st with skip := st.skip - size }
  else do
    let size := size - st.skip
    let src := bytes.drop st.skip
    let max := if size % 2 ≠ 0 then size / 2 + 1 else size / 2
    let st ← fromUtf16Loop order data offset size max src (max + 1) 0 { st with skip := 0 }
    let buffer ← bufferNew st.buffer 0 0
    some { st with buffer := buffer }

/-- `_dispatch_transform_from_utf16` (lines 387–529). -/
def transformFromUtf16 : Option Bytes :=
  (dispatchDataApply data (fromUtf16Region order data) { skip := 0, buffer := .empty }).map
    (·.buffer.data)

end

end Apple.Dispatch.Utf
