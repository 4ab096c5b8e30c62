import Apple.Dispatch.Data

/-!
# `dispatch_data_t` objects (`libdispatch-913.60.2/src/data.c`)

An object is a leaf, which has a buffer, or it has records that point to other objects. The
functions are those that build objects (`dispatch_data_create_concat`,
`dispatch_data_create_subrange`, `dispatch_data_copy_region`, `dispatch_data_create_map`), the
one that flattens an object (`_dispatch_data_get_flattened_bytes`) and `dispatch_data_apply`.

A pointer into a buffer is the bytes from there on. The type allows objects of any depth; that
the functions build only leaves and composites of leaves is a theorem
(`DataObjectSpec.lean`). Sums of sizes are over ℕ where they are at most the size of an
object, and modulo `2 ^ 64` in `dispatch_data_create_concat`.
-/

namespace Apple.Dispatch

/-- `range_record` (`data_internal.h`, lines 35–39); `start` is `from`. -/
structure RangeRecord (α : Type) where
  dataObject : α
  start : ℕ
  length : ℕ

/-- `struct dispatch_data_s` (lines 58–71): `buf`, `size` and `records`, whose number is
`num_records`. -/
inductive Data where
  | mk (buf : Option Bytes) (size : ℕ) (records : List (RangeRecord Data))

/-- How a function may fail to return. -/
inductive Failure where
  | outOfMemory
  /-- `DISPATCH_INTERNAL_CRASH` -/
  | internalCrash
  /-- `dispatch_assert` -/
  | assertion
  /-- A read outside of a buffer. -/
  | badRead
deriving DecidableEq

namespace Data

def buf : Data → Option Bytes
  | mk buf _ _ => buf

/-- `dispatch_data_get_size` (`data.c`, lines 314–318) -/
def size : Data → ℕ
  | mk _ size _ => size

def records : Data → List (RangeRecord Data)
  | mk _ _ records => records

/-- `_dispatch_data_leaf` (`data_internal.h`, lines 73–78) -/
def leaf (dd : Data) : Bool := dd.records.length = 0

/-- `_dispatch_data_num_records` (lines 86–91) -/
def numRecords (dd : Data) : ℕ := if dd.records.length = 0 then 1 else dd.records.length

/-- `dispatch_data_empty` -/
def empty : Data := mk none 0 []

/-- The bytes of the records of `_dispatch_data_alloc` (`data.c`, lines 103–126) with those of the
`struct dispatch_data_s` before them. -/
def allocSize (n : ℕ) : ℕ := n * 24 + 64

/-- `_dispatch_data_alloc(n, 0)` -/
def alloc (n : ℕ) : Except Failure Unit :=
  if allocSize n < 2 ^ 64 then .ok () else .error .outOfMemory

/-- `dispatch_data_create` (lines 179–215) with a buffer of its own -/
def create (buffer : Bytes) : Data :=
  if buffer.length = 0 then empty else mk (some buffer) buffer.length []

/-! ## Reading -/

/-- `_dispatch_data_map_direct` (`data_internal.h`, lines 121–145): the buffer, and the object and
the offset behind a trivial subrange. -/
def mapDirect (dd : Data) (offset : ℕ) : Except Failure (Option Bytes × Data × ℕ) :=
  if dd.size = 0 then .error .assertion
  else
    match dd.records with
    | [r] => .ok (r.dataObject.buf.map (·.drop (offset + r.start)), r.dataObject, offset + r.start)
    | _ => .ok (dd.buf.map (·.drop offset), dd, offset)

/-- The `size` bytes that a callee gets at `buffer + start`. -/
def readBuffer (buffer : Bytes) (start size : ℕ) : Except Failure Bytes :=
  if start + size ≤ buffer.length then .ok ((buffer.drop start).take size) else .error .badRead

section Apply

variable {σ : Type} (applier : Data → ℕ → Bytes → σ → Bool × σ)

mutual

/-- `_dispatch_data_apply` (`data.c`, lines 566–588); the applier gets the state of its block -/
def applyFrom : Data → ℕ → ℕ → ℕ → σ → Except Failure (Bool × σ)
  | mk buf sz records, offset, start, size, st =>
    match mapDirect (mk buf sz records) 0 with
    | .error e => .error e
    | .ok (some buffer, _) =>
      match readBuffer buffer start size with
      | .error e => .error e
      | .ok bytes => .ok (applier (mk buf sz records) offset bytes st)
    | .ok (none, _) =>
      if records.length = 0 then .error .badRead else applyRecords records offset st

/-- `for (i = 0; i < _dispatch_data_num_records(dd) && result; ++i)` -/
def applyRecords : List (RangeRecord Data) → ℕ → σ → Except Failure (Bool × σ)
  | [], _, st => .ok (true, st)
  | ⟨dataObject, start, length⟩ :: rest, offset, st =>
    match applyFrom dataObject offset start length st with
    | .error e => .error e
    | .ok (false, st) => .ok (false, st)
    | .ok (true, st) => applyRecords rest (offset + length) st

end

/-- `dispatch_data_apply` (lines 601–609) -/
def apply (dd : Data) (st : σ) : Except Failure (Bool × σ) :=
  if dd.size = 0 then .ok (true, st) else applyFrom applier dd 0 0 dd.size st

end Apply

/-! ## Concatenation -/

/-- The records of an object, or one record for a leaf. -/
def asRecords (dd : Data) : List (RangeRecord Data) :=
  if dd.leaf then [⟨dd, 0, dd.size⟩] else dd.records

/-- `dispatch_data_create_concat` (lines 320–363) -/
def createConcat (dd1 dd2 : Data) : Except Failure Data :=
  if dd1.size = 0 then .ok dd2
  else if dd2.size = 0 then .ok dd1
  else if dd1.numRecords + dd2.numRecords ≥ 2 ^ 64 then .error .outOfMemory
  else do
    alloc (dd1.numRecords + dd2.numRecords)
    return mk none ((dd1.size + dd2.size) % 2 ^ 64) (dd1.asRecords ++ dd2.asRecords)

/-! ## Subranges -/

/-- The record that contains the end of the range (lines 426–442): the number of records of the
range and the length of the last one. The list is the records after the first `count`. -/
def lastRecord : List (RangeRecord Data) → ℕ → ℕ → Except Failure (ℕ × ℕ)
  | [], count, lastLength => .ok (count, lastLength)
  | r :: rest, count, lastLength =>
    if lastLength ≤ r.length then .ok (count + 1, lastLength)
    else if rest.length = 0 then .error .internalCrash
    else lastRecord rest (count + 1) (lastLength - r.length)

/-- A subrange over more than one record (lines 418–460). `r` is the record that contains
`offset`. -/
def subrangeSpan (r : RangeRecord Data) (rest : List (RangeRecord Data)) (offset length : ℕ)
    (toTheEnd : Bool) : Except Failure Data := do
  let (count, lastLength) ←
    if toTheEnd then .ok (rest.length + 1, 0)
    else lastRecord rest 1 (length - (r.length - offset))
  alloc count
  let records := (r :: rest).take count
  let records := if offset ≠ 0 then
      records.modifyHead fun r => { r with start := r.start + offset, length := r.length - offset }
    else records
  let records := if toTheEnd then records
    else records.modify (count - 1) fun r => { r with length := lastLength }
  return mk none length records

mutual

/-- `dispatch_data_create_subrange` (lines 366–461) -/
def createSubrange : Data → ℕ → ℕ → Except Failure Data
  | mk buf size records, offset, length =>
    if offset ≥ size ∨ length = 0 then .ok empty
    else if length ≤ size - offset ∧ length = size then .ok (mk buf size records)
    else
      let length := if length > size - offset then size - offset else length
      if records.length = 0 then do
        alloc 1
        return mk none length [⟨mk buf size records, offset, length⟩]
      else subrangeRecords records offset length (offset + length = size)

/-- From the record that contains the offset (lines 399–416). -/
def subrangeRecords : List (RangeRecord Data) → ℕ → ℕ → Bool → Except Failure Data
  | [], _, _, _ => .error .internalCrash
  | ⟨dataObject, start, recordLength⟩ :: rest, offset, length, toTheEnd =>
    if offset ≥ recordLength then subrangeRecords rest (offset - recordLength) length toTheEnd
    else if offset + length ≤ recordLength then createSubrange dataObject (start + offset) length
    else subrangeSpan ⟨dataObject, start, recordLength⟩ rest offset length toTheEnd

end

/-! ## Regions -/

mutual

/-- `_dispatch_data_copy_region` (lines 611–661): the object and `*offset_ptr` -/
def copyRegionFrom : Data → ℕ → ℕ → ℕ → ℕ → Except Failure (Data × ℕ)
  | mk buf sz records, start, size, location, offsetPtr =>
    match mapDirect (mk buf sz records) start with
    | .error e => .error e
    | .ok (some _, dd, start') =>
      if start = 0 ∧ size = sz then .ok (mk buf sz records, offsetPtr)
      else if start' = 0 ∧ size = dd.size then .ok (dd, offsetPtr)
      else do
        alloc 1
        return (mk none size [⟨dd, start', size⟩], offsetPtr)
    | .ok (none, _, start') =>
      -- the records are those of the object behind a trivial subrange
      match records with
      | [] => .error .badRead
      | [⟨mk _ _ inner, _, _⟩] => regionRecords inner start' 0 location offsetPtr
      | r :: r' :: rest => regionRecords (r :: r' :: rest) start' 0 location offsetPtr

/-- The loop of `_dispatch_data_copy_region` (lines 639–657). -/
def regionRecords : List (RangeRecord Data) → ℕ → ℕ → ℕ → ℕ → Except Failure (Data × ℕ)
  | [], _, _, _, _ => .error .internalCrash
  | ⟨dataObject, recordStart, recordLength⟩ :: rest, start, offset, location, offsetPtr =>
    if start ≥ recordLength then regionRecords rest (start - recordLength) offset location offsetPtr
    else
      let length := recordLength - start
      if location ≥ offset + length then regionRecords rest 0 (offset + length) location offsetPtr
      else copyRegionFrom dataObject (start + recordStart) length (location - offset)
        (offsetPtr + offset)

end

/-- `dispatch_data_copy_region` (lines 664–674) -/
def copyRegion (dd : Data) (location : ℕ) : Except Failure (Data × ℕ) :=
  if location ≥ dd.size then .ok (empty, dd.size) else copyRegionFrom dd 0 dd.size location 0

/-! ## Maps -/

/-- `memcpy(buffer + off, bytes, len)` -/
def memcpy (buffer : Bytes) (off : ℕ) (bytes : Bytes) : Bytes :=
  buffer.take off ++ bytes ++ buffer.drop (off + bytes.length)

/-- `_dispatch_data_flatten` (lines 463–478). `buffer` is what `malloc(dd->size)` returns: nothing,
or memory with any contents. -/
def flatten (dd : Data) (buffer : Option Bytes) : Except Failure (Option Bytes) :=
  match buffer with
  | none => .ok none
  | some buffer =>
    match apply (fun _ off bytes buffer => (true, memcpy buffer off bytes)) dd buffer with
    | .error e => .error e
    | .ok (_, buffer) => .ok (some buffer)

/-- `dispatch_data_create_map` (lines 484–519): the object, `*buffer_ptr` and `*size_ptr` -/
def createMap (dd : Data) (malloc : Option Bytes) :
    Except Failure (Option Data × Option Bytes × ℕ) :=
  if dd.size = 0 then .ok (some empty, none, 0)
  else
    match mapDirect dd 0 with
    | .error e => .error e
    | .ok (some buffer, _) => .ok (some dd, some buffer, dd.size)
    | .ok (none, _) =>
      match flatten dd malloc with
      | .error e => .error e
      | .ok none => .ok (none, none, 0)
      | .ok (some buffer) => .ok (some (create buffer), some buffer, dd.size)

/-- The object with a `buf`. -/
def setBuf (dd : Data) (buf : Bytes) : Data := mk (some buf) dd.size dd.records

/-- `_dispatch_data_get_flattened_bytes` (lines 521–553): the object after it, and the pointer -/
def getFlattenedBytes (dd : Data) (malloc : Option Bytes) : Except Failure (Data × Option Bytes) :=
  if dd.size = 0 then .ok (dd, none)
  else
    match mapDirect dd 0 with
    | .error e => .error e
    | .ok (some buffer, _) => .ok (dd, some buffer)
    | .ok (none, dd', offset) =>
      match flatten dd' malloc with
      | .error e => .error e
      | .ok none => .ok (dd, none)
      | .ok (some flatbuf) =>
        match dd.records with
        | [r] => .ok (mk dd.buf dd.size [{ r with dataObject := dd'.setBuf flatbuf }],
            some (flatbuf.drop offset))
        | _ => .ok (dd.setBuf flatbuf, some flatbuf)

end Data

end Apple.Dispatch
