import Mathlib.Data.Finset.Card
import Mathlib.Tactic.Ring
import Apple.CF.BinaryPList

/-!
# Binary property lists: declared sizes

How far an object of a binary property list reaches as it declares its size, what
`__CFBinaryPlistGetTopLevelInfo` establishes about the trailer, and what the reader's checks say
about the scalar objects: each is read in bounds, and what is created had a size that fits before
the offset table. The exception is a count of 256 bytes or more, which `_getSizedInt` reads as zero.

Results: `getTopLevelInfo_sat`, `readCount_sat`, and one `_sat` theorem for each scalar.
-/

namespace Apple.CF.BinaryPList

open Apple.Lib
open Apple.Lib.Outcome

/-! ## What an object declares -/

/-- The offset table's entry for the object number `k`. -/
def offsetAt (buf : Buffer) (trailer : Trailer) (k : ℕ) : ℕ :=
  ofBigEndian (buf.slice (trailer.offsetTableOffset + k * trailer.offsetIntSize)
    trailer.offsetIntSize) % 2 ^ 64

/-- A collection starts at the offset. -/
def IsContainer (buf : Buffer) (off : ℕ) : Prop :=
  ∃ marker ∈ buf.bytes[off]?, kindOf marker ∈ [some Kind.array, some Kind.set, some Kind.dict]

instance (buf : Buffer) (off : ℕ) : Decidable (IsContainer buf off) :=
  inferInstanceAs (Decidable (∃ marker ∈ buf.bytes[off]?, _))

/-- The distinct offsets of the table at which a collection starts. -/
def containerOffsets (buf : Buffer) (trailer : Trailer) : Finset ℕ :=
  ((Finset.range trailer.numObjects).image (offsetAt buf trailer)).filter (IsContainer buf)

/-- The width of the integer that follows a marker as its count. -/
def countWidth (buf : Buffer) (off : ℕ) : Option ℕ := do
  let marker ← buf.bytes[off + 1]?
  if kindOf marker = some .int then some (2 ^ nibble marker) else none

/-- The count an object declares, and the offset of what it counts. Only the last 64 bits of the
integer are significant. -/
def declaredCount (buf : Buffer) (off : ℕ) : Option (ℕ × ℕ) := do
  let marker ← buf.bytes[off]?
  if nibble marker = 0xf then do
    let width ← countWidth buf off
    return (ofBigEndian (buf.slice (off + 2) width) % 2 ^ 64, off + 2 + width)
  else return (nibble marker, off + 1)

/-- How many bytes each of the things counted takes. -/
def Kind.unit (trailer : Trailer) : Kind → Option ℕ
  | .data | .asciiString => some 1
  | .unicode16String => some 2
  | .array | .set => some trailer.objectRefSize
  | .dict => some (2 * trailer.objectRefSize)
  | _ => none

/-- The size of an object with nothing counted, after its marker. -/
def Kind.fixedSize : Kind → ℕ → Option ℕ
  | .null, n => if n = 0 ∨ n = 8 ∨ n = 9 then some 0 else none
  | .int, n => some (2 ^ n)
  | .real, n => if n = 2 then some 4 else if n = 3 then some 8 else none
  | .date, n => if n = 3 then some 8 else none
  | .uid, n => some (n + 1)
  | _, _ => none

/-- The offset at which the object at `off` ends as it declares its size. -/
def declaredEnd (buf : Buffer) (trailer : Trailer) (off : ℕ) : Option ℕ := do
  let marker ← buf.bytes[off]?
  let kind ← kindOf marker
  match kind.unit trailer with
  | some unit => do
    let (count, start) ← declaredCount buf off
    return start + count * unit
  | none => do
    let size ← kind.fixedSize (nibble marker)
    return off + 1 + size

/-- The object at `off` ends before the offset table. -/
def Fits (buf : Buffer) (trailer : Trailer) (off : ℕ) : Prop :=
  ∃ stop ∈ declaredEnd buf trailer off, stop ≤ trailer.offsetTableOffset

/-- The object at `off` has a count of 256 bytes or more, itself before the offset table. -/
def WideCount (buf : Buffer) (trailer : Trailer) (off : ℕ) : Prop :=
  8 ≤ off ∧ ∃ marker ∈ buf.bytes[off]?, (∃ kind ∈ kindOf marker, (kind.unit trailer).isSome) ∧
    nibble marker = 0xf ∧
    ∃ width ∈ countWidth buf off, 256 ≤ width ∧ off + 2 + width ≤ trailer.offsetTableOffset

instance (buf : Buffer) (trailer : Trailer) (off : ℕ) : Decidable (Fits buf trailer off) :=
  inferInstanceAs (Decidable (∃ stop ∈ declaredEnd buf trailer off, _))

/-! ## The trailer -/

/-- What the checks of `__CFBinaryPlistGetTopLevelInfo` establish. -/
structure Accepted (buf : Buffer) (trailer : Trailer) : Prop where
  after_header : 9 ≤ trailer.offsetTableOffset
  le_longMax : trailer.offsetTableOffset ≤ longMax
  offsetIntSize_lt : trailer.offsetIntSize < 256
  objectRefSize_lt : trailer.objectRefSize < 256
  datalen_eq : trailer.offsetTableOffset + trailer.numObjects * trailer.offsetIntSize +
    trailerSize = buf.datalen

variable {buf : Buffer} {trailer : Trailer}

section

variable (hacc : Accepted buf trailer)
include hacc

theorem Accepted.offsetTableOffset_lt : trailer.offsetTableOffset < buf.datalen := by
  have h := hacc.datalen_eq
  rw [trailerSize] at h
  omega

variable {k : ℕ} {E : Fault → Prop}

theorem Accepted.entry_le (hk : k < trailer.numObjects) :
    trailer.offsetTableOffset + k * trailer.offsetIntSize + trailer.offsetIntSize ≤
      buf.datalen := by
  have hmul : (k + 1) * trailer.offsetIntSize ≤ trailer.numObjects * trailer.offsetIntSize :=
    Nat.mul_le_mul_right _ hk
  have h := hacc.datalen_eq
  rw [add_mul] at hmul
  omega

theorem getOffset_eq
    (hk : k < trailer.numObjects) : getOffset buf trailer k = .ok (offsetAt buf trailer k) := by
  have hmod : trailer.offsetIntSize % 256 = trailer.offsetIntSize :=
    Nat.mod_eq_of_lt hacc.offsetIntSize_lt
  rw [getOffset, add_assoc, getSizedInt_eq (by rw [hmod]; exact hacc.entry_le hk), hmod]
  rfl

theorem checkOffsets_sat (n k : ℕ) (hk : k + n ≤ trailer.numObjects) :
    Sat E (fun _ => True) (checkOffsets buf trailer n
      (buf.databytes + trailer.offsetTableOffset + k * trailer.offsetIntSize)) := by
  induction n generalizing k with
  | zero => trivial
  | succ n ih =>
    have hoff : getSizedInt buf (buf.databytes + trailer.offsetTableOffset +
        k * trailer.offsetIntSize) trailer.offsetIntSize = _ := getOffset_eq hacc (by omega)
    rw [checkOffsets, hoff, ok_bind, sat_bind, sat_check]
    intro _
    have hnext := ih (k + 1) (by omega)
    rwa [add_mul, one_mul, ← add_assoc] at hnext

end

/-- **The trailer is read in bounds**, and what is accepted has its offset table between the objects
and the trailer; the top object's offset is an entry of it. -/
theorem getTopLevelInfo_sat (buf : Buffer) : Sat E (fun info => Accepted buf info.2.2 ∧
        ∃ k < info.2.2.numObjects, info.2.1 = offsetAt buf info.2.2 k) (getTopLevelInfo buf) := by
  rw [getTopLevelInfo, sat_bind, sat_check]
  intro hlen
  rw [trailerSize] at hlen
  have hhead := buf.loadBytes_eq (show 0 + 7 ≤ buf.datalen by omega)
  have htail := buf.loadBytes_eq
    (show buf.datalen - trailerSize + trailerSize ≤ buf.datalen by rw [trailerSize]; omega)
  rw [← Nat.add_sub_assoc (by rw [trailerSize]; omega)] at htail
  rw [add_zero] at hhead
  rw [hhead, ok_bind, sat_bind, sat_check]
  intro _
  rw [htail, ok_bind]
  obtain ⟨trail, htrail⟩ :
      ∃ trail, Trailer.ofBytes (buf.slice (buf.datalen - trailerSize) trailerSize) = trail := ⟨_, rfl⟩
  have hint : trail.offsetIntSize < 256 := htrail ▸ UInt8.toNat_lt _
  have href : trail.objectRefSize < 256 := htrail ▸ UInt8.toNat_lt _
  rw [htrail]
  simp only [sat_bind, sat_check]
  intro _ hmax _ htop hafter _ _ _
  apply sat_checkMul
  intro _
  apply sat_checkAdd
  apply sat_checkAdd
  apply sat_checkAdd
  intro hdatalen _ _
  have hacc : Accepted buf trail := ⟨hafter, hmax, hint, href, by omega⟩
  apply sat_checkAdd
  apply sat_checkAdd
  apply sat_checkAdd
  have hoffsets := checkOffsets_sat (E := E) hacc trail.numObjects 0 (by omega)
  rw [Nat.zero_mul] at hoffsets
  refine hoffsets.mono fun _ _ => ?_
  rw [getOffset_eq hacc htop]
  intro hoff
  obtain ⟨b, hb⟩ := Buffer.exists_byte (lt_trans hoff.2 hacc.offsetTableOffset_lt)
  rw [Buffer.load_eq hb]
  exact ⟨hacc, trail.topObject, htop, rfl⟩

/-! ## Scalars -/

/-- The object's declared size fits, or was not looked at. -/
def Sized (buf : Buffer) (trailer : Trailer) (off : ℕ) : Prop :=
  Fits buf trailer off ∨ WideCount buf trailer off

section Scalars

variable {E : Fault → Prop} {buf : Buffer} {trailer : Trailer} {off : ℕ} {marker : UInt8}

variable (hacc : Accepted buf trailer)

section

include hacc

theorem objectsRangeEnd_lt : trailer.objectsRangeEnd + 1 = trailer.offsetTableOffset := by
  have h := hacc.after_header
  rw [Trailer.objectsRangeEnd]
  omega

theorem checkExtent_eq {start n : ℕ} (h : start + n ≤ trailer.offsetTableOffset) :
    checkExtent buf trailer (buf.databytes + start) n = .ok () := by
  have hend := objectsRangeEnd_lt hacc
  have hlt := hacc.offsetTableOffset_lt
  have haddr := buf.addressable
  rw [Buffer.datalen] at hlt
  rw [checkExtent, checkAdd_eq (by omega), ok_bind, check_true (by omega)]

theorem checkExtent16_eq {start n : ℕ} (h : start + n * 2 ≤ trailer.offsetTableOffset) :
    checkExtent16 buf trailer (buf.databytes + start) n = .ok () := by
  have hend := objectsRangeEnd_lt hacc
  have hlt := hacc.offsetTableOffset_lt
  have haddr := buf.addressable
  rw [Buffer.datalen] at hlt
  rw [checkExtent16, checkAdd_eq (by omega), ok_bind, checkAdd_eq (by omega), ok_bind,
    check_true (by omega)]

theorem checkExtent_sat (start n : ℕ) : Sat E (fun _ => start + n ≤ trailer.offsetTableOffset)
      (checkExtent buf trailer (buf.databytes + start) n) := by
  rw [checkExtent, sat_bind]
  apply sat_checkAdd
  rw [sat_check]
  have hend := objectsRangeEnd_lt hacc
  omega

theorem checkExtent16_sat (start n : ℕ) : Sat E (fun _ => start + n * 2 ≤ trailer.offsetTableOffset)
      (checkExtent16 buf trailer (buf.databytes + start) n) := by
  rw [checkExtent16, sat_bind]
  apply sat_checkAdd
  rw [sat_bind]
  apply sat_checkAdd
  rw [sat_check]
  have hend := objectsRangeEnd_lt hacc
  omega

theorem readInt_eq {i width : ℕ} (hwidth : countWidth buf i = some width)
    (hstop : i + 2 + width ≤ trailer.offsetTableOffset) :
    readInt buf (buf.databytes + (i + 1)) (buf.databytes + trailer.objectsRangeEnd) =
      .ok (ofBigEndian (buf.slice (i + 2) (width % 256)) % 2 ^ 64,
        buf.databytes + (i + 2 + width)) := by
  have hend := objectsRangeEnd_lt hacc
  have hlt := hacc.offsetTableOffset_lt
  have haddr := buf.addressable
  rw [Buffer.datalen] at hlt
  obtain ⟨b, hb⟩ := Buffer.exists_byte (show i + 1 < buf.datalen by rw [Buffer.datalen]; omega)
  have hkind : kindOf b = some .int ∧ 2 ^ nibble b = width := by
    simpa [countWidth, hb] using hwidth
  rw [readInt, check_true (by omega), ok_bind, Buffer.load_eq hb, ok_bind, check_true hkind.1,
    ok_bind, hkind.2]
  dsimp only
  rw [checkAdd_eq (by omega), ok_bind, check_true (by omega), ok_bind, add_assoc,
    getSizedInt_eq (by rw [Buffer.datalen]; omega), ok_bind, pure_eq, add_assoc buf.databytes]

theorem readInt_sat (i : ℕ) : Sat E (fun r => ∃ width, countWidth buf i = some width ∧
        i + 2 + width ≤ trailer.offsetTableOffset ∧
        r = (ofBigEndian (buf.slice (i + 2) (width % 256)) % 2 ^ 64,
          buf.databytes + (i + 2 + width)))
      (readInt buf (buf.databytes + (i + 1)) (buf.databytes + trailer.objectsRangeEnd)) := by
  have hend := objectsRangeEnd_lt hacc
  have hlt := hacc.offsetTableOffset_lt
  rw [readInt, sat_bind, sat_check]
  intro hi
  obtain ⟨b, hb⟩ := Buffer.exists_byte (show i + 1 < buf.datalen by omega)
  rw [Buffer.load_eq hb, ok_bind, sat_bind, sat_check]
  intro hkind
  rw [sat_bind]
  apply sat_checkAdd
  rw [sat_bind, sat_check]
  intro hextent
  have hmod : 2 ^ nibble b % 256 ≤ 2 ^ nibble b := Nat.mod_le _ _
  rw [add_assoc, getSizedInt_eq (by omega)]
  refine ⟨2 ^ nibble b, ?_, by omega, ?_⟩
  · simp [countWidth, hb, hkind]
  · rw [add_assoc buf.databytes]

/-- A count is read as declared, unless it is 256 bytes wide or wider. -/
theorem readCount_sat (hoff : 8 ≤ off) (hmarker : buf.bytes[off]? = some marker) :
    Sat E (fun r => ∃ start, r.2 = buf.databytes + start ∧ off < start ∧ r.1 ≤ longMax ∧
        ∀ kind unit, kindOf marker = some kind → kind.unit trailer = some unit →
          start + r.1 * unit ≤ trailer.offsetTableOffset → Sized buf trailer off)
      (readCount buf trailer off marker) := by
  rw [readCount, sat_bind]
  apply sat_checkAdd
  split
  · next hnib =>
    rw [sat_bind]
    refine (readInt_sat hacc off).mono ?_
    rintro _ ⟨width, hwidth, hstop, rfl⟩
    rw [sat_bind, sat_check]
    intro hmax
    refine ⟨off + 2 + width, rfl, by omega, hmax, fun kind unit hkind hunit hfits => ?_⟩
    by_cases hw : width < 256
    · refine Or.inl ⟨_, ?_, hfits⟩
      rw [Nat.mod_eq_of_lt hw] at *
      simp [declaredEnd, declaredCount, hmarker, hkind, hunit, hnib, hwidth]
    · exact Or.inr ⟨hoff, marker, hmarker, ⟨kind, hkind, by simp [hunit]⟩, hnib, width, hwidth,
        by omega, hstop⟩
  · next hnib =>
    refine ⟨off + 1, by rw [add_assoc], by omega, ?_, fun kind unit hkind hunit hfits => ?_⟩
    · have : nibble marker < 16 := Nat.mod_lt _ (by decide)
      rw [longMax]
      omega
    · refine Or.inl ⟨_, ?_, hfits⟩
      simp [declaredEnd, declaredCount, hmarker, hkind, hunit, hnib]

end

variable (hmarker : buf.bytes[off]? = some marker) {kind : Kind}

include hmarker in
theorem fits_of_fixedSize {size : ℕ}
    (hkind : kindOf marker = some kind) (hunit : kind.unit trailer = none)
    (hsize : kind.fixedSize (nibble marker) = some size)
    (hfits : off + 1 + size ≤ trailer.offsetTableOffset) : Sized buf trailer off := by
  refine Or.inl ⟨_, ?_, hfits⟩
  simp [declaredEnd, hmarker, hkind, hunit, hsize]

theorem createNull_sat (hlt : off < trailer.offsetTableOffset)
    (hmarker : buf.bytes[off]? = some marker) (hkind : kindOf marker = some .null) :
    Sat E (fun _ => Sized buf trailer off) (createNull marker) := by
  have hsized : ∀ n, nibble marker = n → (n = 0 ∨ n = 8 ∨ n = 9) → Sized buf trailer off := by
    intro n hn hcases
    have hsize : Kind.null.fixedSize (nibble marker) = some 0 := by
      simp [Kind.fixedSize, hn, hcases]
    exact fits_of_fixedSize hmarker hkind rfl hsize (by omega)
  rw [createNull]
  split
  · next hn => exact hsized _ hn (by decide)
  · next hn => exact hsized _ hn (by decide)
  · next hn => exact hsized _ hn (by decide)
  · trivial

include hacc hmarker in
theorem createInt_sat (hkind : kindOf marker = some .int) :
    Sat E (fun _ => Sized buf trailer off) (createInt buf trailer off marker) := by
  have hlt := hacc.offsetTableOffset_lt
  rw [createInt, sat_bind]
  apply sat_checkAdd
  rw [add_assoc, sat_bind]
  refine (checkExtent_sat hacc _ _).mono fun _ hfits => ?_
  have hmod : 2 ^ nibble marker % 256 ≤ 2 ^ nibble marker := Nat.mod_le _ _
  have hsized : Sized buf trailer off := fits_of_fixedSize hmarker hkind rfl rfl hfits
  rw [sat_bind, sat_check, getSizedInt_eq (by omega)]
  intro _
  split
  · exact hsized
  · exact hsized

include hacc in
theorem createFloat_sat (n : ℕ) :
    Sat E (fun _ => off + 1 + n ≤ trailer.offsetTableOffset) (createFloat buf trailer off n) := by
  have hlt := hacc.offsetTableOffset_lt
  rw [createFloat, sat_bind]
  apply sat_checkAdd
  rw [add_assoc buf.databytes, sat_bind]
  refine (checkExtent_sat hacc _ _).mono fun _ hfits => ?_
  rw [Buffer.loadBytes_eq (by omega)]
  exact hfits

section

include hacc hmarker

theorem createReal_sat (hkind : kindOf marker = some .real) :
    Sat E (fun _ => Sized buf trailer off) (createReal buf trailer off marker) := by
  rw [createReal]
  split
  · next hn =>
    rw [sat_bind]
    exact (createFloat_sat hacc 4).mono fun _ =>
      fits_of_fixedSize hmarker hkind rfl (by simp [Kind.fixedSize, hn])
  · next hn =>
    rw [sat_bind]
    exact (createFloat_sat hacc 8).mono fun _ =>
      fits_of_fixedSize hmarker hkind rfl (by simp [Kind.fixedSize, hn])
  · trivial

theorem createDate_sat (hkind : kindOf marker = some .date) :
    Sat E (fun _ => Sized buf trailer off) (createDate buf trailer off marker) := by
  rw [createDate]
  split
  · next hn =>
    rw [sat_bind]
    exact (createFloat_sat hacc 8).mono fun _ =>
      fits_of_fixedSize hmarker hkind rfl (by simp [Kind.fixedSize, hn])
  · trivial

theorem createUID_sat (hkind : kindOf marker = some .uid) :
    Sat E (fun _ => Sized buf trailer off) (createUID buf trailer off marker) := by
  have hlt := hacc.offsetTableOffset_lt
  rw [createUID, sat_bind]
  apply sat_checkAdd
  rw [add_assoc, sat_bind]
  refine (checkExtent_sat hacc _ _).mono fun _ hfits => ?_
  rw [getSizedInt_eq (by omega), ok_bind, sat_bind, sat_check]
  intro _
  exact fits_of_fixedSize hmarker hkind rfl rfl hfits

end

include hacc in
theorem createBytes_sat (hoff : 8 ≤ off)
    (hmarker : buf.bytes[off]? = some marker) (hkind : kindOf marker = some kind)
    (hunit : kind.unit trailer = some 1) :
    Sat E (fun _ => Sized buf trailer off) (createBytes buf trailer off marker) := by
  have hlt := hacc.offsetTableOffset_lt
  rw [createBytes, sat_bind]
  refine (readCount_sat hacc hoff hmarker).mono ?_
  rintro ⟨cnt, _⟩ ⟨start, rfl, _, _, hsized⟩
  rw [sat_bind]
  refine (checkExtent_sat hacc start cnt).mono fun _ hfits => ?_
  rw [Buffer.loadBytes_eq (by omega)]
  exact hsized kind 1 hkind hunit (by simpa using hfits)

include hacc in
theorem createUnicode16String_sat (hoff : 8 ≤ off)
    (hmarker : buf.bytes[off]? = some marker) (hkind : kindOf marker = some .unicode16String) :
    Sat E (fun _ => Sized buf trailer off) (createUnicode16String buf trailer off marker) := by
  have hlt := hacc.offsetTableOffset_lt
  rw [createUnicode16String, sat_bind]
  refine (readCount_sat hacc hoff hmarker).mono ?_
  rintro ⟨cnt, _⟩ ⟨start, rfl, _, _, hsized⟩
  rw [sat_bind]
  refine (checkExtent16_sat hacc start cnt).mono fun _ hfits => ?_
  rw [sat_bind]
  apply sat_checkMul
  rw [Buffer.loadBytes_eq (by omega)]
  exact hsized _ 2 hkind rfl hfits

end Scalars

end Apple.CF.BinaryPList
