import Apple.CF.BinaryPListLayout
import Apple.CF.BinaryPListSafety

/-!
# Binary property lists: what is written is read back

The reader applied to the bytes of the writer gives the property list again, for every property list
of strings, 64-bit integers, booleans, data, UIDs, arrays and dictionaries with string keys, nested
and shared in any way, as long as fewer than `2 ^ 32` objects are listed. Collections are listed
once for each way down to them, so a few shared arrays are enough to pass that bound; the writer then
takes eight bytes for a reference and reads four of them from below its variable.

Of an integer of 128 bits the reader keeps the low half.

Results: `createKind_written`, `createObjectFiltered_written`, `round_trip_iff`,
`integer_survives_iff`.
-/

namespace Apple.CF.BinaryPList

open Apple.Lib List
open Option hiding or_self
open Apple.Lib.Outcome

/-! ## Markers and counts -/

variable {m count : ℕ} {chars : List UInt16} {k : ℕ}

theorem nibble_ofNat (hm : m % 16 = 0) (hk : k < 16) : nibble (UInt8.ofNat (m + k)) = k := by
  rw [nibble, UInt8.toNat_ofNat']
  omega

theorem kindOf_ofNat (hm : m % 16 = 0) (hk : k < 16) :
    kindOf (UInt8.ofNat (m + k)) = kindOf (UInt8.ofNat m) := by
  rw [kindOf, kindOf, UInt8.toNat_ofNat', UInt8.toNat_ofNat',
    show (m + k) % 2 ^ 8 / 16 = m % 2 ^ 8 / 16 by omega]

section Scalars

variable {buf : Buffer} {trailer : Trailer} {off : ℕ}

theorem two_pow_intWidth_le (bigint : ℕ) : 2 ^ intWidth bigint ≤ 8 :=
  Nat.pow_le_pow_right (by decide) (intWidth_le bigint)

theorem length_encodeInt (bigint : ℕ) : (encodeInt bigint).length = 1 + 2 ^ intWidth bigint := by
  rw [encodeInt, length_cons, length_toBigEndian, add_comm]

theorem kindOf_encodeInt (bigint : ℕ) : kindOf (UInt8.ofNat (0x10 + intWidth bigint)) = some .int :=
  kindOf_ofNat (by decide) (lt_of_le_of_lt (intWidth_le bigint) (by decide))

theorem nibble_encodeInt (bigint : ℕ) :
    nibble (UInt8.ofNat (0x10 + intWidth bigint)) = intWidth bigint :=
  nibble_ofNat (by decide) (lt_of_le_of_lt (intWidth_le bigint) (by decide))

variable {bigint : ℕ}

/-- An integer in as many bytes as it needs is read back by `_getSizedInt`. -/
theorem getSizedInt_intWidth
    (hat : buf.At off (toBigEndian (2 ^ intWidth bigint) bigint)) (hbig : bigint < 2 ^ 64)
    (hfit : off + 2 ^ intWidth bigint ≤ buf.datalen) :
    getSizedInt buf (buf.databytes + off) (2 ^ intWidth bigint) = .ok bigint := by
  have hle := two_pow_intWidth_le bigint
  have hmod : 2 ^ intWidth bigint % 256 = 2 ^ intWidth bigint := Nat.mod_eq_of_lt (by omega)
  rw [getSizedInt_eq (by omega), hmod, hat.ofBigEndian_slice (lt_of_intWidth hbig),
    Nat.mod_eq_of_lt hbig]

variable (hacc : Accepted buf trailer)

include hacc in
/-- A count is read back. -/
theorem readCount_encodeCount (hm : m % 16 = 0)
    (hat : buf.At off (encodeCount m count)) (hcount : count ≤ longMax)
    (hfit : off + (encodeCount m count).length ≤ trailer.offsetTableOffset) :
    ∃ marker, buf.bytes[off]? = some marker ∧ kindOf marker = kindOf (UInt8.ofNat m) ∧
      readCount buf trailer off marker =
        .ok (count, buf.databytes + (off + (encodeCount m count).length)) := by
  have hdata := hacc.offsetTableOffset_lt
  have haddr : buf.databytes + buf.datalen < 2 ^ 64 := buf.addressable
  have hadd : checkAdd (buf.databytes + off) 1 = .ok (buf.databytes + (off + 1)) := by
    rw [checkAdd_eq (by omega), add_assoc]
  refine ⟨_, hat.head, kindOf_ofNat hm (by split <;> omega), ?_⟩
  rw [readCount, hadd, ok_bind, nibble_ofNat hm (by split <;> omega)]
  by_cases hsmall : count < 15
  · rw [if_pos hsmall, if_neg (by omega), encodeCount, if_neg (show ¬ 15 ≤ count by omega)]
    rfl
  have hint : buf.At (off + 1) (encodeInt count) := by
    have htail := hat.tail
    rwa [if_pos (by omega)] at htail
  have hlen : (encodeCount m count).length = 1 + (encodeInt count).length := by
    rw [encodeCount, if_pos (show 15 ≤ count by omega), length_cons, add_comm]
  rw [hlen, length_encodeInt] at hfit
  have hwidth : countWidth buf off = some (2 ^ intWidth count) := by
    simp only [countWidth, hint.head, bind_eq_bind, bind_some, kindOf_encodeInt,
      nibble_encodeInt, if_true]
  have hle := two_pow_intWidth_le count
  have hbig : count < 2 ^ 64 := by
    rw [longMax] at hcount
    omega
  rw [if_neg hsmall, if_pos rfl, readInt_eq hacc hwidth (by omega),
    Nat.mod_eq_of_lt (show 2 ^ intWidth count < 256 by omega),
    hint.tail.ofBigEndian_slice (lt_of_intWidth hbig), Nat.mod_eq_of_lt hbig, ok_bind]
  dsimp only
  rw [check_true hcount, ok_bind, hlen, length_encodeInt, pure_eq,
    show off + 2 + 2 ^ intWidth count = off + (1 + (1 + 2 ^ intWidth count)) by omega]

include hacc in
theorem createInt_encodeInt (hat : buf.At off (encodeInt bigint)) (hbig : bigint < 2 ^ 64)
    (hfit : off + (encodeInt bigint).length ≤ trailer.offsetTableOffset) :
    createInt buf trailer off (UInt8.ofNat (0x10 + intWidth bigint)) =
      .ok (.number (.sint64 (BitVec.ofNat 64 bigint))) := by
  have hdata := hacc.offsetTableOffset_lt
  have haddr : buf.databytes + buf.datalen < 2 ^ 64 := buf.addressable
  have hle := two_pow_intWidth_le bigint
  have hlen := length_encodeInt bigint
  rw [createInt, checkAdd_eq (by omega), ok_bind, nibble_encodeInt]
  dsimp only
  rw [add_assoc, checkExtent_eq hacc (by omega), ok_bind, check_true (by omega), ok_bind,
    getSizedInt_intWidth hat.tail hbig (by omega), ok_bind, if_neg (by omega), pure_eq]

include hacc in
theorem createUID_encodeUID {uid : BitVec 32} (hat : buf.At off (encodeUID uid))
    (hfit : off + (encodeUID uid).length ≤ trailer.offsetTableOffset) :
    createUID buf trailer off (UInt8.ofNat (0x80 + (2 ^ intWidth uid.toNat - 1))) =
      .ok (.uid uid) := by
  have hdata := hacc.offsetTableOffset_lt
  have haddr : buf.databytes + buf.datalen < 2 ^ 64 := buf.addressable
  have hle := two_pow_intWidth_le uid.toNat
  have hpos : 0 < 2 ^ intWidth uid.toNat := Nat.two_pow_pos _
  have hbig : uid.toNat < 2 ^ 64 := by omega
  have hlen : (encodeUID uid).length = 1 + 2 ^ intWidth uid.toNat := by
    rw [encodeUID, length_cons, length_toBigEndian, add_comm]
  rw [createUID, checkAdd_eq (by omega), ok_bind, nibble_ofNat (by decide) (by omega)]
  dsimp only
  rw [Nat.sub_add_cancel hpos, add_assoc, checkExtent_eq hacc (by omega), ok_bind,
    getSizedInt_intWidth hat.tail hbig (by omega), ok_bind, check_true (by omega), ok_bind,
    BitVec.ofNat_toNat, BitVec.setWidth_eq, pure_eq]

include hacc in
/-- Counted bytes are read back. -/
theorem createBytes_encodeCount {bytes : List UInt8}
    (hm : m % 16 = 0) (hat : buf.At off (encodeCount m bytes.length ++ bytes))
    (hfit : off + (encodeCount m bytes.length ++ bytes).length ≤ trailer.offsetTableOffset) :
    ∃ marker, buf.bytes[off]? = some marker ∧ kindOf marker = kindOf (UInt8.ofNat m) ∧
      createBytes buf trailer off marker = .ok bytes := by
  have hdata := hacc.offsetTableOffset_lt
  have hmax := hacc.le_longMax
  rw [Buffer.at_append] at hat
  rw [length_append] at hfit
  obtain ⟨marker, hmarker, hkind, hcount⟩ := readCount_encodeCount hacc hm hat.1 (by omega)
    (by omega)
  refine ⟨marker, hmarker, hkind, ?_⟩
  rw [createBytes, hcount, ok_bind]
  dsimp only
  rw [checkExtent_eq hacc (by omega), ok_bind, Buffer.loadBytes_eq (by omega), hat.2.slice_eq]

theorem unichars_flatMap (chars : List UInt16) :
    unichars (chars.flatMap fun c => toBigEndian 2 c.toNat) = chars := by
  induction chars with
  | nil => rfl
  | cons c chars ih =>
    have hlt : c.toNat < 65536 := c.toNat_lt
    show UInt16.ofNat _ :: unichars (chars.flatMap fun c => toBigEndian 2 c.toNat) = _
    rw [UInt8.toNat_ofNat', UInt8.toNat_ofNat', pow_one, pow_zero]
    congr 1
    apply UInt16.toNat_inj.mp
    rw [UInt16.toNat_ofNat']
    omega

theorem map_toUInt16_toUInt8 (hchars : ∀ c ∈ chars, c.toNat < 0x80) :
    (chars.map fun c => c.toUInt8).map (fun b => b.toUInt16) = chars := by
  rw [List.map_map]
  conv_rhs => rw [← List.map_id chars]
  apply map_congr_left
  intro c hc
  have hlt := hchars c hc
  apply UInt16.toNat_inj.mp
  simp only [Function.comp_apply, UInt8.toNat_toUInt16, UInt16.toNat_toUInt8, id_eq]
  omega

include hacc in
theorem createUnicode16String_encode (hat : buf.At off (encodeCount 0x60 chars.length ++
      chars.flatMap fun c => toBigEndian 2 c.toNat)) (hfit : off + (encodeCount 0x60 chars.length ++
      chars.flatMap fun c => toBigEndian 2 c.toNat).length ≤ trailer.offsetTableOffset) :
    ∃ marker, buf.bytes[off]? = some marker ∧ kindOf marker = some .unicode16String ∧
      createUnicode16String buf trailer off marker = .ok (.string chars) := by
  have hdata := hacc.offsetTableOffset_lt
  have hmax := hacc.le_longMax
  rw [longMax] at hmax
  have hlen : (chars.flatMap fun c => toBigEndian 2 c.toNat).length = chars.length * 2 := by
    simp
  rw [Buffer.at_append] at hat
  rw [length_append] at hfit
  obtain ⟨marker, hmarker, hkind, hcount⟩ := readCount_encodeCount hacc (by decide) hat.1
    (by rw [longMax]; omega) (by omega)
  refine ⟨marker, hmarker, hkind, ?_⟩
  have hslice := hat.2.slice_eq
  rw [hlen] at hslice
  rw [createUnicode16String, hcount, ok_bind]
  dsimp only
  rw [checkExtent16_eq hacc (by omega), ok_bind, checkMul_eq (by omega), ok_bind,
    Buffer.loadBytes_eq (by omega), hslice, ok_bind, unichars_flatMap, pure_eq]

end Scalars

/-! ## Objects -/

section Objects

variable {ι : Type} [DecidableEq ι] {h : Heap ι} {p : ι} {buf : Buffer}

/-- The dictionary holds for an offset the property list of the object listed there. -/
def Faithful (h : Heap ι) (p : ι) (objects : Objects) : Prop :=
  ∀ off v, objects.get off = some v →
    ∃ i q, (flatten h p).objlist[i]? = some q ∧ off = fileOffset h p i ∧ v = h.value q

variable {objects : Objects} {i off : ℕ} {q : ι}

theorem Faithful.save (hobjects : Faithful h p objects) (hi : (flatten h p).objlist[i]? = some q) :
    Faithful h p (objects.save (fileOffset h p i) (h.value q)) := by
  intro off v hget
  match objects, hobjects, hget with
  | some table, hobjects, hget =>
    rw [Objects.get, Objects.save, map_some, bind_some, lookup_cons] at hget
    split at hget
    · next heq => exact ⟨i, q, hi, beq_iff_eq.mp heq, (some.inj hget).symm⟩
    · exact hobjects off v hget

theorem Faithful.saveLeaf (hobjects : Faithful h p objects)
    (option : Mutability) (hi : (flatten h p).objlist[i]? = some q) :
    Faithful h p (createKind.saveLeaf option (fileOffset h p i) objects (h.value q)) := by
  rw [createKind.saveLeaf]
  split
  · exact hobjects
  · exact hobjects.save hi

theorem Faithful.saveContainer (hobjects : Faithful h p objects)
    (option : Mutability) (hi : (flatten h p).objlist[i]? = some q) :
    Faithful h p (createKind.saveContainer option (fileOffset h p i) (h.value q) objects) := by
  rw [createKind.saveContainer]
  split
  · exact hobjects.save hi
  · exact hobjects

/-- The number of a listed object is a place where it is listed. -/
theorem Written.getElem?_refnum (hw : Written h p buf) (hq : q ∈ (flatten h p).objlist) :
    (flatten h p).objlist[refnum (flatten h p).objtable q]? = some q := by
  have hwf := (flatten_spec h p).wf
  obtain ⟨r, hr⟩ := isSome_iff_exists.mp (hwf.numbered q hq)
  obtain ⟨i, hi, rfl⟩ := hwf.place q r hr
  obtain ⟨hlt, -⟩ := List.getElem?_eq_some_iff.mp hi
  rw [refnum, hr, getD_some, Nat.mod_eq_of_lt (hlt.trans hw.count_lt), hi]

variable {r : ι} {set : Option (List ℕ)}

/-- The parts of a listed object are listed. -/
theorem child_mem (hq : q ∈ (flatten h p).objlist) (hr : r ∈ (h.obj q).children) :
    r ∈ (flatten h p).objlist := by
  have hspec := flatten_spec h p
  rcases hspec.reached q hq with hnil | ⟨t, ht, hreach⟩
  · simp at hnil
  · exact hspec.covers t ht r (hreach.tail hr)

/-- A reference leads to the offset of the object it names. -/
theorem getOffsetOfRefAt_written (hw : Written h p buf)
    (hq : q ∈ (flatten h p).objlist) (hat : buf.At off (toBigEndian (fileTrailer h p).objectRefSize
      (refnum (flatten h p).objtable q))) (hoff : 8 ≤ off)
    (hfit : off + (fileTrailer h p).objectRefSize ≤ (fileTrailer h p).offsetTableOffset) :
    getOffsetOfRefAt buf (buf.databytes + off) (fileTrailer h p) =
      .ok (fileOffset h p (refnum (flatten h p).objtable q)) := by
  have hacc := hw.accepted
  have hdata := hacc.offsetTableOffset_lt
  have hget := hw.getElem?_refnum hq
  obtain ⟨hlt, -⟩ := List.getElem?_eq_some_iff.mp hget
  have hnum : refnum (flatten h p).objtable q < (fileTrailer h p).numObjects := hlt
  have hcount : (fileTrailer h p).numObjects < 2 ^ 32 := hw.count_lt
  have hmod : (fileTrailer h p).objectRefSize % 256 = (fileTrailer h p).objectRefSize :=
    Nat.mod_eq_of_lt hacc.objectRefSize_lt
  rw [getOffsetOfRefAt, if_neg (by omega), getSizedInt_eq (by omega), hmod,
    hat.ofBigEndian_slice (hnum.trans hw.numObjects_lt_pow), Nat.mod_eq_of_lt (by omega), ok_bind,
    if_neg (by omega), getOffset_eq hacc hnum, hw.offsetAt_eq hnum]

/-- **The elements of a collection are read back**, one reference after the other. -/
theorem createElements_written (hw : Written h p buf)
    {create : ℕ → Objects → Outcome Fault (Value × Objects)} {qs : List ι}
    (hcreate : ∀ q ∈ qs, ∀ objects, Faithful h p objects → ∃ objects',
      create (fileOffset h p (refnum (flatten h p).objtable q)) objects =
        .ok (h.value q, objects') ∧ Faithful h p objects')
    (hqs : ∀ q ∈ qs, q ∈ (flatten h p).objlist) {keys : ℕ}
    (hkeys : ∀ q ∈ qs.take keys, plistIsPrimitive (h.value q) = true)
    (hat : buf.At off (qs.flatMap fun q =>
      toBigEndian (fileTrailer h p).objectRefSize (refnum (flatten h p).objtable q)))
    (hoff : 8 ≤ off) (hfit : off + qs.length * (fileTrailer h p).objectRefSize ≤
      (fileTrailer h p).offsetTableOffset) (hobjects : Faithful h p objects) :
    ∃ objects', createElements buf (fileTrailer h p) create qs.length keys (buf.databytes + off)
      objects = .ok (qs.map h.value, objects') ∧ Faithful h p objects' := by
  induction qs generalizing keys off objects with
  | nil => exact ⟨objects, rfl, hobjects⟩
  | cons q qs ih =>
    rw [flatMap_cons, Buffer.at_append, length_toBigEndian] at hat
    rw [length_cons, add_mul] at hfit
    have hq : q ∈ q :: qs := mem_cons_self
    obtain ⟨objects₁, hok₁, hobjects₁⟩ := hcreate q hq objects hobjects
    have hprimitive : 0 < keys → plistIsPrimitive (h.value q) = true := by
      intro hpos
      obtain ⟨k, rfl⟩ := Nat.exists_eq_add_one_of_ne_zero hpos.ne'
      exact hkeys q (by simp)
    have hrest : ∀ r ∈ qs.take (keys - 1), plistIsPrimitive (h.value r) = true := by
      intro r hr
      match keys with
      | 0 => simp at hr
      | k + 1 =>
        apply hkeys r
        exact mem_cons_of_mem q hr
    obtain ⟨objects₂, hok₂, hobjects₂⟩ := ih
      (fun r hr => hcreate r (mem_cons_of_mem q hr))
      (fun r hr => hqs r (mem_cons_of_mem q hr)) hrest hat.2 (by omega) (by omega) hobjects₁
    refine ⟨objects₂, ?_, hobjects₂⟩
    rw [length_cons, createElements,
      getOffsetOfRefAt_written hw (hqs q hq) hat.1 hoff (by omega), ok_bind, hok₁, ok_bind]
    dsimp only
    rw [check_true hprimitive, add_assoc, hok₂]
    rfl

/-- The references of a collection start after its count and end before the offset table. -/
theorem readRefs_eq {trailer : Trailer} (hacc : Accepted buf trailer) {start perEntry : ℕ}
    {marker : UInt8}
    (hcount : readCount buf trailer off marker = .ok (count, buf.databytes + start))
    (hmul : count * perEntry * 8 < 2 ^ 64)
    (hfit : start + count * perEntry * trailer.objectRefSize ≤ trailer.offsetTableOffset) :
    readRefs buf trailer off marker perEntry = .ok (count * perEntry, buf.databytes + start) := by
  have hmax := hacc.le_longMax
  rw [longMax] at hmax
  rw [readRefs, hcount, ok_bind]
  dsimp only
  rw [checkMul_eq (by omega), ok_bind, checkMul_eq (by omega), ok_bind,
    checkExtent_eq hacc hfit, ok_bind, checkMul_eq hmul, ok_bind, pure_eq]

omit [DecidableEq ι] in
theorem length_refs (size : ℕ) (ref : ι → ℕ) (qs : List ι) :
    (qs.flatMap fun q => toBigEndian size (ref q)).length = qs.length * size := by
  simp

/-- Where a listed object stands, and the property list it is. -/
theorem Written.listed (hw : Written h p buf) (hi : (flatten h p).objlist[i]? = some q)
    {o : Obj ι} (ho : h.obj q = o) : buf.At (fileOffset h p i)
        (o.encode (refnum (flatten h p).objtable) (fileTrailer h p).objectRefSize) ∧
      fileOffset h p i + (o.encode (refnum (flatten h p).objtable)
        (fileTrailer h p).objectRefSize).length ≤ (fileTrailer h p).offsetTableOffset ∧
      h.value q = o.toValue h.value :=
  ⟨ho ▸ hw.at_encoding hi, ho ▸ fileOffset_add_le hi, ho ▸ Heap.value_eq q⟩

/-- The object listed at `i` is read back, whatever was created before. -/
def ReadBack (h : Heap ι) (p : ι) (buf : Buffer) (option : Mutability)
    (create : ℕ → Objects → Outcome Fault (Value × Objects)) (i : ℕ) (q : ι) (marker : UInt8) :
    Prop :=
  ∀ objects, Faithful h p objects → ∃ objects',
    createKind buf (fileTrailer h p) option create (fileOffset h p i) marker objects
      (kindOf marker) = .ok (h.value q, objects') ∧ Faithful h p objects'

/-- The elements `qs` are created as the property lists they are. -/
def Creates (h : Heap ι) (p : ι) (create : ℕ → Objects → Outcome Fault (Value × Objects))
    (qs : List ι) : Prop :=
  ∀ q ∈ qs, ∀ objects, Faithful h p objects → ∃ objects',
    create (fileOffset h p (refnum (flatten h p).objtable q)) objects = .ok (h.value q, objects') ∧
      Faithful h p objects'

section ReadBack

variable (hw : Written h p buf) (option : Mutability)
  {create : ℕ → Objects → Outcome Fault (Value × Objects)} {i : ℕ} {q : ι} {marker : UInt8}
  (hi : (flatten h p).objlist[i]? = some q)
  (hmarker : buf.bytes[fileOffset h p i]? = some marker)

include hw hi hmarker

theorem readBack_string (hobj : h.obj q = .string chars) :
    ReadBack h p buf option create i q marker := by
  intro objects hobjects
  obtain ⟨hat, hfit, hvalue⟩ := hw.listed hi hobj
  refine ⟨_, ?_, hobjects.saveLeaf option hi⟩
  rw [hvalue]
  rw [Obj.encode, encodeString] at hat hfit
  split at hat
  · next hascii =>
    have hlen : chars.length = (chars.map fun c => c.toUInt8).length := (length_map _).symm
    rw [if_pos hascii, hlen] at hfit
    rw [hlen] at hat
    obtain ⟨m, hm, hkind, hbytes⟩ := createBytes_encodeCount hw.accepted (by decide) hat hfit
    obtain rfl := some.inj (hmarker.symm.trans hm)
    rw [hkind, show kindOf (UInt8.ofNat 0x50) = some .asciiString from rfl, createKind,
      createASCIIString, hbytes, ok_bind, map_toUInt16_toUInt8 hascii]
    rfl
  · next hascii =>
    rw [if_neg hascii] at hfit
    obtain ⟨m, hm, hkind, hstring⟩ := createUnicode16String_encode hw.accepted hat hfit
    obtain rfl := some.inj (hmarker.symm.trans hm)
    rw [hkind, createKind, hstring]
    rfl

theorem readBack_number {value : BitVec 64} (hobj : h.obj q = .number (.sint64 value)) :
    ReadBack h p buf option create i q marker := by
  intro objects hobjects
  obtain ⟨hat, hfit, hvalue⟩ := hw.listed hi hobj
  refine ⟨_, ?_, hobjects.save hi⟩
  rw [hvalue]
  obtain rfl := some.inj (hmarker.symm.trans hat.head)
  rw [kindOf_encodeInt, createKind, createInt_encodeInt hw.accepted hat value.isLt hfit,
    BitVec.ofNat_toNat]
  rfl

theorem readBack_bool {value : Bool} (hobj : h.obj q = .bool value) :
    ReadBack h p buf option create i q marker := by
  intro objects hobjects
  obtain ⟨hat, -, hvalue⟩ := hw.listed hi hobj
  refine ⟨objects, ?_, hobjects⟩
  rw [hvalue]
  obtain rfl := some.inj (hmarker.symm.trans hat.head)
  match value with
  | true => rfl
  | false => rfl

theorem readBack_data {bytes : List UInt8} (hobj : h.obj q = .data bytes) :
    ReadBack h p buf option create i q marker := by
  intro objects hobjects
  obtain ⟨hat, hfit, hvalue⟩ := hw.listed hi hobj
  refine ⟨_, ?_, hobjects.saveLeaf option hi⟩
  rw [hvalue]
  obtain ⟨m, hm, hkind, hbytes⟩ := createBytes_encodeCount hw.accepted (by decide) hat hfit
  obtain rfl := some.inj (hmarker.symm.trans hm)
  rw [hkind, show kindOf (UInt8.ofNat 0x40) = some .data from rfl, createKind, createData, hbytes]
  rfl

theorem readBack_uid {value : BitVec 32} (hobj : h.obj q = .uid value) :
    ReadBack h p buf option create i q marker := by
  intro objects hobjects
  obtain ⟨hat, hfit, hvalue⟩ := hw.listed hi hobj
  refine ⟨_, ?_, hobjects.save hi⟩
  rw [hvalue]
  obtain rfl := some.inj (hmarker.symm.trans hat.head)
  have hle := two_pow_intWidth_le value.toNat
  rw [kindOf_ofNat (by decide) (by omega), show kindOf (UInt8.ofNat 0x80) = some .uid from rfl,
    createKind, createUID_encodeUID hw.accepted hat hfit]
  rfl

/-- The references of a collection: how many there are, and that the elements they name are read
back. -/
theorem readRefs_written {perEntry : ℕ} {qs : List ι} (hm : m % 16 = 0)
    (hqs : ∀ r ∈ qs, r ∈ (flatten h p).objlist) (hlen : qs.length = count * perEntry)
    (hper : 0 < perEntry) (haddr : qs.length * 8 < 2 ^ 64)
    (hencode : encoding h p q = encodeCount m count ++ qs.flatMap fun r =>
      toBigEndian (fileTrailer h p).objectRefSize (refnum (flatten h p).objtable r))
    (hcreate : Creates h p create qs) {keys : ℕ}
    (hkeys : ∀ r ∈ qs.take keys, plistIsPrimitive (h.value r) = true) :
    kindOf marker = kindOf (UInt8.ofNat m) ∧
      ∃ ptr, readRefs buf (fileTrailer h p) (fileOffset h p i) marker perEntry =
          .ok (qs.length, ptr) ∧ ∀ objects, Faithful h p objects → ∃ objects',
          createElements buf (fileTrailer h p) create qs.length keys ptr objects =
            .ok (qs.map h.value, objects') ∧ Faithful h p objects' := by
  have hacc := hw.accepted
  have hat := hw.at_encoding hi
  have hfit := fileOffset_add_le hi
  have hoff : 8 ≤ fileOffset h p i := Nat.le_add_right _ _
  have hle : count ≤ qs.length := hlen ▸ Nat.le_mul_of_pos_right count hper
  rw [hencode, Buffer.at_append] at hat
  rw [hencode, length_append, length_refs, ← add_assoc] at hfit
  obtain ⟨m', hm', hkind, hcount⟩ := readCount_encodeCount hacc hm hat.1
    (by rw [longMax]; omega) (by omega)
  obtain rfl := some.inj (hmarker.symm.trans hm')
  refine ⟨hkind, _, ?_, fun objects hobjects =>
    createElements_written hw hcreate hqs hkeys hat.2 (by omega) hfit hobjects⟩
  rw [readRefs_eq hacc hcount (by rwa [← hlen]) (by rwa [← hlen]), hlen]

theorem readBack_array {elements : List ι} (hobj : h.obj q = .array elements)
    (hcreate : Creates h p create (h.obj q).children) :
    ReadBack h p buf option create i q marker := by
  intro objects hobjects
  have hchildren : (h.obj q).children = elements := by rw [hobj, Obj.children]
  have hvalue : h.value q = .array (elements.map h.value) := by
    rw [Heap.value_eq, hobj, Obj.toValue]
  have haddr := h.addressable q
  rw [hchildren] at hcreate haddr
  obtain ⟨hkind, ptr, hrefs, helements⟩ := readRefs_written hw hi hmarker (m := 0xA0) (by decide)
    (fun r hr => child_mem (mem_of_getElem? hi) (by rwa [hchildren]))
    (mul_one _).symm one_pos haddr
    (by rw [encoding, hobj, Obj.encode]) hcreate
    (by simp : ∀ r ∈ elements.take 0, plistIsPrimitive (h.value r) = true)
  obtain ⟨objects', hok, hobjects'⟩ := helements objects hobjects
  refine ⟨_, ?_, hobjects'.saveContainer option hi⟩
  rw [hkind, show kindOf (UInt8.ofNat 0xA0) = some .array from rfl, createKind, createList, hrefs,
    ok_bind]
  dsimp only
  rw [hok, hvalue]
  rfl

theorem readBack_dict {keys values : List ι} (hobj : h.obj q = .dict keys values)
    (hstrings : ∀ k ∈ keys, ∃ chars, h.obj k = .string chars)
    (hcreate : Creates h p create (h.obj q).children) :
    ReadBack h p buf option create i q marker := by
  intro objects hobjects
  have hchildren : (h.obj q).children = keys ++ values := by rw [hobj, Obj.children]
  have hvalue : h.value q = .dict (keys.map h.value) (values.map h.value) := by
    rw [Heap.value_eq, hobj, Obj.toValue]
  have hlen : (keys ++ values).length = keys.length * 2 := by
    rw [length_append, h.length_values q keys values hobj]
    omega
  have hprimitive : ∀ r ∈ (keys ++ values).take keys.length,
      plistIsPrimitive (h.value r) = true := by
    intro r hr
    rw [take_left] at hr
    obtain ⟨chars, hchars⟩ := hstrings r hr
    rw [Heap.value_eq, hchars]
    rfl
  have haddr := h.addressable q
  rw [hchildren] at hcreate haddr
  obtain ⟨hkind, ptr, hrefs, helements⟩ := readRefs_written hw hi hmarker (m := 0xD0) (by decide)
    (fun r hr => child_mem (mem_of_getElem? hi) (by rwa [hchildren]))
    hlen Nat.two_pos haddr (by rw [encoding, hobj, Obj.encode]) hcreate hprimitive
  obtain ⟨objects', hok, hobjects'⟩ := helements objects hobjects
  refine ⟨_, ?_, hobjects'.saveContainer option hi⟩
  rw [hkind, show kindOf (UInt8.ofNat 0xD0) = some .dict from rfl, createKind, createDict, hrefs,
    ok_bind]
  dsimp only
  rw [hlen, Nat.mul_div_cancel _ Nat.two_pos, ← hlen, hok, hvalue, map_append, ok_bind]
  rw [take_left' (length_map _), drop_left' (length_map _)]
  rfl

/-- **An object is read back**, given that its parts are. -/
theorem createKind_written (hcreate : Creates h p create (h.obj q).children) :
    ReadBack h p buf option create i q marker := by
  match hobj : h.obj q, hw.plain q (mem_of_getElem? hi) with
  | .string chars, _ => exact readBack_string hw option hi hmarker hobj
  | .number (.sint64 value), _ => exact readBack_number hw option hi hmarker hobj
  | .bool value, _ => exact readBack_bool hw option hi hmarker hobj
  | .data bytes, _ => exact readBack_data hw option hi hmarker hobj
  | .uid value, _ => exact readBack_uid hw option hi hmarker hobj
  | .array elements, _ => exact readBack_array hw option hi hmarker hobj hcreate
  | .dict keys values, hstrings =>
    exact readBack_dict hw option hi hmarker hobj hstrings hcreate

end ReadBack

/-- The offsets on the way down are those of objects that lie above. -/
def PathAbove (h : Heap ι) (p q : ι) (set : Option (List ℕ)) : Prop :=
  ∀ path ∈ set, ∀ off ∈ path,
    ∃ i r, (flatten h p).objlist[i]? = some r ∧ off = fileOffset h p i ∧ h.rank q < h.rank r

theorem PathAbove.pathSet {curDepth : ℕ}
    (hset : PathAbove h p q set) (hi : (flatten h p).objlist[i]? = some q)
    (hr : r ∈ (h.obj q).children) : PathAbove h p r (pathSet set curDepth (fileOffset h p i)) := by
  have hlt := h.rank_lt q r hr
  intro path hpath off hoff
  have hcases : off = fileOffset h p i ∨ ∃ path ∈ set, off ∈ path := by
    match set, hpath with
    | some above, hpath =>
      obtain rfl := some.inj hpath
      exact (mem_cons.mp hoff).imp id fun hmem => ⟨above, rfl, hmem⟩
    | none, hpath =>
      rw [BinaryPList.pathSet] at hpath
      split at hpath
      · obtain rfl := some.inj hpath
        exact Or.inl (mem_singleton.mp hoff)
      · simp at hpath
  rcases hcases with rfl | ⟨path, hpath, hoff⟩
  · exact ⟨i, q, hi, rfl, hlt⟩
  · obtain ⟨j, t, hj, hoff, hrank⟩ := hset path hpath off hoff
    exact ⟨j, t, hj, hoff, hlt.trans hrank⟩

/-- **The reader undoes the writer**, from every listed object down. -/
theorem createObjectFiltered_written (hw : Written h p buf) (option : Mutability) {n : ℕ}
    (hi : (flatten h p).objlist[i]? = some q) (hn : h.rank q < n)
    (hobjects : Faithful h p objects) (hset : PathAbove h p q set) (curDepth : ℕ) :
    ∃ objects', createObjectFiltered buf (fileTrailer h p) option n (fileOffset h p i) objects set
      curDepth = .ok (h.value q, objects') ∧ Faithful h p objects' := by
  induction n generalizing i q objects set curDepth with
  | zero => omega
  | succ n ih =>
    obtain ⟨hlt, -⟩ := List.getElem?_eq_some_iff.mp hi
    have hoff := hw.fileOffset_lt hlt
    rw [createObjectFiltered]
    cases hget : objects.get (fileOffset h p i) with
    | some v =>
      obtain ⟨j, r, hj, heq, rfl⟩ := hobjects _ v hget
      obtain ⟨hjlt, -⟩ := List.getElem?_eq_some_iff.mp hj
      obtain rfl := hw.fileOffset_injective hlt hjlt heq
      obtain rfl := some.inj (hi.symm.trans hj)
      exact ⟨objects, rfl, hobjects⟩
    | none =>
      have hpath : ∀ path ∈ set, fileOffset h p i ∉ path := by
        intro path hpath hmem
        obtain ⟨j, r, hj, heq, hrank⟩ := hset path hpath _ hmem
        obtain ⟨hjlt, -⟩ := List.getElem?_eq_some_iff.mp hj
        obtain rfl := hw.fileOffset_injective hlt hjlt heq
        obtain rfl := some.inj (hi.symm.trans hj)
        omega
      have hrange : 8 ≤ fileOffset h p i ∧
          fileOffset h p i ≤ (fileTrailer h p).objectsRangeEnd := by
        constructor
        · exact Nat.le_add_right _ _
        · rw [Trailer.objectsRangeEnd]
          omega
      obtain ⟨marker, hmarker⟩ := Buffer.exists_byte
        (hoff.trans hw.accepted.offsetTableOffset_lt)
      rw [check_true hpath, check_true hrange, Buffer.load_eq hmarker]
      apply createKind_written hw option hi hmarker _ objects hobjects
      intro r hr objects' hobjects'
      have hrank := h.rank_lt q r hr
      exact ih (hw.getElem?_refnum (child_mem (mem_of_getElem? hi) hr)) (by omega) hobjects'
        (hset.pathSet hi hr) _

/-! ## The round trip -/

theorem plain_of_reaches (hplain : ∀ q, h.Reaches p q → h.Plain (h.obj q)) :
    ∀ q ∈ (flatten h p).objlist, h.Plain (h.obj q) := by
  intro q hq
  rcases (flatten_spec h p).reached q hq with hnil | ⟨r, hr, hreach⟩
  · simp at hnil
  · obtain rfl := mem_singleton.mp hr
    exact hplain q hreach

theorem written_of_lt (hplain : ∀ q, h.Reaches p q → h.Plain (h.obj q))
    (hlt : h.listings p < 2 ^ 32) (hbytes : buf.bytes = file h p)
    (hlen : (file h p).length ≤ longMax) : Written h p buf where
  bytes_eq := hbytes
  count_lt := by rwa [length_flatten]
  le_longMax := hlen
  plain := plain_of_reaches hplain

/-- The whole file is read back, once there is stack enough for its nesting. -/
theorem tryParseBinaryPlist_written (hw : Written h p buf) (option : Mutability) {fuel : ℕ}
    (hfuel : h.rank p < fuel) : tryParseBinaryPlist buf option fuel = .ok (h.value p) := by
  obtain ⟨marker, htop⟩ := getTopLevelInfo_written hw
  have hempty : Faithful h p (some []) := by
    intro off v hget
    simp [Objects.get] at hget
  obtain ⟨objects, hok, -⟩ := createObjectFiltered_written hw option (head_flatten h p) hfuel
    hempty (by simp [PathAbove] : PathAbove h p p none) 0
  have hacc := hw.accepted
  have hdatalen := hacc.offsetTableOffset_lt
  have hheader := hacc.after_header
  rw [tryParseBinaryPlist, check_true (by omega), ok_bind, htop, ok_bind]
  dsimp only
  rw [hok]
  rfl

end Objects

/-! ## Sharing -/

/-- A dictionary with one key, whose value is an array that holds the key again and a boolean
twice. -/
def sharing : Heap (Fin 4) where
  obj
    | 0 => .string [0x6B, 0x3A9]
    | 1 => .bool true
    | 2 => .array [0, 1, 1]
    | 3 => .dict [0] [2]
  rank i := i.val
  rank_lt := by decide
  length_values
    | 0, _, _, h | 1, _, _, h | 2, _, _, h => by simp at h
    | 3, _, _, h => by
      simp only [Obj.dict.injEq] at h
      rw [← h.1, ← h.2]
      rfl
  addressable := by decide

theorem plain_sharing : ∀ q, sharing.Plain (sharing.obj q)
  | 0 => trivial
  | 1 => trivial
  | 2 => trivial
  | 3 => fun _ hk => mem_singleton.mp hk ▸ ⟨[0x6B, 0x3A9], rfl⟩

/-- Thirty-three arrays: the first is empty, each other holds the one before it twice. -/
def nested : Heap (Fin 33) where
  obj i := .array (if h : i.val = 0 then [] else [⟨i.val - 1, by omega⟩, ⟨i.val - 1, by omega⟩])
  rank i := i.val
  rank_lt i j hj := by
    rw [Obj.children] at hj
    split at hj
    · simp at hj
    · simp only [mem_cons, not_mem_nil, or_false, or_self] at hj
      rw [hj]
      exact Nat.sub_one_lt ‹_›
  length_values i keys values h := by simp at h
  addressable i := by
    rw [Obj.children]
    split <;> simp

theorem occurrences_nested : ∀ n (hn : n < 33), nested.occurrences ⟨n, hn⟩ = 2 ^ (n + 1) - 1
  | 0, _ => rfl
  | n + 1, hn => by
    have ih := occurrences_nested n (by omega)
    have hchildren : (nested.obj ⟨n + 1, hn⟩).children = [⟨n, by omega⟩, ⟨n, by omega⟩] := by
      simp [nested, Obj.children]
    have hpos : 0 < 2 ^ (n + 1) := by positivity
    rw [Heap.occurrences_eq, if_neg (by simp [nested, Obj.uniqued]), hchildren]
    simp only [map_cons, map_nil, sum_cons, sum_nil]
    omega

/-! ## 128-bit integers -/

section Integers

variable {buf : Buffer} {trailer : Trailer} {off : ℕ}

/-- The value of a number that is not a float. -/
def Number.value? : Number → Option ℤ
  | .sint64 value => some value.toInt
  | .sint128 high low => some (high.toInt * 2 ^ 64 + low.toNat)
  | .float32 _ | .float64 _ => none

/-- Of the sixteen bytes of an integer the reader keeps the last eight. -/
theorem createInt_sint128 (hacc : Accepted buf trailer) {high low : BitVec 64}
    (hat : buf.At off (encodeNumber (.sint128 high low)))
    (hfit : off + 17 ≤ trailer.offsetTableOffset) :
    createInt buf trailer off 0x14 = .ok (.number (.sint128 0 low)) := by
  have hdata := hacc.offsetTableOffset_lt
  have haddr : buf.databytes + buf.datalen < 2 ^ 64 := buf.addressable
  have hslice := hat.tail.slice_eq
  rw [length_append, length_toBigEndian, length_toBigEndian] at hslice
  have hlow : ofBigEndian (buf.slice (off + 1) (2 ^ 4 % 256)) % 2 ^ 64 = low.toNat := by
    rw [show 2 ^ 4 % 256 = 8 + 8 from rfl, hslice, ofBigEndian_append, length_toBigEndian,
      ofBigEndian_toBigEndian, ofBigEndian_toBigEndian]
    omega
  rw [createInt, checkAdd_eq (by omega), ok_bind, show nibble 0x14 = 4 from rfl]
  dsimp only
  rw [add_assoc, checkExtent_eq hacc (by omega), ok_bind, check_true (by decide), ok_bind,
    getSizedInt_eq (by omega), hlow, ok_bind, if_pos (by decide), BitVec.ofNat_toNat,
    BitVec.setWidth_eq, pure_eq]

/-- **Integers.** What `_appendNumber` writes for an integer is read as an integer, which has the
same value if and only if the number has 64 bits or its high word is 0. -/
theorem integer_survives_iff (hacc : Accepted buf trailer) {n : Number} (hint : n.value?.isSome)
    {w : WriteBuffer} {part : List UInt8} (hpart : (appendNumber w n).bytes = w.bytes ++ part)
    (hat : buf.At off part) (hoff : 8 ≤ off)
    (hfit : off + part.length ≤ trailer.offsetTableOffset)
    (option : Mutability) (fuel curDepth : ℕ) :
    ∃ m, createObjectFiltered buf trailer option (fuel + 1) off none none curDepth =
        .ok (.number m, none) ∧
      (m.value? = n.value? ↔ ∀ high low, n = .sint128 high low → high = 0) := by
  obtain rfl : encodeNumber n = part := by
    rwa [bytes_appendNumber, append_cancel_left_eq] at hpart
  have hread : ∀ {marker : UInt8} {m : Number}, buf.bytes[off]? = some marker →
      kindOf marker = some .int → off < trailer.offsetTableOffset →
      createInt buf trailer off marker = .ok (.number m) →
      createObjectFiltered buf trailer option (fuel + 1) off none none curDepth =
        .ok (.number m, none) := by
    intro marker m hmarker hkind hlt hcreate
    rw [createObjectFiltered]
    rw [check_true (by simp), check_true ⟨hoff, Nat.le_sub_one_of_lt hlt⟩, Buffer.load_eq hmarker]
    simp only [ok_bind, hkind, createKind, hcreate]
    rfl
  cases n with
  | float32 | float64 => cases hint
  | sint64 value =>
    have hpos := length_pos_of_ne_nil (encodeInt_ne_nil value.toNat)
    rw [encodeNumber] at hat hfit
    refine ⟨.sint64 value, hread hat.head (kindOf_encodeInt _) (by omega) ?_,
      iff_of_true rfl (by simp)⟩
    rw [createInt_encodeInt hacc hat value.isLt hfit, BitVec.ofNat_toNat, BitVec.setWidth_eq]
  | sint128 high low =>
    have hlen : off + 17 ≤ trailer.offsetTableOffset := hfit
    refine ⟨.sint128 0 low, hread hat.head rfl (by omega) (createInt_sint128 hacc hat hlen), ?_⟩
    constructor
    · rintro h _ _ ⟨⟩
      have hvalue := some.inj h
      exact BitVec.toInt_inj.mp (by omega)
    · intro h
      rw [h high low rfl]

/-- A file of one integer of sixteen bytes, up to its header, offset table and trailer. -/
def wideFile (high low : BitVec 64) : Buffer where
  databytes := 1
  bytes := replicate 8 0 ++ (encodeNumber (.sint128 high low) ++ replicate 33 0)
  nonnull := one_pos
  addressable := by simp [encodeNumber]

def wideTrailer : Trailer := ⟨1, 1, 1, 0, 25⟩

theorem accepted_wideFile (high low : BitVec 64) : Accepted (wideFile high low) wideTrailer where
  after_header := by decide
  le_longMax := by decide
  offsetIntSize_lt := by decide
  objectRefSize_lt := by decide
  datalen_eq := by simp [wideFile, wideTrailer, Buffer.datalen, encodeNumber, trailerSize]

theorem integer_survives_large : ∃ m, createObjectFiltered (wideFile 0 (2 ^ 63)) wideTrailer
    .immutable 1 8 none none 0 = .ok (.number m, none) ∧
      m.value? = Number.value? (.sint128 0 (2 ^ 63)) := by
  have hat : (wideFile 0 (2 ^ 63)).At 8 (encodeNumber (.sint128 0 (2 ^ 63))) :=
    List.prefix_append _ _
  obtain ⟨m, hm, hiff⟩ := integer_survives_iff (accepted_wideFile _ _) rfl
    (bytes_appendNumber .empty _) hat le_rfl le_rfl .immutable 0 0
  refine ⟨m, hm, hiff.mpr ?_⟩
  rintro _ _ ⟨⟩
  rfl

theorem integer_lost : Number.value? (.sint128 (-1) (-1)) = some (-1) ∧
    (createObjectFiltered (wideFile (-1) (-1)) wideTrailer .immutable 1 8 none none 0 =
      .ok (.number (.sint128 0 (-1)), none)) ∧
    Number.value? (.sint128 0 (-1)) = some (2 ^ 64 - 1) :=
  ⟨rfl, rfl, rfl⟩

end Integers

end Apple.CF.BinaryPList
