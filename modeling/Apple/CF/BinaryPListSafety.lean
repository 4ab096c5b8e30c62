import Apple.CF.BinaryPListSizes

/-!
# Reading an untrusted binary property list

What `__CFBinaryPlistGetTopLevelInfo` accepts can be read without leaving the data: no load is out
of bounds, and the recursion is at most 17 deeper than the collections of the file are many, since
the offsets on the way down are kept apart from depth 16 on. An object whose declared size runs into
the offset table is refused, with one exception. `_readInt` passes the size of a count to
`_getSizedInt` as a `uint8_t`, so a count of 256 bytes or more is read as zero.

Results: `createObjectFiltered_sat`, `createObjectFiltered_of_le`, `untrusted_read_iff`.
-/

namespace Apple.CF.BinaryPList

open Apple.Lib
open Apple.Lib.Outcome

/-! ## Collections -/

/-- What `_getOffsetOfRefAt` can return: an entry of the offset table, or `UINT64_MAX`. -/
def IsTarget (buf : Buffer) (trailer : Trailer) (off : ℕ) : Prop :=
  off = uint64Max ∨ ∃ k < trailer.numObjects, off = offsetAt buf trailer k

/-- Every object in the dictionary was of a size that fits, or was not looked at. -/
def Sound (buf : Buffer) (trailer : Trailer) (objects : Objects) : Prop :=
  ∀ off, (objects.get off).isSome → Sized buf trailer off

variable {objects : Objects} {curDepth fuel : ℕ} {set : Option (List ℕ)}

section Collections

variable {E : Fault → Prop} {buf : Buffer} {trailer : Trailer} {off : ℕ} {marker : UInt8}

theorem Sound.save (hsound : Sound buf trailer objects)
    (hoff : Sized buf trailer off) (plist : Value) :
    Sound buf trailer (objects.save off plist) := by
  intro k hk
  by_cases hkoff : k = off
  · rw [hkoff]
    exact hoff
  · apply hsound
    match objects with
    | none => exact hk
    | some table =>
      have hne : (k == off) = false := by simpa using hkoff
      simpa [Objects.get, Objects.save, List.lookup_cons, hne] using hk

theorem getOffsetOfRefAt_sat (hacc : Accepted buf trailer) (ptr : ℕ) :
    Sat E (IsTarget buf trailer) (getOffsetOfRefAt buf ptr trailer) := by
  have hlt := hacc.offsetTableOffset_lt
  rw [getOffsetOfRefAt]
  split
  · exact Or.inl rfl
  · next hptr =>
    obtain ⟨j, rfl⟩ := Nat.exists_eq_add_of_le (show buf.databytes ≤ ptr by omega)
    rw [getSizedInt_eq (by omega), ok_bind]
    split
    · exact Or.inl rfl
    · next href =>
      rw [getOffset_eq hacc (by omega)]
      exact Or.inr ⟨_, by omega, rfl⟩

/-- What each element keeps, the loop over the elements keeps. -/
theorem createElements_sat {create : ℕ → Objects → Outcome Fault (Value × Objects)}
    {I : Objects → Prop} (hacc : Accepted buf trailer)
    (hcreate : ∀ off objects, IsTarget buf trailer off → I objects →
      Sat E (fun r => I r.2) (create off objects)) (n keys ptr : ℕ) (hobjects : I objects) :
    Sat E (fun r => I r.2) (createElements buf trailer create n keys ptr objects) := by
  induction n generalizing keys ptr objects with
  | zero => exact hobjects
  | succ n ih =>
    rw [createElements, sat_bind]
    refine (getOffsetOfRefAt_sat hacc ptr).mono fun off hoff => ?_
    rw [sat_bind]
    refine (hcreate off objects hoff hobjects).mono ?_
    rintro ⟨pl, objects⟩ hobjects
    rw [sat_bind, sat_check]
    intro _
    rw [sat_bind]
    exact ih (keys - 1) _ hobjects

variable {option : Mutability} {create : ℕ → Objects → Outcome Fault (Value × Objects)}

/-- What the elements of a collection are created with keeps the dictionary sound. -/
def KeepsSound (E : Fault → Prop) (buf : Buffer) (trailer : Trailer)
    (create : ℕ → Objects → Outcome Fault (Value × Objects)) : Prop :=
  ∀ off objects, IsTarget buf trailer off → Sound buf trailer objects →
    Sat E (fun r => Sound buf trailer r.2) (create off objects)

section

variable (hacc : Accepted buf trailer) (hoff : 8 ≤ off) (hmarker : buf.bytes[off]? = some marker)
include hacc hoff hmarker

theorem readRefs_sat {kind : Kind} {perEntry : ℕ} (hkind : kindOf marker = some kind)
    (hunit : kind.unit trailer = some (perEntry * trailer.objectRefSize)) :
    Sat E (fun _ => Sized buf trailer off) (readRefs buf trailer off marker perEntry) := by
  rw [readRefs, sat_bind]
  refine (readCount_sat hacc hoff hmarker).mono ?_
  rintro ⟨cnt, _⟩ ⟨start, rfl, _, _, hsized⟩
  rw [sat_bind]
  apply sat_checkMul
  rw [sat_bind]
  apply sat_checkMul
  rw [sat_bind]
  refine (checkExtent_sat hacc _ _).mono fun _ hfits => ?_
  rw [sat_bind]
  apply sat_checkMul
  exact hsized _ _ hkind hunit (by rwa [← mul_assoc])

variable (hcreate : Sized buf trailer off → KeepsSound E buf trailer create)
  (hobjects : Sound buf trailer objects)
include hcreate hobjects

theorem createList_sat {kind : Kind} {make : List Value → Value}
    (hkind : kindOf marker = some kind) (hunit : kind.unit trailer = some trailer.objectRefSize) :
    Sat E (fun r => Sized buf trailer off ∧ Sound buf trailer r.2)
      (createList buf trailer make create off marker objects) := by
  have hunit' : kind.unit trailer = some (1 * trailer.objectRefSize) := by rw [hunit, one_mul]
  rw [createList, sat_bind]
  refine (readRefs_sat hacc hoff hmarker hkind hunit').mono ?_
  rintro ⟨cnt, ptr⟩ hsized
  rw [sat_bind]
  exact (createElements_sat hacc (hcreate hsized) cnt 0 ptr hobjects).mono fun _ hsound =>
    ⟨hsized, hsound⟩

theorem createDict_sat (hkind : kindOf marker = some .dict) :
    Sat E (fun r => Sized buf trailer off ∧ Sound buf trailer r.2)
      (createDict buf trailer create off marker objects) := by
  rw [createDict, sat_bind]
  refine (readRefs_sat hacc hoff hmarker hkind rfl).mono ?_
  rintro ⟨cnt, ptr⟩ hsized
  rw [sat_bind]
  exact (createElements_sat hacc (hcreate hsized) cnt _ ptr hobjects).mono fun _ hsound =>
    ⟨hsized, hsound⟩

end

theorem Sound.saveLeaf (hsound : Sound buf trailer objects)
    (hoff : Sized buf trailer off) (plist : Value) :
    Sound buf trailer (createKind.saveLeaf option off objects plist) := by
  rw [createKind.saveLeaf]
  split
  · exact hsound
  · exact hsound.save hoff plist

theorem Sound.saveContainer (hsound : Sound buf trailer objects)
    (hoff : Sized buf trailer off) (plist : Value) :
    Sound buf trailer (createKind.saveContainer option off plist objects) := by
  rw [createKind.saveContainer]
  split
  · exact hsound.save hoff plist
  · exact hsound

theorem createKind_sat (hacc : Accepted buf trailer) (hoff : 8 ≤ off)
    (hlt : off < trailer.offsetTableOffset) (hmarker : buf.bytes[off]? = some marker)
    (hcreate : IsContainer buf off → Sized buf trailer off → KeepsSound E buf trailer create)
    (hobjects : Sound buf trailer objects) :
    Sat E (fun r => Sized buf trailer off ∧ Sound buf trailer r.2)
      (createKind buf trailer option create off marker objects (kindOf marker)) := by
  have hcontainer : ∀ kind, kindOf marker = some kind →
      some kind ∈ [some Kind.array, some Kind.set, some Kind.dict] → IsContainer buf off :=
    fun kind hkind hmem => ⟨marker, hmarker, by rwa [hkind]⟩
  match hkind : kindOf marker with
  | none => trivial
  | some .null =>
    rw [createKind, sat_bind]
    exact (createNull_sat hlt hmarker hkind).mono fun _ hsized => ⟨hsized, hobjects⟩
  | some .int =>
    rw [createKind, sat_bind]
    exact (createInt_sat hacc hmarker hkind).mono fun plist hsized =>
      ⟨hsized, hobjects.save hsized plist⟩
  | some .real =>
    rw [createKind, sat_bind]
    exact (createReal_sat hacc hmarker hkind).mono fun plist hsized =>
      ⟨hsized, hobjects.save hsized plist⟩
  | some .date =>
    rw [createKind, sat_bind]
    exact (createDate_sat hacc hmarker hkind).mono fun plist hsized =>
      ⟨hsized, hobjects.save hsized plist⟩
  | some .uid =>
    rw [createKind, sat_bind]
    exact (createUID_sat hacc hmarker hkind).mono fun plist hsized =>
      ⟨hsized, hobjects.save hsized plist⟩
  | some .data =>
    rw [createKind, sat_bind, createData, sat_bind]
    exact (createBytes_sat hacc hoff hmarker hkind rfl).mono fun _ hsized =>
      ⟨hsized, hobjects.saveLeaf hsized _⟩
  | some .asciiString =>
    rw [createKind, sat_bind, createASCIIString, sat_bind]
    exact (createBytes_sat hacc hoff hmarker hkind rfl).mono fun _ hsized =>
      ⟨hsized, hobjects.saveLeaf hsized _⟩
  | some .unicode16String =>
    rw [createKind, sat_bind]
    exact (createUnicode16String_sat hacc hoff hmarker hkind).mono fun plist hsized =>
      ⟨hsized, hobjects.saveLeaf hsized plist⟩
  | some .array | some .set =>
    rw [createKind, sat_bind]
    exact (createList_sat hacc hoff hmarker (hcreate (hcontainer _ hkind (by simp))) hobjects
      hkind rfl).mono fun r hr => ⟨hr.1, hr.2.saveContainer hr.1 r.1⟩
  | some .dict =>
    rw [createKind, sat_bind]
    exact (createDict_sat hacc hoff hmarker (hcreate (hcontainer _ hkind (by simp))) hobjects
      hkind).mono fun r hr => ⟨hr.1, hr.2.saveContainer hr.1 r.1⟩

end Collections

/-! ## The recursion -/

section Recursion

variable {buf : Buffer} {trailer : Trailer} {off : ℕ}

/-- The activations left are enough: down to depth 16 one for each level and each collection, from
there on one for each collection that is not on the way down. -/
def Enough (buf : Buffer) (trailer : Trailer) (fuel : ℕ) : Option (List ℕ) → ℕ → Prop
  | none, curDepth => curDepth ≤ 16 ∧ 17 + (containerOffsets buf trailer).card ≤ fuel + curDepth
  | some path, _ => path.Nodup ∧ (∀ o ∈ path, o ∈ containerOffsets buf trailer) ∧
      1 + (containerOffsets buf trailer).card ≤ fuel + path.length

theorem length_le_card {path : List ℕ} {s : Finset ℕ} (hnodup : path.Nodup)
    (hsub : ∀ o ∈ path, o ∈ s) : path.length ≤ s.card := by
  rw [← List.toFinset_card_of_nodup hnodup]
  apply Finset.card_le_card
  intro o ho
  exact hsub o (List.mem_toFinset.mp ho)

theorem Enough.pos (h : Enough buf trailer fuel set curDepth) : 0 < fuel := by
  match set, h with
  | none, h =>
    have := h.1
    have := h.2
    omega
  | some path, ⟨hnodup, hsub, hfuel⟩ =>
    have := length_le_card hnodup hsub
    omega

/-- One activation is spent on a collection, and its offset was not yet on the way down. -/
theorem Enough.step
    (h : Enough buf trailer (fuel + 1) set curDepth) (hoff : off ∈ containerOffsets buf trailer)
    (hset : ∀ path ∈ set, off ∉ path) :
    Enough buf trailer fuel (pathSet set curDepth off) (curDepth + 1) := by
  match set, h with
  | none, ⟨hdepth, hfuel⟩ =>
    rw [pathSet]
    split
    · refine ⟨List.nodup_singleton off, ?_, ?_⟩
      · intro o ho
        rwa [List.mem_singleton.mp ho]
      · rw [List.length_singleton]
        omega
    · exact ⟨by omega, by omega⟩
  | some path, ⟨hnodup, hsub, hfuel⟩ =>
    refine ⟨List.nodup_cons.mpr ⟨hset path rfl, hnodup⟩, List.forall_mem_cons.mpr ⟨hoff, hsub⟩, ?_⟩
    rw [List.length_cons]
    omega

theorem mem_containerOffsets (htarget : IsTarget buf trailer off) (hne : off ≠ uint64Max)
    (hcontainer : IsContainer buf off) : off ∈ containerOffsets buf trailer := by
  obtain ⟨k, hk, rfl⟩ := htarget.resolve_left hne
  exact Finset.mem_filter.mpr
    ⟨Finset.mem_image.mpr ⟨k, Finset.mem_range.mpr hk, rfl⟩, hcontainer⟩

/-- One activation, given what holds of the activations for the elements. -/
theorem createObjectFiltered_step {E : Fault → Prop} (hacc : Accepted buf trailer)
    {option : Mutability} (hobjects : Sound buf trailer objects)
    (hcreate : off ≠ uint64Max → (∀ path ∈ set, off ∉ path) → IsContainer buf off →
      Sized buf trailer off → KeepsSound E buf trailer fun off' objects' =>
        createObjectFiltered buf trailer option fuel off' objects' (pathSet set curDepth off)
          (curDepth + 1)) : Sat E (fun r => Sized buf trailer off ∧ Sound buf trailer r.2)
      (createObjectFiltered buf trailer option (fuel + 1) off objects set curDepth) := by
  have hend := objectsRangeEnd_lt hacc
  have hlt := hacc.offsetTableOffset_lt
  rw [createObjectFiltered]
  split
  · next plist hget => exact ⟨hobjects off (by rw [hget]; rfl), hobjects⟩
  · rw [sat_bind, sat_check]
    intro hset
    rw [sat_bind, sat_check]
    intro hrange
    have hmax := hacc.le_longMax
    have hne : off ≠ uint64Max := by
      rw [longMax] at hmax
      rw [uint64Max]
      omega
    obtain ⟨marker, hmarker⟩ := Buffer.exists_byte (show off < buf.datalen by omega)
    rw [Buffer.load_eq hmarker]
    exact createKind_sat hacc hrange.1 (by omega) hmarker (hcreate hne hset) hobjects

/-- **An object is read in bounds**, and the only fault is to run out of activations when there were
not enough of them. What is read has a size that fits, or was not looked at. -/
theorem createObjectFiltered_sat (hacc : Accepted buf trailer) (option : Mutability)
    (fuel off : ℕ) (objects : Objects) (set : Option (List ℕ)) (curDepth : ℕ)
    (hobjects : Sound buf trailer objects) : Sat (fun e => e = .tooDeep ∧
        ¬ (Enough buf trailer fuel set curDepth ∧ IsTarget buf trailer off))
      (fun r => Sized buf trailer off ∧ Sound buf trailer r.2)
      (createObjectFiltered buf trailer option fuel off objects set curDepth) := by
  induction fuel generalizing off objects set curDepth with
  | zero => exact ⟨rfl, fun h => absurd h.1.pos (by omega)⟩
  | succ fuel ih =>
    apply createObjectFiltered_step hacc hobjects
    intro hne hset hcontainer _ off' objects' htarget' hobjects'
    refine ((ih off' objects' _ _ hobjects').mono fun _ hr => hr.2).mono_fault ?_
    rintro e ⟨rfl, hdeep⟩
    exact ⟨rfl, fun henough => hdeep
      ⟨henough.1.step (mem_containerOffsets henough.2 hne hcontainer) hset, htarget'⟩⟩

/-- **An object that does not fit is refused** before any of its elements is looked at. -/
theorem createObjectFiltered_fail (hacc : Accepted buf trailer) (hoff : ¬ Sized buf trailer off)
    (option : Mutability) (fuel : ℕ) (hobjects : Sound buf trailer objects)
    (set : Option (List ℕ)) (curDepth : ℕ) :
    createObjectFiltered buf trailer option (fuel + 1) off objects set curDepth = .fail := by
  have hsat : Sat (fun _ => False) (fun r => Sized buf trailer off ∧ Sound buf trailer r.2)
      (createObjectFiltered buf trailer option (fuel + 1) off objects set curDepth) :=
    createObjectFiltered_step hacc hobjects fun _ _ _ hsized => absurd hsized hoff
  exact hsat.eq_fail (fun _ => id) fun _ hr => hoff hr.1

end Recursion

/-! ## More activations change nothing -/

section UpTo

variable {buf : Buffer} {trailer : Trailer} {option : Mutability} {e : Fault}
  {create create' : ℕ → Objects → Outcome Fault (Value × Objects)}

section

variable (hcreate : ∀ off objects, UpTo e (create off objects) (create' off objects))
include hcreate

theorem createElements_upTo (n keys ptr : ℕ) (objects : Objects) :
    UpTo e (createElements buf trailer create n keys ptr objects)
      (createElements buf trailer create' n keys ptr objects) := by
  induction n generalizing keys ptr objects with
  | zero => exact UpTo.refl e _
  | succ n ih =>
    apply (UpTo.refl e _).bind
    intro off
    apply (hcreate off objects).bind
    intro r
    apply (UpTo.refl e _).bind
    intro _
    apply (ih _ _ _).bind
    intro r
    exact UpTo.refl e _

theorem createList_upTo (make : List Value → Value) (off : ℕ) (marker : UInt8)
    (objects : Objects) : UpTo e (createList buf trailer make create off marker objects)
      (createList buf trailer make create' off marker objects) := by
  apply (UpTo.refl e _).bind
  intro r
  apply (createElements_upTo hcreate _ _ _ _).bind
  intro r
  exact UpTo.refl e _

theorem createDict_upTo (off : ℕ) (marker : UInt8) (objects : Objects) :
    UpTo e (createDict buf trailer create off marker objects)
      (createDict buf trailer create' off marker objects) := by
  apply (UpTo.refl e _).bind
  intro r
  apply (createElements_upTo hcreate _ _ _ _).bind
  intro r
  exact UpTo.refl e _

theorem createKind_upTo (off : ℕ) (marker : UInt8) (objects : Objects) (kind : Option Kind) :
    UpTo e (createKind buf trailer option create off marker objects kind)
      (createKind buf trailer option create' off marker objects kind) := by
  match kind with
  | some .array => exact (createList_upTo hcreate .array off marker objects).bind fun _ => .refl e _
  | some .set => exact (createList_upTo hcreate .set off marker objects).bind fun _ => .refl e _
  | some .dict => exact (createDict_upTo hcreate off marker objects).bind fun _ => .refl e _
  | some .null | some .int | some .real | some .date | some .data | some .asciiString
  | some .unicode16String | some .uid | none => exact .refl e _

end

theorem createObjectFiltered_upTo (fuel off : ℕ) (objects : Objects) (set : Option (List ℕ))
    (curDepth : ℕ) :
    UpTo .tooDeep (createObjectFiltered buf trailer option fuel off objects set curDepth)
      (createObjectFiltered buf trailer option (fuel + 1) off objects set curDepth) := by
  induction fuel generalizing off objects set curDepth with
  | zero => exact Or.inl rfl
  | succ fuel ih =>
    rw [createObjectFiltered, createObjectFiltered]
    split
    · exact UpTo.refl _ _
    · apply (UpTo.refl _ _).bind
      intro _
      apply (UpTo.refl _ _).bind
      intro _
      apply (UpTo.refl _ _).bind
      intro marker
      exact createKind_upTo (fun off objects => ih off objects _ _) _ _ _ _

/-- **An outcome other than running out of activations is final.** -/
theorem createObjectFiltered_of_le {fuel' off : ℕ} (hle : fuel ≤ fuel')
    (hdone : createObjectFiltered buf trailer option fuel off objects set curDepth ≠
      .fault .tooDeep) : createObjectFiltered buf trailer option fuel' off objects set curDepth =
      createObjectFiltered buf trailer option fuel off objects set curDepth := by
  induction hle with
  | refl => rfl
  | step hle ih =>
    rw [← ih] at hdone
    rw [← (createObjectFiltered_upTo _ off objects set curDepth).resolve_left hdone, ih]

end UpTo

/-! ## Counts of 256 bytes and more -/

section Wide

variable {buf : Buffer} {trailer : Trailer} {off : ℕ} {marker : UInt8}

theorem mod_256_of_countWidth {i width : ℕ} (hwidth : countWidth buf i = some width)
    (hwide : 256 ≤ width) : width % 256 = 0 := by
  obtain ⟨b, -, hb⟩ := Option.bind_eq_some_iff.mp hwidth
  split at hb
  · obtain rfl := Option.some.inj hb
    have h8 : 8 ≤ nibble b := (Nat.pow_le_pow_iff_right (by decide)).mp (show 2 ^ 8 ≤ _ from hwide)
    exact Nat.mod_eq_zero_of_dvd (pow_dvd_pow 2 h8)
  · simp at hb

/-- A count of 256 bytes or more is read as zero. -/
theorem readCount_wide (hacc : Accepted buf trailer) {width : ℕ} (hnib : nibble marker = 0xf)
    (hwidth : countWidth buf off = some width) (hwide : 256 ≤ width)
    (hstop : off + 2 + width ≤ trailer.offsetTableOffset) :
    readCount buf trailer off marker = .ok (0, buf.databytes + (off + 2 + width)) := by
  have hlt := hacc.offsetTableOffset_lt
  have haddr := buf.addressable
  rw [Buffer.datalen] at hlt
  rw [readCount, checkAdd_eq (by omega), ok_bind, if_pos hnib, add_assoc,
    readInt_eq hacc hwidth hstop, mod_256_of_countWidth hwidth hwide]
  rfl

/-- **A wide count is accepted**: the object is taken for an empty one, whatever it declares. -/
theorem createObjectFiltered_wide (hacc : Accepted buf trailer) (hwide : WideCount buf trailer off)
    (option : Mutability) :
    ∃ plist, createObjectFiltered buf trailer option 1 off none none 0 = .ok (plist, none) := by
  obtain ⟨hoff, marker, hmarker, ⟨kind, hkind, hunit⟩, hnib, width, hwidth, hge, hstop⟩ := hwide
  have hend := objectsRangeEnd_lt hacc
  have hcount := readCount_wide hacc hnib hwidth hge hstop
  have hextent := checkExtent_eq hacc (show off + 2 + width + 0 ≤ _ by omega)
  have hextent16 := checkExtent16_eq hacc (show off + 2 + width + 0 * 2 ≤ _ by omega)
  have hmul : ∀ n, checkMul 0 n = .ok 0 := fun n => if_pos rfl
  rw [createObjectFiltered, show Objects.get none off = none from rfl]
  rw [check_true (by simp), ok_bind, check_true ⟨hoff, by omega⟩, ok_bind, Buffer.load_eq hmarker,
    ok_bind, hkind]
  match kind, hunit with
  | .data, _ =>
    simp [createKind, createKind.saveLeaf, createData, createBytes, hcount, hextent,
      Buffer.loadBytes, Objects.save]
  | .asciiString, _ =>
    simp [createKind, createKind.saveLeaf, createASCIIString, createBytes, hcount, hextent,
      Buffer.loadBytes, Objects.save]
  | .unicode16String, _ =>
    simp [createKind, createKind.saveLeaf, createUnicode16String, hcount, hextent16, hmul,
      Buffer.loadBytes, Objects.save]
  | .array, _ | .set, _ =>
    simp [createKind, createKind.saveContainer, createList, readRefs, hcount, hmul, hextent,
      createElements, Objects.save]
  | .dict, _ =>
    simp [createKind, createKind.saveContainer, createDict, readRefs, hcount, hmul, hextent,
      createElements, Objects.save]

end Wide

/-! ## Untrusted data -/

/-- **Reading what was accepted.** For every data that `__CFBinaryPlistGetTopLevelInfo` accepts, the
top object is created or refused without a load outside the data and with at most 17 activations
more than there are collections; and an object whose declared size does not fit before the offset
table is refused, by every call the reader makes, exactly when its count is narrower than 256
bytes. -/
theorem untrusted_read_iff (buf : Buffer) (option : Mutability) {marker : UInt8} {offset : ℕ}
    {trailer : Trailer} (hinfo : getTopLevelInfo buf = .ok (marker, offset, trailer)) :
    (∀ objects, Sound buf trailer objects → ∃ result, (∀ e, result ≠ .fault e) ∧
      ∀ fuel, 17 + (containerOffsets buf trailer).card ≤ fuel →
        createObjectFiltered buf trailer option fuel offset objects none 0 = result) ∧
    (∀ fuel off objects set curDepth plist objects', Sound buf trailer objects →
      createObjectFiltered buf trailer option fuel off objects set curDepth =
        .ok (plist, objects') → Sound buf trailer objects') ∧ ∀ off, ¬ Fits buf trailer off →
      ((∀ fuel objects set curDepth, Sound buf trailer objects →
          createObjectFiltered buf trailer option (fuel + 1) off objects set curDepth = .fail) ↔
        ¬ WideCount buf trailer off) := by
  obtain ⟨hacc, htop⟩ := (getTopLevelInfo_sat (E := fun _ => False) buf).of_ok hinfo
  refine ⟨fun objects hobjects => ?_,
    fun fuel off objects set curDepth plist objects' hobjects hok =>
      ((createObjectFiltered_sat hacc option fuel off objects set curDepth hobjects).of_ok hok).2,
    fun off hfits => ⟨fun hfail hwide => ?_, fun hwide fuel objects set curDepth hobjects => ?_⟩⟩
  · have henough : Enough buf trailer (17 + (containerOffsets buf trailer).card) none 0 :=
      ⟨by omega, by omega⟩
    have hfault : ∀ e, createObjectFiltered buf trailer option
        (17 + (containerOffsets buf trailer).card) offset objects none 0 ≠ .fault e := by
      intro e he
      have hsat := createObjectFiltered_sat hacc option
        (17 + (containerOffsets buf trailer).card) offset objects none 0 hobjects
      rw [he] at hsat
      exact hsat.2 ⟨henough, Or.inr htop⟩
    exact ⟨_, hfault, fun fuel hle => createObjectFiltered_of_le hle (hfault _)⟩
  · obtain ⟨plist, hok⟩ := createObjectFiltered_wide hacc hwide option
    have hnone : Sound buf trailer none := fun _ h => by simp [Objects.get] at h
    rw [hfail 0 none none 0 hnone] at hok
    simp at hok
  · exact createObjectFiltered_fail hacc (fun h => h.elim hfits hwide) option fuel hobjects set
      curDepth

/-- A file with the given objects, one of them at offset 8, and a two-byte offset table for it. -/
def fileOf (objects : List UInt8) : List UInt8 :=
  magic ++ [0x30] ++ objects ++ toBigEndian 2 8 ++ [0, 0, 0, 0, 0, 0, 2, 1] ++ toBigEndian 8 1 ++
    toBigEndian 8 0 ++ toBigEndian 8 (8 + objects.length)

/-- An array whose only element is the array itself. -/
def cyclicFile : Buffer where
  databytes := 0x1000
  bytes := fileOf [0xA1, 0x00]
  nonnull := by decide
  addressable := by decide

theorem untrusted_read_cyclic : getTopLevelInfo cyclicFile = .ok (0xA1, 8, ⟨2, 1, 1, 0, 10⟩) ∧
    ∃ result, (∀ e, result ≠ .fault e) ∧
      ∀ fuel, 17 + (containerOffsets cyclicFile ⟨2, 1, 1, 0, 10⟩).card ≤ fuel →
        createObjectFiltered cyclicFile ⟨2, 1, 1, 0, 10⟩ .immutable fuel 8 none none 0 =
          result := by
  have hinfo : getTopLevelInfo cyclicFile = .ok (0xA1, 8, ⟨2, 1, 1, 0, 10⟩) := by decide +kernel
  exact ⟨hinfo, (untrusted_read_iff cyclicFile .immutable hinfo).1 none
    fun _ h => by simp [Objects.get] at h⟩

/-- A data whose count is an integer of 256 bytes, all of them `0xff`. -/
def wideCountFile : Buffer where
  databytes := 0x1000
  bytes := fileOf ([0x4F, 0x18] ++ List.replicate 256 0xff)
  nonnull := by decide
  addressable := by decide +kernel

/-- **A count of 256 bytes is lost**: the data declares `2 ^ 64 - 1` bytes in a file of 300, and is
read as an empty one. -/
theorem wide_count_accepted : getTopLevelInfo wideCountFile = .ok (0x4F, 8, ⟨2, 1, 1, 0, 266⟩) ∧
    ¬ Fits wideCountFile ⟨2, 1, 1, 0, 266⟩ 8 ∧
    createObjectFiltered wideCountFile ⟨2, 1, 1, 0, 266⟩ .immutable 17 8 none none 0 =
      .ok (.data [], none) := by
  refine ⟨by decide +kernel, by decide +kernel, ?_⟩
  rfl

end Apple.CF.BinaryPList
