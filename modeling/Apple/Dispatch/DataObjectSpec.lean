import Apple.Dispatch.DataObject

/-!
# A data object is a byte string

`bytes` is the byte string that an object stands for. Every object that the functions of
`DataObject.lean` build is well-formed: it is a leaf or a composite of leaves whose records
are not empty, lie in their leaves and add up to the size. `dispatch_data_apply` visits its
bytes, and each function returns the object that stands for the byte string it should.

Results: `data_object`, `toDispatchData_agrees`.
-/

namespace Apple.Dispatch

open List

namespace Data

mutual

/-- The bytes that an object stands for. -/
def bytes : Data → Bytes
  | mk buf size records =>
    if records.length = 0 then (buf.getD []).take size else recordsBytes records

/-- The bytes that a list of records stands for. -/
def recordsBytes : List (RangeRecord Data) → Bytes
  | [] => []
  | ⟨dataObject, start, length⟩ :: rest =>
    ((bytes dataObject).drop start).take length ++ recordsBytes rest

end

/-- The bytes of a record. -/
def slice (r : RangeRecord Data) : Bytes := (r.dataObject.bytes.drop r.start).take r.length

variable (r : RangeRecord Data)

theorem recordsBytes_cons (rest : List (RangeRecord Data)) :
    recordsBytes (r :: rest) = slice r ++ recordsBytes rest := rfl

theorem recordsBytes_eq (l : List (RangeRecord Data)) : recordsBytes l = l.flatMap slice := by
  induction l with
  | nil => rfl
  | cons r l ih => rw [recordsBytes_cons, ih, flatMap_cons]

theorem recordsBytes_append (l l' : List (RangeRecord Data)) :
    recordsBytes (l ++ l') = recordsBytes l ++ recordsBytes l' := by
  simp only [recordsBytes_eq, flatMap_append]

/-- The length that a list of records stands for. -/
def recordsLength (records : List (RangeRecord Data)) : ℕ := (records.map (·.length)).sum

/-! ## Well-formed objects -/

/-- A leaf that is not empty. -/
def IsLeaf (dd : Data) : Prop := ∃ b, b ≠ [] ∧ b.length < 2 ^ 64 ∧ dd = mk (some b) b.length []

/-- A record that is not empty and lies in its leaf. -/
structure RecordOk (r : RangeRecord Data) : Prop where
  leaf : IsLeaf r.dataObject
  pos : 0 < r.length
  inside : r.start + r.length ≤ r.dataObject.size

/-- **The documented invariants** (`data.c`, lines 23–93): leaves, and composites of leaves. A trivial
subrange has no `buf`, and the `buf` of a flattened object has its bytes. -/
inductive WellFormed : Data → Prop
  | empty : WellFormed empty
  | leaf {dd : Data} (h : IsLeaf dd) : WellFormed dd
  | composite {buf : Option Bytes} {size : ℕ} {records : List (RangeRecord Data)}
      (hne : records ≠ []) (hrecords : ∀ r ∈ records, RecordOk r)
      (hsize : size = recordsLength records) (hlt : size < 2 ^ 64)
      (halloc : allocSize records.length < 2 ^ 64)
      (hbuf : ∀ b, buf = some b → 2 ≤ records.length ∧ b = recordsBytes records) :
      WellFormed (mk buf size records)

variable {dd : Data} {r : RangeRecord Data} {records rest : List (RangeRecord Data)}
  {length offset : ℕ}

theorem IsLeaf.bytes_length (h : IsLeaf dd) : dd.bytes.length = dd.size := by
  obtain ⟨b, -, -, rfl⟩ := h
  simp [bytes, size]

theorem RecordOk.slice_length (h : RecordOk r) : (slice r).length = r.length := by
  have hinside := h.inside
  rw [slice, length_take, length_drop, h.leaf.bytes_length]
  omega

theorem recordsBytes_length
    (h : ∀ r ∈ records, RecordOk r) : (recordsBytes records).length = recordsLength records := by
  induction records with
  | nil => rfl
  | cons r rest ih =>
    obtain ⟨hr, hrest⟩ := forall_mem_cons.mp h
    rw [recordsBytes_cons, length_append, hr.slice_length, ih hrest]
    simp [recordsLength]

theorem recordsLength_cons (rest : List (RangeRecord Data)) :
    recordsLength (r :: rest) = r.length + recordsLength rest := by
  simp [recordsLength]

theorem recordsLength_append (l l' : List (RangeRecord Data)) :
    recordsLength (l ++ l') = recordsLength l + recordsLength l' := by
  simp [recordsLength]

/-- Each record counts. -/
theorem length_le_recordsLength
    (h : ∀ r ∈ records, RecordOk r) : records.length ≤ recordsLength records := by
  induction records with
  | nil => exact zero_le
  | cons r rest ih =>
    obtain ⟨hr, hrest⟩ := forall_mem_cons.mp h
    have hpos := hr.pos
    have := ih hrest
    rw [recordsLength_cons, length_cons]
    omega

variable {buf : Option Bytes} {size lastLength : ℕ}

theorem bytes_mk_of_ne
    (hne : records ≠ []) : (mk buf size records).bytes = recordsBytes records := by
  rw [bytes, if_neg (by simpa using hne)]

theorem WellFormed.bytes_length (h : WellFormed dd) : dd.bytes.length = dd.size := by
  cases h with
  | empty => rfl
  | leaf h => exact h.bytes_length
  | composite hne hrecords hsize =>
    rw [bytes_mk_of_ne hne, recordsBytes_length hrecords]
    exact hsize.symm

theorem WellFormed.size_lt (h : WellFormed dd) : dd.size < 2 ^ 64 := by
  cases h with
  | empty => decide
  | leaf h =>
    obtain ⟨b, -, hlt, rfl⟩ := h
    exact hlt
  | composite _ _ _ hlt => exact hlt

theorem WellFormed.bytes_eq_nil (h : WellFormed dd) : dd.bytes = [] ↔ dd.size = 0 := by
  rw [← length_eq_zero_iff, h.bytes_length]

/-- A call returns a well-formed object with the bytes `b`. -/
abbrev Gives (result : Except Failure Data) (b : Bytes) : Prop :=
  ∃ dd, result = .ok dd ∧ WellFormed dd ∧ dd.bytes = b

/-! ## Reading -/

section Apply

variable {σ : Type} {applier : Data → ℕ → Bytes → σ → Bool × σ}

/-- Visit regions in order, with consecutive offsets, until the applier returns false. -/
def visit (applier : Data → ℕ → Bytes → σ → Bool × σ) : ℕ → List (Data × Bytes) → σ → Bool × σ
  | _, [], st => (true, st)
  | offset, (region, b) :: rest, st =>
    match applier region offset b st with
    | (false, st) => (false, st)
    | (true, st) => visit applier (offset + b.length) rest st

/-- The regions of an object: itself, if its bytes are contiguous, or the leaves of its records. -/
def regions (dd : Data) : List (Data × Bytes) :=
  if dd.size = 0 then []
  else if dd.records.length ≤ 1 ∨ dd.buf ≠ none then [(dd, dd.bytes)]
  else dd.records.map fun r => (r.dataObject, slice r)

theorem mapDirect_leaf (h : IsLeaf dd) (start : ℕ) :
    mapDirect dd start = .ok (some (dd.bytes.drop start), dd, start) := by
  obtain ⟨b, hb, -, rfl⟩ := h
  have hpos : b.length ≠ 0 := by simpa using hb
  simp [mapDirect, size, records, buf, bytes, hpos]

/-- `_dispatch_data_apply` on the leaf of a record. -/
theorem applyFrom_record (h : RecordOk r) (offset : ℕ) (st : σ) :
    applyFrom applier r.dataObject offset r.start r.length st =
      .ok (applier r.dataObject offset (slice r) st) := by
  obtain ⟨⟨buf, size, records⟩, start, length⟩ := r
  have hinside : start + length ≤ size := h.inside
  have hlength : (mk buf size records).bytes.length = size := h.leaf.bytes_length
  rw [applyFrom, mapDirect_leaf h.leaf, drop_zero]
  dsimp only
  rw [readBuffer, if_pos (by omega)]
  rfl

theorem applyRecords_eq (h : ∀ r ∈ records, RecordOk r) (offset : ℕ) (st : σ) :
    applyRecords applier records offset st =
      .ok (visit applier offset (records.map fun r => (r.dataObject, slice r)) st) := by
  induction records generalizing offset st with
  | nil => simp [applyRecords, visit]
  | cons r rest ih =>
    obtain ⟨hr, hrest⟩ := forall_mem_cons.mp h
    rw [applyRecords, applyFrom_record hr, map_cons, visit, hr.slice_length]
    obtain ⟨result, st'⟩ := applier r.dataObject offset (slice r) st
    cases result with
    | false => rfl
    | true => exact ih hrest (offset + r.length) st'

/-- What `_dispatch_data_map_direct` finds at the start of a well-formed object: a buffer that
begins with its bytes, or that it has to be flattened. -/
theorem WellFormed.mapDirect_zero (h : WellFormed dd) (hsize : dd.size ≠ 0) :
    (∃ buffer dd' start, mapDirect dd 0 = .ok (some buffer, dd', start) ∧
      (dd.records.length ≤ 1 ∨ dd.buf ≠ none) ∧ dd.size ≤ buffer.length ∧
      buffer.take dd.size = dd.bytes) ∨
    (mapDirect dd 0 = .ok (none, dd, 0) ∧ ∃ size records, dd = mk none size records ∧
      2 ≤ records.length ∧ (∀ r ∈ records, RecordOk r) ∧ size = recordsLength records ∧
      size < 2 ^ 64 ∧ allocSize records.length < 2 ^ 64) := by
  have hlength := h.bytes_length
  cases h with
  | empty => exact absurd rfl hsize
  | leaf h =>
    refine .inl ⟨dd.bytes, dd, 0, mapDirect_leaf h 0, .inl ?_, hlength.ge, ?_⟩
    · obtain ⟨b, -, -, rfl⟩ := h
      exact zero_le
    · rw [← hlength, take_length]
  | @composite buffer size records hne hrecords hsum hlt halloc hbuf =>
    unfold mapDirect
    rw [if_neg hsize]
    match records, hne with
    | [r], _ =>
      have hr := hrecords r mem_cons_self
      have hinside := hr.inside
      have hsize' : size = r.length := by simpa [recordsLength] using hsum
      have hslice : (mk buffer size [r]).bytes = slice r := by
        exact append_nil _
      obtain ⟨b, hb, -, hleaf⟩ := hr.leaf
      have hbytes : r.dataObject.bytes = b := by
        rw [hleaf]
        simp [bytes]
      rw [hleaf] at hinside
      change r.start + r.length ≤ b.length at hinside
      refine .inl ⟨b.drop (0 + r.start), r.dataObject, 0 + r.start, ?_, .inl le_rfl, ?_, ?_⟩
      · show Except.ok (r.dataObject.buf.map _, _, _) = _
        rw [hleaf]
        rfl
      · show size ≤ _
        rw [length_drop]
        omega
      · rw [hslice, slice, hbytes, zero_add, ← hsize']
        rfl
    | r :: r' :: rest, _ =>
      cases hb : buffer with
      | none =>
        exact .inr ⟨rfl, size, _, rfl, by simp, hrecords, hsum, hlt, halloc⟩
      | some b =>
        have hbytes : b = (mk buffer size (r :: r' :: rest)).bytes := by
          exact (hbuf b hb).2
        refine .inl ⟨b, _, _, rfl, .inr (by simp [Data.buf]), ?_, ?_⟩
        · rw [hbytes]
          exact hlength.ge
        · rw [← hb, ← hbytes, take_of_length_le]
          rw [hbytes]
          exact hlength.le

/-- **`dispatch_data_apply` visits the regions.** -/
theorem WellFormed.apply_eq (h : WellFormed dd) (st : σ) :
    apply applier dd st = .ok (visit applier 0 (regions dd) st) := by
  obtain ⟨buf, size, records⟩ := dd
  unfold apply regions
  by_cases hsize : (mk buf size records).size = 0
  · rw [if_pos hsize, if_pos hsize]
    rfl
  rw [if_neg hsize, if_neg hsize, applyFrom]
  rcases h.mapDirect_zero hsize with
    ⟨buffer, dd', start, hmap, hdirect, hle, htake⟩ | ⟨hmap, _, _, ⟨⟩, hmany, hrecords, -⟩
  · rw [if_pos hdirect, hmap]
    dsimp only
    rw [readBuffer, if_pos (by omega), drop_zero, htake, visit]
    show Except.ok (applier (mk buf size records) 0 (mk buf size records).bytes st) = _
    obtain ⟨result, st'⟩ := applier (mk buf size records) 0 (mk buf size records).bytes st
    cases result <;> rfl
  · have hdirect : ¬ ((mk none size records).records.length ≤ 1 ∨
        (mk none size records).buf ≠ none) :=
      not_or.mpr ⟨not_le.mpr hmany, not_not.mpr rfl⟩
    rw [hmap, if_neg hdirect]
    rw [if_neg (by omega), applyRecords_eq hrecords]
    rfl

/-- The regions are the bytes, and none is empty. -/
theorem WellFormed.regions_bytes (h : WellFormed dd) :
    (regions dd).flatMap Prod.snd = dd.bytes ∧ ∀ x ∈ regions dd, x.2 ≠ [] := by
  unfold regions
  split_ifs with hsize hdirect
  · rw [h.bytes_eq_nil.mpr hsize]
    simp
  · refine ⟨by simp, fun x hx => ?_⟩
    rw [mem_singleton.mp hx]
    exact fun hnil => hsize (h.bytes_eq_nil.mp hnil)
  · cases h with
    | empty => exact absurd rfl hsize
    | leaf h =>
      obtain ⟨b, -, -, rfl⟩ := h
      exact absurd (.inl zero_le) hdirect
    | @composite buf size records hne hrecords =>
      refine ⟨?_, fun x hx => ?_⟩
      · rw [bytes_mk_of_ne hne, flatMap_map, recordsBytes_eq]
        rfl
      · obtain ⟨r, hr, rfl⟩ := List.mem_map.mp hx
        have hr' := hrecords r hr
        have hpos := hr'.pos
        rw [← hr'.slice_length] at hpos
        exact ne_nil_of_length_pos hpos

end Apply

/-! ## Concatenation -/

theorem asRecords_ok (h : WellFormed dd) (hsize : dd.size ≠ 0) :
    dd.asRecords ≠ [] ∧ (∀ r ∈ dd.asRecords, RecordOk r) ∧
      recordsBytes dd.asRecords = dd.bytes ∧ recordsLength dd.asRecords = dd.size ∧
      dd.asRecords.length = dd.numRecords := by
  have hlength := h.bytes_length
  cases h with
  | empty => exact absurd rfl hsize
  | leaf h =>
    have hrecord : RecordOk ⟨dd, 0, dd.size⟩ := ⟨h, Nat.pos_of_ne_zero hsize, (zero_add _).le⟩
    have hrecords : dd.asRecords = [⟨dd, 0, dd.size⟩] ∧ dd.numRecords = 1 := by
      obtain ⟨b, -, -, rfl⟩ := h
      exact ⟨rfl, rfl⟩
    rw [hrecords.1, hrecords.2]
    refine ⟨cons_ne_nil _ _, forall_mem_singleton.mpr hrecord, ?_, ?_, rfl⟩
    · show (dd.bytes.drop 0).take dd.size ++ [] = dd.bytes
      rw [append_nil, drop_zero, ← hlength, take_length]
    · simp [recordsLength]
  | @composite buf size records hne hrecords hsum =>
    have hrecords' : (mk buf size records).asRecords = records := by
      simp [asRecords, leaf, Data.records, hne]
    have hnum : (mk buf size records).numRecords = records.length := by
      simp [numRecords, Data.records, hne]
    rw [hrecords', hnum]
    exact ⟨hne, hrecords, (bytes_mk_of_ne hne).symm, hsum.symm, rfl⟩

/-- **`dispatch_data_create_concat`.** -/
theorem createConcat_spec {dd1 dd2 : Data} (h1 : WellFormed dd1) (h2 : WellFormed dd2)
    (hlt : dd1.size + dd2.size < 2 ^ 64) :
    Gives (createConcat dd1 dd2) (dd1.bytes ++ dd2.bytes) ∨
    (createConcat dd1 dd2 = .error .outOfMemory ∧
      2 ^ 64 ≤ allocSize (dd1.numRecords + dd2.numRecords)) := by
  unfold createConcat
  by_cases hsize1 : dd1.size = 0
  · rw [if_pos hsize1]
    exact .inl ⟨dd2, rfl, h2, by rw [h1.bytes_eq_nil.mpr hsize1, nil_append]⟩
  rw [if_neg hsize1]
  by_cases hsize2 : dd2.size = 0
  · rw [if_pos hsize2]
    exact .inl ⟨dd1, rfl, h1, by rw [h2.bytes_eq_nil.mpr hsize2, append_nil]⟩
  rw [if_neg hsize2]
  obtain ⟨hne1, hok1, hbytes1, hlength1, hnum1⟩ := asRecords_ok h1 hsize1
  obtain ⟨-, hok2, hbytes2, hlength2, hnum2⟩ := asRecords_ok h2 hsize2
  have hle1 := length_le_recordsLength hok1
  have hle2 := length_le_recordsLength hok2
  rw [if_neg (by omega), alloc]
  split_ifs with halloc
  · refine .inl ⟨_, rfl, ?_, ?_⟩
    · refine .composite (by simp [hne1]) (forall_mem_append.mpr ⟨hok1, hok2⟩) ?_
        (Nat.mod_lt _ (by norm_num)) ?_ nofun
      · rw [Nat.mod_eq_of_lt hlt, recordsLength_append, hlength1, hlength2]
      · rw [length_append, hnum1, hnum2]
        exact halloc
    · rw [bytes_mk_of_ne (by simp [hne1]), recordsBytes_append, hbytes1, hbytes2]
  · exact .inr ⟨rfl, by omega⟩

/-! ## Subranges -/

/-- The record without its first bytes. -/
def dropRecord (r : RangeRecord Data) (offset : ℕ) : RangeRecord Data :=
  { r with start := r.start + offset, length := r.length - offset }

/-- The first bytes of the record. -/
def takeRecord (r : RangeRecord Data) (length : ℕ) : RangeRecord Data :=
  { r with length := length }

theorem slice_dropRecord (offset : ℕ) : slice (dropRecord r offset) = (slice r).drop offset := by
  unfold slice dropRecord
  rw [drop_take, drop_drop]

theorem slice_takeRecord (hle : length ≤ r.length) :
    slice (takeRecord r length) = (slice r).take length := by
  unfold slice takeRecord
  rw [take_take, min_eq_left hle]

theorem RecordOk.drop (h : RecordOk r)
    (hlt : offset < r.length) : RecordOk (dropRecord r offset) := by
  have hinside := h.inside
  refine ⟨h.leaf, ?_, ?_⟩
  · show 0 < r.length - offset
    omega
  · show r.start + offset + (r.length - offset) ≤ r.dataObject.size
    omega

theorem RecordOk.take (h : RecordOk r) (hpos : 0 < length)
    (hle : length ≤ r.length) : RecordOk (takeRecord r length) := by
  have hinside := h.inside
  refine ⟨h.leaf, hpos, ?_⟩
  show r.start + length ≤ r.dataObject.size
  omega

/-- A composite of one record. -/
theorem trivial_wellFormed (h : RecordOk r) :
    WellFormed (mk none r.length [r]) ∧ (mk none r.length [r]).bytes = slice r := by
  have hinside := h.inside
  have hlt := (WellFormed.leaf h.leaf).size_lt
  refine ⟨.composite (cons_ne_nil _ _) (forall_mem_singleton.mpr h) ?_ (by omega)
    (by simp [allocSize]) nofun, append_nil _⟩
  simp [recordsLength]

/-- `dispatch_data_create_subrange`, once the range is clipped at the end of the object. -/
theorem createSubrange_of_clipped (h : WellFormed (mk buf size records)) (offset length : ℕ)
    (hclipped : ∀ n, 0 < n → offset + n ≤ size → Gives (if records.length = 0 then
        Except.ok (mk none n [⟨mk buf size records, offset, n⟩])
      else subrangeRecords records offset n (offset + n = size))
      (((mk buf size records).bytes.drop offset).take n)) :
    Gives (createSubrange (mk buf size records) offset length)
      (((mk buf size records).bytes.drop offset).take length) := by
  have hlength : (mk buf size records).bytes.length = size := h.bytes_length
  rw [createSubrange]
  by_cases hempty : offset ≥ size ∨ length = 0
  · rw [if_pos hempty]
    refine ⟨empty, rfl, .empty, ?_⟩
    rw [show empty.bytes = [] from rfl, eq_comm, ← length_eq_zero_iff, length_take,
      length_drop]
    omega
  rw [if_neg hempty]
  by_cases hall : length ≤ size - offset ∧ length = size
  · rw [if_pos hall]
    refine ⟨_, rfl, h, ?_⟩
    rw [show offset = 0 by omega, drop_zero, take_of_length_le (by omega)]
  rw [if_neg hall]
  have hclip : (if length > size - offset then size - offset else length) =
      min length (size - offset) := by
    split_ifs <;> omega
  simp only [hclip]
  obtain ⟨dd', hdd', hwf, hbytes⟩ :=
    hclipped (min length (size - offset)) (by omega) (by omega)
  refine ⟨dd', hdd', hwf, ?_⟩
  rw [hbytes, ← take_take, take_of_length_le (l := List.drop offset _)]
  rw [length_drop]
  omega

/-- `dispatch_data_create_subrange` of a leaf. -/
theorem createSubrange_leaf (h : IsLeaf dd) (offset length : ℕ) :
    Gives (createSubrange dd offset length) ((dd.bytes.drop offset).take length) := by
  obtain ⟨b, -, -, rfl⟩ := id h
  refine createSubrange_of_clipped (.leaf h) offset length fun n hpos hle => ?_
  have hrecord : RecordOk ⟨mk (some b) b.length [], offset, n⟩ := ⟨h, hpos, hle⟩
  exact ⟨_, rfl, trivial_wellFormed hrecord⟩

/-- The record that contains the end of a range which ends before the last byte. -/
theorem lastRecord_spec (count : ℕ)
    (hpos : 0 < lastLength) (hlt : lastLength < recordsLength rest) :
    ∃ init r tail lastLength', rest = init ++ r :: tail ∧
      lastRecord rest count lastLength = .ok (count + init.length + 1, lastLength') ∧
      0 < lastLength' ∧ lastLength' ≤ r.length ∧ lastLength = recordsLength init + lastLength' := by
  induction rest generalizing count lastLength with
  | nil => exact absurd hlt (Nat.not_lt_zero _)
  | cons r rest ih =>
    rw [recordsLength_cons] at hlt
    rw [lastRecord]
    by_cases hle : lastLength ≤ r.length
    · rw [if_pos hle]
      exact ⟨[], r, rest, lastLength, rfl, rfl, hpos, hle, (zero_add _).symm⟩
    rw [if_neg hle]
    obtain ⟨init, r', tail, lastLength', rfl, hlast, hpos', hle', hsum⟩ :=
      ih (count + 1) (show 0 < lastLength - r.length by omega) (by omega)
    rw [if_neg (by simp), hlast]
    refine ⟨r :: init, r', tail, lastLength', rfl, ?_, hpos', hle', ?_⟩
    · rw [length_cons]
      congr 2
      omega
    · rw [recordsLength_cons]
      omega

theorem allocSize_mono {n m : ℕ} (h : n ≤ m) : allocSize n ≤ allocSize m := by
  unfold allocSize
  omega

theorem modify_last (init : List (RangeRecord Data))
    (last : RangeRecord Data) (f : RangeRecord Data → RangeRecord Data) :
    (r :: (init ++ [last])).modify (init.length + 1) f = r :: (init ++ [f last]) := by
  induction init generalizing r with
  | nil => rfl
  | cons r' init ih =>
    rw [cons_append, length_cons, modify_succ_cons, ih]
    rfl

theorem modifyHead_dropRecord (l : List (RangeRecord Data)) (offset : ℕ) :
    (if offset ≠ 0 then (r :: l).modifyHead fun r =>
        { r with start := r.start + offset, length := r.length - offset }
      else r :: l) = dropRecord r offset :: l := by
  by_cases hoffset : offset = 0
  · rw [hoffset]
    rfl
  · rw [if_pos hoffset]
    rfl

/-- The records of a subrange to the end of the object. -/
theorem subrangeSpan_toTheEnd (offset length : ℕ) (halloc : allocSize (rest.length + 1) < 2 ^ 64) :
    subrangeSpan r rest offset length true = .ok (mk none length (dropRecord r offset :: rest)) := by
  unfold subrangeSpan alloc
  simp only
  show (if allocSize (rest.length + 1) < 2 ^ 64 then Except.ok () else _).bind _ = _
  rw [if_pos halloc, take_of_length_le (by simp), modifyHead_dropRecord]
  rfl

/-- The records of a subrange that ends before the end of the object. -/
theorem subrangeSpan_interior {last : RangeRecord Data} {init tail : List (RangeRecord Data)}
    (halloc : allocSize (init.length + 2) < 2 ^ 64)
    (hlast : lastRecord (init ++ last :: tail) 1 (length - (r.length - offset)) =
      .ok (1 + init.length + 1, lastLength)) :
    subrangeSpan r (init ++ last :: tail) offset length false =
      .ok (mk none length (dropRecord r offset :: (init ++ [takeRecord last lastLength]))) := by
  have htake : (r :: (init ++ last :: tail)).take (1 + init.length + 1) = r :: (init ++ [last]) := by
    rw [show 1 + init.length + 1 = (init.length + 1) + 1 by omega, take_succ_cons,
      take_append, take_of_length_le (by omega), Nat.add_sub_cancel_left]
    rfl
  unfold subrangeSpan alloc
  simp only [hlast]
  show (if allocSize (1 + init.length + 1) < 2 ^ 64 then Except.ok () else _).bind _ = _
  rw [if_pos (by rw [show 1 + init.length + 1 = init.length + 2 by omega]; exact halloc)]
  rw [htake, show 1 + init.length + 1 - 1 = init.length + 1 by omega]
  rw [modifyHead_dropRecord, modify_last]
  rfl

/-- A subrange over more than one record. -/
theorem subrangeSpan_spec (hr : RecordOk r) (hrest : ∀ r ∈ rest, RecordOk r)
    (halloc : allocSize (rest.length + 1) < 2 ^ 64) (hlt : length < 2 ^ 64)
    (hoffset : offset < r.length) (hmore : r.length < offset + length)
    (hle : offset + length ≤ r.length + recordsLength rest) :
    Gives (subrangeSpan r rest offset length (offset + length = r.length + recordsLength rest))
      (((recordsBytes (r :: rest)).drop offset).take length) := by
  have hslice := hr.slice_length
  have hlength := recordsBytes_length hrest
  -- the bytes of the range are those behind `offset` in `r` and then those of the other records
  have hbytes : ((recordsBytes (r :: rest)).drop offset).take length =
      (slice r).drop offset ++ (recordsBytes rest).take (length - (r.length - offset)) := by
    rw [recordsBytes_cons, drop_append_of_le_length (by omega), take_append,
      take_of_length_le (by rw [length_drop]; omega), length_drop, hslice]
  rw [hbytes]
  by_cases hend : offset + length = r.length + recordsLength rest
  · rw [decide_eq_true hend, subrangeSpan_toTheEnd offset length halloc]
    refine ⟨_, rfl, .composite (cons_ne_nil _ _) (forall_mem_cons.mpr ⟨hr.drop hoffset, hrest⟩) ?_
      hlt halloc nofun, ?_⟩
    · show length = r.length - offset + recordsLength rest
      omega
    · rw [bytes_mk_of_ne (cons_ne_nil _ _), recordsBytes_cons, slice_dropRecord,
        take_of_length_le (by omega)]
  · rw [decide_eq_false hend]
    obtain ⟨init, last, tail, lastLength, rfl, hlast, hpos', hle', hsum⟩ :=
      lastRecord_spec 1 (by omega)
        (show length - (r.length - offset) < recordsLength rest by omega)
    have halloc' : allocSize (init.length + 2) < 2 ^ 64 := by
      refine lt_of_le_of_lt (allocSize_mono ?_) halloc
      rw [length_append, length_cons]
      omega
    rw [subrangeSpan_interior halloc' hlast]
    have hlastOk : RecordOk last := hrest last (by simp)
    have hlastSlice := hlastOk.slice_length
    have hinit : ∀ r ∈ init, RecordOk r := fun r hr => hrest r (by simp [hr])
    have hinitLength := recordsBytes_length hinit
    refine ⟨_, rfl, .composite (cons_ne_nil _ _) ?_ ?_ hlt ?_ nofun, ?_⟩
    · rw [forall_mem_cons, forall_mem_append, forall_mem_singleton]
      exact ⟨hr.drop hoffset, hinit, hlastOk.take hpos' hle'⟩
    · rw [recordsLength_cons, recordsLength_append]
      show length = r.length - offset + (recordsLength init + (lastLength + 0))
      omega
    · rw [length_cons, length_append]
      exact halloc'
    · rw [bytes_mk_of_ne (cons_ne_nil _ _), recordsBytes_cons, slice_dropRecord,
        recordsBytes_append, recordsBytes_append, hsum, take_append,
        take_of_length_le (by omega), hinitLength,
        recordsBytes_cons, recordsBytes_cons, slice_takeRecord hle',
        take_append_of_le_length (by omega)]
      simp [recordsBytes]

/-- From the record that contains the offset. -/
theorem subrangeRecords_spec
    (hrecords : ∀ r ∈ records, RecordOk r) (halloc : allocSize records.length < 2 ^ 64)
    (hpos : 0 < length) (hlt : length < 2 ^ 64) (hle : offset + length ≤ recordsLength records) :
    Gives (subrangeRecords records offset length (offset + length = recordsLength records))
      (((recordsBytes records).drop offset).take length) := by
  induction records generalizing offset with
  | nil =>
    rw [show recordsLength [] = 0 from rfl] at hle
    omega
  | cons r rest ih =>
    obtain ⟨hr, hrest⟩ := forall_mem_cons.mp hrecords
    have hslice := hr.slice_length
    rw [recordsLength_cons] at hle ⊢
    rw [subrangeRecords]
    by_cases hskip : offset ≥ r.length
    · rw [if_pos hskip]
      have halloc' : allocSize rest.length < 2 ^ 64 :=
        lt_of_le_of_lt (allocSize_mono (Nat.le_succ _)) halloc
      obtain ⟨dd, hdd, hwf, hbytes⟩ := ih hrest halloc'
        (show offset - r.length + length ≤ recordsLength rest by omega)
      refine ⟨dd, ?_, hwf, ?_⟩
      · rw [← hdd]
        congr 2
        simp only [eq_iff_iff]
        omega
      · rw [hbytes, recordsBytes_cons, drop_append,
          drop_of_length_le (l := slice r) (by omega), nil_append, hslice]
    split_ifs with hone
    · obtain ⟨dd, hdd, hwf, hbytes⟩ := createSubrange_leaf hr.leaf (r.start + offset) length
      refine ⟨dd, hdd, hwf, ?_⟩
      rw [hbytes, recordsBytes_cons, drop_append_of_le_length (by omega),
        take_append_of_le_length (by rw [length_drop]; omega), slice, drop_take,
        take_take, drop_drop, min_eq_left (by omega)]
    · have hoffset : offset < r.length := by omega
      have hmore : r.length < offset + length := by omega
      exact subrangeSpan_spec hr hrest halloc hlt hoffset hmore hle

section

variable (h : WellFormed dd)
include h

/-- **`dispatch_data_create_subrange`.** -/
theorem createSubrange_spec (offset length : ℕ) :
    Gives (createSubrange dd offset length) ((dd.bytes.drop offset).take length) := by
  cases id h with
  | empty =>
    refine ⟨empty, ?_, .empty, by simp [empty, bytes]⟩
    rfl
  | leaf h => exact createSubrange_leaf h offset length
  | composite hne hrecords hsum hlt halloc =>
    refine createSubrange_of_clipped h offset length fun n hpos hle => ?_
    rw [if_neg (by simpa using hne), bytes_mk_of_ne hne, hsum]
    exact subrangeRecords_spec hrecords halloc hpos (by omega) (by omega)

/-! ## Regions -/

omit h in
/-- `_dispatch_data_copy_region` on a record: the leaf, or a trivial subrange of it. -/
theorem copyRegionFrom_record (hr : RecordOk r) (location offsetPtr : ℕ) :
    ∃ dd, copyRegionFrom r.dataObject r.start r.length location offsetPtr = .ok (dd, offsetPtr) ∧
      WellFormed dd ∧ dd.size = r.length ∧ dd.bytes = slice r := by
  obtain ⟨⟨buf, size, records⟩, start, length⟩ := r
  have hlength : (mk buf size records).bytes.length = size := hr.leaf.bytes_length
  rw [copyRegionFrom, mapDirect_leaf hr.leaf]
  by_cases hall : start = 0 ∧ length = size
  · obtain ⟨rfl, rfl⟩ := hall
    refine ⟨mk buf length records, ?_, .leaf hr.leaf, rfl, ?_⟩
    · show (if 0 = 0 ∧ length = length then _ else _) = _
      rw [if_pos ⟨rfl, rfl⟩]
    · rw [slice, drop_zero, take_of_length_le (by exact hlength.le)]
  · refine ⟨mk none length [⟨mk buf size records, start, length⟩], ?_, ?_, rfl, ?_⟩
    · show (if start = 0 ∧ length = size then _ else if start = 0 ∧ length = size then _ else _) = _
      rw [if_neg hall, if_neg hall]
      rfl
    · exact (trivial_wellFormed hr).1
    · exact append_nil _

variable {location : ℕ} {malloc : Option Bytes} {σ : Type} {applier : ℕ → Bytes → σ → Option σ}

omit h in
/-- The record that contains the location. -/
theorem regionRecords_spec (hrecords : ∀ r ∈ records, RecordOk r) (hle : offset ≤ location)
    (hlt : location < offset + recordsLength records) (offsetPtr : ℕ) :
    ∃ dd off, regionRecords records 0 offset location offsetPtr = .ok (dd, offsetPtr + off) ∧
      WellFormed dd ∧ offset ≤ off ∧ off ≤ location ∧ location < off + dd.size ∧
      dd.bytes = ((recordsBytes records).drop (off - offset)).take dd.size := by
  induction records generalizing offset with
  | nil =>
    rw [show recordsLength [] = 0 from rfl] at hlt
    omega
  | cons r rest ih =>
    obtain ⟨hr, hrest⟩ := forall_mem_cons.mp hrecords
    have hpos := hr.pos
    have hslice := hr.slice_length
    rw [recordsLength_cons] at hlt
    rw [regionRecords, if_neg (by omega), zero_add]
    by_cases hskip : location ≥ offset + r.length
    · obtain ⟨dd, off, hdd, hwf, hle', hoff, hlt', hbytes⟩ :=
        ih hrest hskip (by omega)
      refine ⟨dd, off, ?_, hwf, by omega, hoff, hlt', ?_⟩
      · rw [← hdd]
        exact if_pos hskip
      · rw [hbytes, recordsBytes_cons, drop_append,
          drop_of_length_le (l := slice r) (by omega), nil_append, hslice, Nat.sub_sub]
    · obtain ⟨dd, hdd, hwf, hsize, hbytes⟩ :=
        copyRegionFrom_record hr (location - offset) (offsetPtr + offset)
      refine ⟨dd, offset, ?_, hwf, le_rfl, hle, by omega, ?_⟩
      · rw [← hdd]
        exact if_neg hskip
      · rw [hbytes, Nat.sub_self, drop_zero, recordsBytes_cons, hsize,
          take_append_of_le_length hslice.ge, take_of_length_le hslice.le]

/-- **`dispatch_data_copy_region`.** -/
theorem copyRegion_spec (hlt : location < dd.size) :
    ∃ region off, copyRegion dd location = .ok (region, off) ∧ WellFormed region ∧
      off ≤ location ∧ location < off + region.size ∧
      region.bytes = (dd.bytes.drop off).take region.size := by
  have hlength := h.bytes_length
  rw [copyRegion, if_neg (by omega)]
  rcases h.mapDirect_zero (by omega) with
    ⟨buffer, dd', start, hmap, -⟩ | ⟨hmap, size, records, rfl, hmany, hrecords, hsum, -⟩
  · refine ⟨dd, 0, ?_, h, zero_le, by omega, ?_⟩
    · obtain ⟨buf, size, records⟩ := dd
      rw [copyRegionFrom, hmap]
      exact if_pos ⟨rfl, rfl⟩
    · rw [drop_zero, ← hlength, take_length]
  · change location < size at hlt
    obtain ⟨region, off, hregion, hwf, -, hoff, hlt', hbytes⟩ :=
      regionRecords_spec hrecords zero_le (show location < 0 + recordsLength records by omega) 0
    refine ⟨region, off, ?_, hwf, hoff, hlt', ?_⟩
    · rw [zero_add] at hregion
      rw [copyRegionFrom, hmap, ← hregion]
      match records, hmany with
      | r :: r' :: rest, _ => simp only
    · rw [hbytes, bytes_mk_of_ne (ne_nil_of_length_pos (by omega))]
      rfl

/-! ## Maps -/

omit h in
/-- The copies of `_dispatch_data_flatten`. -/
theorem visit_memcpy (regions : List (Data × Bytes)) (front back : Bytes)
    (h : back.length = (regions.flatMap Prod.snd).length) :
    visit (fun _ off bytes buffer => (true, memcpy buffer off bytes)) front.length regions
      (front ++ back) = (true, front ++ regions.flatMap Prod.snd) := by
  induction regions generalizing front back with
  | nil =>
    obtain rfl : back = [] := length_eq_zero_iff.mp h
    rfl
  | cons x rest ih =>
    obtain ⟨region, b⟩ := x
    rw [flatMap_cons, length_append] at h
    dsimp only at h
    have hcopy : memcpy (front ++ back) front.length b = front ++ b ++ back.drop b.length := by
      simp [memcpy]
    show visit _ (front.length + b.length) rest (memcpy (front ++ back) front.length b) = _
    rw [hcopy, ← length_append, ih _ _ (by rw [length_drop]; omega), flatMap_cons, append_assoc]

theorem flatten_spec {buffer : Bytes}
    (hbuffer : buffer.length = dd.size) : flatten dd (some buffer) = .ok (some dd.bytes) := by
  have hlength := h.bytes_length
  have hregions := h.regions_bytes.1
  have hvisit := visit_memcpy (regions dd) [] buffer (by rw [hregions]; omega)
  rw [hregions, nil_append, nil_append, length_nil] at hvisit
  rw [flatten, h.apply_eq, hvisit]

/-- **`dispatch_data_create_map`.** -/
theorem createMap_spec (hmalloc : ∀ b, malloc = some b → b.length = dd.size) :
    ∃ data buffer size, createMap dd malloc = .ok (data, buffer, size) ∧
      (data = none → malloc = none) ∧
      ∀ dd', data = some dd' → WellFormed dd' ∧ dd'.bytes = dd.bytes ∧ size = dd.size ∧
        (buffer.getD []).take size = dd.bytes := by
  have hlength := h.bytes_length
  unfold createMap
  by_cases hsize : dd.size = 0
  · rw [h.bytes_eq_nil.mpr hsize, hsize]
    refine ⟨some empty, none, 0, rfl, nofun, ?_⟩
    rintro dd' ⟨⟩
    exact ⟨.empty, rfl, rfl, rfl⟩
  rw [if_neg hsize]
  rcases h.mapDirect_zero hsize with ⟨buffer, dd', start, hmap, -, -, htake⟩ | ⟨hmap, -⟩
  · rw [hmap]
    refine ⟨some dd, some buffer, dd.size, rfl, nofun, ?_⟩
    rintro dd' ⟨⟩
    exact ⟨h, rfl, rfl, htake⟩
  · rw [hmap]
    cases malloc with
    | none => exact ⟨none, none, 0, rfl, fun _ => rfl, nofun⟩
    | some b =>
      simp only [flatten_spec h (hmalloc b rfl)]
      refine ⟨_, _, _, rfl, nofun, ?_⟩
      rintro dd' ⟨⟩
      have hne : dd.bytes ≠ [] := fun hnil => hsize (h.bytes_eq_nil.mp hnil)
      have hcreate : create dd.bytes = mk (some dd.bytes) dd.bytes.length [] := by
        rw [create, if_neg (by simpa using hne)]
      rw [hcreate]
      refine ⟨.leaf ⟨dd.bytes, hne, ?_, rfl⟩, by simp [bytes], rfl, ?_⟩
      · rw [hlength]
        exact h.size_lt
      · rw [← hlength]
        exact take_length

/-- **Flattening.** -/
theorem getFlattenedBytes_spec (hmalloc : ∀ b, malloc = some b → b.length = dd.size) :
    ∃ dd' buffer, getFlattenedBytes dd malloc = .ok (dd', buffer) ∧ WellFormed dd' ∧
      dd'.bytes = dd.bytes ∧ ∀ b, buffer = some b → b.take dd.size = dd.bytes := by
  have hlength := h.bytes_length
  unfold getFlattenedBytes
  by_cases hsize : dd.size = 0
  · rw [if_pos hsize]
    exact ⟨dd, none, rfl, h, rfl, nofun⟩
  rw [if_neg hsize]
  rcases h.mapDirect_zero hsize with ⟨buffer, dd', start, hmap, -, -, htake⟩ |
    ⟨hmap, size, records, rfl, hmany, hrecords, hsum, hlt, halloc⟩
  · rw [hmap]
    refine ⟨dd, some buffer, rfl, h, rfl, ?_⟩
    rintro b ⟨⟩
    exact htake
  · rw [hmap]
    cases malloc with
    | none => exact ⟨_, none, rfl, h, rfl, nofun⟩
    | some b =>
      simp only [flatten_spec h (hmalloc b rfl)]
      match records, hmany with
      | r :: r' :: rest, hmany =>
        refine ⟨_, _, rfl, .composite (cons_ne_nil _ _) hrecords hsum hlt halloc ?_, rfl, ?_⟩
        · rintro b' ⟨⟩
          exact ⟨hmany, rfl⟩
        · rintro b' ⟨⟩
          rw [← hlength]
          exact take_length

/-! ## The regions that the transforms see -/

/-- The regions of an object, as the transforms see them. -/
def toDispatchData (dd : Data) (h : WellFormed dd) : DispatchData where
  regions := (regions dd).map Prod.snd
  regions_ne_nil := by
    intro b hb
    obtain ⟨x, hx, rfl⟩ := List.mem_map.mp hb
    exact h.regions_bytes.2 x hx

theorem toDispatchData_bytes : (dd.toDispatchData h).bytes = dd.bytes := by
  rw [← h.regions_bytes.1]
  rfl

/-- An applier that only looks at the bytes, as a block that returns whether to go on. -/
def liftApplier {σ : Type} (applier : ℕ → Bytes → σ → Option σ) (_ : Data) (offset : ℕ) (b : Bytes)
    (st : σ) : Bool × σ :=
  match applier offset b st with
  | none => (false, st)
  | some st' => (true, st')

omit h in
theorem visit_lift (l : List (Data × Bytes))
    (offset : ℕ) (st : σ) : applyRegions applier offset (l.map Prod.snd) st =
      if (visit (liftApplier applier) offset l st).1 then
        some (visit (liftApplier applier) offset l st).2 else none := by
  induction l generalizing offset st with
  | nil => rfl
  | cons x l ih =>
    obtain ⟨region, b⟩ := x
    rw [map_cons, applyRegions, visit]
    unfold liftApplier
    cases applier offset b st with
    | none => rfl
    | some st' => exact ih _ _

omit h in
/-- **Objects and their regions agree** on `dispatch_data_apply`, which visits the same bytes and
stops at the same place, and on `dispatch_data_create_subrange`. -/
theorem toDispatchData_agrees (dd : {dd // WellFormed dd}) (st : σ) (offset length : ℕ) :
    (∃ result st', apply (liftApplier applier) dd.1 st = .ok (result, st') ∧
      dispatchDataApply (toDispatchData _ dd.2) applier st = if result then some st' else none) ∧
    ∃ dd', createSubrange dd.1 offset length = .ok dd' ∧ WellFormed dd' ∧
      (toDispatchData _ dd.2).createSubrange offset length = dd'.bytes := by
  obtain ⟨dd', hdd', hwell, hbytes⟩ := createSubrange_spec dd.2 offset length
  refine ⟨⟨_, _, dd.2.apply_eq st, visit_lift (regions dd) 0 st⟩, dd', hdd', hwell, ?_⟩
  rw [DispatchData.createSubrange, toDispatchData_bytes, hbytes]

end

/-! ## Objects -/

/-- The objects that the functions build. `malloc` returns memory of the size of the object, or
nothing. -/
inductive Built : Data → Prop
  | create {buffer : Bytes} (hlt : buffer.length < 2 ^ 64) : Built (create buffer)
  | concat {dd1 dd2 dd : Data} (h1 : Built dd1) (h2 : Built dd2)
      (hlt : dd1.size + dd2.size < 2 ^ 64) (h : createConcat dd1 dd2 = .ok dd) : Built dd
  | subrange {dd dd' : Data} {offset length : ℕ} (hdd : Built dd)
      (h : createSubrange dd offset length = .ok dd') : Built dd'
  | region {dd dd' : Data} {location offset : ℕ} (hdd : Built dd)
      (h : copyRegion dd location = .ok (dd', offset)) : Built dd'
  | map {dd dd' : Data} {malloc buffer : Option Bytes} {size : ℕ} (hdd : Built dd)
      (hmalloc : ∀ b, malloc = some b → b.length = dd.size)
      (h : createMap dd malloc = .ok (some dd', buffer, size)) : Built dd'
  | flatten {dd dd' : Data} {malloc buffer : Option Bytes} (hdd : Built dd)
      (hmalloc : ∀ b, malloc = some b → b.length = dd.size)
      (h : getFlattenedBytes dd malloc = .ok (dd', buffer)) : Built dd'

theorem create_wellFormed {buffer : Bytes} (hlt : buffer.length < 2 ^ 64) :
    WellFormed (create buffer) := by
  unfold create
  split_ifs with hempty
  · exact .empty
  · exact .leaf ⟨buffer, by simpa using hempty, hlt, rfl⟩

/-- **Every object is well-formed.** -/
theorem Built.wellFormed (h : Built dd) : WellFormed dd := by
  induction h with
  | create hlt => exact create_wellFormed hlt
  | concat _ _ hlt h ih1 ih2 =>
    rcases createConcat_spec ih1 ih2 hlt with ⟨dd, hdd, hwf, -⟩ | ⟨hoom, -⟩
    · cases h.symm.trans hdd
      exact hwf
    · cases h.symm.trans hoom
  | @subrange _ _ offset length _ h ih =>
    obtain ⟨dd, hdd, hwf, -⟩ := createSubrange_spec ih offset length
    cases h.symm.trans hdd
    exact hwf
  | @region dd _ location _ _ h ih =>
    by_cases hlt : location < dd.size
    · obtain ⟨region, off, hregion, hwf, -⟩ := copyRegion_spec ih hlt
      cases h.symm.trans hregion
      exact hwf
    · rw [copyRegion, if_pos (by omega)] at h
      cases h
      exact .empty
  | map _ hmalloc h ih =>
    obtain ⟨data, buffer, size, hmap, -, hspec⟩ := createMap_spec ih hmalloc
    cases h.symm.trans hmap
    exact (hspec _ rfl).1
  | flatten _ hmalloc h ih =>
    obtain ⟨dd', buffer, hflat, hwf, -⟩ := getFlattenedBytes_spec ih hmalloc
    cases h.symm.trans hflat
    exact hwf

/-- **A data object is a byte string.** Every object that is built from leaves by concatenations,
    subranges, copied regions, maps and flattening, with sizes below `2 ^ 64`:

    * meets the documented invariants;
    * is visited by `dispatch_data_apply` in regions that are not empty, with consecutive offsets,
      and the regions together are its bytes;
    * gives with another one the concatenation of the bytes, unless the records do not fit
      into memory; gives every subrange of its bytes; and gives for every location below its
      size a region that contains the location and has the bytes of the object there;
    * keeps its bytes when it is mapped or flattened.

    No function crashes, fails an assertion or reads outside of a buffer. -/
theorem data_object {dd : Data} (h : Built dd) : WellFormed dd ∧
    (∀ (σ : Type) (applier : Data → ℕ → Bytes → σ → Bool × σ) (st : σ),
      apply applier dd st = .ok (visit applier 0 (regions dd) st)) ∧
    (regions dd).flatMap Prod.snd = dd.bytes ∧ (∀ x ∈ regions dd, x.2 ≠ []) ∧
    (∀ dd2, Built dd2 → dd.size + dd2.size < 2 ^ 64 →
      (∃ dd', createConcat dd dd2 = .ok dd' ∧ dd'.bytes = dd.bytes ++ dd2.bytes) ∨
      createConcat dd dd2 = .error .outOfMemory ∧
        2 ^ 64 ≤ allocSize (dd.numRecords + dd2.numRecords)) ∧
    (∀ offset length, ∃ dd', createSubrange dd offset length = .ok dd' ∧
      dd'.bytes = (dd.bytes.drop offset).take length) ∧
    (∀ location < dd.size, ∃ region off, copyRegion dd location = .ok (region, off) ∧
      off ≤ location ∧ location < off + region.size ∧
      region.bytes = (dd.bytes.drop off).take region.size) ∧
    (∀ malloc : Option Bytes, (∀ b, malloc = some b → b.length = dd.size) →
      (∃ data buffer size, createMap dd malloc = .ok (data, buffer, size) ∧
        (data = none → malloc = none) ∧ ∀ dd', data = some dd' → dd'.bytes = dd.bytes ∧
          size = dd.size ∧ (buffer.getD []).take size = dd.bytes) ∧
      ∃ dd' buffer, getFlattenedBytes dd malloc = .ok (dd', buffer) ∧ dd'.bytes = dd.bytes ∧
        ∀ b, buffer = some b → b.take dd.size = dd.bytes) := by
  have hwf := h.wellFormed
  refine ⟨hwf, fun σ applier st => hwf.apply_eq st, hwf.regions_bytes.1, hwf.regions_bytes.2,
    fun dd2 h2 hlt => ?_, fun offset length => ?_, fun location hlt => ?_,
    fun malloc hmalloc => ⟨?_, ?_⟩⟩
  · rcases createConcat_spec hwf h2.wellFormed hlt with ⟨dd', hdd', -, hbytes⟩ | hoom
    · exact .inl ⟨dd', hdd', hbytes⟩
    · exact .inr hoom
  · obtain ⟨dd', hdd', -, hbytes⟩ := createSubrange_spec hwf offset length
    exact ⟨dd', hdd', hbytes⟩
  · obtain ⟨region, off, hregion, -, hle, hlt', hbytes⟩ := copyRegion_spec hwf hlt
    exact ⟨region, off, hregion, hle, hlt', hbytes⟩
  · obtain ⟨data, buffer, size, hmap, hnone, hspec⟩ := createMap_spec hwf hmalloc
    exact ⟨data, buffer, size, hmap, hnone, fun dd' hdd' => (hspec dd' hdd').2⟩
  · obtain ⟨dd', buffer, hflat, -, hbytes, hspec⟩ := getFlattenedBytes_spec hwf hmalloc
    exact ⟨dd', buffer, hflat, hbytes, hspec⟩

/-- A subrange over both leaves of a concatenation. -/
theorem data_object_twoLeaves : ∃ dd dd', createConcat (create [1, 2]) (create [3, 4, 5]) = .ok dd ∧
      createSubrange dd 1 3 = .ok dd' ∧ dd'.bytes = [2, 3, 4] := by
  have hbuilt : Built (mk none 5 [⟨create [1, 2], 0, 2⟩, ⟨create [3, 4, 5], 0, 3⟩]) :=
    .concat (Built.create (show [1, 2].length < 2 ^ 64 by decide))
      (Built.create (show [3, 4, 5].length < 2 ^ 64 by decide)) (by decide) rfl
  obtain ⟨dd', hdd', hbytes⟩ := (data_object hbuilt).2.2.2.2.2.1 1 3
  exact ⟨_, dd', rfl, hdd', hbytes⟩

end Data

end Apple.Dispatch
