import Apple.Dispatch.UtfChars

/-!
# `_dispatch_transform_to_utf16` on a text in several regions

`reads` says which characters the transform takes from a well-formed text: those inside a
region as they are, one that the end of a region cuts from the offset that the code computes,
which ignores the bytes skipped at the start of the region. A byte order mark is dropped if
the offset after it is 3.

Results:
* `transformToUtf16_eq`: the transform writes a byte order mark and what `reads` gives.
* `reads_iff`: `reads` gives the text without a leading byte order mark exactly if every cut is
  harmless (`ToOk`).
-/

namespace Apple.Dispatch.Utf

open Lib Function List Option

/-! ## Reading ahead -/

/-- The character that starts at a position of a text. -/
def charAt : List Char → ℕ → Option Char
  | [], _ => none
  | c :: cs, pos =>
    if pos = 0 then some c else if pos < len8 c then none else charAt cs (pos - len8 c)

/-- What a read of `length` bytes at a position gives: a character that starts there, if it is not
longer. -/
def readAhead (all : List Char) (pos length : ℕ) : Option Char :=
  (charAt all pos).filter fun c => len8 c ≤ length

theorem subrangeMap_eq {data : DispatchData} (pos length : ℕ)
    (h : pos + length ≤ data.bytes.length) :
    data.subrangeMap pos length = some ((data.bytes.drop pos).take length) := by
  unfold DispatchData.subrangeMap DispatchData.createSubrange
  exact if_pos (by rw [length_take, length_drop]; omega)

variable {pos t : ℕ} {cs : List Char} {c : Char} {all : List Char}

theorem readUtf8Sequence_text {length : ℕ} (hpos : 0 < length)
    (hlt : length < 256) (h : pos + length ≤ size len8 all) :
    readUtf8Sequence (((utf8 all).drop pos).take length) =
      (readAhead all pos length).map Char.toNat := by
  induction all generalizing pos with
  | nil => simp only [size_nil] at h; omega
  | cons c cs ih =>
    obtain ⟨b, bs, he, hlen, hcont⟩ := utf8Length_encode c
    have hlen8 : len8 c = bs.length + 1 := by rw [len8, he]; rfl
    rw [readAhead, charAt, utf8_cons]
    by_cases h0 : pos = 0
    · subst h0
      rw [drop_zero]
      by_cases hfit : len8 c ≤ length
      · have htake : (String.utf8EncodeChar c ++ utf8 cs).take length =
            String.utf8EncodeChar c ++ (utf8 cs).take (length - len8 c) := by
          rw [take_append, take_of_length_le hfit, len8]
        rw [htake, readUtf8Sequence_encode]
        simp [hfit]
      · obtain ⟨m, rfl⟩ : ∃ m, length = m + 1 := ⟨length - 1, by omega⟩
        rw [he, cons_append, take_succ_cons, readUtf8Sequence_of_length]
        · simp [not_le.mp hfit]
        · have := len8_lt c
          rw [length_take]
          omega
    · split_ifs with hin
      · obtain ⟨k, rfl⟩ : ∃ k, pos = k + 1 := ⟨pos - 1, by omega⟩
        obtain ⟨m, rfl⟩ : ∃ m, length = m + 1 := ⟨length - 1, by omega⟩
        have hk : k < bs.length := by omega
        rw [he, cons_append, drop_succ_cons, drop_append_of_le_length hk.le,
          drop_eq_getElem_cons hk, cons_append, take_succ_cons,
          readUtf8Sequence_of_length]
        · rfl
        · rw [hcont _ (getElem_mem hk), length_take]
          omega
      · have hdrop : (String.utf8EncodeChar c ++ utf8 cs).drop pos =
            (utf8 cs).drop (pos - len8 c) := by
          rw [drop_append, drop_of_length_le (not_lt.mp hin), len8, nil_append]
        rw [size_cons] at h
        rw [hdrop, ih (by omega), readAhead]

/-! ## One region -/

/-- The characters taken from a region that ends at `stop`, where `skip` bytes were skipped, of
the text `cs`, which begins at `t`. -/
def regionReads (all : List Char) (stop skip : ℕ) : ℕ → List Char → Option (List Char)
  | _, [] => some []
  | t, c :: cs =>
    if stop ≤ t then some []
    else if stop < t + len8 c then
      (readAhead all (t - skip) (len8 c)).map fun x =>
        if x = bom ∧ stop = skip + 3 then [] else [x]
    else (regionReads all stop skip (t + len8 c) cs).map fun xs =>
      if c = bom ∧ t + len8 c = skip + 3 then xs else c :: xs

variable {stop : ℕ}

theorem regionReads_of_le {skip : ℕ} (h : stop ≤ t) (cs : List Char) :
    regionReads all stop skip t cs = some [] := by
  cases cs with
  | nil => rfl
  | cons c cs => rw [regionReads, if_pos h]

theorem len16_le (c : Char) : len16 c ≤ 2 * len8 c ∧ len16 c ≤ 4 := by
  have hpos := len8_pos c
  by_cases h : c.toNat < 0x10000
  · rw [len16, utf16Units, if_pos h]
    simp only [length_singleton]
    omega
  · obtain ⟨_, _, _, _, he, -⟩ := utf8_four (not_lt.mp h)
    rw [len16, utf16Units, if_neg h, len8, he]
    simp

theorem bom_iff (c : Char) : c.toNat = 0xfeff ↔ c = bom := by
  rw [show (0xfeff : ℕ) = bom.toNat by rfl, Char.toNat_inj]

section Loop

variable {data : DispatchData} {all : List Char} {start : ℕ} (order : ByteOrder)
  (hdata : data.bytes = utf8 all) (hmax : size len8 all * 2 + 2 ≤ bufferMallocMax)

include hdata hmax in
/-- The loop takes the characters of `regionReads`, and leaves the bytes of a cut character to be
skipped. -/
theorem toUtf16Loop_eq {stop skip : ℕ}
    (hstop : stop ≤ size len8 all) {fuel : ℕ} (b : Buffer)
    (ht : t + size len8 cs = size len8 all) (hstart : start + skip ≤ t) (hle : t ≤ stop)
    (hfuel : stop - t < fuel) :
    (toUtf16Loop order data start (stop - start - skip) fuel (t - start - skip)
        ((utf8 cs).take (stop - t)) ⟨0, b⟩).map (fun st => (st.skip, st.buffer.contents)) =
      (regionReads all stop skip t cs).map fun xs =>
        ((restFrom len8 stop t cs).1 - stop, b.contents ++ utf16 order xs) := by
  induction fuel generalizing t cs b with
  | zero => omega
  | succ fuel ih =>
  by_cases hend : t = stop
  · subst hend
    rw [regionReads_of_le le_rfl, restFrom_of_le le_rfl, toUtf16Loop]
    simp
  obtain ⟨c, cs, rfl⟩ : ∃ c cs', cs = c :: cs' := by
    cases cs with
    | nil => simp only [size_nil] at ht; omega
    | cons c cs => exact ⟨c, cs, rfl⟩
  rw [size_cons] at ht
  obtain ⟨byte, bytes, he, hlen, -⟩ := utf8Length_encode c
  have hpos := len8_pos c
  have hhead : ((utf8 (c :: cs)).take (stop - t)).head? = some byte := by
    obtain ⟨m, hm⟩ : ∃ m, stop - t = m + 1 := ⟨stop - t - 1, by omega⟩
    rw [utf8_cons, he, hm]
    rfl
  rw [toUtf16Loop, if_pos (by omega), regionReads, if_neg (by omega), restFrom,
    if_neg (by omega)]
  simp only [hhead, bind_eq_bind, bind_some, hlen, if_neg hpos.ne']
  by_cases hcut : stop < t + len8 c
  · have hmap : data.subrangeMap (t - skip) (len8 c) = _ :=
      subrangeMap_eq (t - skip) (len8 c) (by rw [hdata, length_utf8]; omega)
    rw [if_pos (by omega), if_pos hcut,
      show start + (t - start - skip) = t - skip by omega, hmap, bind_some, hdata,
      readUtf8Sequence_text hpos (len8_lt c) (by omega)]
    cases hread : readAhead all (t - skip) (len8 c) with
    | none => rfl
    | some x =>
      have h2 := len16_le x
      have hempty : ∀ (src : Bytes) (st : UtfState), toUtf16Loop order data start
          (stop - start - skip) fuel (stop - start - skip) src st = some st := by
        obtain ⟨k, rfl⟩ : ∃ k, fuel = k + 1 := ⟨fuel - 1, by omega⟩
        intro src st
        rw [toUtf16Loop, if_neg (lt_irrefl _)]
      simp only [map_some, bind_some, Nat.sub_self, Nat.zero_mul, Nat.not_lt_zero,
        bom_iff, emitUtf16_eq, hempty]
      have hoffset : start + (stop - start - skip) = 3 ↔ stop = skip + 3 := by omega
      have hskip : 0 + (len8 c - (stop - start - skip - (t - start - skip))) =
          t + len8 c - stop := by omega
      rw [if_neg not_false, restFrom_of_le hcut.le, hskip]
      simp only [hoffset]
      split_ifs with hdrop
      · simp
      · obtain ⟨b', hb'⟩ := emit_isSome b 0 (utf16EncodeChar_ne_nil order x)
          (by rw [length_utf16EncodeChar]; omega)
        rw [hb', bind_some, map_some, emit_contents (utf16EncodeChar_ne_nil order x)
          hb', utf16_cons, utf16_nil, append_nil]
  · have htake : (utf8 (c :: cs)).take (stop - t) =
        String.utf8EncodeChar c ++ (utf8 cs).take (stop - (t + len8 c)) := by
      rw [utf8_cons, take_append, take_of_length_le (by rw [← len8]; omega), ← len8,
        Nat.sub_sub]
    have hdropsrc : ((utf8 (c :: cs)).take (stop - t)).drop (len8 c) =
        (utf8 cs).take (stop - (t + len8 c)) := by
      rw [htake, len8, drop_left]
    have hread : readUtf8Sequence ((utf8 (c :: cs)).take (stop - t)) = some c.toNat := by
      rw [htake, readUtf8Sequence_encode]
    rw [if_neg (by omega), hread]
    have hoffset : start + (t + len8 c - start - skip) = 3 ↔ t + len8 c = skip + 3 := by omega
    simp only [bind_some, bom_iff, emitUtf16_eq, hdropsrc,
      show t - start - skip + len8 c = t + len8 c - start - skip by omega, hoffset]
    rw [if_neg (by rw [sizeTMax]; rw [bufferMallocMax] at hmax; omega)]
    split_ifs with hdrop
    · rw [ih b (by omega) (by omega) (by omega) (by omega), Option.map_map]
      rfl
    · have h16 := len16_le c
      obtain ⟨b', hb'⟩ := emit_isSome b
        ((stop - start - skip - (t + len8 c - start - skip)) * 2)
        (utf16EncodeChar_ne_nil order c) (by rw [length_utf16EncodeChar]; omega)
      rw [hb', bind_some, ih b' (by omega) (by omega) (by omega) (by omega),
        Option.map_map, emit_contents (utf16EncodeChar_ne_nil order c) hb']
      simp only [comp_def, utf16_cons, append_assoc]

variable {r : Bytes} {rest : Bytes}

/-- The part of a region that is not skipped is the start of the text that is left. -/
theorem region_drop {text x : Bytes} (hr : text.drop start = r ++ rest)
    (hx : text.drop t = x) (hst : start ≤ t) :
    r.drop (t - start) = x.take (start + r.length - t) := by
  have htake : r = (text.drop start).take r.length := by rw [hr, take_left]
  have hdrop : r.drop (t - start) = ((text.drop start).take r.length).drop (t - start) :=
    congrArg (List.drop (t - start)) htake
  rw [hdrop, drop_take, drop_drop, show start + (t - start) = t by omega, hx,
    show r.length - (t - start) = start + r.length - t by omega]

/-- What has been written before the characters of a region: the first region adds the byte order
mark. -/
def withBom (order : ByteOrder) (start : ℕ) (out : Bytes) : Bytes :=
  if start = 0 then out ++ unitBytes order 0xfeff else out

include hmax in
/-- A region up to its loop: the first region makes room for its characters. -/
theorem toUtf16Region_enter (data : DispatchData) (start skip : ℕ)
    (hlen : r.length ≤ size len8 all) (out : Bytes) :
    ∃ b : Buffer, b.contents = withBom order start out ∧ (start ≠ 0 → b = .flushed out) ∧
      toUtf16Region order data start r ⟨skip, .flushed out⟩ =
        if r.length ≤ skip then some ⟨skip - r.length, b⟩
        else (toUtf16Loop order data start (r.length - skip) (r.length - skip + 1) 0
          (r.drop skip) ⟨0, b⟩).map fun st => ⟨st.skip, .flushed st.buffer.contents⟩ := by
  by_cases h0 : start = 0
  · refine ⟨⟨out, unitBytes order 0xfeff, r.length * 2 + 2⟩, by simp [Buffer.contents, withBom, h0],
      fun h => absurd h0 h, ?_⟩
    have hnew : bufferNew (.flushed out) (r.length * 2 + 2) 0 =
        some ⟨out, [], r.length * 2 + 2⟩ := bufferNew_flushed out (by omega)
    have hwrite : writeUnit order ⟨out, [], r.length * 2 + 2⟩ 0xfeff =
        some ⟨out, unitBytes order 0xfeff, r.length * 2 + 2⟩ := by
      rw [writeUnit, storeU16_swapFromHost order (by omega), write,
        if_pos (by simp [length_unitBytes]), nil_append]
    have hsize : ¬ sizeTMax < r.length * 2 + 2 := by
      rw [sizeTMax]
      rw [bufferMallocMax] at hmax
      omega
    simp [toUtf16Region, h0, if_neg hsize, hnew, hwrite, bufferNew_zero, map_eq_bind]
  · refine ⟨.flushed out, by simp [Buffer.contents, Buffer.flushed, withBom, h0], fun _ => rfl, ?_⟩
    simp [toUtf16Region, if_neg h0, bufferNew_zero, map_eq_bind]

include hdata hmax in
theorem toUtf16Region_eq (out : Bytes) (hr : (utf8 all).drop start = r ++ rest)
    (hcs : (utf8 all).drop t = utf8 cs) (ht : t + size len8 cs = size len8 all) (hst : start ≤ t)
    (hzero : start = 0 → t = 0) (hne : r ≠ []) :
    toUtf16Region order data start r ⟨t - start, .flushed out⟩ =
      (regionReads all (start + r.length) (t - start) t cs).map fun xs =>
        ⟨(restFrom len8 (start + r.length) t cs).1 - (start + r.length),
          .flushed (withBom order start out ++ utf16 order xs)⟩ := by
  have hrpos := length_pos_iff.mpr hne
  have hlen : start + r.length ≤ size len8 all := by
    have := congrArg List.length hr
    rw [length_drop, length_utf8, length_append] at this
    omega
  obtain ⟨b, hb, hbflushed, hregion⟩ :=
    toUtf16Region_enter order hmax data start (t - start) (r := r) (by omega) out
  rw [hregion]
  by_cases hskip : r.length ≤ t - start
  · rw [if_pos hskip, regionReads_of_le (by omega), restFrom_of_le (by omega), map_some,
      ← hb, hbflushed (by omega),
      show t - start - r.length = t - (start + r.length) by omega]
    simp [Buffer.contents, Buffer.flushed]
  · have hloop := toUtf16Loop_eq order hdata hmax hlen b ht
      (show start + (t - start) ≤ t by omega) (by omega)
      (show start + r.length - t < r.length - (t - start) + 1 by omega)
    rw [if_neg hskip, region_drop hr hcs hst]
    rw [show start + r.length - start - (t - start) = r.length - (t - start) by omega,
      show t - start - (t - start) = 0 by omega, hb] at hloop
    have hmap := congrArg (Option.map fun p : ℕ × Bytes => UtfState.mk p.1 (.flushed p.2)) hloop
    rw [Option.map_map, Option.map_map] at hmap
    exact hmap

/-- The characters taken from the regions with the given sizes. -/
def reads (all : List Char) : ℕ → List ℕ → ℕ → List Char → Option (List Char)
  | _, [], _, _ => some []
  | start, size :: sizes, t, cs =>
    (regionReads all (start + size) (t - start) t cs).bind fun xs =>
      (reads all (start + size) sizes (restFrom len8 (start + size) t cs).1
        (restFrom len8 (start + size) t cs).2).map (xs ++ ·)

include hdata hmax in
/-- **The transform writes what `reads` gives.** -/
theorem applyRegions_toUtf16 {rs : List Bytes} (out : Bytes)
    (hne : ∀ r ∈ rs, r ≠ [])
    (hrs : (utf8 all).drop start = rs.flatten) (hcs : (utf8 all).drop t = utf8 cs)
    (ht : t + size len8 cs = size len8 all) (hst : start ≤ t)
    (hzero : start = 0 → t = 0 ∧ rs ≠ []) :
    (applyRegions (toUtf16Region order data) start rs ⟨t - start, .flushed out⟩).map
        (·.buffer.data) =
      (reads all start (rs.map List.length) t cs).map (withBom order start out ++ utf16 order ·) := by
  induction rs generalizing start t cs out with
  | nil =>
    have hstart : start ≠ 0 := fun h => (hzero h).2 rfl
    simp [applyRegions, reads, Buffer.flushed, withBom, hstart]
  | cons r rs ih =>
    have hr : r ≠ [] := hne r (by simp)
    have hrpos := length_pos_iff.mpr hr
    rw [flatten_cons] at hrs
    have hlen : start + r.length ≤ size len8 all := by
      have := congrArg List.length hrs
      rw [length_drop, length_utf8, length_append] at *
      omega
    rw [applyRegions,
      toUtf16Region_eq order hdata hmax out hrs hcs ht hst (fun h => (hzero h).1) hr, map_cons, reads]
    cases hreads : regionReads all (start + r.length) (t - start) t cs with
    | none => rfl
    | some xs =>
      have hstop : start + r.length ≤ (restFrom len8 (start + r.length) t cs).1 :=
        le_restFrom (by omega)
      have hdrop : (utf8 all).drop (start + r.length) = rs.flatten := by
        rw [← drop_drop, hrs, drop_left]
      have hrest := ih (withBom order start out ++ utf16 order xs)
        (fun r' hr' => hne r' (by simp [hr'])) hdrop
        (drop_restFrom (fun c => (rfl : _ = len8 c)) _ hcs) (by rw [restFrom_size, ht]) hstop (by omega)
      rw [map_some, bind_some, hrest, withBom, if_neg (by omega), bind_some, Option.map_map]
      simp only [comp_def, utf16_append, append_assoc]

include hdata hmax in
/-- **To UTF-16.** On a text that is not empty the transform writes a byte order mark and then what
`reads` gives. -/
theorem transformToUtf16_eq (hne : all ≠ []) :
    transformToUtf16 order data = (reads all 0 (data.regions.map List.length) 0 all).map
      (unitBytes order 0xfeff ++ utf16 order ·) := by
  have hregions : data.regions ≠ [] := by
    intro hnil
    obtain ⟨c, cs, rfl⟩ := exists_cons_of_ne_nil hne
    have := congrArg List.length hdata
    rw [DispatchData.bytes, hnil, length_utf8] at this
    have := len8_pos c
    simp at *
    omega
  exact applyRegions_toUtf16 order hdata hmax [] data.regions_ne_nil hdata.symm drop_zero
    (zero_add _) le_rfl fun _ => ⟨rfl, hregions⟩

end Loop

/-! ## Harmless cuts -/

/-- The cut of a region does no harm: the bytes that are read are those of the character, and it
is no byte order mark that the offset test would miss or drop. -/
def ToOk (all : List Char) (v : Visit Char) : Prop :=
  ∀ t c, v.cut = some (t, c) →
    ((utf8 all).drop (t - v.skip)).take (len8 c) = String.utf8EncodeChar c ∧
      ¬ (c = bom ∧ (t = 0 ∨ v.stop = v.skip + 3))

/-- The rest of a text from the position `t` on, without a leading byte order mark. -/
def dropAt (t : ℕ) (cs : List Char) : List Char := if t = 0 then dropBom cs else cs

theorem dropAt_pos (h : t ≠ 0) (cs : List Char) : dropAt t cs = cs := if_neg h

theorem dropAt_nil (t : ℕ) : dropAt t [] = [] := by
  unfold dropAt
  split_ifs <;> rfl

theorem dropAt_cons (t : ℕ) (c : Char) (cs : List Char) :
    dropAt t (c :: cs) = if c = bom ∧ t = 0 then cs else c :: cs := by
  by_cases ht : t = 0
  · simp [dropAt, ht, dropBom]
  · simp [dropAt, ht]

theorem dropAt_append (h : cs ≠ []) (ds : List Char) : dropAt t (cs ++ ds) = dropAt t cs ++ ds := by
  obtain ⟨c, cs, rfl⟩ := exists_cons_of_ne_nil h
  rw [cons_append, dropAt_cons, dropAt_cons]
  split_ifs <;> rfl

/-- The text in front of a position and behind it. -/
theorem dropAt_split (len : Char → ℕ) (h : t = 0 → 0 < stop) (cs : List Char) :
    dropAt t (startingBefore len stop t cs) ++ (restFrom len stop t cs).2 = dropAt t cs := by
  by_cases hstop : stop ≤ t
  · rw [startingBefore_of_le hstop, restFrom_of_le hstop, dropAt_nil, nil_append,
      dropAt_pos (by omega)]
  · cases cs with
    | nil => exact append_nil _
    | cons c cs =>
      have hne : startingBefore len stop t (c :: cs) ≠ [] := by
        rw [startingBefore, if_neg hstop]
        exact cons_ne_nil _ _
      rw [← dropAt_append hne, startingBefore_append]

theorem charAt_some (h : charAt all pos = some c) :
    ∃ cs, (utf8 all).drop pos = String.utf8EncodeChar c ++ utf8 cs := by
  induction all generalizing pos with
  | nil => cases h
  | cons d ds ih =>
    rw [charAt] at h
    split_ifs at h with h0 hin
    · cases h
      exact ⟨ds, by rw [h0]; rfl⟩
    · obtain ⟨cs, hcs⟩ := ih h
      refine ⟨cs, ?_⟩
      rw [utf8_cons, drop_append, drop_of_length_le (not_lt.mp hin)]
      exact hcs

theorem readAhead_eq_some_iff
    (h : pos + len8 c ≤ size len8 all) : readAhead all pos (len8 c) = some c ↔
      ((utf8 all).drop pos).take (len8 c) = String.utf8EncodeChar c := by
  constructor
  · intro hread
    obtain ⟨hchar, -⟩ := filter_eq_some_iff.mp hread
    obtain ⟨cs, hcs⟩ := charAt_some hchar
    rw [hcs, len8, take_left]
  · intro hslice
    have hread := readUtf8Sequence_text (len8_pos c) (len8_lt c) h
    rw [hslice, ← append_nil (String.utf8EncodeChar c), readUtf8Sequence_encode] at hread
    obtain ⟨x, hx, hxc⟩ := map_eq_some_iff.mp hread.symm
    rw [hx, Char.toNat_inj.mp hxc]

section Region

variable {all : List Char} {start stop skip : ℕ}

/-- Inside a region only a leading byte order mark is dropped. -/
theorem inside_eq (hzero : start = 0 → skip = 0) (hst : start + skip ≤ t) (c : Char)
    (xs : List Char) :
    (if c = bom ∧ t + len8 c = skip + 3 then xs else c :: xs) = dropAt t (c :: xs) := by
  have hiff : c = bom ∧ t + len8 c = skip + 3 ↔ c = bom ∧ t = 0 := by
    refine and_congr_right fun hc => ?_
    rw [hc, show len8 bom = 3 by decide]
    omega
  rw [dropAt_cons]
  simp only [hiff]

/-- A region without a cut gives the characters that start in it. -/
theorem regionReads_of_cutAt_none (all : List Char) (hzero : start = 0 → skip = 0)
    (hst : start + skip ≤ t) (hcut : cutAt len8 stop t cs = none) :
    regionReads all stop skip t cs = some (dropAt t (startingBefore len8 stop t cs)) := by
  induction cs generalizing t with
  | nil => rw [regionReads, startingBefore, dropAt_nil]
  | cons c cs ih =>
    have hpos := len8_pos c
    rw [cutAt] at hcut
    rw [regionReads, startingBefore]
    by_cases h1 : stop ≤ t
    · rw [if_pos h1, if_pos h1, dropAt_nil]
    · split_ifs at hcut with h2
      rw [if_neg h1, if_neg h1, if_neg h2, ih (by omega) hcut, map_some,
        inside_eq hzero hst, dropAt_pos (show t + len8 c ≠ 0 by omega)]

/-- A region with a cut gives the characters before it, and what is read ahead. -/
theorem regionReads_of_cutAt_some (all : List Char) (hzero : start = 0 → skip = 0)
    (hst : start + skip ≤ t) {u : ℕ} {d : Char} (hcut : cutAt len8 stop t cs = some (u, d)) :
    ∃ before, startingBefore len8 stop t cs = before ++ [d] ∧ t + size len8 before = u ∧
      regionReads all stop skip t cs = (readAhead all (u - skip) (len8 d)).map fun x =>
        dropAt t before ++ if x = bom ∧ stop = skip + 3 then [] else [x] := by
  induction cs generalizing t with
  | nil => cases hcut
  | cons c cs ih =>
    have hpos := len8_pos c
    rw [cutAt] at hcut
    rw [regionReads, startingBefore]
    by_cases h1 : stop ≤ t
    · rw [if_pos h1] at hcut
      cases hcut
    rw [if_neg h1, if_neg h1]
    split_ifs at hcut with h2
    · obtain ⟨rfl, rfl⟩ := Prod.mk.inj (some.inj hcut)
      refine ⟨[], by rw [startingBefore_of_le h2.le]; rfl, by simp, ?_⟩
      · rw [if_pos h2, dropAt_nil]
        rfl
    · obtain ⟨before, hbefore, hsize, hreads⟩ := ih (by omega) hcut
      refine ⟨c :: before, by rw [hbefore]; rfl, by rw [size_cons]; omega, ?_⟩
      rw [if_neg h2, hreads, Option.map_map]
      congr 1
      funext x
      rw [comp_apply, inside_eq hzero hst, dropAt_pos (show t + len8 c ≠ 0 by omega),
        ← cons_append, dropAt_append (by simp)]

variable {xs : List Char}

/-- No more characters than start in the region. -/
theorem regionReads_length_le (h : regionReads all stop skip t cs = some xs) :
    xs.length ≤ (startingBefore len8 stop t cs).length := by
  induction cs generalizing t xs with
  | nil =>
    cases h
    exact le_rfl
  | cons c cs ih =>
    rw [regionReads] at h
    rw [startingBefore]
    by_cases h1 : stop ≤ t
    · rw [if_pos h1] at h ⊢
      cases h
      exact le_rfl
    · rw [if_neg h1] at h ⊢
      by_cases h2 : stop < t + len8 c
      · rw [if_pos h2] at h
        obtain ⟨x, -, rfl⟩ := map_eq_some_iff.mp h
        split_ifs <;> simp
      · rw [if_neg h2] at h
        obtain ⟨ys, hys, rfl⟩ := map_eq_some_iff.mp h
        have := ih hys
        split_ifs <;> simp <;> omega

/-- No fewer characters, if none is dropped. -/
theorem regionReads_length_ge (hskip : skip < t)
    (hcut : ∀ u, t ≤ u → u < stop → stop = skip + 3 → charAt all (u - skip) = none)
    (h : regionReads all stop skip t cs = some xs) :
    (startingBefore len8 stop t cs).length ≤ xs.length := by
  have hzero : 1 = 0 → skip = 0 := by omega
  rcases hc : cutAt len8 stop t cs with _ | ⟨u, d⟩
  · rw [regionReads_of_cutAt_none all hzero (by omega) hc, dropAt_pos (by omega)] at h
    rw [some.inj h]
  · obtain ⟨htu, hu, -⟩ := cutAt_spec hc
    obtain ⟨before, hbefore, -, hreads⟩ := regionReads_of_cutAt_some all hzero (by omega) hc
    rw [hreads, dropAt_pos (by omega)] at h
    obtain ⟨x, hx, rfl⟩ := map_eq_some_iff.mp h
    rw [hbefore, if_neg]
    · simp
    · rintro ⟨-, hstop⟩
      obtain ⟨hchar, -⟩ := filter_eq_some_iff.mp hx
      rw [hcut u htu hu hstop] at hchar
      cases hchar

end Region

section Regions

variable {all : List Char}

theorem length_split (stop t : ℕ) (cs : List Char) :
    (startingBefore len8 stop t cs).length + (restFrom len8 stop t cs).2.length = cs.length := by
  rw [← length_append, startingBefore_append]

variable {sizes : List ℕ} {start : ℕ} {ys : List Char}

theorem reads_length_le (h : reads all start sizes t cs = some ys) : ys.length ≤ cs.length := by
  induction sizes generalizing start t cs ys with
  | nil =>
    cases h
    exact zero_le
  | cons size sizes ih =>
    obtain ⟨xs, hxs, h⟩ := bind_eq_some_iff.mp h
    obtain ⟨zs, hzs, rfl⟩ := map_eq_some_iff.mp h
    have h1 := regionReads_length_le hxs
    have h2 := ih hzs
    have h3 := length_split (start + size) t cs
    rw [length_append]
    omega

/-- Behind a byte order mark that the end of the first region cuts, none is dropped. -/
theorem reads_length_ge {tail : List Char}
    (hall : all = bom :: tail) (hsum : start + sizes.sum = size len8 all)
    (ht : t + size len8 cs = size len8 all) (hst : start ≤ t) (hstart : 0 < start)
    (hthree : start < 3 → t = 3) (h : reads all start sizes t cs = some ys) :
    cs.length ≤ ys.length := by
  induction sizes generalizing start t cs ys with
  | nil =>
    simp only [sum_nil] at hsum
    rw [eq_nil_of_size len8_pos (by omega : size len8 cs = 0)]
    exact zero_le
  | cons size sizes ih =>
    obtain ⟨xs, hxs, h⟩ := bind_eq_some_iff.mp h
    obtain ⟨zs, hzs, rfl⟩ := map_eq_some_iff.mp h
    rw [sum_cons] at hsum
    have hstop : start + size ≤ (restFrom len8 (start + size) t cs).1 := le_restFrom (by omega)
    have h1 := regionReads_length_ge (by omega) (fun u hu hstopu hskip => ?_) hxs
    · have h2 := ih (by omega) (by rw [restFrom_size, ht]) hstop (by omega) (fun hlt => ?_) hzs
      · have h3 := length_split (start + size) t cs
        rw [length_append]
        omega
      · rw [restFrom_of_le (by omega)]
        exact hthree (by omega)
    · -- the offset of the read-ahead is inside the byte order mark
      rw [hall, charAt, if_neg (by omega), if_pos]
      rw [show len8 bom = 3 by decide]
      omega

/-- The condition on one region with a cut, given that the other regions do no harm. -/
theorem reads_cut_iff {size u : ℕ} {d : Char} (hsum : start + size + sizes.sum = Lib.size len8 all)
    (ht : t + Lib.size len8 (c :: cs) = Lib.size len8 all) (hst : start ≤ t)
    (hzero : start = 0 → t = 0) (hall : t = 0 → c :: cs = all)
    (hcut : cutAt len8 (start + size) t (c :: cs) = some (u, d)) :
    reads all start (size :: sizes) t (c :: cs) = some (dropAt t (c :: cs)) ↔
      ToOk all ⟨start, start + size, t - start, c, some (u, d)⟩ ∧
        reads all (start + size) sizes (restFrom len8 (start + size) t (c :: cs)).1
          (restFrom len8 (start + size) t (c :: cs)).2 =
            some (restFrom len8 (start + size) t (c :: cs)).2 := by
  obtain ⟨htu, hu, hud, hrest, -⟩ := cutAt_spec hcut
  obtain ⟨before, hbefore, hsize, hreads⟩ :=
    regionReads_of_cutAt_some all (show start = 0 → t - start = 0 by omega) (by omega) hcut
  have happend : startingBefore len8 (start + size) t (c :: cs) ++ _ = _ :=
    startingBefore_append (start + size) t (c :: cs)
  have hsizes : _ + Lib.size len8 _ = _ := restFrom_size (start + size) t (c :: cs)
  generalize hR : restFrom len8 (start + size) t (c :: cs) = R at *
  rw [hbefore, append_assoc, singleton_append] at happend
  have hfits : u - (t - start) + len8 d ≤ Lib.size len8 all := by omega
  -- the expected characters, unless the cut one is a leading byte order mark
  have hexpected : ¬ (d = bom ∧ u = 0) →
      dropAt t (c :: cs) = dropAt t before ++ d :: R.2 := fun hlead => by
    rw [← happend]
    by_cases hb : before = []
    · subst hb
      rw [nil_append, dropAt_nil, dropAt_cons]
      simpa [← hsize] using hlead
    · exact dropAt_append hb _
  rw [reads, hreads, hR]
  constructor
  · intro h
    obtain ⟨xs, hxs, h⟩ := bind_eq_some_iff.mp h
    obtain ⟨x, hx, rfl⟩ := map_eq_some_iff.mp hxs
    obtain ⟨ys, hys, heq⟩ := map_eq_some_iff.mp h
    by_cases hlead : d = bom ∧ u = 0
    · obtain ⟨rfl, rfl⟩ := hlead
      have hb : before = [] := eq_nil_of_size len8_pos (by omega)
      obtain rfl : t = 0 := by omega
      subst hb
      have hcs : all = bom :: R.2 := by rw [← hall rfl, ← happend]; rfl
      have hlen3 : len8 bom = 3 := by decide
      have hlen := reads_length_ge hcs hsum (by omega) (by omega) (by omega) (by omega) hys
      rw [if_neg (by omega), dropAt_nil, ← happend, nil_append, nil_append,
        dropAt_cons, if_pos ⟨rfl, rfl⟩] at heq
      rw [← heq, length_append, length_singleton] at hlen
      omega
    · rw [hexpected hlead, append_assoc] at heq
      have heq' := append_cancel_left heq
      split_ifs at heq' with hdrop
      · have := reads_length_le hys
        rw [nil_append] at heq'
        rw [heq', length_cons] at this
        omega
      · obtain ⟨rfl, rfl⟩ := List.cons.inj heq'
        refine ⟨?_, hys⟩
        intro t' c' hk
        obtain ⟨rfl, rfl⟩ := Prod.mk.inj (some.inj hk)
        refine ⟨(readAhead_eq_some_iff hfits).mp hx, ?_⟩
        rintro ⟨hbom, hu0 | hoff⟩
        · exact hlead ⟨hbom, hu0⟩
        · exact hdrop ⟨hbom, hoff⟩
  · rintro ⟨hok, hreadsrest⟩
    obtain ⟨hslice, hnot⟩ := hok u d rfl
    rw [(readAhead_eq_some_iff hfits).mpr hslice, map_some, bind_some, hreadsrest,
      map_some, if_neg (fun h => hnot ⟨h.1, Or.inr h.2⟩),
      hexpected (fun h => hnot ⟨h.1, Or.inl h.2⟩), append_assoc, singleton_append]

/-- **When nothing depends on the regions.** -/
theorem reads_iff (hpos : ∀ n ∈ sizes, 0 < n)
    (hsum : start + sizes.sum = size len8 all) (ht : t + size len8 cs = size len8 all)
    (hst : start ≤ t) (hzero : start = 0 → t = 0) (hall : t = 0 → cs = all) :
    reads all start sizes t cs = some (dropAt t cs) ↔
      ∀ v ∈ visits len8 start sizes t cs, ToOk all v := by
  induction sizes generalizing start t cs with
  | nil =>
    simp only [sum_nil] at hsum
    rw [eq_nil_of_size len8_pos (by omega : size len8 cs = 0), dropAt_nil]
    simp [reads, visits]
  | cons size sizes ih =>
    have hsize : 0 < size := hpos size (by simp)
    rw [sum_cons, ← add_assoc] at hsum
    have hstop : start + size ≤ (restFrom len8 (start + size) t cs).1 := le_restFrom (by omega)
    have hsize' : (restFrom len8 (start + size) t cs).1 +
        Lib.size len8 (restFrom len8 (start + size) t cs).2 = Lib.size len8 all := by
      rw [restFrom_size, ht]
    have hrest := ih (fun n hn => hpos n (by simp [hn])) hsum hsize' hstop (by omega) (by omega)
    rw [dropAt_pos (by omega)] at hrest
    rw [forall_visits_cons, ← hrest]
    rcases hcut : cutAt len8 (start + size) t cs with _ | ⟨u, d⟩
    · have hok : ∀ c cs', cs = c :: cs' → t < start + size →
          ToOk all ⟨start, start + size, t - start, c, none⟩ := by
        rintro c cs' - - u d ⟨⟩
      rw [and_iff_right hok, reads, regionReads_of_cutAt_none all
        (show start = 0 → t - start = 0 by omega) (by omega) hcut, bind_some,
        ← dropAt_split len8 (show t = 0 → 0 < start + size by omega) cs, ← map_some]
      exact (Option.map_injective (append_right_injective _)).eq_iff
    · obtain ⟨c, cs, rfl⟩ : ∃ c cs', cs = c :: cs' := by
        cases cs with
        | nil => cases hcut
        | cons c cs => exact ⟨c, cs, rfl⟩
      obtain ⟨htu, hu, -⟩ := cutAt_spec hcut
      rw [reads_cut_iff hsum ht hst hzero hall hcut]
      refine and_congr_left fun _ => ⟨?_, fun hok => hok c cs rfl (by omega)⟩
      rintro hok c' cs' ⟨rfl, rfl⟩ -
      exact hok

end Regions

end Apple.Dispatch.Utf
