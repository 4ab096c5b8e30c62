import Apple.Dispatch.UtfFrom

/-!
# The UTF transforms on whole texts

Results:
* `utf_roundTrip`: on one region the two transforms are the encodings of the text, without its
  leading byte order mark, and inverse to each other.
* `utf_fragmentation`: when the result on a text in several regions is that on the contiguous
  text. It depends on where the regions end.
-/

namespace Apple.Dispatch.Utf

open Lib List

/-! ## To UTF-16 -/

/-- The result of `_dispatch_transform_to_utf16` on a contiguous text. -/
def toUtf16Text (order : ByteOrder) (all : List Char) : Bytes :=
  if all = [] then [] else unitBytes order 0xfeff ++ utf16 order (dropBom all)

section To

variable {order : ByteOrder} {data : DispatchData} {all : List Char}

theorem regions_eq_nil (h : data.bytes = []) : data.regions = [] := by
  cases hregions : data.regions with
  | nil => rfl
  | cons r rs =>
    have hr := data.regions_ne_nil r (by rw [hregions]; simp)
    rw [DispatchData.bytes, hregions, flatten_cons, append_eq_nil_iff] at h
    exact absurd h.1 hr

theorem sum_regions (data : DispatchData) :
    (data.regions.map List.length).sum = data.bytes.length := by
  rw [DispatchData.bytes, length_flatten]

theorem regions_pos (data : DispatchData) : ∀ n ∈ data.regions.map List.length, 0 < n := by
  intro n hn
  obtain ⟨r, hr, rfl⟩ := List.mem_map.mp hn
  exact length_pos_iff.mpr (data.regions_ne_nil r hr)

theorem transformToUtf16_iff (order : ByteOrder) (hdata : data.bytes = utf8 all)
    (hmax : size len8 all * 2 + 2 ≤ bufferMallocMax) :
    transformToUtf16 order data = some (toUtf16Text order all) ↔
      ∀ v ∈ visits len8 0 (data.regions.map List.length) 0 all, ToOk all v := by
  by_cases hall : all = []
  · subst hall
    simp [transformToUtf16, dispatchDataApply, regions_eq_nil hdata, applyRegions, Buffer.empty,
      toUtf16Text, visits]
  · have hinj : Function.Injective (unitBytes order 0xfeff ++ utf16 order ·) := fun xs ys h =>
      (prefixCode_utf16 order).flatMap_injective (append_cancel_left h)
    rw [transformToUtf16_eq order hdata hmax hall, toUtf16Text, if_neg hall,
      ← reads_iff (regions_pos data) (by rw [sum_regions, hdata, length_utf8, zero_add])
        (zero_add _) le_rfl (fun _ => rfl) (fun _ => rfl)]
    rw [Option.map_eq_some_iff]
    constructor
    · rintro ⟨xs, hxs, he⟩
      rw [hxs, hinj he]
      rfl
    · exact fun h => ⟨_, h, rfl⟩

end To

/-! ## Contiguous texts -/

section Contiguous

variable {order : ByteOrder} {all : List Char}

theorem eq_contiguous {data : DispatchData} {b : Bytes} (h : data.regions = [b]) :
    data = .contiguous b := by
  have hb : b ≠ [] := data.regions_ne_nil b (by rw [h]; simp)
  obtain ⟨regions, hne⟩ := data
  obtain rfl : regions = [b] := h
  simp [DispatchData.contiguous, hb]

/-- In a contiguous text nothing is cut. -/
theorem visits_contiguous {len : Char → ℕ} {b : Bytes} (hb : b.length = size len all) : ∀ v ∈
    visits len 0 ((DispatchData.contiguous b).regions.map List.length) 0 all,
      v.start = 0 ∧ v.cut = none := by
  intro v hv
  by_cases h : b = []
  · have hregions : (DispatchData.contiguous b).regions = [] := if_pos h
    rw [hregions] at hv
    cases hv
  · have hregions : (DispatchData.contiguous b).regions = [b] := if_neg h
    rw [hregions, map_singleton, hb] at hv
    exact visits_single hv

theorem toUtf16_contiguous (order : ByteOrder) (hmax : size len8 all * 2 + 2 ≤ bufferMallocMax) :
    transformToUtf16 order (.contiguous (utf8 all)) = some (toUtf16Text order all) := by
  rw [transformToUtf16_iff order (DispatchData.contiguous_bytes _) hmax]
  intro v hv t c hcut
  rw [(visits_contiguous (length_utf8 all) v hv).2] at hcut
  cases hcut

/-- A contiguous text whose buffer would be too large is rejected. -/
theorem toUtf16_tooLarge {b : Bytes} (hbig : bufferMallocMax < b.length * 2 + 2) :
    transformToUtf16 order (.contiguous b) = none := by
  have hb : b ≠ [] := by
    rintro rfl
    exact absurd hbig (by decide)
  have hnew : bufferNew .empty (b.length * 2 + 2) 0 = none := by
    rw [bufferNew, if_pos (Or.inr (by simp [Buffer.empty])), if_pos hbig]
  have hregion : toUtf16Region order (.contiguous b) 0 b ⟨0, .empty⟩ = none := by
    rw [toUtf16Region]
    simp [hnew]
  have hregions : (DispatchData.contiguous b).regions = [b] := if_neg hb
  rw [transformToUtf16, dispatchDataApply, hregions, applyRegions, hregion]
  rfl

theorem fromUtf16_contiguous (hmax : howmany (size len16 all) 3 * 2 ≤ bufferMallocMax)
    (hswapped : all.head? ≠ some swappedBom) :
    transformFromUtf16 order (.contiguous (utf16 order all)) = some (utf8 (dropBom all)) := by
  rw [transformFromUtf16_iff (DispatchData.contiguous_bytes _)]
  refine ⟨fun r hr => ?_, hswapped, fun v hv => ?_⟩
  · obtain rfl : utf16 order all = r := by
      rw [DispatchData.contiguous] at hr
      split_ifs at hr
      · cases hr
      · exact Option.some.inj hr
    rwa [length_utf16]
  · obtain ⟨hstart, hcut⟩ := visits_contiguous (length_utf16 order all) v hv
    refine ⟨fun h => absurd hstart h, fun t c h => ?_⟩
    rw [hcut] at h
    cases h

/-- What a contiguous text is rejected for. -/
theorem fromUtf16_some {out : Bytes}
    (h : transformFromUtf16 order (.contiguous (utf16 order all)) = some out) :
    howmany (size len16 all) 3 * 2 ≤ bufferMallocMax ∧ all.head? ≠ some swappedBom := by
  cases all with
  | nil => exact ⟨by decide, by simp⟩
  | cons c cs =>
    have hne : utf16 order (c :: cs) ≠ [] := by
      exact append_ne_nil_of_left_ne_nil (utf16EncodeChar_ne_nil order c) _
    have hregions : (DispatchData.contiguous (utf16 order (c :: cs))).regions =
        [utf16 order (c :: cs)] := if_neg hne
    rw [transformFromUtf16, dispatchDataApply, hregions] at h
    obtain ⟨st, hbind, -⟩ := Option.map_eq_some_iff.mp h
    obtain ⟨st₁, hregion, -⟩ := Option.bind_eq_some_iff.mp hbind
    rw [← length_utf16 order (c :: cs)]
    exact fromUtf16Region_first (DispatchData.contiguous_bytes _) (append_nil _).symm hne hregion

end Contiguous

/-! ## Main results -/

theorem size_len16_le (cs : List Char) : size len16 cs ≤ 2 * size len8 cs := by
  induction cs with
  | nil => exact le_rfl
  | cons c cs ih =>
    have hc := (len16_le c).1
    rw [size_cons, size_cons]
    omega

theorem size_dropBom_le (cs : List Char) : size len8 (dropBom cs) ≤ size len8 cs := by
  cases cs with
  | nil => exact le_rfl
  | cons c cs =>
    rw [dropBom]
    split_ifs
    · rw [size_cons]
      omega
    · exact le_rfl

theorem utf16_bom (order : ByteOrder) (cs : List Char) :
    utf16 order (bom :: cs) = unitBytes order 0xfeff ++ utf16 order cs := by
  rw [utf16_cons, utf16EncodeChar, show utf16Units bom = [0xfeff] by decide,
    flatMap_singleton]

/-- **Round trip.** A text that is held in one region, and whose first buffer is not too large, is
turned into a byte order mark and its UTF-16 encoding, and that, in one region, back into the
text, both times without a leading byte order mark. -/
theorem utf_roundTrip (order : ByteOrder) (s : List Char) (data data' : DispatchData)
    (hdata : data.regions = [utf8 s]) (hmax : (utf8 s).length * 2 + 2 ≤ bufferMallocMax)
    (hdata' : data'.regions = [unitBytes order 0xfeff ++ utf16 order (dropBom s)]) :
    transformToUtf16 order data = some (unitBytes order 0xfeff ++ utf16 order (dropBom s)) ∧
      transformFromUtf16 order data' = some (utf8 (dropBom s)) := by
  have hne : s ≠ [] := by
    rintro rfl
    exact data.regions_ne_nil [] (by rw [hdata]; simp) rfl
  rw [length_utf8] at hmax
  constructor
  · rw [eq_contiguous hdata, toUtf16_contiguous order hmax, toUtf16Text, if_neg hne]
  · rw [← utf16_bom] at hdata'
    have h16 := size_len16_le (dropBom s)
    have h8 := size_dropBom_le s
    have hlen : len16 bom = 2 := by decide
    have hfits : howmany (size len16 (bom :: dropBom s)) 3 * 2 ≤ bufferMallocMax := by
      rw [size_cons, howmany]
      omega
    rw [eq_contiguous hdata', fromUtf16_contiguous hfits (by simp [bom, swappedBom]), dropBom,
      if_pos rfl]

theorem utf_roundTrip_clef : transformToUtf16 .big (.contiguous (utf8 [bom, 'a', '𝄞'])) =
        some [0xfe, 0xff, 0x00, 0x61, 0xd8, 0x34, 0xdd, 0x1e] ∧
      transformFromUtf16 .big (.contiguous [0xfe, 0xff, 0x00, 0x61, 0xd8, 0x34, 0xdd, 0x1e]) =
        some (utf8 ['a', '𝄞']) :=
  utf_roundTrip .big [bom, 'a', '𝄞'] _ _ (by decide) (by decide) (by decide)

/-- **Fragmentation.** On a text in several regions the transforms give what they give on the
contiguous text exactly if the contiguous text is not rejected and no region does harm. -/
theorem utf_fragmentation (order : ByteOrder) {all all' : List Char} {data data' : DispatchData}
    (hdata : data.bytes = utf8 all) (hdata' : data'.bytes = utf16 order all') :
    ((∃ out, transformToUtf16 order data = some out ∧
        transformToUtf16 order (.contiguous data.bytes) = some out) ↔
      data.bytes.length * 2 + 2 ≤ bufferMallocMax ∧
        ∀ v ∈ visits len8 0 (data.regions.map List.length) 0 all, ToOk all v) ∧
    ((∃ out, transformFromUtf16 order data' = some out ∧
        transformFromUtf16 order (.contiguous data'.bytes) = some out) ↔
      howmany data'.bytes.length 3 * 2 ≤ bufferMallocMax ∧ all'.head? ≠ some swappedBom ∧
        ∀ v ∈ visits len16 0 (data'.regions.map List.length) 0 all', FromOk order all' v) := by
  constructor
  · rw [hdata, length_utf8]
    constructor
    · rintro ⟨out, h, hone⟩
      have hmax : size len8 all * 2 + 2 ≤ bufferMallocMax := by
        by_contra hbig
        rw [toUtf16_tooLarge (by rw [length_utf8]; omega)] at hone
        cases hone
      rw [toUtf16_contiguous order hmax] at hone
      exact ⟨hmax, (transformToUtf16_iff order hdata hmax).mp (h.trans hone.symm)⟩
    · rintro ⟨hmax, hok⟩
      exact ⟨_, (transformToUtf16_iff order hdata hmax).mpr hok, toUtf16_contiguous order hmax⟩
  · rw [hdata', length_utf16]
    constructor
    · rintro ⟨out, h, hone⟩
      obtain ⟨hmax, hswapped⟩ := fromUtf16_some hone
      rw [fromUtf16_contiguous hmax hswapped] at hone
      exact ⟨hmax, hswapped, ((transformFromUtf16_iff hdata').mp (h.trans hone.symm)).2.2⟩
    · rintro ⟨hmax, hswapped, hok⟩
      refine ⟨_, (transformFromUtf16_iff hdata').mpr ⟨fun r hr => ?_, hswapped, hok⟩,
        fromUtf16_contiguous hmax hswapped⟩
      have hle : r.length ≤ size len16 all' := by
        rw [← length_utf16 order, ← hdata', ← sum_regions]
        exact le_sum_of_mem (List.mem_map_of_mem (mem_of_mem_head? hr))
      rw [howmany] at hmax ⊢
      omega

/-- The letter é in two regions, and the letter a. -/
def cutLetter : DispatchData := ⟨[[0xc3], [0xa9]], by decide⟩

def cutUnit : DispatchData := ⟨[[0x61], [0x00]], by decide⟩

theorem utf_fragmentation_twoRegions :
    (cutLetter.bytes = utf8 ['é'] ∧ cutUnit.bytes = utf16 .little ['a']) ∧
    ((∃ out, transformToUtf16 .little cutLetter = some out ∧
        transformToUtf16 .little (.contiguous cutLetter.bytes) = some out) ↔
      cutLetter.bytes.length * 2 + 2 ≤ bufferMallocMax ∧
        ∀ v ∈ visits len8 0 (cutLetter.regions.map List.length) 0 ['é'], ToOk ['é'] v) ∧
    ((∃ out, transformFromUtf16 .little cutUnit = some out ∧
        transformFromUtf16 .little (.contiguous cutUnit.bytes) = some out) ↔
      howmany cutUnit.bytes.length 3 * 2 ≤ bufferMallocMax ∧ ['a'].head? ≠ some swappedBom ∧
        ∀ v ∈ visits len16 0 (cutUnit.regions.map List.length) 0 ['a'], FromOk .little ['a'] v) :=
  ⟨⟨by decide, by decide⟩, utf_fragmentation .little (by decide) (by decide)⟩

/-- A byte order mark in two regions. -/
def cutMark : DispatchData := ⟨[[0xef], [0xbb, 0xbf]], by decide⟩

/-- The text ab, with a region that starts and ends inside a unit. -/
def cutUnits : DispatchData := ⟨[[0x61], [0x00, 0x62], [0x00]], by decide⟩

/-- A byte order mark that is cut is not dropped, and a unit that is cut is read one byte too
early: ab becomes a and U+6200. -/
theorem utf_fragmentation_fails : (cutMark.bytes = utf8 [bom] ∧
      transformToUtf16 .little cutMark = some [0xff, 0xfe, 0xff, 0xfe] ∧
      transformToUtf16 .little (.contiguous cutMark.bytes) = some [0xff, 0xfe]) ∧
    (cutUnits.bytes = utf16 .little ['a', 'b'] ∧
      transformFromUtf16 .little cutUnits = some [0x61, 0xe6, 0x88, 0x80] ∧
      transformFromUtf16 .little (.contiguous cutUnits.bytes) = some [0x61, 0x62]) := by
  decide

end Apple.Dispatch.Utf
