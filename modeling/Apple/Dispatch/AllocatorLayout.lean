import Apple.Lib.BitField

/-!
# The magazines of the continuation allocator

Sizes and addresses of the continuation allocator (`libdispatch-913.60.2/src/allocator_internal.h`,
lines 68–279, and `allocator.c`, lines 65–215). A heap is an array of magazines, one for each CPU.
A magazine is aligned to its size and holds a header, the supermaps, the bitmaps and the
continuations; some configurations put continuations into the first page too.

`Config` computes the macros, `Layout` adds the facts about them that the addresses rely on, with
the configurations of the header as instances. A `Slot` is a continuation of a magazine.

Results: the two directions of the address computation are inverse to each other
(`getMapsAndIndices_continuationAddress`, `getMapsAndIndices_fpContAddress`,
`getContAndIndices_bitmapAddress`), and the slots of a page are those of the bitmaps that the
source finds for it (`Slot.pageBitmaps_eq`, `Slot.bitmap_of_pageBase_eq`).
-/

namespace Apple.Dispatch.Allocator

open Lib Nat

/-! ## The macros -/

/-- What the configuration chooses. -/
structure Config where
  /-- the bits of a `uintptr_t` -/
  pointerBits : ℕ
  bytesPerBitmap : ℕ
  /-- `DISPATCH_ALLOCATOR_PAGE_SIZE` is `2 ^ pageShift` -/
  pageShift : ℕ
  pagesPerMagazine : ℕ
  continuationSize : ℕ
  sizeofHeader : ℕ
  /-- `PACK_FIRST_PAGE_WITH_CONTINUATIONS` -/
  packFirstPage : Bool

namespace Config

variable (cfg : Config)

/-- `x & ~(size - 1)` -/
def clearLow (x size : ℕ) : ℕ := x &&& (2 ^ cfg.pointerBits - 1 - (size - 1))

def bytesPerPage : ℕ := 2 ^ cfg.pageShift
def continuationsPerBitmap : ℕ := cfg.bytesPerBitmap * 8
def bytesPerSupermap : ℕ := cfg.bytesPerBitmap
def bitmapsPerSupermap : ℕ := cfg.bytesPerSupermap * 8
def bytesPerMagazine : ℕ := cfg.pagesPerMagazine * cfg.bytesPerPage

def consumedBytesPerBitmap : ℕ :=
  cfg.bytesPerBitmap + cfg.continuationSize * cfg.continuationsPerBitmap

def consumedBytesPerSupermap : ℕ :=
  cfg.bytesPerSupermap + cfg.bitmapsPerSupermap * cfg.consumedBytesPerBitmap

def continuationsPerPage : ℕ := cfg.bytesPerPage / cfg.continuationSize
def bitmapsPerPage : ℕ := cfg.continuationsPerPage / cfg.continuationsPerBitmap

def supermapsPerMagazine : ℕ :=
  (cfg.bytesPerMagazine - cfg.bytesPerPage) / cfg.consumedBytesPerSupermap

def bitmapsPerMagazine : ℕ := cfg.supermapsPerMagazine * cfg.bitmapsPerSupermap
def continuationsPerMagazine : ℕ := cfg.bitmapsPerMagazine * cfg.continuationsPerBitmap

def roundUpToBitmapAlignment (x : ℕ) : ℕ :=
  cfg.clearLow (x + (cfg.bitmapsPerPage * cfg.bytesPerBitmap - 1))
    (cfg.bitmapsPerPage * cfg.bytesPerBitmap)

def roundUpToContinuationSize (x : ℕ) : ℕ :=
  cfg.clearLow (x + (cfg.continuationSize - 1)) cfg.continuationSize

def sizeofSupermaps : ℕ := cfg.bytesPerSupermap * cfg.supermapsPerMagazine
def sizeofMaps : ℕ := cfg.bytesPerBitmap * cfg.bitmapsPerSupermap * cfg.supermapsPerMagazine

def supermapsToMapsPadding : ℕ :=
  cfg.roundUpToContinuationSize
      (cfg.roundUpToBitmapAlignment (cfg.sizeofSupermaps + cfg.sizeofHeader)) -
    (cfg.sizeofSupermaps + cfg.sizeofHeader)

def mapsToFpmapsPadding : ℕ := cfg.roundUpToContinuationSize cfg.sizeofMaps - cfg.sizeofMaps

def bytesLeftInFirstPage : ℕ :=
  cfg.bytesPerPage - (cfg.sizeofHeader + cfg.sizeofSupermaps + cfg.supermapsToMapsPadding +
    cfg.sizeofMaps + cfg.mapsToFpmapsPadding)

def fullBitmapsInFirstPage : ℕ := cfg.bytesLeftInFirstPage / cfg.consumedBytesPerBitmap

def remainderInFirstPage : ℕ :=
  cfg.bytesLeftInFirstPage - cfg.fullBitmapsInFirstPage * cfg.consumedBytesPerBitmap -
    if cfg.fullBitmapsInFirstPage ≠ 0 then 0 else cfg.roundUpToContinuationSize cfg.bytesPerBitmap

def remainderedContinuationsInFirstPage : ℕ := cfg.remainderInFirstPage / cfg.continuationSize

def continuationsInFirstPage : ℕ :=
  cfg.fullBitmapsInFirstPage * cfg.continuationsPerBitmap +
    cfg.remainderedContinuationsInFirstPage

def bitmapsInFirstPage : ℕ :=
  cfg.fullBitmapsInFirstPage + if cfg.remainderedContinuationsInFirstPage = 0 then 0 else 1

def fpmapsToFpcontsPadding : ℕ :=
  cfg.roundUpToContinuationSize (cfg.bytesPerBitmap * cfg.bitmapsInFirstPage) -
    cfg.bytesPerBitmap * cfg.bitmapsInFirstPage

/-! The offsets of the fields of `struct dispatch_magazine_s`. -/

def supermapsOffset : ℕ := cfg.sizeofHeader
def mapsOffset : ℕ := cfg.supermapsOffset + cfg.sizeofSupermaps + cfg.supermapsToMapsPadding
def fpMapsOffset : ℕ := cfg.mapsOffset + cfg.sizeofMaps + cfg.mapsToFpmapsPadding

def fpContsOffset : ℕ :=
  cfg.fpMapsOffset + cfg.bytesPerBitmap * cfg.bitmapsInFirstPage + cfg.fpmapsToFpcontsPadding

def contsOffset : ℕ :=
  if cfg.packFirstPage then
    cfg.fpContsOffset + cfg.continuationSize * cfg.continuationsInFirstPage
  else cfg.fpMapsOffset + cfg.bytesLeftInFirstPage

/-! ## Addresses -/

/-- `supermap_address` -/
def supermapAddress (magazine supermap : ℕ) : ℕ :=
  magazine + cfg.supermapsOffset + supermap * cfg.bytesPerBitmap

/-- `bitmap_address` -/
def bitmapAddress (magazine supermap map : ℕ) : ℕ :=
  magazine + cfg.mapsOffset + (supermap * cfg.bitmapsPerSupermap + map) * cfg.bytesPerBitmap

/-- `continuation_address` -/
def continuationAddress (magazine supermap map index : ℕ) : ℕ :=
  magazine + cfg.contsOffset +
    ((supermap * cfg.bitmapsPerSupermap + map) * cfg.continuationsPerBitmap + index) *
      cfg.continuationSize

/-- `&magazine->fp_maps[i]` -/
def fpMapAddress (magazine i : ℕ) : ℕ := magazine + cfg.fpMapsOffset + i * cfg.bytesPerBitmap

/-- `&magazine->fp_conts[continuation_index]` -/
def fpContAddress (magazine continuationIndex : ℕ) : ℕ :=
  magazine + cfg.fpContsOffset + continuationIndex * cfg.continuationSize

/-- `magazine_for_continuation` -/
def magazineForContinuation (c : ℕ) : ℕ := cfg.clearLow c cfg.bytesPerMagazine

/-- `get_cont_and_indices_for_bitmap_and_index`: the continuation, the supermap and the index in
it. -/
def getContAndIndices (bitmap index : ℕ) : ℕ × ℕ × ℕ :=
  let m := cfg.magazineForContinuation bitmap
  let mindex := (bitmap - (m + cfg.mapsOffset)) / cfg.bytesPerBitmap
  let bindex := mindex % cfg.bitmapsPerSupermap
  let sindex := mindex / cfg.bitmapsPerSupermap
  (cfg.continuationAddress m sindex bindex index, cfg.supermapAddress m sindex, bindex)

/-- The base of a page. -/
def pageBase (c : ℕ) : ℕ := cfg.clearLow c cfg.bytesPerPage

/-- `continuation_is_in_first_page` -/
def continuationIsInFirstPage (c : ℕ) : Bool :=
  cfg.packFirstPage && cfg.magazineForContinuation c = cfg.pageBase c

/-- What `get_maps_and_indices_for_continuation` returns; there is no supermap for the first
page. -/
structure MapsAndIndices where
  supermap : Option ℕ
  bitmapIndex : ℕ
  bitmap : ℕ
  index : ℕ
  deriving DecidableEq

/-- `get_maps_and_indices_for_continuation` -/
def getMapsAndIndices (c : ℕ) : MapsAndIndices :=
  let m := cfg.magazineForContinuation c
  if cfg.continuationIsInFirstPage c then
    let cindex := (c - (m + cfg.fpContsOffset)) / cfg.continuationSize
    let mindex := cindex / cfg.continuationsPerBitmap
    ⟨none, mindex, cfg.fpMapAddress m mindex, cindex % cfg.continuationsPerBitmap⟩
  else
    let cindex := (c - (m + cfg.contsOffset)) / cfg.continuationSize
    let sindex := cindex / (cfg.bitmapsPerSupermap * cfg.continuationsPerBitmap)
    let mindex := cindex / cfg.continuationsPerBitmap % cfg.bitmapsPerSupermap
    ⟨some (cfg.supermapAddress m sindex), mindex, cfg.bitmapAddress m sindex mindex,
      cindex % cfg.continuationsPerBitmap⟩

/-- `madvisable_page_base_for_continuation` -/
def madvisablePageBase (c : ℕ) : Option ℕ :=
  if cfg.continuationIsInFirstPage c then none else some (cfg.pageBase c)

/-- `first_bitmap_in_same_page` -/
def firstBitmapInSamePage (b : ℕ) : ℕ :=
  cfg.clearLow b (cfg.bitmapsPerPage * cfg.bytesPerBitmap)

end Config

/-! ## Layouts -/

/-- A configuration whose sizes fit together. -/
structure Layout extends Config where
  magazineShift : ℕ
  pageBitmapsShift : ℕ
  bytesPerMagazine_eq : toConfig.bytesPerMagazine = 2 ^ magazineShift := by decide +kernel
  pageShift_le : pageShift ≤ magazineShift := by decide +kernel
  magazineShift_le : magazineShift ≤ pointerBits := by decide +kernel
  pageBitmaps_eq : toConfig.bitmapsPerPage * bytesPerBitmap = 2 ^ pageBitmapsShift := by
    decide +kernel
  pageBitmapsShift_le : pageBitmapsShift ≤ magazineShift := by decide +kernel
  bytesPerPage_eq : toConfig.bytesPerPage =
    toConfig.bitmapsPerPage * (toConfig.continuationsPerBitmap * continuationSize) := by
    decide +kernel
  continuationSize_pos : 0 < continuationSize := by decide +kernel
  dvd_mapsOffset : 2 ^ pageBitmapsShift ∣ toConfig.mapsOffset := by decide +kernel
  bitmapsPerPage_dvd : toConfig.bitmapsPerPage ∣ toConfig.bitmapsPerSupermap := by
    decide +kernel
  contsOffset_eq : toConfig.contsOffset = toConfig.bytesPerPage := by decide +kernel
  conts_le : toConfig.bytesPerPage + toConfig.continuationsPerMagazine * continuationSize ≤
    toConfig.bytesPerMagazine := by decide +kernel
  remaindered_le : toConfig.remainderedContinuationsInFirstPage ≤
    toConfig.continuationsPerBitmap := by decide +kernel
  maps_le : toConfig.fpMapsOffset ≤ toConfig.bytesPerPage := by decide +kernel
  fpMaps_le : packFirstPage = true → toConfig.fpMapsOffset +
    toConfig.bitmapsInFirstPage * bytesPerBitmap ≤ toConfig.bytesPerPage := by decide +kernel

/-- 64-bit, pages of 4 KiB. -/
def macOS : Layout where
  pointerBits := 64
  bytesPerBitmap := 8
  pageShift := 12
  pagesPerMagazine := 512
  continuationSize := 64
  sizeofHeader := 16
  packFirstPage := false
  magazineShift := 21
  pageBitmapsShift := 3

/-- 64-bit, pages of 16 KiB, with continuations in the first page. -/
def embedded : Layout where
  pointerBits := 64
  bytesPerBitmap := 8
  pageShift := 14
  pagesPerMagazine := 64
  continuationSize := 64
  sizeofHeader := 16
  packFirstPage := true
  magazineShift := 20
  pageBitmapsShift := 5

/-- 32-bit, pages of 16 KiB, with continuations in the first page. -/
def embedded32 : Layout where
  pointerBits := 32
  bytesPerBitmap := 4
  pageShift := 14
  pagesPerMagazine := 64
  continuationSize := 64
  sizeofHeader := 8
  packFirstPage := true
  magazineShift := 20
  pageBitmapsShift := 5

/-- The same with one CPU, where continuations do not fill a cache line. -/
def embedded32UP : Layout where
  pointerBits := 32
  bytesPerBitmap := 4
  pageShift := 14
  pagesPerMagazine := 64
  continuationSize := 32
  sizeofHeader := 8
  packFirstPage := true
  magazineShift := 20
  pageBitmapsShift := 6

theorem mul_add_div {q n r : ℕ} (hr : r < n) : (q * n + r) / n = q := by
  rw [mul_comm, Nat.mul_add_div (by omega), Nat.div_eq_of_lt hr, add_zero]

theorem mul_add_mod {q n r : ℕ} (hr : r < n) : (q * n + r) % n = r := by
  rw [mul_add_mod_self_right, mod_eq_of_lt hr]

theorem mul_add_lt {q n r k : ℕ} (hq : q < k) (hr : r < n) : q * n + r < k * n :=
  calc q * n + r < q * n + n := by omega
    _ = (q + 1) * n := (succ_mul q n).symm
    _ ≤ k * n := Nat.mul_le_mul_right n hq

namespace Layout

variable (lay : Layout)

/-- The address of a magazine: aligned to its size. -/
structure Magazine (m : ℕ) : Prop where
  dvd : lay.bytesPerMagazine ∣ m
  le : m + lay.bytesPerMagazine ≤ 2 ^ lay.pointerBits

theorem bitmapsPerPage_pos : 0 < lay.bitmapsPerPage := by
  refine Nat.pos_of_ne_zero fun h => ?_
  have heq := lay.pageBitmaps_eq
  rw [h, zero_mul] at heq
  exact absurd heq.symm (Nat.two_pow_pos _).ne'

theorem bytesPerBitmap_pos : 0 < lay.bytesPerBitmap := by
  refine Nat.pos_of_ne_zero fun h => ?_
  have heq := lay.pageBitmaps_eq
  rw [h] at heq
  exact absurd heq.symm (Nat.two_pow_pos _).ne'

theorem continuationsPerBitmap_pos : 0 < lay.continuationsPerBitmap :=
  Nat.mul_pos lay.bytesPerBitmap_pos (by norm_num)

theorem bitmapsPerSupermap_pos : 0 < lay.bitmapsPerSupermap :=
  Nat.mul_pos lay.bytesPerBitmap_pos (by norm_num)

theorem bytesPerPage_pos : 0 < lay.bytesPerPage := Nat.two_pow_pos _

/-- Clearing the low bits of an address rounds it down. -/
theorem clearLow_eq {x k : ℕ} (hk : k ≤ lay.pointerBits) (hx : x < 2 ^ lay.pointerBits) :
    lay.clearLow x (2 ^ k) = x / 2 ^ k * 2 ^ k := by
  have hpow : 2 ^ lay.pointerBits = 2 ^ (lay.pointerBits - k) * 2 ^ k := by
    rw [← pow_add, Nat.sub_add_cancel hk]
  have hmask : 2 ^ lay.pointerBits - 1 - (2 ^ k - 1) = (2 ^ (lay.pointerBits - k) - 1) * 2 ^ k := by
    rw [Nat.sub_mul]
    have := Nat.two_pow_pos k
    omega
  unfold Config.clearLow
  rw [hmask, and_mask, mod_eq_of_lt]
  exact Nat.div_lt_of_lt_mul (by rwa [mul_comm, ← hpow])

section Addresses

variable {lay} {m s b i k r : ℕ}

variable (hm : lay.Magazine m)

section

variable (hr : r < lay.bytesPerMagazine)
include hr

include hm in
theorem Magazine.lt : m + r < 2 ^ lay.pointerBits := by
  have hle := hm.le
  omega

include hm in
theorem Magazine.magazineForContinuation : lay.magazineForContinuation (m + r) = m := by
  have hlt := hm.lt hr
  obtain ⟨j, rfl⟩ := hm.dvd
  rw [lay.bytesPerMagazine_eq] at *
  rw [Config.magazineForContinuation, lay.bytesPerMagazine_eq,
    lay.clearLow_eq lay.magazineShift_le hlt, mul_comm _ j, mul_add_div hr]

include hm in
/-- An address and a power of two that divides the size of a magazine. -/
theorem Magazine.clearLow
    (hk : k ≤ lay.magazineShift) : lay.clearLow (m + r) (2 ^ k) = m + r / 2 ^ k * 2 ^ k := by
  rw [lay.clearLow_eq (hk.trans lay.magazineShift_le) (hm.lt hr)]
  have hdvd : 2 ^ k ∣ m := by
    refine dvd_trans ?_ hm.dvd
    rw [lay.bytesPerMagazine_eq]
    exact pow_dvd_pow 2 hk
  obtain ⟨j, rfl⟩ := hdvd
  rw [Nat.mul_add_div (Nat.two_pow_pos k), add_mul, mul_comm j]

include hm in
theorem Magazine.pageBase : lay.pageBase (m + r) = m + r / lay.bytesPerPage * lay.bytesPerPage :=
  hm.clearLow hr lay.pageShift_le

end

theorem mindex_lt (hs : s < lay.supermapsPerMagazine) (hb : b < lay.bitmapsPerSupermap) :
    s * lay.bitmapsPerSupermap + b < lay.bitmapsPerMagazine :=
  mul_add_lt hs hb

variable {mindex : ℕ}

theorem bytesPerMagazine_lt (hmindex : mindex < lay.bitmapsPerMagazine)
    (hi : i < lay.continuationsPerBitmap) :
    lay.bytesPerPage + (mindex * lay.continuationsPerBitmap + i) * lay.continuationSize <
      lay.bytesPerMagazine := by
  have hlt := Nat.mul_lt_mul_of_pos_right (mul_add_lt hmindex hi) lay.continuationSize_pos
  have hle := lay.conts_le
  unfold Config.continuationsPerMagazine at hle
  omega

/-- The bitmaps are in the first page. -/
theorem mapsOffset_add_lt (hmindex : mindex < lay.bitmapsPerMagazine) :
    lay.mapsOffset + mindex * lay.bytesPerBitmap + lay.bytesPerBitmap ≤ lay.fpMapsOffset := by
  have hle := Nat.mul_le_mul_right lay.bytesPerBitmap (succ_le_of_lt hmindex)
  have hmaps : lay.sizeofMaps = lay.bitmapsPerMagazine * lay.bytesPerBitmap := by
    unfold Config.sizeofMaps Config.bitmapsPerMagazine
    ring
  unfold Config.fpMapsOffset
  rw [succ_mul] at hle
  omega

theorem bytesPerPage_le : lay.bytesPerPage ≤ lay.bytesPerMagazine :=
  (Nat.le_add_right _ _).trans lay.conts_le

theorem bitmap_lt (hmindex : mindex < lay.bitmapsPerMagazine) :
    lay.mapsOffset + mindex * lay.bytesPerBitmap < lay.bytesPerMagazine := by
  have hle := mapsOffset_add_lt hmindex
  have hpos := lay.bytesPerBitmap_pos
  have hpage := lay.maps_le
  have hmag := lay.bytesPerPage_le
  omega

/-- The two addresses of a continuation outside the first page. -/
theorem continuationAddress_eq : lay.continuationAddress m s b i = m + (lay.bytesPerPage +
      ((s * lay.bitmapsPerSupermap + b) * lay.continuationsPerBitmap + i) *
        lay.continuationSize) := by
  rw [Config.continuationAddress, lay.contsOffset_eq, add_assoc]

include hm in
theorem not_firstPage (hr : lay.bytesPerPage ≤ r)
    (hr' : r < lay.bytesPerMagazine) : lay.continuationIsInFirstPage (m + r) = false := by
  rw [Config.continuationIsInFirstPage, hm.magazineForContinuation hr', hm.pageBase hr']
  have hone : 1 ≤ r / lay.bytesPerPage := (Nat.one_le_div_iff lay.bytesPerPage_pos).mpr hr
  have hpos := Nat.mul_le_mul_right lay.bytesPerPage hone
  have hpage := lay.bytesPerPage_pos
  simp only [Bool.and_eq_false_iff, decide_eq_false_iff_not]
  omega

/-- The number of a continuation, from its address. -/
theorem cindex_eq (lay : Layout) (m offset n : ℕ) :
    (m + (offset + n * lay.continuationSize) - (m + offset)) / lay.continuationSize = n := by
  rw [← add_assoc, Nat.add_sub_cancel_left, Nat.mul_div_cancel _ lay.continuationSize_pos]

include hm in
/-- **From a continuation to its bitmap.** -/
theorem getMapsAndIndices_continuationAddress
    (hs : s < lay.supermapsPerMagazine) (hb : b < lay.bitmapsPerSupermap)
    (hi : i < lay.continuationsPerBitmap) :
    lay.getMapsAndIndices (lay.continuationAddress m s b i) =
      ⟨some (lay.supermapAddress m s), b, lay.bitmapAddress m s b, i⟩ := by
  have hlt := bytesPerMagazine_lt (mindex_lt hs hb) hi
  rw [continuationAddress_eq, Config.getMapsAndIndices,
    not_firstPage hm (Nat.le_add_right _ _) hlt, hm.magazineForContinuation hlt,
    lay.contsOffset_eq]
  simp [cindex_eq, mul_add_div hi, mul_add_mod hi, mul_add_mod hb,
    mul_comm lay.bitmapsPerSupermap lay.continuationsPerBitmap, ← Nat.div_div_eq_div_mul,
    mul_add_div hb]

include hm in
/-- **From a bitmap to its continuations.** -/
theorem getContAndIndices_bitmapAddress (hs : s < lay.supermapsPerMagazine)
    (hb : b < lay.bitmapsPerSupermap) : lay.getContAndIndices (lay.bitmapAddress m s b) i =
      (lay.continuationAddress m s b i, lay.supermapAddress m s, b) := by
  have hmagazine : lay.magazineForContinuation (lay.bitmapAddress m s b) = m := by
    rw [Config.bitmapAddress, add_assoc]
    exact hm.magazineForContinuation (bitmap_lt (mindex_lt hs hb))
  have hmindex : (lay.bitmapAddress m s b - (m + lay.mapsOffset)) / lay.bytesPerBitmap =
      s * lay.bitmapsPerSupermap + b := by
    rw [Config.bitmapAddress, Nat.add_sub_cancel_left,
      Nat.mul_div_cancel _ lay.bytesPerBitmap_pos]
  rw [Config.getContAndIndices, hmagazine, hmindex]
  simp only [mul_add_div hb, mul_add_mod hb]

theorem fpContsOffset_add_le (hpack : lay.packFirstPage = true)
    (hk : k < lay.continuationsInFirstPage) :
    lay.fpContsOffset + k * lay.continuationSize < lay.bytesPerPage := by
  have heq := lay.contsOffset_eq
  unfold Config.contsOffset at heq
  rw [if_pos hpack] at heq
  have hlt := Nat.mul_lt_mul_of_pos_right hk lay.continuationSize_pos
  rw [mul_comm lay.continuationSize] at heq
  omega

include hm in
/-- **From a continuation of the first page to its bitmap.** -/
theorem getMapsAndIndices_fpContAddress (hpack : lay.packFirstPage = true)
    (hk : k < lay.continuationsInFirstPage) : lay.getMapsAndIndices (lay.fpContAddress m k) =
      ⟨none, k / lay.continuationsPerBitmap,
        lay.fpMapAddress m (k / lay.continuationsPerBitmap), k % lay.continuationsPerBitmap⟩ := by
  have hlt := fpContsOffset_add_le hpack hk
  have hlt' := hlt.trans_le lay.bytesPerPage_le
  have hfirst : lay.continuationIsInFirstPage (m + (lay.fpContsOffset + k * lay.continuationSize)) =
      true := by
    rw [Config.continuationIsInFirstPage, hpack, hm.magazineForContinuation hlt',
      hm.pageBase hlt', div_eq_of_lt hlt]
    simp
  rw [Config.fpContAddress, add_assoc, Config.getMapsAndIndices,
    hm.magazineForContinuation hlt']
  simp [hfirst, cindex_eq]

end Addresses

end Layout

/-! ## Slots -/

/-- A continuation of the magazine `m`: number `i` of the bitmap number `mindex`, or number `k` of
the first page. -/
inductive Slot
  | main (m mindex i : ℕ)
  | first (m k : ℕ)

namespace Slot

variable (lay : Layout)

def address : Slot → ℕ
  | .main m mindex i => lay.continuationAddress m (mindex / lay.bitmapsPerSupermap)
      (mindex % lay.bitmapsPerSupermap) i
  | .first m k => lay.fpContAddress m k

def bitmap : Slot → ℕ
  | .main m mindex _ => lay.bitmapAddress m (mindex / lay.bitmapsPerSupermap)
      (mindex % lay.bitmapsPerSupermap)
  | .first m k => lay.fpMapAddress m (k / lay.continuationsPerBitmap)

def index : Slot → ℕ
  | .main _ _ i => i
  | .first _ k => k % lay.continuationsPerBitmap

/-- The slot exists. -/
def Valid : Slot → Prop
  | .main m mindex i => lay.Magazine m ∧ mindex < lay.bitmapsPerMagazine ∧
      i < lay.continuationsPerBitmap
  | .first m k => lay.Magazine m ∧ lay.packFirstPage = true ∧ k < lay.continuationsInFirstPage

variable {lay} {σ τ : Slot} {m mindex i k : ℕ}

theorem supermap_lt (h : mindex < lay.bitmapsPerMagazine) :
    mindex / lay.bitmapsPerSupermap < lay.supermapsPerMagazine :=
  Nat.div_lt_of_lt_mul (by rwa [mul_comm])

theorem bitmap_main : (main m mindex i).bitmap lay =
    m + (lay.mapsOffset + mindex * lay.bytesPerBitmap) := by
  rw [bitmap, Config.bitmapAddress, div_add_mod', add_assoc]

theorem address_main : (main m mindex i).address lay = m + (lay.bytesPerPage +
    (mindex * lay.continuationsPerBitmap + i) * lay.continuationSize) := by
  rw [address, Layout.continuationAddress_eq, div_add_mod']

theorem index_lt (h : σ.Valid lay) : σ.index lay < lay.continuationsPerBitmap := by
  cases σ with
  | main m mindex i => exact h.2.2
  | first m k => exact mod_lt _ lay.continuationsPerBitmap_pos

/-- What the source computes from the address of a slot. -/
theorem getMapsAndIndices_address (h : σ.Valid lay) :
    (lay.getMapsAndIndices (σ.address lay)).bitmap = σ.bitmap lay ∧
      (lay.getMapsAndIndices (σ.address lay)).index = σ.index lay ∧
      ((lay.getMapsAndIndices (σ.address lay)).supermap.isSome = true ↔
        ∃ m mindex i, σ = .main m mindex i) := by
  cases σ with
  | main m mindex i =>
    obtain ⟨hm, hmindex, hi⟩ := h
    rw [address, Layout.getMapsAndIndices_continuationAddress hm (supermap_lt hmindex)
      (mod_lt _ lay.bitmapsPerSupermap_pos) hi]
    exact ⟨rfl, rfl, by simp⟩
  | first m k =>
    obtain ⟨hm, hpack, hk⟩ := h
    rw [address, Layout.getMapsAndIndices_fpContAddress hm hpack hk]
    exact ⟨rfl, rfl, by simp⟩

/-- The bitmaps of the first page. -/
theorem fpMaps_add_lt (hpack : lay.packFirstPage = true) (hk : k < lay.continuationsInFirstPage) :
    lay.fpMapsOffset + k / lay.continuationsPerBitmap * lay.bytesPerBitmap <
      lay.bytesPerMagazine := by
  have hW := lay.continuationsPerBitmap_pos
  have hle := lay.fpMaps_le hpack
  have hmag := lay.bytesPerPage_le
  have hlt : k / lay.continuationsPerBitmap < lay.bitmapsInFirstPage := by
    rw [Nat.div_lt_iff_lt_mul hW]
    unfold Config.continuationsInFirstPage at hk
    unfold Config.bitmapsInFirstPage
    have hrem := lay.remaindered_le
    rw [add_mul]
    split_ifs
    · omega
    · omega
  have := Nat.mul_lt_mul_of_pos_right hlt lay.bytesPerBitmap_pos
  omega

theorem bitmap_first : (first m k).bitmap lay =
    m + (lay.fpMapsOffset + k / lay.continuationsPerBitmap * lay.bytesPerBitmap) := by
  rw [bitmap, Config.fpMapAddress, add_assoc]

/-- The magazine of a slot, from the address of its bitmap. -/
theorem magazine_bitmap (h : σ.Valid lay) : lay.magazineForContinuation (σ.bitmap lay) =
    match σ with
    | .main m _ _ => m
    | .first m _ => m := by
  cases σ with
  | main m mindex i =>
    obtain ⟨hm, hmindex, -⟩ := h
    rw [bitmap_main]
    exact hm.magazineForContinuation (Layout.bitmap_lt hmindex)
  | first m k =>
    obtain ⟨hm, hpack, hk⟩ := h
    rw [bitmap_first]
    exact hm.magazineForContinuation (fpMaps_add_lt hpack hk)

/-- **A bit belongs to one slot.** -/
theorem eq_of_bitmap_eq (hσ : σ.Valid lay) (hτ : τ.Valid lay)
    (hbitmap : σ.bitmap lay = τ.bitmap lay) (hindex : σ.index lay = τ.index lay) : σ = τ := by
  have hmσ := magazine_bitmap hσ
  have hmτ := magazine_bitmap hτ
  rw [hbitmap, hmτ] at hmσ
  have hpos := lay.bytesPerBitmap_pos
  cases σ with
  | main m mindex i =>
    have hle := Layout.mapsOffset_add_lt hσ.2.1
    cases τ with
    | main m' mindex' i' =>
      obtain rfl : m' = m := hmσ
      rw [bitmap_main, bitmap_main] at hbitmap
      have heq := eq_of_mul_eq_mul_right hpos
        (show mindex * lay.bytesPerBitmap = mindex' * lay.bytesPerBitmap by omega)
      rw [heq, show i = i' from hindex]
    | first m' k' =>
      obtain rfl : m' = m := hmσ
      rw [bitmap_main, bitmap_first] at hbitmap
      omega
  | first m k =>
    cases τ with
    | main m' mindex' i' =>
      obtain rfl : m' = m := hmσ
      have hle := Layout.mapsOffset_add_lt hτ.2.1
      rw [bitmap_first, bitmap_main] at hbitmap
      omega
    | first m' k' =>
      obtain rfl : m' = m := hmσ
      rw [bitmap_first, bitmap_first] at hbitmap
      have heq := eq_of_mul_eq_mul_right hpos (show k / lay.continuationsPerBitmap *
        lay.bytesPerBitmap = k' / lay.continuationsPerBitmap * lay.bytesPerBitmap by omega)
      have hmod : k % lay.continuationsPerBitmap = k' % lay.continuationsPerBitmap := hindex
      rw [← div_add_mod' k lay.continuationsPerBitmap, heq, hmod, div_add_mod']

/-- **An address belongs to one slot.** -/
theorem eq_of_address_eq (hσ : σ.Valid lay) (hτ : τ.Valid lay)
    (h : σ.address lay = τ.address lay) : σ = τ := by
  have hgσ := getMapsAndIndices_address hσ
  have hgτ := getMapsAndIndices_address hτ
  rw [h] at hgσ
  exact eq_of_bitmap_eq hσ hτ (hgσ.1.symm.trans hgτ.1) (hgσ.2.1.symm.trans hgτ.2.1)

/-! ### Pages -/

/-- The number of the first bitmap of the page. -/
def pageStart (lay : Layout) (mindex : ℕ) : ℕ := mindex / lay.bitmapsPerPage * lay.bitmapsPerPage

theorem pageStart_le : pageStart lay mindex ≤ mindex := div_mul_le_self _ _

theorem lt_pageStart_add : mindex < pageStart lay mindex + lay.bitmapsPerPage := by
  have hmod := mod_lt mindex lay.bitmapsPerPage_pos
  have heq := div_add_mod' mindex lay.bitmapsPerPage
  unfold pageStart
  omega

/-- The bitmaps of a page are in the magazine. -/
theorem pageStart_add_le (h : mindex < lay.bitmapsPerMagazine) :
    pageStart lay mindex + lay.bitmapsPerPage ≤ lay.bitmapsPerMagazine := by
  have hdvd : lay.bitmapsPerPage ∣ lay.bitmapsPerMagazine :=
    dvd_mul_of_dvd_right lay.bitmapsPerPage_dvd _
  obtain ⟨n, hn⟩ := hdvd
  have hlt : mindex / lay.bitmapsPerPage < n := Nat.div_lt_of_lt_mul (by rwa [← hn])
  rw [hn]
  calc pageStart lay mindex + lay.bitmapsPerPage
      = lay.bitmapsPerPage * (mindex / lay.bitmapsPerPage + 1) := by
        unfold pageStart
        ring
    _ ≤ lay.bitmapsPerPage * n := Nat.mul_le_mul_left _ hlt

section

variable (h : (main m mindex i).Valid lay)
include h

theorem pageBase_main :
    lay.pageBase ((main m mindex i).address lay) =
      (main m (pageStart lay mindex) 0).address lay := by
  obtain ⟨hm, hmindex, hi⟩ := h
  have hlt := Layout.bytesPerMagazine_lt hmindex hi
  have hC := lay.continuationSize_pos
  have hdiv : (mindex * lay.continuationsPerBitmap + i) * lay.continuationSize /
      lay.bytesPerPage = mindex / lay.bitmapsPerPage := by
    have hlt' := Nat.mul_lt_mul_of_pos_right hi hC
    rw [lay.bytesPerPage_eq, mul_comm lay.bitmapsPerPage, ← Nat.div_div_eq_div_mul, add_mul,
      mul_assoc, mul_add_div hlt']
  rw [address_main, address_main, hm.pageBase hlt, add_div_left _ lay.bytesPerPage_pos, hdiv,
    pageStart, succ_mul, add_zero, mul_assoc, mul_assoc, ← lay.bytesPerPage_eq]
  omega

theorem valid_pageStart :
    (main m (pageStart lay mindex) 0).Valid lay :=
  ⟨h.1, pageStart_le.trans_lt h.2.1, lay.continuationsPerBitmap_pos⟩

omit h in
theorem pageBase_first (h : (first m k).Valid lay) :
    lay.pageBase ((first m k).address lay) = m := by
  obtain ⟨hm, hpack, hk⟩ := h
  have hlt := Layout.fpContsOffset_add_le hpack hk
  rw [address, Config.fpContAddress, add_assoc,
    hm.pageBase (hlt.trans_le lay.bytesPerPage_le), div_eq_of_lt hlt, zero_mul, add_zero]

/-- **The bitmaps of a page**, as `_dispatch_alloc_maybe_madvise_page` computes them. -/
theorem pageBitmaps_eq :
    (lay.getMapsAndIndices (lay.pageBase ((main m mindex i).address lay))).bitmap =
      m + (lay.mapsOffset + pageStart lay mindex * lay.bytesPerBitmap) := by
  rw [pageBase_main h, (getMapsAndIndices_address (valid_pageStart h)).1, bitmap_main]

/-- The same address from a bitmap of the page. -/
theorem firstBitmapInSamePage_main :
    lay.firstBitmapInSamePage ((main m mindex i).bitmap lay) =
      m + (lay.mapsOffset + pageStart lay mindex * lay.bytesPerBitmap) := by
  obtain ⟨hm, hmindex, -⟩ := h
  have hpos := lay.bytesPerBitmap_pos
  have hbitmaps := lay.bitmapsPerPage_pos
  obtain ⟨n, hn⟩ := lay.dvd_mapsOffset
  rw [bitmap_main, Config.firstBitmapInSamePage, lay.pageBitmaps_eq,
    hm.clearLow (Layout.bitmap_lt hmindex) lay.pageBitmapsShift_le, ← lay.pageBitmaps_eq]
  rw [← lay.pageBitmaps_eq] at hn
  have hdiv : (lay.mapsOffset + mindex * lay.bytesPerBitmap) /
      (lay.bitmapsPerPage * lay.bytesPerBitmap) = n + mindex / lay.bitmapsPerPage := by
    rw [hn, Nat.mul_add_div (Nat.mul_pos hbitmaps hpos), mul_comm lay.bitmapsPerPage,
      ← Nat.div_div_eq_div_mul, Nat.mul_div_cancel _ hpos]
  rw [hdiv, hn, pageStart]
  ring

end

/-- **The slots of a page** are those of its bitmaps. -/
theorem bitmap_of_pageBase_eq (hσ : (main m mindex i).Valid lay) (hτ : τ.Valid lay)
    (h : lay.pageBase (τ.address lay) = lay.pageBase ((main m mindex i).address lay)) :
    ∃ j < lay.bitmapsPerPage, τ.bitmap lay =
      m + (lay.mapsOffset + pageStart lay mindex * lay.bytesPerBitmap) +
        j * lay.bytesPerBitmap := by
  rw [pageBase_main hσ] at h
  cases τ with
  | main m' mindex' i' =>
    rw [pageBase_main hτ] at h
    have heq := eq_of_address_eq (valid_pageStart hτ) (valid_pageStart hσ) h
    obtain ⟨rfl, hstart, -⟩ := Slot.main.inj heq
    have hle : pageStart lay mindex' ≤ mindex' := pageStart_le
    have hlt : mindex' < pageStart lay mindex' + lay.bitmapsPerPage := lt_pageStart_add
    refine ⟨mindex' - pageStart lay mindex', by omega, ?_⟩
    rw [bitmap_main, ← hstart]
    have hmul : mindex' * lay.bytesPerBitmap = pageStart lay mindex' * lay.bytesPerBitmap +
        (mindex' - pageStart lay mindex') * lay.bytesPerBitmap := by
      rw [← add_mul, Nat.add_sub_cancel' hle]
    omega
  | first m' k' =>
    -- the first page of a magazine is not a page of continuations
    rw [pageBase_first hτ, address_main] at h
    have hlt := Layout.bytesPerMagazine_lt (valid_pageStart hσ).2.1 (valid_pageStart hσ).2.2
    have hfirst := Layout.not_firstPage hσ.1 (Nat.le_add_right _ _) hlt
    rw [← h] at hfirst
    have hpos : 0 < lay.bytesPerMagazine := lay.bytesPerPage_pos.trans_le lay.bytesPerPage_le
    have hmag := hτ.1.magazineForContinuation hpos
    have hpage := hτ.1.pageBase hpos
    rw [add_zero] at hmag hpage
    rw [Config.continuationIsInFirstPage, hτ.2.1, hmag, hpage] at hfirst
    simp at hfirst

end Slot

end Apple.Dispatch.Allocator
