import Apple.Dispatch.Allocator

/-!
# Runs of the continuation allocator

Every bit of a bitmap is accounted for: see `Allocator`.

Result: `allocator_run`.
-/

namespace Apple.Dispatch.Allocator

open Lib Function List Option Nat

/-! ## Who uses a slot -/

variable {σ : Slot}

section Invariant

variable {lay : Layout}

/-- The continuation of a thread that is between its bit and the client. -/
def holds : Pc lay → Option ℕ
  | .setLast found | .mark found | .markCheck found _ | .markStore found _ => some found.cont
  | .finish c | .freeCheck c | .freeClear c => some c
  | _ => none

/-- The bitmaps that a thread has taken: the first one, and how many. -/
def locked : Pc lay → ℕ × ℕ
  | .lock _ pageBitmaps lastLocked | .unlock pageBitmaps lastLocked => (pageBitmaps, lastLocked)
  | .madvise _ pageBitmaps => (pageBitmaps, lay.bitmapsPerPage)
  | _ => (0, 0)

/-- The thread has taken the bitmap. -/
def Takes (pc : Pc lay) (bitmap : ℕ) : Prop :=
  ∃ j < (locked pc).2, bitmap = (locked pc).1 + j * lay.bytesPerBitmap

instance (pc : Pc lay) (bitmap : ℕ) : Decidable (Takes pc bitmap) :=
  inferInstanceAs (Decidable (∃ j, j < _ ∧ _))

/-- 1 for a thread that uses the slot. -/
def uses (σ : Slot) (pc : Pc lay) : ℕ :=
  if holds pc = some (σ.address lay) ∨ Takes pc (σ.bitmap lay) then 1 else 0

/-- The bit of a slot. -/
def bit (sh : Shared lay) (σ : Slot) : ℕ := ((sh.maps (σ.bitmap lay)).getLsbD (σ.index lay)).toNat

/-- 1 for a slot that the client has. -/
def given (sh : Shared lay) (σ : Slot) : ℕ := if σ.address lay ∈ sh.allocated then 1 else 0

theorem bit_le_one (sh : Shared lay) (σ : Slot) : bit sh σ ≤ 1 := Bool.toNat_le _

variable {bitmap a i k : ℕ} {b : BitVec lay.continuationsPerBitmap} {σ₀ : Slot} {c : Choice}
  {pc : Pc lay} {j : ℕ}

theorem not_takes (h : (locked pc).2 = 0) : ¬ Takes pc bitmap := by
  rintro ⟨j, hj, -⟩
  omega

theorem uses_eq_zero (hholds : holds pc = none) (hlocked : (locked pc).2 = 0) : uses σ pc = 0 := by
  rw [uses, if_neg]
  rintro (h | h)
  · rw [hholds] at h
    cases h
  · exact not_takes hlocked h

theorem uses_of_holds {c : ℕ} (hholds : holds pc = some c)
    (hlocked : (locked pc).2 = 0) : uses σ pc = if c = σ.address lay then 1 else 0 := by
  refine if_congr ?_ rfl rfl
  rw [hholds, some_inj]
  exact or_iff_left (not_takes hlocked)

theorem uses_of_locked (hholds : holds pc = none) :
    uses σ pc = if Takes pc (σ.bitmap lay) then 1 else 0 := by
  refine if_congr ?_ rfl rfl
  rw [hholds]
  simp

/-! ## Invariants -/

/-- The address of a continuation. -/
def IsCont (lay : Layout) (c : ℕ) : Prop := ∃ σ : Slot, σ.Valid lay ∧ σ.address lay = c

/-- The bitmaps of the page of a bitmap. -/
def pageBitmaps (lay : Layout) (m mindex : ℕ) : ℕ :=
  m + (lay.mapsOffset + Slot.pageStart lay mindex * lay.bytesPerBitmap)

/-- The address of the first bitmap of a page. -/
def IsPage (lay : Layout) (a : ℕ) : Prop :=
  ∃ m mindex, lay.Magazine m ∧ mindex < lay.bitmapsPerMagazine ∧ a = pageBitmaps lay m mindex

/-- A page and its bitmaps. -/
def PageOk (lay : Layout) (page a : ℕ) : Prop :=
  ∃ m mindex i, (Slot.main m mindex i).Valid lay ∧
    page = lay.pageBase ((Slot.main m mindex i).address lay) ∧ a = pageBitmaps lay m mindex

/-- A heap: a magazine for each CPU. -/
def IsHeap (lay : Layout) (numCpu heap : ℕ) : Prop :=
  ∀ n < numCpu, lay.Magazine (heap + n * lay.bytesPerMagazine)

/-- A continuation outside the first page that has been found. -/
def Found.Ok (lay : Layout) (found : Found) : Prop :=
  ∃ m mindex i, (Slot.main m mindex i).Valid lay ∧
    found.cont = (Slot.main m mindex i).address lay ∧
    found.bitmap = (Slot.main m mindex i).bitmap lay

theorem Found.Ok.isCont {found : Found} (h : found.Ok lay) : IsCont lay found.cont := by
  obtain ⟨m, mindex, i, hvalid, hcont, -⟩ := h
  exact ⟨_, hvalid, hcont.symm⟩

theorem PageOk.isPage {page : ℕ} (h : PageOk lay page a) : IsPage lay a := by
  obtain ⟨m, mindex, i, hvalid, -, ha⟩ := h
  exact ⟨m, mindex, hvalid.1, hvalid.2.1, ha⟩

variable {numCpu : ℕ}

/-- **Invariant of a thread.** -/
def Local (numCpu : ℕ) : Pc lay → Prop
  | .lastPage heap | .fromHeap heap _ => IsHeap lay numCpu heap
  | .scanLast heap last _ => IsHeap lay numCpu heap ∧ IsPage lay last
  | .firstPage m _ i => lay.Magazine m ∧ lay.packFirstPage = true ∧ i ≤ lay.fullBitmapsInFirstPage
  | .supermap m _ _ => lay.Magazine m
  | .bitmap m _ s _ => lay.Magazine m ∧ s < lay.supermapsPerMagazine
  | .setLast found | .mark found | .markCheck found _ | .markStore found _ => found.Ok lay
  | .finish c | .freeCheck c | .freeClear c | .freeSupermap c _ => IsCont lay c
  | .pageScan page a _ | .madvise page a => PageOk lay page a
  | .lock page a lastLocked => PageOk lay page a ∧ lastLocked < lay.bitmapsPerPage
  | .unlock a lastLocked => IsPage lay a ∧ lastLocked ≤ lay.bitmapsPerPage
  | .idle | .alloc | .slow _ | .create _ => True
  | .crashed => False

/-- **Invariant of what the threads share.** -/
structure SharedOk (numCpu : ℕ) (sh : Shared lay) : Prop where
  heaps : ∀ heap ∈ sh.heaps, IsHeap lay numCpu heap
  lastFoundPage : ∀ n a, sh.lastFoundPage n = some a → IsPage lay a
  allocated : ∀ c ∈ sh.allocated, IsCont lay c

/-- What a step gives: the bits change with those who use the slots. -/
structure StepOk (numCpu : ℕ) (pc : Pc lay) (sh : Shared lay) (pc' : Pc lay) (sh' : Shared lay) :
    Prop where
  shared : SharedOk numCpu sh'
  thread : Local numCpu pc'
  count : ∀ σ : Slot, σ.Valid lay →
    bit sh' σ + given sh σ + uses σ pc = bit sh σ + given sh' σ + uses σ pc'

variable {pc pc' : Pc lay} {sh sh' : Shared lay} {e : Event}

/-! ## Steps -/

/-- What a thread does at an event. -/
def At (pc : Pc lay) : Event → Prop
  | .returned c => pc = .finish c
  | .madvised page => ∃ a, pc = .madvise page a
  | .unlocked bitmap => ∃ a k, pc = .unlock a (k + 1) ∧ bitmap = a + k * lay.bytesPerBitmap
  | _ => True

/-- A step that changes no bit. -/
theorem stepOk_of_same (hG : SharedOk numCpu sh') (hI : Local numCpu pc')
    (huses : ∀ σ : Slot, uses σ pc' = uses σ pc := by intro σ; rfl)
    (hmaps : sh'.maps = sh.maps := by rfl) (halloc : sh'.allocated = sh.allocated := by rfl) :
    StepOk numCpu pc sh pc' sh' := by
  refine ⟨hG, hI, fun σ _ => ?_⟩
  rw [huses, bit, bit, given, given, hmaps, halloc]

theorem goto_ok {pc'' : Pc lay} (h : goto sh pc' = some (e, pc'', sh')) (hG : SharedOk numCpu sh)
    (hI : Local numCpu pc') (huses : ∀ σ : Slot, uses σ pc' = uses σ pc := by intro σ; rfl) :
    StepOk numCpu pc sh pc'' sh' ∧ At pc e := by
  cases h
  exact ⟨stepOk_of_same hG hI huses, trivial⟩

theorem SharedOk.store (h : SharedOk numCpu sh) : SharedOk numCpu (sh.store bitmap b) :=
  ⟨h.heaps, h.lastFoundPage, h.allocated⟩

theorem SharedOk.supermaps {supermaps : ℕ → BitVec lay.continuationsPerBitmap}
    (h : SharedOk numCpu sh) : SharedOk numCpu { sh with supermaps := supermaps } :=
  ⟨h.heaps, h.lastFoundPage, h.allocated⟩

theorem given_store (σ : Slot) : given (sh.store bitmap b) σ = given sh σ := rfl

theorem bit_store_of_ne (h : σ.bitmap lay ≠ bitmap) : bit (sh.store bitmap b) σ = bit sh σ := by
  rw [bit, Shared.maps_store, update_of_ne h, bit]

theorem bit_store_self (h : σ.bitmap lay = bitmap) :
    bit (sh.store bitmap b) σ = (b.getLsbD (σ.index lay)).toNat := by
  rw [bit, Shared.maps_store, h, update_self]

/-- **One bit changes**, as the thread gets its continuation or gives it back. -/
theorem stepOk_of_bit (hσ₀ : σ₀.Valid lay) (hG : SharedOk numCpu sh) (hI : Local numCpu pc')
    (hb : ∀ i < lay.continuationsPerBitmap, i ≠ σ₀.index lay →
      b.getLsbD i = (sh.maps (σ₀.bitmap lay)).getLsbD i)
    (hself : (b.getLsbD (σ₀.index lay)).toNat + uses σ₀ pc = bit sh σ₀ + uses σ₀ pc')
    (huses : ∀ σ : Slot, σ₀.address lay ≠ σ.address lay → uses σ pc' = uses σ pc) :
    StepOk numCpu pc sh pc' (sh.store (σ₀.bitmap lay) b) := by
  refine ⟨hG.store, hI, fun σ hσ => ?_⟩
  rw [given_store]
  by_cases heq : σ = σ₀
  · subst heq
    rw [bit_store_self rfl]
    omega
  · rw [huses σ fun h => heq (Slot.eq_of_address_eq hσ₀ hσ h).symm]
    by_cases hbitmap : σ.bitmap lay = σ₀.bitmap lay
    · have hindex : σ.index lay ≠ σ₀.index lay := fun h =>
        heq (Slot.eq_of_bitmap_eq hσ hσ₀ hbitmap h)
      rw [bit_store_self hbitmap, hb _ (Slot.index_lt hσ) hindex, bit, hbitmap]
    · rw [bit_store_of_ne hbitmap]

/-- **A bitmap is taken or given back**: all its bits change. -/
theorem stepOk_of_fill
    (hG : SharedOk numCpu sh) (hI : Local numCpu pc') (hholds : holds pc = none)
    (hholds' : holds pc' = none)
    (hother : ∀ a ≠ bitmap, (Takes pc' a ↔ Takes pc a))
    (hself : ∀ i < lay.continuationsPerBitmap, (b.getLsbD i).toNat +
      (if Takes pc bitmap then 1 else 0) =
        ((sh.maps bitmap).getLsbD i).toNat + if Takes pc' bitmap then 1 else 0) :
    StepOk numCpu pc sh pc' (sh.store bitmap b) := by
  refine ⟨hG.store, hI, fun σ hσ => ?_⟩
  rw [uses_of_locked hholds, uses_of_locked hholds', given_store]
  by_cases hbitmap : σ.bitmap lay = bitmap
  · have h := hself _ (Slot.index_lt hσ)
    rw [bit_store_self hbitmap, bit, hbitmap]
    omega
  · rw [bit_store_of_ne hbitmap, if_congr (hother _ hbitmap) rfl rfl]

/-- A search of a bitmap fails, or sets a bit that was not set. -/
theorem setFirstUnsetBit_ok {maxIndex : ℕ} {some' : ℕ → Pc lay} {none' : Pc lay}
    (h : setFirstUnsetBit sh bitmap maxIndex some' none' = some (e, pc', sh'))
    (hG : SharedOk numCpu sh) (hholds : holds pc = none) (hlocked : (locked pc).2 = 0)
    (hnone : Local numCpu none' ∧ holds none' = none ∧ (locked none').2 = 0)
    (hsome : ∀ index < lay.continuationsPerBitmap, index ≤ maxIndex →
      ∃ σ : Slot, σ.Valid lay ∧ σ.bitmap lay = bitmap ∧ σ.index lay = index ∧
        Local numCpu (some' index) ∧ holds (some' index) = some (σ.address lay) ∧
        (locked (some' index)).2 = 0) : StepOk numCpu pc sh pc' sh' ∧ At pc e := by
  unfold setFirstUnsetBit at h
  cases hfirst : firstUnsetBit (sh.maps bitmap) maxIndex with
  | none =>
    rw [hfirst] at h
    refine goto_ok h hG hnone.1 fun σ => ?_
    rw [uses_eq_zero hnone.2.1 hnone.2.2, uses_eq_zero hholds hlocked]
  | some index =>
    rw [hfirst] at h
    cases h
    obtain ⟨hlt, hbit, hle⟩ := firstUnsetBit_spec hfirst
    obtain ⟨σ, hσ, rfl, rfl, hI, hholds', hlocked'⟩ := hsome index hlt hle
    have huses (σ : Slot) : uses σ pc = 0 := uses_eq_zero hholds hlocked
    refine ⟨stepOk_of_bit hσ hG hI (fun i hi hne => ?_) ?_ fun σ' hne => ?_, trivial⟩
    · rw [getLsbD_setBit _ hi, decide_eq_false hne, Bool.or_false]
    · rw [huses, uses_of_holds hholds' hlocked', if_pos rfl, getLsbD_setBit _ hlt,
        decide_eq_true rfl, Bool.or_true, bit, hbit]
      rfl
    · rw [huses, uses_of_holds hholds' hlocked', if_neg hne]

/-- Number `i` of the bitmap `b` of supermap `s`. -/
theorem valid_main {m s b : ℕ} (hm : lay.Magazine m) (hs : s < lay.supermapsPerMagazine)
    (hb : b < lay.bitmapsPerSupermap) (hi : i < lay.continuationsPerBitmap) :
    (Slot.main m (s * lay.bitmapsPerSupermap + b) i).Valid lay ∧
      (Slot.main m (s * lay.bitmapsPerSupermap + b) i).bitmap lay = lay.bitmapAddress m s b ∧
      (Slot.main m (s * lay.bitmapsPerSupermap + b) i).address lay =
        lay.continuationAddress m s b i := by
  refine ⟨⟨hm, Layout.mindex_lt hs hb, hi⟩, ?_, ?_⟩
  · rw [Slot.bitmap, mul_add_div hb, mul_add_mod hb]
  · rw [Slot.address, mul_add_div hb, mul_add_mod hb]

/-- A bitmap of a page, and its continuations. -/
theorem exists_slot_of_page {last index : ℕ} (h : IsPage lay last) (hj : j < lay.bitmapsPerPage)
    (hindex : index < lay.continuationsPerBitmap) :
    ∃ m mindex, (Slot.main m mindex index).Valid lay ∧
      (Slot.main m mindex index).bitmap lay = last + j * lay.bytesPerBitmap ∧
      (lay.getContAndIndices (last + j * lay.bytesPerBitmap) index).1 =
        (Slot.main m mindex index).address lay := by
  obtain ⟨m, mindex, hm, hmindex, rfl⟩ := h
  have hle := Slot.pageStart_add_le hmindex
  have hvalid : (Slot.main m (Slot.pageStart lay mindex + j) index).Valid lay :=
    ⟨hm, by omega, hindex⟩
  have hbitmap : (Slot.main m (Slot.pageStart lay mindex + j) index).bitmap lay =
      pageBitmaps lay m mindex + j * lay.bytesPerBitmap := by
    rw [Slot.bitmap_main, pageBitmaps, add_mul]
    omega
  refine ⟨m, _, hvalid, hbitmap, ?_⟩
  rw [← hbitmap, Slot.bitmap, Layout.getContAndIndices_bitmapAddress hm
    (Slot.supermap_lt hvalid.2.1) (mod_lt _ lay.bitmapsPerSupermap_pos), Slot.address]

/-- A continuation of the first page. -/
theorem valid_first {m index : ℕ} (hm : lay.Magazine m) (hpack : lay.packFirstPage = true)
    (hindex : index < lay.continuationsPerBitmap)
    (hi : i * lay.continuationsPerBitmap + index < lay.continuationsInFirstPage) :
    (Slot.first m (i * lay.continuationsPerBitmap + index)).Valid lay ∧
      (Slot.first m (i * lay.continuationsPerBitmap + index)).bitmap lay = lay.fpMapAddress m i ∧
      (Slot.first m (i * lay.continuationsPerBitmap + index)).index lay = index := by
  refine ⟨⟨hm, hpack, hi⟩, ?_, mul_add_mod hindex⟩
  rw [Slot.bitmap, mul_add_div hindex]

variable (hG : SharedOk numCpu sh) (hI : Local numCpu pc)
  (hcount : ∀ σ : Slot, σ.Valid lay → given sh σ + uses σ pc ≤ bit sh σ)

include hG hI hcount in
/-- **Allocation.** -/
theorem allocStep_ok (h : allocStep numCpu sh pc c = some (e, pc', sh')) :
    StepOk numCpu pc sh pc' sh' ∧ At pc e := by
  unfold allocStep at h
  split at h
  · -- alloc
    split at h
    next heap hheap => exact goto_ok h hG (hG.heaps heap (mem_of_getElem? hheap))
    next => exact goto_ok h hG trivial
  next heap n =>
    split_ifs at h
    split at h
    next last hlast => exact goto_ok h hG ⟨hI, hG.lastFoundPage n last hlast⟩
    next => exact goto_ok h hG hI
  next heap last i =>
    split_ifs at h with hi
    · refine setFirstUnsetBit_ok h hG rfl rfl ⟨hI, rfl, rfl⟩ fun index hindex _ => ?_
      obtain ⟨m, mindex, hvalid, hbitmap, hcont⟩ := exists_slot_of_page hI.2 hi hindex
      exact ⟨_, hvalid, hbitmap, rfl, ⟨m, mindex, index, hvalid, hcont, hbitmap.symm⟩,
        congrArg some hcont, rfl⟩
    · exact goto_ok h hG hI.1
  next heap next n =>
    split_ifs at h with hn hpack
    · exact goto_ok h hG ⟨hI n hn, hpack, zero_le⟩
    · exact goto_ok h hG (hI n hn)
  next m next i =>
    obtain ⟨hm, hpack, hle⟩ := hI
    split_ifs at h with hi hrem
    · refine setFirstUnsetBit_ok h hG rfl rfl ⟨⟨hm, hpack, hi⟩, rfl, rfl⟩ fun index hindex _ => ?_
      obtain ⟨hvalid, hbitmap, hindex'⟩ := valid_first hm hpack hindex
        ((mul_add_lt hi hindex).trans_le (Nat.le_add_right _ _))
      exact ⟨_, hvalid, hbitmap, hindex', ⟨_, hvalid, rfl⟩, rfl, rfl⟩
    · refine setFirstUnsetBit_ok h hG rfl rfl ⟨hm, rfl, rfl⟩ fun index hindex hmax => ?_
      obtain rfl : i = lay.fullBitmapsInFirstPage := le_antisymm hle (not_lt.mp hi)
      obtain ⟨hvalid, hbitmap, hindex'⟩ := valid_first hm hpack hindex
        (show lay.fullBitmapsInFirstPage * lay.continuationsPerBitmap + index <
            lay.continuationsInFirstPage by
          unfold Config.continuationsInFirstPage
          omega)
      exact ⟨_, hvalid, hbitmap, hindex', ⟨_, hvalid, rfl⟩, rfl, rfl⟩
    · exact goto_ok h hG hm
  next m next s =>
    split_ifs at h with hs hfull
    · exact goto_ok h hG hI
    · exact goto_ok h hG ⟨hI, hs⟩
    · exact goto_ok h hG trivial
  next m next s b =>
    obtain ⟨hm, hs⟩ := hI
    split_ifs at h with hb
    · refine setFirstUnsetBit_ok h hG rfl rfl ⟨⟨hm, hs⟩, rfl, rfl⟩ fun index hindex _ => ?_
      obtain ⟨hvalid, hbitmap, haddress⟩ := valid_main hm hs hb hindex
      exact ⟨_, hvalid, hbitmap, rfl, ⟨m, _, index, hvalid, haddress.symm, hbitmap.symm⟩,
        congrArg some haddress.symm, rfl⟩
    · exact goto_ok h hG hm
  next found n =>
    split_ifs at h
    cases h
    refine ⟨stepOk_of_same ⟨hG.heaps, fun n' a ha => ?_, hG.allocated⟩ hI,
      trivial⟩
    simp only [update_apply] at ha
    split_ifs at ha
    · obtain ⟨m, mindex, i, hvalid, -, hbitmap⟩ := hI
      obtain rfl := some.inj ha
      rw [hbitmap, Slot.firstBitmapInSamePage_main hvalid]
      exact ⟨m, mindex, hvalid.1, hvalid.2.1, rfl⟩
    · exact hG.lastFoundPage n' a ha
  · exact goto_ok h hG hI
  · split_ifs at h
    · exact goto_ok h hG hI
    · exact goto_ok h hG (Found.Ok.isCont hI)
  · split_ifs at h
    · cases h
      exact ⟨stepOk_of_same hG.supermaps (Found.Ok.isCont hI), trivial⟩
    · exact goto_ok h hG hI
  next cont =>
    cases h
    refine ⟨⟨⟨hG.heaps, hG.lastFoundPage, fun c hc => ?_⟩, trivial, fun σ hσ => ?_⟩, rfl⟩
    · rcases Finset.mem_insert.mp hc with rfl | hc
      · exact hI
      · exact hG.allocated c hc
    · have hle := hcount σ hσ
      have hone := bit_le_one sh σ
      rw [uses_of_holds rfl rfl] at hle ⊢
      show bit sh σ + given sh σ + _ = bit sh σ + given _ σ + 0
      unfold given at *
      split_ifs at hle ⊢ <;> first | omega | simp_all
  next n =>
    split at h
    next heap hheap => exact goto_ok h hG (hG.heaps heap (mem_of_getElem? hheap))
    next => exact goto_ok h hG trivial
  next n address =>
    split_ifs at h with hregion hlen
    · cases h
      refine ⟨stepOk_of_same ⟨?_, hG.lastFoundPage, hG.allocated⟩ trivial, trivial⟩
      refine forall_mem_append.mpr ⟨hG.heaps, forall_mem_singleton.mpr fun k hk => ?_⟩
      have hmul := Nat.mul_le_mul_right lay.bytesPerMagazine (succ_le_of_lt hk)
      rw [succ_mul] at hmul
      exact ⟨dvd_add hregion.1 (dvd_mul_left _ _), by omega⟩
    · exact goto_ok h hG trivial
  · cases h

/-- The thread has taken one bitmap more. -/
theorem takes_succ {pc' : Pc lay} (hpc : locked pc = (a, k))
    (hpc' : locked pc' = (a, k + 1)) (bitmap : ℕ) :
    Takes pc' bitmap ↔ Takes pc bitmap ∨ bitmap = a + k * lay.bytesPerBitmap := by
  unfold Takes
  rw [hpc, hpc']
  constructor
  · rintro ⟨j, hj, rfl⟩
    rcases Nat.lt_succ_iff_lt_or_eq.mp hj with hlt | rfl
    · exact .inl ⟨j, hlt, rfl⟩
    · exact .inr rfl
  · rintro (⟨j, hj, rfl⟩ | rfl)
    · exact ⟨j, lt_succ_of_lt hj, rfl⟩
    · exact ⟨k, lt_succ_self k, rfl⟩

theorem not_takes_next (hpc : locked pc = (a, k)) : ¬ Takes pc (a + k * lay.bytesPerBitmap) := by
  rintro ⟨j, hj, heq⟩
  rw [hpc] at hj heq
  have hmul := eq_of_mul_eq_mul_right lay.bytesPerBitmap_pos (add_left_cancel heq)
  omega

/-- **A bitmap is taken.** -/
theorem stepOk_of_take (hG : SharedOk numCpu sh) (hI : Local numCpu pc')
    (hholds : holds pc = none) (hholds' : holds pc' = none) (hpc : locked pc = (a, k))
    (hpc' : locked pc' = (a, k + 1)) (hzero : sh.maps (a + k * lay.bytesPerBitmap) = 0#_) :
    StepOk numCpu pc sh pc' (sh.store (a + k * lay.bytesPerBitmap) (BitVec.allOnes _)) := by
  refine stepOk_of_fill hG hI hholds hholds' (fun bitmap hne => ?_) fun i hi => ?_
  · rw [takes_succ hpc hpc', or_iff_left hne]
  · rw [if_neg (not_takes_next hpc), if_pos ((takes_succ hpc hpc' _).mpr (.inr rfl)), hzero,
      BitVec.getLsbD_allOnes, decide_eq_true hi, BitVec.getLsbD_zero]
    rfl

/-- **A bitmap is given back.** -/
theorem stepOk_of_giveBack (hG : SharedOk numCpu sh) (hI : Local numCpu pc')
    (hholds : holds pc = none) (hholds' : holds pc' = none) (hpc : locked pc = (a, k + 1))
    (hpc' : locked pc' = (a, k)) (hones : ∀ i < lay.continuationsPerBitmap,
      (sh.maps (a + k * lay.bytesPerBitmap)).getLsbD i = true) :
    StepOk numCpu pc sh pc' (sh.store (a + k * lay.bytesPerBitmap) 0#_) := by
  refine stepOk_of_fill hG hI hholds hholds' (fun bitmap hne => ?_) fun i hi => ?_
  · rw [takes_succ hpc' hpc, or_iff_left hne]
  · rw [if_neg (not_takes_next hpc'), if_pos ((takes_succ hpc' hpc _).mpr (.inr rfl)), hones i hi,
      BitVec.getLsbD_zero]
    rfl

theorem getLsbD_of_bit (h : 1 ≤ bit sh σ) :
    (sh.maps (σ.bitmap lay)).getLsbD (σ.index lay) = true :=
  Bool.toNat_eq_one.mp (le_antisymm (bit_le_one sh σ) h)

/-- The bit of a slot that a thread uses is set. -/
theorem getLsbD_of_uses (hcount : given sh σ + uses σ pc ≤ bit sh σ)
    (h : holds pc = some (σ.address lay) ∨ Takes pc (σ.bitmap lay)) :
    (sh.maps (σ.bitmap lay)).getLsbD (σ.index lay) = true := by
  rw [uses, if_pos h] at hcount
  exact getLsbD_of_bit (by omega)

include hcount in
/-- The bits of a bitmap that a thread has taken are set. -/
theorem getLsbD_of_takes (hpage : IsPage lay a) (hj : j < lay.bitmapsPerPage)
    (htakes : Takes pc (a + j * lay.bytesPerBitmap)) (hi : i < lay.continuationsPerBitmap) :
    (sh.maps (a + j * lay.bytesPerBitmap)).getLsbD i = true := by
  obtain ⟨m, mindex, hvalid, hbitmap, -⟩ := exists_slot_of_page hpage hj hi
  rw [← hbitmap] at htakes ⊢
  exact getLsbD_of_uses (hcount _ hvalid) (.inr htakes)

/-- The page of a continuation outside the first page. -/
theorem maybeMadvisePage_ok (numCpu : ℕ) (hσ : σ.Valid lay)
    (hmain : ∃ m mindex i, σ = .main m mindex i) :
    Local numCpu (maybeMadvisePage (σ.address lay) : Pc lay) ∧
      holds (maybeMadvisePage (σ.address lay) : Pc lay) = none ∧
      (locked (maybeMadvisePage (σ.address lay) : Pc lay)).2 = 0 := by
  obtain ⟨m, mindex, i, rfl⟩ := hmain
  unfold maybeMadvisePage Config.madvisablePageBase
  split
  next page hpage =>
    split_ifs at hpage
    obtain rfl := some.inj hpage
    exact ⟨⟨m, mindex, i, hσ, rfl, Slot.pageBitmaps_eq hσ⟩, rfl, rfl⟩
  next => exact ⟨trivial, rfl, rfl⟩

include hG hI hcount in
/-- **Release.** -/
theorem freeStep_ok (h : freeStep sh pc c = some (e, pc', sh')) :
    StepOk numCpu pc sh pc' sh' ∧ At pc e := by
  unfold freeStep at h
  split at h
  next c =>
    obtain ⟨σ, hσ, rfl⟩ := hI
    have hbit := getLsbD_of_uses (hcount σ hσ) (.inl rfl)
    simp only [(Slot.getMapsAndIndices_address hσ).1, (Slot.getMapsAndIndices_address hσ).2.1,
      hbit] at h
    exact goto_ok h hG ⟨σ, hσ, rfl⟩
  next c =>
    obtain ⟨σ, hσ, rfl⟩ := hI
    have hbit := getLsbD_of_uses (hcount σ hσ) (.inl rfl)
    simp only [(Slot.getMapsAndIndices_address hσ).1, (Slot.getMapsAndIndices_address hσ).2.1] at h
    cases h
    have huses (σ' : Slot) : uses σ' (.freeClear (σ.address lay) : Pc lay) =
      if σ.address lay = σ'.address lay then 1 else 0 := uses_of_holds rfl rfl
    have hafter (σ' : Slot) (empty : Bool) :
      uses σ' (.freeSupermap (σ.address lay) empty : Pc lay) = 0 := uses_eq_zero rfl rfl
    refine ⟨stepOk_of_bit hσ hG ⟨σ, hσ, rfl⟩ (fun i hi hne => ?_) ?_ fun σ' hne => ?_, trivial⟩
    · rw [getLsbD_clearBit _ hi, decide_eq_false hne, Bool.not_false, Bool.and_true]
    · rw [huses, hafter, if_pos rfl, getLsbD_clearBit _ (Slot.index_lt hσ), decide_eq_true rfl,
        Bool.not_true, Bool.and_false, bit, hbit]
      rfl
    · rw [huses, hafter, if_neg hne]
  next c empty =>
    obtain ⟨σ, hσ, rfl⟩ := hI
    simp only at h
    split at h
    next s hs =>
      have hmain := (Slot.getMapsAndIndices_address hσ).2.2.mp (by rw [hs]; rfl)
      obtain ⟨hlocal, hholds, hlocked⟩ := maybeMadvisePage_ok numCpu hσ hmain
      cases h
      refine ⟨?_, trivial⟩
      split_ifs
      · exact stepOk_of_same hG.supermaps hlocal fun σ => by
          rw [uses_eq_zero hholds hlocked, uses_eq_zero rfl rfl]
      · exact stepOk_of_same hG.supermaps trivial
    next => exact goto_ok h hG trivial
  next page a i =>
    split_ifs at h
    · exact goto_ok h hG trivial
    · exact goto_ok h hG hI
    · exact goto_ok h hG ⟨hI, lay.bitmapsPerPage_pos⟩ fun σ => by
        rw [uses_eq_zero rfl rfl, uses_eq_zero rfl rfl]
  next page a k =>
    obtain ⟨hpage, hk⟩ := hI
    simp only at h
    split_ifs at h with hzero hnext
    · cases h
      exact ⟨stepOk_of_take hG ⟨hpage, hnext⟩ rfl rfl rfl rfl hzero, trivial⟩
    · cases h
      have heq : lay.bitmapsPerPage = k + 1 := by omega
      exact ⟨stepOk_of_take hG hpage rfl rfl rfl (congrArg (Prod.mk a) heq) hzero, trivial⟩
    · exact goto_ok h hG ⟨hpage.isPage, hk.le⟩
  next page a =>
    cases h
    exact ⟨stepOk_of_same hG ⟨PageOk.isPage hI, le_rfl⟩, a, rfl⟩
  next a k =>
    obtain ⟨hpage, hk⟩ := hI
    cases h
    refine ⟨stepOk_of_giveBack hG ⟨hpage, le_of_succ_le hk⟩ rfl rfl rfl rfl fun i hi => ?_,
      a, k, rfl, rfl⟩
    exact getLsbD_of_takes hcount hpage hk ⟨k, lt_succ_self k, rfl⟩ hi
  · exact goto_ok h hG trivial fun σ => by
      rw [uses_eq_zero rfl rfl, uses_eq_zero rfl rfl]
  · cases h

include hG hI hcount in
/-- **Step lemma.** -/
theorem threadStep_ok (h : threadStep numCpu pc sh c = some (e, pc', sh')) :
    StepOk numCpu pc sh pc' sh' ∧ At pc e := by
  unfold threadStep at h
  split at h
  · exact goto_ok h hG trivial
  next c =>
    split_ifs at h with hc
    cases h
    refine ⟨⟨⟨hG.heaps, hG.lastFoundPage, fun c' hc' => ?_⟩, hG.allocated c hc, fun σ hσ => ?_⟩,
      trivial⟩
    · exact hG.allocated c' (Finset.mem_of_mem_erase hc')
    · rw [uses_of_holds (show holds (Pc.freeCheck c : Pc lay) = some c from rfl) rfl]
      show bit sh σ + given sh σ + 0 = bit sh σ + given _ σ + _
      unfold given
      simp only [Finset.mem_erase]
      by_cases heq : σ.address lay = c
      · rw [if_pos (heq ▸ hc), if_neg (fun h => h.1 heq), if_pos heq.symm]
      · rw [if_congr (and_iff_right heq) rfl rfl, if_neg (Ne.symm heq)]
  all_goals first
    | exact freeStep_ok hG hI hcount h
    | exact allocStep_ok hG hI hcount h

end Invariant

/-! ## Runs -/

section Runs

variable {lay : Layout} {numCpu : ℕ} {ι : Type*} {es : List (ι × Event)} {g g' : State lay ι}

/-- **Invariant**: every bit is accounted for. -/
structure Inv (numCpu : ℕ) (g : State lay ι) : Prop where
  finite : FinitelyActive .idle g.pc
  shared : SharedOk numCpu g.shared
  thread : ∀ t, Local numCpu (g.pc t)
  count : ∀ σ : Slot, σ.Valid lay → bit g.shared σ = given g.shared σ + total (uses σ) g.pc

theorem uses_idle (σ : Slot) : uses σ (.idle : Pc lay) = 0 := uses_eq_zero rfl rfl

theorem Inv.le (h : Inv numCpu g) (hσ : σ.Valid lay) (t : ι) :
    given g.shared σ + uses σ (g.pc t) ≤ bit g.shared σ := by
  have hcount := h.count σ hσ
  have hle := le_total h.finite (uses_idle σ) t
  omega

theorem inv_initial : Inv numCpu (initial lay ι) := by
  refine ⟨finitelyActive_const _, ⟨?_, ?_, ?_⟩, fun _ => trivial, fun σ _ => ?_⟩
  · intro heap hheap
    cases hheap
  · intro n a ha
    cases ha
  · intro c hc
    exact absurd hc (Finset.notMem_empty c)
  · have htotal : total (uses σ) (initial lay ι).pc = 0 := total_eq_zero fun _ => uses_idle σ
    rw [htotal]
    exact congrArg Bool.toNat BitVec.getLsbD_zero

variable {t : ι}

/-- No two use the same slot. -/
theorem Inv.not_uses (h : Inv numCpu g) [DecidableEq ι] (hσ : σ.Valid lay)
    (ht : uses σ (g.pc t) = 1) :
    σ.address lay ∉ g.shared.allocated ∧ ∀ u ≠ t, holds (g.pc u) ≠ some (σ.address lay) := by
  have hcount := h.count σ hσ
  have hone := bit_le_one g.shared σ
  have htotal := total_update h.finite (uses_idle σ) t .idle
  rw [uses_idle] at htotal
  refine ⟨fun hmem => ?_, fun u hu hholds => ?_⟩
  · rw [given, if_pos hmem] at hcount
    omega
  · have hother := le_total (h.finite.update t .idle) (uses_idle σ) u
    rw [update_of_ne hu, uses, if_pos (.inl hholds)] at hother
    omega

variable [DecidableEq ι]

theorem inv_step (h : Inv numCpu g) {x : ι × Event} (hstep : Step numCpu g x g') :
    Inv numCpu g' := by
  cases hstep with
  | @mk t e pc' sh' hst =>
  obtain ⟨c, hc⟩ := hst
  have hok := (threadStep_ok h.shared (h.thread t) (fun σ hσ => h.le hσ t) hc).1
  refine ⟨h.finite.update _ _, hok.shared, ?_, fun σ hσ => ?_⟩
  · exact (forall_update_iff g.pc fun _ pc => Local numCpu pc).mpr
      ⟨hok.thread, fun u _ => h.thread u⟩
  · show bit sh' σ = given sh' σ + total (uses σ) (update g.pc t pc')
    have hcount := h.count σ hσ
    have hstep := hok.count σ hσ
    have htotal := total_update h.finite (uses_idle σ) t pc'
    omega

/-- The continuation is in the hands of the client, or between a bit and the client. -/
def InUse (g : State lay ι) (c : ℕ) : Prop :=
  c ∈ g.shared.allocated ∨ ∃ t, holds (g.pc t) = some c

/-- A slot that a thread has taken is not in use. -/
theorem Inv.not_inUse (h : Inv numCpu g) (hσ : σ.Valid lay)
    (hholds : holds (g.pc t) = none) (ht : Takes (g.pc t) (σ.bitmap lay)) :
    ¬ InUse g (σ.address lay) := by
  obtain ⟨hgiven, hother⟩ := h.not_uses hσ (if_pos (.inr ht))
  rintro (hmem | ⟨u, hu⟩)
  · exact hgiven hmem
  · by_cases hut : u = t
    · rw [hut, hholds] at hu
      cases hu
    · exact hother u hut hu

theorem isCont_of_holds {pc : Pc lay} {c : ℕ} (hI : Local numCpu pc) (h : holds pc = some c) :
    IsCont lay c := by
  cases pc with
  | setLast found | mark found | markCheck found s | markStore found s =>
    obtain rfl := some.inj h
    exact Found.Ok.isCont hI
  | finish c' | freeCheck c' | freeClear c' =>
    obtain rfl := some.inj h
    exact hI
  | _ => cases h

/-- **The continuation allocator.** The address computations of `alloc` and `free` are inverse to
    each other, and whatever any number of threads do on any CPUs:

    * no check of a bit fails, and the bit of a continuation that is in use is set;
    * no continuation is returned while it is allocated;
    * a page is given back to the system only while no continuation of it is in use, and clearing
      the bitmaps of the page clears no bit of a continuation that is in use. -/
theorem allocator_run (hrun : Run (Step numCpu) (initial lay ι) es g) :
    (∀ m s b i, lay.Magazine m → s < lay.supermapsPerMagazine → b < lay.bitmapsPerSupermap →
      i < lay.continuationsPerBitmap → lay.getMapsAndIndices (lay.continuationAddress m s b i) =
        ⟨some (lay.supermapAddress m s), b, lay.bitmapAddress m s b, i⟩ ∧
      lay.getContAndIndices (lay.bitmapAddress m s b) i =
        (lay.continuationAddress m s b i, lay.supermapAddress m s, b)) ∧
    (∀ m i index, lay.Magazine m → lay.packFirstPage = true → index < lay.continuationsPerBitmap →
      i * lay.continuationsPerBitmap + index < lay.continuationsInFirstPage →
      lay.getMapsAndIndices (lay.fpContAddress m (i * lay.continuationsPerBitmap + index)) =
        ⟨none, i, lay.fpMapAddress m i, index⟩) ∧ (∀ t, g.pc t ≠ .crashed) ∧
    (∀ c, InUse g c → (g.shared.maps (lay.getMapsAndIndices c).bitmap).getLsbD
      (lay.getMapsAndIndices c).index = true) ∧ ∀ t e g', Step numCpu g (t, e) g' →
      (∀ c, e = .returned c → c ∉ g.shared.allocated ∧ ∀ u ≠ t, holds (g.pc u) ≠ some c) ∧
      (∀ page, e = .madvised page → ∀ c, IsCont lay c → lay.pageBase c = page → ¬ InUse g c) ∧
      (∀ bitmap, e = .unlocked bitmap →
        ∀ c, IsCont lay c → (lay.getMapsAndIndices c).bitmap = bitmap → ¬ InUse g c) := by
  have hinv := hrun.invariant (fun _ _ _ h hstep => inv_step h hstep)
    inv_initial
  refine ⟨fun m s b i hm hs hb hi => ?_, fun m i index hm hpack hindex hi => ?_, fun t ht => ?_,
    fun c hc => ?_, fun t e g' hstep => ?_⟩
  · exact ⟨Layout.getMapsAndIndices_continuationAddress hm hs hb hi,
      Layout.getContAndIndices_bitmapAddress hm hs hb⟩
  · rw [Layout.getMapsAndIndices_fpContAddress hm hpack hi, mul_add_div hindex, mul_add_mod hindex]
  · have hlocal := hinv.thread t
    rw [ht] at hlocal
    exact hlocal
  · have hcont : IsCont lay c := by
      rcases hc with hmem | ⟨t, ht⟩
      · exact hinv.shared.allocated c hmem
      · exact isCont_of_holds (hinv.thread t) ht
    obtain ⟨σ, hσ, rfl⟩ := hcont
    rw [(Slot.getMapsAndIndices_address hσ).1, (Slot.getMapsAndIndices_address hσ).2.1]
    rcases hc with hmem | ⟨t, ht⟩
    · have hcount := hinv.count σ hσ
      rw [given, if_pos hmem] at hcount
      exact getLsbD_of_bit (by omega)
    · exact getLsbD_of_uses (hinv.le hσ t) (.inl ht)
  · cases hstep with
    | @mk _ _ pc' sh' hst =>
    obtain ⟨c, hc⟩ := hst
    have hat := (threadStep_ok hinv.shared (hinv.thread t) (fun σ hσ => hinv.le hσ t) hc).2
    have hlocal := hinv.thread t
    refine ⟨?_, ?_, ?_⟩
    · rintro c rfl
      rw [show g.pc t = .finish c from hat] at hlocal
      obtain ⟨σ, hσ, rfl⟩ := hlocal
      have hholds : holds (g.pc t) = some (σ.address lay) := by
        rw [show g.pc t = .finish (σ.address lay) from hat]
        rfl
      exact hinv.not_uses hσ (if_pos (.inl hholds))
    · rintro page rfl c ⟨σ, hσ, rfl⟩ hpage
      obtain ⟨a, ha⟩ := hat
      rw [ha] at hlocal
      obtain ⟨m, mindex, i, hvalid, rfl, rfl⟩ := hlocal
      obtain ⟨j, hj, hbitmap⟩ := Slot.bitmap_of_pageBase_eq hvalid hσ hpage
      refine hinv.not_inUse hσ (by rw [ha]; rfl) ?_
      rw [ha]
      exact ⟨j, hj, hbitmap⟩
    · rintro bitmap rfl c ⟨σ, hσ, rfl⟩ hbitmap
      obtain ⟨a, k, ha, rfl⟩ := hat
      rw [(Slot.getMapsAndIndices_address hσ).1] at hbitmap
      refine hinv.not_inUse hσ (by rw [ha]; rfl) ?_
      rw [ha]
      exact ⟨k, lt_succ_self k, hbitmap⟩

end Runs

/-- Thread 0 allocates the first continuation of a new heap, thread 1 frees it and has taken the
bitmap of its page: it may give the page back. -/
theorem allocator_run_madvise : ∃ es, ∃ g : State macOS (Fin 2),
    Run (Step 1) (initial macOS (Fin 2)) es g ∧ g.pc 1 = .madvise 0x201000 0x200080 ∧
    (Slot.main 0x200000 0 0).address macOS = 0x201000 ∧ ¬ InUse g 0x201000 := by
  obtain ⟨es, g, hrun, hpc⟩ : ∃ es, ∃ g : State macOS (Fin 2),
      Run (Step 1) (initial macOS (Fin 2)) es g ∧ g.pc 1 = .madvise 0x201000 0x200080 :=
    exists_history_of_schedule (fun _ => threadStep 1)
      [(0, .alloc), (0, .go), (0, .go), (0, .region 0x200000), (0, .go), (0, .cpu 0), (0, .go),
        (0, .go), (0, .cpu 0), (0, .go), (0, .go), (0, .go), (1, .free 0x201000), (1, .go),
        (1, .go), (1, .go), (1, .go), (1, .go), (1, .go)]
      (by decide +kernel)
  have hvalid : (Slot.main 0x200000 0 0).Valid macOS :=
    ⟨⟨by decide +kernel, by decide +kernel⟩, by decide +kernel, by decide +kernel⟩
  have haddress : (Slot.main 0x200000 0 0).address macOS = 0x201000 := by decide +kernel
  have hstep : Step 1 g (1, .madvised 0x201000)
      ⟨update g.pc 1 (.unlock 0x200080 macOS.bitmapsPerPage), g.shared⟩ :=
    .mk ⟨.go, by rw [hpc]; rfl⟩
  have hfree := ((allocator_run hrun).2.2.2.2 1 _ _ hstep).2.1 0x201000 rfl
  exact ⟨es, g, hrun, hpc, haddress,
    hfree 0x201000 ⟨_, hvalid, haddress⟩ (by decide +kernel)⟩

end Apple.Dispatch.Allocator
