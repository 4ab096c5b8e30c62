import Apple.Dispatch.AllocatorLayout
import Apple.Lib.Tally

/-!
# The continuation allocator

`_dispatch_alloc_continuation_alloc` and `_dispatch_alloc_continuation_free`
(`libdispatch-913.60.2/src/allocator.c`, lines 216–592). A bit of a bitmap says whether a
continuation is in use; a thread that frees the last continuation of a page tries to take all
bitmaps of the page, gives its memory back and clears the bitmaps again. The supermaps and the page
where a CPU has found a continuation last are hints.

Any number of threads allocate and free. One step is one atomic access to a bitmap, a supermap, a
hint or the list of heaps; a thread may move to another CPU between two calls of
`_dispatch_cpu_number`. The memory of a new heap is chosen by the kernel: aligned, unused and zero.

Every bit is accounted for (`Inv.count`): it is 1 when the continuation is allocated, or some thread
is between its bit and the client, or has taken the bitmap; and only one of these is ever the case.

Result: `allocator_run`.
-/

namespace Apple.Dispatch.Allocator

open Lib

/-! ## Bitmaps -/

section Bitmaps

variable {w : ℕ}

/-- `os_atomic_set_first_bit`: the first bit that is not set, if it is at most `maxIndex`
(`shims/atomic_sfb.h`, lines 83–104). -/
def firstUnsetBit (b : BitVec w) (maxIndex : ℕ) : Option ℕ :=
  match (List.range w).find? fun i => !b.getLsbD i with
  | some index => if index > maxIndex then none else some index
  | none => none

/-- `b | (1 << index)` -/
def setBit (b : BitVec w) (index : ℕ) : BitVec w := b ||| 1#w <<< index

/-- `b & ~(1 << index)` -/
def clearBit (b : BitVec w) (index : ℕ) : BitVec w := b &&& ~~~(1#w <<< index)

/-- `bitmap_is_full` -/
def bitmapIsFull (b : BitVec w) : Bool := b = BitVec.allOnes w

theorem firstUnsetBit_spec {b : BitVec w} {maxIndex index : ℕ}
    (h : firstUnsetBit b maxIndex = some index) :
    index < w ∧ b.getLsbD index = false ∧ index ≤ maxIndex := by
  unfold firstUnsetBit at h
  cases hfind : (List.range w).find? fun i => !b.getLsbD i with
  | none =>
    rw [hfind] at h
    cases h
  | some i =>
    rw [hfind] at h
    simp only at h
    split_ifs at h with hle
    obtain rfl := Option.some.inj h
    have hmem := List.mem_of_find?_eq_some hfind
    have hbit := List.find?_some hfind
    exact ⟨List.mem_range.mp hmem, by simpa using hbit, not_lt.mp hle⟩

theorem getLsbD_setBit (b : BitVec w) {index i : ℕ} (hi : i < w) :
    (setBit b index).getLsbD i = (b.getLsbD i || decide (i = index)) := by
  unfold setBit
  simp only [BitVec.getLsbD_or, BitVec.getLsbD_shiftLeft, BitVec.getLsbD_one, hi, decide_true,
    Bool.true_and]
  congr 1
  rw [← decide_not, ← Bool.decide_and, ← Bool.decide_and]
  exact decide_eq_decide.mpr (by omega)

theorem getLsbD_clearBit (b : BitVec w) {index i : ℕ} (hi : i < w) :
    (clearBit b index).getLsbD i = (b.getLsbD i && !decide (i = index)) := by
  unfold clearBit
  simp only [BitVec.getLsbD_and, BitVec.getLsbD_not, BitVec.getLsbD_shiftLeft, BitVec.getLsbD_one,
    hi, decide_true, Bool.true_and]
  congr 2
  rw [← decide_not, ← Bool.decide_and, ← Bool.decide_and]
  exact decide_eq_decide.mpr (by omega)

end Bitmaps

/-! ## The source -/

/-- What the threads share; `allocated` is auxiliary: the continuations that have been returned and
have not been freed. -/
structure Shared (lay : Layout) where
  /-- the bitmaps, by address -/
  maps : ℕ → BitVec lay.continuationsPerBitmap
  supermaps : ℕ → BitVec lay.continuationsPerBitmap
  /-- `last_found_page`, by CPU -/
  lastFoundPage : ℕ → Option ℕ
  /-- `_dispatch_main_heap` and the heaps after it -/
  heaps : List ℕ
  allocated : Finset ℕ

/-- A continuation that has been found, its bitmap and its supermap. -/
structure Found where
  cont : ℕ
  bitmap : ℕ
  supermap : ℕ
  bitmapIndex : ℕ
  deriving DecidableEq

/-- Where a thread is. -/
inductive Pc (lay : Layout)
  | idle
  /-- `_dispatch_alloc_continuation_alloc` reads `_dispatch_main_heap` -/
  | alloc
  | lastPage (heap : ℕ)
  /-- looks at the bitmap `last + i` -/
  | scanLast (heap last i : ℕ)
  /-- `_dispatch_alloc_continuation_from_heap`; `next` is the heap to go on with -/
  | fromHeap (heap next : ℕ)
  | firstPage (m next i : ℕ)
  | supermap (m next s : ℕ)
  | bitmap (m next s b : ℕ)
  | setLast (found : Found)
  /-- `mark_bitmap_as_full_if_still_full` loads the supermap, … -/
  | mark (found : Found)
  /-- … looks at the bitmap … -/
  | markCheck (found : Found) (s : BitVec lay.continuationsPerBitmap)
  /-- … and stores to the supermap -/
  | markStore (found : Found) (s : BitVec lay.continuationsPerBitmap)
  | finish (cont : ℕ)
  /-- `_dispatch_alloc_continuation_from_heap_slow` reads the pointer to heap `n` -/
  | slow (n : ℕ)
  | create (n : ℕ)
  /-- `bitmap_clear_bit` makes sure that the bit is set, … -/
  | freeCheck (c : ℕ)
  /-- … and clears it -/
  | freeClear (c : ℕ)
  | freeSupermap (c : ℕ) (bitmapNowEmpty : Bool)
  /-- `_dispatch_alloc_maybe_madvise_page`: are all continuations of the page unallocated? -/
  | pageScan (page pageBitmaps i : ℕ)
  | lock (page pageBitmaps lastLocked : ℕ)
  | madvise (page pageBitmaps : ℕ)
  | unlock (pageBitmaps lastLocked : ℕ)
  | crashed
  deriving DecidableEq

/-- What a step does. -/
inductive Event
  | silent
  | returned (cont : ℕ)
  | cleared (cont : ℕ)
  | madvised (page : ℕ)
  | unlocked (bitmap : ℕ)
  | crashed
  deriving DecidableEq

/-- What is not determined by the state: the call of an idle thread, the CPU it runs on, the memory
of a new heap. -/
inductive Choice
  | go
  | alloc
  | free (c : ℕ)
  | cpu (n : ℕ)
  | region (address : ℕ)

section Source

variable (lay : Layout) (numCpu : ℕ)

/-- The result of a step. -/
abbrev Result := Option (Event × Pc lay × Shared lay)

variable {lay}

def goto (sh : Shared lay) (pc : Pc lay) : Result lay := some (.silent, pc, sh)

/-- A store to a bitmap. -/
def Shared.store (sh : Shared lay) (bitmap : ℕ) (b : BitVec lay.continuationsPerBitmap) :
    Shared lay :=
  { sh with maps := Function.update sh.maps bitmap b }

@[simp] theorem Shared.maps_store (sh : Shared lay) (bitmap : ℕ)
    (b : BitVec lay.continuationsPerBitmap) :
    (sh.store bitmap b).maps = Function.update sh.maps bitmap b := rfl

/-- `bitmap_set_first_unset_bit_upto_index`, and where the thread goes with the index or without. -/
def setFirstUnsetBit (sh : Shared lay) (bitmap maxIndex : ℕ) (some' : ℕ → Pc lay) (none' : Pc lay) :
    Result lay :=
  match firstUnsetBit (sh.maps bitmap) maxIndex with
  | some index =>
    some (.silent, some' index, sh.store bitmap (setBit (sh.maps bitmap) index))
  | none => goto sh none'

/-- The memory of a heap does not overlap another one. -/
def IsFresh (lay : Layout) (numCpu : ℕ) (heaps : List ℕ) (region : ℕ) : Prop :=
  ∀ heap ∈ heaps, region + numCpu * lay.bytesPerMagazine ≤ heap ∨
    heap + numCpu * lay.bytesPerMagazine ≤ region

instance (heaps : List ℕ) (region : ℕ) : Decidable (IsFresh lay numCpu heaps region) :=
  inferInstanceAs (Decidable (∀ heap ∈ heaps, _))

/-- `UINT_MAX` -/
def uintMax : ℕ := 2 ^ 32 - 1

/-- A step of `_dispatch_alloc_continuation_alloc`. -/
def allocStep (sh : Shared lay) : Pc lay → Choice → Result lay
  | .alloc, .go =>
    match sh.heaps[0]? with
    | some heap => goto sh (.lastPage heap)
    | none => goto sh (.slow 0)
  | .lastPage heap, .cpu n =>
    if n < numCpu then
      match sh.lastFoundPage n with
      | some last => goto sh (.scanLast heap last 0)
      | none => goto sh (.fromHeap heap 0)
    else none
  | .scanLast heap last i, .go =>
    if i < lay.bitmapsPerPage then
      let cur := last + i * lay.bytesPerBitmap
      setFirstUnsetBit sh cur uintMax
        (fun index =>
          let (cont, supermap, bindex) := lay.getContAndIndices cur index
          .mark ⟨cont, cur, supermap, bindex⟩)
        (.scanLast heap last (i + 1))
    else goto sh (.fromHeap heap 0)
  | .fromHeap heap next, .cpu n =>
    if n < numCpu then
      let m := heap + n * lay.bytesPerMagazine
      goto sh (if lay.packFirstPage then .firstPage m next 0 else .supermap m next 0)
    else none
  | .firstPage m next i, .go =>
    if i < lay.fullBitmapsInFirstPage then
      setFirstUnsetBit sh (lay.fpMapAddress m i) uintMax
        (fun index => .finish (lay.fpContAddress m (i * lay.continuationsPerBitmap + index)))
        (.firstPage m next (i + 1))
    else if lay.remainderedContinuationsInFirstPage ≠ 0 then
      setFirstUnsetBit sh (lay.fpMapAddress m i) (lay.remainderedContinuationsInFirstPage - 1)
        (fun index => .finish (lay.fpContAddress m (i * lay.continuationsPerBitmap + index)))
        (.supermap m next 0)
    else goto sh (.supermap m next 0)
  | .supermap m next s, .go =>
    if s < lay.supermapsPerMagazine then
      if bitmapIsFull (sh.supermaps (lay.supermapAddress m s)) then
        goto sh (.supermap m next (s + 1))
      else goto sh (.bitmap m next s 0)
    else goto sh (.slow next)
  | .bitmap m next s b, .go =>
    if b < lay.bitmapsPerSupermap then
      let bitmap := lay.bitmapAddress m s b
      setFirstUnsetBit sh bitmap uintMax
        (fun index =>
          .setLast ⟨lay.continuationAddress m s b index, bitmap, lay.supermapAddress m s, b⟩)
        (.bitmap m next s (b + 1))
    else goto sh (.supermap m next (s + 1))
  | .setLast found, .cpu n =>
    if n < numCpu then
      let page := lay.firstBitmapInSamePage found.bitmap
      some (.silent, .mark found,
        { sh with lastFoundPage := Function.update sh.lastFoundPage n (some page) })
    else none
  | .mark found, .go => goto sh (.markCheck found (sh.supermaps found.supermap))
  | .markCheck found s, .go =>
    if bitmapIsFull (sh.maps found.bitmap) then goto sh (.markStore found s)
    else goto sh (.finish found.cont)
  | .markStore found s, .go =>
    if sh.supermaps found.supermap = s then
      let s' := setBit s found.bitmapIndex
      some (.silent, .finish found.cont,
        { sh with supermaps := Function.update sh.supermaps found.supermap s' })
    else goto sh (.mark found)
  | .finish cont, .go =>
    some (.returned cont, .idle, { sh with allocated := insert cont sh.allocated })
  | .slow n, .go =>
    match sh.heaps[n]? with
    | some heap => goto sh (.fromHeap heap (n + 1))
    | none => goto sh (.create n)
  | .create n, .region address =>
    if lay.bytesPerMagazine ∣ address ∧
        address + numCpu * lay.bytesPerMagazine ≤ 2 ^ lay.pointerBits ∧
        IsFresh lay numCpu sh.heaps address then
      -- the thread that finds another heap there unmaps its own
      if sh.heaps.length = n then
        some (.silent, .slow n, { sh with heaps := sh.heaps ++ [address] })
      else goto sh (.slow n)
    else none
  | _, _ => none

/-- The start of `_dispatch_alloc_maybe_madvise_page`. -/
def maybeMadvisePage (c : ℕ) : Pc lay :=
  match lay.madvisablePageBase c with
  | some page => .pageScan page (lay.getMapsAndIndices page).bitmap 0
  | none => .idle

/-- A step of `_dispatch_alloc_continuation_free`. -/
def freeStep (sh : Shared lay) : Pc lay → Choice → Result lay
  | .freeCheck c, .go =>
    let r := lay.getMapsAndIndices c
    if (sh.maps r.bitmap).getLsbD r.index then goto sh (.freeClear c)
    else some (.crashed, .crashed, sh)
  | .freeClear c, .go =>
    let r := lay.getMapsAndIndices c
    let b := clearBit (sh.maps r.bitmap) r.index
    some (.cleared c, .freeSupermap c (b = 0#_), sh.store r.bitmap b)
  | .freeSupermap c bitmapNowEmpty, .go =>
    let r := lay.getMapsAndIndices c
    match r.supermap with
    | some s =>
      let b := clearBit (sh.supermaps s) r.bitmapIndex
      some (.silent, if bitmapNowEmpty then maybeMadvisePage c else .idle,
        { sh with supermaps := Function.update sh.supermaps s b })
    | none => goto sh .idle
  | .pageScan page pageBitmaps i, .go =>
    if i < lay.bitmapsPerPage then
      if sh.maps (pageBitmaps + i * lay.bytesPerBitmap) ≠ 0#_ then
        goto sh .idle
      else goto sh (.pageScan page pageBitmaps (i + 1))
    else goto sh (.lock page pageBitmaps 0)
  | .lock page pageBitmaps lastLocked, .go =>
    let bitmap := pageBitmaps + lastLocked * lay.bytesPerBitmap
    if sh.maps bitmap = 0#_ then
      some (.silent,
        if lastLocked + 1 < lay.bitmapsPerPage then .lock page pageBitmaps (lastLocked + 1)
        else .madvise page pageBitmaps,
        sh.store bitmap (BitVec.allOnes _))
    else goto sh (.unlock pageBitmaps lastLocked)
  | .madvise page pageBitmaps, .go =>
    some (.madvised page, .unlock pageBitmaps lay.bitmapsPerPage, sh)
  | .unlock pageBitmaps (lastLocked + 1), .go =>
    let bitmap := pageBitmaps + lastLocked * lay.bytesPerBitmap
    some (.unlocked bitmap, .unlock pageBitmaps lastLocked, sh.store bitmap 0#_)
  | .unlock _ 0, .go => goto sh .idle
  | _, _ => none

/-- One step of a thread. -/
def threadStep (pc : Pc lay) (sh : Shared lay) (c : Choice) : Result lay :=
  match pc, c with
  | .idle, .alloc => goto sh .alloc
  | .idle, .free c =>
    if c ∈ sh.allocated then
      some (.silent, .freeCheck c, { sh with allocated := sh.allocated.erase c })
    else none
  | .freeCheck _, _ | .freeClear _, _ | .freeSupermap _ _, _ | .pageScan _ _ _, _
  | .lock _ _ _, _ | .madvise _ _, _ | .unlock _ _, _ => freeStep sh pc c
  | _, _ => allocStep numCpu sh pc c

/-- The steps of a thread, as a relation. -/
def ThreadStep (pc : Pc lay) (sh : Shared lay) (e : Event) (pc' : Pc lay) (sh' : Shared lay) :
    Prop :=
  ∃ c, threadStep numCpu pc sh c = some (e, pc', sh')

/-- The threads and the heaps. -/
abbrev State (lay : Layout) (ι : Type*) := Threads ι (Pc lay) (Shared lay)

/-- A step of any thread. -/
abbrev Step {ι : Type*} [DecidableEq ι] : State lay ι → ι × Event → State lay ι → Prop :=
  Interleave fun _ => ThreadStep numCpu

/-- There is no heap yet. -/
def initial (lay : Layout) (ι : Type*) : State lay ι :=
  ⟨fun _ => .idle, ⟨fun _ => 0#_, fun _ => 0#_, fun _ => none, [], ∅⟩⟩

end Source

end Apple.Dispatch.Allocator
