import Apple.Dispatch.TimerHeapLayout
import Apple.Lib.HeapOrder

/-!
# Sifting in a timer heap

The heap with the id `id` has the indices `Positions n id`. `HeapOk s segs n id b` says that
it holds the timers `b`: every slot holds its timer, `dt_heap_entry` of the timer is the index
of the slot, and the keys are in heap order. While `resift` looks for the place of a timer
one slot is free (`Hole`).

Result: `resift_spec`: `resift` restores the heap from one that is in order around the index it
starts from, and changes nothing of the other heap (`Frame`).
-/

namespace Apple.Dispatch.TimerHeap

open Lib.HeapOrder

variable {τ : Type}

/-! ## The forest of the indices -/

/-- The indices below `n` of the heap `id`. -/
def Positions (n id : ℕ) : Set ℕ := {j | j < n ∧ j % 2 = id}

/-- The index of the parent; the indices 0 and 1 are the roots of the two heaps. -/
def parentOf (j : ℕ) : Option ℕ := if 2 ≤ j then some (parent j) else none

theorem parentOf_eq_some {j p : ℕ} : parentOf j = some p ↔
    2 ≤ j ∧ 2 * ((j - 2) / 2 / 2) + j % 2 = p := by
  unfold parentOf
  split_ifs with h
  · simp [h, parent_eq]
  · simp [h]

theorem parentOf_lt (j p : ℕ) (h : parentOf j = some p) : p < j := by
  obtain ⟨h2, rfl⟩ := parentOf_eq_some.mp h
  omega

variable {id : ℕ} {b : ℕ → τ} {s : State τ} {segs : ℕ → Address} {n i : ℕ}

theorem parentOf_mem (j : ℕ) (hj : j ∈ Positions n id) (p : ℕ)
    (h : parentOf j = some p) : p ∈ Positions n id := by
  obtain ⟨h2, rfl⟩ := parentOf_eq_some.mp h
  obtain ⟨hjn, hjid⟩ := hj
  exact ⟨by omega, by omega⟩

/-- The two children of an index. -/
theorem parentOf_eq_some_iff {j : ℕ} :
    parentOf j = some i ↔ j = leftChild i ∨ j = leftChild i + 2 := by
  rw [parentOf_eq_some, leftChild_eq]
  omega

theorem leftChild_mod (i : ℕ) : leftChild i % 2 = i % 2 := by
  rw [leftChild_eq]
  omega

theorem lt_leftChild (i : ℕ) : i < leftChild i := by
  rw [leftChild_eq]
  omega

/-! ## The state of one heap -/

/-- The heap `id` with the indices below `n` holds the timers `b`. -/
structure HeapOk (s : State τ) (segs : ℕ → Address) (n id : ℕ) (b : ℕ → τ) : Prop where
  slots : ∀ j ∈ Positions n id, s.load (slotOf segs j) = some (b j)
  entries : ∀ j ∈ Positions n id, s.entry (b j) id = some j
  order : IsHeap parentOf (Positions n id) (s.key · id) b

theorem HeapOk.injOn (h : HeapOk s segs n id b) : Set.InjOn b (Positions n id) := by
  intro j hj k hk he
  have hentry := h.entries j hj
  rw [he, h.entries k hk] at hentry
  exact (Option.some.inj hentry).symm

theorem HeapOk.congr {t : State τ} {segs' : ℕ → Address} (h : HeapOk s segs n id b)
    (hload : ∀ j ∈ Positions n id, t.load (slotOf segs' j) = s.load (slotOf segs j))
    (hentry : ∀ j ∈ Positions n id, t.entry (b j) id = s.entry (b j) id)
    (hkey : ∀ j ∈ Positions n id, t.key (b j) id = s.key (b j) id) : HeapOk t segs' n id b where
  slots j hj := (hload j hj).trans (h.slots j hj)
  entries j hj := (hentry j hj).trans (h.entries j hj)
  order j hj p hp := by
    simp only [hkey j hj, hkey p (parentOf_mem j hj p hp)]
    exact h.order j hj p hp

/-- The heap `id` with the indices below `count`, where the slot and the entry of the timer
for the index `i` are still to be written. -/
structure Hole (s : State τ) (segs : ℕ → Address) (id : ℕ) (b : ℕ → τ) (i : ℕ) : Prop where
  layout : Layout s segs
  fits : s.count ≤ capacity s.segments
  mem : i ∈ Positions s.count id
  inj : Set.InjOn b (Positions s.count id)
  slots : ∀ j ∈ Positions s.count id, j ≠ i → s.load (slotOf segs j) = some (b j)
  entries : ∀ j ∈ Positions s.count id, j ≠ i → s.entry (b j) id = some j

/-- Between `s` and `t` only slots of the heap `id` and entries of the timers in `T` for that
heap have been written. -/
structure Frame (s t : State τ) (segs : ℕ → Address) (id : ℕ) (T : Set τ) : Prop where
  layout : Layout t segs
  count : t.count = s.count
  segments : t.segments = s.segments
  key : t.key = s.key
  load : ∀ j < capacity s.segments, j % 2 ≠ id → t.load (slotOf segs j) = s.load (slotOf segs j)
  entry : ∀ dt id', id' ≠ id ∨ dt ∉ T → t.entry dt id' = s.entry dt id'

namespace Frame

variable {s t u : State τ} {segs : ℕ → Address} {id : ℕ} {T : Set τ}

theorem refl (h : Layout s segs) : Frame s s segs id T :=
  ⟨h, rfl, rfl, rfl, fun _ _ _ => rfl, fun _ _ _ => rfl⟩

theorem trans (h : Frame s t segs id T) (h' : Frame t u segs id T) : Frame s u segs id T where
  layout := h'.layout
  count := h'.count.trans h.count
  segments := h'.segments.trans h.segments
  key := h'.key.trans h.key
  load j hj hid := (h'.load j (by rw [h.segments]; exact hj) hid).trans (h.load j hj hid)
  entry dt id' hdt := (h'.entry dt id' hdt).trans (h.entry dt id' hdt)

end Frame

namespace Hole

variable {s : State τ} {segs : ℕ → Address} {id : ℕ} {b : ℕ → τ} {i : ℕ} {j : ℕ}

theorem lt_capacity (h : Hole s segs id b i) (hj : j ∈ Positions s.count id) :
    j < capacity s.segments := hj.1.trans_le h.fits

theorem getSlot (h : Hole s segs id b i) (hj : j ∈ Positions s.count id) :
    getSlot s j = some (slotOf segs j) := h.layout.getSlot (h.lt_capacity hj)

end Hole

/-! ## The two loops -/

/-- What a sift leaves: the hole is at `i'` of the rearranged timers `c`. -/
structure Sifted (s t : State τ) (segs : ℕ → Address) (id : ℕ) (b c : ℕ → τ) (i i' : ℕ) : Prop where
  hole : Hole t segs id c i'
  value : c i' = b i
  rearranges : Rearranges (Positions s.count id) b c
  frame : Frame s t segs id (b '' Positions s.count id)
  near : NearHeap parentOf (Positions s.count id) (s.key · id) c i'
  above : AboveOk parentOf (s.key · id) c i'

namespace Sifted

variable {s t u : State τ} {segs : ℕ → Address} {id : ℕ} {b c d : ℕ → τ} {i p i' : ℕ}

theorem refl (h : Hole s segs id b i)
    (hnear : NearHeap parentOf (Positions s.count id) (s.key · id) b i)
    (habove : AboveOk parentOf (s.key · id) b i) : Sifted s s segs id b b i i :=
  ⟨h, rfl, .refl _ _, .refl h.layout, hnear, habove⟩

/-- A sift that starts with one exchange. -/
theorem of_move (hframe : Frame s t segs id (b '' Positions s.count id))
    (hi : i ∈ Positions s.count id) (hp : p ∈ Positions s.count id)
    (h : Sifted t u segs id (exchange b i p) d p i') : Sifted s u segs id b d i i' := by
  obtain ⟨hole, value, hre, hfr, near, above⟩ := h
  rw [hframe.count] at hre hfr near
  rw [hframe.key] at near above
  have hex : Rearranges (Positions s.count id) b (exchange b i p) := .exchange hi hp
  rw [hex.image_eq] at hfr
  exact ⟨hole, value.trans (exchange_right b i p), hex.trans hre, hframe.trans hfr, near, above⟩

end Sifted

/-- The smaller of the children of the hole. -/
theorem smallerChild_spec (h : Hole s segs id b i) (hleft : leftChild i < s.count) :
    ∃ c, smallerChild s id (leftChild i) = some (c, slotOf segs c, b c) ∧
      c ∈ Positions s.count id ∧ parentOf c = some i ∧
      ∀ j ∈ Positions s.count id, parentOf j = some i → s.key (b c) id ≤ s.key (b j) id := by
  have hmod := leftChild_mod i
  have hlt := lt_leftChild i
  have hid := h.mem.2
  have hl : leftChild i ∈ Positions s.count id := ⟨hleft, by omega⟩
  have hloadl := h.slots _ hl hlt.ne'
  by_cases hright : leftChild i + 2 < s.count
  · have hr : leftChild i + 2 ∈ Positions s.count id := ⟨hright, by omega⟩
    have hloadr := h.slots _ hr (by omega)
    by_cases hkey : s.key (b (leftChild i + 2)) id < s.key (b (leftChild i)) id
    · refine ⟨leftChild i + 2, ?_, hr, parentOf_eq_some_iff.mpr (Or.inr rfl), fun j _ hj => ?_⟩
      · simp [smallerChild, idCount, h.getSlot hl, h.getSlot hr, hloadl, hloadr, hright, hkey]
      · rcases parentOf_eq_some_iff.mp hj with rfl | rfl
        · exact hkey.le
        · exact le_rfl
    · refine ⟨leftChild i, ?_, hl, parentOf_eq_some_iff.mpr (Or.inl rfl), fun j _ hj => ?_⟩
      · simp [smallerChild, idCount, h.getSlot hl, h.getSlot hr, hloadl, hloadr, hkey]
      · rcases parentOf_eq_some_iff.mp hj with rfl | rfl
        · exact le_rfl
        · exact not_lt.mp hkey
  · refine ⟨leftChild i, ?_, hl, parentOf_eq_some_iff.mpr (Or.inl rfl), fun j hjP hj => ?_⟩
    · simp [smallerChild, idCount, h.getSlot hl, hloadl, hright]
    · rcases parentOf_eq_some_iff.mp hj with rfl | rfl
      · exact le_rfl
      · exact absurd hjP.1 hright

section Sift

variable [DecidableEq τ]

theorem setEntry_entry (s : State τ) (dt dt' : τ) (id id' : ℕ) (v : Option ℕ) :
    (s.setEntry dt id v).entry dt' id' = if dt' = dt ∧ id' = id then v else s.entry dt' id' := by
  by_cases hdt : dt' = dt
  · subst hdt
    by_cases hid : id' = id
    · subst hid
      simp [State.setEntry]
    · simp [State.setEntry, hid]
  · simp [State.setEntry, hdt]

variable {i id : ℕ} {s : State τ} {segs : ℕ → Address} {b : ℕ → τ}

/-- `_dispatch_timer_heap_set` at an index below the capacity. -/
theorem set_spec (h : Layout s segs)
    (hi : i < capacity s.segments) (dt : τ) : ∃ t, set s (slotOf segs i) dt i = some t ∧
      Layout t segs ∧ t.count = s.count ∧ t.segments = s.segments ∧ t.key = s.key ∧
      (∀ j < capacity s.segments,
        t.load (slotOf segs j) = if j = i then some dt else s.load (slotOf segs j)) ∧
      ∀ dt' id', t.entry dt' id' = if dt' = dt ∧ id' = i % 2 then some i else s.entry dt' id' := by
  obtain ⟨u, hu, hw⟩ := h.store hi (some dt)
  refine ⟨u.setEntry dt (heapId i) (some i), ?_, hw.layout.congr rfl rfl rfl, hw.count, hw.segments,
    hw.key, fun j hj => ?_, fun dt' id' => ?_⟩
  · rw [set, hu, Option.map_some]
  · rw [← hw.load j hj]
    rfl
  · rw [setEntry_entry, heapId_eq, hw.entry]

namespace Hole

variable {s : State τ} {segs : ℕ → Address} {id : ℕ} {b : ℕ → τ} {i : ℕ} {p : ℕ}

/-- Writing one of the timers of the heap to the hole. -/
theorem set (h : Hole s segs id b i) (hp : p ∈ Positions s.count id) :
    ∃ t, set s (slotOf segs i) (b p) i = some t ∧ Frame s t segs id (b '' Positions s.count id) ∧
      (∀ j ∈ Positions s.count id, j ≠ i → t.load (slotOf segs j) = s.load (slotOf segs j)) ∧
      (∀ j ∈ Positions s.count id, j ≠ p → t.entry (b j) id = s.entry (b j) id) ∧
      t.load (slotOf segs i) = some (b p) ∧ t.entry (b p) id = some i := by
  obtain ⟨t, ht, hlayout, hcount, hsegments, hkey, hload, hentry⟩ :=
    set_spec h.layout (h.lt_capacity h.mem) (b p)
  refine ⟨t, ht, ⟨hlayout, hcount, hsegments, hkey, fun j hj hid => ?_, fun dt id' hdt => ?_⟩,
    fun j hj hji => ?_, fun j hj hjp => ?_, ?_, ?_⟩
  · rw [hload j hj, if_neg]
    rintro rfl
    exact hid h.mem.2
  · rw [hentry, if_neg]
    rintro ⟨rfl, hid⟩
    rw [h.mem.2] at hid
    exact hdt.elim (fun hne => hne hid) (fun hne => hne ⟨p, hp, rfl⟩)
  · rw [hload j (h.lt_capacity hj), if_neg hji]
  · rw [hentry, if_neg]
    rintro ⟨he, -⟩
    exact hjp (h.inj hj hp he)
  · rw [hload i (h.lt_capacity h.mem), if_pos rfl]
  · rw [hentry, if_pos ⟨rfl, h.mem.2.symm⟩]

/-- The timer at `p` moves into the hole, and the hole to `p`. -/
theorem move (h : Hole s segs id b i) (hp : p ∈ Positions s.count id) (hpi : p ≠ i) :
    ∃ t, TimerHeap.set s (slotOf segs i) (b p) i = some t ∧ Hole t segs id (exchange b i p) p ∧
      Frame s t segs id (b '' Positions s.count id) := by
  obtain ⟨t, ht, hframe, hload, hentry, hload', hentry'⟩ := h.set hp
  refine ⟨t, ht, ⟨hframe.layout, ?_, ?_, ?_, ?_, ?_⟩, hframe⟩
  · rw [hframe.count, hframe.segments]
    exact h.fits
  · rwa [hframe.count]
  · rw [hframe.count]
    exact (Rearranges.exchange h.mem hp).injOn h.inj
  · rw [hframe.count]
    intro j hj hjp
    by_cases hji : j = i
    · subst hji
      rw [exchange_left, hload']
    · rw [exchange_of_ne b hji hjp, hload j hj hji]
      exact h.slots j hj hji
  · rw [hframe.count]
    intro j hj hjp
    by_cases hji : j = i
    · subst hji
      rw [exchange_left, hentry']
    · rw [exchange_of_ne b hji hjp, hentry j hj hjp]
      exact h.entries j hj hji

/-- The timer is written to the hole. -/
theorem fill (h : Hole s segs id b i)
    (horder : IsHeap parentOf (Positions s.count id) (s.key · id) b) :
    ∃ t, TimerHeap.set s (slotOf segs i) (b i) i = some t ∧ HeapOk t segs s.count id b ∧
      Frame s t segs id (b '' Positions s.count id) := by
  obtain ⟨t, ht, hframe, hload, hentry, hload', hentry'⟩ := h.set h.mem
  refine ⟨t, ht, ⟨fun j hj => ?_, fun j hj => ?_, ?_⟩, hframe⟩
  · by_cases hji : j = i
    · subst hji
      exact hload'
    · rw [hload j hj hji]
      exact h.slots j hj hji
  · by_cases hji : j = i
    · subst hji
      exact hentry'
    · rw [hentry j hj hji]
      exact h.entries j hj hji
  · rw [hframe.key]
    exact horder

end Hole

variable {dt : τ}

/-- The first loop moves the hole towards the root. If it moves it at all, the children of
the place it finds are in order as well. -/
theorem siftUp_spec (fuel : ℕ) (siftedUp : Bool) (hfuel : i < fuel)
    (h : Hole s segs id b i) (hdt : b i = dt)
    (hnear : NearHeap parentOf (Positions s.count id) (s.key · id) b i)
    (hbelow : siftedUp = true → BelowOk parentOf (Positions s.count id) (s.key · id) b i) :
    ∃ t c i' up, siftUp dt id fuel s (slotOf segs i) i siftedUp = some (t, slotOf segs i', i', up) ∧
      Sifted s t segs id b c i i' ∧
      (up = true → BelowOk parentOf (Positions s.count id) (s.key · id) c i') := by
  induction fuel generalizing s b i siftedUp with
  | zero => exact absurd hfuel (Nat.not_lt_zero i)
  | succ fuel ih =>
    by_cases h2 : 2 ≤ i
    · have hpar : parentOf i = some (parent i) := if_pos h2
      have hlt := parentOf_lt i _ hpar
      have hp := parentOf_mem i h.mem _ hpar
      have hload := h.slots _ hp hlt.ne
      by_cases hkey : s.key (b (parent i)) id ≤ s.key dt id
      · refine ⟨s, b, i, siftedUp, ?_, .refl h hnear (fun p hpi => ?_), hbelow⟩
        · simp [siftUp, h.getSlot hp, hload, hkey]
        · obtain rfl : parent i = p := Option.some.inj (hpar.symm.trans hpi)
          simp only [hdt]
          exact hkey
      · obtain ⟨u, hu, hhole, hframe⟩ := h.move hp hlt.ne
        have hup := hnear.up parentOf_lt hpar hp (by simp only [hdt]; exact not_le.mp hkey)
        rw [← hframe.count, ← hframe.key] at hup
        obtain ⟨t, c, i', up, hrun, hsifted, hdown⟩ := ih true
          (lt_of_lt_of_le hlt (Nat.le_of_lt_succ hfuel)) hhole
          ((exchange_right b i _).trans hdt) hup.1 (fun _ => hup.2)
        refine ⟨t, c, i', up, ?_, hsifted.of_move hframe h.mem hp, fun hu' => ?_⟩
        · simpa [siftUp, idCount, h2, h.getSlot hp, hload, hkey, hu] using hrun
        · rw [← hframe.count, ← hframe.key]
          exact hdown hu'
    · have hpar : parentOf i = none := if_neg h2
      refine ⟨s, b, i, siftedUp, ?_, .refl h hnear (fun p hpi => ?_), hbelow⟩
      · simp [siftUp, idCount, h2]
      · rw [hpar] at hpi
        cases hpi

/-- The second loop moves the hole towards the leaves, to a place where the heap is in
order. -/
theorem siftDown_spec (fuel : ℕ) (hfuel : s.count - i < fuel) (h : Hole s segs id b i)
    (hdt : b i = dt) (hnear : NearHeap parentOf (Positions s.count id) (s.key · id) b i)
    (habove : AboveOk parentOf (s.key · id) b i) :
    ∃ t c i', siftDown dt id fuel s (slotOf segs i) i = some (t, slotOf segs i', i') ∧
      Sifted s t segs id b c i i' ∧ BelowOk parentOf (Positions s.count id) (s.key · id) c i' := by
  induction fuel generalizing s b i with
  | zero => exact absurd hfuel (Nat.not_lt_zero _)
  | succ fuel ih =>
    by_cases hleft : leftChild i < s.count
    · obtain ⟨c, hc, hcP, hpar, hmin⟩ := smallerChild_spec h hleft
      have hlt := parentOf_lt c i hpar
      by_cases hkey : s.key dt id ≤ s.key (b c) id
      · refine ⟨s, b, i, ?_, .refl h hnear habove, fun j hj hji => ?_⟩
        · simp [siftDown, hc, hkey]
        · simp only [hdt]
          exact hkey.trans (hmin j hj hji)
      · obtain ⟨u, hu, hhole, hframe⟩ := h.move hcP hlt.ne'
        have hdown := hnear.down parentOf_lt hpar hcP hmin
          (by simp only [hdt]; exact (not_le.mp hkey).le)
        rw [← hframe.count, ← hframe.key] at hdown
        have hless : u.count - c < fuel := by
          have := hcP.1
          rw [hframe.count]
          omega
        obtain ⟨t, d, i', hrun, hsifted, hbelow⟩ := ih hless hhole
          ((exchange_right b i c).trans hdt) hdown.1 hdown.2
        refine ⟨t, d, i', ?_, hsifted.of_move hframe h.mem hcP, ?_⟩
        · simpa [siftDown, hleft, hc, hkey, hu] using hrun
        · rw [← hframe.count, ← hframe.key]
          exact hbelow
    · refine ⟨s, b, i, ?_, .refl h hnear habove, fun j hj hji => ?_⟩
      · simp [siftDown, hleft]
      · have := hj.1
        rcases parentOf_eq_some_iff.mp hji with rfl | rfl <;> omega

/-- **`resift` restores the heap.** -/
theorem resift_spec
    (h : Hole s segs id b i) (hnear : NearHeap parentOf (Positions s.count id) (s.key · id) b i) :
    ∃ t c, resift s (b i) i = some t ∧ HeapOk t segs s.count id c ∧
      c '' Positions s.count id = b '' Positions s.count id ∧
      Frame s t segs id (b '' Positions s.count id) := by
  have hid : i % 2 = id := h.mem.2
  obtain ⟨u, c, k, up, hup, hsifted, hbelow⟩ :=
    siftUp_spec (i + 1) false (Nat.lt_succ_self i) h rfl hnear (fun he => by cases he)
  have himage := hsifted.rearranges.image_eq
  cases up with
  | true =>
    have horder := hsifted.near.isHeap hsifted.above (hbelow rfl)
    rw [← hsifted.frame.count, ← hsifted.frame.key] at horder
    obtain ⟨t, ht, hok, hframe⟩ := hsifted.hole.fill horder
    rw [hsifted.frame.count] at hok hframe
    rw [himage] at hframe
    refine ⟨t, c, ?_, hok, himage, hsifted.frame.trans hframe⟩
    simpa [resift, hid, h.getSlot h.mem, hup, hsifted.value] using ht
  | false =>
    have hnear' := hsifted.near
    have habove' := hsifted.above
    rw [← hsifted.frame.count, ← hsifted.frame.key] at hnear'
    rw [← hsifted.frame.key] at habove'
    obtain ⟨v, d, l, hdown, hsifted', hbelow'⟩ :=
      siftDown_spec (u.count + 1) (Nat.lt_succ_of_le (Nat.sub_le _ _)) hsifted.hole hsifted.value
        hnear' habove'
    have horder := hsifted'.near.isHeap hsifted'.above hbelow'
    have himage' := hsifted'.rearranges.image_eq
    have hframe' := hsifted'.frame
    rw [← hsifted'.frame.count, ← hsifted'.frame.key] at horder
    obtain ⟨t, ht, hok, hframe⟩ := hsifted'.hole.fill horder
    rw [hsifted'.frame.count, hsifted.frame.count] at hok hframe
    rw [hsifted.frame.count] at himage' hframe'
    rw [himage] at himage' hframe'
    rw [himage'] at hframe
    refine ⟨t, d, ?_, hok, himage', (hsifted.frame.trans hframe').trans hframe⟩
    simpa [resift, hid, h.getSlot h.mem, hup, hdown, hsifted'.value, hsifted.value] using ht

end Sift

end Apple.Dispatch.TimerHeap
