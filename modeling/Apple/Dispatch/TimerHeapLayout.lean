import Apple.Dispatch.TimerHeap

/-!
# Where the slots of a timer heap are

`slotOf segs idx` is the slot of an index for segments at the addresses `segs`. `Layout` says
that the structure and its last segment lead to these segments. Under it `getSlot` finds
the slot of every index below the capacity (`Layout.getSlot`), distinct indices have distinct
slots (`slotOf_injective`), and none of them is a cell with the address of a segment
(`Layout.slotOf_ne_pointer`). Writing a slot, growing and shrinking keep a
layout and the contents of the slots that remain (`Layout.store`, `Layout.grow`,
`Layout.shrink`).
-/

namespace Apple.Dispatch.TimerHeap

open Option Nat Function List

variable {τ : Type}

/-! ## Indices -/

@[simp] theorem heapId_eq (idx : ℕ) : heapId idx = idx % 2 := by
  simp [heapId, idCount]

theorem parent_eq (idx : ℕ) : parent idx = 2 * ((idx - 2) / 2 / 2) + idx % 2 := by
  have hor := two_pow_add_eq_or_of_lt (i := 1) (b := idx % 2) (by omega) ((idx - 2) / 2 / 2)
  have heven : (idx - 2) / 2 - (idx - 2) / 2 % 2 = 2 ^ 1 * ((idx - 2) / 2 / 2) := by omega
  rw [parent, idxForHeapId, heapId_eq, heapId_eq, idCount, heven, ← hor]

theorem leftChild_eq (idx : ℕ) : leftChild idx = 2 * idx + 2 - idx % 2 := by
  rw [leftChild, heapId_eq, idCount]

/-- The first index of a segment, counted from the first segment on. -/
def segBase : ℕ → ℕ
  | 0 => 0
  | k + 1 => 8 * 2 ^ k

theorem segBase_eq (k : ℕ) :
    (if k ≠ 0 then initSegmentCapacity <<< (k - 1) else 0) = segBase k := by
  cases k <;> simp [segBase, initSegmentCapacity, shiftLeft_eq]

theorem segBase_add_segCapacity (k : ℕ) : segBase k + segCapacity k = segBase (k + 1) := by
  cases k with
  | zero => simp [segBase, segCapacity, initSegmentCapacity]
  | succ k =>
    simp only [segBase, segCapacity, initSegmentCapacity, Nat.add_sub_cancel,
      if_pos (succ_pos k)]
    omega

theorem segCapacity_succ (k : ℕ) : segCapacity (k + 1) = 8 * 2 ^ k := by
  simp [segCapacity, initSegmentCapacity, shiftLeft_eq]

theorem segCapacity_succ_succ_half (k : ℕ) : segCapacity (k + 2) >>> 1 = segCapacity (k + 1) := by
  rw [segCapacity_succ, segCapacity_succ, pow_succ]
  omega

theorem lt_segCapacity (k : ℕ) : k < segCapacity k := by
  cases k with
  | zero => simp [segCapacity, initSegmentCapacity]
  | succ k =>
    rw [segCapacity_succ]
    have := Nat.lt_two_pow_self (n := k)
    omega

theorem segBase_mono {k l : ℕ} (h : k ≤ l) : segBase k ≤ segBase l := by
  induction h with
  | refl => exact le_rfl
  | step _ ih => exact ih.trans (segBase_add_segCapacity _ ▸ Nat.le_add_right _ _)

theorem capacity_succ (n : ℕ) : capacity (n + 1) = 2 + segBase n + segCapacity n - n := by
  rw [add_assoc, segBase_add_segCapacity]
  simp [capacity, segBase, initSegmentCapacity, shiftLeft_eq]

theorem capacity_add_two_le (n : ℕ) : capacity n + 2 ≤ capacity (n + 1) := by
  cases n with
  | zero => decide
  | succ n =>
    have h2 := segBase_add_segCapacity n
    have h3 := segCapacity_succ n
    have h6 := Nat.lt_two_pow_self (n := n)
    rw [capacity_succ, capacity_succ]
    omega

theorem capacity_mono : Monotone capacity :=
  monotone_nat_of_le_succ fun n => by have := capacity_add_two_le n; omega

/-- The segment of an index, from the first bit that is set in it. -/
theorem segNoOf_spec (i : ℕ) : segBase (segNoOf i) ≤ i ∧ i < segBase (segNoOf i + 1) := by
  have hv : i ||| 7 ≠ 0 := by
    have : 7 ≤ i ||| 7 := right_le_or
    omega
  have htwo : 2 ≤ (i ||| 7).log2 :=
    (le_log2 hv).mpr ((by decide : 2 ^ 2 ≤ 7).trans right_le_or)
  obtain ⟨k, hk⟩ := Nat.exists_eq_add_of_le htwo
  have hseg : segNoOf i = k := by
    have hseven : Nat.log2 7 = 2 := by decide
    show (i ||| 7).log2 - Nat.log2 7 = k
    omega
  rw [hseg]
  constructor
  · cases k with
    | zero => exact zero_le
    | succ k =>
      -- an index below the power of two would stay below it with the three low bits set
      by_contra hlow
      have hpow : 8 * 2 ^ k = 2 ^ (2 + (k + 1)) := by rw [pow_add]; omega
      have hseven : 7 < 2 ^ (2 + (k + 1)) := by
        have := Nat.one_le_two_pow (n := k)
        omega
      have hi : i < 2 ^ (2 + (k + 1)) := by rw [segBase] at hlow; omega
      have hlt := or_lt_two_pow hi hseven
      have hle := (le_log2 hv).mp hk.ge
      omega
  · have hlt := (log2_lt hv).mp (lt_succ_self _)
    have hpow : 8 * 2 ^ k = 2 ^ (2 + k + 1) := by rw [pow_succ, pow_add]; omega
    rw [hk] at hlt
    rw [segBase, hpow]
    exact left_le_or.trans_lt hlt

variable {i n idx j : ℕ} {a : Address}

theorem segNoOf_lt (h : i < segBase n) : segNoOf i < n := by
  by_contra hn
  have := segBase_mono (Nat.le_of_not_lt hn)
  have := (segNoOf_spec i).1
  omega

/-! ## Slots -/

/-- The slot of an index when segment `k` is at `segs k`. -/
def slotOf (segs : ℕ → Address) (idx : ℕ) : Slot :=
  if idx < 2 then .min idx
  else .cell (segs (segNoOf (idx - 2))) (idx - 2 - segBase (segNoOf (idx - 2)))

variable {segs : ℕ → Address}

theorem slotOf_min (h : idx < 2) : slotOf segs idx = .min idx :=
  if_pos h

theorem slotOf_cell (h : 2 ≤ idx) : slotOf segs idx =
    .cell (segs (segNoOf (idx - 2))) (idx - 2 - segBase (segNoOf (idx - 2))) :=
  if_neg (not_lt.mpr h)

/-- An index below the capacity of `n + 1` segments is in one of them, and not in the last `n`
cells of segment `n`. -/
theorem segNoOf_of_lt_capacity (hidx : idx < capacity n) (h : 2 ≤ idx) : segNoOf (idx - 2) < n ∧
      ∀ m, n = m + 1 → segNoOf (idx - 2) = m → idx - 2 - segBase m + m < segCapacity m := by
  cases n with
  | zero => exact absurd hidx (not_lt.mpr h)
  | succ n =>
    rw [capacity_succ] at hidx
    have hsum := segBase_add_segCapacity n
    refine ⟨segNoOf_lt (by omega), fun m hm hseg => ?_⟩
    obtain rfl : n = m := by omega
    have := (segNoOf_spec (idx - 2)).1
    rw [hseg] at this
    omega

/-- The offset of an index is below the size of its segment. -/
theorem offset_lt (i : ℕ) : i - segBase (segNoOf i) < segCapacity (segNoOf i) := by
  have := segNoOf_spec i
  have := segBase_add_segCapacity (segNoOf i)
  omega

/-- `n` segments at distinct addresses. -/
def Distinct (n : ℕ) (segs : ℕ → Address) : Prop :=
  ∀ i < n, ∀ j < n, segs i = segs j → i = j

theorem slotOf_injective (hsegs : Distinct n segs)
    (hi : i < capacity n) (hj : j < capacity n) (h : slotOf segs i = slotOf segs j) : i = j := by
  by_cases hi2 : i < 2 <;> by_cases hj2 : j < 2
  · simpa [slotOf, hi2, hj2] using h
  · simp [slotOf, hi2, hj2] at h
  · simp [slotOf, hi2, hj2] at h
  · rw [slotOf_cell (by omega), slotOf_cell (by omega), Slot.cell.injEq] at h
    have hseg := hsegs _ (segNoOf_of_lt_capacity hi (by omega)).1 _
      (segNoOf_of_lt_capacity hj (by omega)).1 h.1
    have h2 := h.2
    have hsi := (segNoOf_spec (i - 2)).1
    have hsj := (segNoOf_spec (j - 2)).1
    rw [hseg] at h2 hsi
    omega

/-- The structure leads to the segments at `segs`: it holds the last one, whose last cells point
to the others. -/
structure Layout (s : State τ) (segs : ℕ → Address) : Prop where
  heap : s.heap = if s.segments = 0 then none else some (segs (s.segments - 1))
  distinct : Distinct s.segments segs
  cells : ∀ k < s.segments, ∃ cells, s.memory (segs k) = some cells ∧ cells.length = segCapacity k
  pointers : ∀ j, j + 1 < s.segments →
    s.cell (segs (s.segments - 1)) (segCapacity (s.segments - 1) - (j + 1)) =
      some (.segment (segs j))

theorem layout_empty (key : τ → ℕ → ℕ) (segs : ℕ → Address) : Layout (empty key) segs where
  heap := rfl
  distinct i hi := absurd hi (Nat.not_lt_zero i)
  cells k hk := absurd hk (Nat.not_lt_zero k)
  pointers _ hj := absurd hj (Nat.not_lt_zero _)

namespace Layout

variable {s t : State τ} {segs : ℕ → Address}

/-- A layout is about the segments and the pointers in the last one. -/
theorem congr (h : Layout s segs) (hsegments : t.segments = s.segments) (hheap : t.heap = s.heap)
    (hmemory : t.memory = s.memory) : Layout t segs := by
  refine ⟨by rw [hheap, hsegments, h.heap], by rw [hsegments]; exact h.distinct, ?_, ?_⟩
  · rw [hsegments, hmemory]; exact h.cells
  · have hcell : t.cell = s.cell := by funext a i; rw [State.cell, State.cell, hmemory]
    rw [hsegments, hcell]; exact h.pointers

theorem heap_eq (h : Layout s segs) (hn : s.segments = n + 1) : s.heap = some (segs n) := by
  rw [h.heap, hn]
  rfl

theorem segments_ne_zero (hidx : idx < capacity s.segments) (h2 : 2 ≤ idx) :
    ∃ n, s.segments = n + 1 :=
  exists_eq_succ_of_ne_zero fun h0 => by
    rw [h0] at hidx
    exact absurd hidx (not_lt.mpr h2)

theorem getSlot (h : Layout s segs) (hidx : idx < capacity s.segments) :
    getSlot s idx = some (slotOf segs idx) := by
  by_cases h2 : idx < 2
  · rw [slotOf_min h2, TimerHeap.getSlot, idCount, if_pos h2]
  obtain ⟨n, hn⟩ := segments_ne_zero hidx (not_lt.mp h2)
  have hlt := (segNoOf_of_lt_capacity hidx (not_lt.mp h2)).1
  have hoff : (if segNoOf (idx - 2) ≠ 0 then
      idx - 2 - initSegmentCapacity <<< (segNoOf (idx - 2) - 1) else idx - 2) =
      idx - 2 - segBase (segNoOf (idx - 2)) := by
    rw [← segBase_eq]
    split_ifs <;> simp
  rw [slotOf_cell (not_lt.mp h2), TimerHeap.getSlot, idCount, if_neg h2, h.heap_eq hn]
  simp only [bind_eq_bind, bind_some, hoff]
  by_cases hlast : segNoOf (idx - 2) + 1 = s.segments
  · rw [if_pos hlast, show segNoOf (idx - 2) = n by omega]
  · have hsize : initSegmentCapacity <<< (s.segments - 2) = segCapacity n := by
      obtain ⟨m, rfl⟩ : ∃ m, n = m + 1 := ⟨n - 1, by omega⟩
      rw [hn, segCapacity_succ, shiftLeft_eq]
      rfl
    have hptr := h.pointers (segNoOf (idx - 2)) (by omega)
    rw [hn, Nat.add_sub_cancel] at hptr
    rw [if_neg hlast, hsize, Nat.sub_sub, hptr]

/-- **No slot is a pointer.** -/
theorem slotOf_ne_pointer (h : Layout s segs) (hidx : idx < capacity s.segments)
    (hj : j + 1 < s.segments) : slotOf segs idx ≠
      .cell (segs (s.segments - 1)) (segCapacity (s.segments - 1) - (j + 1)) := by
  by_cases h2 : idx < 2
  · rw [slotOf_min h2]
    exact Slot.noConfusion
  · have hn := segNoOf_of_lt_capacity hidx (not_lt.mp h2)
    rw [slotOf_cell (not_lt.mp h2)]
    intro he
    rw [Slot.cell.injEq] at he
    have hseg := h.distinct _ hn.1 _ (by omega) he.1
    have hoff := hn.2 (s.segments - 1) (by omega) hseg
    have := he.2
    rw [hseg] at this
    omega

end Layout

/-! ## Writing a slot -/

theorem load_congr {s t : State τ} {slot : Slot} (hmin : ∀ id, slot = .min id → t.min id = s.min id)
    (hcell : ∀ a i, slot = .cell a i → t.cell a i = s.cell a i) : t.load slot = s.load slot := by
  cases slot with
  | min id => exact hmin id rfl
  | cell a i => rw [State.load, State.load, hcell a i rfl]

/-- `t` is `s` with `v` written to the slot of `idx`. -/
structure Written (s t : State τ) (segs : ℕ → Address) (idx : ℕ) (v : Option τ) : Prop where
  layout : Layout t segs
  count : t.count = s.count
  segments : t.segments = s.segments
  entry : t.entry = s.entry
  key : t.key = s.key
  load : ∀ j < capacity s.segments,
    t.load (slotOf segs j) = if j = idx then v else s.load (slotOf segs j)

namespace Layout

variable {s : State τ} {segs : ℕ → Address}

theorem store_min (h : Layout s segs) (h2 : idx < 2) (v : Option τ) :
    Written s { s with min := Function.update s.min idx v } segs idx v where
  layout := h.congr rfl rfl rfl
  count := rfl
  segments := rfl
  entry := rfl
  key := rfl
  load j hj := by
    by_cases hji : j = idx
    · subst hji
      rw [slotOf_min h2]
      simp [State.load]
    · rw [if_neg hji]
      refine load_congr (fun id hid => ?_) (fun _ _ _ => rfl)
      have hne : id ≠ idx := by
        rintro rfl
        by_cases hj2 : j < 2
        · rw [slotOf_min hj2, Slot.min.injEq] at hid
          exact hji hid
        · rw [slotOf_cell (by omega)] at hid
          cases hid
      exact update_of_ne hne _ _

theorem cell_set {cells : List (Cell τ)} (ha : s.memory a = some cells)
    (hi : i < cells.length) (c : Cell τ) (b : Address) (j : ℕ) :
    State.cell { s with memory := Function.update s.memory a (some (cells.set i c)) } b j =
      if b = a ∧ j = i then some c else s.cell b j := by
  by_cases hb : b = a
  · subst hb
    by_cases hj : j = i
    · subst hj
      simp [State.cell, hi]
    · simp [State.cell, ha, hj, getElem?_set_ne (Ne.symm hj)]
  · simp [State.cell, hb]

theorem store_cell (h : Layout s segs) (hidx : idx < capacity s.segments)
    (hslot : slotOf segs idx = .cell a i) {cells : List (Cell τ)}
    (ha : s.memory a = some cells) (hi : i < cells.length) (v : Option τ) :
    Written s { s with memory := Function.update s.memory a (some (cells.set i (.ofTimer v))) }
      segs idx v where
  layout := by
    refine ⟨h.heap, h.distinct, fun k hk => ?_, fun j hj => ?_⟩
    · obtain ⟨cs, hcs, hlen⟩ := h.cells k hk
      by_cases hka : segs k = a
      · rw [hka, ha] at hcs
        cases hcs
        exact ⟨cells.set i (.ofTimer v), by simp [hka], by simpa using hlen⟩
      · exact ⟨cs, by simp [hka, hcs], hlen⟩
    · rw [cell_set ha hi, if_neg]
      · exact h.pointers j hj
      · rintro ⟨hseg, hoff⟩
        apply h.slotOf_ne_pointer hidx hj
        rw [hslot]
        exact congrArg₂ Slot.cell hseg.symm hoff.symm
  count := rfl
  segments := rfl
  entry := rfl
  key := rfl
  load j hj := by
    by_cases hji : j = idx
    · subst hji
      rw [if_pos rfl, hslot, State.load, cell_set ha hi, if_pos ⟨rfl, rfl⟩]
      cases v <;> rfl
    · rw [if_neg hji]
      refine load_congr (fun _ _ => rfl) (fun b k hbk => ?_)
      rw [cell_set ha hi, if_neg]
      rintro ⟨rfl, rfl⟩
      exact hji (slotOf_injective h.distinct hj hidx (hbk.trans hslot.symm))

/-- A slot below the capacity can be written. -/
theorem store (h : Layout s segs) (hidx : idx < capacity s.segments) (v : Option τ) :
    ∃ t, s.store (slotOf segs idx) v = some t ∧ Written s t segs idx v := by
  by_cases h2 : idx < 2
  · exact ⟨_, by rw [slotOf_min h2, State.store], h.store_min h2 v⟩
  · have hslot : slotOf segs idx = _ := slotOf_cell (not_lt.mp h2)
    have hseg := (segNoOf_of_lt_capacity hidx (not_lt.mp h2)).1
    obtain ⟨cells, hcells, hlen⟩ := h.cells _ hseg
    have hoff : idx - 2 - segBase (segNoOf (idx - 2)) < cells.length := by
      rw [hlen]
      exact offset_lt (idx - 2)
    refine ⟨_, ?_, h.store_cell hidx hslot hcells hoff v⟩
    simp only [hslot, State.store, hcells, if_pos hoff]

end Layout

/-! ## Growing and shrinking -/

/-- The last `n` cells are copied. -/
theorem copyCells_spec (dst src : List (Cell τ)) (hdst : n ≤ dst.length) (hsrc : n ≤ src.length) :
    ∃ out, copyCells dst (dst.length - n) src (src.length - n) n = some out ∧
      out.length = dst.length ∧
      (∀ j < n, out[dst.length - (j + 1)]? = src[src.length - (j + 1)]?) ∧
      ∀ q < dst.length - n, out[q]? = dst[q]? := by
  refine ⟨_, if_pos ⟨by omega, by omega⟩, ?_, fun j hj => ?_, fun q hq => ?_⟩
  · simp
    omega
  · rw [append_assoc, getElem?_append_right (by simp; omega), getElem?_append_left
      (by simp; omega), getElem?_take_of_lt (by simp; omega), getElem?_drop]
    congr 1
    simp
    omega
  · rw [append_assoc, getElem?_append_left (by simp; omega), getElem?_take_of_lt hq]

/-- `t` is `s` with `n` segments, at `segs'`, and the same slots below the capacity of either. -/
structure Resized (s t : State τ) (segs segs' : ℕ → Address) (n : ℕ) : Prop where
  layout : Layout t segs'
  segments : t.segments = n
  count : t.count = s.count
  entry : t.entry = s.entry
  key : t.key = s.key
  load : ∀ j, j < capacity s.segments → j < capacity n →
    t.load (slotOf segs' j) = s.load (slotOf segs j)

namespace Layout

variable {s : State τ} {segs : ℕ → Address}

/-- The cells of the segment that `grow` adds: its last ones point to the older segments. -/
theorem grow_cells (h : Layout s segs) (a : Address) : ∃ cells : List (Cell τ),
    cells.length = segCapacity s.segments ∧
    (∀ j < s.segments, cells[segCapacity s.segments - (j + 1)]? = some (.segment (segs j))) ∧
    grow s a = some { s with
      segments := s.segments + 1
      memory := Function.update s.memory a (some cells)
      heap := some a } := by
  rcases hn : s.segments with _ | n
  · refine ⟨replicate (segCapacity 0) .null, by simp, fun j hj => by omega, ?_⟩
    simp [TimerHeap.grow, hn]
  have hcap := lt_segCapacity (n + 1)
  have hheap := h.heap_eq hn
  -- the pointers to the segments before the last one are copied
  have hcopy : ∃ cells : List (Cell τ), cells.length = segCapacity (n + 1) ∧
      (∀ j < n, cells[segCapacity (n + 1) - (j + 1)]? = some (.segment (segs j))) ∧
      (if 1 < n + 1 then
        ((s.heap.bind s.memory).bind fun prev =>
          copyCells (replicate (segCapacity (n + 1)) Cell.null)
            (segCapacity (n + 1) - (n + 1 - 1)) prev
            (segCapacity (n + 1) >>> 1 - (n + 1 - 1)) (n + 1 - 1))
        else some (replicate (segCapacity (n + 1)) Cell.null)) = some cells := by
    cases n with
    | zero => exact ⟨_, by simp, fun j hj => absurd hj (Nat.not_lt_zero j), if_neg (by decide)⟩
    | succ m =>
      obtain ⟨prev, hprev, hlen⟩ := h.cells (m + 1) (by omega)
      have hprevcap := lt_segCapacity (m + 1)
      obtain ⟨cells, hcells, hlen', hmid, -⟩ :=
        copyCells_spec (n := m + 1) (replicate (segCapacity (m + 1 + 1)) Cell.null) prev
          (by simp; omega) (by omega)
      rw [length_replicate, hlen] at hcells hmid
      refine ⟨cells, by simpa using hlen', fun j hj => ?_, ?_⟩
      · have hptr := h.pointers j (by omega)
        rw [hn, Nat.add_sub_cancel, State.cell, hprev, bind_some] at hptr
        rw [hmid j (by omega), hptr]
      · rw [if_pos (by omega), hheap, bind_some, hprev, bind_some,
          segCapacity_succ_succ_half, Nat.add_sub_cancel, hcells]
  obtain ⟨cells, hlen, hcells, hcopied⟩ := hcopy
  refine ⟨cells.set (segCapacity (n + 1) - (n + 1)) (.segment (segs n)), ?_, fun j hj => ?_, ?_⟩
  · rw [length_set, hlen]
  · by_cases hjn : j = n
    · subst hjn
      rw [getElem?_set_self (by omega)]
    · rw [getElem?_set_ne (by omega), hcells j (by omega)]
  · split_ifs at hcopied with h1
    · obtain ⟨prev, hprev, hprevcopied⟩ := bind_eq_some_iff.mp hcopied
      rw [hheap] at hprev
      simp only [TimerHeap.grow, hn, bind_eq_bind, bind_some, if_pos h1, hheap,
        hprev, hprevcopied, if_pos (succ_pos n), Cell.ofSegment]
    · obtain rfl := some.inj hcopied
      simp only [TimerHeap.grow, hn, bind_eq_bind, bind_some, if_neg h1, hheap,
        if_pos (succ_pos n), Cell.ofSegment]

/-- **Growing keeps the slots.** -/
theorem grow (h : Layout s segs) (ha : s.memory a = none) : ∃ t, grow s a = some t ∧
      Resized s t segs (Function.update segs s.segments a) (s.segments + 1) := by
  obtain ⟨cells, hlen, hptr, hgrow⟩ := h.grow_cells a
  have hne : ∀ k < s.segments, segs k ≠ a := fun k hk he => by
    obtain ⟨cs, hcs, -⟩ := h.cells k hk
    rw [he, ha] at hcs
    cases hcs
  have hsegs : ∀ k < s.segments, Function.update segs s.segments a k = segs k :=
    fun k hk => update_of_ne hk.ne _ _
  have hnew : Function.update segs s.segments a s.segments = a := update_self _ _ _
  refine ⟨_, hgrow, ⟨?_, fun i hi j hj he => ?_, fun k hk => ?_, fun j hj => ?_⟩, rfl, rfl, rfl,
    rfl, fun j hj _ => ?_⟩
  · simp
  · rcases Nat.lt_succ_iff_lt_or_eq.mp hi with hi | rfl <;>
      rcases Nat.lt_succ_iff_lt_or_eq.mp hj with hj | hj
    · rw [hsegs i hi, hsegs j hj] at he
      exact h.distinct i hi j hj he
    · rw [hsegs i hi, hj, hnew] at he
      exact absurd he (hne i hi)
    · rw [hsegs j hj, hnew] at he
      exact absurd he.symm (hne j hj)
    · exact hj.symm
  · rcases Nat.lt_succ_iff_lt_or_eq.mp hk with hk | rfl
    · obtain ⟨cs, hcs, hcslen⟩ := h.cells k hk
      exact ⟨cs, by simp [hsegs k hk, hne k hk, hcs], hcslen⟩
    · exact ⟨cells, by simp, hlen⟩
  · change j + 1 < s.segments + 1 at hj
    simp only [Nat.add_sub_cancel, hsegs j (by omega), State.cell, update_self]
    exact hptr j (by omega)
  · have hslot : slotOf (Function.update segs s.segments a) j = slotOf segs j := by
      by_cases h2 : j < 2
      · rw [slotOf_min h2, slotOf_min h2]
      · rw [slotOf_cell (by omega), slotOf_cell (by omega),
          hsegs _ (segNoOf_of_lt_capacity hj (by omega)).1]
    rw [hslot]
    refine load_congr (fun _ _ => rfl) (fun b i hb => ?_)
    have hba : b ≠ a := by
      by_cases h2 : j < 2
      · rw [slotOf_min h2] at hb
        cases hb
      · rw [slotOf_cell (by omega), Slot.cell.injEq] at hb
        rw [← hb.1]
        exact hne _ (segNoOf_of_lt_capacity hj (by omega)).1
    simp [State.cell, hba]

/-- The memory that `shrink` leaves to the `n` remaining segments: the last one has got the
pointers, its other cells and the other segments are as before. -/
theorem shrink_memory (h : Layout s segs) (hn : s.segments = n + 1) :
    ∃ memory : Address → Option (List (Cell τ)),
      (∀ k < n, ∃ cells, memory (segs k) = some cells ∧ cells.length = segCapacity k) ∧
      (∀ j, j + 1 < n → (memory (segs (n - 1))).bind (·[segCapacity (n - 1) - (j + 1)]?) =
        some (.segment (segs j))) ∧
      (∀ k < n, ∀ i, (k + 1 = n → i + k < segCapacity k) →
        (memory (segs k)).bind (·[i]?) = s.cell (segs k) i) ∧
      shrink s = some { s with
        segments := n
        heap := if n = 0 then none else some (segs (n - 1))
        memory := Function.update memory (segs n) none } := by
  obtain ⟨cells, hcells, hlen⟩ := h.cells n (by omega)
  have hheap := h.heap_eq hn
  have hptr : ∀ j < n, cells[segCapacity n - (j + 1)]? = some (.segment (segs j)) := fun j hj => by
    have := h.pointers j (by omega)
    rwa [hn, Nat.add_sub_cancel, State.cell, hcells] at this
  match n with
  | 0 =>
    refine ⟨s.memory, fun k hk => absurd hk (Nat.not_lt_zero k), fun j hj => by omega,
      fun k hk => absurd hk (Nat.not_lt_zero k), ?_⟩
    simp [TimerHeap.shrink, hn, hheap, hcells]
  | 1 =>
    refine ⟨s.memory, fun k hk => h.cells k (by omega), fun j hj => by omega,
      fun k _ i _ => rfl, ?_⟩
    have := hptr 0 (by omega)
    simp [TimerHeap.shrink, hn, hheap, hcells, this]
  | m + 2 =>
    obtain ⟨prev, hprev, hprevlen⟩ := h.cells (m + 1) (by omega)
    have hcap := lt_segCapacity (m + 2)
    have hprevcap := lt_segCapacity (m + 1)
    obtain ⟨out, hout, houtlen, hmid, hlow⟩ :=
      copyCells_spec (n := m + 1) prev cells (by omega) (by omega)
    rw [hprevlen] at hout hmid hlow
    rw [hlen] at hout hmid
    have hinj : ∀ k < m + 2, segs k = segs (m + 1) → k = m + 1 := fun k hk he =>
      h.distinct k (by omega) (m + 1) (by omega) he
    refine ⟨Function.update s.memory (segs (m + 1)) (some out), fun k hk => ?_, fun j hj => ?_,
      fun k hk i hi => ?_, ?_⟩
    · by_cases hkm : k = m + 1
      · subst hkm
        exact ⟨out, by simp, by rw [houtlen, hprevlen]⟩
      · obtain ⟨cs, hcs, hcslen⟩ := h.cells k (by omega)
        exact ⟨cs, by rw [update_of_ne (fun he => hkm (hinj k hk he)), hcs], hcslen⟩
    · rw [show m + 2 - 1 = m + 1 by omega, update_self, bind_some]
      rw [hmid j (by omega), hptr j (by omega)]
    · by_cases hkm : k = m + 1
      · subst hkm
        rw [update_self, State.cell, hprev]
        exact hlow i (by omega)
      · rw [update_of_ne (fun he => hkm (hinj k hk he)), State.cell]
    · have hlast := hptr (m + 1) (by omega)
      simp [TimerHeap.shrink, hn, hheap, hcells, hlast, hprev, segCapacity_succ_succ_half,
        hout]

/-- **Shrinking keeps the slots that remain.** -/
theorem shrink (h : Layout s segs) (hn : s.segments = n + 1) :
    ∃ t, shrink s = some t ∧ Resized s t segs segs n := by
  obtain ⟨memory, hmem, hptr, hsame, hshrink⟩ := h.shrink_memory hn
  have hne : ∀ k < n, segs k ≠ segs n := fun k hk he =>
    hk.ne (h.distinct k (by omega) n (by omega) he)
  refine ⟨_, hshrink, ⟨rfl, fun i hi j hj => h.distinct i ?_ j ?_, fun k hk => ?_, fun j hj => ?_⟩,
    rfl, rfl, rfl, rfl, fun j _ hj => ?_⟩
  · rw [hn]; exact lt_succ_of_lt hi
  · rw [hn]; exact lt_succ_of_lt hj
  · obtain ⟨cells, hcells, hlen⟩ := hmem k hk
    exact ⟨cells, by simp only [update_of_ne (hne k hk), hcells], hlen⟩
  · change j + 1 < n at hj
    simp only [State.cell, update_of_ne (hne (n - 1) (by omega))]
    exact hptr j hj
  · refine load_congr (fun _ _ => rfl) (fun b i hb => ?_)
    by_cases h2 : j < 2
    · rw [slotOf_min h2] at hb
      cases hb
    · have hseg := segNoOf_of_lt_capacity hj (by omega)
      rw [slotOf_cell (by omega), Slot.cell.injEq] at hb
      rw [← hb.1, ← hb.2]
      simp only [State.cell, update_of_ne (hne _ hseg.1)]
      refine hsame _ hseg.1 _ (fun hk => ?_)
      exact hseg.2 _ hk.symm rfl

end Layout

end Apple.Dispatch.TimerHeap
