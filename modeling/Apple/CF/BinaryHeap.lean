import Apple.Lib.HeapOrder

/-!
# `CFBinaryHeap`

Model of `CF-1153.18/CFBinaryHeap.c`: adding a value, removing the least one, and
`CFBinaryHeapGetValues`, which drains a copy of the heap. The items are pointers; the
buckets of a heap are memory for `_capacity` of them, and `none` is a bucket that has not been
written. The retain and release callbacks move a reference count of the item.

`none` as a result is a program that stops (`HALT`), a shift whose value is not an `int`, or an
access outside of the buckets.

Results: `siftUp_spec`, `siftDown_spec`.
-/

namespace Apple.CF.BinaryHeap

open Lib.HeapOrder Function Option

variable {τ : Type}

/-! ## The source -/

/-- `CFBinaryHeapCallBacks`: whether there are `retain` and `release`, and `compare`. -/
structure CallBacks (τ : Type) where
  retain : Bool
  release : Bool
  compare : Option (τ → τ → Ordering)

/-- `struct __CFBinaryHeap` (lines 48–55). -/
structure Heap (τ : Type) where
  count : ℕ
  capacity : ℕ
  buckets : List (Option τ)

/-- A heap, and the reference counts of all items. -/
structure State (τ : Type) where
  heap : Heap τ
  refs : τ → ℤ

/-- `__CFBinaryHeapRoundUpCapacity` (lines 39–42). The shift is one of an `int`. -/
def roundUpCapacity (capacity : ℕ) : Option ℕ :=
  if capacity < 4 then some 4
  else
    let fls := Nat.log2 capacity + 1
    if fls < 31 then some (1 <<< fls) else none

/-- `heap->_buckets[idx]._item`. -/
def item (buckets : List (Option τ)) (idx : ℕ) : Option τ := buckets[idx]?.join

/-- `heap->_buckets[idx]._item = value`. -/
def setItem (buckets : List (Option τ)) (idx : ℕ) (value : τ) : Option (List (Option τ)) :=
  if idx < buckets.length then some (buckets.set idx (some value)) else none

/-- `__CFBinaryHeapGrow` (lines 355–366). -/
def grow (heap : Heap τ) (numNewValues : ℕ) : Option (Heap τ) := do
  let capacity ← roundUpCapacity (heap.count + numNewValues)
  some { heap with
    capacity := capacity
    buckets := heap.buckets.take capacity ++
      List.replicate (capacity - heap.buckets.length) none }

/-- The growth at the start of `CFBinaryHeapAddValue` (lines 373–378). -/
def growIfFull (heap : Heap τ) : Option (Heap τ) :=
  if heap.count = heap.capacity then grow heap 1 else some heap

section Operations

variable [LinearOrder τ] (cb : CallBacks τ)

/-- Whether one item is greater than another: by `compare`, or without it by address. -/
def greater (x y : τ) : Bool :=
  match cb.compare with
  | none => decide (y < x)
  | some compare => compare x y == .gt

/-- The loop of `CFBinaryHeapAddValue` (lines 385–391): the index for the value. -/
def siftUp (value : τ) : ℕ → ℕ → List (Option τ) → Option (List (Option τ) × ℕ)
  | 0, _, _ => none
  | fuel + 1, idx, buckets =>
    if 0 < idx then do
      let pidx := (idx - 1) >>> 1
      let item ← item buckets pidx
      if ¬ greater cb item value then some (buckets, idx)
      else do
        let buckets ← setItem buckets idx item
        siftUp value fuel pidx buckets
    else some (buckets, idx)

/-- `CFBinaryHeapAddValue` (lines 368–397). -/
def addValue (s : State τ) (value : τ) : Option (State τ) := do
  let heap ← growIfFull s.heap
  let cnt := heap.count
  let (buckets, idx) ← siftUp cb value (cnt + 1) cnt heap.buckets
  let buckets ← setItem buckets idx value
  some {
    heap := { heap with count := cnt + 1, buckets := buckets }
    refs := if cb.retain then update s.refs value (s.refs value + 1) else s.refs }

/-- The child that `CFBinaryHeapRemoveMinimumValue` goes on with (lines 414–421): the bucket
`cidx` or the next one, and its item. -/
def lesserChild (count cidx : ℕ) (buckets : List (Option τ)) : Option (ℕ × τ) := do
  let item₁ ← item buckets cidx
  if cidx + 1 < count then do
    let item₂ ← item buckets (cidx + 1)
    if greater cb item₁ item₂ then some (cidx + 1, item₂) else some (cidx, item₁)
  else some (cidx, item₁)

/-- The loop of `CFBinaryHeapRemoveMinimumValue` (lines 413–426), on `count` buckets. -/
def siftDown (val : τ) (count : ℕ) : ℕ → ℕ → List (Option τ) → Option (List (Option τ) × ℕ)
  | 0, _, _ => none
  | fuel + 1, idx, buckets =>
    let cidx := (idx <<< 1) + 1
    if cidx < count then do
      let (cidx, item) ← lesserChild cb count cidx buckets
      if greater cb item val then some (buckets, idx)
      else do
        let buckets ← setItem buckets idx item
        siftDown val count fuel cidx buckets
    else some (buckets, idx)

/-- `CFBinaryHeapRemoveMinimumValue` (lines 399–430). -/
def removeMinimumValue (s : State τ) : Option (State τ) :=
  let cnt := s.heap.count
  if cnt = 0 then some s
  else do
    let first ← item s.heap.buckets 0
    let refs := if cb.release then update s.refs first (s.refs first - 1) else s.refs
    let val ← item s.heap.buckets (cnt - 1)
    let (buckets, idx) ← siftDown cb val (cnt - 1) cnt 0 s.heap.buckets
    let buckets ← setItem buckets idx val
    some { heap := { s.heap with count := cnt - 1, buckets := buckets }, refs := refs }

/-- `CFBinaryHeapGetMinimum` (lines 307–311). -/
def getMinimum (heap : Heap τ) : Option τ := if 0 < heap.count then item heap.buckets 0 else none

/-- The heap of `CFBinaryHeapCreate`: room for `__CFBinaryHeapRoundUpCapacity(1)` items. -/
def create : Heap τ := { count := 0, capacity := 4, buckets := List.replicate 4 none }

/-- The loop of `__CFBinaryHeapInit` over the values (lines 255–257). -/
def addValues : List τ → State τ → Option (State τ)
  | [], s => some s
  | value :: values, s => (addValue cb s value).bind (addValues values)

/-- The loop of `CFBinaryHeapGetValues` (lines 331–335), with the values so far. -/
def drain : ℕ → State τ → List τ → Option (State τ × List τ)
  | 0, _, _ => none
  | fuel + 1, s, values =>
    if 0 < s.heap.count then do
      let value ← getMinimum s.heap
      let s ← removeMinimumValue cb s
      drain fuel s (values ++ [value])
    else some (s, values)

/-- `CFBinaryHeapGetValues` (lines 321–337). The copy shares the callbacks; it is empty when it is
released, so releasing it does nothing to the items. -/
def getValues (s : State τ) : Option (State τ × List τ) :=
  if s.heap.count = 0 then some (s, [])
  else do
    let items ← (List.range s.heap.count).mapM (item s.heap.buckets)
    let copy ← addValues cb items { heap := create, refs := s.refs }
    let (copy, values) ← drain cb (copy.heap.count + 1) copy []
    some ({ s with refs := copy.refs }, values)

end Operations

/-! ## Positions -/

/-- The parent of a bucket. -/
def parentOf (j : ℕ) : Option ℕ := if j = 0 then none else some ((j - 1) / 2)

variable {j idx : ℕ} {buckets : List (Option τ)} {y : τ}

theorem parentOf_eq_some {p : ℕ} : parentOf j = some p ↔ j = 2 * p + 1 ∨ j = 2 * p + 2 := by
  unfold parentOf
  split_ifs with h
  · simp only [false_iff]
    omega
  · rw [some.injEq]
    omega

theorem parentOf_lt (j p : ℕ) (h : parentOf j = some p) : p < j := by
  rw [parentOf_eq_some] at h
  omega

/-! ## Buckets -/

theorem setItem_eq (h : idx < buckets.length) (x : τ) :
    setItem buckets idx x = some (buckets.set idx (some x)) := if_pos h

theorem item_set (h : idx < buckets.length) (x : τ) :
    item (buckets.set idx (some x)) = update (item buckets) idx (some x) := by
  funext k
  unfold item
  by_cases hk : k = idx
  · subst hk
    simp [h]
  · rw [update_of_ne hk, List.getElem?_set_ne (Ne.symm hk)]

/-- The items that are seen when the bucket `i` holds `x`. -/
def withItem (buckets : List (Option τ)) (i : ℕ) (x : τ) : ℕ → Option τ :=
  update (item buckets) i (some x)

@[simp] theorem withItem_self (buckets : List (Option τ)) (i : ℕ) (x : τ) :
    withItem buckets i x i = some x := update_self _ _ _

theorem withItem_of_ne (buckets : List (Option τ)) {i k : ℕ} (h : k ≠ i) (x : τ) :
    withItem buckets i x k = item buckets k := update_of_ne h _ _

/-- Moving an item to `i` and the hole to `j` exchanges the two. -/
theorem withItem_set {i : ℕ} (hij : i ≠ j)
    (hi : i < buckets.length) (hy : item buckets j = some y) (x : τ) :
    withItem (buckets.set i (some y)) j x = exchange (withItem buckets i x) i j := by
  funext k
  by_cases hkj : k = j
  · subst hkj
    rw [exchange_right, withItem_self, withItem_self]
  · rw [withItem_of_ne _ hkj, item_set hi]
    by_cases hki : k = i
    · subst hki
      rw [exchange_left, update_self, withItem_of_ne _ (Ne.symm hij), hy]
    · rw [exchange_of_ne _ hki hkj, update_of_ne hki, withItem_of_ne _ hki]

/-! ## Sifting -/

section Sift

variable {α : Type} [LinearOrder α] {rank : τ → α}

/-- The key of a bucket. -/
def keyOf (rank : τ → α) (o : Option τ) : WithBot α := o.map rank

theorem keyOf_le (x y : τ) : keyOf rank (some x) ≤ keyOf rank (some y) ↔ rank x ≤ rank y :=
  WithBot.coe_le_coe

variable {n : ℕ} {x : τ}

theorem isSome_of_rearranges {b c : ℕ → Option τ} (h : Rearranges {k | k < n} b c)
    (hb : ∀ k < n, (b k).isSome) : ∀ k < n, (c k).isSome := by
  intro k hk
  obtain ⟨j, hj, he⟩ := h.image_eq.subset ⟨k, hk, rfl⟩
  rw [← he]
  exact hb j hj

/-- What a sift from `idx` in `buckets` has done when it stops at `idx'` in `buckets'`. -/
structure Sifted (rank : τ → α) (n : ℕ) (x : τ) (buckets : List (Option τ)) (idx : ℕ)
    (buckets' : List (Option τ)) (idx' : ℕ) : Prop where
  length : buckets'.length = buckets.length
  lt : idx' < n
  isHeap : IsHeap parentOf {k | k < n} (keyOf rank) (withItem buckets' idx' x)
  rearranges : Rearranges {k | k < n} (withItem buckets idx x) (withItem buckets' idx' x)

theorem rearranges_set (hidx : idx < n) (hn : n ≤ buckets.length) (hj : j < n) (hne : idx ≠ j)
    (hy : item buckets j = some y) : Rearranges {k | k < n} (withItem buckets idx x)
      (withItem (buckets.set idx (some y)) j x) := by
  rw [withItem_set hne (hidx.trans_le hn) hy]
  exact Rearranges.exchange (Set.mem_ofPred_eq ▸ hidx) (Set.mem_ofPred_eq ▸ hj)

theorem Sifted.step {idx' : ℕ} {buckets' : List (Option τ)}
    (hidx : idx < n) (hn : n ≤ buckets.length) (hj : j < n) (hne : idx ≠ j)
    (hy : item buckets j = some y)
    (h : Sifted rank n x (buckets.set idx (some y)) j buckets' idx') :
    Sifted rank n x buckets idx buckets' idx' where
  length := by rw [h.length, List.length_set]
  lt := h.lt
  isHeap := h.isHeap
  rearranges := (rearranges_set hidx hn hj hne hy).trans h.rearranges

variable [LinearOrder τ] {cb : CallBacks τ}

variable (hrank : ∀ x y, greater cb x y = false ↔ rank x ≤ rank y)

section

include hrank

theorem rank_lt_of_greater (h : greater cb x y) : rank y < rank x := by
  rw [← not_le, ← hrank, h]
  exact Bool.true_eq_false_eq_False

variable (hidx : idx < n) (hn : n ≤ buckets.length)
  (hfilled : ∀ k < n, (withItem buckets idx x k).isSome)
  (hnear : NearHeap parentOf {k | k < n} (keyOf rank) (withItem buckets idx x) idx)

include hidx hn hfilled hnear in
/-- Sifting up ends in a heap. -/
theorem siftUp_spec {fuel : ℕ}
    (hbelow : BelowOk parentOf {k | k < n} (keyOf rank) (withItem buckets idx x) idx)
    (hfuel : idx < fuel) : ∃ buckets' idx', siftUp cb x fuel idx buckets = some (buckets', idx') ∧
      Sifted rank n x buckets idx buckets' idx' := by
  induction fuel generalizing idx buckets with
  | zero => exact absurd hfuel (Nat.not_lt_zero _)
  | succ fuel ih =>
    have hstop : AboveOk parentOf (keyOf rank) (withItem buckets idx x) idx →
        Sifted rank n x buckets idx buckets idx := fun habove =>
      ⟨rfl, hidx, hnear.isHeap habove hbelow, .refl _ _⟩
    rw [siftUp]
    by_cases h0 : 0 < idx
    · have hp : parentOf idx = some ((idx - 1) / 2) := if_neg h0.ne'
      have hlt := parentOf_lt _ _ hp
      obtain ⟨y, hy⟩ := isSome_iff_exists.mp (hfilled ((idx - 1) / 2) (hlt.trans hidx))
      have hy' := hy
      rw [withItem_of_ne _ hlt.ne] at hy'
      simp only [if_pos h0, Nat.shiftRight_one, hy', bind_eq_bind, bind_some]
      by_cases hgt : greater cb y x
      · have hkey : keyOf rank (withItem buckets idx x idx) <
            keyOf rank (withItem buckets idx x ((idx - 1) / 2)) := by
          rw [withItem_self, hy, ← not_le, keyOf_le, not_le]
          exact rank_lt_of_greater hrank hgt
        obtain ⟨hnear', hbelow'⟩ := hnear.up parentOf_lt hp (hlt.trans hidx) hkey
        rw [← withItem_set hlt.ne' (hidx.trans_le hn) hy'] at hnear' hbelow'
        obtain ⟨buckets', idx', hrun, hsifted⟩ := ih (hlt.trans hidx)
          (by rw [List.length_set]; exact hn)
          (isSome_of_rearranges (rearranges_set hidx hn (hlt.trans hidx) hlt.ne' hy') hfilled)
          hnear' hbelow' (by omega)
        refine ⟨buckets', idx', ?_, hsifted.step hidx hn (hlt.trans hidx) hlt.ne' hy'⟩
        rw [if_neg (by simpa using hgt), setItem_eq (hidx.trans_le hn), bind_some, hrun]
      · refine ⟨buckets, idx, by rw [if_pos (by simpa using hgt)], hstop fun p hp' => ?_⟩
        obtain rfl := some.inj (hp'.symm.trans hp)
        rw [withItem_self, hy, keyOf_le, ← hrank]
        simpa using hgt
    · refine ⟨buckets, idx, by rw [if_neg h0], hstop fun p hp => ?_⟩
      exact absurd (parentOf_lt _ _ hp) (by omega)

/-- The child that is chosen has the least key. -/
theorem lesserChild_spec {b : ℕ → Option τ}
    (hb : ∀ k, k ≠ idx → b k = item buckets k) (hfilled : ∀ k < n, (b k).isSome)
    (hlt : 2 * idx + 1 < n) : ∃ c y, lesserChild cb n (2 * idx + 1) buckets = some (c, y) ∧
      parentOf c = some idx ∧ c < n ∧ item buckets c = some y ∧
      ∀ j ∈ {k | k < n}, parentOf j = some idx → keyOf rank (b c) ≤ keyOf rank (b j) := by
  have hsome : ∀ k < n, k ≠ idx → ∃ y, item buckets k = some y := fun k hk hne => by
    rw [← hb k hne]
    exact isSome_iff_exists.mp (hfilled k hk)
  obtain ⟨item₁, h₁⟩ := hsome _ hlt (by omega)
  unfold lesserChild
  by_cases h2 : 2 * idx + 1 + 1 < n
  · obtain ⟨item₂, h₂⟩ := hsome _ h2 (by omega)
    simp only [if_pos h2, h₁, h₂]
    by_cases hgt : greater cb item₁ item₂
    · refine ⟨2 * idx + 1 + 1, item₂, if_pos hgt, parentOf_eq_some.mpr (.inr rfl), h2, h₂,
        fun j _ hj => ?_⟩
      rcases parentOf_eq_some.mp hj with rfl | rfl
      · rw [hb _ (by omega), hb _ (by omega), h₁, h₂, keyOf_le]
        exact (rank_lt_of_greater hrank hgt).le
      · exact le_rfl
    · refine ⟨2 * idx + 1, item₁, if_neg hgt, parentOf_eq_some.mpr (.inl rfl), hlt, h₁,
        fun j _ hj => ?_⟩
      rcases parentOf_eq_some.mp hj with rfl | rfl
      · exact le_rfl
      · rw [hb _ (by omega), hb _ (by omega), h₁, h₂, keyOf_le, ← hrank]
        simpa using hgt
  · simp only [if_neg h2, h₁]
    refine ⟨2 * idx + 1, item₁, rfl, parentOf_eq_some.mpr (.inl rfl), hlt, h₁,
      fun j hjn hj => ?_⟩
    rw [Set.mem_ofPred_eq] at hjn
    rcases parentOf_eq_some.mp hj with rfl | rfl
    · exact le_rfl
    · omega

include hidx hn hfilled hnear in
/-- Sifting down ends in a heap. -/
theorem siftDown_spec {fuel : ℕ}
    (habove : AboveOk parentOf (keyOf rank) (withItem buckets idx x) idx) (hfuel : n - idx < fuel) :
    ∃ buckets' idx', siftDown cb x n fuel idx buckets = some (buckets', idx') ∧
      Sifted rank n x buckets idx buckets' idx' := by
  induction fuel generalizing idx buckets with
  | zero => exact absurd hfuel (Nat.not_lt_zero _)
  | succ fuel ih =>
    have hstop : BelowOk parentOf {k | k < n} (keyOf rank) (withItem buckets idx x) idx →
        Sifted rank n x buckets idx buckets idx := fun hbelow =>
      ⟨rfl, hidx, hnear.isHeap habove hbelow, .refl _ _⟩
    have hshift : idx <<< 1 = 2 * idx := by omega
    rw [siftDown, hshift]
    by_cases hlt : 2 * idx + 1 < n
    · obtain ⟨c, y, hchild, hp, hc, hy, hleast⟩ :=
        lesserChild_spec hrank (fun k hk => withItem_of_ne buckets hk x) hfilled hlt
      have hic : idx < c := parentOf_lt _ _ hp
      simp only [if_pos hlt, bind_eq_bind, bind_some, hchild]
      by_cases hgt : greater cb y x
      · refine ⟨buckets, idx, by rw [if_pos hgt], hstop fun j hj hpj => ?_⟩
        refine le_trans ?_ (hleast j hj hpj)
        rw [withItem_self, withItem_of_ne _ hic.ne', hy, keyOf_le]
        exact (rank_lt_of_greater hrank hgt).le
      · have hkey : keyOf rank (withItem buckets idx x c) ≤
            keyOf rank (withItem buckets idx x idx) := by
          rw [withItem_self, withItem_of_ne _ hic.ne', hy, keyOf_le, ← hrank]
          simpa using hgt
        obtain ⟨hnear', habove'⟩ := hnear.down parentOf_lt hp hc hleast hkey
        rw [← withItem_set hic.ne (hidx.trans_le hn) hy] at hnear' habove'
        obtain ⟨buckets', idx', hrun, hsifted⟩ := ih hc (by rw [List.length_set]; exact hn)
          (isSome_of_rearranges (rearranges_set hidx hn hc hic.ne hy) hfilled)
          hnear' habove' (by omega)
        refine ⟨buckets', idx', ?_, hsifted.step hidx hn hc hic.ne hy⟩
        rw [if_neg hgt, setItem_eq (hidx.trans_le hn), bind_some, hrun]
    · refine ⟨buckets, idx, by simp only [if_neg hlt], hstop fun j hj hp => ?_⟩
      rw [Set.mem_ofPred_eq] at hj
      rcases parentOf_eq_some.mp hp with rfl | rfl
      · exact absurd hj hlt
      · omega

end

end Sift

end Apple.CF.BinaryHeap
