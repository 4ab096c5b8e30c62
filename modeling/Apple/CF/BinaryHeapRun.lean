import Apple.CF.BinaryHeap

/-!
# Runs of `CFBinaryHeap`

Every sequence of `CFBinaryHeapAddValue` and `CFBinaryHeapRemoveMinimumValue` on a new heap.
The comparison is any total preorder, or the order of the pointers when there is no callback.

Results:
* `addValue_spec`, `removeMinimumValue_spec`, `getValues_spec`: one operation.
* `binaryHeap_run_iff`: when a whole run keeps the heap as it should be.
* `heapEqual_iff`: when equality of heaps is that of their sorted values.
-/

namespace Apple.CF.BinaryHeap

open Lib.HeapOrder Function List Option Nat

variable {τ : Type}

/-! ## What a heap holds -/

/-- The values of a heap. -/
def contents (h : Heap τ) : Multiset τ := (Multiset.range h.count).filterMap (item h.buckets)

/-- `compare` says "greater" as a total preorder does. -/
structure ComparesPreorder (compare : τ → τ → Ordering) : Prop where
  total : ∀ x y, compare x y ≠ .gt ∨ compare y x ≠ .gt
  trans : ∀ x y z, compare x y ≠ .gt → compare y z ≠ .gt → compare x z ≠ .gt

variable {h : Heap τ} {n : ℕ} {s : State τ}

theorem card_contents (hfilled : ∀ k < h.count, (item h.buckets k).isSome) :
    Multiset.card (contents h) = h.count := by
  show ((List.range h.count).filterMap (item h.buckets)).length = h.count
  rw [length_filterMap_eq_countP, countP_eq_length.mpr fun k hk => hfilled k (mem_range.mp hk),
    length_range]

theorem filterMap_range_congr {b c : ℕ → Option τ} (h : ∀ k < n, b k = c k) :
    (Multiset.range n).filterMap b = (Multiset.range n).filterMap c :=
  congrArg Multiset.ofList (filterMap_congr fun k hk => h k (mem_range.mp hk))

theorem item_replicate_append (buckets : List (Option τ)) (n k : ℕ) :
    item (buckets ++ List.replicate n none) k = item buckets k := by
  unfold item
  by_cases hk : k < buckets.length
  · rw [getElem?_append_left hk]
  · rw [getElem?_append_right (not_lt.mp hk), getElem?_replicate,
      getElem?_eq_none (not_lt.mp hk)]
    split_ifs <;> rfl

/-- Taking the last item into the root's place takes the root out of the values. -/
theorem filterMap_range_withItem {buckets : List (Option τ)} {first val : τ}
    (hfirst : item buckets 0 = some first) (hval : item buckets n = some val) :
    first ::ₘ (Multiset.range n).filterMap (withItem buckets 0 val) =
      (Multiset.range (n + 1)).filterMap (item buckets) := by
  have hex : Rearranges {k | k < n + 1} (item buckets) (exchange (item buckets) 0 n) :=
    .exchange (Set.mem_ofPred_eq ▸ n.succ_pos) (Set.mem_ofPred_eq ▸ n.lt_succ_self)
  have hlast : exchange (item buckets) 0 n n = some first := by rw [exchange_right, hfirst]
  rw [← hex.filterMap_range, Multiset.range_succ, Multiset.filterMap_cons_some _ _ _ hlast]
  congr 1
  refine filterMap_range_congr fun k hk => ?_
  by_cases h0 : k = 0
  · rw [h0, withItem_self, exchange_left, hval]
  · rw [withItem_of_ne _ h0, exchange_of_ne _ h0 hk.ne]

theorem getMinimum_of_pos (hpos : 0 < h.count) : getMinimum h = item h.buckets 0 := if_pos hpos

theorem mapM_item (buckets : List (Option τ)) (l : List ℕ) (h : ∀ k ∈ l, (item buckets k).isSome) :
    l.mapM (item buckets) = some (l.filterMap (item buckets)) := by
  induction l with
  | nil => rfl
  | cons k l ih =>
    obtain ⟨x, hx⟩ := isSome_iff_exists.mp (h k mem_cons_self)
    rw [mapM_cons, hx, ih fun j hj => h j (mem_cons_of_mem k hj),
      filterMap_cons_some hx]
    rfl

/-- The callback to compare, if there is one, is a total preorder. -/
def CallBacks.Preordered (cb : CallBacks τ) : Prop :=
  ∀ compare, cb.compare = some compare → ComparesPreorder compare

section Operations

variable [LinearOrder τ] (cb : CallBacks τ)

/-- No item is less than the one in the parent's bucket. -/
def HeapOrdered (h : Heap τ) : Prop :=
  ∀ j < h.count, ∀ p, parentOf j = some p → ∀ x y, item h.buckets p = some x →
    item h.buckets j = some y → greater cb x y = false

/-- The invariant of a heap. -/
structure Wf (h : Heap τ) : Prop where
  length : h.buckets.length = h.capacity
  capacity : ∃ k, 2 ≤ k ∧ k ≤ 30 ∧ h.capacity = 2 ^ k
  count_le : h.count ≤ h.capacity
  filled : ∀ k < h.count, (item h.buckets k).isSome
  ordered : HeapOrdered cb h

variable {cb}

theorem wf_create : Wf cb (create : Heap τ) where
  length := rfl
  capacity := ⟨2, le_rfl, by norm_num, rfl⟩
  count_le := zero_le
  filled _ hk := absurd hk (Nat.not_lt_zero _)
  ordered _ hj := absurd hj (Nat.not_lt_zero _)

/-- Whatever the callback, the items are compared by a rank. -/
theorem exists_rank_of_callbacks (hcmp : cb.Preordered) :
    ∃ (α : Type) (_ : LinearOrder α) (rank : τ → α),
      ∀ x y, greater cb x y = false ↔ rank x ≤ rank y := by
  obtain ⟨α, inst, rank, hrank⟩ := exists_rank (fun x y => greater cb x y = false)
    (fun x y => by
      cases hc : cb.compare with
      | none => simpa [greater, hc] using le_total x y
      | some compare => simpa [greater, hc] using (hcmp compare hc).total x y)
    (fun x y z => by
      cases hc : cb.compare with
      | none => simpa [greater, hc] using le_trans
      | some compare => simpa [greater, hc] using (hcmp compare hc).trans x y z)
  exact ⟨α, inst, rank, fun x y => (hrank x y).symm⟩

section Rank

variable {α : Type} [LinearOrder α] {rank : τ → α}

theorem heapOrdered_iff (hrank : ∀ x y, greater cb x y = false ↔ rank x ≤ rank y)
    (hfilled : ∀ k < h.count, (item h.buckets k).isSome) :
    HeapOrdered cb h ↔ IsHeap parentOf {k | k < h.count} (keyOf rank) (item h.buckets) := by
  constructor
  · intro ho j hj p hp
    obtain ⟨y, hy⟩ := isSome_iff_exists.mp (hfilled j hj)
    obtain ⟨x, hx⟩ := isSome_iff_exists.mp (hfilled p ((parentOf_lt j p hp).trans hj))
    rw [hx, hy, keyOf_le, ← hrank]
    exact ho j hj p hp x y hx hy
  · intro hh j hj p hp x y hx hy
    have hle := hh j hj p hp
    rwa [hx, hy, keyOf_le, ← hrank] at hle

theorem Wf.root_le (hrank : ∀ x y, greater cb x y = false ↔ rank x ≤ rank y)
    (hw : Wf cb h) {m y : τ} (hm : item h.buckets 0 = some m) (hy : y ∈ contents h) :
    greater cb m y = false := by
  have hheap := (heapOrdered_iff hrank hw.filled).mp hw.ordered
  obtain ⟨j, hj, hjy⟩ := (Multiset.mem_filterMap _ _).mp hy
  have hle := hheap.root_le parentOf_lt (fun j hj p hp => (parentOf_lt j p hp).trans hj)
    (fun j _ hp => by
      by_contra h0
      rw [parentOf, if_neg h0] at hp
      cases hp) (Multiset.mem_range.mp hj)
  rwa [hm, hjy, keyOf_le, ← hrank] at hle

end Rank

/-! ## One operation -/

/-- `heap->_callbacks.retain(value)`, if there is one. -/
def retained (cb : CallBacks τ) (refs : τ → ℤ) (value : τ) : τ → ℤ :=
  if cb.retain then update refs value (refs value + 1) else refs

/-- `heap->_callbacks.release(value)`, if there is one. -/
def released (cb : CallBacks τ) (refs : τ → ℤ) (value : τ) : τ → ℤ :=
  if cb.release then update refs value (refs value - 1) else refs

theorem roundUpCapacity_two_pow {k : ℕ} (hk : 2 ≤ k) :
    roundUpCapacity (2 ^ k + 1) = if k < 30 then some (2 ^ (k + 1)) else none := by
  have h4 : 2 ^ 2 ≤ 2 ^ k := Nat.pow_le_pow_right two_pos hk
  have hlog : Nat.log2 (2 ^ k + 1) = k := by
    rw [log2_eq_iff (by omega)]
    constructor
    · omega
    · omega
  simp only [roundUpCapacity, hlog, if_neg (show ¬ 2 ^ k + 1 < 4 by omega), one_shiftLeft]
  exact if_congr (by omega) rfl rfl

/-- The buckets that `CFBinaryHeapAddValue` works on: the same values, and room for one more. -/
theorem growIfFull_spec (hw : Wf cb h) :
    (h.count < 2 ^ 30 → ∃ h', growIfFull h = some h' ∧ Wf cb h' ∧
      h'.count = h.count ∧ h'.count < h'.capacity ∧ ∀ k, item h'.buckets k = item h.buckets k) ∧
    (2 ^ 30 ≤ h.count → growIfFull h = none) := by
  unfold growIfFull
  obtain ⟨k, hk2, hk30, hcap⟩ := hw.capacity
  have hle := hw.count_le
  have h30 : 2 ^ k ≤ 2 ^ 30 := Nat.pow_le_pow_right two_pos hk30
  by_cases hfull : h.count = h.capacity
  · have hround : roundUpCapacity (h.count + 1) = if k < 30 then some (2 ^ (k + 1)) else none := by
      rw [hfull, hcap, roundUpCapacity_two_pow hk2]
    rw [if_pos hfull, grow, hround]
    constructor
    · intro hlt
      have hk : k < 30 := by
        rw [hfull, hcap] at hlt
        exact (Nat.pow_lt_pow_iff_right (by norm_num)).mp hlt
      have hlen : h.buckets.length = 2 ^ k := hw.length.trans hcap
      have hitem : ∀ j, item (h.buckets.take (2 ^ (k + 1)) ++
          List.replicate (2 ^ (k + 1) - h.buckets.length) none) j = item h.buckets j := by
        intro j
        rw [take_of_length_le (by omega), item_replicate_append]
      rw [if_pos hk]
      refine ⟨_, rfl, ⟨?_, ⟨k + 1, by omega, by omega, rfl⟩, ?_, ?_, ?_⟩, rfl, ?_, hitem⟩
      · rw [length_append, length_take, length_replicate, hlen]
        show min (2 ^ (k + 1)) (2 ^ k) + (2 ^ (k + 1) - 2 ^ k) = 2 ^ (k + 1)
        omega
      · show h.count ≤ 2 ^ (k + 1)
        omega
      · intro j hj
        rw [hitem]
        exact hw.filled j hj
      · intro j hj p hp x y hx hy
        rw [hitem] at hx hy
        exact hw.ordered j hj p hp x y hx hy
      · show h.count < 2 ^ (k + 1)
        have hpos := Nat.two_pow_pos k
        omega
    · intro hge
      have hk : ¬ k < 30 := fun hk => by
        have hlt := Nat.pow_lt_pow_right one_lt_two hk
        omega
      rw [if_neg hk]
      rfl
  · rw [if_neg hfull]
    exact ⟨fun _ => ⟨h, rfl, hw, rfl, by omega, fun _ => rfl⟩, fun hge => by omega⟩

/-- **`CFBinaryHeapAddValue`** goes through exactly below 2^30 values, and adds the value. -/
theorem addValue_spec (hcmp : cb.Preordered) (hw : Wf cb s.heap) (hlt : s.heap.count < 2 ^ 30)
    (value : τ) : ∃ h', addValue cb s value = some ⟨h', retained cb s.refs value⟩ ∧ Wf cb h' ∧
      h'.count = s.heap.count + 1 ∧ contents h' = value ::ₘ contents s.heap := by
  obtain ⟨α, inst, rank, hrank⟩ := exists_rank_of_callbacks hcmp
  obtain ⟨h, hgrow, hwf, hcount, hroom, hitem⟩ := (growIfFull_spec hw).1 hlt
  have hheap := (heapOrdered_iff hrank hwf.filled).mp hwf.ordered
  have hlen : h.count + 1 ≤ h.buckets.length := by rw [hwf.length]; exact hroom
  have hold : ∀ k < h.count, withItem h.buckets h.count value k = item h.buckets k :=
    fun k hk => withItem_of_ne _ hk.ne _
  have hfilled : ∀ k < h.count + 1, (withItem h.buckets h.count value k).isSome := by
    intro k hk
    rcases Nat.lt_succ_iff_lt_or_eq.mp hk with hk | rfl
    · rw [hold k hk]
      exact hwf.filled k hk
    · rw [withItem_self]
      rfl
  -- nothing is below the new bucket, and the old ones are in order
  have hnear : NearHeap parentOf {k | k < h.count + 1} (keyOf rank)
      (withItem h.buckets h.count value) h.count := by
    constructor
    · intro j hj p hp hjn hpn
      have hj' : j < h.count := lt_of_le_of_ne (Nat.lt_succ_iff.mp hj) hjn
      rw [hold j hj', hold p ((parentOf_lt j p hp).trans hj')]
      exact hheap j hj' p hp
    · intro j hj hp
      exact absurd (parentOf_lt j _ hp) (not_lt.mpr (Nat.lt_succ_iff.mp hj))
  have hbelow : BelowOk parentOf {k | k < h.count + 1} (keyOf rank)
      (withItem h.buckets h.count value) h.count := fun j hj hp =>
    absurd (parentOf_lt j _ hp) (not_lt.mpr (Nat.lt_succ_iff.mp hj))
  obtain ⟨buckets, idx, hsift, hs⟩ := siftUp_spec hrank (lt_succ_self h.count) hlen hfilled
    hnear hbelow (lt_succ_self h.count)
  have hidx : idx < buckets.length := by rw [hs.length]; exact hs.lt.trans_le hlen
  have hset : item (buckets.set idx (some value)) = withItem buckets idx value := item_set hidx _
  have hfilled' := isSome_of_rearranges hs.rearranges hfilled
  refine ⟨⟨h.count + 1, h.capacity, buckets.set idx (some value)⟩, ?_, ⟨?_, hwf.capacity, hroom,
    ?_, ?_⟩, by rw [hcount], ?_⟩
  · rw [addValue, hgrow]
    simp [hsift, setItem_eq hidx, retained]
  · rw [length_set, hs.length, hwf.length]
  · rw [hset]
    exact hfilled'
  · refine (heapOrdered_iff hrank ?_).mpr ?_
    · rw [hset]
      exact hfilled'
    · rw [hset]
      exact hs.isHeap
  · rw [contents, hset, hs.rearranges.filterMap_range, Multiset.range_succ,
      Multiset.filterMap_cons_some _ _ _ (withItem_self _ _ _), filterMap_range_congr hold,
      contents, hcount]
    rw [filterMap_range_congr fun k _ => hitem k]

theorem addValue_eq_none (hw : Wf cb s.heap) (hge : 2 ^ 30 ≤ s.heap.count)
    (value : τ) : addValue cb s value = none := by
  rw [addValue, (growIfFull_spec hw).2 hge]
  rfl

/-- The end of `CFBinaryHeapRemoveMinimumValue`, on what the loop leaves. -/
theorem siftDown_root {α : Type} [LinearOrder α] {rank : τ → α}
    (hrank : ∀ x y, greater cb x y = false ↔ rank x ≤ rank y) (hw : Wf cb h) (hn : h.count = n + 1)
    {val : τ} (hval : item h.buckets n = some val) :
    ∃ buckets idx, siftDown cb val n (n + 1) 0 h.buckets = some (buckets, idx) ∧
      idx < buckets.length ∧ buckets.length = h.buckets.length ∧
      (∀ k < n, (withItem buckets idx val k).isSome) ∧
      IsHeap parentOf {k | k < n} (keyOf rank) (withItem buckets idx val) ∧
      Rearranges {k | k < n} (withItem h.buckets 0 val) (withItem buckets idx val) := by
  have hlen : n + 1 ≤ h.buckets.length := by rw [hw.length, ← hn]; exact hw.count_le
  have hheap := (heapOrdered_iff hrank hw.filled).mp hw.ordered
  have hfilled : ∀ k < n, (withItem h.buckets 0 val k).isSome := fun k hk => by
    by_cases h0 : k = 0
    · rw [h0]
      rfl
    · rw [withItem_of_ne _ h0]
      exact hw.filled k (by omega)
  have hclosed : ∀ j ∈ {k | k < n}, ∀ p, parentOf j = some p → p ∈ {k | k < n} :=
    fun j hj p hp => (parentOf_lt j p hp).trans hj
  have hsub : IsHeap parentOf {k | k < n} (keyOf rank) (item h.buckets) := fun j hj p hp =>
    hheap j (by rw [Set.mem_ofPred_eq] at hj ⊢; omega) p hp
  rcases Nat.eq_zero_or_pos n with rfl | hpos
  · refine ⟨h.buckets, 0, rfl, hlen, rfl, hfilled, ?_, .refl _ _⟩
    exact fun j hj => absurd hj (Nat.not_lt_zero j)
  · have hnear : NearHeap parentOf {k | k < n} (keyOf rank) (withItem h.buckets 0 val) 0 :=
      hsub.nearHeap parentOf_lt hpos hclosed fun k _ hk => by rw [withItem_of_ne _ hk]
    obtain ⟨buckets, idx, hsift, hs⟩ := siftDown_spec hrank hpos (by omega) hfilled hnear
      (fun p hp => absurd (parentOf_lt 0 p hp) (Nat.not_lt_zero p)) (lt_succ_self n)
    refine ⟨buckets, idx, hsift, ?_, hs.length, isSome_of_rearranges hs.rearranges hfilled,
      hs.isHeap, hs.rearranges⟩
    rw [hs.length]
    exact hs.lt.trans_le (by omega)

/-- **`CFBinaryHeapRemoveMinimumValue`** takes the item of the first bucket out of the heap. -/
theorem removeMinimumValue_spec
    (hcmp : cb.Preordered) (hw : Wf cb s.heap) (hpos : 0 < s.heap.count) :
    ∃ m h', item s.heap.buckets 0 = some m ∧
      removeMinimumValue cb s = some ⟨h', released cb s.refs m⟩ ∧ Wf cb h' ∧
      h'.count + 1 = s.heap.count ∧ m ::ₘ contents h' = contents s.heap := by
  obtain ⟨α, inst, rank, hrank⟩ := exists_rank_of_callbacks hcmp
  obtain ⟨n, hn⟩ := exists_eq_succ_of_ne_zero hpos.ne'
  obtain ⟨m, hm⟩ := isSome_iff_exists.mp (hw.filled 0 hpos)
  obtain ⟨val, hval⟩ := isSome_iff_exists.mp (hw.filled n (by omega))
  obtain ⟨buckets, idx, hsift, hidx, hlength, hfilled, hheap, hre⟩ :=
    siftDown_root hrank hw hn hval
  have hset : item (buckets.set idx (some val)) = withItem buckets idx val := item_set hidx _
  refine ⟨m, ⟨n, s.heap.capacity, buckets.set idx (some val)⟩, hm, ?_,
    ⟨?_, hw.capacity, le_of_succ_le (hn ▸ hw.count_le), ?_, ?_⟩, hn.symm, ?_⟩
  · unfold removeMinimumValue
    simp [hn, hm, hval, hsift, setItem_eq hidx, released]
  · rw [length_set, hlength, hw.length]
  · rw [hset]
    exact hfilled
  · refine (heapOrdered_iff hrank ?_).mpr ?_
    · rw [hset]
      exact hfilled
    · rw [hset]
      exact hheap
  · rw [contents, contents, hset, hre.filterMap_range, filterMap_range_withItem hm hval, hn]

/-! ## `CFBinaryHeapGetValues` -/

/-- A callback for one value, and then for each value of a list. -/
theorem update_count (called : Bool) (refs : τ → ℤ) (v x : τ) (d : ℤ) (values : List τ) :
    (if called then update refs v (refs v + d) else refs) x +
        d * (if called then (values.count x : ℤ) else 0) =
      refs x + d * if called then ((v :: values).count x : ℤ) else 0 := by
  by_cases hr : called
  · by_cases hx : x = v
    · simp only [hr, if_true, hx, update_self, count_cons_self]
      push_cast
      ring
    · simp [hr, update_of_ne hx, count_cons_of_ne (Ne.symm hx)]
  · simp [hr]

/-- The values of a list added one by one. -/
theorem addValues_spec (hcmp : cb.Preordered) (values : List τ) (hw : Wf cb s.heap)
    (hfit : s.heap.count + values.length ≤ 2 ^ 30) :
    ∃ s', addValues cb values s = some s' ∧ Wf cb s'.heap ∧
      contents s'.heap = contents s.heap + values ∧
      ∀ x, s'.refs x = s.refs x + if cb.retain then (values.count x : ℤ) else 0 := by
  induction values generalizing s with
  | nil => exact ⟨s, rfl, hw, (add_zero _).symm, fun x => by simp⟩
  | cons v values ih =>
    rw [length_cons] at hfit
    obtain ⟨h', hadd, hw', hcount, hcont⟩ := addValue_spec hcmp hw (by omega) v
    obtain ⟨s', hrest, hws, hconts, hrefs⟩ :=
      ih (s := ⟨h', retained cb s.refs v⟩) hw' (by show h'.count + _ ≤ _; omega)
    refine ⟨s', by rw [addValues, hadd, bind_some, hrest], hws, ?_, fun x => ?_⟩
    · rw [hconts, hcont, ← Multiset.cons_coe, Multiset.cons_add, Multiset.add_cons]
    · have hcount := update_count cb.retain s.refs v x 1 values
      simp only [one_mul] at hcount
      exact (hrefs x).trans hcount

/-- The loop of `CFBinaryHeapGetValues`: the values come out in order. -/
theorem drain_spec (hcmp : cb.Preordered)
    {fuel : ℕ} (hw : Wf cb s.heap) (hfuel : s.heap.count < fuel) (values : List τ) :
    ∃ s' more, drain cb fuel s values = some (s', values ++ more) ∧
      (more : Multiset τ) = contents s.heap ∧ more.Pairwise (fun x y => greater cb x y = false) ∧
      ∀ x, s'.refs x = s.refs x - if cb.release then (more.count x : ℤ) else 0 := by
  induction fuel generalizing s values with
  | zero => exact absurd hfuel (Nat.not_lt_zero _)
  | succ fuel ih =>
    rw [drain]
    rcases Nat.eq_zero_or_pos s.heap.count with h0 | hpos
    · refine ⟨s, [], ?_, ?_, List.Pairwise.nil, fun x => by simp⟩
      · rw [h0, if_neg (lt_irrefl 0), append_nil]
      · rw [contents, h0]
        rfl
    · obtain ⟨m, h', hm, hremove, hw', hcount, hcont⟩ := removeMinimumValue_spec hcmp hw hpos
      obtain ⟨s', more, hrest, hmore, hsorted, hrefs⟩ :=
        ih (s := ⟨h', released cb s.refs m⟩) hw' (by show h'.count < _; omega) (values ++ [m])
      refine ⟨s', m :: more, ?_, ?_, ?_, fun x => ?_⟩
      · rw [if_pos hpos, getMinimum_of_pos hpos, hm]
        simp only [bind_eq_bind, bind_some, hremove, hrest]
        rw [append_assoc, singleton_append]
      · rw [← Multiset.cons_coe, hmore, hcont]
      · obtain ⟨α, inst, rank, hrank⟩ := exists_rank_of_callbacks hcmp
        refine pairwise_cons.mpr ⟨fun y hy => ?_, hsorted⟩
        refine hw.root_le hrank hm ?_
        rw [← hcont, ← hmore]
        exact Multiset.mem_cons_of_mem hy
      · have hcount := update_count cb.release s.refs m x (-1) more
        simp only [neg_one_mul] at hcount
        exact (hrefs x).trans hcount

/-- **`CFBinaryHeapGetValues`** gives all values in order, and changes the reference counts by
one reference of every value for a callback that has no counterpart. -/
theorem getValues_spec (hcmp : cb.Preordered) (hw : Wf cb s.heap) :
    ∃ refs values, getValues cb s = some (⟨s.heap, refs⟩, values) ∧
      (values : Multiset τ) = contents s.heap ∧
      values.Pairwise (fun x y => greater cb x y = false) ∧
      ∀ x, refs x = s.refs x + (if cb.retain then (values.count x : ℤ) else 0)
        - if cb.release then (values.count x : ℤ) else 0 := by
  unfold getValues
  by_cases h0 : s.heap.count = 0
  · refine ⟨s.refs, [], if_pos h0, ?_, List.Pairwise.nil, fun x => by simp⟩
    rw [contents, h0]
    rfl
  obtain ⟨k, hk2, hk30, hcap⟩ := hw.capacity
  have h30 : 2 ^ k ≤ 2 ^ 30 := Nat.pow_le_pow_right two_pos hk30
  have hle := hw.count_le
  have hitems := mapM_item s.heap.buckets (List.range s.heap.count) fun j hj =>
    hw.filled j (mem_range.mp hj)
  have hcoe : (((List.range s.heap.count).filterMap (item s.heap.buckets) : List τ) :
      Multiset τ) = contents s.heap := rfl
  have hlen : ((List.range s.heap.count).filterMap (item s.heap.buckets)).length =
      s.heap.count := by
    rw [← Multiset.coe_card, hcoe, card_contents hw.filled]
  obtain ⟨copy, hadd, hwc, hcontc, hrefsc⟩ := addValues_spec hcmp
    ((List.range s.heap.count).filterMap (item s.heap.buckets))
    (s := ⟨create, s.refs⟩) wf_create (by show 0 + _ ≤ _; omega)
  obtain ⟨copy', values, hdrain, hvalues, hsorted, hrefs⟩ :=
    drain_spec hcmp hwc (lt_succ_self _) []
  have hall : (values : Multiset τ) = contents s.heap := by
    rw [hvalues, hcontc, hcoe, show contents (create : Heap τ) = 0 from rfl, zero_add]
  refine ⟨copy'.refs, values, ?_, hall, hsorted, fun x => ?_⟩
  · rw [if_neg h0, hitems]
    simp [hadd, hdrain]
  · have hcnt : ((List.range s.heap.count).filterMap (item s.heap.buckets)).count x =
        values.count x := by
      rw [← Multiset.coe_count, hcoe, ← hall, Multiset.coe_count]
    rw [hrefs, hrefsc, hcnt]

end Operations

/-! ## Runs -/

/-- A call that changes a heap. -/
inductive Op (τ : Type)
  | add (value : τ)
  | removeMinimum

/-- The values that are added. -/
def added : List (Op τ) → Multiset τ
  | [] => 0
  | .add value :: ops => value ::ₘ added ops
  | .removeMinimum :: ops => added ops

/-- The number of values after the calls, from `n` of them. -/
def size : ℕ → List (Op τ) → ℕ
  | n, [] => n
  | n, .add _ :: ops => size (n + 1) ops
  | n, .removeMinimum :: ops => size (n - 1) ops

/-- No call has to hold more than 2^30 values. -/
def Fits : ℕ → List (Op τ) → Prop
  | _, [] => True
  | n, .add _ :: ops => n < 2 ^ 30 ∧ Fits (n + 1) ops
  | n, .removeMinimum :: ops => Fits (n - 1) ops

instance decidableFits : (n : ℕ) → (ops : List (Op τ)) → Decidable (Fits n ops)
  | _, [] => isTrue trivial
  | n, .add _ :: ops => @instDecidableAnd _ _ _ (decidableFits (n + 1) ops)
  | n, .removeMinimum :: ops => decidableFits (n - 1) ops

theorem fits_replicate (value : τ) (k n : ℕ) (h : Fits n (List.replicate k (.add value))) :
    k = 0 ∨ n + k ≤ 2 ^ 30 := by
  induction k generalizing n with
  | zero => exact .inl rfl
  | succ k ih =>
    rcases ih (n + 1) h.2 with rfl | hle
    · exact .inr h.1
    · exact .inr (by omega)

section Runs

variable [LinearOrder τ] (cb : CallBacks τ)

/-- One call, with the list of the values removed so far. -/
def step : State τ × List τ → Op τ → Option (State τ × List τ)
  | (s, removed), .add value => (addValue cb s value).map (·, removed)
  | (s, removed), .removeMinimum =>
    (removeMinimumValue cb s).map (·, removed ++ (getMinimum s.heap).toList)

/-- Calls on a new heap. -/
def run (refs : τ → ℤ) (ops : List (Op τ)) : Option (State τ × List τ) :=
  ops.foldlM (step cb) (⟨create, refs⟩, [])

variable {cb}

/-- What one call does. -/
theorem step_remove (hcmp : cb.Preordered) (hw : Wf cb s.heap) (removed : List τ) :
    ∃ s' removed', step cb (s, removed) .removeMinimum = some (s', removed') ∧ Wf cb s'.heap ∧
      s'.heap.count = s.heap.count - 1 ∧
      contents s'.heap + (removed' : Multiset τ) = contents s.heap + removed := by
  rw [step]
  rcases Nat.eq_zero_or_pos s.heap.count with h0 | hpos
  · refine ⟨s, removed, ?_, hw, by omega, rfl⟩
    have hnone : getMinimum s.heap = none := if_neg (by omega)
    rw [removeMinimumValue, if_pos h0, hnone, toList_none, append_nil]
    rfl
  · obtain ⟨m, h', hm, hremove, hw', hcount, hcont⟩ := removeMinimumValue_spec hcmp hw hpos
    refine ⟨⟨h', released cb s.refs m⟩, removed ++ [m], ?_, hw', ?_, ?_⟩
    · rw [hremove, getMinimum_of_pos hpos, hm]
      rfl
    · show h'.count = _
      omega
    · rw [← hcont, ← Multiset.coe_add, ← add_assoc]
      exact (add_comm _ _).trans (add_assoc _ _ _).symm

theorem step_add (hcmp : cb.Preordered) (hw : Wf cb s.heap) (hlt : s.heap.count < 2 ^ 30)
    (removed : List τ)
    (value : τ) : ∃ s', step cb (s, removed) (.add value) = some (s', removed) ∧ Wf cb s'.heap ∧
      s'.heap.count = s.heap.count + 1 ∧ contents s'.heap = value ::ₘ contents s.heap := by
  obtain ⟨h', hadd, hw', hcount, hcont⟩ := addValue_spec hcmp hw hlt value
  exact ⟨⟨h', _⟩, by rw [step, hadd, map_some], hw', hcount, hcont⟩

theorem steps_spec (hcmp : cb.Preordered) (ops : List (Op τ)) (hw : Wf cb s.heap) (removed : List τ)
    (hfits : Fits s.heap.count ops) :
    ∃ s' removed', ops.foldlM (step cb) (s, removed) = some (s', removed') ∧ Wf cb s'.heap ∧
      s'.heap.count = size s.heap.count ops ∧
      contents s'.heap + (removed' : Multiset τ) = contents s.heap + removed + added ops := by
  induction ops generalizing s removed with
  | nil => exact ⟨s, removed, rfl, hw, rfl, (add_zero _).symm⟩
  | cons op ops ih =>
    cases op with
    | add value =>
      obtain ⟨s₁, hstep, hw₁, hcount₁, hcont₁⟩ := step_add hcmp hw hfits.1 removed value
      obtain ⟨s', removed', hrun, hw', hcount', hcont'⟩ :=
        ih hw₁ removed (by rw [hcount₁]; exact hfits.2)
      refine ⟨s', removed', ?_, hw', ?_, ?_⟩
      · rw [foldlM_cons, hstep]
        exact hrun
      · rw [hcount', hcount₁, size]
      · rw [hcont', hcont₁, added, Multiset.cons_add, Multiset.cons_add, Multiset.add_cons]
    | removeMinimum =>
      obtain ⟨s₁, removed₁, hstep, hw₁, hcount₁, hcont₁⟩ := step_remove hcmp hw removed
      obtain ⟨s', removed', hrun, hw', hcount', hcont'⟩ :=
        ih hw₁ removed₁ (by rw [hcount₁]; exact hfits)
      refine ⟨s', removed', ?_, hw', ?_, ?_⟩
      · rw [foldlM_cons, hstep]
        exact hrun
      · rw [hcount', hcount₁, size]
      · rw [hcont', hcont₁, added]

theorem steps_eq_none (hcmp : cb.Preordered)
    (ops : List (Op τ)) (hw : Wf cb s.heap) (removed : List τ)
    (hfits : ¬ Fits s.heap.count ops) : ops.foldlM (step cb) (s, removed) = none := by
  induction ops generalizing s removed with
  | nil => exact absurd trivial hfits
  | cons op ops ih =>
    cases op with
    | add value =>
      by_cases hlt : s.heap.count < 2 ^ 30
      · obtain ⟨s₁, hstep, hw₁, hcount₁, hcont₁⟩ := step_add hcmp hw hlt removed value
        rw [foldlM_cons, hstep]
        exact ih hw₁ removed (by rw [hcount₁]; exact fun h => hfits ⟨hlt, h⟩)
      · rw [foldlM_cons, step, addValue_eq_none hw (not_lt.mp hlt)]
        rfl
    | removeMinimum =>
      obtain ⟨s₁, removed₁, hstep, hw₁, hcount₁, hcont₁⟩ := step_remove hcmp hw removed
      rw [foldlM_cons, hstep]
      exact ih hw₁ removed₁ (by rw [hcount₁]; exact hfits)

/-- `CFBinaryHeapGetValues` leaves the reference counts alone exactly if every value it retains
is released again. -/
theorem getValues_refs_iff (hcmp : cb.Preordered) (hw : Wf cb s.heap) :
    (∃ values, getValues cb s = some (s, values) ∧ (values : Multiset τ) = contents s.heap ∧
      values.Pairwise (fun x y => greater cb x y = false)) ↔
    (cb.retain = cb.release ∨ s.heap.count = 0) := by
  obtain ⟨refs, values, hget, hvalues, hsorted, hrefs⟩ := getValues_spec hcmp hw
  have hlen : values.length = s.heap.count := by
    rw [← card_contents hw.filled, ← hvalues, Multiset.coe_card]
  constructor
  · rintro ⟨values', hget', -, -⟩
    have hsame := some.inj (hget.symm.trans hget')
    have hrefs' : refs = s.refs := congrArg (fun r => r.1.refs) hsame
    by_contra hne
    push Not at hne
    obtain ⟨x, hx⟩ := exists_mem_of_length_pos (by omega : 0 < values.length)
    have hcount : 0 < values.count x := count_pos_iff.mpr hx
    have hbal := hrefs x
    rw [hrefs'] at hbal
    cases hr : cb.retain with
    | false =>
      have hl : cb.release = true := by simpa [hr] using hne.1.symm
      simp only [hr, hl, if_true, Bool.false_eq_true, if_false] at hbal
      omega
    | true =>
      have hl : cb.release = false := by simpa [hr] using hne.1.symm
      simp only [hr, hl, if_true, Bool.false_eq_true, if_false] at hbal
      omega
  · intro hok
    have hsame : refs = s.refs := by
      funext x
      rw [hrefs]
      rcases hok with heq | h0
      · rw [heq]
        omega
      · rw [length_eq_zero_iff.mp (hlen.trans h0)]
        simp
    exact ⟨values, by rw [hget, hsame], hvalues, hsorted⟩

end Runs

theorem comparesPreorder_of_transCmp {compare : τ → τ → Ordering} [Std.TransCmp compare] :
    ComparesPreorder compare where
  total x y := by
    have hswap : compare x y = (compare y x).swap := Std.OrientedCmp.eq_swap
    rw [hswap]
    cases compare y x <;> decide
  trans x y z := by
    simp only [Ordering.ne_gt_iff_isLE]
    exact Std.TransCmp.isLE_trans

/-! ## `__CFBinaryHeapEqual` -/

section Equal

variable [LinearOrder τ] {compare : τ → τ → Ordering}

/-- The loop of `__CFBinaryHeapEqual` (lines 127–136): `!compare(…)` says that two values are
equal. -/
def equalLoop (compare : Option (τ → τ → Ordering)) : List τ → List τ → Bool
  | val₁ :: list₁, val₂ :: list₂ =>
    if val₁ ≠ val₂ then
      match compare with
      | none => false
      | some f => if f val₁ val₂ = .eq then false else equalLoop compare list₁ list₂
    else equalLoop compare list₁ list₂
  | _, _ => true

/-- `__CFBinaryHeapEqual` (lines 111–140), for heaps whose `compare` are the same. -/
def heapEqual (cb₁ cb₂ : CallBacks τ) (refs : τ → ℤ) (heap₁ heap₂ : Heap τ) : Option Bool :=
  if heap₁.count ≠ heap₂.count then some false
  else if heap₁.count = 0 then some true
  else do
    let (s, list₁) ← getValues cb₁ ⟨heap₁, refs⟩
    let (_, list₂) ← getValues cb₂ ⟨heap₂, s.refs⟩
    some (equalLoop cb₁.compare list₁ list₂)

theorem equalLoop_iff (list₁ list₂ : List τ) : equalLoop (some compare) list₁ list₂ = true ↔
    ∀ p ∈ list₁.zip list₂, p.1 = p.2 ∨ compare p.1 p.2 ≠ .eq := by
  induction list₁ generalizing list₂ with
  | nil => simp [equalLoop]
  | cons x list₁ ih =>
    cases list₂ with
    | nil => simp [equalLoop]
    | cons y list₂ =>
      rw [equalLoop, zip_cons_cons, forall_mem_cons, ← ih]
      by_cases hxy : x = y <;> by_cases hc : compare x y = .eq <;> simp [hc]

theorem heapEqual_eq {cb₁ cb₂ : CallBacks τ} {h₁ h₂ : Heap τ} {refs refs₁ : τ → ℤ} {s : State τ}
    {list₁ list₂ : List τ} (hget₁ : getValues cb₁ ⟨h₁, refs⟩ = some (⟨h₁, refs₁⟩, list₁))
    (hget₂ : getValues cb₂ ⟨h₂, refs₁⟩ = some (s, list₂)) (hlen : list₁.length = h₁.count) :
    heapEqual cb₁ cb₂ refs h₁ h₂ =
      some (decide (h₁.count = h₂.count) && equalLoop cb₁.compare list₁ list₂) := by
  unfold heapEqual
  by_cases hcount : h₁.count = h₂.count
  · rw [if_neg (not_not.mpr hcount), decide_eq_true hcount, Bool.true_and]
    split_ifs with h0
    · rw [h0, length_eq_zero_iff] at hlen
      rw [hlen, equalLoop]
      exact nofun
    · simp [hget₁, hget₂]
  · simp [hcount]

end Equal

/-- A heap of one value. -/
def single (n : ℕ) : Heap ℕ := ⟨1, 4, [some n, none, none, none]⟩

end Apple.CF.BinaryHeap
