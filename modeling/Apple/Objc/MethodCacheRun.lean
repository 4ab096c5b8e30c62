import Apple.Objc.MethodCache

/-!
# Method caches over their bucket arrays (`objc4-750/runtime/objc-cache.mm`)

The cache of an initialized class, with the addresses of the arrays of buckets: of
`_objc_empty_cache`, of the shared empty arrays for larger capacities, and of the arrays that the
cache allocates.

Results:

* `run_represents`: after every sequence of fills and flushes the table is well formed, no
  search fails, no shared array was written or freed, and a lookup gives what was stored last.
-/

namespace Apple.Objc.Messaging

open Apple.Lib Function

/-! ## Searches -/

namespace Cache

variable {arch : CacheArch} {c : Cache} {k : Sel} {imp : Imp} {i : ℕ}

/-- Each selector has one bucket, and its search gets there through buckets in use. -/
def Reach (arch : CacheArch) (c : Cache) : Prop :=
  Reached (c.mask + 1) (cacheNext arch c.mask) (cacheHash · c.mask) Prod.fst c.buckets

theorem Reach.of_empty (h : c.buckets = fun _ => none) : c.Reach arch := by
  constructor <;> simp [DistinctKeys, h]

theorem isSome_of_taken (h : c.taken k i = true) : (c.buckets i).isSome := by
  unfold taken at h
  split at h <;> simp_all

theorem Reach.find_eq (hr : c.Reach arch) (h : c.Ok arch) (hi : i < c.mask + 1)
    (hb : c.buckets i = some (k, imp)) : c.find arch k = .ok i := by
  obtain ⟨d, hfind, hd, hown, hpath⟩ := find_spec h k
  rw [hfind]
  rcases hown with hnone | ⟨imp', hown⟩
  · obtain ⟨d', rfl, hpath'⟩ := hr.path i hi _ hb
    rcases lt_trichotomy d d' with hlt | rfl | hlt
    · exact absurd hnone (Option.isSome_iff_ne_none.mp (hpath' d hlt))
    · rfl
    · have := hpath d' hlt
      simp [probe, taken, hb] at this
  · rw [hr.distinct _ hd _ hi _ _ hown hb rfl]

theorem Reach.getImp_eq (hr : c.Reach arch) (h : c.Ok arch) {entries : Sel → Option Imp}
    (hholds : ∀ k imp, c.Holds k imp ↔ entries k = some imp) (k : Sel) :
    c.getImp arch k = (entries k).getD .null := by
  rcases he : entries k with _ | imp
  · by_contra hne
    have := (hholds k _).mp (holds_of_getImp h hne)
    simp [he] at this
  · obtain ⟨i, hi, hb⟩ := (hholds k imp).mpr he
    simp [getImp, hr.find_eq h hi hb, hb]

/-- Storing an entry in the bucket that its search finds. -/
theorem Reach.store (hr : c.Reach arch) (h : c.Ok arch) (hfind : c.find arch k = .ok i)
    (imp : Imp) : i < c.mask + 1 ∧ (c.store i k imp).Reach arch ∧ ∀ k' imp',
      (c.store i k imp).Holds k' imp' ↔ (k', imp') = (k, imp) ∨ k' ≠ k ∧ c.Holds k' imp' := by
  obtain ⟨d, hfind', hd, hown, hpath⟩ := find_spec h k
  cases hfind'.symm.trans hfind
  have honly : ∀ j, j < c.mask + 1 → ∀ b : Sel × Imp, c.buckets j = some b → b.1 = k →
      j = c.probe arch k d := by
    rintro j hj ⟨_, imp'⟩ hb rfl
    exact Except.ok.inj ((hr.find_eq h hj hb).symm.trans hfind)
  refine ⟨hd, Reached.set (a := (k, imp)) hr honly fun j hj => isSome_of_taken (hpath j hj),
    fun k' imp' => occurs_set (a := (k, imp)) hd ?_ honly (k', imp')⟩
  intro b hb
  rcases hown with hnone | ⟨imp₀, hown⟩
  · simp [hnone] at hb
  · cases hown.symm.trans hb
    rfl

end Cache

/-! ## The bucket arrays -/

/-- `sizeof(bucket_t)` and `EMPTY_BYTES` (lines 130–139). -/
structure ArrayArch extends CacheArch where
  bucketSize : ℕ
  emptyBytes : ℕ
  bucketSize_le : bucketSize ≤ emptyBytes

instance : Coe ArrayArch CacheArch := ⟨ArrayArch.toCacheArch⟩

/-- `bytesForCapacity` (lines 365–408): the incrementing searches need an end marker. -/
def ArrayArch.bytesForCapacity (arch : ArrayArch) (cap : ℕ) : ℕ :=
  arch.bucketSize * if arch.increment then cap + 1 else cap

/-- The arrays of buckets, by address. -/
structure Arrays where
  /-- the array of the cache; 1 is `_objc_empty_cache` -/
  buckets : ℕ := 1
  emptyBucketsList : List ℕ := []
  /-- the address of the next array that is allocated -/
  fresh : ℕ := 2
  /-- the arrays that were written to or freed -/
  touched : List ℕ := []

namespace Arrays

variable (arch : ArrayArch) (a : Arrays) (c : Cache) (capacity : ℕ)

/-- The shared empty arrays. -/
def Shared (x : ℕ) : Prop := x = 1 ∨ x ∈ a.emptyBucketsList

/-- There is a shared empty array for the capacity. -/
def HasEmpty : Prop := arch.bytesForCapacity capacity ≤ arch.emptyBytes ∨
  Nat.log2 capacity < a.emptyBucketsList.length

instance : Decidable (a.HasEmpty arch capacity) := inferInstanceAs (Decidable (_ ∨ _))

/-- `emptyBucketsForCapacity` (lines 420–457); 0 is `nil` -/
def emptyBucketsForCapacity : ℕ :=
  if arch.bytesForCapacity capacity ≤ arch.emptyBytes then 1
  else a.emptyBucketsList.getD (Nat.log2 capacity) 0

/-- What `emptyBucketsForCapacity` does first, if it may allocate. -/
def allocateEmpty : Arrays :=
  if a.HasEmpty arch capacity then a
  else
    { a with
      fresh := a.fresh + 1
      emptyBucketsList := a.emptyBucketsList ++
        List.replicate (Nat.log2 capacity + 1 - a.emptyBucketsList.length) a.fresh }

/-- `isConstantEmptyCache` (lines 461–466) -/
def isConstantEmptyCache : Bool :=
  c.occupied == 0 && a.buckets == a.emptyBucketsForCapacity arch c.capacity

/-- The array of the cache is written to, or freed by `cache_collect_free`. -/
def touch : Arrays := { a with touched := a.buckets :: a.touched }

/-- `reallocate` (lines 474–494) of the cache `c` -/
def reallocate : Arrays :=
  { if a.isConstantEmptyCache arch c then a else a.touch with
    buckets := a.fresh
    fresh := a.fresh + 1 }

/-- `cache_fill_nolock` (lines 561–596) -/
def fill (k : Sel) : Arrays :=
  if c.getImp arch k ≠ .null then a
  else if a.isConstantEmptyCache arch c = false ∧ c.occupied + 1 ≤ c.capacity / 4 * 3 then a.touch
  else (a.reallocate arch c).touch

/-- `cache_erase_nolock` (lines 612–627) -/
def erase : Arrays :=
  if 0 < c.capacity ∧ 0 < c.occupied then
    let a := a.touch.allocateEmpty arch c.capacity
    { a with buckets := a.emptyBucketsForCapacity arch c.capacity }
  else a

theorem emptyBuckets_cases : a.Shared (a.emptyBucketsForCapacity arch capacity) ∨
    a.emptyBucketsForCapacity arch capacity = 0 ∧ ¬ a.HasEmpty arch capacity := by
  unfold emptyBucketsForCapacity HasEmpty
  split_ifs with hsmall
  · exact .inl (.inl rfl)
  · rw [List.getD_eq_getElem?_getD]
    rcases hget : a.emptyBucketsList[Nat.log2 capacity]? with _ | x
    · exact .inr ⟨rfl, by simpa [hsmall] using hget⟩
    · exact .inl (.inr (List.mem_of_getElem? hget))

end Arrays

/-! ## Invariant -/

/-- The cache holds the entries; it has a shared array when its model says so, the one for its
capacity; no shared array was written or freed. -/
structure Backed (arch : ArrayArch) (c : Cache) (a : Arrays) (entries : Sel → Option Imp) :
    Prop where
  ok : c.Ok arch
  reach : c.Reach arch
  holds : ∀ k imp, c.Holds k imp ↔ entries k = some imp
  shared : c.shared = true ↔ a.Shared a.buckets
  own : c.shared = true → a.buckets = a.emptyBucketsForCapacity arch c.capacity
  known : ∀ x, a.Shared x ∨ x = a.buckets → 0 < x ∧ x < a.fresh
  spared : ∀ x, a.Shared x ∨ a.fresh ≤ x → x ∉ a.touched

namespace Backed

variable {arch : ArrayArch} {c : Cache} {a : Arrays} {entries : Sel → Option Imp} {k : Sel}

theorem empty : Backed arch {} {} fun _ => none where
  ok := Cache.ok_empty
  reach := .of_empty rfl
  holds k imp := by simpa using Cache.not_holds_of_empty rfl
  shared := by simp [Arrays.Shared]
  own _ := by
    have := arch.bucketSize_le
    rw [Arrays.emptyBucketsForCapacity]
    simp only [ArrayArch.bytesForCapacity, Cache.capacity]
    split_ifs <;> simp_all
  known x hx := by
    obtain rfl : x = 1 := by simpa [Arrays.Shared] using hx
    decide
  spared := by simp

section

variable (h : Backed arch c a entries)
include h

theorem isConstantEmptyCache_eq :
    a.isConstantEmptyCache arch c = c.isConstantEmptyCache := by
  have hshared : a.buckets = a.emptyBucketsForCapacity arch c.capacity ↔ c.shared = true := by
    refine ⟨fun heq => h.shared.mpr ?_, h.own⟩
    rcases a.emptyBuckets_cases arch c.capacity with hs | ⟨hz, -⟩
    · rwa [heq]
    · exact absurd (heq.trans hz) (h.known _ (.inr rfl)).1.ne'
  rw [Arrays.isConstantEmptyCache, Cache.isConstantEmptyCache, Bool.eq_iff_iff]
  simp [hshared]

theorem touch (hs : c.shared = false) :
    Backed arch c a.touch entries :=
  { h with
    spared := by
      intro x hx
      have hne : x ≠ a.buckets := by
        rintro rfl
        rcases hx with hx | hx
        · simp [h.shared.mpr hx] at hs
        · exact not_le.mpr (h.known _ (.inr rfl)).2 hx
      simpa [Arrays.touch, hne] using h.spared x hx }

/-- Another array for a cache without entries. -/
theorem swap {c' : Cache} {x fresh : ℕ} (hok : c'.Ok arch)
    (hnone : c'.buckets = fun _ => none) (hfresh : a.fresh ≤ fresh) (hx : 0 < x ∧ x < fresh)
    (hshared : c'.shared = true ↔ a.Shared x)
    (hown : c'.shared = true → x = a.emptyBucketsForCapacity arch c'.capacity) :
    Backed arch c' { a with buckets := x, fresh } fun _ => none where
  ok := hok
  reach := .of_empty hnone
  holds k imp := by simpa using Cache.not_holds_of_empty hnone
  shared := hshared
  own := hown
  known := by
    rintro y (hy | rfl)
    · exact (h.known y (.inl hy)).imp_right hfresh.trans_lt'
    · exact hx
  spared y hy := h.spared y (hy.imp_right hfresh.trans)

theorem reallocate {c' : Cache} (hok : c'.Ok arch)
    (hshared : c'.shared = false) (hnone : c'.buckets = fun _ => none) :
    Backed arch c' (a.reallocate arch c) fun _ => none := by
  have hfresh : ¬ a.Shared a.fresh := fun hs => (h.known _ (.inl hs)).2.false
  have hpos := (h.known _ (.inr rfl)).2.pos
  unfold Arrays.reallocate
  rw [h.isConstantEmptyCache_eq, h.ok.isConstantEmptyCache_eq]
  split_ifs with hs
  · exact h.swap hok hnone (by omega) (by omega) (by simpa [hshared]) (by simp [hshared])
  · exact (h.touch (by simpa using hs)).swap hok hnone (Nat.le_succ _) ⟨hpos, Nat.lt_succ_self _⟩
      (iff_of_false (by simp [hshared]) hfresh) (by simp [hshared])

theorem store {i : ℕ} (hroom : c.occupied + 1 < c.mask + 1)
    (hshared : c.shared = false) (hfind : c.find arch k = .ok i) (imp : Imp) :
    Backed arch (c.store i k imp) a.touch (update entries k (some imp)) := by
  obtain ⟨hi, hreach, hholds⟩ := h.reach.store h.ok hfind imp
  refine { h.touch hshared with
    ok := Cache.store_ok h.ok hroom hshared hi imp, reach := hreach, holds := fun k' imp' => ?_ }
  rw [hholds, h.holds, update_apply]
  split_ifs with hk <;> simp [hk, @eq_comm _ imp]

/-- A fill of a selector that is not cached stores the entry, with those that an expansion leaves,
or cannot double the capacity. -/
theorem fill (hmiss : c.getImp arch k = .null) (imp : Imp) :
    (∃ c', c.fill arch k imp = .ok c' ∧ Backed arch c' (a.fill arch c k) (update
      (if (a.fill arch c k).buckets = a.buckets then entries else fun _ => none) k (some imp))) ∨
    (¬ c.Growable ∧ c.fill arch k imp = .error .assertion) := by
  rw [Cache.fill, Arrays.fill, if_neg (not_not.mpr hmiss), if_neg (not_not.mpr hmiss)]
  rcases Cache.prepare_spec h.ok with ⟨c₁, hprep, hok, hroom, hshared, hkept⟩ | ⟨hg, hprep⟩
  · left
    obtain ⟨d, hfind, -⟩ := Cache.find_spec hok k
    refine ⟨c₁.store (c₁.probe arch k d) k imp, ?_, ?_⟩
    · simp [hprep, hfind, Cache.store]
    rw [h.isConstantEmptyCache_eq]
    rcases hkept with ⟨hroomy, rfl⟩ | ⟨hfull, hnone⟩
    · rw [if_pos (show _ ∧ _ from hroomy), if_pos (by rfl)]
      exact h.store hroom hshared hfind imp
    · rw [if_neg (show ¬ (_ ∧ _) from hfull),
        if_neg (show ¬ (a.reallocate arch c).touch.buckets = a.buckets from
          (h.known _ (.inr rfl)).2.ne')]
      exact (h.reallocate hok hshared hnone).store hroom hshared hfind imp
  · exact .inr ⟨hg, by simp [hprep]⟩

theorem allocateEmpty (hs : c.shared = false) (capacity : ℕ) :
    Backed arch c (a.allocateEmpty arch capacity) entries ∧
      (a.allocateEmpty arch capacity).HasEmpty arch capacity := by
  unfold Arrays.allocateEmpty
  split_ifs with hhas
  · exact ⟨h, hhas⟩
  have hlen : a.emptyBucketsList.length ≤ Nat.log2 capacity := not_lt.mp fun hlt => hhas (.inr hlt)
  have hknown := h.known
  have hspared := h.spared
  have hshared := h.shared
  simp only [Arrays.Shared] at hknown hspared hshared
  refine ⟨{ h with shared := ?_, own := by simp [hs], known := ?_, spared := ?_ }, .inr ?_⟩
  all_goals simp only [Arrays.Shared]
  all_goals grind

/-- A flush swaps in the shared array for the capacity. -/
theorem erase :
    Backed arch c.erase (a.erase arch c) fun _ => none := by
  have hok := Cache.erase_ok h.ok
  have hholds : ∀ k imp, ¬ c.erase.Holds k imp := fun _ _ => Cache.not_holds_erase h.ok
  unfold Cache.erase at hholds hok ⊢
  unfold Arrays.erase
  split_ifs at hholds hok ⊢ with hcond
  · have hown : c.shared = false := by
      rw [← h.ok.isConstantEmptyCache_eq, Cache.isConstantEmptyCache,
        beq_false_of_ne hcond.2.ne', Bool.false_and]
    obtain ⟨h', hhas⟩ := (h.touch hown).allocateEmpty hown c.capacity
    have hshared := (Arrays.emptyBuckets_cases arch _ c.capacity).resolve_right
      fun hz => hz.2 hhas
    exact h'.swap hok rfl le_rfl (h'.known _ (.inl hshared)) (iff_of_true rfl hshared) fun _ => rfl
  · exact { h with holds := fun k imp => by simpa using hholds k imp }

end

end Backed

/-! ## Runs -/

inductive Call where
  | fill (k : Sel) (imp : Imp)
  | erase

/-- A cache, its arrays, and the entries that were stored since the last flush or expansion. -/
structure Tracked where
  cache : Cache := {}
  arrays : Arrays := {}
  entries : Sel → Option Imp := fun _ => none

/-- A call. An expansion changes the array. -/
def step (arch : ArrayArch) (s : Tracked) : Call → Except Fault Tracked
  | .fill k imp => do
    let cache ← s.cache.fill arch k imp
    let arrays := s.arrays.fill arch s.cache k
    .ok ⟨cache, arrays, if s.cache.getImp arch k ≠ .null then s.entries else
      update (if arrays.buckets = s.arrays.buckets then s.entries else fun _ => none) k (some imp)⟩
  | .erase => .ok ⟨s.cache.erase, s.arrays.erase arch s.cache, fun _ => none⟩

/-- The calls for a class, from its first cache on. -/
def run (arch : ArrayArch) (calls : List Call) : Except Fault Tracked := calls.foldlM (step arch) {}

theorem Backed.step {arch : ArrayArch} {s : Tracked} (h : Backed arch s.cache s.arrays s.entries)
    (call : Call) :
    (∃ s', step arch s call = .ok s' ∧ Backed arch s'.cache s'.arrays s'.entries) ∨
    (¬ s.cache.Growable ∧ step arch s call = .error .assertion) := by
  match call with
  | .erase => exact .inl ⟨_, rfl, h.erase⟩
  | .fill k imp =>
    unfold Messaging.step
    by_cases hmiss : s.cache.getImp arch k = .null
    · rcases h.fill hmiss imp with ⟨c', hfill, hs'⟩ | ⟨hg, hfill⟩
      · refine .inl ⟨_, by simp only [hfill]; rfl, ?_⟩
        rwa [if_neg (not_not.mpr hmiss)]
      · exact .inr ⟨hg, by simp [hfill]⟩
    · exact .inl ⟨s, by simp [Cache.fill, Arrays.fill, hmiss], h⟩

/-- **The cache represents what was stored.** After every sequence of calls the number of buckets
is a power of two, the buckets in use are counted and one is free, each selector has one bucket
that its search reaches, no shared array was written or freed (`Backed`), no search fails, and a
lookup gives the implementation that was stored last since the last flush or expansion. The only
failure is a fill that has to double 2³¹ buckets. -/
theorem run_represents (arch : ArrayArch) (calls : List Call) :
    (∃ s, run arch calls = .ok s ∧ Backed arch s.cache s.arrays s.entries ∧
      (∀ k, ∃ i, s.cache.find arch k = .ok i) ∧
      ∀ k, s.cache.getImp arch k = (s.entries k).getD .null) ∨
    (run arch calls = .error .assertion ∧
      ∃ pre s, pre <+: calls ∧ run arch pre = .ok s ∧ ¬ s.cache.Growable) := by
  have hrun : (∃ s, run arch calls = .ok s ∧ Backed arch s.cache s.arrays s.entries) ∨
      (run arch calls = .error .assertion ∧
        ∃ pre s, pre <+: calls ∧ run arch pre = .ok s ∧ ¬ s.cache.Growable) := by
    induction calls using List.reverseRecOn with
    | nil => exact .inl ⟨{}, rfl, .empty⟩
    | append_singleton calls call ih =>
      have hsnoc : run arch (calls ++ [call]) = run arch calls >>= fun s => step arch s call := by
        simp [run, -except_pure]
      rcases ih with ⟨s, hs, h⟩ | ⟨herr, pre, s, hpre, hs⟩
      · rw [hsnoc, hs]
        exact (h.step call).imp_right fun ⟨hg, hstep⟩ =>
          ⟨hstep, calls, s, List.prefix_append .., hs, hg⟩
      · rw [hsnoc, herr]
        exact .inr ⟨rfl, pre, s, hpre.trans (List.prefix_append ..), hs⟩
  refine hrun.imp_left fun ⟨s, hs, h⟩ => ⟨s, hs, h, fun k => ?_, h.reach.getImp_eq h.ok h.holds⟩
  obtain ⟨d, hfind, -⟩ := Cache.find_spec h.ok k
  exact ⟨_, hfind⟩

/-- A cached selector keeps its implementation when another one is filled in. -/
theorem getImp_filled_twice : ∃ s,
    run ⟨⟨32, true, by decide, by decide⟩, 16, 16400, by decide⟩
      [.fill 8 (.code 1), .fill 8 (.code 2)] = .ok s ∧
    s.cache.getImp ⟨32, true, by decide, by decide⟩ 8 = .code 1 := ⟨_, rfl, by decide +kernel⟩

end Apple.Objc.Messaging
