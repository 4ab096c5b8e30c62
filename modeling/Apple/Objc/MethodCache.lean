import Apple.Lib.Outcome
import Apple.Lib.Probing

/-!
# Method caches (`objc4-750/runtime/objc-cache.mm`)

A class's method cache is a hash table with linear probing from selectors to
implementations. It grows by doubling at three quarters of its capacity and drops its
contents then; erasing it swaps in a shared empty array of buckets, which is replaced
before the first write.

Results:

* `Cache.fill_spec`: `cache_fill_nolock` leaves old entries and the new one, and only fails
  when the capacity cannot be doubled in 32 bits;
* `Cache.holds_of_getImp`: what `cache_getImp` returns is in a bucket.
-/

namespace Apple.Objc.Messaging

open Apple.Lib Function

/-- A selector: the address of its name, never null. -/
abbrev Sel := ℕ+

/-- A method implementation. -/
inductive Imp where
  | null
  /-- `_objc_msgForward_impcache` -/
  | forward
  | code (address : ℕ)
  deriving DecidableEq, Repr

inductive Fault where
  /-- `cache_t::bad_cache` -/
  | badCache
  /-- "Memory corruption in class list." -/
  | classList
  /-- an `assert` failed -/
  | assertion
  deriving DecidableEq, Repr

/-- The width of `mask_t` and the direction of the probes. -/
structure CacheArch where
  maskBits : ℕ
  increment : Bool
  three_le : 3 ≤ maskBits
  le_word : maskBits ≤ 32

/-- `struct cache_t`; `shared` says that the buckets are the shared empty array. An empty bucket
has key 0. -/
structure Cache where
  mask : ℕ := 0
  occupied : ℕ := 0
  buckets : ℕ → Option (Sel × Imp) := fun _ => none
  shared : Bool := true

/-- `INIT_CACHE_SIZE` (lines 91–94) -/
def initCacheSize : ℕ := 4

/-- `cache_next` (lines 155–173) -/
def cacheNext (arch : CacheArch) (mask i : ℕ) : ℕ :=
  if arch.increment then (i + 1) &&& mask else if i = 0 then mask else i - 1

/-- `cache_hash` (lines 246–249) -/
def cacheHash (key : Sel) (mask : ℕ) : ℕ := key.val &&& mask

namespace Cache

/-- `capacity` (lines 357–360) -/
def capacity (c : Cache) : ℕ := if c.mask ≠ 0 then c.mask + 1 else 0

/-- `isConstantEmptyCache` (lines 461–466) -/
def isConstantEmptyCache (c : Cache) : Bool := c.occupied == 0 && c.shared

/-- `reallocate` (lines 474–494) -/
def reallocate (arch : CacheArch) (newCapacity : ℕ) : Except Fault Cache :=
  if 0 < newCapacity ∧ (newCapacity - 1) % 2 ^ arch.maskBits = newCapacity - 1 then
    .ok { mask := newCapacity - 1, shared := false }
  else .error .assertion

section

variable (arch : CacheArch) (c : Cache)

/-- `expand` (lines 544–558), with 32-bit capacities -/
def expand : Except Fault Cache :=
  let oldCapacity := c.capacity
  let newCapacity := if oldCapacity ≠ 0 then oldCapacity * 2 % 2 ^ 32 else initCacheSize
  if newCapacity % 2 ^ arch.maskBits ≠ newCapacity then reallocate arch oldCapacity
  else reallocate arch newCapacity

/-- The bucket is in use for another selector than `k`. -/
def taken (c : Cache) (k : Sel) (i : ℕ) : Bool :=
  match c.buckets i with
  | none => false
  | some (key, _) => key != k

/-- `find` (lines 524–542): the index of a bucket that is empty or has the key `k`. -/
def find (k : Sel) : Except Fault ℕ :=
  let begin := cacheHash k c.mask
  match probeFree (cacheNext arch c.mask) (c.taken k) begin (c.mask + 1) begin 0 with
  | some (i, _) => .ok i
  | none => .error .badCache

/-- `cache_getImp`: the entry for `k`, or null. -/
def getImp (k : Sel) : Imp :=
  match c.find arch k with
  | .error _ => .null
  | .ok i =>
    match c.buckets i with
    | none => .null
    | some (key, imp) => if key = k then imp else .null

/-- The cache that `cache_fill_nolock` writes to. -/
def prepare : Except Fault Cache :=
  if c.isConstantEmptyCache then
    reallocate arch (if c.capacity ≠ 0 then c.capacity else initCacheSize)
  else if c.occupied + 1 ≤ c.capacity / 4 * 3 then .ok c
  else c.expand arch

/-- `cache_fill_nolock` (lines 561–596) -/
def fill (k : Sel) (imp : Imp) : Except Fault Cache :=
  if c.getImp arch k ≠ .null then .ok c
  else do
    let c ← c.prepare arch
    let i ← c.find arch k
    .ok { c with
      occupied := if c.buckets i = none then c.occupied + 1 else c.occupied
      buckets := update c.buckets i (some (k, imp)) }

end

/-- `cache_erase_nolock` (lines 612–627) -/
def erase (c : Cache) : Cache :=
  if 0 < c.capacity ∧ 0 < c.occupied then { mask := c.mask } else c

/-! ## Invariant -/

/-- The number of buckets is a power of two that fits in `mask_t`, the buckets in use are counted, one is
free, and the shared array is empty. -/
structure Ok (arch : CacheArch) (c : Cache) : Prop where
  pow : ∃ m, c.mask + 1 = 2 ^ m ∧ m < arch.maskBits
  counted : c.occupied = (Lib.occupied (c.mask + 1) c.buckets).card
  room : c.occupied < c.mask + 1
  empty : c.shared = true → ∀ i, c.buckets i = none
  owned : c.mask = 0 → c.shared = true

/-- A bucket has the entry. -/
def Holds (c : Cache) (k : Sel) (imp : Imp) : Prop := Occurs (c.mask + 1) c.buckets (k, imp)

variable {arch : CacheArch} {c c' : Cache} {k : Sel} {imp : Imp}

theorem ok_empty : Ok arch {} := by
  have := arch.three_le
  refine ⟨⟨0, rfl, by omega⟩, ?_, by simp, by simp, by simp⟩
  simp [occupied_empty]

theorem not_holds_of_empty (h : c.buckets = fun _ => none) : ¬ c.Holds k imp := by
  rintro ⟨i, -, hi⟩
  rw [h] at hi
  cases hi

section

variable (h : c.Ok arch)
include h

theorem Ok.isConstantEmptyCache_eq : c.isConstantEmptyCache = c.shared := by
  rcases hs : c.shared with _ | _
  · simp [isConstantEmptyCache, hs]
  · have hocc : c.occupied = 0 := by
      rw [h.counted, Finset.card_eq_zero]
      ext i
      simp [Lib.occupied, h.empty hs i]
    simp [isConstantEmptyCache, hocc, hs]

theorem cyclic_cacheNext : Cyclic (c.mask + 1) (cacheNext arch c.mask) := by
  obtain ⟨m, hm, -⟩ := h.pow
  rcases hinc : arch.increment with _ | _
  · have heq : cacheNext arch c.mask = fun i => if i = 0 then c.mask + 1 - 1 else i - 1 := by
      funext i
      simp [cacheNext, hinc]
    rw [heq]
    exact cyclic_pred (by omega)
  · have heq : cacheNext arch c.mask = fun i => (i + 1) % (c.mask + 1) := by
      funext i
      simp only [cacheNext, hinc, if_true]
      rw [hm, show c.mask = 2 ^ m - 1 by omega, Nat.and_two_pow_sub_one_eq_mod]
    rw [heq]
    exact cyclic_succ (by omega)

omit h in
theorem cacheHash_lt (k : Sel) (mask : ℕ) : cacheHash k mask < mask + 1 := by
  have := Nat.and_le_right (n := k.val) (m := mask)
  unfold cacheHash
  omega

/-- The bucket that a search for `k` looks at after `d` others. -/
def probe (arch : CacheArch) (c : Cache) (k : Sel) (d : ℕ) : ℕ :=
  (cacheNext arch c.mask)^[d] (cacheHash k c.mask)

/-- **A free bucket or the selector's own is found**, after buckets of other selectors. -/
theorem find_spec (k : Sel) : ∃ d, c.find arch k = .ok (c.probe arch k d) ∧
      c.probe arch k d < c.mask + 1 ∧
      (c.buckets (c.probe arch k d) = none ∨ ∃ imp, c.buckets (c.probe arch k d) = some (k, imp)) ∧
      ∀ j, j < d → c.taken k (c.probe arch k j) = true := by
  -- the buckets in the way of the search
  let f : ℕ → Option (Sel × Imp) := fun i => if c.taken k i then c.buckets i else none
  have hfull : ∀ i, c.taken k i = (f i).isSome := by
    intro i
    simp only [f]
    rcases hb : c.buckets i with _ | ⟨key, imp⟩
    · simp [taken, hb]
    · by_cases ht : c.taken k i = true
      · simp [ht]
      · simp [ht]
  have hsub : Lib.occupied (c.mask + 1) f ⊆ Lib.occupied (c.mask + 1) c.buckets := by
    intro i hi
    simp only [Lib.occupied, Finset.mem_filter, f] at hi ⊢
    refine ⟨hi.1, ?_⟩
    by_cases ht : c.taken k i = true
    · simpa [ht] using hi.2
    · simp [ht] at hi
  have hfree : (Lib.occupied (c.mask + 1) f).card < c.mask + 1 := by
    have := Finset.card_le_card hsub
    have := h.counted
    have := h.room
    omega
  obtain ⟨d, -, hnone, hpath, hprobe⟩ :=
    probeFree_eq (cyclic_cacheNext h) (cacheHash_lt k c.mask) hfree hfull
  refine ⟨d, by simp only [find, hprobe, probe],
    (cyclic_cacheNext h).iterate_lt (cacheHash_lt _ _) d, ?_, fun j hj => ?_⟩
  · have htaken := hfull (c.probe arch k d)
    rw [probe, hnone] at htaken
    rcases hb : c.buckets (c.probe arch k d) with _ | ⟨key, imp⟩
    · exact .inl rfl
    · right
      rw [probe] at hb
      have hkey : key = k := by simpa [taken, hb] using htaken
      exact ⟨imp, by rw [hkey]⟩
  · rw [hfull]
    exact hpath j hj

theorem holds_of_getImp (hne : c.getImp arch k ≠ .null) :
    c.Holds k (c.getImp arch k) := by
  obtain ⟨d, hfind, hi, hb, -⟩ := find_spec h k
  rcases hb with hb | ⟨imp, hb⟩
  · simp [getImp, hfind, hb] at hne
  · refine ⟨_, hi, ?_⟩
    simp [getImp, hfind, hb]

/-! ## Operations -/

omit h in
theorem reallocate_spec {n m : ℕ} (hn : n = 2 ^ m) (hm : m < arch.maskBits) (h2 : 2 ≤ n) :
    ∃ c', reallocate arch n = .ok c' ∧ c'.Ok arch ∧ c'.occupied + 1 < c'.mask + 1 ∧
      c'.shared = false ∧ c'.buckets = fun _ => none := by
  have hle : n ≤ 2 ^ arch.maskBits := hn ▸ Nat.pow_le_pow_right (by omega) hm.le
  refine ⟨{ mask := n - 1, shared := false }, ?_, ⟨⟨m, ?_, hm⟩, ?_, ?_, by simp, ?_⟩, ?_, rfl, rfl⟩
  · rw [reallocate, if_pos ⟨by omega, Nat.mod_eq_of_lt (by omega)⟩]
  · show n - 1 + 1 = 2 ^ m
    omega
  · simp [occupied_empty]
  · show 0 < n - 1 + 1
    omega
  · intro hmask
    have : n - 1 = 0 := hmask
    omega
  · show 0 + 1 < n - 1 + 1
    omega

/-- The capacity can be doubled in 32 bits. -/
def Growable (c : Cache) : Prop := c.capacity * 2 < 2 ^ 32

/-- The cache is written to as it is: not read-only, and less than three quarters full. -/
def Roomy (c : Cache) : Prop :=
  c.isConstantEmptyCache = false ∧ c.occupied + 1 ≤ c.capacity / 4 * 3

/-- `prepare` makes room for one more entry, with the old entries or none, or the doubled capacity
is zero. -/
theorem prepare_spec :
    (∃ c', c.prepare arch = .ok c' ∧ c'.Ok arch ∧ c'.occupied + 1 < c'.mask + 1 ∧
      c'.shared = false ∧ (c.Roomy ∧ c' = c ∨ ¬ c.Roomy ∧ c'.buckets = fun _ => none)) ∨
    (¬ c.Growable ∧ c.prepare arch = .error .assertion) := by
  obtain ⟨m, hm, hmle⟩ := h.pow
  have hbits := arch.three_le
  have hcap : c.mask ≠ 0 → c.capacity = 2 ^ m ∧ 2 ≤ 2 ^ m := by
    intro hmask
    rw [capacity, if_pos hmask]
    omega
  have hnew : ∀ {n m : ℕ}, ¬ c.Roomy → n = 2 ^ m → m < arch.maskBits → 2 ≤ n →
      ∃ c', reallocate arch n = .ok c' ∧ c'.Ok arch ∧ c'.occupied + 1 < c'.mask + 1 ∧
        c'.shared = false ∧ (c.Roomy ∧ c' = c ∨ ¬ c.Roomy ∧ c'.buckets = fun _ => none) := by
    intro n m hfull hn hm h2
    obtain ⟨c', hc', hok, hroom, hshared, hnone⟩ := reallocate_spec hn hm h2
    exact ⟨c', hc', hok, hroom, hshared, .inr ⟨hfull, hnone⟩⟩
  by_cases hconst : c.isConstantEmptyCache = true
  · rw [prepare, if_pos hconst]
    have hfull : ¬ c.Roomy := fun hr => by simp [hr.1] at hconst
    by_cases hmask : c.mask = 0
    · have hzero : c.capacity = 0 := by rw [capacity, if_neg (not_not.mpr hmask)]
      rw [if_neg (not_not.mpr hzero)]
      exact .inl (hnew (m := 2) hfull rfl (by omega) (by decide))
    · obtain ⟨hceq, h2⟩ := hcap hmask
      rw [if_pos (by omega)]
      exact .inl (hnew hfull hceq hmle (by omega))
  · have hshared : c.shared = false := by simpa [h.isConstantEmptyCache_eq] using hconst
    have hmask : c.mask ≠ 0 := fun hzero => by simp [h.owned hzero] at hshared
    obtain ⟨hceq, h2⟩ := hcap hmask
    rw [prepare]
    split_ifs with hfits
    · refine .inl ⟨c, rfl, h, ?_, hshared, .inl ⟨⟨by simpa using hconst, hfits⟩, rfl⟩⟩
      omega
    rw [expand, if_pos (by omega : c.capacity ≠ 0)]
    have hfull : ¬ c.Roomy := fun hr => hfits hr.2
    by_cases hg : c.Growable
    · have hdouble : c.capacity * 2 % 2 ^ 32 = 2 ^ (m + 1) := by
        rw [Nat.mod_eq_of_lt hg, hceq, Nat.pow_succ]
      rw [hdouble]
      left
      by_cases hover : 2 ^ (m + 1) % 2 ^ arch.maskBits = 2 ^ (m + 1)
      · rw [if_neg (not_not.mpr hover)]
        have hlt : 2 ^ (m + 1) < 2 ^ arch.maskBits := by
          rw [← hover]
          exact Nat.mod_lt _ (Nat.two_pow_pos _)
        exact hnew hfull rfl ((Nat.pow_lt_pow_iff_right (by omega)).mp hlt)
          (by omega)
      · rw [if_pos hover]
        exact hnew hfull hceq hmle (by omega)
    · -- the capacity is 2^31: its double is 0 in 32 bits
      have h31 : m = 31 := by
        have hword := arch.le_word
        have hle : 2 ^ 32 ≤ 2 ^ (m + 1) := by
          rw [Nat.pow_succ 2 m, ← hceq]
          exact not_lt.mp hg
        have := (Nat.pow_le_pow_iff_right (by omega)).mp hle
        omega
      have hdouble : c.capacity * 2 % 2 ^ 32 = 0 := by
        rw [hceq, h31]
        rfl
      rw [hdouble]
      right
      refine ⟨hg, ?_⟩
      rw [if_neg (not_not.mpr (Nat.zero_mod _)), reallocate, if_neg (by simp)]

/-- The cache with an entry written to the bucket `i`. -/
def store (c : Cache) (i : ℕ) (k : Sel) (imp : Imp) : Cache :=
  { c with
    occupied := if c.buckets i = none then c.occupied + 1 else c.occupied
    buckets := update c.buckets i (some (k, imp)) }

theorem store_ok (hroom : c.occupied + 1 < c.mask + 1) (hshared : c.shared = false)
    {i : ℕ} (hi : i < c.mask + 1) (imp : Imp) : (c.store i k imp).Ok arch := by
  refine ⟨h.pow, ?_, ?_, ?_, h.owned⟩
  · show (if c.buckets i = none then c.occupied + 1 else c.occupied) =
      (Lib.occupied (c.mask + 1) (update c.buckets i (some (k, imp)))).card
    split_ifs with hb
    · rw [card_occupied_insert hi hb, h.counted]
    · rw [h.counted]
      congr 1
      ext j
      by_cases hji : j = i
      · subst hji
        simp [Lib.occupied, Option.isSome_iff_ne_none, hb]
      · simp [Lib.occupied, update_of_ne hji]
  · show (if c.buckets i = none then c.occupied + 1 else c.occupied) < c.mask + 1
    split_ifs <;> omega
  · intro hs
    rw [show c.shared = true from hs] at hshared
    cases hshared

omit h in
theorem holds_of_store {i : ℕ} {k' : Sel} {imp' : Imp} (h : (c.store i k imp).Holds k' imp') :
    (k' = k ∧ imp' = imp) ∨ c.Holds k' imp' := by
  obtain ⟨j, hj, hb⟩ := h
  exact (update_eq_some hb).imp (fun heq => Prod.ext_iff.mp heq.2) fun hb => ⟨j, hj, hb.2⟩

/-- **Filling a cache** adds the entry, if there is none for the selector, and no other. It fails
only when the capacity cannot be doubled. -/
theorem fill_spec (k : Sel) (imp : Imp) :
    (∃ c', c.fill arch k imp = .ok c' ∧ c'.Ok arch ∧
      ∀ k' imp', c'.Holds k' imp' → (k' = k ∧ imp' = imp) ∨ c.Holds k' imp') ∨
    (¬ c.Growable ∧ c.fill arch k imp = .error .assertion) := by
  by_cases hhit : c.getImp arch k = .null
  · rw [fill, if_neg (not_not.mpr hhit)]
    rcases prepare_spec h with ⟨c₁, hprep, hok, hroom, hshared, hsub⟩ | ⟨hg, hprep⟩
    · left
      obtain ⟨d, hfind, hi, -⟩ := find_spec hok k
      refine ⟨c₁.store _ k imp, ?_, store_ok hok hroom hshared hi imp, fun k' imp' hh => ?_⟩
      · simp [hprep, hfind, store]
      · refine (holds_of_store hh).imp_right fun hh => ?_
        rcases hsub with ⟨-, rfl⟩ | ⟨-, hnone⟩
        · exact hh
        · exact absurd hh (not_holds_of_empty hnone)
    · exact .inr ⟨hg, by simp [hprep]⟩
  · exact .inl ⟨c, by rw [fill, if_pos hhit], h, fun k' imp' hh => .inr hh⟩

theorem erase_ok : c.erase.Ok arch := by
  unfold erase
  split_ifs with hcond
  · refine ⟨h.pow, ?_, ?_, by simp, by simp⟩
    · simp [occupied_empty]
    · show 0 < c.mask + 1
      omega
  · exact h

theorem not_holds_erase : ¬ c.erase.Holds k imp := by
  rintro ⟨i, hi, hb⟩
  unfold erase at hi hb
  split_ifs at hi hb with hcond
  have hocc : c.occupied = 0 := by
    by_contra hne
    apply hcond
    have hmask : c.mask ≠ 0 := by
      have := h.room
      omega
    rw [capacity, if_pos hmask]
    omega
  rw [h.counted, Finset.card_eq_zero] at hocc
  have hmem : i ∈ Lib.occupied (c.mask + 1) c.buckets := by
    simp [Lib.occupied, hi, hb]
  rw [hocc] at hmem
  cases hmem

end

end Cache

end Apple.Objc.Messaging
