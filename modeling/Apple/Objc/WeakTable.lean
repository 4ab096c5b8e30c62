import Apple.Objc.WeakEntry

/-!
# The weak table

`weak_table_t` (`objc4-750/runtime/objc-weak.h`, 119–124) is a hash table of entries with one
entry for each object that has weak references. It is used through
`weak_register_no_lock`, `weak_unregister_no_lock` and `weak_clear_no_lock`
(`objc-weak.mm`, 347–504).

Results:
* `weakEntryForReferent_spec`: the lookup is exact.
* `weakEntryInsert_spec`, `setEntry_spec`, `weakEntryRemove_spec`: what the changes do to the set
  of entries.
* `weakResize_spec`, `weakGrowMaybe_spec`, `weakCompactMaybe_spec`: rehashing keeps every entry.
-/

namespace Apple.Objc.Weak

open Apple.Lib Function List

/-! ## The functions -/

/-- `weak_table_t`. -/
structure WeakTable where
  weakEntries : Option (ℕ → WeakEntry)
  numEntries : ℕ
  mask : ℕ
  maxHashDisplacement : ℕ

namespace WeakTable

/-- The table before the first registration. -/
def init : WeakTable := ⟨none, 0, 0, 0⟩

/-- `TABLE_SIZE` (`objc-weak.mm`, 33). -/
def tableSize (t : WeakTable) : ℕ := if t.mask ≠ 0 then t.mask + 1 else 0

end WeakTable

/-- What `weak_register_no_lock` asks about the referent. `allowsWeakReference` is `none` when
the class does not implement the method. -/
structure ReferentInfo where
  isTaggedPointer : Bool
  hasCustomRR : Bool
  rootIsDeallocating : Bool
  allowsWeakReference : Option Bool
deriving DecidableEq, Repr

/-- The local `deallocating` of `weak_register_no_lock` (398–415); `none` when it returns nil
because the method is missing. -/
def ReferentInfo.deallocating (info : ReferentInfo) : Option Bool :=
  if ¬ info.hasCustomRR then some info.rootIsDeallocating else info.allowsWeakReference.map not

section Functions

variable (ptrHash : ℕ → ℕ) (calloc : Calloc) (t : WeakTable)

/-- `weak_entry_insert` (211–231). -/
def weakEntryInsert (newEntry : WeakEntry) : Except Fatal WeakTable :=
  match t.weakEntries with
  | none => .error .nilEntries
  | some weakEntries =>
    let begin := hashBegin ptrHash t.mask newEntry.referent
    let full := fun index => (weakEntries index).referent ≠ 0
    match probeFree (nextIndex t.mask) (full ·) begin (t.mask + 1) begin 0 with
    | none => .error .badWeakTable
    | some (index, hashDisplacement) =>
      .ok { weakEntries := some (update weakEntries index newEntry)
            numEntries := t.numEntries + 1
            mask := t.mask
            maxHashDisplacement :=
              if hashDisplacement > t.maxHashDisplacement then hashDisplacement
              else t.maxHashDisplacement }

/-- `weak_resize` (234–258). -/
def weakResize (newSize : ℕ) : Except Fatal WeakTable :=
  let fresh : WeakTable := ⟨some fun _ => .zero, 0, newSize - 1, 0⟩
  match t.weakEntries with
  | none => .ok fresh
  | some oldEntries =>
    (List.range t.tableSize).foldlM
      (fun t i => if (oldEntries i).referent ≠ 0 then weakEntryInsert ptrHash t (oldEntries i)
        else .ok t) fresh

/-- `weak_grow_maybe` (261–269). -/
def weakGrowMaybe : Except Fatal WeakTable :=
  let oldSize := t.tableSize
  if t.numEntries ≥ oldSize * 3 / 4 then
    weakResize ptrHash t (if oldSize ≠ 0 then oldSize * 2 else 64)
  else .ok t

/-- `weak_compact_maybe` (272–281). -/
def weakCompactMaybe : Except Fatal WeakTable :=
  let oldSize := t.tableSize
  if oldSize ≥ 1024 ∧ oldSize / 16 ≥ t.numEntries then weakResize ptrHash t (oldSize / 8)
  else .ok t

/-- Write to the entry at `index`. -/
def setEntry (index : ℕ) (e : WeakEntry) : WeakTable :=
  { t with weakEntries := t.weakEntries.map fun entries => update entries index e }

/-- `weak_entry_remove` (287–296). -/
def weakEntryRemove (index : ℕ) : Except Fatal WeakTable :=
  let t := setEntry t index .zero
  weakCompactMaybe ptrHash { t with numEntries := t.numEntries - 1 }

/-- `weak_entry_for_referent` (308–330): the index of the entry, and the entry. -/
def weakEntryForReferent (referent : ℕ) : Except Fatal (Option (ℕ × WeakEntry)) :=
  match t.weakEntries with
  | none => .ok none
  | some weakEntries =>
    let begin := hashBegin ptrHash t.mask referent
    let hit := fun index => (weakEntries index).referent = referent
    match probeHit (nextIndex t.mask) (hit ·) begin t.maxHashDisplacement (t.mask + 1) begin 0 with
    | .bad => .error .badWeakTable
    | .absent => .ok none
    | .found index => .ok (some (index, weakEntries index))

/-- The test of `weak_unregister_no_lock` (360–371). For an entry that is out of line and has
no referrers it reads the words of the header. -/
def isEmptyEntry (e : WeakEntry) : Bool :=
  if e.outOfLine ∧ e.numRefs ≠ 0 then false
  else (List.range weakInlineCount).all fun i => e.inlineReferrer i = 0

/-- `weak_unregister_no_lock` (347–380). -/
def weakUnregisterNoLock (referent referrer : ℕ) : Except Fatal (WeakTable × List Inform) := do
  if referent = 0 then return (t, [])
  match ← weakEntryForReferent ptrHash t referent with
  | none => return (t, [])
  | some (index, entry) =>
    let (entry, informs) ← removeReferrer ptrHash entry referrer
    let t := setEntry t index entry
    if isEmptyEntry entry then
      let t ← weakEntryRemove ptrHash t index
      return (t, informs)
    else return (t, informs)

/-- The nested calls of `append_referrer` that are allowed for. -/
def appendDepth : ℕ := 2

/-- The end of `weak_register_no_lock` (424–434): remember the referrer. -/
def rememberReferrer (referent referrer : ℕ) : Except Fatal WeakTable := do
  match ← weakEntryForReferent ptrHash t referent with
  | some (index, entry) =>
    let entry ← appendReferrer ptrHash calloc appendDepth entry referrer
    return setEntry t index entry
  | none =>
    let newEntry := newWeakEntry referent referrer
    let t ← weakGrowMaybe ptrHash t
    weakEntryInsert ptrHash t newEntry

/-- `weak_register_no_lock` (390–440): the table and the returned `id`. -/
def weakRegisterNoLock (info : ReferentInfo) (referent referrer : ℕ)
    (crashIfDeallocating : Bool) : Except Fatal (WeakTable × ℕ) := do
  if referent = 0 ∨ info.isTaggedPointer then return (t, referent)
  match info.deallocating with
  | none => return (t, 0)
  | some true =>
    if crashIfDeallocating then throw (.cannotFormWeakReference referent) else return (t, 0)
  | some false =>
    let t ← rememberReferrer ptrHash calloc t referent referrer
    return (t, referent)

/-- The loop of `weak_clear_no_lock` (486–501) over the referrers that are not nil. -/
def clearReferrers (referent : ℕ) : List ℕ → (ℕ → ℕ) → (ℕ → ℕ) × List Inform
  | [], mem => (mem, [])
  | referrer :: referrers, mem =>
    if mem referrer = referent then
      clearReferrers referent referrers (update mem referrer 0)
    else if mem referrer ≠ 0 then
      let (mem', informs) := clearReferrers referent referrers mem
      (mem', .holdsInstead referrer (mem referrer) referent :: informs)
    else clearReferrers referent referrers mem

/-- `weak_clear_no_lock` (461–504): the table, the memory with the weak variables, and the
reports. -/
def weakClearNoLock (mem : ℕ → ℕ) (referent : ℕ) :
    Except Fatal (WeakTable × (ℕ → ℕ) × List Inform) := do
  match ← weakEntryForReferent ptrHash t referent with
  | none => return (t, mem, [])
  | some (index, entry) =>
    let (mem, informs) := clearReferrers referent (scan entry) mem
    let t ← weakEntryRemove ptrHash t index
    return (t, mem, informs)

end Functions

/-! ## The table as a set of entries -/

section Table

/-- The entries as a table: a free slot has no referent. -/
def entrySlots (entries : ℕ → WeakEntry) (i : ℕ) : Option WeakEntry :=
  if (entries i).referent = 0 then none else some (entries i)

variable {i : ℕ} {e : WeakEntry}

theorem entrySlots_eq_some {entries : ℕ → WeakEntry} :
    entrySlots entries i = some e ↔ entries i = e ∧ e.referent ≠ 0 := by
  unfold entrySlots
  split_ifs with h
  · constructor
    · rintro ⟨⟩
    · rintro ⟨rfl, hne⟩
      exact absurd h hne
  · constructor
    · rintro ⟨⟩
      exact ⟨rfl, h⟩
    · rintro ⟨rfl, _⟩
      rfl

variable (entries : ℕ → WeakEntry)

theorem entrySlots_isSome (i : ℕ) :
    decide ((entries i).referent ≠ 0) = (entrySlots entries i).isSome := by
  unfold entrySlots
  split_ifs with h <;> simp [h]

theorem entrySlots_update (i : ℕ) (he : e.referent ≠ 0) :
    entrySlots (update entries i e) = update (entrySlots entries) i (some e) := by
  funext j
  by_cases hji : j = i
  · subst hji
    simp [entrySlots, he]
  · simp [entrySlots, hji]

theorem entrySlots_update_zero (i : ℕ) :
    entrySlots (update entries i .zero) = update (entrySlots entries) i none := by
  funext j
  by_cases hji : j = i
  · subst hji
    simp [entrySlots, WeakEntry.zero]
  · simp [entrySlots, hji]

variable (ptrHash : ℕ → ℕ)

/-- A table that has been allocated. -/
structure Allocated (t : WeakTable) (entries : ℕ → WeakEntry) : Prop where
  weakEntries : t.weakEntries = some entries
  size : ∃ m, 6 ≤ m ∧ t.mask + 1 = 2 ^ m
  probed : Probed (t.mask + 1) (nextIndex t.mask) (hashBegin ptrHash t.mask) WeakEntry.referent
    (entrySlots entries) t.maxHashDisplacement
  count : (occupied (t.mask + 1) (entrySlots entries)).card = t.numEntries
  load : 4 * t.numEntries ≤ 3 * (t.mask + 1)

/-- The table is empty and not allocated, or well formed. -/
def WellFormed (t : WeakTable) : Prop :=
  t.weakEntries = none ∧ t.mask = 0 ∧ t.numEntries = 0 ∨ ∃ entries, Allocated ptrHash t entries

/-- The table has the entry `e`. -/
def Holds (t : WeakTable) (e : WeakEntry) : Prop :=
  ∃ entries, t.weakEntries = some entries ∧ Occurs (t.mask + 1) (entrySlots entries) e

variable {ptrHash} {t : WeakTable} {entries : ℕ → WeakEntry}

section

variable (h : Allocated ptrHash t entries)
include h

theorem Allocated.holds_iff (e : WeakEntry) :
    Holds t e ↔ Occurs (t.mask + 1) (entrySlots entries) e := by
  unfold Holds
  rw [h.weakEntries]
  simp

/-- A referent has one entry. -/
theorem Allocated.unique {a b : WeakEntry} (ha : Holds t a)
    (hb : Holds t b) (hab : a.referent = b.referent) : a = b := by
  obtain ⟨i, hi, hia⟩ := (h.holds_iff a).mp ha
  obtain ⟨j, hj, hjb⟩ := (h.holds_iff b).mp hb
  rw [h.probed.distinct i hi j hj a b hia hjb hab, hjb] at hia
  exact (Option.some.inj hia).symm

theorem Allocated.size_le : 64 ≤ t.mask + 1 := by
  obtain ⟨m, hm, hsize⟩ := h.size
  calc 64 = 2 ^ 6 := rfl
    _ ≤ 2 ^ m := Nat.pow_le_pow_right Nat.two_pos hm
    _ = t.mask + 1 := hsize.symm

theorem Allocated.tableSize_eq : t.tableSize = t.mask + 1 := by
  have := h.size_le
  exact if_pos (by omega)

omit h in
theorem Holds.referent_ne_zero (h : Holds t e) : e.referent ≠ 0 := by
  obtain ⟨entries, _, i, _, hi⟩ := h
  exact (entrySlots_eq_some.mp hi).2

omit h in
/-- **The lookup is exact.** -/
theorem weakEntryForReferent_spec (h : WellFormed ptrHash t) {r : ℕ} (hr : r ≠ 0) :
    (∃ entries i e, Allocated ptrHash t entries ∧ i < t.mask + 1 ∧
        entrySlots entries i = some e ∧ e.referent = r ∧
        weakEntryForReferent ptrHash t r = .ok (some (i, e))) ∨
      ((∀ e, Holds t e → e.referent ≠ r) ∧ weakEntryForReferent ptrHash t r = .ok none) := by
  rcases h with ⟨hnone, _, _⟩ | ⟨entries, h⟩
  · refine .inr ⟨?_, by simp [weakEntryForReferent, hnone]⟩
    rintro e ⟨entries, hentries, _⟩
    rw [hnone] at hentries
    cases hentries
  · obtain ⟨m, _, hsize⟩ := h.size
    have hhit : ∀ i, decide ((entries i).referent = r) = true ↔
        ∃ e, entrySlots entries i = some e ∧ e.referent = r := by
      intro i
      rw [decide_eq_true_iff]
      constructor
      · intro hi
        exact ⟨entries i, entrySlots_eq_some.mpr ⟨rfl, hi ▸ hr⟩, hi⟩
      · rintro ⟨e, he, rfl⟩
        rw [(entrySlots_eq_some.mp he).1]
    rcases h.probed.probeHit_eq (cyclic_nextIndex hsize) (hashBegin_lt ptrHash hsize r) hhit with
      ⟨i, e, hi, hslot, href, hprobe⟩ | ⟨habsent, hprobe⟩
    · refine .inl ⟨entries, i, e, h, hi, hslot, href, ?_⟩
      simp only [weakEntryForReferent, h.weakEntries, hprobe, (entrySlots_eq_some.mp hslot).1]
    · refine .inr ⟨fun e he => habsent e ((h.holds_iff e).mp he), ?_⟩
      simp only [weakEntryForReferent, h.weakEntries, hprobe]

/-- Inserting an entry for a new referent into a table with room. -/
theorem weakEntryInsert_spec
    (hroom : t.numEntries < t.tableSize * 3 / 4) (he : e.referent ≠ 0)
    (hnew : ∀ e', Holds t e' → e'.referent ≠ e.referent) :
    ∃ t' entries', weakEntryInsert ptrHash t e = .ok t' ∧ Allocated ptrHash t' entries' ∧
      (∀ e', Holds t' e' ↔ e' = e ∨ Holds t e') ∧ t'.mask = t.mask ∧
      t'.numEntries = t.numEntries + 1 := by
  obtain ⟨m, hm, hsize⟩ := h.size
  rw [h.tableSize_eq] at hroom
  have hbegin := hashBegin_lt ptrHash hsize e.referent
  have hfree : (occupied (t.mask + 1) (entrySlots entries)).card < t.mask + 1 := by
    rw [h.count]
    omega
  obtain ⟨d, hd, hnone, -, hprobe⟩ := probeFree_eq (cyclic_nextIndex hsize) hbegin hfree
    (entrySlots_isSome entries)
  rw [h.count] at hd
  have hindex := (cyclic_nextIndex hsize).iterate_lt hbegin d
  set index := (nextIndex t.mask)^[d] (hashBegin ptrHash t.mask e.referent) with hindexEq
  set t' : WeakTable := ⟨some (update entries index e), t.numEntries + 1, t.mask,
    if d > t.maxHashDisplacement then d else t.maxHashDisplacement⟩ with ht'
  have hslots := entrySlots_update entries index he
  have hmax : t'.maxHashDisplacement = max t.maxHashDisplacement d := by
    rw [ht']
    dsimp only
    split_ifs <;> omega
  have hok : Allocated ptrHash t' (update entries index e) := by
    constructor
    · rfl
    · exact ⟨m, hm, hsize⟩
    · rw [hslots, hmax]
      exact h.probed.insert rfl (by omega) fun e' he' => hnew e' ((h.holds_iff e').mpr he')
    · rw [hslots]
      exact (card_occupied_insert hindex hnone e).trans (by rw [h.count])
    · show 4 * (t.numEntries + 1) ≤ 3 * (t.mask + 1)
      omega
  refine ⟨t', _, by simp only [weakEntryInsert, h.weakEntries, hprobe]; rfl, hok, ?_, rfl, rfl⟩
  intro e'
  rw [hok.holds_iff, h.holds_iff, hslots]
  exact occurs_insert hindex hnone e e'

end

/-! ### Rehashing -/

/-- Inserting a list of entries with different referents into an empty table. -/
theorem foldlM_weakEntryInsert {L : List WeakEntry} (h : Allocated ptrHash t entries)
    (hempty : ∀ e, ¬ Holds t e) (hnum : t.numEntries = 0)
    (hpair : L.Pairwise fun a b => a.referent ≠ b.referent) (h0 : ∀ e ∈ L, e.referent ≠ 0)
    (hroom : L.length ≤ t.tableSize * 3 / 4) :
    ∃ t', L.foldlM (weakEntryInsert ptrHash) t = .ok t' ∧
      (∃ entries', Allocated ptrHash t' entries') ∧ (∀ e, Holds t' e ↔ e ∈ L) ∧
      t'.mask = t.mask ∧ t'.numEntries = L.length := by
  refine foldlM_prefix (I := fun pre t' => (∃ entries', Allocated ptrHash t' entries') ∧
    (∀ e, Holds t' e ↔ e ∈ pre) ∧ t'.mask = t.mask ∧ t'.numEntries = pre.length)
    ⟨⟨entries, h⟩, by simp [hempty], rfl, hnum⟩ ?_
  rintro pre a t₁ hpre ⟨⟨entries₁, h₁⟩, hholds, hmask, hnum⟩
  have hlen := hpre.length_le
  rw [length_append, length_singleton] at hlen
  have hsize : t₁.tableSize = t.tableSize := by
    rw [h₁.tableSize_eq, hmask, h.tableSize_eq]
  have hnew := (pairwise_append.mp (hpair.sublist hpre.sublist)).2.2
  obtain ⟨t₂, entries₂, ht₂, h₂, hholds₂, hmask₂, hnum₂⟩ :=
    weakEntryInsert_spec h₁ (by omega) (h0 a (hpre.subset mem_concat_self)) fun e he =>
      hnew e ((hholds e).mp he) a mem_cons_self
  refine ⟨t₂, ht₂, ⟨entries₂, h₂⟩, fun e => ?_, hmask₂.trans hmask, by simp [hnum₂, hnum]⟩
  rw [hholds₂, hholds, mem_append, mem_singleton, or_comm]

theorem foldlM_entries (is : List ℕ) (t : WeakTable) :
    is.foldlM (fun t i => if (entries i).referent ≠ 0 then
        weakEntryInsert ptrHash t (entries i) else .ok t) t =
      (is.filterMap (entrySlots entries)).foldlM (weakEntryInsert ptrHash) t := by
  rw [foldlM_filterMap]
  congr 1
  funext t i
  unfold entrySlots
  split_ifs <;> simp_all

theorem fresh_allocated {m : ℕ} (hm : 6 ≤ m) :
    Allocated ptrHash ⟨some fun _ => .zero, 0, 2 ^ m - 1, 0⟩ (fun _ => .zero) := by
  have hpow : 2 ^ 6 ≤ 2 ^ m := Nat.pow_le_pow_right Nat.two_pos hm
  have hslots : entrySlots (fun _ => .zero) = fun _ => none := by
    rfl
  have hsize : 2 ^ m - 1 + 1 = 2 ^ m := by omega
  constructor
  · rfl
  · exact ⟨m, hm, hsize⟩
  · exact Probed.empty (show 1 < 2 ^ m - 1 + 1 by omega)
  · rw [hslots, occupied_empty, Finset.card_empty]
  · exact zero_le

/-- **Rehashing keeps every entry**, into any table that is large enough. -/
theorem weakResize_spec (h : WellFormed ptrHash t) {m : ℕ} (hm : 6 ≤ m)
    (hroom : t.numEntries ≤ 2 ^ m * 3 / 4) :
    ∃ t' entries', weakResize ptrHash t (2 ^ m) = .ok t' ∧ Allocated ptrHash t' entries' ∧
      (∀ e, Holds t' e ↔ Holds t e) ∧ t'.mask + 1 = 2 ^ m ∧ t'.numEntries = t.numEntries := by
  have hpow : 2 ^ 6 ≤ 2 ^ m := Nat.pow_le_pow_right Nat.two_pos hm
  have hfresh : Allocated ptrHash ⟨some fun _ => .zero, 0, 2 ^ m - 1, 0⟩ (fun _ => .zero) :=
    fresh_allocated hm
  have hempty : ∀ e, ¬ Holds ⟨some fun _ => WeakEntry.zero, 0, 2 ^ m - 1, 0⟩ e := by
    intro e he
    obtain ⟨i, _, hi⟩ := (hfresh.holds_iff e).mp he
    cases hi
  rcases h with ⟨hnone, _, hnum⟩ | ⟨entries, h⟩
  · refine ⟨_, _, by simp only [weakResize, hnone], hfresh, ?_, ?_, hnum.symm⟩
    · intro e
      refine iff_of_false (hempty e) ?_
      rintro ⟨entries, hentries, _⟩
      rw [hnone] at hentries
      cases hentries
    · show 2 ^ m - 1 + 1 = 2 ^ m
      omega
  · set L := items (t.mask + 1) (entrySlots entries) with hL
    have hlength : L.length = t.numEntries := by
      rw [length_items, h.count]
    have h0 : ∀ e ∈ L, e.referent ≠ 0 := fun e he => by
      obtain ⟨i, _, hi⟩ := mem_items.mp he
      exact (entrySlots_eq_some.mp hi).2
    obtain ⟨t', ht', ⟨entries', h'⟩, hholds, hmask, hnum⟩ := foldlM_weakEntryInsert (L := L)
      hfresh hempty rfl h.probed.distinct.pairwise_items h0
      (by rw [hfresh.tableSize_eq]; dsimp only; omega)
    refine ⟨t', entries', ?_, h', ?_, ?_, ?_⟩
    · simp only [weakResize, h.weakEntries, h.tableSize_eq]
      rw [foldlM_entries]
      exact ht'
    · intro e
      rw [hholds, h.holds_iff, mem_items]
    · rw [hmask]
      dsimp only
      omega
    · rw [hnum, hlength]

/-- After `weak_grow_maybe` there is room for one more entry. -/
theorem weakGrowMaybe_spec (h : WellFormed ptrHash t) :
    ∃ t' entries', weakGrowMaybe ptrHash t = .ok t' ∧ Allocated ptrHash t' entries' ∧
      (∀ e, Holds t' e ↔ Holds t e) ∧ t'.numEntries < t'.tableSize * 3 / 4 := by
  unfold weakGrowMaybe
  have hresize : ∀ m, 6 ≤ m → t.numEntries < 2 ^ m * 3 / 4 →
      ∃ t' entries', weakResize ptrHash t (2 ^ m) = .ok t' ∧ Allocated ptrHash t' entries' ∧
        (∀ e, Holds t' e ↔ Holds t e) ∧ t'.numEntries < t'.tableSize * 3 / 4 := by
    intro m hm hroom
    obtain ⟨t', entries', ht', h', hholds, hmask, hnum⟩ := weakResize_spec h hm hroom.le
    refine ⟨t', entries', ht', h', hholds, ?_⟩
    rwa [h'.tableSize_eq, hmask, hnum]
  rcases h with ⟨hnone, hmask, hnum⟩ | ⟨entries, h⟩
  · have hsize : t.tableSize = 0 := by
      simp [WeakTable.tableSize, hmask]
    rw [hsize]
    exact hresize 6 le_rfl (by rw [hnum]; decide)
  · obtain ⟨m, hm, hsize⟩ := h.size
    have hload := h.load
    by_cases hfull : t.numEntries ≥ t.tableSize * 3 / 4
    · rw [if_pos hfull, h.tableSize_eq, if_pos (by omega), hsize]
      refine hresize (m + 1) (by omega) ?_
      omega
    · rw [if_neg hfull]
      exact ⟨t, entries, rfl, h, fun _ => Iff.rfl, by omega⟩

/-- `weak_compact_maybe` keeps every entry. -/
theorem weakCompactMaybe_spec (h : WellFormed ptrHash t) :
    ∃ t', weakCompactMaybe ptrHash t = .ok t' ∧ WellFormed ptrHash t' ∧
      ∀ e, Holds t' e ↔ Holds t e := by
  unfold weakCompactMaybe
  by_cases hcompact : t.tableSize ≥ 1024 ∧ t.tableSize / 16 ≥ t.numEntries
  · rcases h with ⟨_, hmask, _⟩ | ⟨entries, h⟩
    · have hsize : t.tableSize = 0 := by
        simp [WeakTable.tableSize, hmask]
      omega
    · obtain ⟨m, hm, hsize⟩ := h.size
      rw [h.tableSize_eq, hsize] at hcompact
      have hm10 : 10 ≤ m := (Nat.pow_le_pow_iff_right (by decide : 1 < 2)).mp hcompact.1
      obtain ⟨k, rfl⟩ : ∃ k, m = k + 3 := ⟨m - 3, by omega⟩
      rw [pow_add] at hcompact
      have heighth : t.tableSize / 8 = 2 ^ k := by
        rw [h.tableSize_eq, hsize, pow_add]
        omega
      obtain ⟨t', entries', ht', h', hholds, _⟩ := weakResize_spec (.inr ⟨entries, h⟩)
        (show 6 ≤ k by omega) (by omega)
      refine ⟨t', ?_, .inr ⟨entries', h'⟩, hholds⟩
      rw [if_pos (by rw [h.tableSize_eq, hsize, pow_add]; exact hcompact), heighth, ht']
  · exact ⟨t, if_neg hcompact, h, fun _ => Iff.rfl⟩

/-! ### Changing and removing one entry -/

theorem setEntry_spec (h : Allocated ptrHash t entries) (hi : i < t.mask + 1)
    {e' : WeakEntry} (he : entrySlots entries i = some e) (href : e'.referent = e.referent) :
    Allocated ptrHash (setEntry t i e') (update entries i e') ∧
      ∀ x, Holds (setEntry t i e') x ↔ x = e' ∨ x.referent ≠ e.referent ∧ Holds t x := by
  have hne : e'.referent ≠ 0 := by
    rw [href]
    exact (entrySlots_eq_some.mp he).2
  have hslots := entrySlots_update entries i hne
  -- the update is an erasure followed by an insertion into the free slot
  have htwo : update (entrySlots entries) i (some e') =
      update (update (entrySlots entries) i none) i (some e') := by
    rw [update_idem]
  have hfree : update (entrySlots entries) i none i = none := update_self ..
  have hok : Allocated ptrHash (setEntry t i e') (update entries i e') := by
    constructor
    · simp [setEntry, h.weakEntries]
    · exact h.size
    · rw [hslots]
      exact h.probed.replace hi he href
    · rw [hslots, htwo]
      have hinsert := card_occupied_insert hi hfree e'
      have herase := card_occupied_erase hi he
      exact hinsert.trans (herase.trans h.count)
    · exact h.load
  refine ⟨hok, fun x => ?_⟩
  rw [hok.holds_iff, h.holds_iff, hslots, htwo]
  exact (occurs_insert hi hfree e' x).trans
    (or_congr_right (h.probed.distinct.occurs_erase hi he x))

theorem weakEntryRemove_spec (h : Allocated ptrHash t entries) (hi : i < t.mask + 1)
    (he : entrySlots entries i = some e) :
    ∃ t', weakEntryRemove ptrHash t i = .ok t' ∧ WellFormed ptrHash t' ∧
      ∀ x, Holds t' x ↔ x.referent ≠ e.referent ∧ Holds t x := by
  have hcard := card_occupied_erase hi he
  rw [h.count] at hcard
  have hload := h.load
  set t1 : WeakTable := { setEntry t i .zero with numEntries := t.numEntries - 1 } with ht1
  have hslots := entrySlots_update_zero entries i
  have hok : Allocated ptrHash t1 (update entries i .zero) := by
    constructor
    · simp [ht1, setEntry, h.weakEntries]
    · exact h.size
    · rw [hslots]
      exact h.probed.erase i
    · rw [hslots]
      show (occupied (t.mask + 1) _).card = t.numEntries - 1
      omega
    · show 4 * (t.numEntries - 1) ≤ 3 * (t.mask + 1)
      omega
  obtain ⟨t', ht', h', hholds⟩ := weakCompactMaybe_spec (.inr ⟨_, hok⟩)
  refine ⟨t', ht', h', fun x => ?_⟩
  rw [hholds, hok.holds_iff, h.holds_iff, hslots]
  exact h.probed.distinct.occurs_erase hi he x

end Table

end Apple.Objc.Weak
