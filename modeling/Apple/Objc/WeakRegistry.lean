import Apple.Objc.WeakTable

/-!
# The weak table as a set of pairs

The abstract weak table is a set of pairs of a referent and a referrer. The concrete table of
`Apple.Objc.WeakTable` refines it (`Refines`), and a program that stores into its weak variables
when it registers them keeps every registered variable equal to its referent (`Tracks`).

Results:
* `weakRegister_refines`, `weakUnregister_refines`, `weakClear_refines`: the three operations.
* `clearReferrers_mem`: which variables `weak_clear_no_lock` changes, for any memory.
* `weakTable_run`: every sequence of the operations.
-/

namespace Apple.Objc.Weak

open Apple.Lib Function

/-! ## The abstract table -/

/-- The registered pairs of a referent and a referrer. -/
abbrev Registry := Finset (ℕ × ℕ)

/-- The referrers registered for `r`. -/
def referrers (reg : Registry) (r : ℕ) : Finset ℕ := (reg.filter (·.1 = r)).image Prod.snd

variable {r x r' : ℕ}

theorem mem_referrers {reg : Registry} : x ∈ referrers reg r ↔ (r, x) ∈ reg := by
  simp [referrers]

variable (reg : Registry)

theorem referrers_insert_self (r x : ℕ) :
    referrers (insert (r, x) reg) r = insert x (referrers reg r) := by
  ext y
  simp [mem_referrers]

theorem referrers_insert_of_ne (h : r' ≠ r) (x : ℕ) :
    referrers (insert (r, x) reg) r' = referrers reg r' := by
  ext y
  simp [mem_referrers, h]

theorem referrers_erase_self (r x : ℕ) :
    referrers (reg.erase (r, x)) r = (referrers reg r).erase x := by
  ext y
  simp [mem_referrers]

theorem referrers_erase_of_ne (h : r' ≠ r) (x : ℕ) :
    referrers (reg.erase (r, x)) r' = referrers reg r' := by
  ext y
  simp [mem_referrers, h]

theorem referrers_filter_self (r : ℕ) : referrers (reg.filter (·.1 ≠ r)) r = ∅ := by
  ext y
  simp [mem_referrers]

theorem referrers_filter_of_ne (h : r' ≠ r) :
    referrers (reg.filter (·.1 ≠ r)) r' = referrers reg r' := by
  ext y
  simp [mem_referrers, h]

section Refinement

variable (ptrHash : ℕ → ℕ)

/-- The table refines the abstract one: every entry represents the referrers of its referent,
and a referent without an entry has none. -/
structure Refines (t : WeakTable) (reg : Registry) : Prop where
  wellFormed : WellFormed ptrHash t
  entry : ∀ e, Holds t e → Represents ptrHash e (referrers reg e.referent)
  complete : ∀ r, (∀ e, Holds t e → e.referent ≠ r) → referrers reg r = ∅

/-- The referent can have weak references. -/
def Viable (info : ReferentInfo) : Prop :=
  info.isTaggedPointer = false ∧ info.deallocating = some false

instance (info : ReferentInfo) : Decidable (Viable info) :=
  inferInstanceAs (Decidable (_ ∧ _))

variable {ptrHash} {t : WeakTable} {reg : Registry}

theorem refines_init : Refines ptrHash .init ∅ := by
  refine ⟨.inl ⟨rfl, rfl, rfl⟩, ?_, fun r _ => rfl⟩
  rintro e ⟨entries, hentries, _⟩
  cases hentries

variable {reg' : Registry}

variable (h : Refines ptrHash t reg) {t' : WeakTable} {e : WeakEntry}

include h in
/-- A table whose entries have changed for the referent `r` only. -/
theorem Refines.change
    (hwf : WellFormed ptrHash t') (hreg : ∀ r', r' ≠ r → referrers reg' r' = referrers reg r')
    (hother : ∀ e, e.referent ≠ r → (Holds t' e ↔ Holds t e))
    (hentry : ∀ e, Holds t' e → e.referent = r → Represents ptrHash e (referrers reg' r))
    (hnone : (∀ e, Holds t' e → e.referent ≠ r) → referrers reg' r = ∅) :
    Refines ptrHash t' reg' := by
  refine ⟨hwf, fun e he => ?_, fun r' hr' => ?_⟩
  · by_cases her : e.referent = r
    · rw [her]
      exact hentry e he her
    · rw [hreg _ her]
      exact h.entry e ((hother e her).mp he)
  · by_cases hr : r' = r
    · rw [hr] at hr' ⊢
      exact hnone hr'
    · rw [hreg r' hr]
      refine h.complete r' fun e he her => ?_
      exact hr' e ((hother e (her ▸ hr)).mpr he) her

include h in
/-- The entry of `r` now represents the new set of referrers. -/
theorem Refines.replaceEntry (hwf : WellFormed ptrHash t') (href : e.referent = r)
    (hholds : ∀ a, Holds t' a ↔ a = e ∨ a.referent ≠ r ∧ Holds t a)
    (hreg : ∀ r', r' ≠ r → referrers reg' r' = referrers reg r')
    (hrep : Represents ptrHash e (referrers reg' r)) : Refines ptrHash t' reg' := by
  apply h.change hwf hreg
  · intro a ha
    rw [hholds]
    constructor
    · rintro (rfl | ⟨_, ha'⟩)
      · exact absurd href ha
      · exact ha'
    · intro ha'
      exact .inr ⟨ha, ha'⟩
  · intro a ha har
    rcases (hholds a).mp ha with rfl | ⟨hne, _⟩
    · exact hrep
    · exact absurd har hne
  · intro hall
    exact absurd href (hall e ((hholds e).mpr (.inl rfl)))

include h in
/-- The entry of `r` is gone, and `r` has no referrers any more. -/
theorem Refines.removeEntry
    (hwf : WellFormed ptrHash t') (hholds : ∀ a, Holds t' a ↔ a.referent ≠ r ∧ Holds t a)
    (hreg : ∀ r', r' ≠ r → referrers reg' r' = referrers reg r')
    (hnone : referrers reg' r = ∅) : Refines ptrHash t' reg' := by
  apply h.change hwf hreg
  · intro a ha
    rw [hholds]
    exact and_iff_right ha
  · intro a ha har
    exact absurd har ((hholds a).mp ha).1
  · intro _
    exact hnone

include h in
/-- An entry of the table represents the referrers of its referent. -/
theorem Refines.of_slot {entries : ℕ → WeakEntry}
    (ht : Allocated ptrHash t entries) {i : ℕ} (hi : i < t.mask + 1)
    (hslot : entrySlots entries i = some e) :
    Holds t e ∧ Represents ptrHash e (referrers reg e.referent) := by
  have he := (ht.holds_iff e).mpr ⟨i, hi, hslot⟩
  exact ⟨he, h.entry e he⟩

/-- The referent has an entry, and it is out of line. -/
def OutOfLine (t : WeakTable) (r : ℕ) : Prop :=
  ∃ e, Holds t e ∧ e.referent = r ∧ e.outOfLine = true

/-- Remembering a referrer replaces or adds the entry of the referent. -/
theorem rememberReferrer_spec (calloc : Calloc) (h : Refines ptrHash t reg)
    (hr : r ≠ 0) (hx : Aligned x) (hx0 : x ≠ 0) (hnew : (r, x) ∉ reg) :
    ∃ t' e', rememberReferrer ptrHash calloc t r x = .ok t' ∧ WellFormed ptrHash t' ∧
      e'.referent = r ∧ (∀ a, Holds t' a ↔ a = e' ∨ a.referent ≠ r ∧ Holds t a) ∧
      Represents ptrHash e' (referrers (insert (r, x) reg) r) ∧
      (e'.outOfLine = true ↔ OutOfLine t r ∨ (referrers reg r).card = weakInlineCount) := by
  unfold rememberReferrer
  rw [referrers_insert_self]
  rcases weakEntryForReferent_spec h.wellFormed hr with
    ⟨entries, i, e, ht, hi, hslot, rfl, hlookup⟩ | ⟨habsent, hlookup⟩
  · obtain ⟨he, hrep⟩ := h.of_slot ht hi hslot
    have hxnew : x ∉ referrers reg e.referent := fun hmem => hnew (mem_referrers.mp hmem)
    obtain ⟨e', he', hrep', href', hout⟩ := appendReferrer_represents hrep calloc hx hx0 hxnew 0
    obtain ⟨hok, hholds⟩ := setEntry_spec ht hi hslot href'
    refine ⟨setEntry t i e', e', ?_, .inr ⟨_, hok⟩, href', hholds, hrep', hout.trans ?_⟩
    · rw [appendDepth] at *
      simp [hlookup, he']
    · refine or_congr_left ⟨fun heo => ⟨e, he, rfl, heo⟩, ?_⟩
      rintro ⟨a, ha, har, hao⟩
      rwa [← ht.unique he ha har.symm] at hao
  · obtain ⟨t1, entries1, ht1, hok1, hholds1, hroom⟩ := weakGrowMaybe_spec h.wellFormed
    have hnewEntry : ∀ a, Holds t1 a → a.referent ≠ (newWeakEntry r x).referent := by
      intro a ha
      exact habsent a ((hholds1 a).mp ha)
    obtain ⟨t2, entries2, ht2, hok2, hholds2, _⟩ := weakEntryInsert_spec hok1 hroom hr hnewEntry
    have hempty : referrers reg r = ∅ := h.complete r habsent
    refine ⟨t2, newWeakEntry r x, ?_, .inr ⟨_, hok2⟩, rfl, fun a => ?_, ?_, ?_⟩
    · simp only [hlookup, ht1]
      exact ht2
    · rw [hholds2, hholds1]
      exact or_congr_right (and_iff_right_of_imp (habsent a)).symm
    · rw [hempty]
      exact newWeakEntry_represents r hx hx0
    · have hnone : ¬ OutOfLine t r := fun ⟨a, ha, har, _⟩ => habsent a ha har
      simp [hnone, hempty, weakInlineCount, newWeakEntry, WeakEntry.outOfLine,
        WeakEntry.outOfLineNess, disguise, referrersOutOfLine]

/-- **Registering** a new referrer of a viable referent adds the pair and returns the
referent. -/
theorem weakRegister_refines (calloc : Calloc) (h : Refines ptrHash t reg) {info : ReferentInfo}
    (hinfo : Viable info) (hr : r ≠ 0) (hx : Aligned x) (hx0 : x ≠ 0)
    (hnew : (r, x) ∉ reg) (crash : Bool) :
    ∃ t', weakRegisterNoLock ptrHash calloc t info r x crash = .ok (t', r) ∧
      Refines ptrHash t' (insert (r, x) reg) := by
  obtain ⟨t', e', ht', hwf, href, hholds, hrep, _⟩ :=
    rememberReferrer_spec calloc h hr hx hx0 hnew
  refine ⟨t', ?_, h.replaceEntry hwf href hholds
    (fun r' hr' => referrers_insert_of_ne reg hr' x) hrep⟩
  obtain ⟨htagged, hviable⟩ := hinfo
  unfold weakRegisterNoLock
  simp [hr, htagged, hviable, ht']

/-- **The test for an empty entry** is wrong out of line: it reads the header of the table as
referrers, and the mark in the second word is not nil. -/
theorem isEmptyEntry_iff {S : Finset ℕ} (h : Represents ptrHash e S) :
    isEmptyEntry e = true ↔ S = ∅ ∧ e.outOfLine = false := by
  unfold isEmptyEntry
  rcases h with h | h
  · rw [h.outOfLine_eq, if_neg (by simp), List.all_eq_true]
    simp only [List.mem_range, decide_eq_true_eq, and_true, Finset.eq_empty_iff_forall_notMem,
      ← h.mem, Occurs, WeakEntry.inlineSlots, nonNil_eq_some]
    constructor
    · rintro hzero p ⟨i, hi, rfl, hp0⟩
      exact hp0 (hzero i hi)
    · intro hnone i hi
      by_contra hne
      exact hnone _ ⟨i, hi, rfl, hne⟩
  · simp only [h.isOut, true_and, Bool.true_eq_false, and_false, iff_false]
    split_ifs with hnum
    · simp
    · have hmark : e.words 1 % 4 = 2 := of_decide_eq_true h.isOut
      have hzero : e.words 1 / 4 = 0 := not_not.mp hnum
      have hword : e.words 1 = 2 := by omega
      intro hall
      have hone := List.all_eq_true.mp hall 1 (by decide)
      simp [WeakEntry.inlineReferrer, undisguise, hword] at hone

include h in
/-- Unregistering removes the entry of the referent, if the test finds it empty, and else
replaces it. -/
theorem weakUnregister_spec (hmem : (r, x) ∈ reg) :
    ∃ t' e', weakUnregisterNoLock ptrHash t r x = .ok (t', []) ∧ WellFormed ptrHash t' ∧
      e'.referent = r ∧ Represents ptrHash e' (referrers (reg.erase (r, x)) r) ∧
      (e'.outOfLine = true ↔ OutOfLine t r) ∧
      ∀ a, Holds t' a ↔ isEmptyEntry e' = false ∧ a = e' ∨ a.referent ≠ r ∧ Holds t a := by
  have hxmem : x ∈ referrers reg r := mem_referrers.mpr hmem
  have hheld : ∃ e, Holds t e ∧ e.referent = r := by
    by_contra hnone
    push Not at hnone
    rw [h.complete r hnone] at hxmem
    exact Finset.notMem_empty x hxmem
  obtain ⟨e, he, rfl⟩ := hheld
  have hr : e.referent ≠ 0 := he.referent_ne_zero
  rw [referrers_erase_self]
  unfold weakUnregisterNoLock
  rcases weakEntryForReferent_spec h.wellFormed hr with
    ⟨entries, i, e0, ht, hi, hslot, href, hlookup⟩ | ⟨habsent, _⟩
  · obtain ⟨he0, hrep⟩ := h.of_slot ht hi hslot
    obtain rfl := ht.unique he0 he href
    obtain ⟨e', he', hrep', href', hout⟩ := removeReferrer_represents hrep hxmem
    obtain ⟨hok, hholds⟩ := setEntry_spec ht hi hslot href'
    have hout' : e'.outOfLine = true ↔ OutOfLine t e0.referent := by
      rw [hout]
      refine ⟨fun heo => ⟨e0, he, rfl, heo⟩, ?_⟩
      rintro ⟨a, ha, har, hao⟩
      rwa [← ht.unique he ha har.symm] at hao
    by_cases hempty : isEmptyEntry e' = true
    · have hslot' : entrySlots (update entries i e') i = some e' := by
        rw [entrySlots_update entries i (href' ▸ hr), update_self]
      obtain ⟨t2, ht2, hok2, hholds2⟩ := weakEntryRemove_spec hok hi hslot'
      refine ⟨t2, e', ?_, hok2, href', hrep', hout', fun a => ?_⟩
      · simp [hr, hlookup, he', hempty, ht2]
      · rw [hholds2, hholds, href', hempty]
        constructor
        · rintro ⟨hne, rfl | ha⟩
          · exact absurd href' hne
          · exact .inr ha
        · rintro (⟨⟨⟩, _⟩ | ha)
          exact ⟨ha.1, .inr ha⟩
    · refine ⟨setEntry t i e', e', ?_, .inr ⟨_, hok⟩, href', hrep', hout', fun a => ?_⟩
      · simp [hr, hlookup, he', hempty]
      · rw [hholds]
        simp [hempty]
  · exact absurd rfl (habsent e he)

include h in
/-- **Unregistering** a registered pair removes it and reports nothing. -/
theorem weakUnregister_refines (hmem : (r, x) ∈ reg) :
    ∃ t', weakUnregisterNoLock ptrHash t r x = .ok (t', []) ∧
      Refines ptrHash t' (reg.erase (r, x)) := by
  obtain ⟨t', e', ht', hwf, href, hrep, _, hholds⟩ := weakUnregister_spec h hmem
  have hreg : ∀ r', r' ≠ r → referrers (reg.erase (r, x)) r' = referrers reg r' :=
    fun r' hr' => referrers_erase_of_ne reg hr' x
  refine ⟨t', ht', ?_⟩
  by_cases hempty : isEmptyEntry e' = true
  · apply h.removeEntry hwf _ hreg ((isEmptyEntry_iff hrep).mp hempty).1
    intro a
    simpa [hempty] using hholds a
  · apply h.replaceEntry hwf href _ hreg hrep
    intro a
    simpa [hempty] using hholds a

/-! ## Clearing -/

/-- The loop sets to nil the listed variables that hold the referent, and no others. -/
theorem clearReferrers_mem (r : ℕ) (xs : List ℕ) :
    ∀ mem, (clearReferrers r xs mem).1 = fun y => if y ∈ xs ∧ mem y = r then 0 else mem y := by
  induction xs with
  | nil => simp [clearReferrers]
  | cons x xs ih =>
    intro mem
    rw [clearReferrers]
    split_ifs with hhold hother
    all_goals
      rw [ih]
      funext y
      by_cases hy : y = x
      · subst hy
        simp [hhold]
      · simp [hy]

/-- Nothing is reported when the variables hold the referent or nil. -/
theorem clearReferrers_informs (xs : List ℕ) :
    ∀ mem, (∀ x ∈ xs, mem x = r ∨ mem x = 0) → (clearReferrers r xs mem).2 = [] := by
  induction xs with
  | nil => intro mem _; rfl
  | cons x xs ih =>
    intro mem hmem
    have htail : ∀ y ∈ xs, mem y = r ∨ mem y = 0 := fun y hy =>
      hmem y (List.mem_cons_of_mem x hy)
    rw [clearReferrers]
    split_ifs with hhold hother
    · apply ih
      intro y hy
      by_cases hyx : y = x
      · right
        rw [hyx, update_self]
      · rw [update_of_ne hyx]
        exact htail y hy
    · rcases hmem x List.mem_cons_self with h | h
      · exact absurd h hhold
      · exact absurd h hother
    · exact ih mem htail

include h in
/-- **Clearing** a referent removes its pairs. Of the variables it sets to nil those that are
registered for the referent and hold it. -/
theorem weakClear_refines (hr : r ≠ 0) (mem : ℕ → ℕ) :
    ∃ t' informs, weakClearNoLock ptrHash t mem r =
        .ok (t', fun y => if (r, y) ∈ reg ∧ mem y = r then 0 else mem y, informs) ∧
      Refines ptrHash t' (reg.filter (·.1 ≠ r)) ∧
      ((∀ x, (r, x) ∈ reg → mem x = r) → informs = []) := by
  have hreg : ∀ r', r' ≠ r → referrers (reg.filter (·.1 ≠ r)) r' = referrers reg r' :=
    fun r' hr' => referrers_filter_of_ne reg hr'
  unfold weakClearNoLock
  rcases weakEntryForReferent_spec h.wellFormed hr with
    ⟨entries, i, e, ht, hi, hslot, rfl, hlookup⟩ | ⟨habsent, hlookup⟩
  · have hrep := (h.of_slot ht hi hslot).2
    obtain ⟨t', ht', hok', hholds⟩ := weakEntryRemove_spec ht hi hslot
    refine ⟨t', (clearReferrers e.referent (scan e) mem).2, ?_,
      h.removeEntry hok' hholds hreg (referrers_filter_self reg _), ?_⟩
    · have hmem := clearReferrers_mem e.referent (scan e) mem
      simp only [hrep.mem_scan, mem_referrers] at hmem
      simp [hlookup, ht', ← hmem]
    · intro hall
      apply clearReferrers_informs
      intro x hx
      exact .inl (hall x (mem_referrers.mp ((hrep.mem_scan x).mp hx)))
  · have hnone : referrers reg r = ∅ := h.complete r habsent
    have hpair : ∀ y, (r, y) ∉ reg := by
      intro y hy
      have hy := mem_referrers.mpr hy
      rw [hnone] at hy
      exact Finset.notMem_empty y hy
    refine ⟨t, [], ?_, ?_, fun _ => rfl⟩
    · simp [hlookup, hpair]
    · have hsame : reg.filter (·.1 ≠ r) = reg := by
        apply Finset.filter_true_of_mem
        rintro ⟨r', y⟩ hy rfl
        exact hpair y hy
      rw [hsame]
      exact h

end Refinement

/-! ## Whole runs -/

/-- The weak table, the memory with the weak variables, and the reports so far. -/
structure State where
  table : WeakTable
  mem : ℕ → ℕ
  informs : List Inform

/-- The calls of a program. A registered variable is stored into right after
`weak_register_no_lock`, as `storeWeak` (`NSObject.mm`, 330–343) does; `store` is any other
write of the program. -/
inductive Op where
  | register (calloc : Calloc) (info : ReferentInfo) (crashIfDeallocating : Bool)
      (referent referrer : ℕ)
  | unregister (referent referrer : ℕ)
  | clear (referent : ℕ)
  | store (address value : ℕ)

def exec (ptrHash : ℕ → ℕ) (s : State) : Op → Except Fatal State
  | .register calloc info crashIfDeallocating referent referrer => do
    let (table, newObj) ←
      weakRegisterNoLock ptrHash calloc s.table info referent referrer crashIfDeallocating
    return { s with table := table, mem := update s.mem referrer newObj }
  | .unregister referent referrer => do
    let (table, informs) ← weakUnregisterNoLock ptrHash s.table referent referrer
    return { s with table := table, informs := s.informs ++ informs }
  | .clear referent => do
    let (table, mem, informs) ← weakClearNoLock ptrHash s.table s.mem referent
    return ⟨table, mem, s.informs ++ informs⟩
  | .store address value => .ok { s with mem := update s.mem address value }

/-- What a call does to the set of registered pairs. -/
def Registry.apply (reg : Registry) : Op → Registry
  | .register _ _ _ referent referrer => insert (referent, referrer) reg
  | .unregister referent referrer => reg.erase (referent, referrer)
  | .clear referent => reg.filter (·.1 ≠ referent)
  | .store _ _ => reg

/-- The variable at `x` is not registered. -/
def Unregistered (reg : Registry) (x : ℕ) : Prop := ∀ p ∈ reg, p.2 ≠ x

/-- The rules of use: a variable is registered only while it is not registered, for an object
that can have weak references; it is unregistered only while registered; and while it is
registered the program does not write to it. -/
def Allowed (reg : Registry) : Op → Prop
  | .register _ info _ referent referrer =>
    Viable info ∧ referent ≠ 0 ∧ Aligned referrer ∧ referrer ≠ 0 ∧ Unregistered reg referrer
  | .unregister referent referrer => (referent, referrer) ∈ reg
  | .clear referent => referent ≠ 0
  | .store address _ => Unregistered reg address

instance (reg : Registry) (x : ℕ) : Decidable (Unregistered reg x) :=
  inferInstanceAs (Decidable (∀ p ∈ reg, p.2 ≠ x))

instance (reg : Registry) : (op : Op) → Decidable (Allowed reg op)
  | .register .. => inferInstanceAs (Decidable (_ ∧ _))
  | .unregister .. => inferInstanceAs (Decidable (_ ∈ reg))
  | .clear _ => inferInstanceAs (Decidable (_ ≠ _))
  | .store .. => inferInstanceAs (Decidable (Unregistered reg _))

/-- Every call of the sequence is allowed when it is made. -/
def Disciplined : Registry → List Op → Prop
  | _, [] => True
  | reg, op :: ops => Allowed reg op ∧ Disciplined (reg.apply op) ops

instance Disciplined.decidable : (reg : Registry) → (ops : List Op) →
    Decidable (Disciplined reg ops)
  | _, [] => isTrue trivial
  | reg, op :: ops =>
    have := Disciplined.decidable (reg.apply op) ops
    inferInstanceAs (Decidable (Allowed reg op ∧ Disciplined (reg.apply op) ops))

/-- The pairs that are registered after the calls. -/
def registered (ops : List Op) : Registry := ops.foldl Registry.apply ∅

/-- `weak_entry_for_referent` and a scan of the entry. -/
def scanReferent (ptrHash : ℕ → ℕ) (t : WeakTable) (referent : ℕ) : Except Fatal (List ℕ) := do
  match ← weakEntryForReferent ptrHash t referent with
  | none => return []
  | some (_, entry) => return scan entry

section Runs

variable (ptrHash : ℕ → ℕ)

/-- The table refines the registered pairs, the registered variables hold their referents, and
nothing has been reported. -/
structure Tracks (s : State) (reg : Registry) : Prop where
  refines : Refines ptrHash s.table reg
  holds : ∀ r x, (r, x) ∈ reg → s.mem x = r
  quiet : s.informs = []

variable {ptrHash} {s : State} {reg : Registry}

theorem Unregistered.ne (h : Unregistered reg x) {y : ℕ} (hy : (r, y) ∈ reg) : y ≠ x :=
  h (r, y) hy

/-- One call. -/
theorem exec_tracks (h : Tracks ptrHash s reg) {op : Op} (hop : Allowed reg op) :
    ∃ s', exec ptrHash s op = .ok s' ∧ Tracks ptrHash s' (reg.apply op) := by
  cases op with
  | register calloc info crash r x =>
    obtain ⟨hinfo, hr, hx, hx0, hfree⟩ := hop
    have hnew : (r, x) ∉ reg := fun hmem => hfree.ne hmem rfl
    obtain ⟨t', ht', h'⟩ := weakRegister_refines calloc h.refines hinfo hr hx hx0 hnew crash
    refine ⟨{ s with table := t', mem := update s.mem x r }, ?_, h', ?_, h.quiet⟩
    · simp [exec, ht']
    · intro r' y hy
      rcases Finset.mem_insert.mp hy with heq | hold
      · cases heq
        exact update_self ..
      · show update s.mem x r y = r'
        rw [update_of_ne (hfree.ne hold)]
        exact h.holds r' y hold
  | unregister r x =>
    obtain ⟨t', ht', h'⟩ := weakUnregister_refines h.refines hop
    refine ⟨{ s with table := t', informs := s.informs ++ [] }, ?_, h', ?_, ?_⟩
    · simp [exec, ht']
    · intro r' y hy
      exact h.holds r' y (Finset.mem_of_mem_erase hy)
    · simp [h.quiet]
  | clear r =>
    obtain ⟨t', informs, ht', h', hquiet⟩ := weakClear_refines h.refines hop s.mem
    rw [hquiet (h.holds r)] at ht'
    set mem := fun y => if (r, y) ∈ reg ∧ s.mem y = r then 0 else s.mem y
    refine ⟨⟨t', mem, s.informs ++ []⟩, ?_, h', ?_, ?_⟩
    · simp [exec, ht']
    · intro r' y hy
      obtain ⟨hold, hne⟩ := Finset.mem_filter.mp hy
      have hmem := h.holds r' y hold
      have hneg : ¬ ((r, y) ∈ reg ∧ s.mem y = r) := fun hboth => hne (hmem.symm.trans hboth.2)
      exact (if_neg hneg).trans hmem
    · simp [h.quiet]
  | store x v =>
    refine ⟨_, rfl, h.refines, ?_, h.quiet⟩
    intro r y hy
    show update s.mem x v y = r
    rw [update_of_ne (Unregistered.ne hop hy)]
    exact h.holds r y hy

/-- A sequence of calls. -/
theorem foldlM_exec_tracks (ops : List Op) :
    ∀ {s : State} {reg : Registry}, Tracks ptrHash s reg → Disciplined reg ops →
      ∃ s', ops.foldlM (exec ptrHash) s = .ok s' ∧
        Tracks ptrHash s' (ops.foldl Registry.apply reg) := by
  induction ops with
  | nil =>
    intro s reg h _
    exact ⟨s, rfl, h⟩
  | cons op ops ih =>
    intro s reg h hops
    obtain ⟨s1, hs1, h1⟩ := exec_tracks h hops.1
    obtain ⟨s2, hs2, h2⟩ := ih h1 hops.2
    refine ⟨s2, ?_, h2⟩
    rw [List.foldlM_cons, hs1]
    exact hs2

theorem scanReferent_tracks (h : Tracks ptrHash s reg) (hr : r ≠ 0) :
    ∃ xs, scanReferent ptrHash s.table r = .ok xs ∧ xs.Nodup ∧ ∀ x, x ∈ xs ↔ (r, x) ∈ reg := by
  unfold scanReferent
  rcases weakEntryForReferent_spec h.refines.wellFormed hr with
    ⟨entries, i, e, ht, hi, hslot, rfl, hlookup⟩ | ⟨habsent, hlookup⟩
  · have hrep := (h.refines.of_slot ht hi hslot).2
    refine ⟨scan e, by simp [hlookup], hrep.scan_nodup, fun x => ?_⟩
    rw [hrep.mem_scan, mem_referrers]
  · refine ⟨[], by simp [hlookup], List.nodup_nil, fun x => ?_⟩
    rw [← mem_referrers, h.refines.complete r habsent]
    simp

theorem weakClear_tracks (h : Tracks ptrHash s reg) (hr : r ≠ 0) :
    ∃ t', weakClearNoLock ptrHash s.table s.mem r =
      .ok (t', fun x => if (r, x) ∈ reg then 0 else s.mem x, []) := by
  obtain ⟨t', informs, ht', _, hquiet⟩ := weakClear_refines h.refines hr s.mem
  rw [hquiet (h.holds r)] at ht'
  refine ⟨t', ht'.trans ?_⟩
  congr 3
  funext x
  by_cases hx : (r, x) ∈ reg
  · simp [h.holds r x hx]
  · simp [hx]

end Runs

/-- **The weak table is a map from referents to sets of referrers.** For every hash function
and every sequence of calls that keeps the rules of use, no call fails, the scan of the entry
of a referent gives each of its registered referrers once and nothing else, and clearing the
referent sets exactly those variables to nil. -/
theorem weakTable_run (ptrHash : ℕ → ℕ) (mem : ℕ → ℕ) (ops : List Op) (h : Disciplined ∅ ops) :
    ∃ s, ops.foldlM (exec ptrHash) ⟨.init, mem, []⟩ = .ok s ∧ s.informs = [] ∧ ∀ r, r ≠ 0 →
        (∃ xs, scanReferent ptrHash s.table r = .ok xs ∧ xs.Nodup ∧
          ∀ x, x ∈ xs ↔ (r, x) ∈ registered ops) ∧ ∃ t, weakClearNoLock ptrHash s.table s.mem r =
          .ok (t, fun x => if (r, x) ∈ registered ops then 0 else s.mem x, []) := by
  have hinit : Tracks ptrHash ⟨.init, mem, []⟩ ∅ := ⟨refines_init, by simp, rfl⟩
  obtain ⟨s, hs, htracks⟩ := foldlM_exec_tracks ops hinit h
  exact ⟨s, hs, htracks.quiet, fun r hr =>
    ⟨scanReferent_tracks htracks hr, weakClear_tracks htracks hr⟩⟩

/-- An allocator for the runs below. -/
def callocAbove : Calloc := ⟨fun n => 65536 + n, by simp⟩

/-- Six variables for the object at 4096, which moves its entry out of line, then one of them
for another object. -/
def eightCalls : List Op :=
  let alive : ReferentInfo := ⟨false, false, false, none⟩
  [8, 16, 24, 32, 40, 48].map (Op.register callocAbove alive true 4096) ++
    [.unregister 4096 24, .register callocAbove alive true 8192 24]

theorem weakTable_run_eightCalls : Disciplined ∅ eightCalls ∧
      ∃ s, eightCalls.foldlM (exec id) ⟨.init, fun _ => 0, []⟩ = .ok s ∧ s.informs = [] ∧
        ∀ r, r ≠ 0 → (∃ xs, scanReferent id s.table r = .ok xs ∧ xs.Nodup ∧
            ∀ x, x ∈ xs ↔ (r, x) ∈ registered eightCalls) ∧
          ∃ t, weakClearNoLock id s.table s.mem r =
            .ok (t, fun x => if (r, x) ∈ registered eightCalls then 0 else s.mem x, []) := by
  have hallowed : Disciplined ∅ eightCalls := by decide
  exact ⟨hallowed, weakTable_run id (fun _ => 0) eightCalls hallowed⟩

end Apple.Objc.Weak
