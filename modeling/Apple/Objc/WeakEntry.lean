import Apple.Lib.Outcome
import Apple.Lib.Probing

/-!
# Entries of the weak table

`weak_entry_t` (`objc4-750/runtime/objc-weak.h`, 80–113) is the set of the addresses of the
weak variables that refer to one object. Up to four of them are kept inline, in the same four
words that hold the header of the out-of-line hash table. This module has the two operations
on an entry, `append_referrer` and `remove_referrer` (`objc-weak.mm`, 75–205), with the
growing of the hash table.

Sizes and counts are natural numbers: `calloc` is taken to succeed, and a block that fits into
the address space has so few slots that no `size_t` computation on them wraps.

Results:
* `appendReferrer_represents`: appending adds one referrer to the represented set, through the
  conversion to the out-of-line form and through growth, and never finds a bad table.
* `removeReferrer_represents`: removing takes one referrer out of the set.
* `Represents.scan_nodup`, `Represents.mem_scan`: a scan of the entry gives each referrer of
  the set once.
-/

namespace Apple.Objc.Weak

open Apple.Lib Function List

/-! ## The representation -/

/-- `DisguisedPtr::disguise` (`objc-private.h`, 855–857): the negated address. -/
def disguise (ptr : ℕ) : ℕ := (2 ^ 64 - ptr) % 2 ^ 64

/-- `DisguisedPtr::undisguise` (`objc-private.h`, 859–861). -/
def undisguise (val : ℕ) : ℕ := (2 ^ 64 - val) % 2 ^ 64

/-- A pointer as an option: nil is no pointer. -/
def nonNil (ptr : ℕ) : Option ℕ := if ptr = 0 then none else some ptr

/-- What ends the process in these functions. -/
inductive Fatal where
  /-- `bad_weak_table` (42–46): "bad weak table at %p. This may be a runtime bug or a memory
      error somewhere else." -/
  | badWeakTable
  /-- "Cannot form weak reference to instance (%p) of class %s. It is possible that this object
      was over-released, or is in the process of deallocation." -/
  | cannotFormWeakReference (referent : ℕ)
  /-- `assert(weak_entries != nil)` (214). -/
  | nilEntries
  /-- The calls of `append_referrer` and `grow_refs_and_insert` are nested too deeply. -/
  | stackOverflow
deriving DecidableEq, Repr

/-- What is reported with `_objc_inform` and `objc_weak_error`. -/
inductive Inform where
  /-- "Attempted to unregister unknown __weak variable at %p. This is probably incorrect use of
      objc_storeWeak() and objc_loadWeak()." -/
  | unknownVariable (referrer : ℕ)
  /-- "__weak variable at %p holds %p instead of %p. This is probably incorrect use of
      objc_storeWeak() and objc_loadWeak()." -/
  | holdsInstead (referrer held referent : ℕ)
deriving DecidableEq, Repr

/-- `WEAK_INLINE_COUNT` (`objc-weak.h`, 73). -/
def weakInlineCount : ℕ := 4

/-- `REFERRERS_OUT_OF_LINE` (`objc-weak.h`, 80). -/
def referrersOutOfLine : ℕ := 2

/-- `weak_entry_t`. The four words of the union are `words 0`, …, `words 3`; `block` is the
memory that the word `referrers` points to when the entry is out of line, with the
addresses it holds undisguised. -/
structure WeakEntry where
  referent : ℕ
  words : ℕ → ℕ
  block : ℕ → ℕ

/-- The address that `calloc` returns for a block of so many slots. -/
structure Calloc where
  addr : ℕ → ℕ
  addr_ne_zero : ∀ n, addr n ≠ 0

namespace WeakEntry

/-- Memory filled with zeros. -/
def zero : WeakEntry := ⟨0, fun _ => 0, fun _ => 0⟩

variable (e : WeakEntry)

/-- `inline_referrers[i]`. -/
def inlineReferrer (i : ℕ) : ℕ := undisguise (e.words i)

def setInlineReferrer (i ptr : ℕ) : WeakEntry :=
  { e with words := update e.words i (disguise ptr) }

/-- The low two bits of the second word. -/
def outOfLineNess : ℕ := e.words 1 % 4

/-- The other bits of the second word. -/
def numRefs : ℕ := e.words 1 / 4

def mask : ℕ := e.words 2

def maxHashDisplacement : ℕ := e.words 3

/-- `referrers[i]`. -/
def referrer (i : ℕ) : ℕ := e.block i

def setReferrers (addr : ℕ) (block : ℕ → ℕ) : WeakEntry :=
  { e with words := update e.words 0 addr, block := block }

def setReferrer (i ptr : ℕ) : WeakEntry := { e with block := update e.block i ptr }

def setOutOfLineNess (n : ℕ) : WeakEntry :=
  { e with words := update e.words 1 (4 * (e.words 1 / 4) + n % 4) }

def setNumRefs (n : ℕ) : WeakEntry :=
  { e with words := update e.words 1 (4 * n + e.words 1 % 4) }

def setMask (n : ℕ) : WeakEntry := { e with words := update e.words 2 n }

def setMaxHashDisplacement (n : ℕ) : WeakEntry := { e with words := update e.words 3 n }

/-- `weak_entry_t::out_of_line` (`objc-weak.h`, 96–98). -/
def outOfLine : Bool := e.outOfLineNess = referrersOutOfLine

/-- `TABLE_SIZE` (`objc-weak.mm`, 33). -/
def tableSize : ℕ := if e.mask ≠ 0 then e.mask + 1 else 0

/-- The inline slots as a table. -/
def inlineSlots (i : ℕ) : Option ℕ := nonNil (e.inlineReferrer i)

/-- The out-of-line slots as a table. -/
def slots (i : ℕ) : Option ℕ := nonNil (e.referrer i)

end WeakEntry

/-- The constructor `weak_entry_t(newReferent, newReferrer)` (`objc-weak.h`, 105–112). -/
def newWeakEntry (newReferent newReferrer : ℕ) : WeakEntry :=
  { referent := newReferent
    words := fun i => if i = 0 then disguise newReferrer else disguise 0
    block := fun _ => 0 }

/-- The probing order `(index + 1) & mask`. -/
def nextIndex (mask index : ℕ) : ℕ := (index + 1) &&& mask

/-! ## Appending and removing -/

section Operations

-- `ptr_hash`, as called by `hash_pointer` and `w_hash_pointer` (objc-weak.mm, 55–68)
variable (ptrHash : ℕ → ℕ) (calloc : Calloc)

/-- Where the search for a pointer begins. -/
def hashBegin (mask ptr : ℕ) : ℕ := ptrHash ptr &&& mask

/-- The loop of `grow_refs_and_insert` (94–99) over the old slots `is`. -/
def reinsertRefs (append : WeakEntry → ℕ → Except Fatal WeakEntry) (oldRefs : ℕ → ℕ) :
    (is : List ℕ) → (numRefs : ℕ) → WeakEntry → Except Fatal WeakEntry
  | [], _, e => .ok e
  | i :: is, numRefs, e =>
    if numRefs > 0 then
      if oldRefs i ≠ 0 then do
        let e ← append e (oldRefs i)
        reinsertRefs append oldRefs is (numRefs - 1) e
      else reinsertRefs append oldRefs is numRefs e
    else .ok e

/-- The empty table that `grow_refs_and_insert` allocates (87–92). -/
def freshTable (e : WeakEntry) (newSize : ℕ) : WeakEntry :=
  let fresh := e.setMask (newSize - 1)
  let fresh := fresh.setReferrers (calloc.addr fresh.tableSize) fun _ => 0
  (fresh.setNumRefs 0).setMaxHashDisplacement 0

/-- `grow_refs_and_insert` (76–103), with the function it calls to insert. -/
def growRefsAndInsert (append : WeakEntry → ℕ → Except Fatal WeakEntry) (e : WeakEntry)
    (newReferrer : ℕ) : Except Fatal WeakEntry := do
  let oldSize := e.tableSize
  let newSize := if oldSize ≠ 0 then oldSize * 2 else 8
  let e ← reinsertRefs append e.block (List.range oldSize) e.numRefs (freshTable calloc e newSize)
  append e newReferrer

/-- The conversion of a full inline entry (125–137). -/
def moveOutOfLine (e : WeakEntry) : WeakEntry :=
  let e := e.setReferrers (calloc.addr weakInlineCount) fun i =>
    if i < weakInlineCount then e.inlineReferrer i else 0
  (((e.setNumRefs weakInlineCount).setOutOfLineNess referrersOutOfLine).setMask
    (weakInlineCount - 1)).setMaxHashDisplacement 0

/-- The end of the insertion (151–157): the displacement, the slot and the count. -/
def storeReferrer (e : WeakEntry) (index hashDisplacement newReferrer : ℕ) : WeakEntry :=
  let e := if hashDisplacement > e.maxHashDisplacement then
      e.setMaxHashDisplacement hashDisplacement
    else e
  let e := e.setReferrer index newReferrer
  e.setNumRefs (e.numRefs + 1)

/-- The insertion into the out-of-line table (145–157). -/
def insertReferrer (e : WeakEntry) (newReferrer : ℕ) : Except Fatal WeakEntry :=
  let begin := hashBegin ptrHash e.mask newReferrer
  let full := fun index => e.referrer index ≠ 0
  match probeFree (nextIndex e.mask) (full ·) begin (e.mask + 1) begin 0 with
  | none => .error .badWeakTable
  | some (index, hashDisplacement) => .ok (storeReferrer e index hashDisplacement newReferrer)

/-- The end of `append_referrer` (141–157), for an entry that is out of line. -/
def appendOutOfLine (grow : WeakEntry → ℕ → Except Fatal WeakEntry) (e : WeakEntry)
    (newReferrer : ℕ) : Except Fatal WeakEntry :=
  if e.numRefs ≥ e.tableSize * 3 / 4 then grow e newReferrer
  else insertReferrer ptrHash e newReferrer

/-- `append_referrer` (113–158). It and `grow_refs_and_insert` call each other; `depth` bounds
the nesting. -/
def appendReferrer : (depth : ℕ) → WeakEntry → ℕ → Except Fatal WeakEntry
  | 0, _, _ => .error .stackOverflow
  | depth + 1, e, newReferrer =>
    let append := appendOutOfLine ptrHash (growRefsAndInsert calloc (appendReferrer depth))
    if ¬ e.outOfLine then
      match (List.range weakInlineCount).find? fun i => e.inlineReferrer i = 0 with
      | some i => .ok (e.setInlineReferrer i newReferrer)
      | none => append (moveOutOfLine calloc e) newReferrer
    else append e newReferrer

/-- `remove_referrer` (169–205). -/
def removeReferrer (e : WeakEntry) (oldReferrer : ℕ) : Except Fatal (WeakEntry × List Inform) :=
  if ¬ e.outOfLine then
    match (List.range weakInlineCount).find? fun i => e.inlineReferrer i = oldReferrer with
    | some i => .ok (e.setInlineReferrer i 0, [])
    | none => .ok (e, [.unknownVariable oldReferrer])
  else
    let begin := hashBegin ptrHash e.mask oldReferrer
    let hit := fun index => e.referrer index = oldReferrer
    match probeHit (nextIndex e.mask) (hit ·) begin e.maxHashDisplacement (e.mask + 1) begin 0 with
    | .bad => .error .badWeakTable
    | .absent => .ok (e, [.unknownVariable oldReferrer])
    | .found index =>
      let e := e.setReferrer index 0
      .ok (e.setNumRefs (e.numRefs - 1), [])

/-- The slots that `weak_clear_no_lock` (474–486) looks at, without the empty ones. -/
def scan (e : WeakEntry) : List ℕ :=
  if e.outOfLine then items e.tableSize e.slots else items weakInlineCount e.inlineSlots

end Operations

/-! ## Words and slots -/

/-- The address of a pointer variable. -/
def Aligned (ptr : ℕ) : Prop := ptr < 2 ^ 64 ∧ ptr % 8 = 0

instance (ptr : ℕ) : Decidable (Aligned ptr) := inferInstanceAs (Decidable (_ ∧ _))

theorem undisguise_disguise {ptr : ℕ} (h : ptr < 2 ^ 64) : undisguise (disguise ptr) = ptr := by
  unfold undisguise disguise
  omega

/-- An aligned address leaves zeros where `out_of_line_ness` is. -/
theorem disguise_mod_four {ptr : ℕ} (h : Aligned ptr) : disguise ptr % 4 = 0 := by
  obtain ⟨hlt, hmod⟩ := h
  unfold disguise
  omega

variable {p q i m mask : ℕ}

theorem nonNil_eq_some : nonNil p = some q ↔ p = q ∧ q ≠ 0 := by
  unfold nonNil
  split_ifs with h
  · simp [h, eq_comm]
  · constructor
    · rintro ⟨⟩
      exact ⟨rfl, h⟩
    · rintro ⟨rfl, _⟩
      rfl

theorem nonNil_of_ne_zero (h : p ≠ 0) : nonNil p = some p := if_neg h

theorem nonNil_zero : nonNil 0 = none := rfl

theorem nonNil_isSome (p : ℕ) : decide (p ≠ 0) = (nonNil p).isSome := by
  unfold nonNil
  split_ifs with h <;> simp [h]

theorem slots_update {e e' : WeakEntry} (h : e'.block = update e.block i p) :
    e'.slots = update e.slots i (nonNil p) := by
  funext j
  by_cases hji : j = i
  · subst hji
    simp [WeakEntry.slots, WeakEntry.referrer, h]
  · simp [WeakEntry.slots, WeakEntry.referrer, h, hji]

theorem inlineSlots_setInlineReferrer (e : WeakEntry) (i : ℕ) (hp : p < 2 ^ 64) :
    (e.setInlineReferrer i p).inlineSlots = update e.inlineSlots i (nonNil p) := by
  funext j
  by_cases h : j = i
  · subst h
    simp [WeakEntry.inlineSlots, WeakEntry.inlineReferrer, WeakEntry.setInlineReferrer,
      undisguise_disguise hp]
  · simp [WeakEntry.inlineSlots, WeakEntry.inlineReferrer, WeakEntry.setInlineReferrer, h]

/-! ## Masks of powers of two -/

theorem and_mask (h : mask + 1 = 2 ^ m) (x : ℕ) : x &&& mask = x % (mask + 1) := by
  obtain rfl : mask = 2 ^ m - 1 := by omega
  rw [Nat.and_two_pow_sub_one_eq_mod, h]

theorem cyclic_nextIndex (h : mask + 1 = 2 ^ m) : Cyclic (mask + 1) (nextIndex mask) := by
  have heq : nextIndex mask = fun i => (i + 1) % (mask + 1) := by
    funext i
    exact and_mask h (i + 1)
  rw [heq]
  exact cyclic_succ (Nat.succ_pos mask)

theorem hashBegin_lt (ptrHash : ℕ → ℕ) (h : mask + 1 = 2 ^ m) (ptr : ℕ) :
    hashBegin ptrHash mask ptr < mask + 1 := by
  unfold hashBegin
  rw [and_mask h]
  exact Nat.mod_lt _ (Nat.succ_pos mask)

/-! ## The represented set -/

section Represents

variable (ptrHash : ℕ → ℕ)

/-- The entry keeps the set `S` in its inline slots. -/
structure InlineSet (e : WeakEntry) (S : Finset ℕ) : Prop where
  aligned : ∀ i, i < weakInlineCount → ∃ p, Aligned p ∧ e.words i = disguise p
  distinct : DistinctKeys weakInlineCount id e.inlineSlots
  mem : ∀ p, Occurs weakInlineCount e.inlineSlots p ↔ p ∈ S

/-- The entry keeps the set `S` in a hash table. -/
structure HashSet (e : WeakEntry) (S : Finset ℕ) : Prop where
  isOut : e.outOfLine = true
  size : ∃ m, 3 ≤ m ∧ e.mask + 1 = 2 ^ m
  probed : Probed (e.mask + 1) (nextIndex e.mask) (hashBegin ptrHash e.mask) id e.slots
    e.maxHashDisplacement
  count : (occupied (e.mask + 1) e.slots).card = e.numRefs
  load : 4 * e.numRefs ≤ 3 * (e.mask + 1)
  mem : ∀ p, Occurs (e.mask + 1) e.slots p ↔ p ∈ S

/-- The entry keeps the set `S`. -/
def Represents (e : WeakEntry) (S : Finset ℕ) : Prop := InlineSet e S ∨ HashSet ptrHash e S

variable {ptrHash} {e : WeakEntry} {S : Finset ℕ}

/-- A disguised aligned pointer is never read as the out-of-line mark. -/
theorem InlineSet.outOfLine_eq (h : InlineSet e S) : e.outOfLine = false := by
  obtain ⟨p, hp, hword⟩ := h.aligned 1 (by decide)
  simp [WeakEntry.outOfLine, WeakEntry.outOfLineNess, hword, disguise_mod_four hp,
    referrersOutOfLine]

theorem HashSet.eight_le (h : HashSet ptrHash e S) : 8 ≤ e.mask + 1 := by
  obtain ⟨m, hm, hsize⟩ := h.size
  calc 8 = 2 ^ 3 := rfl
    _ ≤ 2 ^ m := Nat.pow_le_pow_right Nat.two_pos hm
    _ = e.mask + 1 := hsize.symm

theorem HashSet.tableSize_eq (h : HashSet ptrHash e S) : e.tableSize = e.mask + 1 := by
  have := h.eight_le
  exact if_pos (by omega)

variable (h : Represents ptrHash e S)

include h in
theorem Represents.ne_zero (hp : p ∈ S) : p ≠ 0 := by
  rcases h with h | h
  all_goals
    obtain ⟨i, _, hi⟩ := (h.mem p).mpr hp
    exact (nonNil_eq_some.mp hi).2

include h in
theorem Represents.scan_nodup : (scan e).Nodup := by
  unfold scan
  rcases h with h | h
  · rw [h.outOfLine_eq]
    exact h.distinct.nodup_items
  · rw [h.isOut, h.tableSize_eq]
    exact h.probed.distinct.nodup_items

include h in
theorem Represents.mem_scan (p : ℕ) : p ∈ scan e ↔ p ∈ S := by
  unfold scan
  rcases h with h | h
  · rw [h.outOfLine_eq, ← h.mem]
    exact mem_items
  · rw [h.isOut, h.tableSize_eq, ← h.mem]
    exact mem_items

theorem newWeakEntry_represents (r : ℕ) (hp : Aligned p) (hp0 : p ≠ 0) :
    Represents ptrHash (newWeakEntry r p) {p} := by
  have hslots : (newWeakEntry r p).inlineSlots = update (fun _ => none) 0 (some p) := by
    funext i
    by_cases hi : i = 0
    · subst hi
      simp [WeakEntry.inlineSlots, WeakEntry.inlineReferrer, newWeakEntry,
        undisguise_disguise hp.1, nonNil_of_ne_zero hp0]
    · simp [WeakEntry.inlineSlots, WeakEntry.inlineReferrer, newWeakEntry, hi,
        undisguise_disguise (by decide : 0 < 2 ^ 64), nonNil_zero]
  left
  constructor
  · intro i _
    by_cases hi : i = 0
    · exact ⟨p, hp, by simp [newWeakEntry, hi]⟩
    · exact ⟨0, by decide, by simp [newWeakEntry, hi]⟩
  · rw [hslots]
    exact DistinctKeys.set (by simp [DistinctKeys]) (by simp)
  · intro q
    rw [hslots, occurs_insert (by decide) rfl]
    simp [Occurs]

/-! ## Appending -/

theorem storeReferrer_fields (e : WeakEntry) (index disp p : ℕ) :
    (storeReferrer e index disp p).referent = e.referent ∧
      (storeReferrer e index disp p).outOfLine = e.outOfLine ∧
      (storeReferrer e index disp p).mask = e.mask ∧
      (storeReferrer e index disp p).numRefs = e.numRefs + 1 ∧
      (storeReferrer e index disp p).maxHashDisplacement = max e.maxHashDisplacement disp ∧
      (storeReferrer e index disp p).block = update e.block index p := by
  unfold storeReferrer WeakEntry.outOfLine WeakEntry.outOfLineNess WeakEntry.mask WeakEntry.numRefs
    WeakEntry.maxHashDisplacement WeakEntry.setMaxHashDisplacement WeakEntry.setReferrer
    WeakEntry.setNumRefs
  split_ifs with h
  · simp
    omega
  · simp
    omega

/-- The insertion into a table with room. -/
theorem insertReferrer_hashSet (h : HashSet ptrHash e S)
    (hroom : e.numRefs < e.tableSize * 3 / 4) (hp : p ≠ 0) (hpS : p ∉ S) :
    ∃ e', insertReferrer ptrHash e p = .ok e' ∧ HashSet ptrHash e' (insert p S) ∧
      e'.referent = e.referent ∧ e'.mask = e.mask ∧ e'.numRefs = e.numRefs + 1 := by
  obtain ⟨m, hm, hsize⟩ := h.size
  rw [h.tableSize_eq] at hroom
  have hbegin := hashBegin_lt ptrHash hsize p
  have hfree : (occupied (e.mask + 1) e.slots).card < e.mask + 1 := by
    rw [h.count]
    omega
  obtain ⟨d, hd, hnone, -, hprobe⟩ := probeFree_eq (cyclic_nextIndex hsize) hbegin hfree
    fun i => nonNil_isSome (e.referrer i)
  rw [h.count] at hd
  have hindex := (cyclic_nextIndex hsize).iterate_lt hbegin d
  have hoccurs : ∀ q, Occurs (e.mask + 1) e.slots q → id q ≠ id p := by
    rintro q hq rfl
    exact hpS ((h.mem _).mp hq)
  obtain ⟨href, hout, hmask, hnum, hmax, hblock⟩ :=
    storeReferrer_fields e ((nextIndex e.mask)^[d] (hashBegin ptrHash e.mask p)) d p
  have hslots := slots_update hblock
  rw [nonNil_of_ne_zero hp] at hslots
  refine ⟨_, by simp only [insertReferrer, hprobe], ?_, href, hmask, hnum⟩
  constructor
  · rw [hout, h.isOut]
  · rw [hmask]
    exact ⟨m, hm, hsize⟩
  · rw [hmask, hslots, hmax]
    exact h.probed.insert rfl (by omega) hoccurs
  · rw [hmask, hslots, hnum, card_occupied_insert hindex hnone, h.count]
  · omega
  · intro q
    rw [hmask, hslots, occurs_insert hindex hnone, h.mem, Finset.mem_insert]

variable (calloc : Calloc)

theorem appendReferrer_outOfLine (hout : e.outOfLine = true) (depth : ℕ) :
    appendReferrer ptrHash calloc (depth + 1) e p =
      appendOutOfLine ptrHash (growRefsAndInsert calloc (appendReferrer ptrHash calloc depth))
        e p := by
  simp [appendReferrer, hout]

/-- Appending a whole list to an empty table that has room for it. -/
theorem foldlM_appendReferrer (depth : ℕ) {L : List ℕ} (h : HashSet ptrHash e ∅)
    (hnum : e.numRefs = 0) (hnodup : L.Nodup) (h0 : 0 ∉ L) (hroom : L.length ≤ e.tableSize * 3 / 4) :
    ∃ e', L.foldlM (appendReferrer ptrHash calloc (depth + 1)) e = .ok e' ∧
      HashSet ptrHash e' L.toFinset ∧ e'.referent = e.referent := by
  have hstep : ∀ pre p e₁, pre ++ [p] <+: L →
      (HashSet ptrHash e₁ pre.toFinset ∧ e₁.referent = e.referent ∧ e₁.mask = e.mask ∧
        e₁.numRefs = pre.length) → ∃ e₂, appendReferrer ptrHash calloc (depth + 1) e₁ p = .ok e₂ ∧
      HashSet ptrHash e₂ (pre ++ [p]).toFinset ∧ e₂.referent = e.referent ∧ e₂.mask = e.mask ∧
        e₂.numRefs = (pre ++ [p]).length := by
    rintro pre p e₁ hpre ⟨h₁, href, hmask, hnum⟩
    have hlen := hpre.length_le
    rw [length_append, length_singleton] at hlen
    have hsize : e₁.tableSize = e.tableSize := by
      rw [h₁.tableSize_eq, hmask, h.tableSize_eq]
    have hnew : p ∉ pre := fun hp =>
      (nodup_append.mp (hnodup.sublist hpre.sublist)).2.2 p hp p mem_cons_self rfl
    obtain ⟨e₂, he₂, h₂, href₂, hmask₂, hnum₂⟩ := insertReferrer_hashSet h₁ (by omega)
      (ne_of_mem_of_not_mem (hpre.subset mem_concat_self) h0) (by simpa using hnew)
    refine ⟨e₂, ?_, ?_, href₂.trans href, hmask₂.trans hmask, by simp [hnum₂, hnum]⟩
    · rw [appendReferrer_outOfLine calloc h₁.isOut, appendOutOfLine, if_neg (by omega), he₂]
    · rwa [toFinset_append, Finset.union_comm]
  obtain ⟨e', he', h', href, -⟩ := foldlM_prefix ⟨h, rfl, rfl, hnum⟩ hstep
  exact ⟨e', he', h', href⟩

/-- The count that the loop of `grow_refs_and_insert` keeps never ends it too early. -/
theorem reinsertRefs_eq (append : WeakEntry → ℕ → Except Fatal WeakEntry) (oldRefs : ℕ → ℕ)
    (is : List ℕ) :
    ∀ e, reinsertRefs append oldRefs is (is.filterMap fun i => nonNil (oldRefs i)).length e =
      (is.filterMap fun i => nonNil (oldRefs i)).foldlM append e := by
  induction is with
  | nil => intro e; rfl
  | cons i is ih =>
    intro e
    by_cases h : oldRefs i = 0
    · have hskip : ((i :: is).filterMap fun i => nonNil (oldRefs i)) =
          is.filterMap fun i => nonNil (oldRefs i) := by
        simp [h, nonNil_zero]
      rw [hskip, reinsertRefs, if_neg (not_not.mpr h)]
      split_ifs with hpos
      · exact ih e
      · rw [length_eq_zero_iff.mp (Nat.eq_zero_of_not_pos hpos)]
        rfl
    · have htake : ((i :: is).filterMap fun i => nonNil (oldRefs i)) =
          oldRefs i :: is.filterMap fun i => nonNil (oldRefs i) := by
        simp [nonNil_of_ne_zero h]
      rw [htake, reinsertRefs, if_pos (by simp), if_pos h]
      congr 1
      funext e1
      exact ih e1

theorem freshTable_fields (e : WeakEntry) (n : ℕ) : (freshTable calloc e n).referent = e.referent ∧
      (freshTable calloc e n).outOfLine = e.outOfLine ∧
      (freshTable calloc e n).mask = n - 1 ∧ (freshTable calloc e n).numRefs = 0 ∧
      (freshTable calloc e n).maxHashDisplacement = 0 ∧
      (freshTable calloc e n).block = fun _ => 0 := by
  unfold freshTable WeakEntry.outOfLine WeakEntry.outOfLineNess WeakEntry.mask WeakEntry.numRefs
    WeakEntry.maxHashDisplacement WeakEntry.setMaxHashDisplacement WeakEntry.setReferrers
    WeakEntry.setNumRefs WeakEntry.setMask
  simp

theorem freshTable_hashSet (hout : e.outOfLine = true) (hm : 3 ≤ m) :
    HashSet ptrHash (freshTable calloc e (2 ^ m)) ∅ := by
  obtain ⟨_, hout', hmask, hnum, hmax, hblock⟩ := freshTable_fields calloc e (2 ^ m)
  have hpow : 2 ^ 3 ≤ 2 ^ m := Nat.pow_le_pow_right Nat.two_pos hm
  have hsize : (freshTable calloc e (2 ^ m)).mask + 1 = 2 ^ m := by
    omega
  have hslots : (freshTable calloc e (2 ^ m)).slots = fun _ => none := by
    funext i
    simp [WeakEntry.slots, WeakEntry.referrer, hblock, nonNil_zero]
  constructor
  · rw [hout', hout]
  · exact ⟨m, hm, hsize⟩
  · exact Probed.empty (by omega)
  · rw [hslots, hnum, occupied_empty, Finset.card_empty]
  · omega
  · simp [Occurs, hslots]

/-- Growing puts the old referrers and the new one into a table twice as large. -/
theorem growRefsAndInsert_hashSet (depth : ℕ) (hout : e.outOfLine = true) (hm : 2 ≤ m)
    (hsize : e.mask + 1 = 2 ^ m) (hnodup : (items (e.mask + 1) e.slots).Nodup)
    (hcount : (items (e.mask + 1) e.slots).length = e.numRefs)
    (hmem : ∀ q, q ∈ items (e.mask + 1) e.slots ↔ q ∈ S) (hp : p ≠ 0) (hpS : p ∉ S) :
    ∃ e', growRefsAndInsert calloc (appendReferrer ptrHash calloc (depth + 1)) e p = .ok e' ∧
      HashSet ptrHash e' (insert p S) ∧ e'.referent = e.referent := by
  have hpow : 2 ^ 2 ≤ 2 ^ m := Nat.pow_le_pow_right Nat.two_pos hm
  have hold : e.tableSize = e.mask + 1 := if_pos (by omega)
  have hnewSize : (if e.tableSize ≠ 0 then e.tableSize * 2 else 8) = 2 ^ (m + 1) := by
    rw [if_pos (by omega), hold, hsize, pow_succ]
  have hfresh : HashSet ptrHash (freshTable calloc e (2 ^ (m + 1))) ∅ :=
    freshTable_hashSet calloc hout (by omega)
  set L := items (e.mask + 1) e.slots with hL
  have hmemL : ∀ q ∈ L, q ≠ 0 ∧ q ≠ p := by
    intro q hq
    refine ⟨?_, fun heq => hpS (heq ▸ (hmem q).mp hq)⟩
    obtain ⟨i, _, hi⟩ := mem_items.mp hq
    exact (nonNil_eq_some.mp hi).2
  have hlength : L.length ≤ e.mask + 1 := by
    have := length_filterMap_le e.slots (List.range (e.mask + 1))
    rwa [length_range] at this
  obtain ⟨href, _, hmask, hnum, _⟩ := freshTable_fields calloc e (2 ^ (m + 1))
  have hroom : (L ++ [p]).length ≤ (freshTable calloc e (2 ^ (m + 1))).tableSize * 3 / 4 := by
    rw [hfresh.tableSize_eq, length_append, length_singleton]
    omega
  have hnodup' : (L ++ [p]).Nodup := by
    rw [nodup_append]
    refine ⟨hnodup, nodup_singleton p, fun q hq r hr => ?_⟩
    rw [mem_singleton.mp hr]
    exact (hmemL q hq).2
  have h0 : 0 ∉ L ++ [p] := by
    rw [mem_append, mem_singleton]
    exact fun h => h.elim (fun h => (hmemL 0 h).1 rfl) hp.symm
  obtain ⟨e', he', h', href'⟩ := foldlM_appendReferrer calloc depth hfresh hnum hnodup' h0 hroom
  refine ⟨e', ?_, ?_, href'.trans href⟩
  · have hloop : reinsertRefs (appendReferrer ptrHash calloc (depth + 1)) e.block
        (List.range e.tableSize) e.numRefs (freshTable calloc e (2 ^ (m + 1))) =
        L.foldlM (appendReferrer ptrHash calloc (depth + 1))
          (freshTable calloc e (2 ^ (m + 1))) := by
      rw [hold, ← hcount]
      exact reinsertRefs_eq _ e.block (List.range (e.mask + 1)) _
    unfold growRefsAndInsert
    simp only [hnewSize, hloop]
    rw [← he']
    simp [-except_pure]
  · have hset : (L ++ [p]).toFinset = insert p S := by
      ext q
      simp [hmem]
    rwa [hset] at h'

/-! ### From inline to out of line -/

theorem moveOutOfLine_fields (e : WeakEntry) : (moveOutOfLine calloc e).referent = e.referent ∧
      (moveOutOfLine calloc e).outOfLine = true ∧
      (moveOutOfLine calloc e).mask = weakInlineCount - 1 ∧
      (moveOutOfLine calloc e).numRefs = weakInlineCount ∧
      items weakInlineCount (moveOutOfLine calloc e).slots =
        items weakInlineCount e.inlineSlots := by
  unfold moveOutOfLine WeakEntry.outOfLine WeakEntry.outOfLineNess WeakEntry.mask
    WeakEntry.numRefs WeakEntry.setMaxHashDisplacement WeakEntry.setReferrers WeakEntry.setNumRefs
    WeakEntry.setMask WeakEntry.setOutOfLineNess
  refine ⟨rfl, by simp [referrersOutOfLine], by simp, ?_, ?_⟩
  · simp
    omega
  · refine filterMap_congr fun i hi => ?_
    rw [mem_range] at hi
    simp [WeakEntry.slots, WeakEntry.referrer, WeakEntry.inlineSlots, hi]

theorem find_inline_some
    (h : (List.range weakInlineCount).find? (fun i => e.inlineReferrer i = q) = some i) :
    i < weakInlineCount ∧ e.inlineReferrer i = q := by
  refine ⟨mem_range.mp (mem_of_find?_eq_some h), ?_⟩
  simpa using find?_some h

theorem find_inline_none
    (h : (List.range weakInlineCount).find? (fun i => e.inlineReferrer i = q) = none) :
    ∀ i, i < weakInlineCount → e.inlineReferrer i ≠ q := by
  intro i hi
  simpa using find?_eq_none.mp h i (mem_range.mpr hi)

theorem length_items_of_full (h : ∀ i, i < weakInlineCount → e.inlineReferrer i ≠ 0) :
    (items weakInlineCount e.inlineSlots).length = weakInlineCount := by
  have hocc : occupied weakInlineCount e.inlineSlots = Finset.range weakInlineCount := by
    apply Finset.filter_true_of_mem
    intro i hi
    rw [WeakEntry.inlineSlots, nonNil_of_ne_zero (h i (Finset.mem_range.mp hi))]
    rfl
  rw [length_items, hocc, Finset.card_range]

theorem InlineSet.card_eq (h : InlineSet e S) :
    S.card = (items weakInlineCount e.inlineSlots).length := by
  rw [← toFinset_card_of_nodup h.distinct.nodup_items]
  congr 1
  ext p
  rw [List.mem_toFinset, mem_items, h.mem]

theorem InlineSet.card_lt (h : InlineSet e S) (hi : i < weakInlineCount)
    (hfree : e.inlineSlots i = none) : S.card < weakInlineCount := by
  have hcard := card_occupied_insert hi hfree 0
  have hle := Finset.card_filter_le (Finset.range weakInlineCount)
    fun j => (update e.inlineSlots i (some 0) j).isSome
  rw [h.card_eq, length_items]
  exact Nat.lt_of_succ_le (hcard.symm.trans_le hle)

theorem InlineSet.setInlineReferrer (h : InlineSet e S) (hp : Aligned p) {T : Finset ℕ}
    (hdistinct : DistinctKeys weakInlineCount id (update e.inlineSlots i (nonNil p)))
    (hmem : ∀ q, Occurs weakInlineCount (update e.inlineSlots i (nonNil p)) q ↔ q ∈ T) :
    InlineSet (e.setInlineReferrer i p) T := by
  constructor
  · intro j hj
    by_cases hji : j = i
    · subst hji
      exact ⟨p, hp, by simp [WeakEntry.setInlineReferrer]⟩
    · obtain ⟨q, hq, hword⟩ := h.aligned j hj
      exact ⟨q, hq, by simp [WeakEntry.setInlineReferrer, hji, hword]⟩
  · rw [inlineSlots_setInlineReferrer e i hp.1]
    exact hdistinct
  · rw [inlineSlots_setInlineReferrer e i hp.1]
    exact hmem

/-- The table made of a full inline entry is not a hash table yet; it is grown at once. -/
theorem appendOutOfLine_moveOutOfLine (h : InlineSet e S)
    (hfull : ∀ i, i < weakInlineCount → e.inlineReferrer i ≠ 0) (depth : ℕ) (hp : p ≠ 0)
    (hpS : p ∉ S) : ∃ e', appendOutOfLine ptrHash
        (growRefsAndInsert calloc (appendReferrer ptrHash calloc (depth + 1)))
        (moveOutOfLine calloc e) p = .ok e' ∧
      HashSet ptrHash e' (insert p S) ∧ e'.referent = e.referent := by
  obtain ⟨href, hout, hmask, hnum, hitems⟩ := moveOutOfLine_fields calloc e
  have hsize : (moveOutOfLine calloc e).mask + 1 = weakInlineCount := by
    rfl
  have hgrow : (moveOutOfLine calloc e).numRefs ≥ (moveOutOfLine calloc e).tableSize * 3 / 4 := by
    rw [hnum, WeakEntry.tableSize, hmask]
    decide
  rw [appendOutOfLine, if_pos hgrow]
  apply growRefsAndInsert_hashSet calloc depth hout (le_refl 2) hsize _ _ _ hp hpS
  · exact h.distinct.nodup_items
  · rw [hnum]
    exact length_items_of_full hfull
  · intro q
    rw [hsize, hitems, ← h.mem]
    exact mem_items

include h in
/-- **Appending adds one referrer**, in the free inline slot, in the table, or after the
conversion or the growth that makes room for it. Two nested calls are enough. The fifth
referrer moves the entry out of line, and it stays there. -/
theorem appendReferrer_represents (hp : Aligned p) (hp0 : p ≠ 0) (hpS : p ∉ S) (depth : ℕ) :
    ∃ e', appendReferrer ptrHash calloc (depth + 2) e p = .ok e' ∧
      Represents ptrHash e' (insert p S) ∧ e'.referent = e.referent ∧
      (e'.outOfLine = true ↔ e.outOfLine = true ∨ S.card = weakInlineCount) := by
  rcases h with h | h
  · cases hfind : (List.range weakInlineCount).find? fun i => e.inlineReferrer i = 0 with
    | some i =>
      obtain ⟨hi, hfree⟩ := find_inline_some hfind
      have hnone : e.inlineSlots i = none := by simp [WeakEntry.inlineSlots, nonNil, hfree]
      have h' : InlineSet (e.setInlineReferrer i p) (insert p S) := by
        apply h.setInlineReferrer hp
        · rw [nonNil_of_ne_zero hp0]
          refine h.distinct.set ?_
          rintro j hj _ hq rfl
          exact absurd ((h.mem _).mp ⟨j, hj, hq⟩) hpS
        · intro q
          rw [nonNil_of_ne_zero hp0, occurs_insert hi hnone, h.mem, Finset.mem_insert]
      refine ⟨e.setInlineReferrer i p, ?_, .inl h', rfl, ?_⟩
      · simp [appendReferrer, h.outOfLine_eq, hfind]
      · simp [h'.outOfLine_eq, h.outOfLine_eq, (h.card_lt hi hnone).ne]
    | none =>
      obtain ⟨e', he', h', href⟩ :=
        appendOutOfLine_moveOutOfLine calloc h (find_inline_none hfind) depth hp0 hpS
      refine ⟨e', ?_, .inr h', href, ?_⟩
      · rw [appendReferrer]
        simp only [h.outOfLine_eq, hfind]
        exact he'
      · simp [h'.isOut, h.card_eq, length_items_of_full (find_inline_none hfind)]
  · by_cases hgrow : e.numRefs ≥ e.tableSize * 3 / 4
    · obtain ⟨m, hm, hsize⟩ := h.size
      have hlength : (items (e.mask + 1) e.slots).length = e.numRefs := by
        rw [length_items, h.count]
      obtain ⟨e', he', h', href⟩ := growRefsAndInsert_hashSet calloc depth h.isOut
        (by omega) hsize h.probed.distinct.nodup_items hlength
        (fun q => mem_items.trans (h.mem q)) hp0 hpS
      refine ⟨e', ?_, .inr h', href, by simp [h'.isOut, h.isOut]⟩
      rw [appendReferrer_outOfLine calloc h.isOut, appendOutOfLine, if_pos hgrow, he']
    · obtain ⟨e', he', h', href, _, _⟩ := insertReferrer_hashSet h (by omega) hp0 hpS
      refine ⟨e', ?_, .inr h', href, by simp [h'.isOut, h.isOut]⟩
      rw [appendReferrer_outOfLine calloc h.isOut, appendOutOfLine, if_neg hgrow, he']

/-! ## Removing -/

/-- `remove_referrer` on a table: the slot becomes free and the count goes down. -/
theorem removeSlot_hashSet (h : HashSet ptrHash e S) (hi : i < e.mask + 1)
    (hslot : e.slots i = some p) :
    HashSet ptrHash ((e.setReferrer i 0).setNumRefs (e.numRefs - 1)) (S.erase p) := by
  have hcard := card_occupied_erase hi hslot
  rw [h.count] at hcard
  have hload := h.load
  set e' := (e.setReferrer i 0).setNumRefs (e.numRefs - 1) with he'
  have hslots : e'.slots = update e.slots i (nonNil 0) := slots_update rfl
  rw [nonNil_zero] at hslots
  have hmask : e'.mask = e.mask := by
    simp [he', WeakEntry.mask, WeakEntry.setNumRefs, WeakEntry.setReferrer]
  have hnum : e'.numRefs = e.numRefs - 1 := by
    simp [he', WeakEntry.numRefs, WeakEntry.setNumRefs]
    omega
  have hness : e'.outOfLineNess = e.outOfLineNess := by
    simp [he', WeakEntry.outOfLineNess, WeakEntry.setNumRefs, WeakEntry.setReferrer]
  have hout : e'.outOfLine = e.outOfLine := by
    unfold WeakEntry.outOfLine
    rw [hness]
  constructor
  · rw [hout, h.isOut]
  · exact h.size
  · rw [hslots]
    exact h.probed.erase i
  · rw [hmask, hslots]
    omega
  · omega
  · intro q
    rw [hmask, hslots, h.probed.distinct.occurs_erase hi hslot, h.mem, Finset.mem_erase]
    rfl

include h in
/-- **Removing takes one referrer out** and reports nothing. -/
theorem removeReferrer_represents (hpS : p ∈ S) :
    ∃ e', removeReferrer ptrHash e p = .ok (e', []) ∧ Represents ptrHash e' (S.erase p) ∧
      e'.referent = e.referent ∧ e'.outOfLine = e.outOfLine := by
  have hp0 := h.ne_zero hpS
  rcases h with h | h
  · cases hfind : (List.range weakInlineCount).find? fun i => e.inlineReferrer i = p with
    | some i =>
      obtain ⟨hi, hslot⟩ := find_inline_some hfind
      have hsome : e.inlineSlots i = some p := nonNil_eq_some.mpr ⟨hslot, hp0⟩
      have h' : InlineSet (e.setInlineReferrer i 0) (S.erase p) := by
        apply h.setInlineReferrer (by decide)
        · exact h.distinct.erase i
        · intro q
          rw [nonNil_zero, h.distinct.occurs_erase hi hsome, h.mem, Finset.mem_erase]
          rfl
      refine ⟨e.setInlineReferrer i 0, ?_, .inl h', rfl, h'.outOfLine_eq.trans h.outOfLine_eq.symm⟩
      simp [removeReferrer, h.outOfLine_eq, hfind]
    | none =>
      obtain ⟨i, hi, hslot⟩ := (h.mem p).mpr hpS
      exact absurd (nonNil_eq_some.mp hslot).1 (find_inline_none hfind i hi)
  · obtain ⟨m, _, hsize⟩ := h.size
    have hhit : ∀ i, decide (e.referrer i = p) = true ↔ ∃ q, e.slots i = some q ∧ id q = p := by
      intro i
      rw [decide_eq_true_iff]
      constructor
      · intro hi
        exact ⟨p, nonNil_eq_some.mpr ⟨hi, hp0⟩, rfl⟩
      · rintro ⟨q, hq, rfl⟩
        exact (nonNil_eq_some.mp hq).1
    rcases h.probed.probeHit_eq (cyclic_nextIndex hsize) (hashBegin_lt ptrHash hsize p) hhit with
      ⟨i, q, hi, hslot, rfl, hprobe⟩ | ⟨habsent, _⟩
    · have h' := removeSlot_hashSet h hi hslot
      refine ⟨_, ?_, .inr h', rfl, h'.isOut.trans h.isOut.symm⟩
      simp only [removeReferrer, h.isOut, hprobe]
      rfl
    · exact absurd rfl (habsent p ((h.mem p).mpr hpS))

end Represents

end Apple.Objc.Weak
