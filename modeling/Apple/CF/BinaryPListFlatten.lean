import Mathlib
import Apple.CF.BinaryPList

/-!
# Binary property lists: flattening

`_flattenPlist` of `CFBinaryPList.c` (543–585) lists the objects of a property list before they are
written. Objects are told apart by their address, since the sets and dictionaries it uses have no
`equal` callback. A string, number, date or data is listed once; every other object is listed again
each time it is met, and its first place in the list stays its number.

Results: `flattenPlist_spec`, `length_flatten`.
-/

namespace Apple.CF.BinaryPList

open List

/-! ## Property lists in memory -/

/-- A CF object with the addresses of its parts; a dictionary by `CFDictionaryGetKeysAndValues`. -/
inductive Obj (ι : Type)
  | string (chars : List UInt16)
  | number (value : Number)
  | bool (value : Bool)
  | data (bytes : List UInt8)
  | date (bits : BitVec 64)
  | dict (keys values : List ι)
  | array (elements : List ι)
  | uid (value : BitVec 32)
  /-- An object that is no property list. -/
  | other

namespace Obj

variable {ι : Type}

/-- The parts of an object in the order in which the writer goes through them. -/
def children : Obj ι → List ι
  | .dict keys values => keys ++ values
  | .array elements => elements
  | _ => []

/-- The types that `_flattenPlist` lists once. -/
def uniqued : Obj ι → Bool
  | .string _ | .number _ | .date _ | .data _ => true
  | _ => false

/-- The property list that an object is, given what its parts are. -/
def toValue (part : ι → Value) : Obj ι → Value
  | .string chars => .string chars
  | .number value => .number value
  | .bool value => .bool value
  | .data bytes => .data bytes
  | .date bits => .date bits
  | .dict keys values => .dict (keys.map part) (values.map part)
  | .array elements => .array (elements.map part)
  | .uid value => .uid value
  | .other => .null

variable {o : Obj ι}

theorem toValue_congr {part part' : ι → Value}
    (h : ∀ q ∈ o.children, part q = part' q) : o.toValue part = o.toValue part' := by
  match o, h with
  | .array elements, h => exact congrArg Value.array (map_congr_left h)
  | .dict keys values, h =>
    have hkeys : keys.map part = keys.map part' :=
      map_congr_left fun q hq => h q (mem_append_left _ hq)
    have hvalues : values.map part = values.map part' :=
      map_congr_left fun q hq => h q (mem_append_right _ hq)
    rw [toValue, toValue, hkeys, hvalues]
  | .string _, _ | .number _, _ | .bool _, _ | .data _, _ | .date _, _ | .uid _, _ | .other, _ => rfl

theorem children_of_uniqued (h : o.uniqued = true) : o.children = [] := by
  match o, h with
  | .string _, _ | .number _, _ | .date _, _ | .data _, _ => rfl

end Obj

/-- Objects in memory, their nesting well founded. A dictionary has as many values as keys, and the
references of a collection take eight bytes each of the address space. -/
structure Heap (ι : Type) where
  obj : ι → Obj ι
  rank : ι → ℕ
  rank_lt : ∀ p, ∀ q ∈ (obj p).children, rank q < rank p
  length_values : ∀ p keys values, obj p = .dict keys values → values.length = keys.length
  addressable : ∀ p, (obj p).children.length * 8 < 2 ^ 64

namespace Heap

variable {ι : Type} (h : Heap ι)

/-- `q` is a part of `p`, or a part of a part, and so on, or `p` itself. -/
def Reaches : ι → ι → Prop := Relation.ReflTransGen fun p q => q ∈ (h.obj p).children

/-- The property list that an object is, down to `n` levels. -/
def valueAt : ℕ → ι → Value
  | 0, _ => .null
  | n + 1, p => (h.obj p).toValue (valueAt n)

/-- The property list that an object is. -/
def value (p : ι) : Value := h.valueAt (h.rank p + 1) p

/-- How often an object that is not listed once is met on the way down from `p`. -/
def occurrencesAt : ℕ → ι → ℕ
  | 0, _ => 0
  | n + 1, p =>
    if (h.obj p).uniqued then 0 else 1 + ((h.obj p).children.map (occurrencesAt n)).sum

/-- The number of ways down from `p` to an object that is not a string, number, date or data. -/
def occurrences (p : ι) : ℕ := h.occurrencesAt (h.rank p + 1) p

/-- How many objects are listed for `p`: every string, number, date and data once, every other
object once for each way down to it. -/
noncomputable def listings (p : ι) : ℕ :=
  {q | h.Reaches p q ∧ (h.obj q).uniqued = true}.ncard + h.occurrences p

variable {h} {p q : ι}

theorem Reaches.refl (p : ι) : h.Reaches p p := Relation.ReflTransGen.refl

variable {r : ι}

theorem Reaches.of_child (hq : q ∈ (h.obj p).children) (hr : h.Reaches q r) :
    h.Reaches p r := Relation.ReflTransGen.head hq hr

/-- What is reached is the object itself or is reached through one of its parts. -/
theorem reaches_iff : h.Reaches p r ↔ r = p ∨ ∃ q ∈ (h.obj p).children, h.Reaches q r := by
  constructor
  · intro hr
    rcases Relation.ReflTransGen.cases_head hr with rfl | ⟨q, hq, hr⟩
    · exact Or.inl rfl
    · exact Or.inr ⟨q, hq, hr⟩
  · rintro (rfl | ⟨q, hq, hr⟩)
    · exact Reaches.refl _
    · exact Reaches.of_child hq hr

theorem valueAt_eq_of_lt {n m : ℕ} (hn : h.rank p < n) (hm : h.rank p < m) :
    h.valueAt n p = h.valueAt m p := by
  induction n generalizing p m with
  | zero => omega
  | succ n ih =>
    obtain ⟨m, rfl⟩ := Nat.exists_eq_add_one_of_ne_zero (show m ≠ 0 by omega)
    apply Obj.toValue_congr
    intro q hq
    have hlt := h.rank_lt p q hq
    exact ih (by omega) (by omega)

theorem value_eq (p : ι) : h.value p = (h.obj p).toValue h.value := by
  apply Obj.toValue_congr
  intro q hq
  have hlt := h.rank_lt p q hq
  exact valueAt_eq_of_lt (by omega) (by omega)

theorem occurrencesAt_eq_of_lt {n m : ℕ} (hn : h.rank p < n) (hm : h.rank p < m) :
    h.occurrencesAt n p = h.occurrencesAt m p := by
  induction n generalizing p m with
  | zero => omega
  | succ n ih =>
    obtain ⟨m, rfl⟩ := Nat.exists_eq_add_one_of_ne_zero (show m ≠ 0 by omega)
    rw [occurrencesAt]
    congr 3
    apply map_congr_left
    intro q hq
    have hlt := h.rank_lt p q hq
    exact ih (by omega) (by omega)

theorem occurrences_eq (p : ι) : h.occurrences p =
    if (h.obj p).uniqued then 0 else 1 + ((h.obj p).children.map h.occurrences).sum := by
  rw [occurrences, occurrencesAt]
  congr 3
  apply map_congr_left
  intro q hq
  have hlt := h.rank_lt p q hq
  exact occurrencesAt_eq_of_lt (by omega) (by omega)

theorem reaches_of_uniqued (hp : (h.obj p).uniqued = true) : h.Reaches p q ↔ q = p := by
  rw [reaches_iff, Obj.children_of_uniqued hp]
  simp

end Heap

/-! ## Flattening -/

/-- The state of `_flattenPlist`: the list of objects, the number of each, and the objects that are
listed once. -/
structure Flat (ι : Type) where
  objlist : List ι
  objtable : List (ι × ℕ)
  uniquingset : List ι

section Flatten

variable {ι : Type} [DecidableEq ι]

/-- `CFArrayAppendValue` and `CFDictionaryAddValue` (561–563): the number is a `uint32_t`, and an
object that has one keeps it. -/
def Flat.add (st : Flat ι) (p : ι) : Flat ι where
  objlist := st.objlist ++ [p]
  objtable :=
    if (st.objtable.lookup p).isSome then st.objtable
    else (p, st.objlist.length % 2 ^ 32) :: st.objtable
  uniquingset := st.uniquingset

/-- `CFSetAddValue(uniquingset, plist)` for an object that is listed once. -/
def Flat.unique (st : Flat ι) (p : ι) (uniqued : Bool) : Flat ι :=
  if uniqued then { st with uniquingset := p :: st.uniquingset } else st

/-- `_flattenPlist` (543–585), down to `n` levels. The set has no `equal` callback, so an object
that is in it already is this object itself. -/
def flattenPlist (h : Heap ι) : ℕ → Flat ι → ι → Flat ι
  | 0, st, _ => st
  | n + 1, st, p =>
    if (h.obj p).uniqued ∧ p ∈ st.uniquingset then st
    else (h.obj p).children.foldl (flattenPlist h n) ((st.unique p (h.obj p).uniqued).add p)

/-- The objects of a property list, from nothing. -/
def flatten (h : Heap ι) (p : ι) : Flat ι := flattenPlist h (h.rank p + 1) ⟨[], [], []⟩ p

/-- The numbers are places in the list, up to `2 ^ 32`, and everything listed has one. -/
structure Flat.Wf (st : Flat ι) : Prop where
  place : ∀ q r, st.objtable.lookup q = some r → ∃ i, st.objlist[i]? = some q ∧ r = i % 2 ^ 32
  numbered : ∀ q ∈ st.objlist, (st.objtable.lookup q).isSome
  uniqued_listed : ∀ q ∈ st.uniquingset, q ∈ st.objlist
  uniqued_nodup : st.uniquingset.Nodup

/-- `st'` is `st` with the objects `ps` flattened. -/
structure Flattened (h : Heap ι) (st st' : Flat ι) (ps : List ι) : Prop where
  wf : st'.Wf
  grows : st.objlist <+: st'.objlist
  covers : ∀ p ∈ ps, ∀ q, h.Reaches p q → q ∈ st'.objlist
  reached : ∀ q ∈ st'.objlist, q ∈ st.objlist ∨ ∃ p ∈ ps, h.Reaches p q
  uniqued : ∀ q, q ∈ st'.uniquingset ↔
    q ∈ st.uniquingset ∨ ∃ p ∈ ps, h.Reaches p q ∧ (h.obj q).uniqued = true
  size : st'.objlist.length + st.uniquingset.length =
    st.objlist.length + st'.uniquingset.length + (ps.map h.occurrences).sum

variable {h : Heap ι} {st : Flat ι} {p : ι}

theorem Flattened.nil (hst : st.Wf) : Flattened h st st [] where
  wf := hst
  grows := prefix_rfl
  covers := by simp
  reached := by simp
  uniqued := by simp
  size := by simp

theorem Flattened.append {st' st'' : Flat ι} {ps qs : List ι}
    (hps : Flattened h st st' ps) (hqs : Flattened h st' st'' qs) :
    Flattened h st st'' (ps ++ qs) where
  wf := hqs.wf
  grows := hps.grows.trans hqs.grows
  covers := by
    intro p hp q hq
    rcases mem_append.mp hp with hp | hp
    · exact hqs.grows.subset (hps.covers p hp q hq)
    · exact hqs.covers p hp q hq
  reached := by
    intro q hq
    rcases hqs.reached q hq with hq | ⟨p, hp, hq⟩
    · rcases hps.reached q hq with hq | ⟨p, hp, hq⟩
      · exact Or.inl hq
      · exact Or.inr ⟨p, mem_append_left _ hp, hq⟩
    · exact Or.inr ⟨p, mem_append_right _ hp, hq⟩
  uniqued := by
    intro q
    rw [hqs.uniqued, hps.uniqued]
    simp only [mem_append, or_and_right, exists_or, or_assoc]
  size := by
    have h1 := hps.size
    have h2 := hqs.size
    rw [map_append, sum_append]
    omega

/-- Flattening one after the other flattens all of them. -/
theorem Flattened.foldl {f : Flat ι → ι → Flat ι} {ps : List ι}
    (hf : ∀ p ∈ ps, ∀ st : Flat ι, st.Wf → Flattened h st (f st p) [p]) (hst : st.Wf) :
    Flattened h st (ps.foldl f st) ps := by
  induction ps generalizing st with
  | nil => exact Flattened.nil hst
  | cons p ps ih =>
    have hp := hf p mem_cons_self st hst
    exact hp.append (ih (fun q hq => hf q (mem_cons_of_mem p hq)) hp.wf)

section List

variable (st : Flat ι) (p q : ι) (u : Bool)

@[simp] theorem Flat.objlist_add : (st.add p).objlist = st.objlist ++ [p] := rfl

@[simp] theorem Flat.uniquingset_add : (st.add p).uniquingset = st.uniquingset := rfl

omit [DecidableEq ι] in
@[simp] theorem Flat.objlist_unique : (st.unique p u).objlist = st.objlist := by
  rw [Flat.unique]
  split
  · rfl
  · rfl

omit [DecidableEq ι] in
@[simp] theorem Flat.objtable_unique : (st.unique p u).objtable = st.objtable := by
  rw [Flat.unique]
  split
  · rfl
  · rfl

omit [DecidableEq ι] in
theorem Flat.uniquingset_unique : (st.unique p u).uniquingset =
    if u then p :: st.uniquingset else st.uniquingset := by
  rw [Flat.unique]
  split
  · rfl
  · rfl

theorem Flat.lookup_add : (st.add p).objtable.lookup q =
    if q = p ∧ st.objtable.lookup p = none then some (st.objlist.length % 2 ^ 32)
    else st.objtable.lookup q := by
  rw [Flat.add]
  by_cases hp : st.objtable.lookup p = none
  · by_cases hq : q = p
    · simp [hp, hq]
    · have hne : (q == p) = false := beq_false_of_ne hq
      simp [hp, hq, lookup_cons, hne]
  · simp [hp, Option.isSome_iff_ne_none]

end List

/-- Listing one more object keeps the numbers and the list in step. -/
theorem Flat.Wf.add (hst : st.Wf) {u : Bool}
    (hp : u = true → p ∉ st.uniquingset) : ((st.unique p u).add p).Wf where
  place := by
    intro q r hq
    rw [Flat.lookup_add, Flat.objtable_unique] at hq
    rw [Flat.objlist_add, Flat.objlist_unique]
    split at hq
    · next hqp =>
      rw [Flat.objlist_unique] at hq
      exact ⟨st.objlist.length, by simp [hqp.1], (Option.some.inj hq).symm⟩
    · obtain ⟨i, hi, hr⟩ := hst.place q r hq
      obtain ⟨hlt, -⟩ := List.getElem?_eq_some_iff.mp hi
      exact ⟨i, by rw [getElem?_append_left hlt, hi], hr⟩
  numbered := by
    intro q hq
    rw [Flat.lookup_add, Flat.objtable_unique]
    split
    · rfl
    · next hqp =>
      rw [Flat.objlist_add, Flat.objlist_unique] at hq
      rcases mem_append.mp hq with hq | hq
      · exact hst.numbered q hq
      · obtain rfl := mem_singleton.mp hq
        exact Option.isSome_iff_ne_none.mpr fun hnone => hqp ⟨rfl, hnone⟩
  uniqued_listed := by
    intro q hq
    rw [Flat.uniquingset_add, Flat.uniquingset_unique] at hq
    rw [Flat.objlist_add, Flat.objlist_unique]
    split at hq
    · rcases mem_cons.mp hq with rfl | hq
      · simp
      · exact mem_append_left _ (hst.uniqued_listed q hq)
    · exact mem_append_left _ (hst.uniqued_listed q hq)
  uniqued_nodup := by
    rw [Flat.uniquingset_add, Flat.uniquingset_unique]
    split
    · next hu => exact nodup_cons.mpr ⟨hp hu, hst.uniqued_nodup⟩
    · exact hst.uniqued_nodup

/-- An object that is listed once and was listed already. -/
theorem Flattened.of_mem (hst : st.Wf)
    (hp : (h.obj p).uniqued = true) (hmem : p ∈ st.uniquingset) : Flattened h st st [p] where
  wf := hst
  grows := prefix_rfl
  covers := by
    intro q hq r hr
    obtain rfl := mem_singleton.mp hq
    obtain rfl := (Heap.reaches_of_uniqued hp).mp hr
    exact hst.uniqued_listed r hmem
  reached := fun q hq => Or.inl hq
  uniqued := by
    intro q
    simp only [mem_singleton, exists_eq_left, Heap.reaches_of_uniqued hp]
    constructor
    · exact Or.inl
    · rintro (hq | ⟨rfl, -⟩)
      · exact hq
      · exact hmem
  size := by simp [Heap.occurrences_eq, hp]

/-- An object that is listed now, and then its parts. -/
theorem Flattened.of_children {st' : Flat ι}
    (hchildren : Flattened h ((st.unique p (h.obj p).uniqued).add p) st' (h.obj p).children) :
    Flattened h st st' [p] where
  wf := hchildren.wf
  grows := by
    have hgrows := hchildren.grows
    rw [Flat.objlist_add, Flat.objlist_unique] at hgrows
    exact (prefix_append _ _).trans hgrows
  covers := by
    intro q hq r hr
    obtain rfl := mem_singleton.mp hq
    rcases Heap.reaches_iff.mp hr with rfl | ⟨q, hq, hr⟩
    · exact hchildren.grows.subset (by simp)
    · exact hchildren.covers q hq r hr
  reached := by
    intro q hq
    rcases hchildren.reached q hq with hq | ⟨r, hr, hq⟩
    · rw [Flat.objlist_add, Flat.objlist_unique] at hq
      rcases mem_append.mp hq with hq | hq
      · exact Or.inl hq
      · obtain rfl := mem_singleton.mp hq
        exact Or.inr ⟨q, mem_singleton_self q, Heap.Reaches.refl q⟩
    · exact Or.inr ⟨p, mem_singleton_self p, Heap.Reaches.of_child hr hq⟩
  uniqued := by
    intro q
    rw [hchildren.uniqued, Flat.uniquingset_add, Flat.uniquingset_unique]
    simp only [mem_singleton, exists_eq_left]
    rw [Heap.reaches_iff]
    split
    · next hu =>
      simp only [Obj.children_of_uniqued hu, mem_cons, not_mem_nil, false_and, exists_false,
        or_false]
      constructor
      · rintro (rfl | hq)
        · exact Or.inr ⟨rfl, hu⟩
        · exact Or.inl hq
      · rintro (hq | ⟨rfl, -⟩)
        · exact Or.inr hq
        · exact Or.inl rfl
    · next hu =>
      constructor
      · rintro (hq | ⟨r, hr, hq, hqu⟩)
        · exact Or.inl hq
        · exact Or.inr ⟨Or.inr ⟨r, hr, hq⟩, hqu⟩
      · rintro (hq | ⟨rfl | ⟨r, hr, hq⟩, hqu⟩)
        · exact Or.inl hq
        · exact absurd hqu hu
        · exact Or.inr ⟨r, hr, hq, hqu⟩
  size := by
    have hsize := hchildren.size
    rw [Flat.uniquingset_add, Flat.uniquingset_unique, Flat.objlist_add, Flat.objlist_unique,
      length_append, length_singleton] at hsize
    rw [map_singleton, sum_singleton, Heap.occurrences_eq]
    split_ifs at hsize with hu
    · rw [Obj.children_of_uniqued hu, length_cons, map_nil, sum_nil]
        at hsize
      rw [if_pos hu]
      omega
    · rw [if_neg hu]
      omega

/-- **Flattening lists what is reached**, everything that is not listed once as often as it is
met. -/
theorem flattenPlist_spec {n : ℕ} (hn : h.rank p < n)
    (hst : st.Wf) : Flattened h st (flattenPlist h n st p) [p] := by
  induction n generalizing st p with
  | zero => omega
  | succ n ih =>
    rw [flattenPlist]
    split
    · next hmem => exact Flattened.of_mem hst hmem.1 hmem.2
    · next hmem =>
      apply Flattened.of_children
      apply Flattened.foldl
      · intro q hq st hst
        have hlt := h.rank_lt p q hq
        exact ih (by omega) hst
      · exact hst.add fun hu hp => hmem ⟨hu, hp⟩

theorem Flat.Wf.nil : (⟨[], [], []⟩ : Flat ι).Wf where
  place := by simp
  numbered := by simp
  uniqued_listed := by simp
  uniqued_nodup := nodup_nil

theorem flatten_spec (h : Heap ι) (p : ι) : Flattened h ⟨[], [], []⟩ (flatten h p) [p] :=
  flattenPlist_spec (by omega) Flat.Wf.nil

/-- The top object is listed first. -/
theorem head_flatten (h : Heap ι) (p : ι) : (flatten h p).objlist[0]? = some p := by
  have hchildren : Flattened h (((⟨[], [], []⟩ : Flat ι).unique p (h.obj p).uniqued).add p)
      (flatten h p) (h.obj p).children := by
    rw [flatten, flattenPlist, if_neg (by simp)]
    apply Flattened.foldl
    · intro q hq st hst
      exact flattenPlist_spec (h.rank_lt p q hq) hst
    · exact Flat.Wf.nil.add (by simp)
  obtain ⟨rest, hrest⟩ := hchildren.grows
  rw [← hrest, Flat.objlist_add, Flat.objlist_unique]
  rfl

/-- **The length of the list.** -/
theorem length_flatten (h : Heap ι) (p : ι) : (flatten h p).objlist.length = h.listings p := by
  have hspec := flatten_spec h p
  have hset : {q | h.Reaches p q ∧ (h.obj q).uniqued = true} =
      ((flatten h p).uniquingset.toFinset : Set ι) := by
    simp [hspec.uniqued]
  have hsize := hspec.size
  rw [Heap.listings, hset, Set.ncard_coe_finset,
    toFinset_card_of_nodup hspec.wf.uniqued_nodup]
  simp only [map_singleton, sum_singleton] at hsize
  omega

end Flatten

end Apple.CF.BinaryPList
