import Mathlib.Logic.Function.Basic
import Mathlib.Data.List.Nodup
import Mathlib.Tactic

/-!
# Doubly linked lists in a heap, and stacks stored in pages

A heap is a partial map from addresses to nodes. `DLinked prev next h l` says that its
nodes are exactly the addresses of `l`, linked in that order by the two link fields of a
node. The rules say what allocation at the end, deletion of the last node, a change of a
node's contents, and a walk to either end do to the list.

`chunk n l i` is what page `i` holds when the list `l` is stored in pages of `n` entries,
each full before the next one is used.

Results:

* `DLinked.append`, `DLinked.dropLast`, `DLinked.update`: the operations on the heap;
* `DLinked.endOf_next`, `DLinked.endOf_prev`: walks reach the ends;
* `DLinked.next_transGen`, `DLinked.prev_transGen`: walks keep to the order;
* `chunk_snoc`: adding an entry changes one page only.
-/

namespace Apple.Lib

open List Function Relation

/-! ## Linked lists -/

section Linked

variable {ι ν : Type*}

/-- The address before position `i`. -/
def predecessor (l : List ι) : ℕ → Option ι
  | 0 => none
  | i + 1 => l[i]?

variable {l : List ι} {i : ℕ}

theorem predecessor_append (m : List ι) (hi : i ≤ l.length) :
    predecessor (l ++ m) i = predecessor l i := by
  rcases i with _ | i
  · rfl
  · exact getElem?_append_left (by omega)

theorem lt_length_of_getElem?_snoc {q r : ι} (hi : (l ++ [q])[i]? = some r)
    (hne : r ≠ q) : i < l.length := by
  by_contra hge
  have hlt := (List.getElem?_eq_some_iff.mp hi).1
  simp only [length_append, length_singleton] at hlt
  obtain rfl : i = l.length := by omega
  exact hne (by simpa using hi.symm)

/-- The nodes of the heap are those of `l`, linked in this order. -/
structure DLinked (prev next : ν → Option ι) (h : ι → Option ν) (l : List ι) : Prop where
  nodup : l.Nodup
  mem : ∀ p v, h p = some v → p ∈ l
  node : ∀ i p, l[i]? = some p →
    ∃ v, h p = some v ∧ prev v = predecessor l i ∧ next v = l[i + 1]?

/-- Follow a link as long as there is one. -/
def endOf (link : ν → Option ι) (h : ι → Option ν) : ℕ → ι → Option ι
  | 0, _ => none
  | fuel + 1, p =>
    match h p with
    | none => none
    | some v =>
      match link v with
      | none => some p
      | some q => endOf link h fuel q

/-- The link of `p` leads to `q`. -/
def Follows (link : ν → Option ι) (h : ι → Option ν) (p q : ι) : Prop :=
  ∃ v, h p = some v ∧ link v = some q

namespace DLinked

variable {prev next : ν → Option ι} {h : ι → Option ν} {l : List ι} {i : ℕ} {p q : ι} {v : ν}

theorem nil : DLinked prev next (fun _ => none) ([] : List ι) :=
  ⟨nodup_nil, by simp, by simp⟩

variable (hl : DLinked prev next h l)

include hl in
theorem index_inj {j : ℕ} (hi : l[i]? = some p) (hj : l[j]? = some p) : i = j := by
  obtain ⟨hi', hpi⟩ := List.getElem?_eq_some_iff.mp hi
  obtain ⟨hj', hpj⟩ := List.getElem?_eq_some_iff.mp hj
  exact hl.nodup.getElem_inj_iff.mp (hpi.trans hpj.symm)

/-- A walk along links that lead from one position of the list to another. -/
theorem index_transGen {r : ι → ι → Prop} {R : ℕ → ℕ → Prop} [IsTrans ℕ R] (hi : l[i]? = some p)
    (hstep : ∀ i p q, l[i]? = some p → r p q → ∃ j, R i j ∧ l[j]? = some q)
    (hq : TransGen r p q) : ∃ j, R i j ∧ l[j]? = some q := by
  induction hq with
  | single hlink => exact hstep i p _ hi hlink
  | tail _ hlink ih =>
    obtain ⟨j, hij, hj⟩ := ih
    obtain ⟨k, hjk, hk⟩ := hstep j _ _ hj hlink
    exact ⟨k, trans_of R hij hjk, hk⟩

include hl in
theorem next_transGen (hi : l[i]? = some p)
    (hq : TransGen (Follows next h) p q) : ∃ j, i < j ∧ l[j]? = some q := by
  apply index_transGen hi _ hq
  rintro i p q hi ⟨v, hv, hnext⟩
  obtain ⟨w, hw, -, hwnext⟩ := hl.node i p hi
  obtain rfl : v = w := Option.some.inj (hv.symm.trans hw)
  exact ⟨i + 1, lt_add_one i, hwnext.symm.trans hnext⟩

include hl in
theorem prev_transGen (hi : l[i]? = some p)
    (hq : TransGen (Follows prev h) p q) : ∃ j, i > j ∧ l[j]? = some q := by
  apply index_transGen hi _ hq
  rintro i p q hi ⟨v, hv, hprev⟩
  obtain ⟨w, hw, hwprev, -⟩ := hl.node i p hi
  obtain rfl : v = w := Option.some.inj (hv.symm.trans hw)
  rw [hwprev] at hprev
  rcases i with _ | i
  · cases hprev
  · exact ⟨i, lt_add_one i, hprev⟩

include hl in
theorem not_mem (hp : h p = none) : p ∉ l := by
  intro hmem
  obtain ⟨i, hi⟩ := mem_iff_getElem?.mp hmem
  obtain ⟨v, hv, -⟩ := hl.node i p hi
  rw [hp] at hv
  cases hv

theorem eq_none_of_nil (hl : DLinked prev next h []) (p : ι) : h p = none := by
  by_contra hne
  obtain ⟨v, hv⟩ := Option.ne_none_iff_exists'.mp hne
  exact absurd (hl.mem p v hv) not_mem_nil

/-! ### Operations -/

variable [DecidableEq ι] {w : ν}

include hl in
/-- The contents of a node may change. -/
theorem update (hv : h p = some v) (hprev : prev w = prev v) (hnext : next w = next v) :
    DLinked prev next (update h p (some w)) l := by
  refine ⟨hl.nodup, ?_, ?_⟩
  · intro q u hu
    by_cases hqp : q = p
    · exact hqp ▸ hl.mem p v hv
    · exact hl.mem q u (by rwa [update_of_ne hqp] at hu)
  · intro i q hi
    obtain ⟨u, hu, hlinks⟩ := hl.node i q hi
    by_cases hqp : q = p
    · subst hqp
      have huv : u = v := Option.some.inj (hu.symm.trans hv)
      refine ⟨w, update_self .., ?_⟩
      rw [hprev, hnext, ← huv]
      exact hlinks
    · exact ⟨u, by rwa [update_of_ne hqp], hlinks⟩

/-- The first node of an empty heap. -/
theorem singleton (hl : DLinked prev next h []) (hprev : prev v = none) (hnext : next v = none) :
    DLinked prev next (Function.update h p (some v)) [p] := by
  refine ⟨nodup_singleton p, ?_, ?_⟩
  · intro q u hu
    by_cases hqp : q = p
    · simp [hqp]
    · rw [update_of_ne hqp, hl.eq_none_of_nil] at hu
      cases hu
  · intro i q hi
    rcases i with _ | i
    · obtain rfl : p = q := by simpa using hi
      exact ⟨v, update_self .., hprev, by simpa using hnext⟩
    · simp at hi

/-- A new node after the last one, `q`. -/
theorem append {w' : ν} (hl : DLinked prev next h (l ++ [q])) (hp : h p = none)
    (hv : h q = some v) (hprev : prev w = prev v) (hnext : next w = some p)
    (hprev' : prev w' = some q) (hnext' : next w' = none) :
    DLinked prev next (Function.update (Function.update h q (some w)) p (some w'))
      (l ++ [q] ++ [p]) := by
  have hpl := hl.not_mem hp
  refine ⟨?_, ?_, ?_⟩
  · rw [nodup_append]
    refine ⟨hl.nodup, nodup_singleton p, ?_⟩
    intro a ha b hb heq
    rw [mem_singleton.mp hb] at heq
    exact hpl (heq ▸ ha)
  · intro r u hu
    by_cases hrp : r = p
    · simp [hrp]
    · rw [update_of_ne hrp] at hu
      by_cases hrq : r = q
      · simp [hrq]
      · rw [update_of_ne hrq] at hu
        exact mem_append_left _ (hl.mem r u hu)
  · intro i r hi
    by_cases hlast : i = l.length + 1
    · -- the new node
      subst hlast
      obtain rfl : p = r := by simpa using hi
      exact ⟨w', update_self .., by simp [hprev', predecessor], by simp [hnext']⟩
    · have hlt : i < (l ++ [q]).length := by
        have := (List.getElem?_eq_some_iff.mp hi).1
        simp only [length_append, length_singleton] at this ⊢
        omega
      rw [getElem?_append_left hlt] at hi
      obtain ⟨u, hu, hup, hun⟩ := hl.node i r hi
      have hpred := predecessor_append [p] hlt.le
      have hrp : r ≠ p := fun heq => hpl (heq ▸ mem_of_getElem? hi)
      rw [update_of_ne hrp]
      by_cases hrq : r = q
      · subst hrq
        have hi' : i = l.length := hl.index_inj hi (by simp)
        have huv : u = v := Option.some.inj (hu.symm.trans hv)
        refine ⟨w, update_self .., by rw [hprev, ← huv, hup, hpred], ?_⟩
        rw [hnext, hi']
        simp
      · have hi' := lt_length_of_getElem?_snoc hi hrq
        refine ⟨u, by rwa [update_of_ne hrq], by rw [hup, hpred], ?_⟩
        rw [hun]
        exact (getElem?_append_left (by simp; omega)).symm

/-- Deletion of the last node, `p`, that has `q` before it. -/
theorem dropLast (hl : DLinked prev next h (l ++ [q] ++ [p])) (hv : h q = some v)
    (hprev : prev w = prev v) (hnext : next w = none) :
    DLinked prev next (Function.update (Function.update h q (some w)) p none) (l ++ [q]) := by
  have hpl : p ∉ l ++ [q] := by
    have := (nodup_append.mp hl.nodup).2.2
    intro hmem
    exact this p hmem p (by simp) rfl
  refine ⟨(nodup_append.mp hl.nodup).1, ?_, ?_⟩
  · intro r u hu
    by_cases hrp : r = p
    · rw [hrp, update_self] at hu
      cases hu
    · rw [update_of_ne hrp] at hu
      by_cases hrq : r = q
      · simp [hrq]
      · rw [update_of_ne hrq] at hu
        have := hl.mem r u hu
        simpa [hrp] using this
  · intro i r hi
    have hlt := (List.getElem?_eq_some_iff.mp hi).1
    have hi2 : (l ++ [q] ++ [p])[i]? = some r := by rwa [getElem?_append_left hlt]
    obtain ⟨u, hu, hup, hun⟩ := hl.node i r hi2
    have hpred := predecessor_append [p] hlt.le
    have hrp : r ≠ p := fun heq => hpl (heq ▸ mem_of_getElem? hi)
    rw [update_of_ne hrp]
    by_cases hrq : r = q
    · subst hrq
      have hi' : i = l.length := hl.index_inj hi2 (by simp)
      have huv : u = v := Option.some.inj (hu.symm.trans hv)
      refine ⟨w, update_self .., by rw [hprev, ← huv, hup, hpred], ?_⟩
      rw [hnext, hi']
      simp
    · have hi' := lt_length_of_getElem?_snoc hi hrq
      refine ⟨u, by rwa [update_of_ne hrq], by rw [hup, hpred], ?_⟩
      rw [hun]
      exact getElem?_append_left (by simp; omega)

/-- Deletion of the only node. -/
theorem dropOnly (hl : DLinked prev next h [p]) :
    DLinked prev next (Function.update h p none) [] := by
  refine ⟨nodup_nil, ?_, by simp⟩
  intro q u hu
  by_cases hqp : q = p
  · rw [hqp, update_self] at hu
    cases hu
  · rw [update_of_ne hqp] at hu
    exact absurd (mem_singleton.mp (hl.mem q u hu)) hqp

/-! ### Walks -/

include hl in
omit [DecidableEq ι] in
theorem endOf_next (fuel : ℕ) :
    ∀ i p, l[i]? = some p → l.length ≤ i + fuel → endOf next h fuel p = l.getLast? := by
  induction fuel with
  | zero =>
    intro i p hi hle
    have := (List.getElem?_eq_some_iff.mp hi).1
    omega
  | succ fuel ih =>
    intro i p hi hle
    obtain ⟨v, hv, -, hnext⟩ := hl.node i p hi
    simp only [endOf, hv]
    rcases hq : l[i + 1]? with _ | q
    · have hlen := List.getElem?_eq_none_iff.mp hq
      have hlt := (List.getElem?_eq_some_iff.mp hi).1
      rw [hnext, hq, getLast?_eq_getElem?, show l.length - 1 = i by omega, hi]
    · rw [hnext, hq]
      exact ih (i + 1) q hq (by omega)

include hl in
omit [DecidableEq ι] in
theorem endOf_prev (fuel : ℕ) :
    ∀ i p, l[i]? = some p → i < fuel → endOf prev h fuel p = l.head? := by
  induction fuel with
  | zero =>
    omega
  | succ fuel ih =>
    intro i p hi hlt
    obtain ⟨v, hv, hprev, -⟩ := hl.node i p hi
    simp only [endOf, hv]
    rcases i with _ | i
    · rw [hprev, head?_eq_getElem?, hi]
      rfl
    · have hlen := (List.getElem?_eq_some_iff.mp hi).1
      have hi' : l[i]? = some l[i] := getElem?_eq_getElem (by omega)
      rw [hprev]
      simp only [predecessor, hi']
      exact ih i _ hi' (by omega)

end DLinked

end Linked

/-! ## Lists stored in pages -/

section Chunk

variable {α : Type*}

/-- The entries of page `i`, for pages of `n` entries. -/
def chunk (n : ℕ) (l : List α) (i : ℕ) : List α := (l.drop (i * n)).take n

variable {n : ℕ} {l : List α} {i j h : ℕ} {a : α}

@[simp]
theorem length_chunk : (chunk n l i).length = min n (l.length - i * n) := by
  simp [chunk]

@[simp]
theorem chunk_nil : chunk n ([] : List α) i = [] := by
  simp [chunk]

theorem getElem?_chunk (hj : j < n) : (chunk n l i)[j]? = l[i * n + j]? := by
  rw [chunk, getElem?_take_of_lt hj, getElem?_drop]

theorem take_append_chunk : l.take (i * n) ++ chunk n l i = l.take ((i + 1) * n) := by
  rw [chunk, Nat.succ_mul, take_add]

theorem chunk_eq_nil (hle : l.length ≤ i * n) : chunk n l i = [] := by
  rw [chunk, drop_eq_nil_of_le hle, take_nil]

/-- An entry added while page `h` has room changes this page only. -/
theorem chunk_snoc (hlo : h * n ≤ l.length) (hhi : l.length < (h + 1) * n) :
    chunk n (l ++ [a]) i = if i = h then chunk n l h ++ [a] else chunk n l i := by
  split_ifs with hih
  · subst hih
    rw [chunk, chunk, drop_append_of_le_length hlo, take_append,
      take_of_length_le, take_of_length_le]
    · simp only [length_drop, length_singleton]
      rw [Nat.succ_mul] at hhi
      omega
    · simp only [length_drop]
      rw [Nat.succ_mul] at hhi
      omega
  · rcases lt_or_gt_of_ne hih with hlt | hgt
    · -- a page below: full already
      have hle : (i + 1) * n ≤ l.length := (Nat.mul_le_mul_right n hlt).trans hlo
      rw [Nat.succ_mul] at hle
      rw [chunk, chunk, drop_append_of_le_length (by omega),
        take_append_of_le_length (by simp only [length_drop]; omega)]
    · -- a page above: still empty
      have hle : (h + 1) * n ≤ i * n := Nat.mul_le_mul_right n hgt
      rw [chunk_eq_nil (by simp only [length_append, length_singleton]; omega),
        chunk_eq_nil (by omega)]

end Chunk

end Apple.Lib
