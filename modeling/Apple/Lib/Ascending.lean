import Mathlib.Data.Finset.Sort
import Mathlib.Data.List.Range
import Mathlib.Tactic

/-!
# Members of a set of numbers in increasing order

`members p n` lists the numbers below `n` that satisfy `p`, the least first. A scan that looks
for one member after the other, or for block after block, produces a listing piece by piece.

Results:
* `members_eq_cons`: the listing starts with the least member.
* `members_add`: the listing of two adjoining ranges.
* `members_eq_sort`: the listing of a finite set is its sorted list.
* `sort_eq_block_append`: a sorted list starts with the block of its least elements.
-/

namespace Apple.Lib

open List

/-- The numbers below `n` that satisfy `p`, in increasing order. -/
def members (p : ℕ → Bool) (n : ℕ) : List ℕ := (List.range n).filter p

variable {p q : ℕ → Bool} {m n a : ℕ}

@[simp] theorem mem_members : a ∈ members p n ↔ a < n ∧ p a = true := by
  simp [members]

theorem members_nodup : (members p n).Nodup := nodup_range.filter _

theorem members_congr (h : ∀ i < n, p i = q i) : members p n = members q n := by
  apply filter_congr
  intro i hi
  exact h i (mem_range.mp hi)

theorem members_eq_nil (h : ∀ i < n, p i = false) : members p n = [] := by
  rw [members, filter_eq_nil_iff]
  intro i hi
  simp [h i (mem_range.mp hi)]

theorem members_add :
    members p (m + n) = members p m ++ (members (fun i => p (m + i)) n).map (m + ·) := by
  rw [members, range_add, filter_append, List.filter_map]
  rfl

/-- **The least member first**: what follows it is the listing without it. -/
theorem members_eq_cons (ha : a < n) (hpa : p a = true) (hleast : ∀ i < a, p i = false) :
    members p n = a :: members (fun i => p i && decide (i ≠ a)) n := by
  obtain ⟨k, rfl⟩ : ∃ k, n = a + (1 + k) := ⟨n - a - 1, by omega⟩
  have hlow : ∀ i < a, (p i && decide (i ≠ a)) = false := by
    intro i hi
    rw [hleast i hi, Bool.false_and]
  have hone : members (fun i => p (a + i)) 1 = [0] := by
    simp [members, hpa]
  have hone' : members (fun i => p (a + i) && decide (a + i ≠ a)) 1 = [] := by
    simp [members]
  rw [members_add, members_eq_nil hleast, members_add, members_add, members_eq_nil hlow,
    members_add, hone, hone']
  simp

variable {s : Finset ℕ}

/-- The listing of a finite set is its sorted list. -/
theorem members_eq_sort (hs : ∀ i ∈ s, i < n) :
    members (fun i => decide (i ∈ s)) n = s.sort (· ≤ ·) := by
  have hsorted : (members (fun i => decide (i ∈ s)) n).Pairwise (· ≤ ·) :=
    (pairwise_le_range).filter _
  refine List.Perm.eq_of_pairwise' hsorted (s.pairwise_sort _) ?_
  rw [perm_ext_iff_of_nodup members_nodup (s.sort_nodup _)]
  intro i
  rw [mem_members, Finset.mem_sort]
  simp only [decide_eq_true_eq]
  exact ⟨And.right, fun hi => ⟨hs i hi, hi⟩⟩

/-- The elements of `s` among the `w` numbers from `b` on, in increasing order. -/
def block (s : Finset ℕ) (b w : ℕ) : List ℕ :=
  (members (fun i => decide (b + i ∈ s)) w).map (b + ·)

theorem mem_block {b w x : ℕ} : x ∈ block s b w ↔ x ∈ s ∧ b ≤ x ∧ x < b + w := by
  simp only [block, List.mem_map, mem_members, decide_eq_true_eq]
  constructor
  · rintro ⟨i, ⟨hi, his⟩, rfl⟩
    exact ⟨his, by omega, by omega⟩
  · rintro ⟨hx, hb, hw⟩
    refine ⟨x - b, ⟨by omega, ?_⟩, by omega⟩
    rwa [Nat.add_sub_cancel' hb]

/-- **The first block comes first**: the sorted list is that of the block that holds the least
elements, followed by that of the rest. -/
theorem sort_eq_block_append {b w : ℕ} (hb : ∀ x ∈ s, b ≤ x) :
    s.sort (· ≤ ·) = block s b w ++ (s \ (block s b w).toFinset).sort (· ≤ ·) := by
  obtain ⟨r, hr⟩ : ∃ r, ∀ x ∈ s, x < b + (w + r) := by
    refine ⟨s.sup id + 1, fun x hx => ?_⟩
    have := Finset.le_sup (f := id) hx
    simp only [id] at this
    omega
  have hlow : ∀ t ⊆ s, members (fun i => decide (i ∈ t)) b = [] := fun t ht =>
    members_eq_nil fun i hi => decide_eq_false fun hit => absurd (hb i (ht hit)) (by omega)
  have hblock : members (fun i => decide (b + i ∈ s \ (block s b w).toFinset)) w = [] := by
    apply members_eq_nil
    intro i hi
    apply decide_eq_false
    rw [Finset.mem_sdiff, List.mem_toFinset, mem_block]
    rintro ⟨his, hnot⟩
    exact hnot ⟨his, by omega, by omega⟩
  have hrest : members (fun i => decide (b + (w + i) ∈ s \ (block s b w).toFinset)) r =
      members (fun i => decide (b + (w + i) ∈ s)) r := by
    apply members_congr
    intro i _
    rw [decide_eq_decide, Finset.mem_sdiff, List.mem_toFinset, mem_block]
    exact ⟨And.left, fun h => ⟨h, fun hi => by omega⟩⟩
  rw [← members_eq_sort hr,
    ← members_eq_sort fun x hx => hr x (Finset.sdiff_subset hx),
    members_add, members_add, members_add, members_add, hlow s subset_rfl,
    hlow _ Finset.sdiff_subset, hblock, hrest]
  simp only [block, nil_append, map_append]

end Apple.Lib
