import Mathlib.Data.Multiset.Range
import Mathlib.Data.Set.Basic
import Mathlib.Logic.Equiv.Basic
import Mathlib.Order.Antisymmetrization
import Mathlib.Tactic

/-!
# Heap order over a forest of positions

A heap assigns a value to every position of a forest, given by a partial map
`parent` to smaller positions; only the positions of a set `P` count. The
key of a parent is never larger than that of its child. `NearHeap b i` is what is left
of the order when the value at one position `i` is arbitrary: a sift moves that position
towards a root (`NearHeap.up`) or towards a leaf (`NearHeap.down`) and ends in a heap.

A total preorder of the values is an order of keys (`exists_rank`).

Results: `NearHeap.up`, `NearHeap.down`, `NearHeap.isHeap`, `IsHeap.root_le`.
-/

namespace Apple.Lib.HeapOrder

universe u

variable {κ τ α : Type*}

section Rearrange

variable [DecidableEq κ]

/-- The values of `b` with those at `i` and `j` exchanged. -/
def exchange (b : κ → τ) (i j : κ) : κ → τ := fun k => b (Equiv.swap i j k)

@[simp] theorem exchange_left (b : κ → τ) (i j : κ) : exchange b i j i = b j := by
  simp [exchange]

@[simp] theorem exchange_right (b : κ → τ) (i j : κ) : exchange b i j j = b i := by
  simp [exchange]

theorem exchange_of_ne (b : κ → τ) {i j k : κ} (hi : k ≠ i) (hj : k ≠ j) :
    exchange b i j k = b k := by
  simp [exchange, Equiv.swap_apply_of_ne_of_ne hi hj]

end Rearrange

/-- `c` has the values of `b`, moved around inside `P`. -/
def Rearranges (P : Set κ) (b c : κ → τ) : Prop :=
  ∃ σ : Equiv.Perm κ, (∀ k, k ∉ P → σ k = k) ∧ ∀ k, c k = b (σ k)

namespace Rearranges

variable {P : Set κ} {b c d : κ → τ}

theorem refl (P : Set κ) (b : κ → τ) : Rearranges P b b := ⟨Equiv.refl κ, by simp, by simp⟩

theorem trans (h : Rearranges P b c) (h' : Rearranges P c d) : Rearranges P b d := by
  obtain ⟨σ, hσ, hc⟩ := h
  obtain ⟨ρ, hρ, hd⟩ := h'
  refine ⟨ρ.trans σ, fun k hk => ?_, fun k => ?_⟩
  · simp [hρ k hk, hσ k hk]
  · rw [hd, hc, Equiv.trans_apply]

theorem exchange [DecidableEq κ] {i j : κ} (hi : i ∈ P) (hj : j ∈ P) :
    Rearranges P b (exchange b i j) := by
  refine ⟨Equiv.swap i j, fun k hk => ?_, fun k => rfl⟩
  exact Equiv.swap_apply_of_ne_of_ne (fun h => hk (h ▸ hi)) (fun h => hk (h ▸ hj))

theorem image_perm {σ : Equiv.Perm κ} (hσ : ∀ k, k ∉ P → σ k = k) : σ '' P = P :=
  Set.image_perm fun k hk => by_contra fun hn => hk (hσ k hn)

/-- The values on `P` stay the same. -/
theorem image_eq (h : Rearranges P b c) : c '' P = b '' P := by
  obtain ⟨σ, hσ, hc⟩ := h
  rw [show c = b ∘ σ from funext hc, Set.image_comp, image_perm hσ]

theorem injOn (h : Rearranges P b c) (hb : Set.InjOn b P) : Set.InjOn c P := by
  obtain ⟨σ, hσ, hc⟩ := h
  rw [show c = b ∘ σ from funext hc]
  exact hb.comp σ.injective.injOn fun k hk => (image_perm hσ).subset ⟨k, hk, rfl⟩

/-- The values below `n`, with their multiplicities. -/
theorem filterMap_range {τ : Type*} {b c : ℕ → Option τ} {n : ℕ} (h : Rearranges {k | k < n} b c) :
    (Multiset.range n).filterMap c = (Multiset.range n).filterMap b := by
  obtain ⟨σ, hσ, hc⟩ := h
  have hrange : (Multiset.range n).map σ = Multiset.range n := by
    refine (Multiset.Nodup.ext ((Multiset.nodup_range n).map σ.injective)
      (Multiset.nodup_range n)).mpr fun k => ?_
    simp only [Multiset.mem_map, Multiset.mem_range]
    exact Set.ext_iff.mp (image_perm hσ) k
  have hcomp : c = b ∘ σ := funext hc
  rw [hcomp, ← Multiset.filterMap_map, hrange]

end Rearranges

/-- A total preorder compares the keys of a linear order. -/
theorem exists_rank {τ : Type u} (le : τ → τ → Prop) (htotal : ∀ x y, le x y ∨ le y x)
    (htrans : ∀ x y z, le x y → le y z → le x z) :
    ∃ (α : Type u) (_ : LinearOrder α) (rank : τ → α), ∀ x y, rank x ≤ rank y ↔ le x y := by
  classical
  let preorder : Preorder τ :=
    { le := le, le_refl := fun x => (htotal x x).elim id id, le_trans := htrans }
  have htot : @Std.Total τ (· ≤ ·) := ⟨htotal⟩
  exact ⟨Antisymmetrization τ (· ≤ ·), inferInstance, toAntisymmetrization (· ≤ ·),
    fun x y => toAntisymmetrization_le_toAntisymmetrization_iff⟩

section Order

variable [LinearOrder κ] [LinearOrder α]
variable (parent : κ → Option κ) (P : Set κ) (key : τ → α)

/-- No value is smaller than the one at its parent. -/
def IsHeap (b : κ → τ) : Prop :=
  ∀ j ∈ P, ∀ p, parent j = some p → key (b p) ≤ key (b j)

/-- The order of every pair that does not touch `i`, and that of the parent of `i` with the
children of `i`. -/
structure NearHeap (b : κ → τ) (i : κ) : Prop where
  away : ∀ j ∈ P, ∀ p, parent j = some p → j ≠ i → p ≠ i → key (b p) ≤ key (b j)
  across : ∀ j ∈ P, parent j = some i → ∀ p, parent i = some p → key (b p) ≤ key (b j)

/-- The value at `i` is not smaller than the one at its parent. -/
def AboveOk (b : κ → τ) (i : κ) : Prop := ∀ p, parent i = some p → key (b p) ≤ key (b i)

/-- The value at `i` is not larger than those at its children. -/
def BelowOk (b : κ → τ) (i : κ) : Prop := ∀ j ∈ P, parent j = some i → key (b i) ≤ key (b j)

variable {parent P key} {b : κ → τ} {i : κ}

theorem NearHeap.isHeap (h : NearHeap parent P key b i) (ha : AboveOk parent key b i)
    (hb : BelowOk parent P key b i) : IsHeap parent P key b := by
  intro j hj p hp
  by_cases hji : j = i
  · subst hji; exact ha p hp
  · by_cases hpi : p = i
    · subst hpi; exact hb j hj hp
    · exact h.away j hj p hp hji hpi

section

variable (hlt : ∀ j p, parent j = some p → p < j)
include hlt

/-- What stays of a heap when the value at `i`, or its key, changes. -/
theorem IsHeap.nearHeap (h : IsHeap parent P key b) (hi : i ∈ P)
    (hclosed : ∀ j ∈ P, ∀ p, parent j = some p → p ∈ P) {c : κ → τ} {key' : τ → α}
    (hc : ∀ k ∈ P, k ≠ i → key' (c k) = key (b k)) : NearHeap parent P key' c i where
  away j hj p hp hji hpi := by
    rw [hc j hj hji, hc p (hclosed j hj p hp) hpi]
    exact h j hj p hp
  across j hj hji p hp := by
    rw [hc j hj (hlt j i hji).ne', hc p (hclosed i hi p hp) (hlt i p hp).ne]
    exact (h i hi p hp).trans (h j hj i hji)

/-- One step towards the root: the value at `i` is exchanged with the larger one at its
parent. -/
theorem NearHeap.up (h : NearHeap parent P key b i)
    {p : κ} (hp : parent i = some p) (hpP : p ∈ P) (hkey : key (b i) < key (b p)) :
    NearHeap parent P key (exchange b i p) p ∧ BelowOk parent P key (exchange b i p) p := by
  have hpi : p < i := hlt i p hp
  refine ⟨⟨fun j hj q hq hjp hqp => ?_, fun j hj hjp g hg => ?_⟩, fun j hj hjp => ?_⟩
  · have hji : j ≠ i := by
      rintro rfl
      exact hqp (Option.some.inj (hq.symm.trans hp))
    rw [exchange_of_ne b hji hjp]
    by_cases hqi : q = i
    · subst hqi
      rw [exchange_left]
      exact h.across j hj hq p hp
    · rw [exchange_of_ne b hqi hqp]
      exact h.away j hj q hq hji hqi
  · have hgp : g < p := hlt p g hg
    have hup := h.away p hpP g hg hpi.ne (hgp.trans hpi).ne
    rw [exchange_of_ne b (hgp.trans hpi).ne hgp.ne]
    by_cases hji : j = i
    · subst hji
      rwa [exchange_left]
    · rw [exchange_of_ne b hji (hlt j p hjp).ne']
      exact hup.trans (h.away j hj p hjp hji hpi.ne)
  · rw [exchange_right]
    by_cases hji : j = i
    · subst hji
      rw [exchange_left]
      exact hkey.le
    · rw [exchange_of_ne b hji (hlt j p hjp).ne']
      exact hkey.le.trans (h.away j hj p hjp hji hpi.ne)

/-- One step towards the leaves: the value at `i` is exchanged with the smallest of those at
its children. -/
theorem NearHeap.down (h : NearHeap parent P key b i) {c : κ} (hc : parent c = some i) (hcP : c ∈ P)
    (hmin : ∀ j ∈ P, parent j = some i → key (b c) ≤ key (b j)) (hkey : key (b c) ≤ key (b i)) :
    NearHeap parent P key (exchange b i c) c ∧ AboveOk parent key (exchange b i c) c := by
  have hic : i < c := hlt c i hc
  refine ⟨⟨fun j hj q hq hjc hqc => ?_, fun j hj hjc p hp => ?_⟩, fun p hp => ?_⟩
  · by_cases hqi : q = i
    · subst hqi
      rw [exchange_left, exchange_of_ne b (hlt j q hq).ne' hjc]
      exact hmin j hj hq
    · rw [exchange_of_ne b hqi hqc]
      by_cases hji : j = i
      · subst hji
        rw [exchange_left]
        exact h.across c hcP hc q hq
      · rw [exchange_of_ne b hji hjc]
        exact h.away j hj q hq hji hqi
  · obtain rfl : p = i := Option.some.inj (hp.symm.trans hc)
    have hcj : c < j := hlt j c hjc
    rw [exchange_left, exchange_of_ne b (hic.trans hcj).ne' hcj.ne']
    exact h.away j hj c hjc (hic.trans hcj).ne' hic.ne'
  · obtain rfl : p = i := Option.some.inj (hp.symm.trans hc)
    rw [exchange_left, exchange_right]
    exact hkey

/-- In a heap with one root the root has the smallest key. -/
theorem IsHeap.root_le [WellFoundedLT κ] (h : IsHeap parent P key b)
    (hclosed : ∀ j ∈ P, ∀ p, parent j = some p → p ∈ P) {r : κ}
    (hroot : ∀ j ∈ P, parent j = none → j = r) {j : κ} (hj : j ∈ P) : key (b r) ≤ key (b j) := by
  induction j using WellFoundedLT.induction with
  | ind j ih =>
    cases hp : parent j with
    | none => rw [hroot j hj hp]
    | some p => exact (ih p (hlt j p hp) (hclosed j hj p hp)).trans (h j hj p hp)

end

end Order

end Apple.Lib.HeapOrder
