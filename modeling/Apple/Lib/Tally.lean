import Mathlib.Algebra.BigOperators.Finprod
import Mathlib.Data.Set.Card
import Apple.Lib.Run

/-!
# Counting the threads in a state

`tally P pc` is the number of threads whose local state satisfies `P`, `total w pc` the sum of a
weight of the local states. There may be infinitely many threads; in a run from a state in
which all are at rest only finitely many have moved. One step of a thread changes a tally or
a total by what the thread's own states say.
-/

namespace Apple.Lib

open Function

variable {ι π σ ε : Type*} {P Q : π → Prop} {pc : ι → π}

/-- The number of threads with `P`. -/
noncomputable def tally (P : π → Prop) (pc : ι → π) : ℕ := {t | P (pc t)}.ncard

/-- Only finitely many threads are not at `rest`. -/
def FinitelyActive (rest : π) (pc : ι → π) : Prop := {t | pc t ≠ rest}.Finite

theorem finitelyActive_const (rest : π) : FinitelyActive rest fun _ : ι => rest := by
  simp [FinitelyActive]

variable {rest : π} {w : π → ℕ}

variable (h : FinitelyActive rest pc)

include h in
theorem FinitelyActive.finite (hP : ¬ P rest) : {t | P (pc t)}.Finite := by
  apply Set.Finite.subset h
  intro t ht heq
  exact hP (heq ▸ ht)

theorem tally_const (hP : ¬ P rest) : tally P (fun _ : ι => rest) = 0 := by
  simp [tally, hP]

/-- The sum of the weights of the threads. -/
noncomputable def total (w : π → ℕ) (pc : ι → π) : ℕ := ∑ᶠ t, w (pc t)

theorem total_eq_zero (h : ∀ t, w (pc t) = 0) : total w pc = 0 := by
  unfold total
  simp only [h, finsum_zero]

theorem total_eq_sum (hw : w rest = 0) {s : Finset ι}
    (hs : ∀ t, pc t ≠ rest → t ∈ s) : total w pc = ∑ t ∈ s, w (pc t) := by
  apply finsum_eq_sum_of_support_subset
  intro t ht
  refine hs t fun heq => ht ?_
  show w (pc t) = 0
  rw [heq, hw]

/-- At most one thread has a weight. -/
theorem total_le_one (hw : ∀ p, w p ≤ 1)
    (h : ∀ t u, w (pc t) ≠ 0 → w (pc u) ≠ 0 → t = u) : total w pc ≤ 1 := by
  by_cases hall : ∀ t, w (pc t) = 0
  · rw [total_eq_zero hall]
    exact zero_le
  · push Not at hall
    obtain ⟨t, ht⟩ := hall
    have hsingle : total w pc = w (pc t) := by
      apply finsum_eq_single
      intro u hu
      by_contra hne
      exact hu (h u t hne ht)
    rw [hsingle]
    exact hw (pc t)

include h in
theorem le_total (hw : w rest = 0) (t : ι) : w (pc t) ≤ total w pc := by
  by_cases ht : pc t = rest
  · rw [ht, hw]
    exact zero_le
  · rw [total_eq_sum hw fun u hu => h.mem_toFinset.mpr hu]
    exact Finset.single_le_sum (f := fun u => w (pc u)) (fun _ _ => zero_le)
      (h.mem_toFinset.mpr ht)

theorem total_eq_univ [Fintype ι] (w : π → ℕ) (pc : ι → π) : total w pc = ∑ t, w (pc t) :=
  finsum_eq_sum_of_fintype _

theorem le_total_univ [Fintype ι] (w : π → ℕ) (pc : ι → π) (t : ι) : w (pc t) ≤ total w pc := by
  rw [total_eq_univ]
  exact Finset.single_le_sum (f := fun u => w (pc u)) (fun _ _ => zero_le) (Finset.mem_univ t)

variable [DecidableEq ι]

include h in
theorem FinitelyActive.update (t : ι) (p : π) : FinitelyActive rest (update pc t p) := by
  apply Set.Finite.subset (h.insert t)
  intro u hu
  by_cases hut : u = t
  · exact .inl hut
  · rw [Set.mem_ofPred_eq, update_of_ne hut] at hu
    exact .inr hu

include h in
/-- **One thread moves.** -/
theorem tally_update [DecidablePred P] (hP : ¬ P rest) (t : ι) (p : π) :
    tally P (update pc t p) + (if P (pc t) then 1 else 0) = tally P pc + if P p then 1 else 0 := by
  have hfin := (h.finite hP).sdiff (t := {t})
  have hsplit : ∀ q : π, {u | P (update pc t q u)} =
      if P q then insert t ({u | P (pc u)} \ {t}) else {u | P (pc u)} \ {t} := by
    intro q
    ext u
    by_cases hu : u = t
    · subst hu
      split_ifs with hq <;> simp [hq]
    · split_ifs with hq <;> simp [hu]
  have hcard : ∀ q : π, tally P (update pc t q) =
      ({u | P (pc u)} \ {t}).ncard + if P q then 1 else 0 := by
    intro q
    rw [tally, hsplit q]
    split_ifs with hq
    · exact Set.ncard_insert_of_notMem (by simp) hfin
    · rfl
  have hsame := hcard (pc t)
  rw [update_eq_self] at hsame
  rw [hcard p]
  omega

include h in
/-- **One thread moves.** -/
theorem total_update (hw : w rest = 0)
    (t : ι) (p : π) : total w (update pc t p) + w (pc t) = total w pc + w p := by
  have hmem : ∀ u, update pc t p u ≠ rest ∨ pc u ≠ rest → u ∈ insert t h.toFinset := by
    intro u hu
    by_cases hut : u = t
    · exact Finset.mem_insert.mpr (.inl hut)
    · rw [update_of_ne hut, or_self] at hu
      exact Finset.mem_insert.mpr (.inr (h.mem_toFinset.mpr hu))
  rw [total_eq_sum hw fun u hu => hmem u (.inl hu),
    total_eq_sum hw fun u hu => hmem u (.inr hu),
    ← Finset.add_sum_erase _ _ (Finset.mem_insert_self t h.toFinset),
    ← Finset.add_sum_erase _ (fun u => w (pc u)) (Finset.mem_insert_self t h.toFinset)]
  have hrest : ∀ u ∈ (insert t h.toFinset).erase t, w (update pc t p u) = w (pc u) := by
    intro u hu
    rw [update_of_ne (Finset.ne_of_mem_erase hu)]
  rw [Finset.sum_congr rfl hrest, update_self]
  omega

/-- The sum of `f` over the events of a run. -/
def amount (f : ε → ℕ) (es : List (ι × ε)) : ℕ := (es.map fun x => f x.2).sum

omit [DecidableEq ι] in
@[simp] theorem amount_nil (f : ε → ℕ) : amount f ([] : List (ι × ε)) = 0 := rfl

omit [DecidableEq ι] in
@[simp] theorem amount_snoc (f : ε → ℕ) (es : List (ι × ε)) (x : ι × ε) :
    amount f (es ++ [x]) = amount f es + f x.2 := by
  simp [amount]

omit [DecidableEq ι] in
@[simp] theorem amount_zero (es : List (ι × ε)) : amount (fun _ => 0) es = 0 := by
  simp [amount]

omit [DecidableEq ι] in
theorem amount_append (f : ε → ℕ) (es fs : List (ι × ε)) :
    amount f (es ++ fs) = amount f es + amount f fs := by
  simp [amount]

/-- **Balance of the threads.** If each step moves the weight of its thread by `up e - down e`, a
run moves the total by the amounts of its events. -/
theorem Run.total_balance {step : ι → π → σ → ε → π → σ → Prop} (w : π → ℕ) (up down : ε → ℕ)
    (rest : π) (hw : w rest = 0)
    (hstep : ∀ t p s e p' s', step t p s e p' s' → w p' + down e = w p + up e)
    {g g' : Threads ι π σ} {es : List (ι × ε)} (hrun : Run (Interleave step) g es g')
    (h : FinitelyActive rest g.pc) :
    total w g'.pc + amount down es = total w g.pc + amount up es := by
  have hstrong := hrun.strengthen (I := fun g => FinitelyActive rest g.pc) ?_ h
  · refine hstrong.balance (m := fun g => total w g.pc) ?_
    rintro g x g' ⟨hfin, hst⟩
    cases hst with
    | @mk t e p s hst =>
    have hown := hstep _ _ _ _ _ _ hst
    have htotal := total_update hfin hw t p
    dsimp only
    omega
  · rintro g e g' hfin ⟨hst⟩
    exact hfin.update _ _

end Apple.Lib
