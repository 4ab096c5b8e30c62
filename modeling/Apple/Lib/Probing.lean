import Mathlib.Data.Finset.Card
import Mathlib.Logic.Function.Iterate
import Mathlib.Tactic

/-!
# Open addressing with a bounded search

A table with `n` positions is a function `f : ℕ → Option α`; only the positions below `n`
matter, and `none` is a free position. The items have keys, and an item is searched by its
key, from the key's start position along the cycle `next`. An insertion takes the first free
position, and the greatest displacement of all insertions is kept; a search gives up after
that many steps. It does not stop at free positions, so that deletions may leave holes.

* `Cyclic n next`: the iterates of `next` visit every position below `n` once.
* `probeFree`, `probeHit`: the two loops. Both report `bad` when they are back where they
  started.
* `Probed`: the invariant of such a table. `Probed.probeHit_eq` says that searches are exact
  and never end in `bad`; `Probed.insert` and `Probed.erase` keep the invariant.
* `items`: the items in the order of a scan.
-/

namespace Apple.Lib

open Function List Option Nat

/-! ## Cycles -/

/-- `next` maps positions below `n` to positions below `n`, and its first `n` iterates from
any of them differ. -/
structure Cyclic (n : ℕ) (next : ℕ → ℕ) : Prop where
  lt : ∀ i, i < n → next i < n
  inj : ∀ b, b < n → ∀ j, j < n → ∀ k, k < n → next^[j] b = next^[k] b → j = k

namespace Cyclic

variable {n : ℕ} {next : ℕ → ℕ} {b : ℕ}

theorem iterate_lt (h : Cyclic n next) (hb : b < n) (k : ℕ) : next^[k] b < n := by
  induction k with
  | zero => exact hb
  | succ k ih =>
    rw [iterate_succ_apply']
    exact h.lt _ ih

/-- Before the `n`-th step the cycle is not back at its start. -/
theorem next_ne_start (h : Cyclic n next) {k : ℕ} (hb : b < n) (hk : k + 1 < n) :
    next (next^[k] b) ≠ b := by
  rw [← iterate_succ_apply' next k b]
  intro heq
  have := h.inj b hb (k + 1) hk 0 (by omega) heq
  omega

end Cyclic

variable {n : ℕ}

/-- Going up by one, and from the last position to the first. -/
theorem cyclic_succ (hn : 0 < n) : Cyclic n fun i => (i + 1) % n := by
  have hiter : ∀ b, b < n → ∀ k, (fun i => (i + 1) % n)^[k] b = (b + k) % n := by
    intro b hb k
    induction k with
    | zero => exact (mod_eq_of_lt hb).symm
    | succ k ih => rw [iterate_succ_apply', ih, mod_add_mod, add_assoc]
  refine ⟨fun i _ => mod_lt _ hn, fun b hb j hj k hk heq => ?_⟩
  rw [hiter b hb, hiter b hb] at heq
  have hmod : j % n = k % n := Nat.ModEq.add_left_cancel' b heq
  rwa [mod_eq_of_lt hj, mod_eq_of_lt hk] at hmod

/-- Going down by one, and from the first position to the last. -/
theorem cyclic_pred (hn : 0 < n) : Cyclic n fun i => if i = 0 then n - 1 else i - 1 := by
  have hiter : ∀ b, b < n → ∀ k, k < n →
      (fun i => if i = 0 then n - 1 else i - 1)^[k] b = if k ≤ b then b - k else b + n - k := by
    intro b hb k
    induction k with
    | zero => simp
    | succ k ih =>
      intro hk
      rw [iterate_succ_apply', ih (by omega)]
      split_ifs <;> omega
  refine ⟨fun i hi => ?_, fun b hb j hj k hk heq => ?_⟩
  · split_ifs <;> omega
  · rw [hiter b hb j hj, hiter b hb k hk] at heq
    split_ifs at heq <;> omega

/-! ## The loops -/

section Loops

variable (next : ℕ → ℕ)

/-- Search for a position that is not `full` from `index` on, with the displacement `disp`;
`none` when the search is back at `begin`. -/
def probeFree (full : ℕ → Bool) (begin : ℕ) : (fuel : ℕ) → (index disp : ℕ) → Option (ℕ × ℕ)
  | 0, _, _ => none
  | fuel + 1, index, disp =>
    if full index then
      if next index = begin then none else probeFree full begin fuel (next index) (disp + 1)
    else some (index, disp)

/-- The outcome of a search. -/
inductive ProbeResult where
  | found (index : ℕ)
  | absent
  | bad
deriving DecidableEq, Repr

/-- Search for a position that is a `hit` from `index` on, at most `maxDisp` steps from
`begin`. -/
def probeHit (hit : ℕ → Bool) (begin maxDisp : ℕ) : (fuel : ℕ) → (index disp : ℕ) → ProbeResult
  | 0, _, _ => .bad
  | fuel + 1, index, disp =>
    if hit index then .found index
    else if next index = begin then .bad
    else if disp + 1 > maxDisp then .absent
    else probeHit hit begin maxDisp fuel (next index) (disp + 1)

end Loops

/-- A loop over a list that does not fail, with an invariant of the items it has gone through. -/
theorem foldlM_prefix {σ α ε : Type*} {f : σ → α → Except ε σ} {I : List α → σ → Prop} {s : σ}
    {l : List α} (h0 : I [] s) (hstep : ∀ pre a t, pre ++ [a] <+: l → I pre t →
      ∃ t', f t a = .ok t' ∧ I (pre ++ [a]) t') : ∃ t, l.foldlM f s = .ok t ∧ I l t := by
  induction l using List.reverseRecOn with
  | nil => exact ⟨s, rfl, h0⟩
  | append_singleton l a ih =>
    obtain ⟨t, ht, hI⟩ := ih fun pre b t hpre => hstep pre b t (hpre.trans (prefix_append _ _))
    rw [foldlM_append, ht]
    obtain ⟨t', ht', hI'⟩ := hstep l a t prefix_rfl hI
    exact ⟨t', (bind_pure (f t a)).trans ht', hI'⟩

/-! ## The contents of a table -/

section Contents

variable {α : Type*}

/-- The occupied positions. -/
def occupied (n : ℕ) (f : ℕ → Option α) : Finset ℕ := (Finset.range n).filter fun i => (f i).isSome

/-- `a` has a position. -/
def Occurs (n : ℕ) (f : ℕ → Option α) (a : α) : Prop := ∃ i, i < n ∧ f i = some a

/-- The items in the order of their positions. -/
def items (n : ℕ) (f : ℕ → Option α) : List α := (List.range n).filterMap f

variable {n : ℕ} {f : ℕ → Option α} {a : α} {i : ℕ}

theorem mem_items : a ∈ items n f ↔ Occurs n f a := by
  simp [items, Occurs]

theorem length_items : (items n f).length = (occupied n f).card := by
  rw [items, occupied, length_filterMap_eq_countP, countP_eq_length_filter]
  congr 1
  simp

theorem occupied_empty (n : ℕ) : occupied n (fun _ => (none : Option α)) = ∅ := by
  simp [occupied]

theorem update_eq_some {j : ℕ} {b : α} (h : update f i (some a) j = some b) :
    j = i ∧ b = a ∨ j ≠ i ∧ f j = some b := by
  by_cases hji : j = i
  · subst hji
    rw [update_self] at h
    exact .inl ⟨rfl, (some.inj h).symm⟩
  · exact .inr ⟨hji, (update_of_ne hji _ f).symm.trans h⟩

theorem occurs_insert (hi : i < n) (hfree : f i = none) (a b : α) :
    Occurs n (update f i (some a)) b ↔ b = a ∨ Occurs n f b := by
  constructor
  · rintro ⟨j, hj, hjb⟩
    exact (update_eq_some hjb).imp And.right fun hjb => ⟨j, hj, hjb.2⟩
  · rintro (rfl | ⟨j, hj, hjb⟩)
    · exact ⟨i, hi, update_self ..⟩
    · refine ⟨j, hj, (update_of_ne ?_ _ _).trans hjb⟩
      rintro rfl
      simp [hfree] at hjb

theorem card_occupied_insert (hi : i < n) (hfree : f i = none) (a : α) :
    (occupied n (update f i (some a))).card = (occupied n f).card + 1 := by
  have heq : occupied n (update f i (some a)) = insert i (occupied n f) := by
    ext j
    by_cases hji : j = i
    · subst hji
      simp [occupied, hi]
    · simp [occupied, hji]
  rw [heq, Finset.card_insert_of_notMem (by simp [occupied, hfree])]

theorem card_occupied_erase (hi : i < n) (ha : f i = some a) :
    (occupied n (update f i none)).card + 1 = (occupied n f).card := by
  have heq : occupied n (update f i none) = (occupied n f).erase i := by
    ext j
    by_cases hji : j = i
    · subst hji
      simp [occupied]
    · simp [occupied, hji]
  rw [heq, Finset.card_erase_add_one (by simp [occupied, hi, ha])]

end Contents

/-! ## Tables without two items of one key -/

section DistinctKeys

variable {α κ : Type*} {n : ℕ} {key : α → κ} {f : ℕ → Option α}

/-- No two positions have items of the same key. -/
def DistinctKeys (n : ℕ) (key : α → κ) (f : ℕ → Option α) : Prop :=
  ∀ i, i < n → ∀ j, j < n → ∀ a b, f i = some a → f j = some b → key a = key b → i = j

variable (h : DistinctKeys n key f) {i : ℕ} {a : α}

include h in
theorem DistinctKeys.set (honly : ∀ j, j < n → ∀ b, f j = some b → key b = key a → j = i) :
    DistinctKeys n key (update f i (some a)) := by
  intro j hj l hl b c hb hc hbc
  rcases update_eq_some hb with ⟨rfl, rfl⟩ | ⟨-, hb'⟩ <;>
    rcases update_eq_some hc with ⟨rfl, rfl⟩ | ⟨-, hc'⟩
  · rfl
  · exact (honly l hl c hc' hbc.symm).symm
  · exact honly j hj b hb' hbc
  · exact h j hj l hl b c hb' hc' hbc

theorem occurs_set (hi : i < n) (hown : ∀ b, f i = some b → key b = key a)
    (honly : ∀ j, j < n → ∀ b, f j = some b → key b = key a → j = i) (b : α) :
    Occurs n (update f i (some a)) b ↔ b = a ∨ key b ≠ key a ∧ Occurs n f b := by
  constructor
  · rintro ⟨j, hj, hjb⟩
    refine (update_eq_some hjb).imp And.right fun ⟨hji, hjb⟩ => ⟨fun hk => ?_, j, hj, hjb⟩
    exact hji (honly j hj b hjb hk)
  · rintro (rfl | ⟨hne, j, hj, hjb⟩)
    · exact ⟨i, hi, update_self ..⟩
    · refine ⟨j, hj, (update_of_ne ?_ _ _).trans hjb⟩
      rintro rfl
      exact hne (hown b hjb)

theorem update_none_eq_some {j : ℕ} (hj : update f i none j = some a) : j ≠ i ∧ f j = some a := by
  by_cases hji : j = i
  · subst hji
    simp at hj
  · rw [update_of_ne hji] at hj
    exact ⟨hji, hj⟩

include h in
theorem DistinctKeys.erase (i : ℕ) :
    DistinctKeys n key (update f i none) := fun j hj l hl a b ha hb =>
  h j hj l hl a b (update_none_eq_some ha).2 (update_none_eq_some hb).2

include h in
theorem DistinctKeys.occurs_erase (hi : i < n)
    (ha : f i = some a) (b : α) : Occurs n (update f i none) b ↔ key b ≠ key a ∧ Occurs n f b := by
  constructor
  · rintro ⟨j, hj, hjb⟩
    obtain ⟨hji, hjb⟩ := update_none_eq_some hjb
    exact ⟨fun hk => hji (h j hj i hi b a hjb ha hk), j, hj, hjb⟩
  · rintro ⟨hne, j, hj, hjb⟩
    refine ⟨j, hj, ?_⟩
    rw [update_of_ne]
    · exact hjb
    · rintro rfl
      rw [ha] at hjb
      exact hne (congrArg key (some.inj hjb).symm)

include h in
theorem DistinctKeys.pairwise_items : (items n f).Pairwise fun a b => key a ≠ key b := by
  rw [items, pairwise_filterMap]
  refine nodup_range.imp_of_mem ?_
  intro i j hi hj hij a ha b hb hab
  rw [mem_range] at hi hj
  exact hij (h i hi j hj a b ha hb hab)

include h in
theorem DistinctKeys.nodup_items : (items n f).Nodup :=
  h.pairwise_items.imp fun hne heq => hne (congrArg key heq)

end DistinctKeys

/-! ## The invariant -/

section Invariant

variable {α κ : Type*}

/-- Every item is within `maxDisp` steps of the start of its key, no two positions have the
same key, and a search of `maxDisp` steps does not go round the whole table. -/
structure Probed (n : ℕ) (next : ℕ → ℕ) (start : κ → ℕ) (key : α → κ) (f : ℕ → Option α)
    (maxDisp : ℕ) : Prop where
  near : ∀ i, i < n → ∀ a, f i = some a → ∃ d, d ≤ maxDisp ∧ next^[d] (start (key a)) = i
  distinct : DistinctKeys n key f
  short : maxDisp + 1 < n

variable {n : ℕ} {next : ℕ → ℕ} {start : κ → ℕ} {key : α → κ} {f : ℕ → Option α} {m : ℕ}

theorem Probed.empty (hn : 1 < n) : Probed n next start key (fun _ => none) 0 :=
  ⟨by simp, by simp [DistinctKeys], by simpa using hn⟩

variable (hP : Probed n next start key f m)

include hP in
/-- **Searches are exact.** A search for the items of key `k` finds the only one there is, and
is not back at its start before it gives up. -/
theorem Probed.probeHit_eq (hc : Cyclic n next) {k : κ} (hstart : start k < n) {hit : ℕ → Bool}
    (hhit : ∀ i, hit i = true ↔ ∃ a, f i = some a ∧ key a = k) :
    (∃ i a, i < n ∧ f i = some a ∧ key a = k ∧
        probeHit next hit (start k) m n (start k) 0 = .found i) ∨ ((∀ a, Occurs n f a → key a ≠ k) ∧
        probeHit next hit (start k) m n (start k) 0 = .absent) := by
  -- from the `j`-th probe on, if the probes before it have missed
  have hloop : ∀ left j, left + j = m + 1 → (∀ d, d < j → hit (next^[d] (start k)) = false) →
      ∀ fuel, left ≤ fuel → j ≤ m →
      (∃ i a, i < n ∧ f i = some a ∧ key a = k ∧
        probeHit next hit (start k) m fuel (next^[j] (start k)) j = .found i) ∨
      ((∀ a, Occurs n f a → key a ≠ k) ∧
        probeHit next hit (start k) m fuel (next^[j] (start k)) j = .absent) := by
    intro left
    induction left with
    | zero => omega
    | succ left ih =>
      intro j hj hmiss fuel hfuel hjm
      obtain ⟨fuel, rfl⟩ : ∃ f', fuel = f' + 1 := ⟨fuel - 1, by omega⟩
      rw [probeHit]
      have hshort := hP.short
      split_ifs with hyes hback hfar
      · obtain ⟨a, ha, hka⟩ := (hhit _).mp hyes
        exact .inl ⟨_, a, hc.iterate_lt hstart j, ha, hka, rfl⟩
      · exact absurd hback (hc.next_ne_start hstart (by omega))
      · refine .inr ⟨?_, rfl⟩
        rintro a ⟨i, hi, hfi⟩ hka
        obtain ⟨d, hd, hdi⟩ := hP.near i hi a hfi
        rw [hka] at hdi
        have hyes' : hit (next^[d] (start k)) = true := (hhit _).mpr ⟨a, by rw [hdi, hfi], hka⟩
        rcases lt_or_ge d j with hlt | hge
        · rw [hmiss d hlt] at hyes'
          cases hyes'
        · obtain rfl : d = j := by omega
          exact hyes hyes'
      · rw [← iterate_succ_apply' next j (start k)]
        refine ih (j + 1) (by omega) ?_ fuel (by omega) (by omega)
        intro d hd
        rcases Nat.lt_succ_iff_lt_or_eq.mp hd with hlt | rfl
        · exact hmiss d hlt
        · exact Bool.eq_false_of_not_eq_true hyes
  have hshort := hP.short
  exact hloop (m + 1) 0 rfl (by simp) n (by omega) zero_le

variable {b d i : ℕ} {a : α}

/-- The positions of the first `d` probes are different. -/
theorem card_le_of_probes (hc : Cyclic n next) (hb : b < n) (hd : d ≤ n)
    (hocc : ∀ j, j < d → (f (next^[j] b)).isSome) : d ≤ (occupied n f).card := by
  have himage : (Finset.range d).image (fun j => next^[j] b) ⊆ occupied n f := by
    intro i hi
    obtain ⟨j, hj, rfl⟩ := Finset.mem_image.mp hi
    rw [Finset.mem_range] at hj
    exact Finset.mem_filter.mpr ⟨Finset.mem_range.mpr (hc.iterate_lt hb j), hocc j hj⟩
  have hcard : ((Finset.range d).image fun j => next^[j] b).card = d := by
    rw [Finset.card_image_of_injOn, Finset.card_range]
    intro j hj k hk heq
    have hj : j < d := by simpa using hj
    have hk : k < d := by simpa using hk
    exact hc.inj b hb j (by omega) k (by omega) heq
  rw [← hcard]
  exact Finset.card_le_card himage

/-- **An insertion finds a free position** within as many steps as positions are occupied. -/
theorem probeFree_eq (hc : Cyclic n next) (hb : b < n) (hfree : (occupied n f).card < n)
    {full : ℕ → Bool} (hfull : ∀ i, full i = (f i).isSome) :
    ∃ d, d ≤ (occupied n f).card ∧ f (next^[d] b) = none ∧ (∀ j, j < d → (f (next^[j] b)).isSome) ∧
      probeFree next full b n b 0 = some (next^[d] b, d) := by
  have hexists : ∃ d, f (next^[d] b) = none := by
    by_contra hall
    push Not at hall
    have := card_le_of_probes hc hb le_rfl fun j _ => isSome_iff_ne_none.mpr (hall j)
    omega
  classical
  set d := Nat.find hexists with hd
  have hnone : f (next^[d] b) = none := Nat.find_spec hexists
  have hsome : ∀ j, j < d → (f (next^[j] b)).isSome := fun j hj =>
    isSome_iff_ne_none.mpr (Nat.find_min hexists hj)
  have hdn : d < n := by
    by_contra hge
    have := card_le_of_probes hc hb le_rfl fun j hj => hsome j (by omega)
    omega
  refine ⟨d, card_le_of_probes hc hb hdn.le hsome, hnone, hsome, ?_⟩
  have hloop : ∀ left j, left + j = d → ∀ fuel, left < fuel →
      probeFree next full b fuel (next^[j] b) j = some (next^[d] b, d) := by
    intro left
    induction left with
    | zero =>
      intro j hj fuel hfuel
      obtain rfl : j = d := by omega
      obtain ⟨fuel, rfl⟩ : ∃ f', fuel = f' + 1 := ⟨fuel - 1, by omega⟩
      simp [probeFree, hfull, hnone]
    | succ left ih =>
      intro j hj fuel hfuel
      obtain ⟨fuel, rfl⟩ : ∃ f', fuel = f' + 1 := ⟨fuel - 1, by omega⟩
      rw [probeFree, hfull, if_pos (hsome j (by omega)), if_neg (hc.next_ne_start hb (by omega)),
        ← iterate_succ_apply' next j b]
      exact ih (j + 1) (by omega) fuel (by omega)
  exact hloop d 0 rfl n hdn

include hP in
/-- Storing an item with a new key at a free position, `d` steps from its start. -/
theorem Probed.insert (hid : next^[d] (start (key a)) = i) (hd : d + 1 < n)
    (habsent : ∀ b, Occurs n f b → key b ≠ key a) :
    Probed n next start key (update f i (some a)) (max m d) := by
  refine ⟨fun j hj b hb => ?_, hP.distinct.set fun j hj b hb hk => ?_, ?_⟩
  · rcases update_eq_some hb with ⟨rfl, rfl⟩ | ⟨-, hb⟩
    · exact ⟨d, le_max_right _ _, hid⟩
    · obtain ⟨d', hd', heq⟩ := hP.near j hj b hb
      exact ⟨d', hd'.trans (le_max_left _ _), heq⟩
  · exact absurd hk (habsent b ⟨j, hj, hb⟩)
  · have := hP.short
    omega

include hP in
/-- Exchanging an item for another one of the same key. -/
theorem Probed.replace {b : α} (hi : i < n) (ha : f i = some a) (hkey : key b = key a) :
    Probed n next start key (update f i (some b)) m := by
  refine ⟨fun j hj c hc => ?_, hP.distinct.set fun j hj c hc hk => ?_, hP.short⟩
  · rcases update_eq_some hc with ⟨rfl, rfl⟩ | ⟨-, hc⟩
    · rw [hkey]
      exact hP.near j hj a ha
    · exact hP.near j hj c hc
  · exact hP.distinct j hj i hi c a hc ha (hk.trans hkey)

include hP in
/-- Making a position free. -/
theorem Probed.erase (i : ℕ) : Probed n next start key (update f i none) m :=
  ⟨fun j hj a ha => hP.near j hj a (update_none_eq_some ha).2, hP.distinct.erase i, hP.short⟩

/-- No two positions have the same key, and an item is reached from the start of its key through
occupied positions, so that a search may stop at a free one. -/
structure Reached (n : ℕ) (next : ℕ → ℕ) (start : κ → ℕ) (key : α → κ) (f : ℕ → Option α) :
    Prop where
  distinct : DistinctKeys n key f
  path : ∀ i, i < n → ∀ a, f i = some a → ∃ d, next^[d] (start (key a)) = i ∧
    ∀ j, j < d → (f (next^[j] (start (key a)))).isSome

theorem Reached.set (h : Reached n next start key f)
    (honly : ∀ j, j < n → ∀ b, f j = some b → key b = key a → j = next^[d] (start (key a)))
    (hpath : ∀ j, j < d → (f (next^[j] (start (key a)))).isSome) :
    Reached n next start key (update f (next^[d] (start (key a))) (some a)) := by
  have hkeep : ∀ i l, (f l).isSome → (update f i (some a) l).isSome := by
    intro i l hl
    rw [update_apply]
    split_ifs <;> simp [hl]
  refine ⟨h.distinct.set honly, fun i hi b hb => ?_⟩
  rcases update_eq_some hb with ⟨rfl, rfl⟩ | ⟨-, hb⟩
  · exact ⟨d, rfl, fun j hj => hkeep _ _ (hpath j hj)⟩
  · obtain ⟨d', hd', hpath'⟩ := h.path i hi b hb
    exact ⟨d', hd', fun j hj => hkeep _ _ (hpath' j hj)⟩

end Invariant

end Apple.Lib
