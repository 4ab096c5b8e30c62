import Mathlib.Data.Fintype.Card
import Mathlib.Data.Set.Card
import Mathlib.Data.List.Nodup
import Mathlib.Logic.Relation
import Mathlib.Order.WellFounded
import Mathlib.Tactic

/-!
# Forests of pointers

A forest whose nodes point to their parent, their first child and their next sibling;
the roots form one more list of siblings. `Siblings` says which lists the pointers make,
`Forest` that these are the lists of children and that no node is below itself.

`walk` goes through the subtree of a node without a stack: down to the first child, to
the next sibling, or up along the parents to one that has a next sibling. A count limits
its steps.

Results:

* `Siblings.unlink`, `Siblings.push`: moving nodes between lists of siblings;
* `Forest.visit_eq`: the walk from a node visits exactly the nodes of its subtree, and
  takes two steps at most for each;
* `Forest.visitAll_eq`: the walk over all roots visits every node;
* `Forest.searchUp_eq`, `searchUp_congr`: searches along the parents.
-/

namespace Apple.Lib

open Relation Function List

variable {C : Type*}

/-- The list from a head pointer along `next`. -/
def Linked (next : C → Option C) : Option C → List C → Prop
  | head, [] => head = none
  | head, c :: l => head = some c ∧ Linked next (next c) l

/-- `head (some p)` is the first child of `p`, `head none` the first root. -/
structure Pointers (C : Type*) where
  parent : C → Option C
  head : Option C → Option C
  next : C → Option C

/-- The lists that the pointers make. -/
structure Siblings (P : Pointers C) (kids : Option C → List C) : Prop where
  linked : ∀ p, Linked P.next (P.head p) (kids p)
  disjoint : ∀ p q c, c ∈ kids p → c ∈ kids q → p = q

namespace Linked

variable {next : C → Option C} {head : Option C} {l l' : List C} {c : C}

theorem unique (h : Linked next head l) (h' : Linked next head l') : l = l' := by
  induction l generalizing head l' with
  | nil =>
    cases l' with
    | nil => rfl
    | cons d l' =>
      rw [show head = none from h] at h'
      cases h'.1
  | cons c l ih =>
    cases l' with
    | nil =>
      rw [show head = none from h'] at h
      cases h.1
    | cons d l' =>
      obtain rfl : c = d := Option.some.inj (h.1.symm.trans h'.1)
      rw [ih h.2 h'.2]

theorem append_right (h : Linked next head (l ++ c :: l')) : Linked next (next c) l' := by
  induction l generalizing head with
  | nil => exact h.2
  | cons d l ih => exact ih h.2

theorem nodup (h : Linked next head l) : l.Nodup := by
  induction l generalizing head with
  | nil => exact nodup_nil
  | cons c l ih =>
    refine nodup_cons.mpr ⟨?_, ih h.2⟩
    intro hmem
    -- the rest of the list would start again at `c`
    obtain ⟨l₁, l₂, heq⟩ := append_of_mem hmem
    have h₂ : Linked next (next c) (l₁ ++ c :: l₂) := heq ▸ h.2
    have hlen := congrArg List.length (h₂.append_right.unique h₂)
    simp only [length_append, length_cons] at hlen
    omega

/-- A list does not change with the links of other nodes. -/
theorem congr {next' : C → Option C} (h : Linked next head l)
    (heq : ∀ c ∈ l, next' c = next c) : Linked next' head l := by
  induction l generalizing head with
  | nil => exact h
  | cons c l ih =>
    refine ⟨h.1, ?_⟩
    rw [heq c (by simp)]
    exact ih h.2 fun d hd => heq d (by simp [hd])

end Linked

/-! ## Moving nodes -/

variable {fuel : ℕ} {β : Type*}

section Moving

variable [DecidableEq C]

/-- The node before `c`, from `x` on. -/
def findBefore (next : C → Option C) (c : C) : ℕ → C → Option C
  | 0, _ => none
  | fuel + 1, x =>
    match next x with
    | none => none
    | some y => if y = c then some x else findBefore next c fuel y

namespace Pointers

/-- Take `c` out of the list of `p`; `none` if it is not there. -/
def unlink (P : Pointers C) (fuel : ℕ) (p : Option C) (c : C) : Option (Pointers C) :=
  match P.head p with
  | none => none
  | some x =>
    if x = c then some { P with head := update P.head p (P.next c) }
    else
      match findBefore P.next c fuel x with
      | none => none
      | some y => some { P with next := update P.next y (P.next c) }

/-- Put `c` in front of the list of `p`. -/
def push (P : Pointers C) (p : Option C) (c : C) : Pointers C :=
  { P with head := update P.head p (some c), next := update P.next c (P.head p) }

end Pointers

theorem Linked.findBefore_eq {next : C → Option C} {c x : C} {l : List C} {head : Option C}
    (h : Linked next head (x :: l)) (hc : c ∈ l) (fuel : ℕ) (hfuel : l.length ≤ fuel) :
    ∃ y, findBefore next c fuel x = some y ∧ y ∈ x :: l ∧ y ≠ c ∧
      Linked (update next y (next c)) head ((x :: l).erase c) := by
  have hnodup := h.nodup
  induction l generalizing x head fuel with
  | nil => cases hc
  | cons z l ih =>
    obtain ⟨hhead, hz, hl⟩ := h
    obtain ⟨fuel, rfl⟩ : ∃ f, fuel = f + 1 := ⟨fuel - 1, by simp at hfuel; omega⟩
    have hxz : x ∉ z :: l := (nodup_cons.mp hnodup).1
    have hxc : x ≠ c := fun heq => hxz (heq ▸ hc)
    rw [erase_cons_tail (by simpa using hxc)]
    by_cases hzc : z = c
    · subst hzc
      refine ⟨x, ?_, by simp, hxc, hhead, ?_⟩
      · simp [findBefore, hz]
      · rw [erase_cons_head, update_self]
        apply hl.congr
        intro d hd
        exact update_of_ne (fun heq => hxz (by simp [← heq, hd])) ..
    · have hc' : c ∈ l := by simpa [Ne.symm hzc] using hc
      have hz' : Linked next (some z) (z :: l) := ⟨rfl, hl⟩
      obtain ⟨y, hy, hmem, hyc, hlinked⟩ := ih hz' hc' fuel
        (by simp only [length_cons] at hfuel; omega) (nodup_cons.mp hnodup).2
      have hyx : x ≠ y := fun heq => hxz (heq ▸ hmem)
      refine ⟨y, ?_, mem_cons_of_mem _ hmem, hyc, hhead, ?_⟩
      · simp [findBefore, hz, hzc, hy]
      · rw [update_of_ne hyx, hz]
        exact hlinked

namespace Siblings

variable {P : Pointers C} {kids : Option C → List C} {p : Option C} {c : C}

theorem mem_unlink (h : Siblings P kids) (hc : c ∈ kids p) (q : Option C) (x : C) :
    x ∈ update kids p ((kids p).erase c) q ↔ x ∈ kids q ∧ x ≠ c := by
  by_cases hq : q = p
  · subst hq
    rw [update_self, (h.linked q).nodup.mem_erase_iff, and_comm]
  · rw [update_of_ne hq]
    refine ⟨fun hx => ⟨hx, ?_⟩, fun hx => hx.1⟩
    rintro rfl
    exact hq (h.disjoint q p x hx hc)

theorem mem_push (kids : Option C → List C) (p q : Option C) (c x : C) :
    x ∈ update kids p (c :: kids p) q ↔ x ∈ kids q ∨ (x = c ∧ q = p) := by
  by_cases hq : q = p
  · subst hq
    rw [or_comm]
    simp
  · simp [hq]

theorem unlink (h : Siblings P kids) (hc : c ∈ kids p) (hfuel : (kids p).length ≤ fuel) :
    ∃ P', P.unlink fuel p c = some P' ∧ P'.parent = P.parent ∧
      Siblings P' (update kids p ((kids p).erase c)) := by
  have hdisjoint : ∀ q r d, d ∈ update kids p ((kids p).erase c) q →
      d ∈ update kids p ((kids p).erase c) r → q = r := fun q r d hq hr =>
    h.disjoint q r d ((h.mem_unlink hc q d).mp hq).1 ((h.mem_unlink hc r d).mp hr).1
  obtain ⟨x, l, hkids⟩ : ∃ x l, kids p = x :: l := exists_cons_of_ne_nil (ne_nil_of_mem hc)
  have hlinked := h.linked p
  rw [hkids] at hlinked
  by_cases hxc : x = c
  · subst hxc
    refine ⟨{ P with head := update P.head p (P.next x) }, ?_, rfl, ?_, hdisjoint⟩
    · simp [Pointers.unlink, hlinked.1]
    · intro q
      by_cases hq : q = p
      · subst hq
        simp only [update_self, hkids, erase_cons_head]
        exact hlinked.2
      · simp only [update_of_ne hq]
        exact h.linked q
  · have hc' : c ∈ l := by
      rw [hkids] at hc
      simpa [Ne.symm hxc] using hc
    obtain ⟨y, hy, hmem, -, hlinked'⟩ := hlinked.findBefore_eq hc' fuel
      (by rw [hkids] at hfuel; simp only [length_cons] at hfuel; omega)
    refine ⟨{ P with next := update P.next y (P.next c) }, ?_, rfl, ?_, hdisjoint⟩
    · simp [Pointers.unlink, hlinked.1, hxc, hy]
    · intro q
      by_cases hq : q = p
      · subst hq
        rw [update_self, hkids]
        exact hlinked'
      · rw [update_of_ne hq]
        apply (h.linked q).congr
        intro d hd
        refine update_of_ne ?_ ..
        rintro rfl
        exact hq (h.disjoint q p d hd (hkids ▸ hmem))

theorem push (h : Siblings P kids) (p : Option C) (hc : ∀ q, c ∉ kids q) :
    Siblings (P.push p c) (update kids p (c :: kids p)) := by
  constructor
  · intro q
    have hkeep : ∀ r, Linked (update P.next c (P.head p)) (P.head r) (kids r) := by
      intro r
      apply (h.linked r).congr
      intro d hd
      refine update_of_ne ?_ ..
      rintro rfl
      exact hc r hd
    by_cases hq : q = p
    · subst hq
      simp only [Pointers.push, update_self]
      exact ⟨rfl, by rw [update_self]; exact hkeep q⟩
    · simp only [Pointers.push, update_of_ne hq]
      exact hkeep q
  · intro q r d hq hr
    rw [mem_push] at hq hr
    rcases hq with hq | ⟨rfl, rfl⟩
    · rcases hr with hr | ⟨rfl, -⟩
      · exact h.disjoint q r d hq hr
      · exact absurd hq (hc q)
    · rcases hr with hr | ⟨-, rfl⟩
      · exact absurd hr (hc r)
      · rfl

end Siblings

end Moving

/-! ## Trees -/

/-- The pointers are those of a forest with these lists of children. -/
structure Forest (P : Pointers C) (kids : Option C → List C) : Prop where
  siblings : Siblings P kids
  mem : ∀ c p, c ∈ kids p ↔ P.parent c = p
  acyclic : ∀ c, ¬ TransGen (fun x y => P.parent x = some y) c c

/-- `c` is below `d`. -/
def Pointers.Below (P : Pointers C) (c d : C) : Prop := TransGen (fun x y => P.parent x = some y) c d

/-- `c` is `d` or below it. -/
def Pointers.Within (P : Pointers C) (c d : C) : Prop :=
  ReflTransGen (fun x y => P.parent x = some y) c d

/-- The nodes of the trees from `head` on, parents first, for a list of children of `p`. -/
inductive PreorderList (P : Pointers C) : Option C → Option C → List C → Prop
  | nil (p : Option C) : PreorderList P p none []
  | cons {p : Option C} {c : C} {xs ys : List C} : P.parent c = p →
      PreorderList P (some c) (P.head (some c)) xs → PreorderList P p (P.next c) ys →
      PreorderList P p (some c) (c :: (xs ++ ys))

namespace Pointers

variable {P : Pointers C} {c d e : C}

theorem within_iff : P.Within c d ↔ c = d ∨ P.Below c d := by
  rw [Within, reflTransGen_iff_eq_or_transGen]
  exact or_congr_left eq_comm

/-- The nodes above one node are in line. -/
theorem Within.total (h : P.Within c d) (h' : P.Within c e) : P.Within d e ∨ P.Within e d := by
  induction h with
  | refl => exact .inl h'
  | @tail x y _ hxy ih =>
    rcases ih with hxe | hex
    · rcases within_iff.mp hxe with rfl | hbelow
      · exact .inr (ReflTransGen.single hxy)
      · obtain ⟨z, hxz, hze⟩ := TransGen.head'_iff.mp hbelow
        obtain rfl : y = z := Option.some.inj (hxy.symm.trans hxz)
        exact .inl hze
    · exact .inr (hex.tail hxy)

end Pointers

/-- Parents of smaller rank make no cycle. -/
theorem acyclic_of_rank {parent : C → Option C} (r : C → ℕ)
    (h : ∀ c p, parent c = some p → r p < r c) (c : C) :
    ¬ TransGen (fun x y => parent x = some y) c c := by
  have hlt : ∀ d, TransGen (fun x y => parent x = some y) c d → r d < r c := by
    intro d hd
    induction hd with
    | single hp => exact h _ _ hp
    | tail _ hp ih => exact (h _ _ hp).trans ih
  exact fun hcc => lt_irrefl _ (hlt c hcc)

namespace Forest

variable {P : Pointers C} {kids : Option C → List C} {c d x : C}

section

variable (h : Forest P kids)
include h

theorem wellFounded [Finite C] : WellFounded P.Below := by
  have : IsTrans C P.Below := ⟨fun _ _ _ => TransGen.trans⟩
  have : Std.Irrefl P.Below := ⟨h.acyclic⟩
  exact Finite.wellFounded_of_trans_of_irrefl _

/-- Trees of different siblings have no node in common. -/
theorem eq_of_within (hp : P.parent c = P.parent d) (hc : P.Within x c)
    (hd : P.Within x d) : c = d := by
  have hone : ∀ {c d : C}, P.parent c = P.parent d → P.Within c d → c = d := by
    intro c d hp hw
    rcases Pointers.within_iff.mp hw with heq | hbelow
    · exact heq
    · obtain ⟨p, hpar, hpd⟩ := TransGen.head'_iff.mp hbelow
      exact absurd (TransGen.head' (hp ▸ hpar) hpd) (h.acyclic d)
  rcases hc.total hd with hw | hw
  · exact hone hp hw
  · exact (hone hp.symm hw).symm

theorem wellFounded_above [Finite C] : WellFounded fun x y => P.Below y x := by
  have : IsTrans C fun x y => P.Below y x := ⟨fun _ _ _ h₁ h₂ => h₂.trans h₁⟩
  have : Std.Irrefl fun x y => P.Below y x := ⟨h.acyclic⟩
  exact Finite.wellFounded_of_trans_of_irrefl _

theorem exists_root [Finite C] (x : C) : ∃ r ∈ kids none, P.Within x r := by
  induction x using h.wellFounded_above.induction with
  | h x ih =>
    rcases hp : P.parent x with _ | p
    · exact ⟨x, (h.mem x none).mpr hp, ReflTransGen.refl⟩
    · obtain ⟨r, hr, hpr⟩ := ih p (TransGen.single hp)
      exact ⟨r, hr, ReflTransGen.head hp hpr⟩

/-- Every list of children has its nodes in order. -/
theorem exists_preorder_list {p : Option C} (l : List C) :
    ∀ head, Linked P.next head l → (∀ c ∈ l, P.parent c = p) →
      (∀ c ∈ l, ∃ xs, PreorderList P (some c) (P.head (some c)) xs ∧ xs.Nodup ∧
        ∀ x, x ∈ xs ↔ P.Below x c) →
      ∃ xs, PreorderList P p head xs ∧ xs.Nodup ∧ ∀ x, x ∈ xs ↔ ∃ c ∈ l, P.Within x c := by
  induction l with
  | nil =>
    intro head hl _ _
    rw [show head = none from hl]
    exact ⟨[], .nil p, nodup_nil, by simp⟩
  | cons c l ih =>
    intro head hl hp hsub
    obtain ⟨xs, hxs, hxnodup, hxmem⟩ := hsub c (by simp)
    obtain ⟨ys, hys, hynodup, hymem⟩ := ih (P.next c) hl.2 (fun d hd => hp d (by simp [hd]))
      fun d hd => hsub d (by simp [hd])
    have hcl : c ∉ l := (nodup_cons.mp hl.nodup).1
    have hcons : PreorderList P p (some c) (c :: (xs ++ ys)) := .cons (hp c (by simp)) hxs hys
    refine ⟨c :: (xs ++ ys), hl.1 ▸ hcons, ?_, ?_⟩
    · have hdisj : ∀ x, P.Within x c → x ∉ ys := by
        intro x hxc hxy
        obtain ⟨d, hd, hxd⟩ := (hymem x).mp hxy
        have heq := h.eq_of_within ((hp c (by simp)).trans (hp d (by simp [hd])).symm) hxc hxd
        exact hcl (heq ▸ hd)
      rw [nodup_cons, nodup_append]
      refine ⟨?_, hxnodup, hynodup, ?_⟩
      · intro hmem
        rcases mem_append.mp hmem with hmem | hmem
        · exact h.acyclic c ((hxmem c).mp hmem)
        · exact hdisj c ReflTransGen.refl hmem
      · rintro x hx y hy rfl
        exact hdisj x ((hxmem x).mp hx).to_reflTransGen hy
    · intro x
      rw [mem_cons, mem_append, hxmem, hymem, ← or_assoc, ← Pointers.within_iff]
      simp

theorem exists_preorder [Finite C] (c : C) :
    ∃ xs, PreorderList P (some c) (P.head (some c)) xs ∧ xs.Nodup ∧ ∀ x, x ∈ xs ↔ P.Below x c := by
  induction c using h.wellFounded.induction with
  | h c ih =>
    have hpar : ∀ d ∈ kids (some c), P.parent d = some c := fun d hd => (h.mem d _).mp hd
    obtain ⟨xs, hxs, hnodup, hmem⟩ := h.exists_preorder_list (kids (some c)) _
      (h.siblings.linked (some c)) hpar fun d hd => ih d (TransGen.single (hpar d hd))
    refine ⟨xs, hxs, hnodup, ?_⟩
    intro x
    rw [hmem]
    constructor
    · rintro ⟨d, hd, hxd⟩
      exact TransGen.tail' hxd (hpar d hd)
    · intro hbelow
      obtain ⟨d, hxd, hdc⟩ := TransGen.tail'_iff.mp hbelow
      exact ⟨d, (h.mem d _).mpr hdc, hxd⟩

end

end Forest

/-! ## Searches along the parents -/

/-- The first result of `f` on the way up from a node. -/
def searchUp {β : Type*} (P : Pointers C) (f : C → Option β) : ℕ → C → Option β
  | 0, _ => none
  | fuel + 1, c =>
    match f c with
    | some b => some b
    | none =>
      match P.parent c with
      | none => none
      | some p => searchUp P f fuel p

/-- A search depends only on what is above its start. -/
theorem searchUp_congr {P P' : Pointers C} {f f' : C → Option β} (fuel : ℕ) :
    ∀ c, (∀ d, P.Within c d → f' d = f d ∧ P'.parent d = P.parent d) →
      searchUp P' f' fuel c = searchUp P f fuel c := by
  induction fuel with
  | zero =>
    intro c _
    rfl
  | succ fuel ih =>
    intro c h
    obtain ⟨hf, hp⟩ := h c ReflTransGen.refl
    rw [searchUp, searchUp, hf, hp]
    rcases f c with _ | b
    · rcases hpar : P.parent c with _ | p
      · rfl
      · exact ih p fun d hd => h d (ReflTransGen.head hpar hd)
    · rfl

/-- The number of nodes above `c`. -/
noncomputable def Pointers.depth (P : Pointers C) (c : C) : ℕ := {d | P.Below c d}.ncard

namespace Forest

variable [Fintype C] {P : Pointers C} {kids : Option C → List C} {c p : C}

theorem depth_parent_lt (h : Forest P kids) (hp : P.parent c = some p) : P.depth p < P.depth c := by
  refine Set.ncard_lt_ncard ⟨fun d hd => TransGen.head hp hd, fun hsub => ?_⟩ (Set.toFinite _)
  exact h.acyclic p (hsub (TransGen.single hp : P.Below c p))

theorem depth_lt_card (h : Forest P kids) (c : C) : P.depth c < Fintype.card C := by
  rw [← Nat.card_eq_fintype_card, ← Set.ncard_univ]
  refine Set.ncard_lt_ncard ⟨Set.subset_univ _, fun hsub => ?_⟩ (Set.toFinite _)
  exact h.acyclic c (hsub (Set.mem_univ c))

theorem searchUp_fuel (h : Forest P kids) (f : C → Option β) (n : ℕ) :
    ∀ m c, P.depth c < n → P.depth c < m → searchUp P f n c = searchUp P f m c := by
  induction n with
  | zero =>
    omega
  | succ n ih =>
    intro m c hn hm
    obtain ⟨m, rfl⟩ : ∃ j, m = j + 1 := ⟨m - 1, by omega⟩
    rw [searchUp, searchUp]
    rcases f c with _ | b
    · rcases hp : P.parent c with _ | p
      · rfl
      · have := h.depth_parent_lt hp
        exact ih m p (by omega) (by omega)
    · rfl

/-- A search with enough fuel is the search from the parent, unless it ends at once. -/
theorem searchUp_eq (h : Forest P kids) (f : C → Option β) (c : C) :
    searchUp P f (Fintype.card C) c =
      match f c with
      | some b => some b
      | none =>
        match P.parent c with
        | none => none
        | some p => searchUp P f (Fintype.card C) p := by
  have hcard := h.depth_lt_card c
  rw [h.searchUp_fuel f _ (Fintype.card C + 1) c hcard (by omega)]
  rw [searchUp]

end Forest

/-! ## The walk -/

section Walk

variable [DecidableEq C] (P : Pointers C) (top : C)

/-- Go up from `c` to a node with a next sibling, and to that sibling; `none` at `top`. Each step
up takes one from the count, which must not reach zero. -/
def climb : ℕ → C → Option (ℕ × Option C)
  | count, c =>
    if c = top then some (count, none)
    else
      match P.next c with
      | some d => some (count, some d)
      | none =>
        match P.parent c, count with
        | some p, count + 2 => climb (count + 1) p
        | _, _ => none

/-- The nodes visited from `c` on, and what is left of the count. -/
def walk : ℕ → ℕ → C → Option (List C × ℕ)
  | fuel + 1, count + 2, c =>
    match P.head (some c) with
    | some d => (walk fuel (count + 1) d).map fun r => (c :: r.1, r.2)
    | none =>
      match climb P top (count + 1) c with
      | none => none
      | some (k, none) => some ([c], k)
      | some (k, some d) => (walk fuel k d).map fun r => (c :: r.1, r.2)
  | _, _, _ => none

/-- Visit the subtree of `top`. -/
def visit (count : ℕ) : Option (List C × ℕ) := walk P top count count top

end Walk

/-- Visit the trees of the roots from `head` on. -/
def visitAll [DecidableEq C] (P : Pointers C) : ℕ → ℕ → Option C → Option (List C × ℕ)
  | _, count, none => some ([], count)
  | 0, _, some _ => none
  | fuel + 1, count, some r =>
    match visit P r count with
    | none => none
    | some (xs, k) => (visitAll P fuel k (P.next r)).map fun q => (xs ++ q.1, q.2)

section WalkProofs

variable [DecidableEq C] {P : Pointers C} {top : C}

/-- The rest of the walk once the subtree of `c` is done. -/
def upFrom (P : Pointers C) (top : C) (fuel count : ℕ) (c : C) : Option (List C × ℕ) :=
  match climb P top count c with
  | none => none
  | some (k, none) => some ([], k)
  | some (k, some d) => walk P top fuel k d

/-- Put visited nodes in front. -/
def visited (xs : List C) (r : Option (List C × ℕ)) : Option (List C × ℕ) :=
  r.map fun q => (xs ++ q.1, q.2)

omit [DecidableEq C] in
theorem visited_visited (xs ys : List C) (r : Option (List C × ℕ)) :
    visited xs (visited ys r) = visited (xs ++ ys) r := by
  cases r <;> simp [visited]

variable {count : ℕ} {zs : List C}

theorem walk_child {c d : C} (h : P.head (some c) = some d) :
    walk P top (fuel + 1) (count + 2) c = visited [c] (walk P top fuel (count + 1) d) := by
  rw [walk, h]
  rfl

theorem walk_leaf {c : C} (h : P.head (some c) = none) :
    walk P top (fuel + 1) (count + 2) c = visited [c] (upFrom P top fuel (count + 1) c) := by
  rw [walk, h, upFrom]
  rcases climb P top (count + 1) c with _ | ⟨k, _ | d⟩ <;> rfl

theorem upFrom_top : upFrom P top fuel count top = some ([], count) := by
  rw [upFrom, climb.eq_def]
  simp only [if_pos]

theorem upFrom_next {c d : C} (hc : c ≠ top) (h : P.next c = some d) :
    upFrom P top fuel count c = walk P top fuel count d := by
  rw [upFrom, climb.eq_def]
  simp only [if_neg hc, h]

theorem upFrom_parent {c p : C} (hc : c ≠ top) (h : P.next c = none) (hp : P.parent c = some p) :
    upFrom P top fuel (count + 2) c = upFrom P top fuel (count + 1) p := by
  rw [upFrom, climb.eq_def]
  simp only [if_neg hc, h, hp, upFrom]

/-- **The walk through a list of children** visits their trees and then goes on from the parent. -/
theorem walk_preorder {p : Option C} {head : Option C} (h : PreorderList P p head zs) :
    ∀ {q c : C}, p = some q → head = some c → top ∉ zs → ∀ fuel count, 2 * zs.length < count →
      ∃ k, 0 < k ∧ count ≤ k + 2 * zs.length ∧
        walk P top (fuel + zs.length) count c = visited zs (upFrom P top fuel k q) := by
  induction h with
  | nil p =>
    intro q c _ hc
    cases hc
  | @cons p c xs ys hpar hxs hys ihx ihy =>
    rintro q _ rfl ⟨rfl⟩ htop fuel count hcount
    have hctop : c ≠ top := fun heq => htop (by simp [heq])
    have htopx : top ∉ xs := fun hmem => htop (by simp [hmem])
    have htopy : top ∉ ys := fun hmem => htop (by simp [hmem])
    simp only [length_cons, length_append] at hcount ⊢
    -- the walk once the subtree of `c` is done: its next siblings, or up to the parent
    have hup : ∀ k, 2 * ys.length + 1 < k → ∃ k', 0 < k' ∧ k ≤ k' + 2 * ys.length + 1 ∧
        upFrom P top (fuel + ys.length) k c = visited ys (upFrom P top fuel k' q) := by
      intro k hk
      rcases hnext : P.next c with _ | d
      · obtain rfl : ys = [] := by
          rw [hnext] at hys
          cases hys
          rfl
        obtain ⟨k, rfl⟩ : ∃ j, k = j + 2 := ⟨k - 2, by omega⟩
        refine ⟨k + 1, by omega, by simp, ?_⟩
        rw [upFrom_parent hctop hnext hpar]
        cases upFrom P top fuel (k + 1) q <;> simp [visited]
      · obtain ⟨k', hpos, hle, heq⟩ := ihy rfl hnext htopy fuel k (by omega)
        refine ⟨k', hpos, by omega, ?_⟩
        rw [upFrom_next hctop hnext, heq]
    obtain ⟨j, rfl⟩ : ∃ j, count = j + 2 := ⟨count - 2, by omega⟩
    rcases hhead : P.head (some c) with _ | d
    · obtain rfl : xs = [] := by
        rw [hhead] at hxs
        cases hxs
        rfl
      simp only [length_nil, zero_add] at hcount ⊢
      obtain ⟨k', hpos, hle, heq⟩ := hup (j + 1) (by omega)
      refine ⟨k', hpos, by omega, ?_⟩
      rw [← add_assoc, walk_leaf hhead, heq, visited_visited]
      rfl
    · obtain ⟨k₁, hpos₁, hle₁, heq₁⟩ := ihx rfl hhead htopx (fuel + ys.length) (j + 1) (by omega)
      obtain ⟨k', hpos, hle, heq⟩ := hup k₁ (by omega)
      refine ⟨k', hpos, by omega, ?_⟩
      rw [show fuel + (xs.length + ys.length + 1) = fuel + ys.length + xs.length + 1 by omega,
        walk_child hhead, heq₁, heq, visited_visited, visited_visited]
      rfl

theorem visit_preorder (h : PreorderList P (some top) (P.head (some top)) zs)
    (htop : top ∉ zs) (hfuel : zs.length < fuel) (hcount : 2 * zs.length + 1 < count) :
    ∃ k, 0 < k ∧ count ≤ k + 2 * (zs.length + 1) ∧
      walk P top fuel count top = some (top :: zs, k) := by
  obtain ⟨j, rfl⟩ : ∃ j, count = j + 2 := ⟨count - 2, by omega⟩
  obtain ⟨fuel, rfl⟩ : ∃ f, fuel = f + zs.length + 1 := ⟨fuel - zs.length - 1, by omega⟩
  rcases hhead : P.head (some top) with _ | d
  · obtain rfl : zs = [] := by
      rw [hhead] at h
      cases h
      rfl
    refine ⟨j + 1, by omega, by simp, ?_⟩
    rw [walk_leaf hhead, upFrom_top]
    rfl
  · obtain ⟨k, hpos, hle, heq⟩ := walk_preorder h rfl hhead htop fuel (j + 1) (by omega)
    refine ⟨k, hpos, by omega, ?_⟩
    rw [walk_child hhead, heq, upFrom_top]
    simp [visited]

theorem visitAll_preorder {p head : Option C} (h : PreorderList P p head zs)
    (hnodup : zs.Nodup) : ∀ fuel count, zs.length ≤ fuel → 2 * zs.length < count →
      ∃ k, visitAll P fuel count head = some (zs, k) := by
  induction h with
  | nil p =>
    intro fuel count _ _
    exact ⟨count, by cases fuel <;> rfl⟩
  | @cons p c xs ys hpar hxs hys _ ihy =>
    intro fuel count hfuel hcount
    obtain ⟨hc, happend⟩ := nodup_cons.mp hnodup
    have hcx : c ∉ xs := fun hmem => hc (by simp [hmem])
    simp only [length_cons, length_append] at hfuel hcount
    obtain ⟨fuel, rfl⟩ : ∃ f, fuel = f + 1 := ⟨fuel - 1, by omega⟩
    obtain ⟨k, -, hle, heq⟩ := visit_preorder hxs hcx (by omega : xs.length < count)
      (by omega : _ < count)
    obtain ⟨k', heq'⟩ := ihy (nodup_append.mp happend).2.1 fuel k (by omega) (by omega)
    rw [visitAll, visit, heq]
    simp [heq']

namespace Forest

variable [Fintype C] {kids : Option C → List C}

/-- **The walk from a node** visits its subtree, with at most two steps for each node. -/
theorem visit_eq (h : Forest P kids) (hcount : 2 * Fintype.card C < count) :
    ∃ xs k, visit P top count = some (xs, k) ∧ xs.Nodup ∧ (∀ x, x ∈ xs ↔ P.Within x top) ∧
      count ≤ k + 2 * xs.length := by
  obtain ⟨zs, hzs, hnodup, hmem⟩ := h.exists_preorder top
  have htop : top ∉ zs := fun hin => h.acyclic top ((hmem top).mp hin)
  have hnodup' : (top :: zs).Nodup := nodup_cons.mpr ⟨htop, hnodup⟩
  have hcard := hnodup'.length_le_card
  rw [length_cons] at hcard
  obtain ⟨k, -, hle, heq⟩ := visit_preorder hzs htop (by omega : zs.length < count)
    (by omega : _ < count)
  refine ⟨top :: zs, k, heq, hnodup', ?_, by simpa using hle⟩
  intro x
  rw [mem_cons, hmem, Pointers.within_iff]

/-- **The walk over all roots** visits every node. -/
theorem visitAll_eq (h : Forest P kids) (hfuel : Fintype.card C ≤ fuel)
    (hcount : 2 * Fintype.card C < count) :
    ∃ xs k, visitAll P fuel count (P.head none) = some (xs, k) ∧ ∀ x, x ∈ xs := by
  obtain ⟨zs, hzs, hnodup, hmem⟩ := h.exists_preorder_list (kids none) _ (h.siblings.linked none)
    (fun c hc => (h.mem c none).mp hc) fun c _ => h.exists_preorder c
  have hcard := hnodup.length_le_card
  obtain ⟨k, heq⟩ := visitAll_preorder hzs hnodup fuel count (by omega) (by omega)
  exact ⟨zs, k, heq, fun x => (hmem x).mpr (h.exists_root x)⟩

end Forest

end WalkProofs

end Apple.Lib
