import Apple.Objc.MethodCache

/-!
# Method lists (`objc4-750/runtime/objc-runtime-new.mm`, `objc-runtime-new.h`)

A class has an array of method lists, the newest first. A list that has been fixed up is
sorted by selector and searched by bisection, others are searched from the start.

Results:

* `searchMethodList_eq`: both searches find the first method with the selector;
* `getMethodNoSuper_some`, `getMethodNoSuper_none`: so does the search of all lists;
* `ListArray.lists_attachLists`: new lists come before the old ones.
-/

namespace Apple.Objc.Messaging

open List

/-- `struct method_t`, without the type encoding -/
structure Method where
  name : Sel
  imp : Imp
  deriving DecidableEq, Repr

/-- `struct method_list_t`; `expectedSize` is `entsize() == sizeof(method_t)`. -/
structure MethodList where
  methods : List Method
  fixedUp : Bool
  expectedSize : Bool
  sorted : fixedUp = true → methods.Pairwise fun a b => a.name ≤ b.name

/-! ## Searching a list -/

/-- The method is for this selector. -/
def hasName (sel : Sel) (m : Method) : Bool := m.name == sel

/-- The inner loop of `findMethodInSortedMethodList` (lines 4728–4730) -/
def rewind (key : Sel) (l : List Method) : ℕ → ℕ
  | 0 => 0
  | probe + 1 =>
    match l[probe]? with
    | some m => if key = m.name then rewind key l probe else probe + 1
    | none => probe + 1

/-- The loop of `findMethodInSortedMethodList` (lines 4719–4738) -/
def bisect (key : Sel) (l : List Method) : (fuel base count : ℕ) → Option ℕ
  | 0, _, _ => none
  | fuel + 1, base, count =>
    if count = 0 then none
    else
      let probe := base + count / 2
      match l[probe]? with
      | none => none
      | some m =>
        if key = m.name then some (rewind key l probe)
        else if m.name < key then bisect key l fuel (probe + 1) ((count - 1) / 2)
        else bisect key l fuel base (count / 2)

/-- `findMethodInSortedMethodList` (lines 4709–4741): the index of the method -/
def findMethodInSortedMethodList (key : Sel) (l : List Method) : Option ℕ :=
  bisect key l (l.length + 1) 0 l.length

/-- `search_method_list` (lines 4748–4774) -/
def searchMethodList (l : MethodList) (sel : Sel) : Option ℕ :=
  if l.fixedUp && l.expectedSize then findMethodInSortedMethodList sel l.methods
  else l.methods.findIdx? (hasName sel)

/-- `getMethodNoSuper_nolock` (lines 4776–4795) on the lists of a class: the indices of the list
and of the method in it -/
def getMethodNoSuper (sel : Sel) : List MethodList → Option (ℕ × ℕ)
  | [] => none
  | l :: ls =>
    match searchMethodList l sel with
    | some j => some (0, j)
    | none => (getMethodNoSuper sel ls).map fun p => (p.1 + 1, p.2)

/-- The first method for a selector in the first list that has one. -/
def firstMethod (lists : List MethodList) (sel : Sel) : Option Method :=
  lists.findSome? fun l => l.methods.find? (hasName sel)

section Search

variable {key : Sel} {l : List Method}

section

variable (hs : l.Pairwise fun a b => a.name ≤ b.name)
include hs

/-- In a sorted list, the methods before one with a smaller name have smaller names. -/
theorem name_lt_of_le {i j : ℕ} (hj : j < l.length)
    (hij : i ≤ j) (hlt : l[j].name < key) : (l[i]).name < key := by
  rcases Nat.lt_or_eq_of_le hij with hij | rfl
  · exact lt_of_le_of_lt (pairwise_iff_getElem.mp hs i j (by omega) hj hij) hlt
  · exact hlt

theorem lt_name_of_le {i j : ℕ} (hj : j < l.length)
    (hij : i ≤ j) (hlt : key < (l[i]).name) : key < l[j].name := by
  rcases Nat.lt_or_eq_of_le hij with hij | rfl
  · exact lt_of_lt_of_le hlt (pairwise_iff_getElem.mp hs i j (by omega) hj hij)
  · exact hlt

/-- Going back from a match ends at the first one. -/
theorem rewind_spec (probe : ℕ) :
    ∀ hp : probe < l.length, l[probe].name = key → l.findIdx? (hasName key) =
      some (rewind key l probe) := by
  induction probe with
  | zero =>
    intro hp hname
    rw [rewind, findIdx?_eq_some_iff_getElem]
    exact ⟨hp, by simp [hasName, hname], by simp⟩
  | succ probe ih =>
    intro hp hname
    have hp' : probe < l.length := by omega
    rw [rewind, getElem?_eq_getElem hp']
    by_cases hprev : key = l[probe].name
    · simp only [if_pos hprev]
      exact ih hp' hprev.symm
    · simp only [if_neg hprev]
      rw [findIdx?_eq_some_iff_getElem]
      refine ⟨hp, by simp [hasName, hname], ?_⟩
      intro j hj
      have hle : l[probe].name ≤ key :=
        hname ▸ pairwise_iff_getElem.mp hs probe (probe + 1) hp' hp (by omega)
      have hlt := name_lt_of_le hs hp' (by omega : j ≤ probe) (lt_of_le_of_ne hle (Ne.symm hprev))
      simp [hasName, hlt.ne]

/-- The bisection keeps smaller names before `base` and greater ones from `base + count` on. -/
theorem bisect_spec (fuel : ℕ) :
    ∀ base count, count < fuel → base + count ≤ l.length →
      (∀ i (hi : i < l.length), i < base → (l[i]).name < key) →
      (∀ i (hi : i < l.length), base + count ≤ i → key < (l[i]).name) →
      bisect key l fuel base count = l.findIdx? (hasName key) := by
  induction fuel with
  | zero =>
    omega
  | succ fuel ih =>
    intro base count hfuel hlen hlow hhigh
    rw [bisect]
    by_cases hzero : count = 0
    · rw [if_pos hzero, eq_comm, findIdx?_eq_none_iff]
      intro m hm
      obtain ⟨i, hi, rfl⟩ := mem_iff_getElem.mp hm
      rcases lt_or_ge i base with hlt | hge
      · simp [hasName, (hlow i hi hlt).ne]
      · simp [hasName, (hhigh i hi (by omega)).ne']
    · have hp : base + count / 2 < l.length := by omega
      rw [if_neg hzero]
      simp only [getElem?_eq_getElem hp]
      by_cases heq : key = l[base + count / 2].name
      · rw [if_pos heq, rewind_spec hs _ hp heq.symm]
      · split_ifs with hlt
        · refine ih _ _ (by omega) (by omega) ?_ ?_
          · exact fun i hi hib => name_lt_of_le hs hp (by omega) hlt
          · exact fun i hi hib => hhigh i hi (by omega)
        · have hgt : key < l[base + count / 2].name := lt_of_le_of_ne (not_lt.mp hlt) heq
          refine ih _ _ (by omega) (by omega) hlow ?_
          exact fun i hi hib => lt_name_of_le hs hi (by omega) hgt

end

/-- **Both searches** find the first method with the selector. -/
theorem searchMethodList_eq (l : MethodList) (sel : Sel) :
    searchMethodList l sel = l.methods.findIdx? (hasName sel) := by
  unfold searchMethodList
  split_ifs with hfixed
  · rw [Bool.and_eq_true] at hfixed
    exact bisect_spec (l.sorted hfixed.1) _ 0 _ (by omega) (by omega) (by simp)
      fun i hi hge => by omega
  · rfl

theorem find?_eq_of_findIdx? {α : Type*} {p : α → Bool} {l : List α} {j : ℕ}
    (h : l.findIdx? p = some j) : ∃ a, l[j]? = some a ∧ l.find? p = some a ∧ p a = true := by
  obtain ⟨hj, hp, hbefore⟩ := findIdx?_eq_some_iff_getElem.mp h
  refine ⟨l[j], getElem?_eq_getElem hj, ?_, hp⟩
  rw [find?_eq_some_iff_getElem]
  exact ⟨hp, j, hj, rfl, fun i hi => by simpa using hbefore i hi⟩

variable {sel : Sel} {lists : List MethodList}

/-- **The method of a class** for a selector is the first one in the first list that has one. -/
theorem getMethodNoSuper_some : ∀ {i j : ℕ}, getMethodNoSuper sel lists = some (i, j) →
      ∃ l m, lists[i]? = some l ∧ l.methods[j]? = some m ∧ firstMethod lists sel = some m := by
  induction lists with
  | nil =>
    intro i j h
    cases h
  | cons l ls ih =>
    intro i j h
    rw [getMethodNoSuper, searchMethodList_eq] at h
    rcases hidx : l.methods.findIdx? (hasName sel) with _ | k
    · rw [hidx] at h
      obtain ⟨⟨i', j'⟩, hrest, hpair⟩ := Option.map_eq_some_iff.mp h
      obtain ⟨rfl, rfl⟩ := Prod.mk.inj hpair
      obtain ⟨l', m, hl', hm, hfirst⟩ := ih hrest
      refine ⟨l', m, by simpa using hl', hm, ?_⟩
      have hnone : l.methods.find? (hasName sel) = none := by
        simpa using findIdx?_eq_none_iff.mp hidx
      rw [firstMethod, findSome?_cons, hnone]
      exact hfirst
    · rw [hidx] at h
      obtain ⟨rfl, rfl⟩ := Prod.mk.inj (Option.some.inj h)
      obtain ⟨m, hm, hfind, -⟩ := find?_eq_of_findIdx? hidx
      refine ⟨l, m, rfl, hm, ?_⟩
      rw [firstMethod, findSome?_cons, hfind]

theorem getMethodNoSuper_none
    (h : getMethodNoSuper sel lists = none) : firstMethod lists sel = none := by
  induction lists with
  | nil => rfl
  | cons l ls ih =>
    rw [getMethodNoSuper, searchMethodList_eq] at h
    rcases hidx : l.methods.findIdx? (hasName sel) with _ | k
    · rw [hidx] at h
      have hnone : l.methods.find? (hasName sel) = none := by
        simpa using findIdx?_eq_none_iff.mp hidx
      rw [firstMethod, findSome?_cons, hnone]
      exact ih (by simpa using h)
    · rw [hidx] at h
      cases h

end Search

/-! ## Changing lists -/

/-- `fixupMethodList` (lines 686–708), for selectors that are unique already: a stable sort -/
def fixupMethodList (l : MethodList) : MethodList where
  methods := l.methods.mergeSort fun a b => decide (a.name ≤ b.name)
  fixedUp := true
  expectedSize := l.expectedSize
  sorted := fun _ => by
    have h : (l.methods.mergeSort fun a b => decide (a.name ≤ b.name)).Pairwise
        fun a b => decide (a.name ≤ b.name) = true :=
      pairwise_mergeSort
        (fun a b c hab hbc => by simp only [decide_eq_true_eq] at *; exact hab.trans hbc)
        (fun a b => by simpa using le_total a.name b.name) l.methods
    simpa using h

/-- `prepareMethodLists` (lines 713–756) without the scan for special methods -/
def prepareMethodLists (lists : List MethodList) : List MethodList :=
  lists.map fun l => if l.fixedUp then l else fixupMethodList l

/-- `m->imp = imp` for the method at index `j` -/
def MethodList.setImp (l : MethodList) (j : ℕ) (imp : Imp) : MethodList where
  methods := l.methods.modify j fun m => { m with imp := imp }
  fixedUp := l.fixedUp
  expectedSize := l.expectedSize
  sorted := fun hfixed => by
    have h := pairwise_map.mpr (l.sorted hfixed)
    have hnames : (l.methods.modify j fun m => { m with imp := imp }).map Method.name =
        l.methods.map Method.name := by
      apply ext_getElem?
      intro i
      simp only [getElem?_map, getElem?_modify]
      rcases l.methods[i]? with _ | m
      · rfl
      · by_cases hij : j = i <;> simp [hij]
    rw [← hnames] at h
    exact pairwise_map.mp h

/-- `list_array_tt` (`objc-runtime-new.h` lines 620–835): no list or one, or an array of them -/
inductive ListArray (α : Type) where
  | list (l : Option α)
  | array (ls : List α)

namespace ListArray

variable {α : Type}

/-- The lists from `beginLists()` to `endLists()`. -/
def lists : ListArray α → List α
  | .list none => []
  | .list (some l) => [l]
  | .array ls => ls

/-- `attachLists` (`objc-runtime-new.h` lines 742–796) -/
def attachLists (added : List α) : ListArray α → ListArray α
  | .array ls => if added = [] then .array ls else .array (added ++ ls)
  | .list none =>
    match added with
    | [] => .list none
    | [l] => .list (some l)
    | _ => .array added
  | .list (some old) => if added = [] then .list (some old) else .array (added ++ [old])

/-- The lists with a change at index `i`. -/
def modify (i : ℕ) (f : α → α) : ListArray α → ListArray α
  | .array ls => .array (ls.modify i f)
  | .list l => .list (if i = 0 then l.map f else l)

@[simp]
theorem lists_attachLists (added : List α) (a : ListArray α) :
    (a.attachLists added).lists = added ++ a.lists := by
  rcases a with (_ | old) | ls
  · rcases added with _ | ⟨l, _ | ⟨l', added⟩⟩ <;> simp [attachLists, lists]
  · by_cases h : added = [] <;> simp [attachLists, lists, h]
  · by_cases h : added = [] <;> simp [attachLists, lists, h]

end ListArray

end Apple.Objc.Messaging
