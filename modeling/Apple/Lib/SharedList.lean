import Apple.Lib.Run

/-!
# A linked list with many producers and snapshots

Producers push a node by an exchange of the tail. If there was a tail, they store the link from
it, in a second step; if there was none, they store the head. A consumer takes the whole list: it
exchanges the head and then the tail, and walks from the one to the other, waiting for
links that are not stored yet. Any number of producers and consumers do this at a time.

`Step` has what a thread does with the list, `Chains` the lists that the memory stands for:
those pushed since the tail was last taken, and for each thread those that it has taken and not
yet removed. `Represents` connects the two.

Results: `step_represents`, a step of any thread moves nodes between the lists as it should, and
`Represents.linking_of_next`, a consumer waits only for a thread that is about to store
the link.
-/

namespace Apple.Lib.SharedList

open Function List

variable {ι ν : Type*}

/-! ## Chains of nodes -/

/-- The nodes of `l` follow each other by `succ`. -/
def Linked (succ : ν → Option ν) : List ν → Prop
  | [] => True
  | n :: l => succ n = l.head? ∧ Linked succ l

variable {succ : ν → Option ν} {l : List ν} {tail : Option ν} {succ' : ν → Option ν} {n : ν} {u : ι}

theorem Linked.congr (h : Linked succ l) (heq : ∀ n ∈ l, succ' n = succ n) : Linked succ' l := by
  induction l with
  | nil => trivial
  | cons n l ih =>
    refine ⟨?_, ih h.2 fun m hm => heq m (mem_cons_of_mem n hm)⟩
    rw [heq n mem_cons_self]
    exact h.1

theorem Linked.succ_getLast (h : Linked succ l) (hn : l.getLast? = some n) : succ n = none := by
  induction l with
  | nil => cases hn
  | cons m l ih =>
    cases l with
    | nil =>
      cases hn
      exact h.1
    | cons m' l => exact ih h.2 (by simpa using hn)

/-- A node at the end. -/
theorem Linked.snoc (h : Linked succ l)
    (hl : l.Nodup) (hn : succ' n = none) (hlast : ∀ p, l.getLast? = some p → succ' p = some n)
    (hkeep : ∀ m ∈ l, l.getLast? ≠ some m → succ' m = succ m) : Linked succ' (l ++ [n]) := by
  induction l with
  | nil => exact ⟨hn, trivial⟩
  | cons m l ih =>
    cases l with
    | nil => exact ⟨hlast m rfl, hn, trivial⟩
    | cons m' l =>
      have hl' := nodup_cons.mp hl
      refine ⟨?_, ih h.2 hl'.2 (fun p hp => hlast p (by simpa using hp)) fun k hk hne => ?_⟩
      · rw [hkeep m mem_cons_self]
        · exact h.1
        · intro hlast'
          exact hl'.1 (mem_of_getLast? hlast')
      · exact hkeep k (mem_cons_of_mem m hk) (by simpa using hne)

/-! ## Steps -/

/-- The memory of the list; `used` says which nodes belong to it. -/
structure Mem (ν : Type*) where
  head : Option ν
  tail : Option ν
  next : ν → Option ν
  used : ν → Bool

/-- What a thread does with the list. -/
inductive Role (ν : Type*) where
  | idle
  /-- It has a node to push. -/
  | making (n : ν)
  /-- It has pushed `n` behind `prev` and will store the link. -/
  | linking (prev n : ν)
  /-- It has the head of the list. -/
  | keeping (head : ν)
  /-- It has taken the nodes from `head` to `tail`. -/
  | walking (head : ν) (tail : Option ν)
  /-- It will remove `head` and go on with `next`. -/
  | popping (head : ν) (next tail : Option ν)

/-- What a step does with a node. -/
inductive Act (ν : Type*) where
  | silent
  | push (n : ν)
  | remove (n : ν)
deriving DecidableEq

/-- The role after a node is removed. -/
def Role.goOn (next tail : Option ν) : Role ν :=
  match next with
  | none => .idle
  | some n => .walking n tail

/-- The steps of a thread. -/
inductive Step [DecidableEq ν] : Role ν → Mem ν → Act ν → Role ν → Mem ν → Prop
  | other (r : Role ν) (m : Mem ν) : Step r m .silent r m
  | make {m : Mem ν} {n : ν} (hn : m.used n = false) :
      Step .idle m .silent (.making n) { m with used := update m.used n true }
  | pushFirst {m : Mem ν} {n : ν} (htail : m.tail = none) :
      Step (.making n) m (.push n) (.keeping n)
        { m with next := update m.next n none, tail := some n }
  | pushNext {m : Mem ν} {n prev : ν} (htail : m.tail = some prev) :
      Step (.making n) m (.push n) (.linking prev n)
        { m with next := update m.next n none, tail := some n }
  | link (prev n : ν) (m : Mem ν) :
      Step (.linking prev n) m .silent .idle
        { m with next := update m.next prev (some n) }
  | storeHead (n : ν) (m : Mem ν) :
      Step (.keeping n) m .silent .idle { m with head := some n }
  | takeHead {m : Mem ν} {n : ν} (hhead : m.head = some n) :
      Step .idle m .silent (.keeping n) { m with head := none }
  | takeTail (n : ν) (m : Mem ν) :
      Step (.keeping n) m .silent (.walking n m.tail) { m with tail := none }
  | nextLast (n : ν) (m : Mem ν) :
      Step (.walking n (some n)) m .silent (.popping n none (some n)) m
  | next {m : Mem ν} {n n' : ν} {tail : Option ν} (htail : tail ≠ some n)
      (hnext : m.next n = some n') :
      Step (.walking n tail) m .silent (.popping n (some n') tail) m
  | remove (n : ν) (next tail : Option ν) (m : Mem ν) :
      Step (.popping n next tail) m (.remove n) (.goOn next tail)
        { m with used := update m.used n false }

/-! ## The lists -/

/-- Where a node is. -/
inductive Place (ι : Type*) where
  | free
  | made (t : ι)
  | batch
  | taken (t : ι)

/-- The lists. `succ` is what the links are when all of them are stored, `linker` the thread that
will store the link from a node, `keeper` the thread that has the head. -/
structure Chains (ι ν : Type*) where
  batch : List ν
  taken : ι → List ν
  place : ν → Place ι
  succ : ν → Option ν
  linker : ν → Option ι
  keeper : Option ι

namespace Chains

/-- In a list. -/
def Listed (a : Chains ι ν) (n : ν) : Prop :=
  a.place n = .batch ∨ ∃ t, a.place n = .taken t

section Updates

variable [DecidableEq ν] (a : Chains ι ν)

/-- `t` has a node to push. -/
def make (t : ι) (n : ν) : Chains ι ν := { a with place := update a.place n (.made t) }

/-- The push of `t` to the empty list. -/
def pushFirst (t : ι) (n : ν) : Chains ι ν :=
  { a with
    batch := [n]
    place := update a.place n .batch
    succ := update a.succ n none
    keeper := some t }

/-- The push of `t` behind `prev`. -/
def pushNext (t : ι) (prev n : ν) : Chains ι ν :=
  { a with
    batch := a.batch ++ [n]
    place := update a.place n .batch
    succ := update (update a.succ prev (some n)) n none
    linker := update a.linker prev (some t) }

/-- The link from `prev` is stored. -/
def link (prev : ν) : Chains ι ν := { a with linker := update a.linker prev none }

/-- `t` has the head, or nobody has. -/
def setKeeper (keeper : Option ι) : Chains ι ν := { a with keeper := keeper }

/-- `t` takes the tail, and with it the list. -/
def takeTail [DecidableEq ι] (t : ι) : Chains ι ν :=
  { a with
    batch := []
    taken := update a.taken t a.batch
    place := fun n => match a.place n with
      | .batch => .taken t
      | place => place
    keeper := none }

/-- `t` removes its first node. -/
def remove [DecidableEq ι] (t : ι) (n : ν) : Chains ι ν :=
  { a with
    taken := update a.taken t (a.taken t).tail
    place := update a.place n .free }

end Updates

end Chains

/-- The memory stands for the lists. -/
structure MemOk (a : Chains ι ν) (m : Mem ν) : Prop where
  tail : m.tail = a.batch.getLast?
  head : m.head = if a.keeper = none then a.batch.head? else none
  keeper : a.keeper ≠ none → a.batch ≠ []
  mem_batch : ∀ n, n ∈ a.batch ↔ a.place n = .batch
  mem_taken : ∀ t n, n ∈ a.taken t ↔ a.place n = .taken t
  nodup_batch : a.batch.Nodup
  nodup_taken : ∀ t, (a.taken t).Nodup
  linked_batch : Linked a.succ a.batch
  linked_taken : ∀ t, Linked a.succ (a.taken t)
  next : ∀ n, a.Listed n → m.next n = if a.linker n = none then a.succ n else none
  linker : ∀ n, a.linker n ≠ none → a.Listed n ∧ a.succ n ≠ none
  used : ∀ n, m.used n = true ↔ a.place n ≠ .free

/-- What a thread has taken. -/
def Role.Takes (r : Role ν) (l : List ν) : Prop :=
  match r with
  | .walking n tail => l.head? = some n ∧ l.getLast? = tail
  | .popping n next tail => l.head? = some n ∧ l.tail.head? = next ∧ l.getLast? = tail
  | _ => l = []

/-- What a thread knows. -/
structure Local (t : ι) (r : Role ν) (a : Chains ι ν) : Prop where
  making : ∀ n, r = .making n → a.place n = .made t
  linking : ∀ p n, r = .linking p n → a.Listed p ∧ a.succ p = some n ∧ a.linker p = some t
  linker : ∀ p, a.linker p = some t → ∃ n, r = .linking p n
  keeping : ∀ n, r = .keeping n → a.keeper = some t ∧ a.batch.head? = some n
  keeper : a.keeper = some t → ∃ n, r = .keeping n
  popping : ∀ n next tail, r = .popping n next tail → a.linker n = none
  takes : r.Takes (a.taken t)

/-- The threads and the memory stand for the lists. -/
structure Represents (a : Chains ι ν) (g : Threads ι (Role ν) (Mem ν)) : Prop where
  mem : MemOk a g.shared
  thread : ∀ t, Local t (g.pc t) a

/-- What the steps of other threads leave to `u`. -/
structure Frame (u : ι) (a a' : Chains ι ν) : Prop where
  made : ∀ n, a.place n = .made u → a'.place n = .made u
  linker : ∀ p, a'.linker p = some u ↔ a.linker p = some u
  linking : ∀ p, a.linker p = some u → a.Listed p → a'.Listed p ∧ a'.succ p = a.succ p
  keeper : a'.keeper = some u ↔ a.keeper = some u
  head : a.keeper = some u → a'.batch.head? = a.batch.head?
  taken : a'.taken u = a.taken u
  taken_linker : ∀ n ∈ a.taken u, a.linker n = none → a'.linker n = none

variable {r : Role ν} {a : Chains ι ν} {t : ι}

theorem Local.frame {a' : Chains ι ν} (h : Local u r a) (hframe : Frame u a a') : Local u r a' where
  making n hr := hframe.made n (h.making n hr)
  linking p n hr := by
    obtain ⟨hlisted, hsucc, hlinker⟩ := h.linking p n hr
    obtain ⟨hlisted', hsucc'⟩ := hframe.linking p hlinker hlisted
    exact ⟨hlisted', hsucc'.trans hsucc, (hframe.linker p).mpr hlinker⟩
  linker p hp := h.linker p ((hframe.linker p).mp hp)
  keeping n hr := by
    obtain ⟨hkeeper, hhead⟩ := h.keeping n hr
    exact ⟨hframe.keeper.mpr hkeeper, (hframe.head hkeeper).trans hhead⟩
  keeper hkeeper := h.keeper (hframe.keeper.mp hkeeper)
  popping n next tail hr := by
    refine hframe.taken_linker n ?_ (h.popping n next tail hr)
    have htakes := h.takes
    rw [hr] at htakes
    exact mem_of_mem_head? htakes.1
  takes := by
    rw [hframe.taken]
    exact h.takes

theorem Local.linker_ne (h : Local t r a)
    (hr : ∀ p n, r ≠ .linking p n) (p : ν) : a.linker p ≠ some t := by
  intro hp
  obtain ⟨n, hn⟩ := h.linker p hp
  exact hr p n hn

theorem Local.keeper_ne (h : Local t r a) (hr : ∀ n, r ≠ .keeping n) : a.keeper ≠ some t := by
  intro hkeeper
  obtain ⟨n, hn⟩ := h.keeper hkeeper
  exact hr n hn

/-- Where the nodes go in a step of `t`. -/
structure Moves (t : ι) (r r' : Role ν) (act : Act ν) (a a' : Chains ι ν) : Prop where
  batch : ∀ n ∈ a'.batch, n ∈ a.batch ∨ act = .push n
  taken : ∀ u, ∀ n ∈ a'.taken u,
    n ∈ a.taken u ∨ n ∈ a.batch ∧ ∃ n tail, r = .keeping n ∧ r' = .walking n tail
  push : ∀ n, act = .push n → ¬ a.Listed n ∧ a'.Listed n
  remove : ∀ n, act = .remove n → n ∈ a.taken t ∧ ¬ a'.Listed n
  keep : ∀ n, act ≠ .push n → act ≠ .remove n → (a'.Listed n ↔ a.Listed n)

theorem Frame.rfl : Frame u a a :=
  ⟨fun _ h => h, fun _ => Iff.rfl, fun _ _ h => ⟨h, Eq.refl _⟩, Iff.rfl, fun _ => Eq.refl _, Eq.refl _,
    fun _ _ h => h⟩

theorem Moves.rfl {r' : Role ν} : Moves t r r' .silent a a :=
  ⟨fun _ h => .inl h, fun _ _ h => .inl h, nofun, nofun, fun _ _ _ => Iff.rfl⟩

/-- What a step of `t` gives. -/
structure StepOk (t : ι) (r r' : Role ν) (act : Act ν) (a a' : Chains ι ν) (m' : Mem ν) : Prop where
  mem : MemOk a' m'
  own : Local t r' a'
  frame : ∀ u, u ≠ t → Frame u a a'
  moves : Moves t r r' act a a'

section Steps

variable {t : ι} {a : Chains ι ν} {m : Mem ν} {n : ν}

theorem MemOk.listed_iff (hm : MemOk a m) {k : ν} :
    a.Listed k ↔ k ∈ a.batch ∨ ∃ u, k ∈ a.taken u := by
  simp only [Chains.Listed, hm.mem_batch, hm.mem_taken]

theorem not_listed_of_made (h : a.place n = .made t) : ¬ a.Listed n := by
  simp [Chains.Listed, h]

variable {r' : Role ν} {next : Option ν} {prev : ν}

variable (hm : MemOk a m)
include hm

/-- `t` gives the head back, or takes it. -/
theorem setKeeper_ok {k head} (hold : ∀ u, u ≠ t → a.keeper ≠ some u)
    (hnew : ∀ u, u ≠ t → k ≠ some u) (hhead : head = if k = none then a.batch.head? else none)
    (hne : k ≠ none → a.batch ≠ []) (hown : Local t r' (a.setKeeper k)) :
    StepOk t r r' .silent a (a.setKeeper k) { m with head := head } := by
  refine ⟨?_, hown, fun u hu => ?_,
    ⟨fun k hk => .inl hk, fun u k hk => .inl hk, nofun, nofun, fun k _ _ => Iff.rfl⟩⟩
  · exact ⟨hm.tail, hhead, hne, hm.mem_batch, hm.mem_taken, hm.nodup_batch, hm.nodup_taken,
      hm.linked_batch, hm.linked_taken, hm.next, hm.linker, hm.used⟩
  · exact ⟨fun k hk => hk, fun p => Iff.rfl, fun p _ hp' => ⟨hp', rfl⟩,
      iff_of_false (hnew u hu) (hold u hu), fun _ => rfl, rfl, fun k _ hk => hk⟩

theorem storeHead_ok (h : Local t (.keeping n) a) :
    StepOk t (.keeping n) .idle .silent a (a.setKeeper none) { m with head := some n } := by
  obtain ⟨hkeeper, hhead⟩ := h.keeping n rfl
  refine setKeeper_ok hm (fun u hu => ?_) nofun hhead.symm (fun hnone => absurd rfl hnone)
    ⟨nofun, nofun, fun p hp => absurd hp (h.linker_ne nofun p), nofun, nofun, nofun, h.takes⟩
  simp [hkeeper, Ne.symm hu]

theorem takeHead_ok (h : Local t .idle a) (hhead : m.head = some n) :
    StepOk t .idle (.keeping n) .silent a (a.setKeeper (some t)) { m with head := none } := by
  obtain ⟨hkeeper, hbatch⟩ : a.keeper = none ∧ a.batch.head? = some n := by
    have := hm.head
    rw [hhead] at this
    split_ifs at this with hkeeper
    exact ⟨hkeeper, this.symm⟩
  refine setKeeper_ok hm (by simp [hkeeper]) (fun u hu => ?_) rfl (fun _ hnil => ?_)
    ⟨nofun, nofun, fun p hp => absurd hp (h.linker_ne nofun p), ?_, fun _ => ⟨n, rfl⟩, nofun,
      h.takes⟩
  · simp [Ne.symm hu]
  · rw [hnil] at hbatch
    cases hbatch
  · rintro k ⟨⟩
    exact ⟨rfl, hbatch⟩

/-- `t` has read the link of its first node. -/
theorem popping_ok (h : Local t (.walking n tail) a)
    (hlinker : a.linker n = none) (hsucc : a.succ n = next) :
    StepOk t (.walking n tail) (.popping n next tail) .silent a a m := by
  obtain ⟨hhead, hlast⟩ := h.takes
  have hrest : (a.taken t).tail.head? = next := by
    obtain ⟨l, hl⟩ := head?_eq_some_iff.mp hhead
    have hlinked := hm.linked_taken t
    rw [hl] at hlinked ⊢
    exact hlinked.1.symm.trans hsucc
  refine ⟨hm, ⟨nofun, nofun, fun p hp => absurd hp (h.linker_ne nofun p), nofun,
    fun hkeeper => absurd hkeeper (h.keeper_ne nofun), ?_, hhead, hrest, hlast⟩,
    fun u _ => .rfl, .rfl⟩
  rintro k next tail ⟨⟩
  exact hlinker

theorem nextLast_ok (h : Local t (.walking n (some n)) a) :
    StepOk t (.walking n (some n)) (.popping n none (some n)) .silent a a m := by
  have hsucc := (hm.linked_taken t).succ_getLast h.takes.2
  refine popping_ok hm h ?_ hsucc
  by_contra hlinker
  exact (hm.linker n hlinker).2 hsucc

theorem next_ok {n' : ν} (h : Local t (.walking n tail) a) (hnext : m.next n = some n') :
    StepOk t (.walking n tail) (.popping n (some n') tail) .silent a a m := by
  have hlisted : a.Listed n := hm.listed_iff.mpr (.inr ⟨t, mem_of_mem_head? h.takes.1⟩)
  have hread := hm.next n hlisted
  rw [hnext] at hread
  split_ifs at hread with hlinker
  exact popping_ok hm h hlinker hread.symm

section Taking

variable [DecidableEq ι]

theorem takeTail_ok (h : Local t (.keeping n) a) :
    StepOk t (.keeping n) (.walking n m.tail) .silent a (a.takeTail t) { m with tail := none } := by
  obtain ⟨hkeeper, hhead⟩ := h.keeping n rfl
  have htaken : a.taken t = [] := h.takes
  have hlisted : ∀ k, (a.takeTail t).Listed k ↔ a.Listed k := by
    unfold Chains.Listed Chains.takeTail
    grind
  have htakes : ∀ u, (a.takeTail t).taken u = if u = t then a.batch else a.taken u :=
    fun u => update_apply ..
  refine ⟨?_, ?_, fun u hu => ?_, ?_⟩
  · refine ⟨rfl, ?_, fun hnone => absurd rfl hnone, ?_, ?_, nodup_nil, ?_, trivial, ?_, ?_, ?_,
      ?_⟩
    · have := hm.head
      rw [hkeeper] at this
      exact this
    · unfold Chains.takeTail
      grind
    · intro u k
      have := hm.mem_batch k
      have := hm.mem_taken u k
      unfold Chains.takeTail
      grind
    · intro u
      rw [htakes]
      split_ifs
      · exact hm.nodup_batch
      · exact hm.nodup_taken u
    · intro u
      rw [htakes]
      split_ifs
      · exact hm.linked_batch
      · exact hm.linked_taken u
    · intro k hk
      exact hm.next k ((hlisted k).mp hk)
    · intro k hk
      obtain ⟨hk, hsucc⟩ := hm.linker k hk
      exact ⟨(hlisted k).mpr hk, hsucc⟩
    · intro k
      have := hm.used k
      unfold Chains.takeTail
      grind
  · refine ⟨nofun, nofun, fun p hp => absurd hp (h.linker_ne nofun p), nofun, nofun, nofun, ?_⟩
    rw [htakes, if_pos rfl]
    exact ⟨hhead, hm.tail.symm⟩
  · refine ⟨fun k hk => ?_, fun p => Iff.rfl, fun p _ hp' => ⟨(hlisted p).mpr hp', rfl⟩, ?_,
      fun hkeeper' => ?_, ?_, fun k _ hk => hk⟩
    · simp [Chains.takeTail, hk]
    · rw [hkeeper]
      simp [Chains.takeTail, Ne.symm hu]
    · rw [hkeeper] at hkeeper'
      cases hkeeper'
      exact absurd rfl hu
    · rw [htakes, if_neg hu]
  · refine ⟨nofun, fun u k hk => ?_, nofun, nofun, fun k _ _ => hlisted k⟩
    rw [htakes] at hk
    split_ifs at hk
    · exact .inr ⟨hk, n, m.tail, rfl, rfl⟩
    · exact .inl hk

end Taking

variable [DecidableEq ν]

theorem make_ok (h : Local t .idle a) (hn : m.used n = false) :
    StepOk t .idle (.making n) .silent a (a.make t n) { m with used := update m.used n true } := by
  have hfree : a.place n = .free := by
    have hused := hm.used n
    rw [hn] at hused
    simpa using hused
  have hlisted : ∀ k, (a.make t n).Listed k ↔ a.Listed k := by
    unfold Chains.Listed Chains.make
    grind
  unfold Chains.make at *
  refine ⟨?_, ?_, fun u hu => ?_, ?_⟩
  · obtain ⟨h1, h2, h3, h4, h5, h6, h7, h8, h9, h10, h11, h12⟩ := hm
    constructor <;> grind
  · obtain ⟨h1, h2, h3, h4, h5, h6, h7⟩ := h
    constructor <;> grind [Role.Takes]
  · constructor <;> grind
  · constructor <;> grind

theorem pushFirst_ok (h : Local t (.making n) a) (htail : m.tail = none) :
    StepOk t (.making n) (.keeping n) (.push n) a (a.pushFirst t n)
      { m with next := update m.next n none, tail := some n } := by
  have hmade := h.making n rfl
  have hnot := not_listed_of_made hmade
  have hbatch : a.batch = [] := by
    rw [← getLast?_eq_none_iff, ← hm.tail]
    exact htail
  have hlisted : ∀ k, (a.pushFirst t n).Listed k ↔ k = n ∨ a.Listed k := by
    unfold Chains.Listed Chains.pushFirst
    grind
  have hlinked : ∀ u, Linked (update a.succ n none) (a.taken u) := by
    intro u
    refine (hm.linked_taken u).congr fun k hk => update_of_ne ?_ ..
    rintro rfl
    exact hnot (hm.listed_iff.mpr (.inr ⟨u, hk⟩))
  unfold Chains.pushFirst at *
  obtain ⟨h1, h2, h3, h4, h5, h6, h7, h8, h9, h10, h11, h12⟩ := hm
  refine ⟨?_, ?_, fun u hu => ?_, ?_⟩
  · constructor <;> grind [Linked]
  · obtain ⟨h1, h2, h3, h4, h5, h6, h7⟩ := h
    constructor <;> grind [Role.Takes]
  · constructor <;> grind
  · constructor <;> grind

theorem pushNext_ok (h : Local t (.making n) a) (htail : m.tail = some prev) :
    StepOk t (.making n) (.linking prev n) (.push n) a (a.pushNext t prev n)
      { m with next := update m.next n none, tail := some n } := by
  have hmade := h.making n rfl
  have hnot := not_listed_of_made hmade
  have hlast : a.batch.getLast? = some prev := hm.tail.symm.trans htail
  have hprev : prev ∈ a.batch := mem_of_getLast? hlast
  have hprev' : a.Listed prev := hm.listed_iff.mpr (.inl hprev)
  have hnil : a.batch ≠ [] := ne_nil_of_mem hprev
  have hhead : (a.batch ++ [n]).head? = a.batch.head? := head?_append_of_ne_nil _ hnil
  have hne : prev ≠ n := by
    rintro rfl
    exact hnot hprev'
  have hsucc : a.succ prev = none := hm.linked_batch.succ_getLast hlast
  have hlinker : a.linker prev = none := by
    by_contra hlinker
    exact (hm.linker prev hlinker).2 hsucc
  have hlisted : ∀ k, (a.pushNext t prev n).Listed k ↔ k = n ∨ a.Listed k := by
    unfold Chains.Listed Chains.pushNext
    grind
  have hkeep : ∀ k ≠ n, a.batch.getLast? ≠ some k → (a.pushNext t prev n).succ k = a.succ k := by
    unfold Chains.pushNext
    grind
  unfold Chains.pushNext at *
  refine ⟨?_, ?_, fun u hu => ?_, ?_⟩
  · refine ⟨by simp, ?_, ?_, ?_, ?_, ?_, hm.nodup_taken, ?_, ?_, ?_, ?_, ?_⟩
    · show m.head = if a.keeper = none then (a.batch ++ [n]).head? else none
      rw [hhead]
      exact hm.head
    · simp
    · have := hm.mem_batch
      grind
    · have := hm.mem_taken
      grind
    · have hn : n ∉ a.batch := fun hn => hnot (hm.listed_iff.mpr (.inl hn))
      have := hm.nodup_batch
      grind
    · apply hm.linked_batch.snoc hm.nodup_batch
      · simp
      · grind
      · intro k hk hk'
        refine hkeep k ?_ hk'
        rintro rfl
        exact hnot (hm.listed_iff.mpr (.inl hk))
    · intro u
      refine (hm.linked_taken u).congr fun k hk => hkeep k ?_ ?_
      · rintro rfl
        exact hnot (hm.listed_iff.mpr (.inr ⟨u, hk⟩))
      · intro hk'
        have hplace := (hm.mem_taken u k).mp hk
        rw [(hm.mem_batch k).mp (mem_of_getLast? hk')] at hplace
        cases hplace
    · have := hm.next
      simp only [hlisted]
      grind
    · have := hm.linker
      simp only [hlisted]
      grind
    · have := hm.used
      grind
  · refine ⟨nofun, ?_, fun p hp => ?_, nofun,
      fun hkeeper => absurd hkeeper (h.keeper_ne nofun), nofun, h.takes⟩
    · rintro p k ⟨⟩
      refine ⟨(hlisted prev).mpr (.inr hprev'), ?_, ?_⟩
      · simp [hne]
      · simp
    · by_cases hpp : p = prev
      · exact ⟨n, by rw [hpp]⟩
      · have hp' : a.linker p = some t := by simpa [hpp] using hp
        exact absurd hp' (h.linker_ne nofun p)
  · refine ⟨fun k hk => ?_, fun p => ?_, fun p hp hp' => ?_, Iff.rfl, fun _ => hhead, rfl,
      fun k hk hk' => ?_⟩
    · have hkn : k ≠ n := by
        rintro rfl
        rw [hmade] at hk
        cases hk
        exact hu rfl
      simpa [hkn] using hk
    · grind
    · have hpp : p ≠ prev := by
        rintro rfl
        rw [hlinker] at hp
        cases hp
      refine ⟨(hlisted p).mpr (.inr hp'), hkeep p ?_ ?_⟩
      · rintro rfl
        exact hnot hp'
      · rw [hlast]
        simpa using hpp.symm
    · have hkp : k ≠ prev := by
        rintro rfl
        have hplace := (hm.mem_taken u k).mp hk
        rw [(hm.mem_batch k).mp hprev] at hplace
        cases hplace
      simpa [hkp] using hk'
  · refine ⟨fun k hk => ?_, fun u k hk => .inl hk, ?_, nofun, fun k hk _ => ?_⟩
    · rcases mem_append.mp hk with hk | hk
      · exact .inl hk
      · exact .inr (by rw [mem_singleton.mp hk])
    · rintro k ⟨⟩
      exact ⟨hnot, (hlisted n).mpr (.inl rfl)⟩
    · rw [hlisted k, or_iff_right]
      rintro rfl
      exact hk rfl

theorem link_ok (h : Local t (.linking prev n) a) :
    StepOk t (.linking prev n) .idle .silent a (a.link prev)
      { m with next := update m.next prev (some n) } := by
  obtain ⟨hlisted, hsucc, hlinker⟩ := h.linking prev n rfl
  unfold Chains.link
  refine ⟨?_, ?_, fun u hu => ?_, ?_⟩
  · refine ⟨hm.tail, hm.head, hm.keeper, hm.mem_batch, hm.mem_taken, hm.nodup_batch,
      hm.nodup_taken, hm.linked_batch, hm.linked_taken, ?_, ?_, hm.used⟩
    · intro k hk
      have := hm.next k hk
      grind
    · intro k hk
      apply hm.linker
      grind
  · refine ⟨nofun, nofun, fun p hp => ?_, nofun,
      fun hkeeper => absurd hkeeper (h.keeper_ne nofun), nofun, h.takes⟩
    by_cases hpp : p = prev
    · simp [hpp] at hp
    · obtain ⟨k, hk⟩ := h.linker p (by simpa [hpp] using hp)
      cases hk
      exact absurd rfl hpp
  · refine ⟨fun k hk => hk, fun p => ?_, fun p _ hp' => ⟨hp', rfl⟩, Iff.rfl, fun _ => rfl, rfl,
      fun k _ hk => ?_⟩
    · grind
    · grind
  · exact ⟨fun k hk => .inl hk, fun u k hk => .inl hk, nofun, nofun, fun k _ _ => Iff.rfl⟩

theorem remove_ok [DecidableEq ι] (h : Local t (.popping n next tail) a) :
    StepOk t (.popping n next tail) (.goOn next tail) (.remove n) a (a.remove t n)
      { m with used := update m.used n false } := by
  have hlinker := h.popping n next tail rfl
  obtain ⟨hhead, hnext, hlast⟩ := h.takes
  obtain ⟨l, hl⟩ := head?_eq_some_iff.mp hhead
  have hplace : a.place n = .taken t := (hm.mem_taken t n).mp (by rw [hl]; exact mem_cons_self)
  have hnodup : n ∉ l ∧ l.Nodup := by
    have := hm.nodup_taken t
    rw [hl] at this
    exact nodup_cons.mp this
  have htakes : ∀ u, (a.remove t n).taken u = if u = t then l else a.taken u := by
    intro u
    rw [show l = (a.taken t).tail by rw [hl]; rfl]
    exact update_apply ..
  have hplaces : ∀ k, (a.remove t n).place k = if k = n then .free else a.place k :=
    fun k => update_apply ..
  have hlisted : ∀ k, (a.remove t n).Listed k ↔ k ≠ n ∧ a.Listed k := by
    unfold Chains.Listed
    grind
  refine ⟨?_, ?_, fun u hu => ?_, ?_⟩
  · refine ⟨hm.tail, hm.head, hm.keeper, ?_, ?_, hm.nodup_batch, ?_, hm.linked_batch, ?_, ?_, ?_, ?_⟩
    · intro k
      have := hm.mem_batch k
      show k ∈ a.batch ↔ _
      grind
    · intro u k
      have := hm.mem_taken u k
      grind
    · intro u
      rw [htakes]
      split_ifs
      · exact hnodup.2
      · exact hm.nodup_taken u
    · intro u
      rw [htakes]
      split_ifs
      · have hlinked := hm.linked_taken t
        rw [hl] at hlinked
        exact hlinked.2
      · exact hm.linked_taken u
    · intro k hk
      exact hm.next k ((hlisted k).mp hk).2
    · intro k hk
      obtain ⟨hk', hsucc⟩ := hm.linker k hk
      refine ⟨(hlisted k).mpr ⟨?_, hk'⟩, hsucc⟩
      rintro rfl
      exact hk hlinker
    · intro k
      have := hm.used k
      grind
  · rw [hl] at hnext hlast
    have htakes' : (a.remove t n).taken t = l := by rw [htakes, if_pos rfl]
    rcases next with _ | k
    all_goals
      refine ⟨nofun, nofun, fun p hp => absurd hp (h.linker_ne nofun p), nofun,
        fun hkeeper => absurd hkeeper (h.keeper_ne nofun), nofun, ?_⟩
      rw [htakes']
    · exact head?_eq_none_iff.mp hnext
    · obtain ⟨l', rfl⟩ := head?_eq_some_iff.mp hnext
      exact ⟨rfl, by rw [← hlast, getLast?_cons_cons]⟩
  · refine ⟨fun k hk => ?_, fun p => Iff.rfl, fun p hp hp' => ⟨(hlisted p).mpr ⟨?_, hp'⟩, rfl⟩,
      Iff.rfl, fun _ => rfl, ?_, fun k _ hk => hk⟩
    · rw [hplaces, if_neg, hk]
      rintro rfl
      rw [hplace] at hk
      cases hk
    · rintro rfl
      rw [hlinker] at hp
      cases hp
    · rw [htakes, if_neg hu]
  · refine ⟨fun k hk => .inl hk, fun u k hk => .inl ?_, nofun, ?_, fun k _ hk => ?_⟩
    · rw [htakes] at hk
      split_ifs at hk with hut
      · rw [hut, hl]
        exact mem_cons_of_mem n hk
      · exact hk
    · rintro k ⟨⟩
      refine ⟨by rw [hl]; exact mem_cons_self, fun hn => ((hlisted n).mp hn).1 rfl⟩
    · rw [hlisted k, and_iff_right]
      rintro rfl
      exact hk rfl

/-- **Step lemma.** -/
theorem step_ok [DecidableEq ι] {act : Act ν} {m' : Mem ν}
    (h : Local t r a) (hstep : Step r m act r' m') : ∃ a', StepOk t r r' act a a' m' := by
  cases hstep with
  | other => exact ⟨a, hm, h, fun _ _ => .rfl, .rfl⟩
  | make hn => exact ⟨_, make_ok hm h hn⟩
  | pushFirst htail => exact ⟨_, pushFirst_ok hm h htail⟩
  | pushNext htail => exact ⟨_, pushNext_ok hm h htail⟩
  | link => exact ⟨_, link_ok hm h⟩
  | storeHead => exact ⟨_, storeHead_ok hm h⟩
  | takeHead hhead => exact ⟨_, takeHead_ok hm h hhead⟩
  | takeTail => exact ⟨_, takeTail_ok hm h⟩
  | nextLast => exact ⟨a, nextLast_ok hm h⟩
  | next htail hnext => exact ⟨a, next_ok hm h hnext⟩
  | remove => exact ⟨_, remove_ok hm h⟩

end Steps

/-! ## Threads -/

section Threads

variable {a : Chains ι ν} {g g' : Threads ι (Role ν) (Mem ν)} {t : ι}

/-- **A step of any thread.** -/
theorem step_represents [DecidableEq ι] [DecidableEq ν] {act : Act ν}
    (h : Represents a g) (hstep : Interleave (fun _ => Step) g (t, act) g') :
    ∃ a', Represents a' g' ∧ Moves t (g.pc t) (g'.pc t) act a a' := by
  obtain ⟨hstep⟩ := hstep
  rename_i r' m'
  obtain ⟨a', hok⟩ := step_ok h.mem (h.thread t) hstep
  refine ⟨a', ⟨hok.mem, fun u => ?_⟩, ?_⟩
  · show Local u (update g.pc t r' u) a'
    by_cases hu : u = t
    · subst hu
      rw [update_self]
      exact hok.own
    · rw [update_of_ne hu]
      exact (h.thread u).frame (hok.frame u hu)
  · show Moves t (g.pc t) (update g.pc t r' t) act a a'
    rw [update_self]
    exact hok.moves

/-- No nodes. -/
def Chains.empty (ι ν : Type*) : Chains ι ν :=
  ⟨[], fun _ => [], fun _ => .free, fun _ => none, fun _ => none, none⟩

theorem represents_empty (next : ν → Option ν) :
    Represents (Chains.empty ι ν) ⟨fun _ => .idle, ⟨none, none, next, fun _ => false⟩⟩ := by
  have hlisted : ∀ n, ¬ (Chains.empty ι ν).Listed n := by
    rintro n (h | ⟨t, h⟩) <;> cases h
  refine ⟨⟨rfl, rfl, nofun, fun n => ?_, fun t n => ?_, nodup_nil, fun _ => nodup_nil,
    trivial, fun _ => trivial, fun n hn => absurd hn (hlisted n), fun n hn => absurd rfl hn,
    fun n => ?_⟩, fun t => ⟨nofun, nofun, nofun, nofun, nofun, nofun, rfl⟩⟩
  · simp [Chains.empty]
  · simp [Chains.empty]
  · simp [Chains.empty]

/-- **Waiting for a link.** A consumer that finds no link from a node that is not the last one
waits for a thread that is about to store it. -/
theorem Represents.linking_of_next (h : Represents a g) {n : ν}
    (hpc : g.pc t = .walking n tail) (htail : tail ≠ some n) (hnext : g.shared.next n = none) :
    ∃ u n', g.pc u = .linking n n' := by
  have htakes := (h.thread t).takes
  have hlinked := h.mem.linked_taken t
  rw [hpc] at htakes
  obtain ⟨hhead, hlast⟩ := htakes
  have hlisted : a.Listed n := h.mem.listed_iff.mpr (.inr ⟨t, mem_of_mem_head? hhead⟩)
  have hsucc : a.succ n ≠ none := by
    obtain ⟨l, hl⟩ := head?_eq_some_iff.mp hhead
    rw [hl] at hlast hlinked
    rw [hlinked.1]
    rintro hnil
    rw [head?_eq_none_iff.mp hnil] at hlast
    exact htail hlast.symm
  have hnext' := h.mem.next n hlisted
  rw [hnext] at hnext'
  cases hlinker : a.linker n with
  | none =>
    rw [if_pos hlinker] at hnext'
    exact absurd hnext'.symm hsucc
  | some u =>
    obtain ⟨n', hn'⟩ := (h.thread u).linker n hlinker
    exact ⟨u, n', hn'⟩

/-- When no thread does anything with the list, the memory is a linked list of the nodes. -/
theorem Represents.at_rest (h : Represents a g) (hrest : ∀ t, g.pc t = .idle) :
    g.shared.head = a.batch.head? ∧ g.shared.tail = a.batch.getLast? ∧
      Linked g.shared.next a.batch ∧ ∀ n, a.Listed n ↔ n ∈ a.batch := by
  have hkeeper : a.keeper = none := by
    refine Option.eq_none_iff_forall_ne_some.mpr fun t => (h.thread t).keeper_ne fun n => ?_
    rw [hrest t]
    nofun
  have hlinker : ∀ n, a.linker n = none := by
    refine fun n => Option.eq_none_iff_forall_ne_some.mpr fun t =>
      (h.thread t).linker_ne (fun p n => ?_) n
    rw [hrest t]
    nofun
  have htaken : ∀ t, a.taken t = [] := by
    intro t
    have htakes := (h.thread t).takes
    rw [hrest t] at htakes
    exact htakes
  refine ⟨?_, h.mem.tail, ?_, fun n => ?_⟩
  · rw [h.mem.head, if_pos hkeeper]
  · refine h.mem.linked_batch.congr fun n hn => ?_
    rw [h.mem.next n (h.mem.listed_iff.mpr (.inl hn)), if_pos (hlinker n)]
  · rw [h.mem.listed_iff]
    simp [htaken]

end Threads

end Apple.Lib.SharedList
