import Apple.Lib.Run
import Apple.Objc.AutoreleasePoolStack

/-!
# Runs of one thread's autorelease pools

A thread's client code calls `push`, `autorelease` and `pop`. `pop` loops over
`releaseStep`, and each release runs client code again, before the loop goes on: the
control state is a stack of client frames and of loops that wait for a release. Pools
are popped by the code that pushed them, innermost first; a release may leave pools open,
the loop below it then pops them.

The history, the number of each insertion and what the stack held at a push are recorded
beside the state; the calls do not depend on them.

Results: `autoreleasePool_run`. In every run no call meets a fault, each release takes the
most recently autoreleased object that has not been released, a `pop` restores the stack
of its push and the objects released since then are those autoreleased since then, and
there are at most as many passes through the loops as calls. `releaseUntil_climbs_once`: in
every run the pages before the hot page are full and those after it are empty, so the inner
loop of `releaseUntil` makes one step at most.
-/

namespace Apple.Objc.AutoreleasePool

open Apple.Lib List

/-! ## The machine -/

/-- An object on the stack; `serial` counts the calls of `autorelease`. -/
structure Insertion where
  obj : ℕ
  serial : ℕ
  deriving DecidableEq, Repr

/-- A pool that client code has pushed: its token, the stack before the push and the length of
the history then. -/
structure OpenPool where
  token : Token
  before : List (Entry Insertion)
  since : ℕ
  deriving DecidableEq, Repr

inductive Event where
  | pushed (pool : OpenPool)
  | autoreleased (x : Insertion)
  /-- the loop of `releaseUntil` takes a boundary -/
  | crossed
  | released (x : Insertion)
  | popping (pool : OpenPool)
  | popped (pool : OpenPool)
  | returned
  deriving DecidableEq, Repr

/-- A frame of the thread's control stack. -/
inductive Frame where
  /-- client code with the pools it has pushed, innermost first -/
  | client (pools : List OpenPool)
  /-- the loop of `page->releaseUntil(stop)` in `pop` -/
  | releasing (pool : OpenPool) (page : PageId) (stop : ℕ)
  deriving DecidableEq, Repr

structure Machine where
  thread : Thread Insertion := {}
  frames : List Frame := [.client []]
  history : List Event := []

/-- What happens next; the allocator puts a new page, if one is needed, at `fresh`. -/
inductive Call where
  | push (fresh : PageId)
  | autorelease (fresh : PageId) (obj : ℕ)
  | pop
  /-- a release returns to the loop -/
  | endRelease
  /-- a pass through the loop -/
  | iterate
  deriving DecidableEq, Repr

/-- The objects autoreleased, in order. -/
def inserted (es : List Event) : List Insertion :=
  es.filterMap fun | .autoreleased x => some x | _ => none

/-- The objects released, in order. -/
def released (es : List Event) : List Insertion :=
  es.filterMap fun | .released x => some x | _ => none

/-- One step; `none` if the control state does not allow the call. -/
def perform (cfg : Settings) (call : Call) (c : Machine) : Option (Except Fault Machine) :=
  match call, c.frames with
  | .push fresh, .client pools :: frames => some do
    let (token, s) ← push cfg fresh c.thread
    let pool : OpenPool := ⟨token, logicalStack c.thread, c.history.length⟩
    .ok ⟨s, .client (pool :: pools) :: frames, c.history ++ [.pushed pool]⟩
  | .autorelease fresh obj, .client pools :: frames => some do
    let x : Insertion := ⟨obj, (inserted c.history).length⟩
    let s ← autorelease cfg fresh x c.thread
    .ok ⟨s, .client pools :: frames, c.history ++ [.autoreleased x]⟩
  | .pop, .client (pool :: pools) :: frames => some do
    let r ← popStart pool.token c.thread
    match r with
    | .done s => .ok ⟨s, .client pools :: frames, c.history ++ [.popped pool]⟩
    | .releasing page stop =>
      .ok ⟨c.thread, .releasing pool page stop :: .client pools :: frames,
        c.history ++ [.popping pool]⟩
  | .endRelease, .client _ :: .releasing pool page stop :: frames =>
    some (.ok ⟨c.thread, .releasing pool page stop :: frames, c.history ++ [.returned]⟩)
  | .iterate, .releasing pool page stop :: frames => some do
    let (entry, s) ← releaseStep page stop c.thread
    match entry with
    | none => do
      let s ← popEnd cfg page s
      .ok ⟨s, frames, c.history ++ [.popped pool]⟩
    | some .boundary => .ok ⟨s, .releasing pool page stop :: frames, c.history ++ [.crossed]⟩
    | some (.object x) =>
      .ok ⟨s, .client [] :: .releasing pool page stop :: frames, c.history ++ [.released x]⟩
  | _, _ => none

/-- The allocator returns unused memory. -/
def Call.Fresh (s : Thread Insertion) : Call → Prop
  | .push fresh => s.pages fresh = none
  | .autorelease fresh _ => s.pages fresh = none
  | _ => True

/-- A step without a fault. -/
def Step (cfg : Settings) (c : Machine) (call : Call) (c' : Machine) : Prop :=
  call.Fresh c.thread ∧ perform cfg call c = some (.ok c')

/-! ## The history and the stack -/

/-- The objects of a stack. -/
def objects (l : List (Entry Insertion)) : List Insertion :=
  l.filterMap fun | .object x => some x | .boundary => none

/-- Each release takes the most recently autoreleased object that has not been released. -/
def Lifo (history : List Event) : Prop :=
  ∀ es x fs, history = es ++ .released x :: fs →
    x ∈ inserted es ∧ x ∉ released es ∧ ∀ y ∈ inserted es, y ∉ released es → y.serial ≤ x.serial

/-- The objects autoreleased since a point of the history are those above a position of the stack
and those released. -/
def Account (l : List (Entry Insertion)) (history : List Event) (n since : ℕ) : Prop :=
  (inserted (history.drop since)).Perm (objects (l.drop n) ++ released (history.drop since))

/-- What the history says about the stack and the open pools. -/
structure Recorded (l : List (Entry Insertion)) (history : List Event) (pools : List OpenPool) :
    Prop where
  serials : (inserted history).map Insertion.serial = List.range (inserted history).length
  sorted : (objects l).Pairwise fun x y => x.serial < y.serial
  lifo : Lifo history
  all : Account l history 0 0
  pushed : ∀ r ∈ pools, history[r.since]? = some (.pushed r)
  account : ∀ r ∈ pools, Account l history r.before.length r.since

/-- What the last event says about the stack after it. -/
def EventOk (history : List Event) (l : List (Entry Insertion)) : Event → Prop
  | .pushed r => r.since = history.length ∧ l = r.before ++ [.boundary]
  | .popped r => l = r.before ∧ history[r.since]? = some (.pushed r) ∧
      (released (history.drop r.since)).Perm (inserted (history.drop r.since))
  | _ => True

section Lists

variable {l l' : List (Entry Insertion)} {x : Insertion} {es : List Event} {e : Event} {n : ℕ}

@[simp]
theorem inserted_append (es fs : List Event) :
    inserted (es ++ fs) = inserted es ++ inserted fs := filterMap_append

@[simp]
theorem released_append (es fs : List Event) :
    released (es ++ fs) = released es ++ released fs := filterMap_append

@[simp]
theorem objects_append (l l' : List (Entry Insertion)) :
    objects (l ++ l') = objects l ++ objects l' := filterMap_append

@[simp]
theorem objects_boundary : objects [.boundary] = [] := rfl

@[simp]
theorem objects_object : objects [.object x] = [x] := rfl

/-- A boundary on top does not count. -/
theorem objects_drop_boundary : objects ((l ++ [Entry.boundary]).drop n) = objects (l.drop n) := by
  rw [drop_append]
  rcases n - l.length with _ | m <;> simp

theorem objects_drop_object (hn : n ≤ l.length) :
    objects ((l ++ [Entry.object x]).drop n) = objects (l.drop n) ++ [x] := by
  rw [drop_append_of_le_length hn, objects_append, objects_object]

theorem Lifo.append (h : Lifo es) (he : ∀ x, e = .released x → x ∈ inserted es ∧
    x ∉ released es ∧ ∀ y ∈ inserted es, y ∉ released es → y.serial ≤ x.serial) :
    Lifo (es ++ [e]) := by
  intro as x bs heq
  rcases eq_nil_or_concat' bs with rfl | ⟨bs, b, rfl⟩
  · obtain ⟨rfl, heq⟩ := append_inj' heq rfl
    exact he x (by simpa using heq)
  · rw [← cons_append, ← append_assoc] at heq
    obtain ⟨rfl, -⟩ := append_inj' heq rfl
    exact h as x bs rfl

end Lists

namespace Recorded

variable {l l' : List (Entry Insertion)} {history : List Event} {pools pools' : List OpenPool}
  {x : Insertion} {e : Event}

theorem nil : Recorded [] [] [] := by
  refine ⟨rfl, List.Pairwise.nil, ?_, List.Perm.refl _, by simp, by simp⟩
  intro es x fs heq
  simp at heq

variable (h : Recorded l history pools)

section

include h

theorem nodup : (inserted history).Nodup := by
  apply List.Nodup.of_map Insertion.serial
  rw [h.serials]
  exact nodup_range

/-- The unreleased objects are those on the stack. -/
theorem perm : (inserted history).Perm (objects l ++ released history) := h.all

variable {r : OpenPool}

theorem since_lt (hr : r ∈ pools) :
    r.since < history.length := (List.getElem?_eq_some_iff.mp (h.pushed r hr)).1

theorem pushed_append (hr : r ∈ pools)
    (fs : List Event) : (history ++ fs)[r.since]? = some (.pushed r) := by
  rw [getElem?_append_left (h.since_lt hr), h.pushed r hr]

/-- An event that neither adds nor releases an object. -/
theorem quiet (hi : inserted [e] = []) (hx : released [e] = [])
    (hl : ∀ n, objects (l'.drop n) = objects (l.drop n)) (hsub : ∀ r ∈ pools', r ∈ pools) :
    Recorded l' (history ++ [e]) pools' := by
  have hobj : objects l' = objects l := hl 0
  have haccount : ∀ n since, since ≤ history.length → Account l history n since →
      Account l' (history ++ [e]) n since := by
    intro n since hle hacc
    rw [Account, drop_append_of_le_length hle, inserted_append, released_append, hi, hx,
      append_nil, append_nil, hl]
    exact hacc
  refine ⟨?_, ?_, ?_, haccount 0 0 zero_le h.all, ?_, ?_⟩
  · rw [inserted_append, hi, append_nil]
    exact h.serials
  · rw [hobj]
    exact h.sorted
  · apply h.lifo.append
    rintro x rfl
    simp [released] at hx
  · exact fun r hr => h.pushed_append (hsub r hr) _
  · exact fun r hr => haccount _ _ (h.since_lt (hsub r hr)).le (h.account r (hsub r hr))

/-- An object is added on top. -/
theorem insert {obj : ℕ} (hn : ∀ r ∈ pools, r.before.length ≤ l.length)
    (hx : x = ⟨obj, (inserted history).length⟩) :
    Recorded (l ++ [.object x]) (history ++ [.autoreleased x]) pools := by
  have hi : inserted [.autoreleased x] = [x] := rfl
  have hr : released [.autoreleased x] = [] := rfl
  have haccount : ∀ n since, since ≤ history.length → n ≤ l.length → Account l history n since →
      Account (l ++ [.object x]) (history ++ [.autoreleased x]) n since := by
    intro n since hle hn hacc
    rw [Account, drop_append_of_le_length hle, inserted_append, released_append, hr,
      append_nil, objects_drop_object hn]
    refine (hacc.append_right [x]).trans ?_
    rw [append_assoc, append_assoc]
    exact perm_append_comm.append_left _
  have hlt : ∀ y ∈ inserted history, y.serial < (inserted history).length := by
    intro y hy
    rw [← mem_range, ← h.serials]
    exact List.mem_map_of_mem hy
  refine ⟨?_, ?_, ?_, haccount 0 0 zero_le zero_le h.all, ?_, ?_⟩
  · rw [inserted_append, hi, map_append, h.serials, length_append, length_singleton,
      range_succ, map_singleton, hx]
  · rw [objects_append, pairwise_append]
    refine ⟨h.sorted, pairwise_singleton _ _, ?_⟩
    intro y hy z hz
    rw [mem_singleton.mp hz, hx]
    exact hlt y (h.perm.mem_iff.mpr (mem_append_left _ hy))
  · apply h.lifo.append
    intro y hy
    cases hy
  · exact fun r hr => h.pushed_append hr _
  · exact fun r hr => haccount _ _ (h.since_lt hr).le (hn r hr) (h.account r hr)

end

/-- **The object on top is released.** -/
theorem release (h : Recorded (l ++ [.object x]) history pools)
    (hn : ∀ r ∈ pools, r.before.length ≤ l.length) :
    Recorded l (history ++ [.released x]) pools := by
  have hi : inserted [.released x] = [] := rfl
  have haccount : ∀ n since, since ≤ history.length → n ≤ l.length →
      Account (l ++ [.object x]) history n since →
      Account l (history ++ [.released x]) n since := by
    intro n since hle hn hacc
    rw [Account, objects_drop_object hn] at hacc
    rw [Account, drop_append_of_le_length hle, inserted_append, released_append, hi, append_nil]
    refine hacc.trans ?_
    rw [append_assoc]
    exact perm_append_comm.append_left _
  have hsorted := h.sorted
  rw [objects_append, pairwise_append] at hsorted
  have hperm := h.perm
  rw [objects_append] at hperm
  have hnodup := hperm.nodup_iff.mp h.nodup
  refine ⟨?_, hsorted.1, ?_, haccount 0 0 zero_le zero_le h.all, ?_, ?_⟩
  · rw [inserted_append, hi, append_nil]
    exact h.serials
  · apply h.lifo.append
    intro z hz
    obtain rfl : x = z := by simpa using hz
    refine ⟨hperm.mem_iff.mpr (by simp), ?_, ?_⟩
    · exact fun hmem => (nodup_append.mp hnodup).2.2 x (by simp) x hmem rfl
    · intro y hy hny
      rcases mem_append.mp (hperm.mem_iff.mp hy) with hy | hy
      · rcases mem_append.mp hy with hy | hy
        · exact (hsorted.2.2 y hy x (by simp)).le
        · rw [mem_singleton.mp hy]
      · exact absurd hy hny
  · exact fun r hr => h.pushed_append hr _
  · exact fun r hr => haccount _ _ (h.since_lt hr).le (hn r hr) (h.account r hr)

variable {r : OpenPool}

include h in
/-- A pool is pushed. -/
theorem push (hsince : r.since = history.length) (hbefore : r.before = l) :
    Recorded (l ++ [.boundary]) (history ++ [.pushed r]) (r :: pools) := by
  have hq : Recorded (l ++ [.boundary]) (history ++ [.pushed r]) pools :=
    h.quiet rfl rfl (fun _ => objects_drop_boundary) fun _ hr => hr
  refine ⟨hq.serials, hq.sorted, hq.lifo, hq.all, ?_, ?_⟩
  · refine forall_mem_cons.mpr ⟨?_, hq.pushed⟩
    rw [hsince]
    simp
  · refine forall_mem_cons.mpr ⟨?_, hq.account⟩
    rw [Account, hbefore, hsince]
    simp [inserted, released]

include h in
/-- When the stack is back at a pool's start, what was added since has been released. -/
theorem balanced (hr : r ∈ pools) (hl : objects (l.drop r.before.length) = []) :
    (released (history.drop r.since)).Perm (inserted (history.drop r.since)) := by
  have hacc := h.account r hr
  rw [Account, hl] at hacc
  exact hacc.symm

end Recorded

/-! ## Invariant -/

/-- The open pools of all frames, innermost first. -/
def openPools : List Frame → List OpenPool
  | [] => []
  | .client pools :: frames => pools ++ openPools frames
  | .releasing pool _ _ :: frames => pool :: openPools frames

/-- Each pool's boundary is on the stack before everything of the pools inside it. -/
def Nested : List (Entry Insertion) → List OpenPool → Prop
  | _, [] => True
  | l, r :: pools => r.before ++ [.boundary] <+: l ∧ Nested r.before pools

/-- The boundaries of the open pools are on the stack. A loop that has taken the boundary of its
pool is about to end. -/
def Control (l : List (Entry Insertion)) : List Frame → Prop
  | .releasing r page stop :: frames =>
    Nested l (openPools (.releasing r page stop :: frames)) ∨
      l = r.before ∧ Nested l (openPools frames)
  | frames => Nested l (openPools frames)

structure Inv (cfg : Settings) (c : Machine) (chain : List PageId) (l : List (Entry Insertion)) :
    Prop where
  represents : Represents cfg c.thread chain l
  recorded : Recorded l c.history (openPools c.frames)
  control : Control l c.frames
  tokens : ∀ r ∈ openPools c.frames, Located cfg chain r.before.length r.token
  loops : ∀ r page stop, .releasing r page stop ∈ c.frames →
    Located cfg chain r.before.length (.slot page stop)
  last : ∀ es e, c.history = es ++ [e] → EventOk es l e

section Control

variable {l l' : List (Entry Insertion)} {pools : List OpenPool} {frames : List Frame}

theorem Nested.mono (h : Nested l pools) (hpre : l <+: l') : Nested l' pools := by
  cases pools with
  | nil => trivial
  | cons r pools => exact ⟨h.1.trans hpre, h.2⟩

theorem Nested.lt (h : Nested l pools) : ∀ r ∈ pools, r.before.length < l.length := by
  induction pools generalizing l with
  | nil => simp
  | cons r pools ih =>
    intro r' hr'
    have hlen := h.1.length_le
    rw [length_append, length_singleton] at hlen
    rcases mem_cons.mp hr' with rfl | hr'
    · omega
    · have := ih h.2 r' hr'
      omega

theorem Nested.of_append {pools' : List OpenPool} (h : Nested l (pools ++ pools')) :
    Nested l pools' := by
  induction pools generalizing l with
  | nil => exact h
  | cons r pools ih => exact (ih h.2).mono ((prefix_append ..).trans h.1)

theorem Control.of_nested (h : Nested l (openPools frames)) : Control l frames := by
  rcases frames with _ | ⟨_ | ⟨r, page, stop⟩, frames⟩
  · exact h
  · exact h
  · exact .inl h

theorem eventOk_last {history : List Event} (e : Event) (h : EventOk history l e) :
    ∀ es e', history ++ [e] = es ++ [e'] → EventOk es l e' := by
  intro es e' heq
  obtain ⟨rfl, heq⟩ := append_inj' heq rfl
  obtain rfl : e = e' := by simpa using heq
  exact h

theorem mem_openPools {r : OpenPool} {page : PageId} {stop : ℕ}
    (h : .releasing r page stop ∈ frames) : r ∈ openPools frames := by
  induction frames with
  | nil => cases h
  | cons frame frames ih =>
    rcases mem_cons.mp h with rfl | hmem
    · simp [openPools]
    · cases frame with
      | client pools => exact mem_append_right _ (ih hmem)
      | releasing r' page' stop' => exact mem_cons_of_mem _ (ih hmem)

end Control

/-! ## Steps -/

/-- The loops that are running. -/
def loops (frames : List Frame) : ℕ :=
  frames.countP fun | .releasing .. => true | .client _ => false

def Call.isIterate : Call → Bool
  | .iterate => true
  | _ => false

/-- The call is made without a fault, keeps the invariant and takes one from the entries and loops
if it is a pass through a loop, else it adds one at most. -/
def Safe (cfg : Settings) (call : Call) (c : Machine) (l : List (Entry Insertion)) : Prop :=
  ∃ c' chain' l', perform cfg call c = some (.ok c') ∧ Inv cfg c' chain' l' ∧
    l'.length + loops c'.frames + (if call.isIterate then 1 else 0) ≤
      l.length + loops c.frames + if !call.isIterate then 1 else 0

section Steps

variable {cfg : Settings} {thread : Thread Insertion} {history : List Event} {frames : List Frame}
  {pools : List OpenPool} {pool : OpenPool} {fresh page : PageId} {stop obj : ℕ}
  {chain : List PageId} {l : List (Entry Insertion)}

variable (hm : cfg.debugMissingPools = false) (ha : cfg.debugPoolAllocation = false)

include hm ha in
theorem push_safe (h : Inv cfg ⟨thread, .client pools :: frames, history⟩ chain l)
    (hfresh : thread.pages fresh = none) :
    Safe cfg (.push fresh) ⟨thread, .client pools :: frames, history⟩ l := by
  obtain ⟨tok, s', chain', hpush, hr', hpre, hloc⟩ := push_spec h.represents hfresh hm ha
  have hstack : logicalStack thread = l := logicalStack_eq h.represents
  refine ⟨⟨s', .client (⟨tok, l, history.length⟩ :: pools) :: frames,
    history ++ [.pushed ⟨tok, l, history.length⟩]⟩, chain', l ++ [.boundary], ?_, ?_, ?_⟩
  · simp [perform, hpush, hstack]
  · refine ⟨hr', h.recorded.push rfl rfl, ?_, ?_, ?_, eventOk_last (.pushed _) ⟨rfl, rfl⟩⟩
    · exact ⟨prefix_rfl, h.control⟩
    · exact forall_mem_cons.mpr ⟨hloc, fun r hr => (h.tokens r hr).mono hpre⟩
    · intro r page stop hmem
      have hmem' : .releasing r page stop ∈ frames := by simpa using hmem
      exact (h.loops r page stop (mem_cons_of_mem _ hmem')).mono hpre
  · simp [loops, Call.isIterate]
    omega

include hm ha in
theorem autorelease_safe (h : Inv cfg ⟨thread, .client pools :: frames, history⟩ chain l)
    (hfresh : thread.pages fresh = none) :
    Safe cfg (.autorelease fresh obj) ⟨thread, .client pools :: frames, history⟩ l := by
  obtain ⟨x, hx⟩ : ∃ x : Insertion, x = ⟨obj, (inserted history).length⟩ := ⟨_, rfl⟩
  obtain ⟨s', chain', hauto, hr', hpre⟩ := autorelease_spec x h.represents hfresh hm ha
  refine ⟨⟨s', .client pools :: frames, history ++ [.autoreleased x]⟩, chain', l ++ [.object x],
    ?_, ⟨hr', ?_, ?_, ?_, ?_, eventOk_last (.autoreleased x) trivial⟩, ?_⟩
  · rw [hx] at hauto
    simp [perform, hauto, hx]
  · exact h.recorded.insert (fun r hr => (Nested.lt h.control r hr).le) hx
  · exact Nested.mono h.control (prefix_append ..)
  · exact fun r hr => (h.tokens r hr).mono hpre
  · exact fun r page stop hmem => (h.loops r page stop hmem).mono hpre
  · simp [Call.isIterate]
    omega

theorem pop_safe (h : Inv cfg ⟨thread, .client (pool :: pools) :: frames, history⟩ chain l) :
    Safe cfg .pop ⟨thread, .client (pool :: pools) :: frames, history⟩ l := by
  have hnested : Nested l (pool :: (pools ++ openPools frames)) := h.control
  have hmem : pool ∈ openPools (.client (pool :: pools) :: frames) := by simp [openPools]
  have hsub : ∀ r ∈ openPools (.client pools :: frames),
      r ∈ openPools (.client (pool :: pools) :: frames) := fun r hr => mem_cons_of_mem _ hr
  have hboundary : l[pool.before.length]? = some .boundary := by
    obtain ⟨t, rfl⟩ := hnested.1
    simp
  have hloops : ∀ r page stop, Frame.releasing r page stop ∈ frames →
      Located cfg chain r.before.length (.slot page stop) := fun r page stop hf =>
    h.loops r page stop (mem_cons_of_mem _ hf)
  rcases popStart_spec h.represents (h.tokens pool hmem) hboundary with
    ⟨s', hpop, hzero, rfl, hr'⟩ | ⟨page, stop, hpop, hloc⟩
  · -- the placeholder pool was never used
    have hnil : pool.before = [] := length_eq_zero_iff.mp hzero
    refine ⟨⟨s', .client pools :: frames, history ++ [.popped pool]⟩, chain, [], ?_,
      ⟨hr', ?_, ?_, ?_, ?_, eventOk_last (.popped pool)
        ⟨hnil.symm, h.recorded.pushed pool hmem, ?_⟩⟩, ?_⟩
    · simp [perform, hpop]
    · exact h.recorded.quiet rfl rfl (fun _ => (objects_drop_boundary).symm) hsub
    · exact hnil ▸ hnested.2
    · exact fun r hr => h.tokens r (hsub r hr)
    · intro r page stop hf
      exact hloops r page stop (by simpa using hf)
    · exact h.recorded.balanced hmem (by rw [hzero]; rfl)
    · simp [loops, Call.isIterate]
      omega
  · refine ⟨⟨thread, .releasing pool page stop :: .client pools :: frames,
      history ++ [.popping pool]⟩, chain, l, ?_,
      ⟨h.represents, ?_, .inl hnested, ?_, ?_, eventOk_last (.popping pool) trivial⟩, ?_⟩
    · simp [perform, hpop]
    · exact h.recorded.quiet rfl rfl (fun _ => rfl) fun r hr => hr
    · exact h.tokens
    · intro r page' stop' hf
      rcases mem_cons.mp hf with heq | hf
      · obtain ⟨rfl, rfl, rfl⟩ := Frame.releasing.inj heq
        exact hloc
      · exact hloops r page' stop' (by simpa using hf)
    · simp [loops, Call.isIterate]
      omega

theorem endRelease_safe
    (h : Inv cfg ⟨thread, .client pools :: .releasing pool page stop :: frames, history⟩ chain l) :
    Safe cfg .endRelease ⟨thread, .client pools :: .releasing pool page stop :: frames, history⟩
      l := by
  have hsub : ∀ r ∈ openPools (.releasing pool page stop :: frames),
      r ∈ openPools (.client pools :: .releasing pool page stop :: frames) := fun r hr =>
    mem_append_right _ hr
  refine ⟨⟨thread, .releasing pool page stop :: frames, history ++ [.returned]⟩, chain, l, rfl,
    ⟨h.represents, ?_, ?_, ?_, ?_, eventOk_last .returned trivial⟩, ?_⟩
  · exact h.recorded.quiet rfl rfl (fun _ => rfl) hsub
  · exact .inl (Nested.of_append h.control)
  · exact fun r hr => h.tokens r (hsub r hr)
  · exact fun r page' stop' hf => h.loops r page' stop' (mem_cons_of_mem _ hf)
  · simp [loops, Call.isIterate]

variable (h : Inv cfg ⟨thread, .releasing pool page stop :: frames, history⟩ chain l)

include h in
theorem Inv.length_before_le : pool.before.length ≤ l.length := by
  rcases h.control with hc | ⟨rfl, -⟩
  · exact (hc.lt pool (by simp [openPools])).le
  · exact le_rfl

include h in
/-- A loop that goes on has an entry to take. -/
theorem Inv.ne_nil
    {pg : Page Insertion} (hpg : thread.pages page = some pg) (hstop : pg.entries.length ≠ stop) :
    l ≠ [] := by
  rintro rfl
  have hn := h.length_before_le
  obtain ⟨k, hk, -, -, rfl⟩ := (h.loops pool page stop (by simp)).slot
  apply hstop
  rw [h.represents.pages.entries k page pg hk hpg]
  simp_all

section

include hm ha

include h in
/-- The last pass through a loop: the stack is that of the push. -/
theorem iterate_last {k : ℕ}
    (hl : l = pool.before) (hnested : Nested l (openPools frames)) (hk : chain[k]? = some page)
    (hlo : k * cfg.capacity ≤ l.length) (hhi : l.length < (k + 1) * cfg.capacity)
    {s' : Thread Insertion} (hstep : releaseStep page stop thread = .ok (none, s'))
    (hp' : Pages cfg s' chain l) (htls' : s'.tls = .page page) :
    Safe cfg .iterate ⟨thread, .releasing pool page stop :: frames, history⟩ l := by
  obtain ⟨s'', m, hend, hkm, hr''⟩ := popEnd_spec hp' htls' ⟨hk, hlo, hhi.le⟩ hm ha
  have hmem : pool ∈ openPools (.releasing pool page stop :: frames) := by simp [openPools]
  have hsub : ∀ r ∈ openPools frames, r ∈ openPools (.releasing pool page stop :: frames) :=
    fun r hr => mem_cons_of_mem _ hr
  have htake : ∀ n tok, n ≤ l.length → Located cfg chain n tok →
      Located cfg (chain.take m) n tok := by
    intro n tok hn hloc
    have hdiv : n / cfg.capacity < k + 1 :=
      (Nat.div_lt_iff_lt_mul cfg.capacity_pos).mpr (lt_of_le_of_lt hn hhi)
    exact hloc.of_chain (getElem?_take_of_lt (by omega)).symm
  refine ⟨⟨s'', frames, history ++ [.popped pool]⟩, chain.take m, l, ?_,
    ⟨hr'', ?_, Control.of_nested hnested, ?_, ?_,
      eventOk_last (.popped pool) ⟨hl, h.recorded.pushed pool hmem, ?_⟩⟩, ?_⟩
  · simp [perform, hstep, hend]
  · exact h.recorded.quiet rfl rfl (fun _ => rfl) hsub
  · exact fun r hr => htake _ _ (hnested.lt r hr).le (h.tokens r (hsub r hr))
  · intro r page' stop' hf
    exact htake _ _ (hnested.lt r (mem_openPools hf)).le
      (h.loops r page' stop' (mem_cons_of_mem _ hf))
  · apply h.recorded.balanced hmem
    rw [hl, drop_length]
    rfl
  · simp [loops, Call.isIterate]

include h in
theorem iterate_safe :
    Safe cfg .iterate ⟨thread, .releasing pool page stop :: frames, history⟩ l := by
  obtain ⟨k, hk, hlo, hhi, hstop⟩ := (h.loops pool page stop (by simp)).slot
  rcases releaseStep_spec h.represents hk hlo hhi h.length_before_le with
    ⟨heq, s', hstep, hp', htls'⟩ | ⟨e, l', s', rfl, hn', hstep, hr'⟩
  · -- the loop ends: its pool's boundary was taken before
    rcases h.control with hc | ⟨hl, hc⟩
    · exact absurd heq (hc.lt pool (by simp [openPools])).ne
    · exact iterate_last hm ha h hl hc hk (hlo.trans heq.le) (heq ▸ hhi) (hstop ▸ hstep) hp' htls'
  · rw [← hstop] at hstep
    have hc : Nested (l' ++ [e]) (pool :: openPools frames) := by
      rcases h.control with hc | ⟨hl, -⟩
      · exact hc
      · rw [← hl, length_append, length_singleton] at hn'
        omega
    cases e with
    | boundary =>
      refine ⟨⟨s', .releasing pool page stop :: frames, history ++ [.crossed]⟩, chain, l', ?_,
        ⟨hr', ?_, ?_, h.tokens, h.loops, eventOk_last .crossed trivial⟩, ?_⟩
      · simp [perform, hstep]
      · exact h.recorded.quiet rfl rfl (fun _ => objects_drop_boundary.symm) fun r hr => hr
      · rcases prefix_concat_iff.mp hc.1 with heq | hpre
        · obtain ⟨hb, -⟩ := append_inj' heq rfl
          exact .inr ⟨hb.symm, hb ▸ hc.2⟩
        · exact .inl ⟨hpre, hc.2⟩
      · simp [Call.isIterate]
    | object x =>
      have hc' : Nested l' (pool :: openPools frames) := by
        rcases prefix_concat_iff.mp hc.1 with heq | hpre
        · simp at heq
        · exact ⟨hpre, hc.2⟩
      refine ⟨⟨s', .client [] :: .releasing pool page stop :: frames, history ++ [.released x]⟩,
        chain, l', ?_, ⟨hr', ?_, hc', h.tokens, ?_, eventOk_last (.released x) trivial⟩, ?_⟩
      · simp [perform, hstep]
      · exact h.recorded.release fun r hr => (hc'.lt r hr).le
      · intro r page' stop' hf
        exact h.loops r page' stop' (by simpa using hf)
      · simp [loops, Call.isIterate]

/-- **Every step.** In a state with the invariant no call meets a fault, and the invariant stays. -/
theorem perform_safe {call : Call} {c : Machine} {r : Except Fault Machine}
    (h : Inv cfg c chain l) (hfresh : call.Fresh c.thread) (hcall : perform cfg call c = some r) :
    Safe cfg call c l := by
  obtain ⟨thread, frames, history⟩ := c
  dsimp only [perform] at hcall
  split at hcall
  · exact push_safe hm ha h hfresh
  · exact autorelease_safe hm ha h hfresh
  · exact pop_safe h
  · exact endRelease_safe h
  · exact iterate_safe hm ha h
  · cases hcall

end

end Steps

/-! ## Runs -/

theorem start_inv (cfg : Settings) : Inv cfg {} [] [] := by
  refine ⟨⟨Pages.nil, rfl, rfl⟩, Recorded.nil, trivial, by simp [openPools], by simp, ?_⟩
  intro es e heq
  simp at heq

variable {cfg : Settings}

theorem step_inv (hm : cfg.debugMissingPools = false)
    (ha : cfg.debugPoolAllocation = false) (c : Machine) (call : Call) (c' : Machine)
    (h : ∃ chain l, Inv cfg c chain l) (hstep : Step cfg c call c') :
    ∃ chain l, Inv cfg c' chain l := by
  obtain ⟨chain, l, hinv⟩ := h
  obtain ⟨c₁, chain', l', hperform, hinv', -⟩ := perform_safe hm ha hinv hstep.1 hstep.2
  obtain rfl : c₁ = c' := Except.ok.inj (Option.some.inj (hperform.symm.trans hstep.2))
  exact ⟨chain', l', hinv'⟩

/-- The entries on the stack and the loops that are running. -/
def pending (c : Machine) : ℕ := (logicalStack c.thread).length + loops c.frames

theorem step_pending (hm : cfg.debugMissingPools = false)
    (ha : cfg.debugPoolAllocation = false) (c : Machine) (call : Call) (c' : Machine)
    (h : (∃ chain l, Inv cfg c chain l) ∧ Step cfg c call c') :
    pending c' + (if call.isIterate then 1 else 0) ≤
      pending c + if !call.isIterate then 1 else 0 := by
  obtain ⟨⟨chain, l, hinv⟩, hstep⟩ := h
  obtain ⟨c₁, chain', l', hperform, hinv', hle⟩ := perform_safe hm ha hinv hstep.1 hstep.2
  obtain rfl : c₁ = c' := Except.ok.inj (Option.some.inj (hperform.symm.trans hstep.2))
  rw [pending, pending, logicalStack_eq hinv.represents, logicalStack_eq hinv'.represents]
  exact hle

/-- **Autorelease pools are a stack.** After any run of a thread's calls, with any client code in
    the releases:

    * the next call, whichever it is, meets no fault, so `badPop` is not reached;
    * the calls of `autorelease` are numbered in order, and each release took the most recently
      autoreleased object that had not been released;
    * a `push` adds a boundary to the stack;
    * a `pop` that has returned restored the stack of its push, and the objects released since
      that push are those autoreleased since, each once;
    * there were at most as many passes through the loops of `pop` as other calls, so a `pop`
      returns if the releases in it do. -/
theorem autoreleasePool_run (cfg : Settings) (hm : cfg.debugMissingPools = false)
    (ha : cfg.debugPoolAllocation = false) {calls : List Call} {c : Machine}
    (hrun : Run (Step cfg) {} calls c) :
    (∀ call r, call.Fresh c.thread → perform cfg call c = some r → ∃ c', r = .ok c') ∧
    (inserted c.history).map Insertion.serial = List.range (inserted c.history).length ∧
    Lifo c.history ∧ (∀ es pool, c.history = es ++ [.pushed pool] →
      pool.since = es.length ∧ logicalStack c.thread = pool.before ++ [.boundary]) ∧
    (∀ es pool, c.history = es ++ [.popped pool] →
      logicalStack c.thread = pool.before ∧ es[pool.since]? = some (.pushed pool) ∧
      (released (es.drop pool.since)).Perm (inserted (es.drop pool.since)) ∧
      (inserted (es.drop pool.since)).Nodup) ∧
    calls.countP Call.isIterate ≤ calls.countP fun call => !call.isIterate := by
  have hstart : ∃ chain l, Inv cfg {} chain l := ⟨[], [], start_inv cfg⟩
  obtain ⟨chain, l, hinv⟩ := hrun.invariant (step_inv hm ha) hstart
  have hstack : logicalStack c.thread = l := logicalStack_eq hinv.represents
  refine ⟨?_, hinv.recorded.serials, hinv.recorded.lifo, ?_, ?_, ?_⟩
  · intro call r hfresh hcall
    obtain ⟨c', -, -, hperform, -⟩ := perform_safe hm ha hinv hfresh hcall
    exact ⟨c', Option.some.inj (hcall.symm.trans hperform)⟩
  · intro es pool heq
    rw [hstack]
    exact hinv.last es _ heq
  · intro es pool heq
    obtain ⟨hl, hpushed, hperm⟩ := hinv.last es _ heq
    refine ⟨hstack.trans hl, hpushed, hperm, ?_⟩
    have hnodup := hinv.recorded.nodup
    rw [heq, inserted_append] at hnodup
    have hsub : (inserted (es.drop pool.since)).Sublist (inserted es) :=
      (drop_sublist _ _).filterMap _
    exact hsub.nodup (nodup_append.mp hnodup).1
  · have hbound := (hrun.strengthen (step_inv hm ha) hstart).countP_le (step_pending hm ha)
    have hzero : pending {} = 0 := rfl
    omega

instance (call : Call) (s : Thread Insertion) : Decidable (call.Fresh s) :=
  match call with
  | .push fresh => inferInstanceAs (Decidable (s.pages fresh = none))
  | .autorelease fresh _ => inferInstanceAs (Decidable (s.pages fresh = none))
  | .pop => isTrue trivial
  | .endRelease => isTrue trivial
  | .iterate => isTrue trivial

/-- `Step` as a function. -/
def next (cfg : Settings) (c : Machine) (call : Call) : Option Machine :=
  if call.Fresh c.thread then
    match perform cfg call c with
    | some (.ok c') => some c'
    | _ => none
  else none

theorem step_of_next (c : Machine) (call : Call) (c' : Machine)
    (h : next cfg c call = some c') : Step cfg c call c' := by
  unfold next at h
  split_ifs at h with hfresh
  refine ⟨hfresh, ?_⟩
  split at h
  next c₁ hperform => rw [hperform, Option.some.inj h]
  next => cases h

/-- Pages of two entries. -/
def twoSlots : Settings := { capacity := 2, two_le := le_rfl }

/-- Objects 1 and 2 in the placeholder pool, 3 in a pool inside it; the release of 3
autoreleases 4. Both pools are popped. -/
def twoPools : List Call :=
  [.push 0, .autorelease 0 1, .autorelease 1 2, .push 2, .autorelease 2 3,
    .pop, .iterate, .autorelease 3 4, .endRelease, .iterate, .endRelease, .iterate, .iterate,
    .pop, .iterate, .endRelease, .iterate, .endRelease, .iterate, .iterate]

theorem autoreleasePool_run_twoPools : ∃ c, Run (Step twoSlots) {} twoPools c ∧
    (released c.history).map Insertion.obj = [3, 4, 2, 1] ∧ Lifo c.history ∧
    ∃ pool, c.history.getLast? = some (.popped pool) ∧ pool.token = .placeholder ∧
      logicalStack c.thread = pool.before := by
  have hfinal : ((twoPools.foldlM (next twoSlots) {}).any fun c =>
      (released c.history).map Insertion.obj == [3, 4, 2, 1] &&
        c.history.getLast? == some (.popped ⟨.placeholder, [], 0⟩)) = true := by decide +kernel
  obtain ⟨c, hc, hfacts⟩ := (Option.any_eq_true ..).mp hfinal
  rw [Bool.and_eq_true, beq_iff_eq, beq_iff_eq] at hfacts
  obtain ⟨hreleased, hlast⟩ := hfacts
  have hrun : Run (Step twoSlots) {} twoPools c := .of_foldlM step_of_next hc
  obtain ⟨-, -, hlifo, -, hpopped, -⟩ := autoreleasePool_run twoSlots rfl rfl hrun
  obtain ⟨es, hes⟩ := getLast?_eq_some_iff.mp hlast
  exact ⟨c, hrun, hreleased, hlifo, _, hlast, rfl, (hpopped es _ hes).1⟩

/-! ## The inner loop of `releaseUntil` -/

/-- If the page is empty, it has a parent, which is not. -/
def ParentHolds (s : Thread Insertion) (hot : PageId) : Prop :=
  ∀ pg, s.pages hot = some pg → pg.empty = true →
    ∃ q qg, pg.parent = some q ∧ s.pages q = some qg ∧ qg.empty = false

/-- **The `while` in `releaseUntil` can be an `if`.** After any run of a thread's calls, with any
client code in the releases, the proper ancestors of the hot page are full and its descendants are
empty. When a loop of `releaseUntil` that has not reached its end finds the hot page empty, that has
a parent that is not, so the inner loop makes one step at most. -/
theorem releaseUntil_climbs_once (cfg : Settings) (hm : cfg.debugMissingPools = false)
    (ha : cfg.debugPoolAllocation = false) {calls : List Call} {c : Machine}
    (hrun : Run (Step cfg) {} calls c) {hot : PageId} (hhot : hotPage c.thread = some hot) :
    FilledUpTo cfg c.thread hot ∧ ∀ pool page stop frames pg,
      c.frames = .releasing pool page stop :: frames → c.thread.pages page = some pg →
      pg.entries.length ≠ stop → ParentHolds c.thread hot ∧
        climb c.thread.count hot c.thread = climbOnce hot c.thread := by
  obtain ⟨chain, l, hinv⟩ := hrun.invariant (step_inv hm ha) ⟨[], [], start_inv cfg⟩
  have hp := hinv.represents.pages
  obtain ⟨htls, h, hend⟩ := hinv.represents.endsAt hhot
  refine ⟨hp.filledUpTo hend, ?_⟩
  obtain ⟨thread, frames, history⟩ := c
  rintro pool page stop frames pg rfl hpg hstop
  have hfuel : h < thread.count := by
    rw [hp.count]
    exact (List.getElem?_eq_some_iff.mp hend.page).1
  obtain ⟨q, s', h', hclimb, honce, -, -, hq, hlo, -⟩ :=
    climb_spec hp htls hend (hinv.ne_nil hpg hstop) hfuel
  refine ⟨?_, hclimb.trans honce.symm⟩
  intro pg' hpg' hempty
  obtain ⟨qg, hqg, -, hentries, -⟩ := hp.page hq
  refine ⟨q, qg, ?_, hqg, ?_⟩
  · have hpage : thread.page hot = .ok pg' := by rw [Thread.page, hpg']
    rw [climbOnce] at honce
    cases hparent : pg'.parent with
    | some parent => simp_all
    | none => simp_all
  · rw [Page.empty, hentries, isEmpty_eq_false_iff, ← length_pos_iff, length_chunk]
    have := cfg.capacity_pos
    omega

/-- Object 2 is alone on the second page. Once it is released the loop finds that page empty. -/
theorem releaseUntil_climbs_once_page : ∃ calls c, Run (Step twoSlots) {} calls c ∧
    hotPage c.thread = some 1 ∧ (c.thread.pages 1).map Page.empty = some true ∧
    climb c.thread.count 1 c.thread = climbOnce 1 c.thread := by
  have hrun : Run (Step twoSlots) {} [.push 0, .autorelease 0 1, .autorelease 1 2, .pop, .iterate,
    .endRelease] _ := .of_foldlM step_of_next rfl
  have honce := releaseUntil_climbs_once twoSlots rfl rfl hrun rfl
  exact ⟨_, _, hrun, rfl, rfl, (honce.2 _ _ _ _ _ rfl rfl (by decide)).2⟩

end Apple.Objc.AutoreleasePool
