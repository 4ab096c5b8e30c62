import Apple.Lib.Outcome
import Apple.Lib.LinkedPages

/-!
# Autorelease pool pages (`objc4-750/runtime/NSObject.mm`)

A thread's autorelease stack lives in a doubly linked list of pages. Thread-local
storage points to the hot page, the one that entries are added to, or holds
`EMPTY_POOL_PLACEHOLDER` while the only pool has never been used. `push` adds a pool
boundary and returns its slot as the pool's token, `pop` releases everything down to
that slot.

The objects are of any type: a page only tells them from the boundary. Addresses of
slots are pairs of a page and an index. `releaseUntil` is given by its loop body
(`releaseStep`), since the release of an object runs code that may use the pool again.
Every `assert`, bad access and `badPop` is a fault.

The header fields `magic`, `thread`, `depth` and `hiwat` are left out: the first two only
serve corruption checks, the others only debug output.
-/

namespace Apple.Objc.AutoreleasePool

open Apple.Lib Function

/-! ## State -/

/-- The address of a page. -/
abbrev PageId := ℕ

/-- A slot: `POOL_BOUNDARY` or an object. -/
inductive Entry (α : Type) where
  | boundary
  | object (obj : α)
  deriving DecidableEq, Repr

/-- `class AutoreleasePoolPage`, with the slots from `begin()` up to `next`. -/
structure Page (α : Type) where
  entries : List (Entry α) := []
  parent : Option PageId := none
  child : Option PageId := none
  deriving DecidableEq, Repr

/-- The value of the thread-local key. -/
inductive Tls where
  | null
  | placeholder
  | page (p : PageId)
  deriving DecidableEq, Repr

/-- A thread's pages. `count` is the number of allocated ones; it bounds the walks along links. -/
structure Thread (α : Type) where
  tls : Tls := .null
  pages : PageId → Option (Page α) := fun _ => none
  count : ℕ := 0

/-- What `push` returns: `EMPTY_POOL_PLACEHOLDER` or the address of a slot. -/
inductive Token where
  | placeholder
  | slot (page : PageId) (index : ℕ)
  deriving DecidableEq, Repr

inductive Fault where
  /-- `badPop` was called -/
  | badPop
  /-- an `assert` failed -/
  | assertion
  /-- a null or freed page was used -/
  | badAccess
  deriving DecidableEq, Repr

/-- Build and debug settings: the number of slots of a page, `(SIZE - sizeof(*this)) / sizeof(id)`,
505 for pages of 4096 bytes, and the two debug options. -/
structure Settings where
  capacity : ℕ
  debugMissingPools : Bool := false
  debugPoolAllocation : Bool := false
  two_le : 2 ≤ capacity

variable {α : Type}

namespace Thread

/-- The page at an address (`fastcheck` passes). -/
def page (s : Thread α) (p : PageId) : Except Fault (Page α) :=
  match s.pages p with
  | some pg => .ok pg
  | none => .error .badAccess

def setPage (s : Thread α) (p : PageId) (pg : Page α) : Thread α :=
  { s with pages := update s.pages p (some pg) }

/-- `operator new` -/
def alloc (s : Thread α) (p : PageId) (pg : Page α) : Thread α :=
  { s with pages := update s.pages p (some pg), count := s.count + 1 }

/-- `operator delete` -/
def free (s : Thread α) (p : PageId) : Thread α :=
  { s with pages := update s.pages p none, count := s.count - 1 }

variable {s : Thread α} {p q : PageId} {pg : Page α}

@[simp]
theorem pages_setPage_self : (s.setPage p pg).pages p = some pg := update_self ..

@[simp]
theorem pages_setPage_of_ne (hne : q ≠ p) : (s.setPage p pg).pages q = s.pages q :=
  update_of_ne hne ..

@[simp]
theorem pages_alloc_self : (s.alloc p pg).pages p = some pg := update_self ..

@[simp]
theorem pages_alloc_of_ne (hne : q ≠ p) : (s.alloc p pg).pages q = s.pages q :=
  update_of_ne hne ..

@[simp]
theorem pages_free_self : (s.free p).pages p = none := update_self ..

@[simp]
theorem pages_free_of_ne (hne : q ≠ p) : (s.free p).pages q = s.pages q :=
  update_of_ne hne ..

end Thread

/-- `assert` -/
def check (b : Bool) : Except Fault Unit := if b then .ok () else .error .assertion

namespace Page

/-- `empty` (lines 778–780) -/
def empty (pg : Page α) : Bool := pg.entries.isEmpty

/-- `full` (lines 782–784) -/
def full (cfg : Settings) (pg : Page α) : Bool := pg.entries.length == cfg.capacity

/-- `lessThanHalfFull` (lines 786–788) -/
def lessThanHalfFull (cfg : Settings) (pg : Page α) : Bool :=
  decide (pg.entries.length < cfg.capacity / 2)

end Page

/-! ## Thread-local storage -/

/-- `hotPage` (lines 918–931) -/
def hotPage (s : Thread α) : Option PageId :=
  match s.tls with
  | .page p => some p
  | _ => none

/-- `setHotPage` (lines 933–937) -/
def setHotPage (page : Option PageId) (s : Thread α) : Thread α :=
  { s with tls := match page with | some p => .page p | none => .null }

/-- `haveEmptyPoolPlaceholder` (lines 904–908) -/
def haveEmptyPoolPlaceholder (s : Thread α) : Bool := s.tls == .placeholder

/-- `setEmptyPoolPlaceholder` (lines 910–915) -/
def setEmptyPoolPlaceholder (s : Thread α) : Except Fault (Token × Thread α) := do
  check (s.tls == .null)
  .ok (.placeholder, { s with tls := .placeholder })

/-- `coldPage` (lines 939–949): the last page on the way along `parent`. -/
def coldPage (s : Thread α) : Except Fault (Option PageId) :=
  match hotPage s with
  | none => .ok none
  | some p =>
    match endOf Page.parent s.pages s.count p with
    | some q => .ok (some q)
    | none => .error .badAccess

/-! ## Adding entries -/

/-- The constructor (lines 703–717), for a page that the allocator puts at `fresh`. -/
def newPage (fresh : PageId) (parent : Option PageId) (s : Thread α) :
    Except Fault (Thread α) := do
  let s ← match parent with
    | none => .ok s
    | some p => do
      let pg ← s.page p
      check (pg.child == none)
      .ok (s.setPage p { pg with child := some fresh })
  .ok (s.alloc fresh { parent := parent })

/-- `add` (lines 791–799) -/
def add (cfg : Settings) (p : PageId) (obj : Entry α) (s : Thread α) :
    Except Fault (Token × Thread α) := do
  let pg ← s.page p
  check (!pg.full cfg)
  .ok (.slot p pg.entries.length, s.setPage p { pg with entries := pg.entries ++ [obj] })

/-- The loop of `autoreleaseFullPage` (lines 982–988): step to the child, or to a new page. -/
def nextPage (cfg : Settings) (fresh : PageId) :
    ℕ → PageId → Thread α → Except Fault (PageId × Thread α)
  | 0, _, _ => .error .badAccess
  | fuel + 1, page, s => do
    let pg ← s.page page
    let (q, s) ← match pg.child with
      | some child => .ok (child, s)
      | none => do
        let s ← newPage fresh (some page) s
        .ok (fresh, s)
    let qg ← s.page q
    if qg.full cfg then nextPage cfg fresh fuel q s else .ok (q, s)

/-- `autoreleaseFullPage` (lines 973–992) -/
def autoreleaseFullPage (cfg : Settings) (fresh : PageId) (obj : Entry α) (page : PageId)
    (s : Thread α) : Except Fault (Token × Thread α) := do
  check (hotPage s == some page)
  let pg ← s.page page
  check (pg.full cfg || cfg.debugPoolAllocation)
  let (page, s) ← nextPage cfg fresh (s.count + 1) page s
  add cfg page obj (setHotPage (some page) s)

section

variable [DecidableEq α] (cfg : Settings) (fresh : PageId)

/-- `autoreleaseNoPage` (lines 996–1042); `none` is the null result of the missing-pool case. -/
def autoreleaseNoPage (obj : Entry α) (s : Thread α) : Except Fault (Option Token × Thread α) := do
  check (hotPage s == none)
  let pushExtraBoundary := haveEmptyPoolPlaceholder s
  if !pushExtraBoundary && (obj != .boundary && cfg.debugMissingPools) then
    -- just leaking
    .ok (none, s)
  else if !pushExtraBoundary && (obj == .boundary && !cfg.debugPoolAllocation) then do
    let (token, s) ← setEmptyPoolPlaceholder s
    .ok (some token, s)
  else do
    -- install the first page
    let s ← newPage fresh none s
    let s := setHotPage (some fresh) s
    let s ← if pushExtraBoundary then do
        let (_, s) ← add cfg fresh .boundary s
        .ok s
      else .ok s
    let (token, s) ← add cfg fresh obj s
    .ok (some token, s)

/-- `autoreleaseFast` (lines 952–969) -/
def autoreleaseFast (obj : Entry α) (s : Thread α) : Except Fault (Option Token × Thread α) :=
  match hotPage s with
  | some page => do
    let pg ← s.page page
    let (token, s) ← if !pg.full cfg then add cfg page obj s
      else autoreleaseFullPage cfg fresh obj page s
    .ok (some token, s)
  | none => autoreleaseNoPage cfg fresh obj s

/-- `autoreleaseNewPage` (lines 1046–1051) -/
def autoreleaseNewPage (obj : Entry α) (s : Thread α) : Except Fault (Option Token × Thread α) :=
  match hotPage s with
  | some page => do
    let (token, s) ← autoreleaseFullPage cfg fresh obj page s
    .ok (some token, s)
  | none => autoreleaseNoPage cfg fresh obj s

/-- `autorelease` (lines 1054–1061) -/
def autorelease (obj : α) (s : Thread α) : Except Fault (Thread α) := do
  let (_, s) ← autoreleaseFast cfg fresh (.object obj) s
  .ok s

/-- `push` (lines 1064–1077) -/
def push (s : Thread α) : Except Fault (Token × Thread α) := do
  let (dest, s) ← if cfg.debugPoolAllocation then autoreleaseNewPage cfg fresh .boundary s
    else autoreleaseFast cfg fresh .boundary s
  match dest with
  | some token => .ok (token, s)
  | none => .error .assertion

end

/-! ## Popping -/

/-- The inner loop of `releaseUntil` (lines 817–820): go up to a page that is not empty. -/
def climb : ℕ → PageId → Thread α → Except Fault (PageId × Thread α)
  | 0, _, _ => .error .badAccess
  | fuel + 1, page, s => do
    let pg ← s.page page
    if pg.empty then
      match pg.parent with
      | some parent => climb fuel parent (setHotPage (some parent) s)
      | none => .error .badAccess
    else .ok (page, s)

/-- One pass through the loop of `releaseUntil` (lines 806–832) on the page `this`: the entry
taken from the stack, or `none` when the loop has ended. -/
def releaseStep (this : PageId) (stop : ℕ) (s : Thread α) :
    Except Fault (Option (Entry α) × Thread α) := do
  let pg ← s.page this
  if pg.entries.length = stop then .ok (none, setHotPage (some this) s)
  else
    match hotPage s with
    | none => .error .badAccess
    | some hot => do
      let (page, s) ← climb s.count hot s
      let pg ← s.page page
      .ok (pg.entries.getLast?, s.setPage page { pg with entries := pg.entries.dropLast })

/-- The second loop of `kill` (lines 849–859): delete pages from the last one up to `this`. -/
def killLoop (this : PageId) : ℕ → PageId → Thread α → Except Fault (Thread α)
  | 0, _, _ => .error .badAccess
  | fuel + 1, deathptr, s => do
    let pg ← s.page deathptr
    let s ← match pg.parent with
      | none => .ok s
      | some parent => do
        let qg ← s.page parent
        .ok (s.setPage parent { qg with child := none })
    -- the destructor's assertions
    check pg.empty
    check (pg.child == none)
    let s := s.free deathptr
    if deathptr = this then .ok s
    else
      match pg.parent with
      | none => .error .badAccess
      | some parent => killLoop this fuel parent s

/-- `kill` (lines 842–860) -/
def kill (this : PageId) (s : Thread α) : Except Fault (Thread α) :=
  match endOf Page.child s.pages s.count this with
  | none => .error .badAccess
  | some page => killLoop this s.count page s

/-- What `pop` does before `releaseUntil`. -/
inductive PopStart (α : Type) where
  /-- the placeholder pool was never used: `pop` is done -/
  | done (s : Thread α)
  /-- `page->releaseUntil(stop)` is called -/
  | releasing (page : PageId) (stop : ℕ)

/-- `pop` of a slot up to `releaseUntil` (lines 1123–1136). A slot at or above `next` has been
scribbled over, it holds no boundary. -/
def popSlot (page : PageId) (stop : ℕ) (s : Thread α) : Except Fault (PopStart α) := do
  let pg ← s.page page
  match pg.entries[stop]? with
  | some .boundary => .ok (.releasing page stop)
  | _ =>
    if stop = 0 ∧ pg.parent = none then .ok (.releasing page stop) else .error .badPop

/-- `pop` up to `releaseUntil` (lines 1105–1140) -/
def popStart (token : Token) (s : Thread α) : Except Fault (PopStart α) :=
  match token with
  | .placeholder =>
    match hotPage s with
    | some _ => do
      let cold ← coldPage s
      match cold with
      | some page => popSlot page 0 s
      | none => .error .badAccess
    | none => .ok (.done (setHotPage none s))
  | .slot page stop => popSlot page stop s

/-- `pop` after `releaseUntil` (lines 1142–1161): delete empty children. -/
def popEnd (cfg : Settings) (page : PageId) (s : Thread α) : Except Fault (Thread α) := do
  let pg ← s.page page
  if cfg.debugPoolAllocation && pg.empty then do
    let s ← kill page s
    .ok (setHotPage pg.parent s)
  else if cfg.debugMissingPools && (pg.empty && pg.parent == none) then do
    let s ← kill page s
    .ok (setHotPage none s)
  else
    match pg.child with
    | none => .ok s
    | some child =>
      if pg.lessThanHalfFull cfg then kill child s
      else do
        let cg ← s.page child
        match cg.child with
        | none => .ok s
        | some grandchild => kill grandchild s

/-! ## The logical stack -/

/-- The entries of a page and of the pages above it along `parent`, oldest first. -/
def stackUpTo (pages : PageId → Option (Page α)) : ℕ → Option PageId → List (Entry α)
  | 0, _ => []
  | _ + 1, none => []
  | fuel + 1, some p =>
    match pages p with
    | none => []
    | some pg => stackUpTo pages fuel pg.parent ++ pg.entries

/-- The thread's stack of entries, oldest first. The placeholder stands for one pool. -/
def logicalStack (s : Thread α) : List (Entry α) :=
  match s.tls with
  | .null => []
  | .placeholder => [.boundary]
  | .page p => stackUpTo s.pages s.count (some p)

end Apple.Objc.AutoreleasePool
