import Mathlib.Data.Nat.Bitwise
import Mathlib.Logic.Function.Basic
import Apple.Lib.Run

/-!
# The timer heap

Model of `_dispatch_timer_heap_*` (`libdispatch-913.60.2/src/source.c` lines 1518–1642 and
1761–1907). A timer heap is two min-heaps of timers in one index space: the heap by target
in the even indices, the one by deadline in the odd ones. The first index of each heap is
inline in the structure (`dth_min`); the others are cells of segments that `grow`
allocates and `shrink` frees. Only the last segment is held by the structure: the last cells
of that segment point to the older ones.

A segment is a list of cells at an address; a cell is `NULL`, a timer or the address of a
segment. `none` is a fault: a cell outside its segment, a segment that is not
allocated, or a cell that does not hold what the code takes from it. The fields of the timers
that the heap uses, `dt_heap_entry` and `heap_key`, are part of the state. The indices and
sizes are `uint32_t` in the code and natural numbers here; `capacity_lt` says how far
the two agree.
-/

namespace Apple.Dispatch.TimerHeap

open Function

abbrev Address := ℕ

/-- A `void *` in a segment. -/
inductive Cell (τ : Type)
  | null
  | timer (dt : τ)
  | segment (a : Address)
  deriving DecidableEq

/-- A `dispatch_timer_source_refs_t *`: a field of `dth_min` or a cell of a segment. -/
inductive Slot
  | min (id : ℕ)
  | cell (segment : Address) (offset : ℕ)
  deriving DecidableEq

/-- `struct dispatch_timer_heap_s` (`event_internal.h` lines 127–135), the memory of its
segments and the fields `dt_heap_entry` (`none` for `DTH_INVALID_ID`) and `heap_key` of the
timers. -/
structure State (τ : Type) where
  count : ℕ
  segments : ℕ
  min : ℕ → Option τ
  heap : Option Address
  memory : Address → Option (List (Cell τ))
  entry : τ → ℕ → Option ℕ
  key : τ → ℕ → ℕ

variable {τ : Type}

/-- A heap without timers. -/
def empty (key : τ → ℕ → ℕ) : State τ where
  count := 0
  segments := 0
  min _ := none
  heap := none
  memory _ := none
  entry _ _ := none
  key := key

/-! ## Indices -/

/-- `DTH_ID_COUNT`. -/
def idCount : ℕ := 2

/-- `DISPATCH_HEAP_INIT_SEGMENT_CAPACITY`. -/
def initSegmentCapacity : ℕ := 8

/-- `DTH_HEAP_ID` (line 1521). -/
def heapId (idx : ℕ) : ℕ := idx &&& (idCount - 1)

/-- `DTH_IDX_FOR_HEAP_ID` (lines 1522–1523); `idx - heapId idx` is `idx & ~DTH_HEAP_ID_MASK`. -/
def idxForHeapId (idx id : ℕ) : ℕ := (idx - heapId idx) ||| id

/-- `_dispatch_timer_heap_parent` (lines 1626–1633). -/
def parent (idx : ℕ) : ℕ := idxForHeapId ((idx - idCount) / 2) (heapId idx)

/-- `_dispatch_timer_heap_left_child` (lines 1635–1642). -/
def leftChild (idx : ℕ) : ℕ := 2 * idx + idCount - heapId idx

/-- `_dispatch_timer_heap_capacity` (lines 1525–1534). -/
def capacity (segments : ℕ) : ℕ :=
  if segments = 0 then 2
  else
    let segNo := segments - 1
    2 + (initSegmentCapacity <<< segNo) - segNo

/-- `seg_capacity` of `grow` and `shrink` (lines 1540–1546): the number of cells of a
segment. -/
def segCapacity (segNo : ℕ) : ℕ :=
  if 0 < segNo then initSegmentCapacity <<< (segNo - 1) else initSegmentCapacity

/-- `seg_no` of `get_slot` (lines 1602–1603): `clz a - clz b` is `log2 b - log2 a`. -/
def segNoOf (idx : ℕ) : ℕ :=
  Nat.log2 (idx ||| (initSegmentCapacity - 1)) - Nat.log2 (initSegmentCapacity - 1)

/-! ## Memory -/

namespace State

/-- The cell `a[i]`. -/
def cell (s : State τ) (a : Address) (i : ℕ) : Option (Cell τ) := (s.memory a).bind (·[i]?)

/-- `*slot` where a timer is expected. -/
def load (s : State τ) : Slot → Option τ
  | .min id => s.min id
  | .cell a i =>
    match s.cell a i with
    | some (.timer dt) => some dt
    | _ => none

end State

def Cell.ofTimer : Option τ → Cell τ
  | none => .null
  | some dt => .timer dt

def Cell.ofSegment : Option Address → Cell τ
  | none => .null
  | some a => .segment a

namespace State

/-- `*slot = dt`; `none` is `NULL`. -/
def store (s : State τ) (slot : Slot) (dt : Option τ) : Option (State τ) :=
  match slot with
  | .min id => some { s with min := update s.min id dt }
  | .cell a i =>
    match s.memory a with
    | none => none
    | some cells =>
      if i < cells.length then
        some { s with memory := update s.memory a (some (cells.set i (.ofTimer dt))) }
      else none

variable [DecidableEq τ]

/-- `dt->dt_heap_entry[id] = v`. -/
def setEntry (s : State τ) (dt : τ) (id : ℕ) (v : Option ℕ) : State τ :=
  { s with entry := update s.entry dt (update (s.entry dt) id v) }

/-- `target` and `deadline` of a timer are set. -/
def setKey (s : State τ) (dt : τ) (key : ℕ → ℕ) : State τ :=
  { s with key := update s.key dt key }

end State

/-- `memcpy(&dst[i], &src[j], n)`. -/
def copyCells (dst : List (Cell τ)) (i : ℕ) (src : List (Cell τ)) (j n : ℕ) :
    Option (List (Cell τ)) :=
  if i + n ≤ dst.length ∧ j + n ≤ src.length then
    some (dst.take i ++ (src.drop j).take n ++ dst.drop (i + n))
  else none

/-! ## Segments -/

/-- `_dispatch_timer_heap_grow` (lines 1536–1559); `heap` is the segment from `calloc`. -/
def grow (s : State τ) (heap : Address) : Option (State τ) := do
  let segNo := s.segments
  let cells := List.replicate (segCapacity segNo) Cell.null
  let cells ←
    if 1 < segNo then do
      let prevSegNo := segNo - 1
      let prevSegCapacity := segCapacity segNo >>> 1
      let prev ← s.heap.bind s.memory
      copyCells cells (segCapacity segNo - prevSegNo) prev (prevSegCapacity - prevSegNo) prevSegNo
    else some cells
  let cells :=
    if 0 < segNo then cells.set (segCapacity segNo - segNo) (Cell.ofSegment s.heap) else cells
  some { s with
    segments := segNo + 1
    memory := update s.memory heap (some cells)
    heap := some heap }

/-- `_dispatch_timer_heap_shrink` (lines 1561–1582). -/
def shrink (s : State τ) : Option (State τ) := do
  let segNo := s.segments - 1
  let heap ← s.heap
  let cells ← s.memory heap
  let heapPrev ←
    if 0 < segNo then
      match cells[segCapacity segNo - segNo]? with
      | some (.segment a) => some (some a)
      | _ => none
    else some none
  let memory ←
    if 1 < segNo then do
      let prevSegNo := segNo - 1
      let prevSegCapacity := segCapacity segNo >>> 1
      let a ← heapPrev
      let prev ← s.memory a
      let prev ←
        copyCells prev (prevSegCapacity - prevSegNo) cells (segCapacity segNo - prevSegNo) prevSegNo
      some (update s.memory a (some prev))
    else some s.memory
  some { s with
    segments := segNo
    heap := heapPrev
    memory := update memory heap none }

/-- `_dispatch_timer_heap_get_slot` (lines 1584–1615). -/
def getSlot (s : State τ) (idx : ℕ) : Option Slot :=
  if idx < idCount then some (.min idx)
  else do
    let idx := idx - idCount
    let segNo := segNoOf idx
    let heap ← s.heap
    let segment ←
      if segNo + 1 = s.segments then some heap
      else
        match s.cell heap ((initSegmentCapacity <<< (s.segments - 2)) - segNo - 1) with
        | some (.segment a) => some a
        | _ => none
    some (.cell segment
      (if segNo ≠ 0 then idx - (initSegmentCapacity <<< (segNo - 1)) else idx))

/-! ## The heaps -/

section Heaps

variable [DecidableEq τ] (s : State τ)

/-- `_dispatch_timer_heap_set` (lines 1617–1624). -/
def set (slot : Slot) (dt : τ) (idx : ℕ) : Option (State τ) :=
  (s.store slot (some dt)).map (·.setEntry dt (heapId idx) (some idx))

/-- The first loop of `_dispatch_timer_heap_resift` (lines 1784–1795), with the slot, the index
and `sifted_up`. -/
def siftUp (dt : τ) (id : ℕ) : ℕ → State τ → Slot → ℕ → Bool → Option (State τ × Slot × ℕ × Bool)
  | 0, _, _, _, _ => none
  | fuel + 1, s, slot, idx, siftedUp =>
    if idCount ≤ idx then do
      let pidx := parent idx
      let pslot ← getSlot s pidx
      let pdt ← s.load pslot
      if s.key pdt id ≤ s.key dt id then some (s, slot, idx, siftedUp)
      else
        let s ← set s slot pdt idx
        siftUp dt id fuel s pslot pidx true
    else some (s, slot, idx, siftedUp)

/-- The choice between the left and the right child (lines 1803–1814): index, slot, timer. -/
def smallerChild (id cidx : ℕ) : Option (ℕ × Slot × τ) := do
  let ridx := cidx + idCount
  let cslot ← getSlot s cidx
  let cdt ← s.load cslot
  if ridx < s.count then do
    let rslot ← getSlot s ridx
    let rdt ← s.load rslot
    if s.key rdt id < s.key cdt id then some (ridx, rslot, rdt) else some (cidx, cslot, cdt)
  else some (cidx, cslot, cdt)

/-- The second loop of `_dispatch_timer_heap_resift` (lines 1802–1821). -/
def siftDown (dt : τ) (id : ℕ) : ℕ → State τ → Slot → ℕ → Option (State τ × Slot × ℕ)
  | 0, _, _, _ => none
  | fuel + 1, s, slot, idx =>
    if leftChild idx < s.count then do
      let (cidx, cslot, cdt) ← smallerChild s id (leftChild idx)
      if s.key dt id ≤ s.key cdt id then some (s, slot, idx)
      else
        let s ← set s slot cdt idx
        siftDown dt id fuel s cslot cidx
    else some (s, slot, idx)

/-- `_dispatch_timer_heap_resift` (lines 1761–1826). The loops run at most `idx + 1` and
`dth_count + 1` times. -/
def resift (dt : τ) (idx : ℕ) : Option (State τ) := do
  let id := heapId idx
  let slot ← getSlot s idx
  let (s, slot, idx, siftedUp) ← siftUp dt id (idx + 1) s slot idx false
  if siftedUp then set s slot dt idx
  else
    let (s, slot, idx) ← siftDown dt id (s.count + 1) s slot idx
    set s slot dt idx

/-- `_dispatch_timer_heap_insert` (lines 1828–1853); `heap` is what `calloc` returns if the heap
grows. -/
def insert (dt : τ) (heap : Address) : Option (State τ) := do
  let idx := s.count
  let s := { s with count := s.count + idCount }
  if idx = 0 then
    let s := (s.setEntry dt 0 (some 0)).setEntry dt 1 (some 1)
    some { s with min := update (update s.min 1 (some dt)) 0 (some dt) }
  else
    let s ← if capacity s.segments < idx + idCount then grow s heap else some s
    let s ← resift s dt (idx + 0)
    resift s dt (idx + 1)

/-- One turn of the loop of `_dispatch_timer_heap_remove` (lines 1876–1884). -/
def removeFrom (dt : τ) (idx id : ℕ) : Option (State τ) := do
  let slot ← getSlot s (idx + id)
  let lastDt ← s.load slot
  let s ← s.store slot none
  if lastDt ≠ dt then
    let removedIdx ← s.entry dt id
    resift s lastDt removedIdx
  else some s

/-- `clear_heap_entry` (lines 1889–1891). -/
def clearHeapEntry (dt : τ) : State τ := (s.setEntry dt 0 none).setEntry dt 1 none

/-- `_dispatch_timer_heap_remove` (lines 1855–1892). -/
def remove (dt : τ) : Option (State τ) := do
  let s := { s with count := s.count - idCount }
  let idx := s.count
  if idx = 0 then
    let s := { s with min := update (update s.min 1 none) 0 none }
    some (clearHeapEntry s dt)
  else
    let s ← removeFrom s dt idx 0
    let s ← removeFrom s dt idx 1
    let s ← if idx ≤ capacity (s.segments - 1) then shrink s else some s
    some (clearHeapEntry s dt)

/-- `_dispatch_timer_heap_update` (lines 1894–1906). -/
def update (dt : τ) : Option (State τ) := do
  let s ← resift s dt (← s.entry dt 0)
  resift s dt (← s.entry dt 1)

/-! ## Runs -/

/-- A call of one of the three entry points. The caller sets `target` and `deadline` of the
timer before it inserts or updates it. -/
inductive Call (τ : Type)
  | insert (dt : τ) (key : ℕ → ℕ) (heap : Address)
  | update (dt : τ) (key : ℕ → ℕ)
  | remove (dt : τ)

/-- The `DISPATCH_TIMER_ASSERT`s of the entry points; `calloc` returns memory that is not in
use. -/
def Allowed : Call τ → Prop
  | .insert dt _ heap => s.entry dt 0 = none ∧ s.entry dt 1 = none ∧ s.memory heap = none
  | .update dt _ => s.entry dt 0 ≠ none ∧ s.entry dt 1 ≠ none
  | .remove dt => s.entry dt 0 ≠ none ∧ s.entry dt 1 ≠ none

def perform : Call τ → Option (State τ)
  | .insert dt key heap => insert (s.setKey dt key) dt heap
  | .update dt key => update (s.setKey dt key) dt
  | .remove dt => remove s dt

def Step (call : Call τ) (t : State τ) : Prop :=
  Allowed s call ∧ perform s call = some t

/-- The timer is inserted: its last `insert` or `remove` is an `insert`. -/
def Inserted (dt : τ) (calls : List (Call τ)) : Prop :=
  Lib.since (fun call => match call with | .remove dt' => dt' = dt | _ => false)
    (fun call => match call with | .insert dt' _ _ => dt' = dt | _ => false) calls = true

end Heaps

end Apple.Dispatch.TimerHeap
