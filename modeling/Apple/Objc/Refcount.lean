import Apple.Objc.SideTable
import Apple.Lib.Run

/-!
# Retain and release under interleaving: the model

`objc4-750/runtime/objc-object.h`: `rootRetain` and `rootTryRetain` (lines 486–576),
`rootRelease` (lines 616–755), `changeIsa` (lines 265–343). The state of one object is
its `isa` word, its side-table entry and the owner of its side-table lock. Any number
of threads run these functions on it.

Each thread has a program counter with the values of its local variables. One step is
one access to the shared state: a `LoadExclusive`, a `StoreExclusive`, a side-table
operation under the lock, or taking or dropping the lock. A `StoreExclusive` succeeds
only if the `isa` still has the value that was loaded, and may always fail
spuriously; this covers compare-and-swap and load-linked/store-conditional alike.
`sidetable_retain` and `sidetable_release`, which take the lock, update the entry and
drop the lock, are one step that needs the lock to be free.

A step that decides the outcome of a call has it as its event, and so does a borrow from
the side table; all other steps are silent.
-/

namespace Apple.Objc.Refcount

open Apple.Lib

/-- What `changeIsa` reads of `newCls`: the pointer, the value for the class field of a
packed `isa`, `hasCxxDtor()`, and `!isFuture() && canAllocNonpointer()`. -/
structure NewClass (A : Arch) where
  ptr : ClassPtr
  field : Fin (2 ^ A.clsBits)
  hasCxxDtor : Bool
  canNonpointer : Bool
deriving DecidableEq, Repr

/-- The state that the threads share. -/
structure Shared (A : Arch) (ι : Type*) where
  isa : Isa A
  side : Side A
  lock : Option ι

/-- The calls a thread can make. `sidetableRetain` and `sidetableRelease` are the direct
calls, which assert that the `isa` is raw. -/
inductive Op (A : Arch) where
  | rootRetain
  | rootTryRetain
  | rootRelease
  | changeIsa (newCls : NewClass A)
  | sidetableRetain
  | sidetableRelease

/-- Where a thread is in `rootRetain`. `locked` is `sideTableLocked`, `ho` is
`handleOverflow`. -/
inductive RetainPc (A : Arch) where
  /-- `objc_loadWeakRetained` is about to take the lock for `rootTryRetain`. -/
  | tryLock
  /-- `oldisa = LoadExclusive(&isa.bits)`. -/
  | load (tryRetain ho locked : Bool)
  /-- `sidetable_lock()` after an overflow. -/
  | lock (old : IsaBits A)
  /-- `StoreExclusive(&isa.bits, oldisa.bits, newisa.bits)`. -/
  | store (tryRetain ho locked : Bool) (old new : IsaBits A) (transcribe : Bool)
  /-- `sidetable_addExtraRC_nolock(RC_HALF)`. -/
  | add (tryRetain : Bool)
  /-- `sidetable_unlock()` before the return. -/
  | unlock
  /-- `sidetable_unlock()` before `sidetable_retain()`. -/
  | rawUnlock
  /-- `sidetable_retain()`. -/
  | side
  /-- `sidetable_tryRetain()`. -/
  | trySide
  /-- `objc_loadWeakRetained` is about to drop the lock. -/
  | tryUnlock
deriving DecidableEq

/-- Where a thread is in `rootRelease`. `hu` is `handleUnderflow`. -/
inductive ReleasePc (A : Arch) where
  | load (hu locked : Bool)
  | store (hu locked : Bool) (old new : IsaBits A)
  /-- `sidetable_lock()` after an underflow. -/
  | lock
  /-- `sidetable_subExtraRC_nolock(RC_HALF)`. -/
  | borrow (old : IsaBits A)
  /-- The first try to store the borrowed counts (line 694). -/
  | put (old : IsaBits A) (borrowed : ℕ)
  /-- `oldisa2 = LoadExclusive(&isa.bits)` (line 701). -/
  | reload (borrowed : ℕ)
  /-- The second try (line 708). -/
  | put2 (old new : IsaBits A) (borrowed : ℕ)
  /-- `sidetable_addExtraRC_nolock(borrowed)` (line 717). -/
  | undo (borrowed : ℕ)
  /-- The store of the deallocating bit (line 745). -/
  | dealloc (hu locked : Bool) (old : IsaBits A)
  | unlock
  | rawUnlock
  /-- `sidetable_release()`. -/
  | side
deriving DecidableEq

/-- Where a thread is in `changeIsa`; `transcribe` has the `isa` whose count has to be moved
to the side table. -/
inductive ChangePc (A : Arch) where
  | load (newCls : NewClass A) (locked : Bool)
  | lock (newCls : NewClass A) (old : IsaBits A)
  | store (newCls : NewClass A) (locked : Bool) (old new : Isa A) (transcribe : Option (IsaBits A))
  /-- `sidetable_moveExtraRC_nolock(..)`. -/
  | move (old : IsaBits A)
  | unlock
deriving DecidableEq

/-- Where a thread is. -/
inductive Pc (A : Arch) where
  | idle
  | retain (p : RetainPc A)
  | release (p : ReleasePc A)
  | change (p : ChangePc A)
deriving DecidableEq

/-- The outcome that a step decides. -/
inductive Event where
  | silent
  | retained
  | tryRetained
  | tryFailed
  /-- `sidetable_subExtraRC_nolock` has taken counts from the side table. -/
  | borrowed
  /-- `rootRelease` or `sidetable_release` returns `doDealloc`. -/
  | released (doDealloc : Bool)
  /-- `rootRelease` ends in `overrelease_error`, which returns false. -/
  | overreleased
deriving DecidableEq, Repr

/-- What is not determined by the state: the call an idle thread makes, and whether a
`StoreExclusive` fails although the `isa` is unchanged. -/
inductive Choice (A : Arch) where
  | call (op : Op A)
  | go
  | failStore

section Steps

variable {A : Arch} {ι : Type*}

/-- The result of a step: its event, the new program counter and the new shared state. -/
abbrev Result (A : Arch) (ι : Type*) := Option (Event × Pc A × Shared A ι)

/-- A step that only moves the program counter. -/
def goto (sh : Shared A ι) (p : Pc A) : Result A ι := some (.silent, p, sh)

/-- `sidetable_lock()`: only when the lock is free. -/
def sidetableLock (t : ι) (sh : Shared A ι) (p : Pc A) : Result A ι :=
  if sh.lock = none then some (.silent, p, { sh with lock := some t }) else none

/-- `sidetable_unlock()`. -/
def sidetableUnlock (sh : Shared A ι) (p : Pc A) : Result A ι :=
  some (.silent, p, { sh with lock := none })

/-- `StoreExclusive(&isa.bits, old.bits, new.bits)`: on success the event `e` and `done`,
otherwise `fail`. -/
def storeExclusive (sh : Shared A ι) (c : Choice A) (old new : Isa A) (e : Event)
    (done fail : Pc A) : Result A ι :=
  match c with
  | .failStore => goto sh fail
  | _ => if sh.isa = old then some (e, done, { sh with isa := new }) else goto sh fail

/-- Overflow in `rootRetain` (lines 551–560): `extra_rc = RC_HALF`,
`has_sidetable_rc = true`. -/
def halved (old : IsaBits A) : IsaBits A := { old.setRc A.rcHalf with hasSidetableRc := true }

/-- `rootRetain(tryRetain, handleOverflow)` (lines 499–576). -/
def rootRetainStep (t : ι) (sh : Shared A ι) (c : Choice A) : RetainPc A → Result A ι
  | .tryLock => sidetableLock t sh (.retain (.load true false false))
  | .load tryRetain ho locked =>
    match sh.isa with
    | .nonpointer old =>
      if tryRetain && old.deallocating then some (.tryFailed, .retain .tryUnlock, sh)
      else
        match old.addRc 1 with
        | some new => goto sh (.retain (.store tryRetain ho locked old new false))
        | none =>
          -- `rootRetain_overflow` calls again with `handleOverflow`
          if !ho then goto sh (.retain (.load tryRetain true false))
          else if !tryRetain && !locked then goto sh (.retain (.lock old))
          else goto sh (.retain (.store tryRetain ho true old (halved old) true))
    | _ =>
      if tryRetain then goto sh (.retain .trySide)
      else if locked then goto sh (.retain .rawUnlock)
      else goto sh (.retain .side)
  | .lock old => sidetableLock t sh (.retain (.store false true true old (halved old) true))
  | .store tryRetain ho locked old new transcribe =>
    storeExclusive sh c (.nonpointer old) (.nonpointer new)
      (if tryRetain then .tryRetained else .retained)
      (if transcribe then .retain (.add tryRetain)
        else if tryRetain then .retain .tryUnlock
        else if locked then .retain .unlock else .idle)
      (.retain (.load tryRetain ho locked))
  | .add tryRetain =>
    some (.silent, .retain (if tryRetain then .tryUnlock else .unlock),
      { sh with side := (sidetableAddExtraRC A.rcHalf sh.side).1 })
  | .unlock => sidetableUnlock sh .idle
  | .rawUnlock => sidetableUnlock sh (.retain .side)
  | .side =>
    if sh.lock = none then
      some (.retained, .idle, { sh with side := Apple.Objc.sidetableRetain sh.side })
    else none
  | .trySide =>
    let (side, result) := sidetableTryRetain sh.side
    some (if result then .tryRetained else .tryFailed, .retain .tryUnlock, { sh with side := side })
  | .tryUnlock => sidetableUnlock sh .idle

/-- "Really deallocate" (lines 736–745), up to the store of the deallocating bit. -/
def reallyDeallocate (sh : Shared A ι) (hu locked : Bool) (old : IsaBits A) : Result A ι :=
  if old.deallocating then
    some (.overreleased, if locked then .release .unlock else .idle, sh)
  else goto sh (.release (.dealloc hu locked old))

/-- `rootRelease(performDealloc, handleUnderflow)` (lines 616–755). -/
def rootReleaseStep (t : ι) (sh : Shared A ι) (c : Choice A) : ReleasePc A → Result A ι
  | .load hu locked =>
    match sh.isa with
    | .nonpointer old =>
      match old.subRc with
      | some new => goto sh (.release (.store hu locked old new))
      | none =>
        if old.hasSidetableRc then
          -- `rootRelease_underflow` calls again with `handleUnderflow`
          if !hu then goto sh (.release (.load true false))
          else if !locked then goto sh (.release .lock)
          else goto sh (.release (.borrow old))
        else reallyDeallocate sh hu locked old
    | _ => if locked then goto sh (.release .rawUnlock) else goto sh (.release .side)
  | .store hu locked old new =>
    storeExclusive sh c (.nonpointer old) (.nonpointer new) (.released false)
      (if locked then .release .unlock else .idle) (.release (.load hu locked))
  | .lock => sidetableLock t sh (.release (.load true true))
  | .borrow old =>
    let (side, borrowed) := sidetableSubExtraRC A.rcHalf sh.side
    if borrowed > 0 then some (.borrowed, .release (.put old borrowed), { sh with side := side })
    else reallyDeallocate { sh with side := side } true true old
  | .put old borrowed =>
    storeExclusive sh c (.nonpointer old) (.nonpointer (old.setRc (borrowed - 1)))
      (.released false) (.release .unlock) (.release (.reload borrowed))
  | .reload borrowed =>
    match sh.isa with
    | .nonpointer old =>
      match old.addRc (borrowed - 1) with
      | some new => goto sh (.release (.put2 old new borrowed))
      | none => goto sh (.release (.undo borrowed))
    | _ => goto sh (.release (.undo borrowed))
  | .put2 old new borrowed =>
    storeExclusive sh c (.nonpointer old) (.nonpointer new) (.released false)
      (.release .unlock) (.release (.undo borrowed))
  | .undo borrowed =>
    goto { sh with side := (sidetableAddExtraRC borrowed sh.side).1 } (.release (.load true true))
  | .dealloc hu locked old =>
    storeExclusive sh c (.nonpointer old) (.nonpointer { old with deallocating := true })
      (.released true) (if locked then .release .unlock else .idle) (.release (.load hu locked))
  | .unlock => sidetableUnlock sh .idle
  | .rawUnlock => sidetableUnlock sh (.release .side)
  | .side =>
    if sh.lock = none then
      let (side, doDealloc) := Apple.Objc.sidetableRelease sh.side
      some (.released doDealloc, .idle, { sh with side := side })
    else none

/-- `newisa` for a packed `isa` (lines 292–301): the class field and `has_cxx_dtor`. -/
def setClass (old : IsaBits A) (newCls : NewClass A) : IsaBits A :=
  { old with hasCxxDtor := newCls.hasCxxDtor, cls := newCls.field }

/-- `ISA_MAGIC_VALUE` and the class. -/
def freshBits (newCls : NewClass A) : IsaBits A :=
  setClass ⟨false, false, newCls.field, false, false, false, ⟨0, Nat.two_pow_pos _⟩⟩ newCls

/-- `changeIsa(newCls)` (lines 265–343). -/
def changeIsaStep (t : ι) (sh : Shared A ι) (c : Choice A) : ChangePc A → Result A ι
  | .load newCls locked =>
    match sh.isa with
    | .zero =>
      goto sh (.change (.store newCls locked .zero
        (if newCls.canNonpointer then .nonpointer (freshBits newCls) else .raw newCls.ptr) none))
    | .nonpointer old =>
      if newCls.canNonpointer then
        goto sh (.change (.store newCls locked (.nonpointer old)
          (.nonpointer (setClass old newCls)) none))
      else if !locked then goto sh (.change (.lock newCls old))
      else goto sh (.change (.store newCls true (.nonpointer old) (.raw newCls.ptr) (some old)))
    | .raw cls =>
      goto sh (.change (.store newCls locked (.raw cls) (.raw newCls.ptr) none))
  | .lock newCls old =>
    sidetableLock t sh
      (.change (.store newCls true (.nonpointer old) (.raw newCls.ptr) (some old)))
  | .store newCls locked old new transcribe =>
    storeExclusive sh c old new .silent
      (match transcribe with
        | some f => .change (.move f)
        | none => if locked then .change .unlock else .idle)
      (.change (.load newCls locked))
  | .move old =>
    let side := sidetableMoveExtraRC old.extraRc old.deallocating old.weaklyReferenced sh.side
    some (.silent, .change .unlock, { sh with side := side })
  | .unlock => sidetableUnlock sh .idle

/-- The first program counter of a call. -/
def callStep (sh : Shared A ι) : Op A → Result A ι
  | .rootRetain => goto sh (.retain (.load false false false))
  | .rootTryRetain => goto sh (.retain .tryLock)
  | .rootRelease => goto sh (.release (.load false false))
  | .changeIsa newCls => goto sh (.change (.load newCls false))
  | .sidetableRetain =>
    match sh.isa with
    | .raw _ => goto sh (.retain .side)
    | _ => none
  | .sidetableRelease =>
    match sh.isa with
    | .raw _ => goto sh (.release .side)
    | _ => none

/-- One step of thread `t`. -/
def threadStep (t : ι) (pc : Pc A) (sh : Shared A ι) (c : Choice A) : Result A ι :=
  match pc, c with
  | .idle, .call op => callStep sh op
  | .idle, _ => none
  | _, .call _ => none
  | .retain p, c => rootRetainStep t sh c p
  | .release p, c => rootReleaseStep t sh c p
  | .change p, c => changeIsaStep t sh c p

/-- The steps of thread `t`, as a relation. -/
def ThreadStep (t : ι) (pc : Pc A) (sh : Shared A ι) (e : Event) (pc' : Pc A)
    (sh' : Shared A ι) : Prop :=
  ∃ c, threadStep t pc sh c = some (e, pc', sh')

/-- The state of the whole system. -/
abbrev State (A : Arch) (ι : Type*) := Threads ι (Pc A) (Shared A ι)

/-- A step of any thread. -/
abbrev Step [DecidableEq ι] : State A ι → ι × Event → State A ι → Prop := Interleave ThreadStep

end Steps

end Apple.Objc.Refcount
