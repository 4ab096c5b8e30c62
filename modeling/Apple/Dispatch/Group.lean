import Apple.Lib.Tally

/-!
# `dispatch_group_t` (`libdispatch-913.60.2/src/semaphore.c`, lines 159–386)

A group counts its enters in `dg_value`. The leave that brings it to zero runs
`_dispatch_group_wake`, which takes the list of notifications and the count of waiting
threads, signals the kernel semaphore as often as there were waiters and submits the
notifications. Notifications are pushed to a list with many producers
(`inline_internal.h`, lines 1508–1580): an exchange of the tail, then a link from the
node that was the tail, or a store of the head when there was none.

Any number of threads enter, leave, wait and notify. One step is one atomic operation, one
signal of the kernel semaphore, or one return of a kernel wait, which is a wakeup or, in
a timed wait and at any time, a timeout.

The continuation of a notification belongs to the group from its allocation until it is
submitted to its queue; after that the allocator may return it again.
-/

namespace Apple.Dispatch.Group

open Apple.Lib

/-- `LONG_MAX` -/
def longMax : ℤ := 2 ^ 63 - 1

/-- A group. `refs` are the references that it has taken on itself; `allocated` says which
continuations belong to it, `doNext` their `do_next`; `entered` counts the enters that have
returned and for which there was no leave yet. -/
structure Shared (ν : Type*) where
  value : ℤ
  waiters : ℕ
  sema : ℕ
  notifyHead : Option ν
  notifyTail : Option ν
  doNext : ν → Option ν
  allocated : ν → Bool
  refs : ℤ
  entered : ℕ
  crashed : Bool

/-- `_dispatch_group_create_with_count` (lines 159–175) -/
def groupCreateWithCount (ν : Type*) (count : ℕ) : Shared ν :=
  { value := count, waiters := 0, sema := 0, notifyHead := none, notifyTail := none,
    doNext := fun _ => none, allocated := fun _ => false,
    refs := if count ≠ 0 then 1 else 0, entered := count, crashed := false }

/-- The cases of `switch (timeout)`. -/
inductive Timeout where
  | now
  | forever
  | deadline
deriving DecidableEq

/-- What the caller of `_dispatch_group_wake` does next: it returns, it returns 0 from
`dispatch_group_wait`, or it goes on to consume a signal (line 314). -/
inductive After where
  | ret
  | waitReturn
  | drain
deriving DecidableEq

/-- A call of `_dispatch_group_wake`. -/
structure Wake where
  needsRelease : Bool
  after : After
deriving DecidableEq

/-- Where a thread is. -/
inductive Pc (ν : Type*) where
  | idle
  /-- `os_atomic_inc_orig2o` of `dispatch_group_enter`. -/
  | enter
  | enterRetain
  /-- `os_atomic_dec2o` of `dispatch_group_leave`. -/
  | leave
  /-- The exchanges of `dg_notify_head`, `dg_notify_tail` and `dg_waiters`. -/
  | wakeHead (wake : Wake)
  | wakeTail (wake : Wake) (head : ν)
  | wakeWaiters (wake : Wake) (head tail : Option ν)
  /-- `_dispatch_sema4_signal` has to signal `count` times more. -/
  | wakeSignal (wake : Wake) (head tail : Option ν) (count : ℕ)
  /-- `os_mpsc_pop_snapshot_head(head, tail, do_next)`. -/
  | wakeNext (wake : Wake) (head : ν) (tail : Option ν)
  /-- `_dispatch_continuation_async(dsn_queue, head)`. -/
  | wakeSubmit (wake : Wake) (head : ν) (next tail : Option ν)
  | wakeRelease (wake : Wake) (refs : ℕ)
  /-- The loads of `dg_value` in `dispatch_group_wait` and twice in `_dispatch_group_wait_slow`,
      and the increment of `dg_waiters` between the last two. -/
  | wait (timeout : Timeout)
  | waitSlow (timeout : Timeout)
  | waitIncrement (timeout : Timeout)
  | waitCheck (timeout : Timeout)
  /-- In `_dispatch_sema4_timedwait`. -/
  | timedWait
  /-- `orig_waiters = dg->dg_waiters` (line 329). -/
  | undoLoad
  /-- `while (orig_waiters)` with the compare-and-swap (lines 331–336). -/
  | undo (origWaiters : ℕ)
  /-- In `_dispatch_sema4_wait`. -/
  | drain
  /-- The exchange of the tail in `os_mpsc_push_update_tail`. -/
  | notifyPush (dsn : ν)
  /-- `os_atomic_store2o(_prev, _o_next, _head, relaxed)`. -/
  | notifyLink (prev dsn : ν)
  | notifyRetain (dsn : ν)
  | notifyHead (dsn : ν)
  | notifyCheck
deriving DecidableEq

/-- What a step does that is recorded. -/
inductive Event (ν : Type*) where
  | silent
  /-- A call of `dispatch_group_wait`. -/
  | waitBegan
  /-- Its return, with 0 or with the timeout. -/
  | waitReturned (zero : Bool)
  | pushed (dsn : ν)
  | submitted (dsn : ν)
  | crashed
deriving DecidableEq

/-- What is not determined by the state: the call an idle thread makes, that a timed wait ends by
its timeout, that a weak compare-and-swap fails although the value is the same. -/
inductive Choice (ν : Type*) where
  | enter
  | leave
  | wait (timeout : Timeout)
  | notify (dsn : ν)
  | go
  | timeout
  | failStore

/-- The result of a step. -/
abbrev Result (ν : Type*) := Option (Event ν × Pc ν × Shared ν)

section Steps

variable {ν : Type*}

/-- `DISPATCH_CLIENT_CRASH` -/
def crash (sh : Shared ν) : Result ν := some (.crashed, .idle, { sh with crashed := true })

/-- `dispatch_group_enter` (lines 194–205) -/
def enterStep (sh : Shared ν) : Pc ν → Result ν
  | .enter =>
    if sh.value < 0 ∨ sh.value ≥ longMax then crash sh
    else if sh.value = 0 then some (.silent, .enterRetain, { sh with value := sh.value + 1 })
    else some (.silent, .idle, { sh with value := sh.value + 1, entered := sh.entered + 1 })
  | .enterRetain =>
    some (.silent, .idle, { sh with refs := sh.refs + 1, entered := sh.entered + 1 })
  | _ => none

/-- `dispatch_group_leave` (lines 244–259) -/
def leaveStep (sh : Shared ν) : Result ν :=
  let value := sh.value - 1
  if value = 0 then some (.silent, .wakeHead ⟨true, .ret⟩, { sh with value := value })
  else if value < 0 then crash { sh with value := value }
  else some (.silent, .idle, { sh with value := value })

/-- `uint16_t refs = needs_release ? 1 : 0` -/
def Wake.refs (wake : Wake) : ℕ := if wake.needsRelease then 1 else 0

/-- `if (head)`, after the waiters are woken. -/
def Pc.afterSignal (wake : Wake) (head tail : Option ν) : Pc ν :=
  match head with
  | none => .wakeRelease wake wake.refs
  | some head => .wakeNext wake head tail

/-- `while ((head = next))` -/
def Pc.afterSubmit (wake : Wake) (next tail : Option ν) : Pc ν :=
  match next with
  | none => .wakeRelease wake (wake.refs + 1)
  | some next => .wakeNext wake next tail

/-- The return of `_dispatch_group_wake`. -/
def wakeReturn (wake : Wake) (sh : Shared ν) : Result ν :=
  match wake.after with
  | .ret => some (.silent, .idle, sh)
  | .waitReturn => some (.waitReturned true, .idle, sh)
  | .drain => some (.silent, .drain, sh)

/-- `_dispatch_group_wake` (lines 207–242) -/
def wakeStep [DecidableEq ν] (sh : Shared ν) : Pc ν → Result ν
  | .wakeHead wake =>
    match sh.notifyHead with
    | none => some (.silent, .wakeWaiters wake none none, sh)
    | some head => some (.silent, .wakeTail wake head, { sh with notifyHead := none })
  | .wakeTail wake head =>
    some (.silent, .wakeWaiters wake (some head) sh.notifyTail, { sh with notifyTail := none })
  | .wakeWaiters wake head tail =>
    if sh.waiters = 0 then some (.silent, .afterSignal wake head tail, sh)
    else some (.silent, .wakeSignal wake head tail sh.waiters, { sh with waiters := 0 })
  | .wakeSignal wake head tail count =>
    some (.silent,
      if count - 1 = 0 then .afterSignal wake head tail else .wakeSignal wake head tail (count - 1),
      { sh with sema := sh.sema + 1 })
  | .wakeNext wake head tail =>
    if tail = some head then some (.silent, .wakeSubmit wake head none tail, sh)
    else
      -- `_dispatch_wait_until`
      match sh.doNext head with
      | none => none
      | some next => some (.silent, .wakeSubmit wake head (some next) tail, sh)
  | .wakeSubmit wake head next tail =>
    some (.submitted head, .afterSubmit wake next tail,
      { sh with allocated := Function.update sh.allocated head false })
  | .wakeRelease wake refs => wakeReturn wake { sh with refs := sh.refs - refs }
  | _ => none

/-- A kernel wait takes a wakeup: `dispatch_group_wait` returns 0. -/
def takeWakeup (sh : Shared ν) : Result ν :=
  if sh.sema > 0 then some (.waitReturned true, .idle, { sh with sema := sh.sema - 1 }) else none

/-- `switch (timeout)` -/
def Timeout.pc : Timeout → Pc ν
  | .now => .undoLoad
  | .forever => .drain
  | .deadline => .timedWait

/-- `_dispatch_group_wait_slow` and `dispatch_group_wait` (lines 292–362) -/
def waitStep (sh : Shared ν) (c : Choice ν) : Pc ν → Result ν
  | .wait timeout =>
    if sh.value = 0 then some (.waitReturned true, .idle, sh)
    else if timeout = .now then some (.waitReturned false, .idle, sh)
    else some (.silent, .waitSlow timeout, sh)
  | .waitSlow timeout =>
    if sh.value = 0 then some (.silent, .wakeHead ⟨false, .waitReturn⟩, sh)
    else some (.silent, .waitIncrement timeout, sh)
  | .waitIncrement timeout =>
    some (.silent, .waitCheck timeout, { sh with waiters := sh.waiters + 1 })
  | .waitCheck timeout =>
    if sh.value = 0 then some (.silent, .wakeHead ⟨false, .drain⟩, sh)
    else some (.silent, timeout.pc, sh)
  | .timedWait =>
    match c with
    | .timeout => some (.silent, .undoLoad, sh)
    | _ => takeWakeup sh
  | .undoLoad => some (.silent, .undo sh.waiters, sh)
  | .undo origWaiters =>
    if origWaiters = 0 then some (.silent, .drain, sh)
    else
      match c with
      | .failStore => some (.silent, .undo sh.waiters, sh)
      | _ =>
        if sh.waiters = origWaiters then
          some (.waitReturned false, .idle, { sh with waiters := origWaiters - 1 })
        else some (.silent, .undo sh.waiters, sh)
  | .drain => takeWakeup sh
  | _ => none

/-- `_dispatch_group_notify` (lines 367–386) with `os_mpsc_push_update_tail` -/
def notifyStep [DecidableEq ν] (sh : Shared ν) : Pc ν → Result ν
  | .notifyPush dsn =>
    some (.pushed dsn,
      match sh.notifyTail with
      | none => .notifyRetain dsn
      | some prev => .notifyLink prev dsn,
      { sh with
        doNext := Function.update sh.doNext dsn none
        notifyTail := some dsn })
  | .notifyLink prev dsn =>
    some (.silent, .idle, { sh with doNext := Function.update sh.doNext prev (some dsn) })
  | .notifyRetain dsn => some (.silent, .notifyHead dsn, { sh with refs := sh.refs + 1 })
  | .notifyHead dsn => some (.silent, .notifyCheck, { sh with notifyHead := some dsn })
  | .notifyCheck =>
    if sh.value = 0 then some (.silent, .wakeHead ⟨false, .ret⟩, sh) else some (.silent, .idle, sh)
  | _ => none

/-- A call. A leave is for an enter that has returned; a notification has a continuation that
the group does not have. -/
def callStep [DecidableEq ν] (sh : Shared ν) : Choice ν → Result ν
  | .enter => some (.silent, .enter, sh)
  | .leave =>
    if sh.entered > 0 then some (.silent, .leave, { sh with entered := sh.entered - 1 }) else none
  | .wait timeout => some (.waitBegan, .wait timeout, sh)
  | .notify dsn =>
    if sh.allocated dsn then none
    else some (.silent, .notifyPush dsn,
      { sh with allocated := Function.update sh.allocated dsn true })
  | _ => none

/-- The functions of the group. -/
inductive Part where
  | idle
  | enter
  | leave
  | wake
  | wait
  | notify
deriving DecidableEq

/-- The function in which a thread is. -/
def Pc.part : Pc ν → Part
  | .idle => .idle
  | .enter | .enterRetain => .enter
  | .leave => .leave
  | .wakeHead _ | .wakeTail _ _ | .wakeWaiters _ _ _ | .wakeSignal _ _ _ _ | .wakeNext _ _ _
  | .wakeSubmit _ _ _ _ | .wakeRelease _ _ => .wake
  | .wait _ | .waitSlow _ | .waitIncrement _ | .waitCheck _ | .timedWait | .undoLoad | .undo _
  | .drain => .wait
  | .notifyPush _ | .notifyLink _ _ | .notifyRetain _ | .notifyHead _ | .notifyCheck => .notify

/-- One step of a thread. -/
def threadStep [DecidableEq ν] (pc : Pc ν) (sh : Shared ν) (c : Choice ν) : Result ν :=
  if sh.crashed then none
  else
    match pc.part with
    | .idle => callStep sh c
    | .enter => enterStep sh pc
    | .leave => leaveStep sh
    | .wake => wakeStep sh pc
    | .wait => waitStep sh c pc
    | .notify => notifyStep sh pc

/-- An entry of the history: what a step does, and `dg_value` after it. -/
structure Entry (ν : Type*) where
  event : Event ν
  value : ℤ
deriving DecidableEq

/-- A step with its entry in the history. -/
def recordedStep [DecidableEq ν] (pc : Pc ν) (sh : Shared ν) (c : Choice ν) :
    Option (Entry ν × Pc ν × Shared ν) :=
  (threadStep pc sh c).map fun (e, pc', sh') => (⟨e, sh'.value⟩, pc', sh')

/-- The steps of a thread, as a relation. -/
def ThreadStep {ι : Type*} [DecidableEq ν] (_ : ι) (pc : Pc ν) (sh : Shared ν) (e : Entry ν)
    (pc' : Pc ν) (sh' : Shared ν) : Prop :=
  ∃ c, recordedStep pc sh c = some (e, pc', sh')

end Steps

/-- The threads and the group. -/
abbrev State (ι ν : Type*) := Threads ι (Pc ν) (Shared ν)

/-- A step of any thread. -/
abbrev Step {ι ν : Type*} [DecidableEq ι] [DecidableEq ν] :
    State ι ν → ι × Entry ν → State ι ν → Prop := Interleave ThreadStep

/-- A new group. -/
def start (ι ν : Type*) (count : ℕ) : State ι ν := ⟨fun _ => .idle, groupCreateWithCount ν count⟩

variable {ν : Type*} {pc : Pc ν} {sh : Shared ν} {c : Choice ν}

theorem recordedStep_eq_some [DecidableEq ν] {pc' : Pc ν} {sh' : Shared ν}
    {e : Entry ν} (h : recordedStep pc sh c = some (e, pc', sh')) :
    threadStep pc sh c = some (e.event, pc', sh') ∧ e.value = sh'.value := by
  obtain ⟨⟨e', pc'', sh''⟩, hstep, heq⟩ := Option.map_eq_some_iff.mp h
  cases heq
  exact ⟨hstep, rfl⟩

/-- A step of a thread is one of the function it is in. -/
theorem threadStep_elim [DecidableEq ν]
    {r : Event ν × Pc ν × Shared ν} {P : Prop} (h : threadStep pc sh c = some r)
    (call : pc = .idle → callStep sh c = some r → P) (enter : enterStep sh pc = some r → P)
    (leave : pc = .leave → leaveStep sh = some r → P) (wake : wakeStep sh pc = some r → P)
    (wait : waitStep sh c pc = some r → P) (notify : notifyStep sh pc = some r → P) : P := by
  unfold threadStep at h
  split_ifs at h
  cases pc with
  | idle => exact call rfl h
  | enter | enterRetain => exact enter h
  | leave => exact leave rfl h
  | wakeHead | wakeTail | wakeWaiters | wakeSignal | wakeNext | wakeSubmit | wakeRelease =>
    exact wake h
  | wait | waitSlow | waitIncrement | waitCheck | timedWait | undoLoad | undo | drain =>
    exact wait h
  | notifyPush | notifyLink | notifyRetain | notifyHead | notifyCheck => exact notify h

end Apple.Dispatch.Group
