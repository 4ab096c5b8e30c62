import Apple.Dispatch.QueueSuspend
import Apple.Lib.BitField
import Apple.Lib.Tally

/-!
# The width of a queue

A concurrent queue is a reader/writer lock. The 13 bits of `dq_state` from bit 41 hold the number
of work items in flight as an offset with respect to full use, bit 54 says that a barrier runs
(`libdispatch-913.60.2/src/queue_internal.h`, lines 187–214). They are changed by additions and
subtractions of the whole word, next to the suspend count above them and the drain lock below.

Threads enter with `_dispatch_queue_try_reserve_sync_width`, `_dispatch_queue_try_acquire_async` or
`_dispatch_queue_try_acquire_barrier_sync` (`inline_internal.h`, lines 1258–1394) and leave with
`_dispatch_queue_non_barrier_complete` (`queue.c`, lines 3671–3721) or
`_dispatch_queue_drain_try_unlock` (`inline_internal.h`, lines 1458–1491). Suspends and resumes
are those of `QueueSuspend`. One step is one read-modify-write of `dq_state`.

`Lock` is what the word stands for; `Encodes` relates the two, and each function has a lemma that
says what it does to the lock.

Result: `width_run`.
-/

namespace Apple.Dispatch.Width

open Lib Suspend Nat

/-! ## The source -/

def widthFull : ℕ := 0x1000
def widthMax : ℕ := widthFull - 2
def widthMask : ℕ := 0x003ffe0000000000
def widthShift : ℕ := 41

/-- `DISPATCH_QUEUE_STATE_INIT_VALUE(width)` -/
def stateInitValue (width : ℕ) : ℕ := (widthFull - width) <<< widthShift

/-- `_dq_state_is_in_barrier` -/
def isInBarrier (dqState : ℕ) : Bool := dqState &&& inBarrier ≠ 0

/-- `_dq_state_is_dirty` -/
def isDirty (dqState : ℕ) : Bool := dqState &&& dirty ≠ 0

/-- `_dq_state_is_sync_runnable` -/
def isSyncRunnable (dqState : ℕ) : Bool := dqState < inBarrier

/-- The width field. -/
def widthBits (dqState : ℕ) : ℕ := (dqState &&& widthMask) >>> widthShift

/-- `a + b` for `uint64_t` -/
def add64 (a b : ℕ) : ℕ := (a + b) % 2 ^ 64

/-- `a - b` for `uint64_t` -/
def sub64 (a b : ℕ) : ℕ := (a + (2 ^ 64 - b)) % 2 ^ 64

section Source

variable {ι : Type*} (q : Queue ι) (t : ι)

/-- `_dispatch_queue_try_acquire_barrier_sync_and_suspend`; `none` is a failure. -/
def tryAcquireBarrierSyncAndSuspend (suspendCount oldState : ℕ) : Option ℕ :=
  let init := stateInitValue q.width
  let value := widthFullBit ||| inBarrier ||| q.lockValue t ||| suspendCount * suspendInterval
  let role := oldState &&& roleMask
  if oldState ≠ init ||| role then none else some (value ||| role)

/-- `_dispatch_queue_try_acquire_barrier_sync` -/
def tryAcquireBarrierSync (oldState : ℕ) : Option ℕ :=
  tryAcquireBarrierSyncAndSuspend q t 0 oldState

/-- `_dispatch_queue_try_reserve_sync_width`; `itemsTail` says whether `dq_items_tail` is set. -/
def tryReserveSyncWidth (itemsTail : Bool) (oldState : ℕ) : Option ℕ :=
  if itemsTail then none
  else if !isSyncRunnable oldState || isDirty oldState || hasPendingBarrier oldState then none
  else some (add64 oldState widthInterval)

/-- `_dispatch_queue_try_acquire_async` -/
def tryAcquireAsync (oldState : ℕ) : Option ℕ :=
  if !isRunnable oldState || isDirty oldState || hasPendingBarrier oldState then none
  else some (add64 oldState widthInterval)

/-- The variable `full_width` of `_dispatch_queue_non_barrier_complete`. -/
def fullWidth (oldState newState : ℕ) : ℕ :=
  if hasPendingBarrier oldState then
    add64 (add64 (sub64 newState pendingBarrier) widthInterval) inBarrier
  else add64 (add64 newState (q.width * widthInterval)) inBarrier

/-- `_dispatch_queue_non_barrier_complete` -/
def nonBarrierComplete (oldState : ℕ) : ℕ :=
  let newState := sub64 oldState widthInterval
  if drainLocked oldState then newState ||| dirty
  else if isRunnable newState then
    if fullWidth q oldState newState &&& widthMask = widthFullBit then
      (fullWidth q oldState newState &&& complement dirty) ||| q.lockValue t
    else if isDirty oldState then newState ||| enqueued
    else newState
  else newState

/-- `_dispatch_queue_drain_try_unlock`; `none` when it gives up because of `DIRTY`. -/
def drainTryUnlock (owned : ℕ) (done : Bool) (oldState : ℕ) : Option ℕ :=
  let newState := sub64 oldState owned &&& complement drainUnlockMask
  if isSuspended oldState then some newState
  else if isDirty oldState then none
  else if done then some (newState &&& complement maxQosMask)
  else some (newState ||| dirty)

/-- What a barrier gives back: `DISPATCH_QUEUE_IN_BARRIER` and the width. -/
def owned : ℕ := inBarrier + q.width * widthInterval

end Source

/-! ## Threads -/

/-- How the full width was taken. -/
inductive Taken
  /-- by `_dispatch_queue_try_acquire_barrier_sync` -/
  | sync
  /-- inside `_dispatch_queue_non_barrier_complete` -/
  | complete
  /-- inside `_dispatch_queue_resume` -/
  | resume
  deriving DecidableEq

/-- What a thread does on the queue. -/
inductive Pc
  | idle
  | reader
  | async
  | barrier (taken : Taken)
  /-- `_dispatch_queue_drain_try_unlock` has seen `DIRTY` and will flip it. -/
  | renew (taken : Taken)
  /-- in a suspend or resume -/
  | suspending (pc : Suspend.Pc)
  deriving DecidableEq

/-- The next call of a thread. -/
inductive Choice
  | reserveSyncWidth (itemsTail : Bool)
  | acquireAsync
  | acquireBarrierSync
  | setDirty
  | suspend
  | resume
  | complete
  | unlock (done : Bool)
  | go

section Steps

variable {ι : Type*} (q : Queue ι)

/-- A store to `dq_state`, and where the thread goes. -/
def store (sh : Shared ι) (value : ℕ) (pc : Pc) : Option (Event × Pc × Shared ι) :=
  some (.silent, pc, { sh with dqState := value })

/-- A read-modify-write that may fail. -/
def attempt (sh : Shared ι) (r : Option ℕ) (pc pc' : Pc) : Option (Event × Pc × Shared ι) :=
  match r with
  | some value => store sh value pc
  | none => some (.silent, pc', sh)

/-- The thread has taken the full width when `IN_BARRIER` has changed. -/
def afterwards (oldState newState : ℕ) (taken : Taken) : Pc :=
  if (oldState ^^^ newState) &&& inBarrier = 0 then .idle else .barrier taken

/-- Where a thread is after a step of a suspend or a resume. -/
def suspendPc (oldState newState : ℕ) : Suspend.Pc → Pc
  | .idle => afterwards oldState newState .resume
  | pc => .suspending pc

/-- A step of a suspend or a resume. -/
def suspendingStep (t : ι) (pc : Suspend.Pc) (sh : Shared ι) (c : Suspend.Choice) :
    Option (Event × Pc × Shared ι) :=
  match Suspend.threadStep q t pc sh c with
  | some (e, pc', sh') => some (e, suspendPc sh.dqState sh'.dqState pc', sh')
  | none => none

/-- One step of thread `t`. -/
def threadStep (t : ι) (pc : Pc) (sh : Shared ι) (c : Choice) : Option (Event × Pc × Shared ι) :=
  if sh.crashed then none
  else
    match pc, c with
    | .idle, .reserveSyncWidth itemsTail =>
      attempt sh (tryReserveSyncWidth itemsTail sh.dqState) .reader .idle
    | .idle, .acquireAsync => attempt sh (tryAcquireAsync sh.dqState) .async .idle
    | .idle, .acquireBarrierSync =>
      attempt sh (tryAcquireBarrierSync q t sh.dqState) (.barrier .sync) .idle
    | .idle, .setDirty => store sh (sh.dqState ||| dirty) .idle
    | .reader, .complete | .async, .complete =>
      let value := nonBarrierComplete q t sh.dqState
      store sh value (afterwards sh.dqState value .complete)
    | .barrier taken, .unlock done =>
      attempt sh (drainTryUnlock (owned q) done sh.dqState) .idle (.renew taken)
    | .renew taken, .go => store sh (sh.dqState ^^^ dirty) (.barrier taken)
    | .idle, .suspend => suspendingStep q t .idle sh .suspend
    | .idle, .resume => suspendingStep q t .idle sh .resume
    | .suspending pc, .go => suspendingStep q t pc sh .go
    | _, _ => none

/-- The steps of thread `t`, as a relation. -/
def ThreadStep (t : ι) (pc : Pc) (sh : Shared ι) (e : Event) (pc' : Pc) (sh' : Shared ι) : Prop :=
  ∃ c, threadStep q t pc sh c = some (e, pc', sh')

/-- The threads and the queue. -/
abbrev State (ι : Type*) := Threads ι Pc (Shared ι)

/-- 1 for a reader or an async holder. -/
def holds : Pc → ℕ
  | .reader | .async => 1
  | _ => 0

/-- 1 for a barrier holder. -/
def holdsBarrier : Pc → ℕ
  | .barrier _ | .renew _ => 1
  | _ => 0

/-- A step of any thread that leaves fewer than 2^12 holders. -/
def Step [DecidableEq ι] (g : State ι) (x : ι × Event) (g' : State ι) : Prop :=
  Interleave (ThreadStep q) g x g' ∧ total holds g'.pc < 2 ^ 12

/-- An active queue at rest: `dq_state` as `_dispatch_queue_init` sets it. -/
structure Initial (g : State ι) : Prop where
  pc : ∀ t, g.pc t = .idle
  dqState : ∃ role, g.shared.dqState = stateInitValue q.width ||| (role &&& roleMask)
  sideSuspendCnt : g.shared.sideSuspendCnt = 0
  sidelock : g.shared.sidelock = none
  moved : g.shared.moved = 0
  crashed : g.shared.crashed = false

end Steps

/-! ## The lock -/

/-- What the width and `IN_BARRIER` stand for. -/
inductive Lock
  | shared (holders : ℕ)
  | exclusive
  deriving DecidableEq

namespace Lock

def holders : Lock → ℕ
  | .shared n => n
  | .exclusive => 0

def barriers : Lock → ℕ
  | .shared _ => 0
  | .exclusive => 1

/-- The bits of `dq_state` from `PENDING_BARRIER` to `IN_BARRIER`. -/
def code (width : ℕ) : Lock → ℕ
  | .shared n => 2 * (0x1000 - width + n)
  | .exclusive => 0x6000

end Lock

/-- The word stands for the lock. -/
structure Encodes (width : ℕ) (l : Lock) (dqState : ℕ) : Prop where
  lt : dqState < 2 ^ 64
  code : dqState / 2 ^ 40 % 2 ^ 15 = l.code width
  holders_lt : l.holders < 2 ^ 12

/-- The widths of concurrent queues. -/
structure Concurrent (width : ℕ) : Prop where
  two_le : 2 ≤ width
  le_max : width ≤ widthMax

section Encodes

variable {width n s s' : ℕ} {l : Lock}

theorem Concurrent.le (hw : Concurrent width) : 2 ≤ width ∧ width ≤ 0xffe :=
  ⟨hw.two_le, hw.le_max⟩

/-- A change of the bits below `PENDING_BARRIER`. -/
theorem Encodes.of_div_eq (h : Encodes width l s) (hs : s' / 2 ^ 40 = s / 2 ^ 40) :
    Encodes width l s' := by
  obtain ⟨hlt, hcode, hholders⟩ := h
  refine ⟨?_, hs ▸ hcode, hholders⟩
  omega

theorem isInBarrier_iff (s : ℕ) : isInBarrier s = true ↔ s / 2 ^ 54 % 2 = 1 := by
  have h := and_two_pow_eq_zero s 54
  unfold isInBarrier
  rw [decide_eq_true_eq, show inBarrier = 2 ^ 54 from rfl]
  omega

theorem hasPendingBarrier_iff (s : ℕ) : hasPendingBarrier s = true ↔ s / 2 ^ 40 % 2 = 1 := by
  have h := and_two_pow_eq_zero s 40
  unfold hasPendingBarrier
  rw [decide_eq_true_eq, show pendingBarrier = 2 ^ 40 from rfl]
  omega

theorem and_widthMask (s : ℕ) : s &&& widthMask = s / 2 ^ 41 % 2 ^ 13 * 2 ^ 41 :=
  and_mask s 13 41

theorem widthBits_eq (s : ℕ) : widthBits s = s / 2 ^ 41 % 2 ^ 13 := by
  unfold widthBits
  rw [and_widthMask, widthShift, shiftRight_eq_div_pow, Nat.mul_div_cancel _ (by norm_num)]

theorem Encodes.isInBarrier (h : Encodes width l s) :
    isInBarrier s = true ↔ l = .exclusive := by
  rw [isInBarrier_iff]
  obtain ⟨-, hcode, hholders⟩ := h
  cases l with
  | shared n =>
    simp only [Lock.code, Lock.holders] at hcode hholders
    simp only [reduceCtorEq, iff_false]
    omega
  | exclusive =>
    simp only [Lock.code] at hcode
    simp only [iff_true]
    omega

theorem Encodes.widthBits (hw : Concurrent width) (h : Encodes width (.shared n) s) :
    widthBits s + width = 0x1000 + n := by
  rw [widthBits_eq]
  obtain ⟨-, hcode, hholders⟩ := h
  have hle := hw.le
  simp only [Lock.code, Lock.holders] at hcode hholders
  omega

section

variable (h : Encodes width l s)
include h

theorem Encodes.not_pending : hasPendingBarrier s = false := by
  rw [Bool.eq_false_iff, ne_eq, hasPendingBarrier_iff]
  obtain ⟨-, hcode, -⟩ := h
  cases l with
  | shared n | exclusive =>
    simp only [Lock.code] at hcode
    omega

/-- Whether a step takes the full width can be seen at `IN_BARRIER`. -/
theorem Encodes.afterwards {l' : Lock} {taken : Taken}
    (h' : Encodes width l' s') : afterwards s s' taken =
      if l = .exclusive ↔ l' = .exclusive then .idle else .barrier taken := by
  have hs := h.isInBarrier
  have hs' := h'.isInBarrier
  rw [isInBarrier_iff] at hs hs'
  unfold Width.afterwards
  rw [show inBarrier = 2 ^ 54 from rfl]
  refine if_congr ?_ rfl rfl
  rw [xor_and_two_pow_eq_zero, ← hs, ← hs']
  omega

/-! ### What the functions do to the lock -/

theorem add64_widthInterval
    (hrun : s < inBarrier) (hn : l.holders + 1 < 2 ^ 12) :
    ∃ n, l = .shared n ∧ Encodes width (.shared (n + 1)) (add64 s widthInterval) ∧
      add64 s widthInterval / 2 ^ 55 = s / 2 ^ 55 := by
  obtain ⟨hlt, hcode, hholders⟩ := h
  unfold inBarrier at hrun
  cases l with
  | shared n =>
    simp only [Lock.code] at hcode hn
    have hadd : add64 s widthInterval = s + 2 ^ 41 := by
      unfold add64 widthInterval
      omega
    refine ⟨n, rfl, ⟨by omega, ?_, hn⟩, by omega⟩
    simp only [Lock.code]
    omega
  | exclusive =>
    simp only [Lock.code] at hcode
    omega

/-- **A reader enters.** -/
theorem tryReserveSyncWidth_spec {itemsTail : Bool}
    (hn : l.holders + 1 < 2 ^ 12)
    (hs : tryReserveSyncWidth itemsTail s = some s') :
    ∃ n, l = .shared n ∧ Encodes width (.shared (n + 1)) s' ∧ s' / 2 ^ 55 = s / 2 ^ 55 := by
  unfold tryReserveSyncWidth at hs
  split_ifs at hs with htail hbusy
  obtain rfl := Option.some.inj hs
  simp only [Bool.or_eq_true, Bool.not_eq_true', not_or, Bool.not_eq_false] at hbusy
  exact add64_widthInterval h (of_decide_eq_true hbusy.1.1) hn

/-- **An async holder enters.** -/
theorem tryAcquireAsync_spec
    (hn : l.holders + 1 < 2 ^ 12) (hs : tryAcquireAsync s = some s') :
    ∃ n, l = .shared n ∧ Encodes width (.shared (n + 1)) s' ∧ s' / 2 ^ 55 = s / 2 ^ 55 := by
  unfold tryAcquireAsync at hs
  split_ifs at hs with hbusy
  obtain rfl := Option.some.inj hs
  simp only [Bool.or_eq_true, Bool.not_eq_true', not_or, Bool.not_eq_false] at hbusy
  have hrun : s < widthFullBit := of_decide_eq_true hbusy.1.1
  exact add64_widthInterval h (hrun.trans (by decide)) hn

end

variable {ι : Type*} {q : Queue ι} {t : ι}

/-- The word of a barrier. -/
theorem encodes_exclusive (hlt : s < 2 ^ 64) (hs : s / 2 ^ 40 % 2 ^ 15 = 0x6000) :
    Encodes width .exclusive s :=
  ⟨hlt, hs, by norm_num [Lock.holders]⟩

/-- **A barrier starts** on a queue that is completely idle. -/
theorem tryAcquireBarrierSync_spec (h : Encodes q.width l s)
    (hs : tryAcquireBarrierSync q t s = some s') :
    l = .shared 0 ∧ Encodes q.width .exclusive s' ∧ s' / 2 ^ 55 = s / 2 ^ 55 := by
  have hrole : s &&& roleMask < 2 ^ 40 := and_le_right.trans_lt (by decide)
  have hlock : q.lockValue t < 2 ^ 40 := (q.lockValue_lt t).trans (by norm_num)
  unfold tryAcquireBarrierSync tryAcquireBarrierSyncAndSuspend at hs
  simp only [ite_not, zero_mul, or_zero] at hs
  split_ifs at hs with hidle
  cases hs
  have hold : s / 2 ^ 40 = 2 * (0x1000 - q.width) := by
    rw [hidle, or_div_of_lt _ hrole, stateInitValue, widthFull, widthShift]
    omega
  have hnew : (widthFullBit ||| inBarrier ||| q.lockValue t ||| s &&& roleMask) / 2 ^ 40 =
      0x6000 := by
    rw [or_div_of_lt _ hrole, or_div_of_lt _ hlock]
    rfl
  refine ⟨?_, encodes_exclusive (by omega) (by omega), by omega⟩
  obtain ⟨-, hcode, hholders⟩ := h
  cases l with
  | shared n =>
    simp only [Lock.code] at hcode
    rw [show n = 0 by omega]
  | exclusive =>
    simp only [Lock.code] at hcode
    omega

section

variable (hw : Concurrent q.width)
include hw

theorem fullWidth_eq (h : Encodes q.width (.shared (n + 1)) s)
    (hrun : sub64 s widthInterval < widthFullBit) :
    fullWidth q s (sub64 s widthInterval) = sub64 s widthInterval + q.width * 2 ^ 41 + 2 ^ 54 := by
  have hle := hw.le
  unfold fullWidth
  rw [h.not_pending, if_neg (by decide)]
  unfold add64 inBarrier widthInterval widthFullBit at *
  omega

/-- **A holder leaves.** The last one takes the full width if it can. -/
theorem nonBarrierComplete_spec
    (h : Encodes q.width (.shared (n + 1)) s) : nonBarrierComplete q t s / 2 ^ 55 = s / 2 ^ 55 ∧
      (Encodes q.width (.shared n) (nonBarrierComplete q t s) ∨
        n = 0 ∧ Encodes q.width .exclusive (nonBarrierComplete q t s)) := by
  have hle := hw.le
  obtain ⟨hlt, hcode, hholders⟩ := id h
  simp only [Lock.code, Lock.holders] at hcode hholders
  have hsub : sub64 s widthInterval = s - 2 ^ 41 := by
    unfold sub64 widthInterval
    omega
  have hleave : Encodes q.width (.shared n) (sub64 s widthInterval) := by
    refine ⟨by omega, ?_, show n < 2 ^ 12 by omega⟩
    simp only [Lock.code]
    omega
  have hsame : sub64 s widthInterval / 2 ^ 55 = s / 2 ^ 55 := by
    omega
  -- a flag below the width does not matter
  have hflag : ∀ flag < 2 ^ 40, (sub64 s widthInterval ||| flag) / 2 ^ 55 = s / 2 ^ 55 ∧
      Encodes q.width (.shared n) (sub64 s widthInterval ||| flag) := by
    intro flag hflag
    have hdiv := or_div_of_lt (sub64 s widthInterval) hflag
    exact ⟨by omega, hleave.of_div_eq hdiv⟩
  unfold nonBarrierComplete
  simp only
  split_ifs with hlocked hrun hfull hdirty
  · exact ⟨(hflag _ (by decide)).1, .inl (hflag _ (by decide)).2⟩
  · have hlock : q.lockValue t < 2 ^ 40 := (q.lockValue_lt t).trans (by norm_num)
    have hsmall : sub64 s widthInterval < widthFullBit := of_decide_eq_true hrun
    have heq := fullWidth_eq hw h hsmall
    rw [heq] at hfull ⊢
    rw [and_widthMask] at hfull
    unfold widthFullBit at hfull hsmall
    have hdiv : ((sub64 s widthInterval + q.width * 2 ^ 41 + 2 ^ 54 &&& complement dirty) |||
        q.lockValue t) / 2 ^ 40 =
          (sub64 s widthInterval + q.width * 2 ^ 41 + 2 ^ 54) / 2 ^ 40 := by
      rw [or_div_of_lt _ hlock]
      exact and_complement_div (by omega) (by decide) (by norm_num)
    refine ⟨by omega, .inr ⟨by omega, encodes_exclusive (by omega) (by omega)⟩⟩
  · exact ⟨(hflag _ (by decide)).1, .inl (hflag _ (by decide)).2⟩
  · exact ⟨hsame, .inl hleave⟩
  · exact ⟨hsame, .inl hleave⟩

/-- **A barrier ends.** -/
theorem drainTryUnlock_spec {done : Bool}
    (h : Encodes q.width .exclusive s) (hs : drainTryUnlock (owned q) done s = some s') :
    Encodes q.width (.shared 0) s' ∧ s' / 2 ^ 55 = s / 2 ^ 55 := by
  have hle := hw.le
  obtain ⟨hlt, hcode, -⟩ := h
  simp only [Lock.code] at hcode
  have hsub : sub64 s (owned q) = s - (2 ^ 54 + q.width * 2 ^ 41) := by
    unfold sub64 owned inBarrier widthInterval
    omega
  have hunlock : (sub64 s (owned q) &&& complement drainUnlockMask) / 2 ^ 40 =
      sub64 s (owned q) / 2 ^ 40 :=
    and_complement_div (by omega) (by decide) (by norm_num)
  have hdiv : s' / 2 ^ 40 = sub64 s (owned q) / 2 ^ 40 := by
    unfold drainTryUnlock at hs
    split_ifs at hs <;> cases hs
    · exact hunlock
    · rw [← hunlock]
      exact and_complement_div (by omega) (by decide) (by norm_num)
    · rw [← hunlock]
      exact or_div_of_lt _ (by decide)
  refine ⟨⟨by omega, ?_, by norm_num [Lock.holders]⟩, by omega⟩
  simp only [Lock.code]
  omega

/-- **A resume** leaves the lock alone, or takes the full width of a queue without holders. -/
theorem resumeValue_lock (h : Encodes q.width l s)
    (hactive : s / 2 ^ 55 % 4 = 0) (hs : resumeValue q t s = .store s') :
    Encodes q.width l s' ∨ l = .shared 0 ∧ Encodes q.width .exclusive s' := by
  have hle := hw.le
  obtain ⟨h1, h2⟩ := ne_activation hactive
  unfold resumeValue at hs
  simp only [h1, h2, and_false, if_false] at hs
  by_cases hlt : s < suspendInterval
  · split_ifs at hs
  have hvalue : Encodes q.width l (s - suspendInterval) := by
    obtain ⟨hlt', hcode, hholders⟩ := h
    unfold suspendInterval at *
    exact ⟨by omega, by omega, hholders⟩
  generalize s - suspendInterval = value at hvalue hs
  split_ifs at hs with hrun hlocked hbarrier <;> cases hs
  · exact .inl (hvalue.of_div_eq (or_div_of_lt _ (by decide)))
  · exact .inl (hvalue.of_div_eq (or_div_of_lt _ (by decide)))
  · have hlock : q.lockValue t < 2 ^ 40 := (q.lockValue_lt t).trans (by norm_num)
    have hpreserved : (value &&& drainPreservedBitsMask) / 2 ^ 40 = 0 :=
      div_eq_of_lt (and_le_right.trans_lt (by decide))
    have hdiv : (value &&& drainPreservedBitsMask |||
        (q.lockValue t ||| widthFullBit ||| inBarrier)) / 2 ^ 40 = 0x6000 := by
      rw [or_div, hpreserved, or_div, or_div, div_eq_of_lt hlock]
      rfl
    refine .inr ⟨?_, encodes_exclusive (by omega) (by omega)⟩
    obtain ⟨-, hwidth⟩ := hbarrier
    rw [hvalue.not_pending] at hwidth
    have hfree := hwidth.resolve_left (by decide)
    have hsmall : value < widthFullBit := by
      simpa [isRunnable] using hrun
    obtain ⟨-, hcode, hholders⟩ := hvalue
    unfold widthFullBit widthInterval at *
    cases l with
    | shared n =>
      simp only [Lock.code] at hcode hholders
      rw [show n = 0 by omega]
    | exclusive =>
      simp only [Lock.code] at hcode
      omega
  · refine .inl (hvalue.of_div_eq ?_)
    have hlt' := hvalue.lt
    have hunlock : (value &&& complement drainUnlockMask) / 2 ^ 40 = value / 2 ^ 40 :=
      and_complement_div hlt' (by decide) (by norm_num)
    rw [← hunlock]
    exact and_complement_div (by omega) (by decide) (by norm_num)

end

end Encodes

/-! ## Steps -/

section Steps

variable {ι : Type*} {q : Queue ι} {t : ι} {l : Lock} {pc pc' : Pc} {sh sh' : Shared ι} {e : Event}

/-- The part of a thread that belongs to a suspend or a resume. -/
def suspendPart : Pc → Suspend.Pc
  | .suspending pc => pc
  | _ => .idle

/-- What a step does: the lock follows the threads, and the rest is a step of `QueueSuspend`. -/
structure Follows (q : Queue ι) (t : ι) (l : Lock) (pc : Pc) (sh : Shared ι) (e : Event) (pc' : Pc)
    (sh' : Shared ι) : Prop where
  lock : ∃ l', Encodes q.width l' sh'.dqState ∧ l'.holders + holds pc = l.holders + holds pc' ∧
    l'.barriers + holdsBarrier pc = l.barriers + holdsBarrier pc'
  suspend : Suspend.ThreadStep q t (suspendPart pc) sh e (suspendPart pc') sh'

/-- A store below the suspend count is a step of `QueueSuspend`. -/
theorem store_suspend {value : ℕ} (hcrash : sh.crashed = false)
    (hvalue : value / 2 ^ 55 = sh.dqState / 2 ^ 55) :
    Suspend.ThreadStep q t .idle sh .silent .idle { sh with dqState := value } := by
  refine ⟨.other value, ?_⟩
  have heq : sh.dqState / 2 ^ 55 * 2 ^ 55 + value % 2 ^ 55 = value := by omega
  simp only [Suspend.threadStep, hcrash, heq]
  rfl

/-- A step that changes nothing. -/
theorem stay_suspend (hcrash : sh.crashed = false) :
    Suspend.ThreadStep q t .idle sh .silent .idle sh :=
  store_suspend hcrash rfl

/-- A change of the suspend bits leaves the lock alone. -/
theorem encodes_of_mod {width s s' : ℕ} (h : Encodes width l s) (hlt : s' < 2 ^ 64)
    (hs : s' % 2 ^ 55 = s % 2 ^ 55) : Encodes width l s' := by
  obtain ⟨-, hcode, hholders⟩ := h
  exact ⟨hlt, by omega, hholders⟩

variable {p p' : Suspend.Pc}

/-- A thread in a suspend or a resume holds nothing. -/
theorem suspendPc_of_eq {s s' : ℕ} (h : afterwards s s' .resume = .idle) :
    holds (suspendPc s s' p) = 0 ∧ holdsBarrier (suspendPc s s' p) = 0 ∧
      suspendPart (suspendPc s s' p) = p := by
  cases p with
  | idle =>
    rw [suspendPc, h]
    exact ⟨rfl, rfl, rfl⟩
  | _ => exact ⟨rfl, rfl, rfl⟩

section Follows

variable (hw : Concurrent q.width) (henc : Encodes q.width l sh.dqState)

include hw henc

/-- **A holder leaves.** -/
theorem follows_complete (hcrash : sh.crashed = false) (hpart : suspendPart pc = .idle)
    (hpc : holds pc = 1) (hbarrier : holdsBarrier pc = 0) (hholders : 1 ≤ l.holders) :
    Follows q t l pc sh .silent
      (afterwards sh.dqState (nonBarrierComplete q t sh.dqState) .complete)
      { sh with dqState := nonBarrierComplete q t sh.dqState } := by
  cases l with
  | exclusive => exact absurd hholders (by decide)
  | shared n =>
    obtain ⟨n, rfl⟩ : ∃ k, n = k + 1 := ⟨n - 1, (Nat.sub_add_cancel hholders).symm⟩
    obtain ⟨hsame, hleave | ⟨rfl, hleave⟩⟩ := nonBarrierComplete_spec hw henc
    all_goals
      rw [henc.afterwards hleave]
      refine ⟨⟨_, hleave, ?_, ?_⟩, ?_⟩
      · rw [hpc]
        rfl
      · rw [hbarrier]
        rfl
      · rw [hpart]
        exact store_suspend hcrash hsame

/-- **A suspend or a resume goes on.** -/
theorem follows_suspending {c : Suspend.Choice} (hG : SharedOk sh)
    (hI : Local t p sh) (hpart : suspendPart pc = p) (hpc : holds pc = 0)
    (hbarrier : holdsBarrier pc = 0) (hc : ∀ low, c ≠ .other low)
    (h : suspendingStep q t p sh c = some (e, pc', sh')) : Follows q t l pc sh e pc' sh' := by
  unfold suspendingStep at h
  cases hstep : Suspend.threadStep q t p sh c with
  | none =>
    rw [hstep] at h
    cases h
  | some r =>
    obtain ⟨e', p', sh''⟩ := r
    rw [hstep] at h
    cases h
    obtain ⟨hok, hlow⟩ := threadStep_ok hG hI hstep
    -- the lock is left alone
    have hsame : Encodes q.width l sh'.dqState →
        Follows q t l pc sh e (suspendPc sh.dqState sh'.dqState p') sh' := by
      intro henc'
      have hafter : afterwards sh.dqState sh'.dqState .resume = .idle := by
        rw [henc.afterwards henc', if_pos Iff.rfl]
      obtain ⟨hholds, hholdsBarrier, hpart'⟩ := suspendPc_of_eq hafter
      refine ⟨⟨l, henc', by rw [hholds, hpc], by rw [hholdsBarrier, hbarrier]⟩, ?_⟩
      rw [hpart, hpart']
      exact ⟨c, hstep⟩
    rcases hlow.resolve_left fun ⟨low, heq⟩ => hc low heq with hmod | ⟨hvalue, rfl⟩
    · exact hsame (encodes_of_mod henc hok.shared.lt hmod)
    · rcases resumeValue_lock hw henc hG.active hvalue with henc' | ⟨rfl, hfull⟩
      · exact hsame henc'
      · have hafter : suspendPc sh.dqState sh'.dqState .idle = .barrier .resume := by
          rw [suspendPc, henc.afterwards hfull, if_neg (by simp)]
        rw [hafter]
        refine ⟨⟨_, hfull, by rw [hpc]; rfl, by rw [hbarrier]; rfl⟩, ?_⟩
        rw [hpart]
        exact ⟨c, hstep⟩

/-- **Step lemma.** -/
theorem threadStep_follows {c : Choice} (hG : SharedOk sh) (hI : Local t (suspendPart pc) sh)
    (hholds : holds pc ≤ l.holders) (hbarrier : holdsBarrier pc ≤ l.barriers)
    (hbound : l.holders + holds pc' < 2 ^ 12 + holds pc)
    (h : threadStep q t pc sh c = some (e, pc', sh')) : Follows q t l pc sh e pc' sh' := by
  unfold threadStep at h
  split_ifs at h with hcrash
  rw [Bool.not_eq_true] at hcrash
  -- a call that fails
  have hstay : Follows q t l .idle sh .silent .idle sh :=
    ⟨⟨l, henc, rfl, rfl⟩, stay_suspend hcrash⟩
  split at h
  next itemsTail =>
    cases hr : tryReserveSyncWidth itemsTail sh.dqState with
    | none =>
      rw [hr] at h
      cases h
      exact hstay
    | some value =>
      rw [hr] at h
      cases h
      obtain ⟨n, rfl, henc', hsame⟩ := tryReserveSyncWidth_spec henc hbound hr
      exact ⟨⟨_, henc', rfl, rfl⟩, store_suspend hcrash hsame⟩
  · cases hr : tryAcquireAsync sh.dqState with
    | none =>
      rw [hr] at h
      cases h
      exact hstay
    | some value =>
      rw [hr] at h
      cases h
      obtain ⟨n, rfl, henc', hsame⟩ := tryAcquireAsync_spec henc hbound hr
      exact ⟨⟨_, henc', rfl, rfl⟩, store_suspend hcrash hsame⟩
  · cases hr : tryAcquireBarrierSync q t sh.dqState with
    | none =>
      rw [hr] at h
      cases h
      exact hstay
    | some value =>
      rw [hr] at h
      cases h
      obtain ⟨rfl, henc', hsame⟩ := tryAcquireBarrierSync_spec henc hr
      exact ⟨⟨_, henc', rfl, rfl⟩, store_suspend hcrash hsame⟩
  · cases h
    have hdiv := or_div_of_lt sh.dqState (show dirty < 2 ^ 40 by decide)
    exact ⟨⟨l, henc.of_div_eq hdiv, rfl, rfl⟩, store_suspend hcrash (by omega)⟩
  · cases h
    exact follows_complete hw henc hcrash rfl rfl rfl hholds
  · cases h
    exact follows_complete hw henc hcrash rfl rfl rfl hholds
  next taken done =>
    cases l with
    | shared n => exact absurd hbarrier (not_succ_le_zero 0)
    | exclusive =>
    cases hr : drainTryUnlock (owned q) done sh.dqState with
    | none =>
      rw [hr] at h
      cases h
      exact ⟨⟨_, henc, rfl, rfl⟩, stay_suspend hcrash⟩
    | some value =>
      rw [hr] at h
      cases h
      obtain ⟨henc', hsame⟩ := drainTryUnlock_spec hw henc hr
      exact ⟨⟨_, henc', rfl, rfl⟩, store_suspend hcrash hsame⟩
  · cases h
    have hdiv := xor_div_of_lt sh.dqState (show dirty < 2 ^ 40 by decide)
    exact ⟨⟨l, henc.of_div_eq hdiv, rfl, rfl⟩, store_suspend hcrash (by omega)⟩
  · exact follows_suspending (c := .suspend) hw henc hG hI rfl rfl rfl nofun h
  · exact follows_suspending (c := .resume) hw henc hG hI rfl rfl rfl nofun h
  · exact follows_suspending (c := .go) hw henc hG hI rfl rfl rfl nofun h
  · cases h

end Follows

end Steps

/-! ## Runs -/

section Runs

variable {ι : Type*} {q : Queue ι} {es : List (ι × Event)} {g g' : State ι}

/-- **Invariant**: `dq_state` stands for the lock that the threads hold. -/
structure Inv (q : Queue ι) (g : State ι) : Prop where
  finite : FinitelyActive .idle g.pc
  shared : SharedOk g.shared
  thread : ∀ t, Local t (suspendPart (g.pc t)) g.shared
  lock : ∃ l, Encodes q.width l g.shared.dqState ∧ l.holders = total holds g.pc ∧
    l.barriers = total holdsBarrier g.pc

theorem stateInitValue_div (width role : ℕ) :
    (stateInitValue width ||| (role &&& roleMask)) / 2 ^ 40 = 2 * (0x1000 - width) := by
  rw [or_div_of_lt _ (and_le_right.trans_lt (by decide)), stateInitValue, widthFull, widthShift]
  omega

theorem inv_initial (h : Initial q g) : Inv q g := by
  obtain ⟨role, hrole⟩ := h.dqState
  have hdiv := stateInitValue_div q.width role
  have hpc : g.pc = fun _ => .idle := funext h.pc
  refine ⟨hpc ▸ finitelyActive_const _, ⟨by omega, by omega, ?_, by simp [h.moved], fun _ => ?_⟩,
    fun t => ?_, ⟨.shared 0, ⟨by omega, ?_, by norm_num [Lock.holders]⟩, ?_, ?_⟩⟩
  · unfold sideBit
    rw [h.moved, if_pos rfl]
    omega
  · rw [h.moved, h.sideSuspendCnt]
  · rw [h.pc t]
    simp [suspendPart, Local, h.sidelock]
  · simp only [Lock.code]
    omega
  · rw [total_eq_zero fun t => by rw [h.pc t]; rfl]
    rfl
  · rw [total_eq_zero fun t => by rw [h.pc t]; rfl]
    rfl

variable [DecidableEq ι]

theorem inv_step (hw : Concurrent q.width) (h : Inv q g) {x : ι × Event} (hstep : Step q g x g') :
    Inv q g' := by
  obtain ⟨hstep, hbound⟩ := hstep
  cases hstep with
  | @mk t e pc' sh' hst =>
  obtain ⟨c, hc⟩ := hst
  obtain ⟨l, henc, hholders, hbarriers⟩ := h.lock
  have hholds := total_update h.finite (show holds .idle = 0 from rfl) t pc'
  have hholdsBarrier := total_update h.finite (show holdsBarrier .idle = 0 from rfl) t pc'
  have hle := le_total h.finite (show holds .idle = 0 from rfl) t
  have hleBarrier := le_total h.finite (show holdsBarrier .idle = 0 from rfl) t
  dsimp only at hbound
  obtain ⟨⟨l', henc', hholders', hbarriers'⟩, c', hc'⟩ := threadStep_follows hw henc h.shared
    (h.thread t) (by omega) (by omega) (by omega) hc
  have hok := (threadStep_ok h.shared (h.thread t) hc').1
  refine ⟨h.finite.update _ _, hok.shared, ?_, ⟨l', henc', ?_, ?_⟩⟩
  · exact (Function.forall_update_iff g.pc fun u pc => Local u (suspendPart pc) sh').mpr
      ⟨hok.thread, fun u hu => (h.thread u).stable hu hok.change⟩
  · show l'.holders = total holds (Function.update g.pc t pc')
    omega
  · show l'.barriers = total holdsBarrier (Function.update g.pc t pc')
    omega

/-- **Readers and writers.** Whatever any number of threads do with a concurrent queue, as long as
    there are fewer than 2^12 holders at once:

    * `IN_BARRIER` is set exactly when there is a barrier holder, then there is only one, and
      there is no other holder;
    * otherwise the width field is the number of holders less the width, relative to full;
    * without holders the width field is the initial one. -/
theorem width_run (hw : 2 ≤ q.width) (hmax : q.width ≤ widthMax) (hinit : Initial q g)
    (hrun : Run (Step q) g es g') :
    (isInBarrier g'.shared.dqState = true ↔ total holdsBarrier g'.pc = 1) ∧
    total holdsBarrier g'.pc ≤ 1 ∧ (isInBarrier g'.shared.dqState = true → total holds g'.pc = 0) ∧
    (isInBarrier g'.shared.dqState = false →
      (widthBits g'.shared.dqState : ℤ) - widthFull = total holds g'.pc - q.width) ∧
    (total holds g'.pc = 0 → total holdsBarrier g'.pc = 0 →
      widthBits g'.shared.dqState = widthBits (stateInitValue q.width)) := by
  have hconc : Concurrent q.width := ⟨hw, hmax⟩
  have hinv := hrun.invariant (fun _ _ _ h hstep => inv_step hconc h hstep)
    (inv_initial hinit)
  obtain ⟨l, henc, hholders, hbarriers⟩ := hinv.lock
  have hbarrier := henc.isInBarrier
  cases l with
  | shared n =>
    have hbits := henc.widthBits hconc
    simp only [Lock.holders, Lock.barriers] at hholders hbarriers
    have hnot : isInBarrier g'.shared.dqState = false := by
      rw [Bool.eq_false_iff, ne_eq, hbarrier]
      simp
    rw [hnot, ← hbarriers]
    refine ⟨by simp, zero_le, fun h => absurd h Bool.false_ne_true, fun _ => ?_,
      fun hzero _ => ?_⟩
    · unfold widthFull
      omega
    · have hdiv := stateInitValue_div q.width 0
      rw [zero_and, or_zero] at hdiv
      rw [widthBits_eq (stateInitValue _)]
      omega
  | exclusive =>
    simp only [Lock.barriers] at hholders hbarriers
    rw [hbarrier.mpr rfl, ← hholders, ← hbarriers]
    exact ⟨by simp, le_rfl, fun _ => rfl, fun h => absurd h.symm Bool.false_ne_true,
      fun _ h => absurd h one_ne_zero⟩

/-- With few threads there are never too many holders. -/
theorem run_of_card [Fintype ι] (hcard : Fintype.card ι < 2 ^ 12)
    (hrun : Run (Interleave (ThreadStep q)) g es g') : Run (Step q) g es g' := by
  refine hrun.mono fun _ _ g'' hstep => ⟨hstep, lt_of_le_of_lt ?_ hcard⟩
  rw [total_eq_univ]
  calc ∑ t, holds (g''.pc t) ≤ ∑ _t : ι, 1 := Finset.sum_le_sum fun t _ => by
        cases g''.pc t <;> simp [holds]
    _ = Fintype.card ι := by rw [Finset.sum_const, Finset.card_univ, smul_eq_mul, mul_one]

end Runs

/-- A queue of width 2. -/
def pairQueue : Queue (Fin 2) := { serialQueue with width := 2 }

/-- Nothing runs on the queue. -/
def atRest : State (Fin 2) := ⟨fun _ => .idle, ⟨stateInitValue 2, 0, none, 0, false⟩⟩

/-- A reader and an async holder leave, the second one takes the full width and gives it back at
the second attempt, because the queue has become dirty. -/
theorem width_run_pair : ∃ es, ∃ g : State (Fin 2), Run (Step pairQueue) atRest es g ∧
    (∀ t, g.pc t = .idle) ∧ widthBits g.shared.dqState = widthBits (stateInitValue 2) := by
  obtain ⟨es, g, hrun, hidle⟩ : ∃ es, ∃ g : State (Fin 2),
      Run (Interleave (ThreadStep pairQueue)) atRest es g ∧ ∀ t, g.pc t = .idle :=
    exists_history_of_schedule (threadStep pairQueue)
      [(0, .reserveSyncWidth false), (1, .acquireAsync), (0, .complete), (1, .complete),
        (0, .setDirty), (1, .unlock true), (1, .go), (1, .unlock true)] (by decide +kernel)
  have hrun' := run_of_card (by decide) hrun
  refine ⟨es, g, hrun', hidle, ?_⟩
  have hinitial : Initial pairQueue atRest := ⟨fun _ => rfl, ⟨0, rfl⟩, rfl, rfl, rfl, rfl⟩
  exact (width_run (by decide) (by decide) hinitial hrun').2.2.2.2
    (total_eq_zero fun t => by rw [hidle t]; rfl) (total_eq_zero fun t => by rw [hidle t]; rfl)

/-- **A resume takes the full width.** `IN_BARRIER` is set after a suspend and a resume of a queue
at rest, and neither `_dispatch_queue_try_acquire_barrier_sync` nor
`_dispatch_queue_non_barrier_complete` has taken the full width. -/
theorem resume_in_barrier : ∃ es, ∃ g : State (Fin 2), Run (Step pairQueue) atRest es g ∧
    isInBarrier g.shared.dqState = true ∧
    ∀ t, g.pc t ≠ .barrier .sync ∧ g.pc t ≠ .barrier .complete ∧
      g.pc t ≠ .renew .sync ∧ g.pc t ≠ .renew .complete := by
  obtain ⟨es, g, hrun, hg⟩ : ∃ es, ∃ g : State (Fin 2),
      Run (Interleave (ThreadStep pairQueue)) atRest es g ∧
        (isInBarrier g.shared.dqState = true ∧
          ∀ t, g.pc t ≠ .barrier .sync ∧ g.pc t ≠ .barrier .complete ∧
            g.pc t ≠ .renew .sync ∧ g.pc t ≠ .renew .complete) :=
    exists_history_of_schedule (threadStep pairQueue)
      [(0, .suspend), (0, .go), (0, .resume), (0, .go)] (by decide +kernel)
  exact ⟨es, g, run_of_card (by decide) hrun, hg⟩

end Apple.Dispatch.Width
