import Mathlib.Data.Nat.Bitwise
import Apple.Lib.Run

/-!
# The suspend count of a queue (`libdispatch-913.60.2/src/queue.c`, lines 1618–1886)

The upper bits of the 64-bit word `dq_state` hold a suspend count of 6 bits and the bit
`HAS_SIDE_SUSPEND_CNT`. A suspend that overflows the word and a resume that underflows it
move half of the inline count to or from `dq_side_suspend_cnt`, under the sidelock, with
one addition to `dq_state` that also counts the call and flips the bit.

Any number of threads suspend and resume. One step is one read-modify-write of `dq_state`, or one
step of the critical section of the sidelock. Everything else that runs on the queue may
change the lower 55 bits of `dq_state` at any time.

Results: `suspendCount_run`; `tryInactiveSuspend_iff` for the suspends of an inactive queue.
-/

namespace Apple.Dispatch.Suspend

open Apple.Lib Nat

/-! ## The fields of `dq_state` (`queue_internal.h`, lines 150–349) -/

def suspendInterval : ℕ := 0x0400000000000000
def suspendHalf : ℕ := 0x20
def hasSideSuspendCnt : ℕ := 0x0200000000000000
def inactive : ℕ := 0x0100000000000000
def needsActivation : ℕ := 0x0080000000000000
def suspendBitsMask : ℕ := 0xff80000000000000
def inBarrier : ℕ := 0x0040000000000000
def widthFullBit : ℕ := 0x0020000000000000
def widthInterval : ℕ := 0x0000020000000000
def pendingBarrier : ℕ := 0x0000010000000000
def dirty : ℕ := 0x0000008000000000
def enqueuedOnMgr : ℕ := 0x0000004000000000
def roleMask : ℕ := 0x0000003000000000
def receivedOverride : ℕ := 0x0000000800000000
def receivedSyncWait : ℕ := 0x0000000800000000
def maxQosMask : ℕ := 0x0000000700000000
def drainOwnerMask : ℕ := 0xfffffffc
def syncTransfer : ℕ := 0x00000002
def enqueued : ℕ := 0x00000001

/-- `DISPATCH_QUEUE_DRAIN_PRESERVED_BITS_MASK` -/
def drainPreservedBitsMask : ℕ := enqueuedOnMgr ||| enqueued ||| roleMask ||| maxQosMask

/-- `DISPATCH_QUEUE_DRAIN_UNLOCK_MASK` -/
def drainUnlockMask : ℕ :=
  drainOwnerMask ||| receivedOverride ||| receivedSyncWait ||| syncTransfer

/-- `~mask` for `uint64_t` -/
def complement (mask : ℕ) : ℕ := 2 ^ 64 - 1 - mask

/-- `_dq_state_is_suspended` (`inline_internal.h`, lines 817–822) -/
def isSuspended (dqState : ℕ) : Bool := dqState ≥ needsActivation

/-- `_dq_state_is_runnable` (`inline_internal.h`, lines 1002–1005) -/
def isRunnable (dqState : ℕ) : Bool := dqState < widthFullBit

/-- `_dq_state_drain_locked` (lines 988–991) -/
def drainLocked (dqState : ℕ) : Bool := dqState &&& drainOwnerMask ≠ 0

/-- `_dq_state_has_pending_barrier` (lines 856–859) -/
def hasPendingBarrier (dqState : ℕ) : Bool := dqState &&& pendingBarrier ≠ 0

/-- What the functions read of a queue and of the calling threads: `dq_width`, whether it is a
source, and `_dispatch_lock_value_for_self()`. -/
structure Queue (ι : Type*) where
  width : ℕ
  isSource : Bool
  lockValue : ι → ℕ
  lockValue_lt : ∀ t, lockValue t < 2 ^ 32

/-- What the read-modify-write of `_dispatch_queue_resume` does. -/
inductive Resume where
  | store (value : ℕ)
  | slow
  | overResume

/-- The read-modify-write of `_dispatch_queue_resume(dq, false)` (lines 1795–1852). -/
def resumeValue {ι : Type*} (q : Queue ι) (t : ι) (dqState : ℕ) : Resume :=
  let pendingBarrierWidth := (q.width - 1) * widthInterval
  if dqState &&& suspendBitsMask = suspendInterval + needsActivation then
    .store (dqState - needsActivation)
  else if q.isSource ∧ dqState &&& suspendBitsMask = needsActivation + inactive then
    .store (dqState - inactive - needsActivation + suspendInterval)
  else if dqState < suspendInterval then
    if dqState &&& hasSideSuspendCnt = 0 then .overResume else .slow
  else
    let value := dqState - suspendInterval
    if !isRunnable value then .store (value ||| dirty)
    else if drainLocked value then .store (value ||| dirty)
    else if !q.isSource ∧ (hasPendingBarrier value ∨
        (value + pendingBarrierWidth) % 2 ^ 64 < widthFullBit) then
      .store ((value &&& drainPreservedBitsMask) |||
        (q.lockValue t ||| widthFullBit ||| inBarrier))
    else .store ((value &&& complement drainUnlockMask) &&& complement maxQosMask)

/-! ## Threads -/

/-- The queue, and who has the sidelock. `moved` is auxiliary: what `dq_side_suspend_cnt` is when
the critical section that is under way is over. -/
structure Shared (ι : Type*) where
  dqState : ℕ
  sideSuspendCnt : ℕ
  sidelock : Option ι
  moved : ℕ
  crashed : Bool

/-- Where a thread is. `delta` is what it will subtract from or add to `dq_state`. -/
inductive Pc where
  | idle
  /-- The read-modify-write of `_dispatch_queue_suspend`. -/
  | suspend
  | suspendLock
  | suspendDelta
  | suspendUpdate (delta : ℕ)
  | suspendSide
  | suspendUnlock
  | suspendRetry
  /-- The read-modify-write of `_dispatch_queue_resume`. -/
  | resume
  | resumeLock
  | resumeDelta
  | resumeUpdate (delta : ℕ)
  | resumeSide
  | resumeUnlock
  | resumeRetry
  /-- `_dispatch_queue_resume_finalize_activation`. -/
  | finalize
deriving DecidableEq

/-- What a step does that is counted; `transfer` says that it moves counts to or from the side
count. -/
inductive Event where
  | silent
  | suspended (transfer : Bool)
  | resumed (transfer : Bool)
  /-- "Over-resume of an object". -/
  | overResumed
  /-- "Too many nested calls to dispatch_suspend()". -/
  | tooManySuspends
deriving DecidableEq

/-- The call an idle thread makes; `other` is any other change of the lower bits of `dq_state`. -/
inductive Choice where
  | suspend
  | resume
  | other (low : ℕ)
  | go

/-- The result of a step. -/
abbrev Result (ι : Type*) := Option (Event × Pc × Shared ι)

section Steps

variable {ι : Type*} (q : Queue ι)

/-- A step that only goes on. -/
def goto (sh : Shared ι) (pc : Pc) : Result ι := some (.silent, pc, sh)

/-- `_dispatch_queue_sidelock_lock(dq)` -/
def sidelockLock (t : ι) (sh : Shared ι) (pc : Pc) : Result ι :=
  if sh.sidelock = none then some (.silent, pc, { sh with sidelock := some t }) else none

/-- `_dispatch_queue_sidelock_unlock(dq)` -/
def sidelockUnlock (sh : Shared ι) (pc : Pc) : Result ι :=
  some (.silent, pc, { sh with sidelock := none })

/-- `_dispatch_queue_suspend` and `_dispatch_queue_suspend_slow` (lines 1618–1674) -/
def suspendStep (t : ι) (sh : Shared ι) : Pc → Result ι
  | .suspend =>
    if sh.dqState + suspendInterval ≥ 2 ^ 64 then goto sh .suspendLock
    else some (.suspended false, .idle, { sh with dqState := sh.dqState + suspendInterval })
  | .suspendLock => sidelockLock t sh .suspendDelta
  | .suspendDelta =>
    let delta := suspendHalf * suspendInterval - suspendInterval
    let delta := if sh.sideSuspendCnt = 0 then delta - hasSideSuspendCnt else delta
    goto sh (.suspendUpdate delta)
  | .suspendUpdate delta =>
    if sh.dqState < delta then goto sh .suspendRetry
    else some (.suspended true, .suspendSide,
      { sh with dqState := sh.dqState - delta, moved := sh.moved + suspendHalf })
  | .suspendSide =>
    -- the crash is in the middle of the update: no thread sees the sum that has wrapped
    if sh.sideSuspendCnt + suspendHalf ≥ 2 ^ 32 then
      some (.tooManySuspends, .suspendSide, { sh with crashed := true })
    else some (.silent, .suspendUnlock,
      { sh with sideSuspendCnt := sh.sideSuspendCnt + suspendHalf })
  | .suspendUnlock => sidelockUnlock sh .idle
  | .suspendRetry => sidelockUnlock sh .suspend
  | _ => none

/-- `_dispatch_queue_resume` and `_dispatch_queue_resume_slow` (lines 1676–1713 and 1730–1886) -/
def resumeStep (t : ι) (sh : Shared ι) : Pc → Result ι
  | .resume =>
    match resumeValue q t sh.dqState with
    | .store value =>
      some (.resumed false,
        if (sh.dqState ^^^ value) &&& needsActivation = 0 then .idle else .finalize,
        { sh with dqState := value })
    | .slow => goto sh .resumeLock
    | .overResume => some (.overResumed, .idle, { sh with crashed := true })
  | .resumeLock => sidelockLock t sh .resumeDelta
  | .resumeDelta =>
    let delta := suspendHalf * suspendInterval - suspendInterval
    if sh.sideSuspendCnt = 0 then goto sh .resumeRetry
    else if sh.sideSuspendCnt = suspendHalf then
      goto sh (.resumeUpdate (delta - hasSideSuspendCnt))
    else goto sh (.resumeUpdate delta)
  | .resumeUpdate delta =>
    if sh.dqState + delta ≥ 2 ^ 64 then goto sh .resumeRetry
    else some (.resumed true, .resumeSide,
      { sh with dqState := sh.dqState + delta, moved := sh.moved - suspendHalf })
  | .resumeSide =>
    some (.silent, .resumeUnlock,
      { sh with sideSuspendCnt := sh.sideSuspendCnt - suspendHalf })
  | .resumeUnlock => sidelockUnlock sh .idle
  | .resumeRetry => sidelockUnlock sh .resume
  | _ => none

/-- One step of thread `t`. -/
def threadStep (t : ι) (pc : Pc) (sh : Shared ι) (c : Choice) : Result ι :=
  if sh.crashed then none
  else
    match pc, c with
    | .idle, .suspend => goto sh .suspend
    | .idle, .resume => goto sh .resume
    | .idle, .other low =>
      some (.silent, .idle, { sh with dqState := sh.dqState / 2 ^ 55 * 2 ^ 55 + low % 2 ^ 55 })
    | .idle, .go | .finalize, _ => none
    | .resume, .go | .resumeLock, .go | .resumeDelta, .go | .resumeUpdate _, .go
    | .resumeSide, .go | .resumeUnlock, .go | .resumeRetry, .go => resumeStep q t sh pc
    | _, .go => suspendStep t sh pc
    | _, _ => none

/-- The steps of thread `t`, as a relation. -/
def ThreadStep (t : ι) (pc : Pc) (sh : Shared ι) (e : Event) (pc' : Pc) (sh' : Shared ι) : Prop :=
  ∃ c, threadStep q t pc sh c = some (e, pc', sh')

/-- The threads and the queue. -/
abbrev State (ι : Type*) := Threads ι Pc (Shared ι)

/-- A step of any thread. -/
abbrev Step [DecidableEq ι] : State ι → ι × Event → State ι → Prop := Interleave (ThreadStep q)

/-- An active queue that is not suspended; no thread is in a call. -/
structure Initial (g : State ι) : Prop where
  pc : ∀ t, g.pc t = .idle
  dqState : g.shared.dqState < 2 ^ 55
  sideSuspendCnt : g.shared.sideSuspendCnt = 0
  sidelock : g.shared.sidelock = none
  moved : g.shared.moved = 0
  crashed : g.shared.crashed = false

end Steps

/-! ## Arithmetic of `dq_state` -/

variable {s : ℕ} {e : Event}

theorem and_needsActivation (hs : s / 2 ^ 55 % 4 = 0) (x : ℕ) :
    s &&& suspendBitsMask ≠ x + needsActivation ∨ x / 2 ^ 55 % 2 ≠ 0 := by
  by_contra hcon
  push Not at hcon
  obtain ⟨heq, hx⟩ := hcon
  have hbit : (s &&& suspendBitsMask).testBit 55 = false := by
    rw [testBit_and, testBit_eq_decide_div_mod_eq]
    simp only [Bool.and_eq_false_iff, decide_eq_false_iff_not]
    omega
  rw [heq, testBit_eq_decide_div_mod_eq, decide_eq_false_iff_not] at hbit
  unfold needsActivation at hbit
  omega

/-- An active queue is not about to be activated. -/
theorem ne_activation (hactive : s / 2 ^ 55 % 4 = 0) :
    s &&& suspendBitsMask ≠ suspendInterval + needsActivation ∧
      s &&& suspendBitsMask ≠ needsActivation + inactive := by
  refine ⟨(and_needsActivation hactive suspendInterval).resolve_right (by decide), ?_⟩
  exact (and_needsActivation hactive inactive).resolve_right (by decide)

theorem and_hasSide (s : ℕ) : s &&& hasSideSuspendCnt = 0 ↔ s / 2 ^ 57 % 2 = 0 := by
  have h := and_two_pow s 57
  rw [show hasSideSuspendCnt = 2 ^ 57 from rfl, h, testBit_eq_decide_div_mod_eq]
  simp

theorem or_dirty_div (s : ℕ) : (s ||| dirty) / 2 ^ 55 = s / 2 ^ 55 := by
  rw [← shiftRight_eq_div_pow, shiftRight_or_distrib, shiftRight_eq_div_pow,
    show dirty >>> 55 = 0 from rfl, or_zero]

theorem xor_needsActivation {v : ℕ} (h : s / 2 ^ 55 % 2 = v / 2 ^ 55 % 2) :
    (s ^^^ v) &&& needsActivation = 0 := by
  rw [show needsActivation = 2 ^ 55 from rfl, and_two_pow, testBit_xor,
    testBit_eq_decide_div_mod_eq, testBit_eq_decide_div_mod_eq, h]
  simp

/-- **The read-modify-write of a resume** on an active queue takes one from the inline count, or
finds that it is zero. -/
theorem resumeValue_spec {ι : Type*} (q : Queue ι) (t : ι) (hs : s < 2 ^ 64)
    (hactive : s / 2 ^ 55 % 4 = 0) :
    match resumeValue q t s with
    | .store value => value < 2 ^ 64 ∧ s / 2 ^ 55 = value / 2 ^ 55 + 8
    | .slow => s / 2 ^ 57 = 1
    | .overResume => s / 2 ^ 57 = 0 := by
  unfold resumeValue
  simp only [ne_activation hactive, and_false, if_false]
  by_cases hlt : s < suspendInterval
  · rw [if_pos hlt]
    unfold suspendInterval at hlt
    split_ifs with hside
    · have := (and_hasSide s).mp hside
      omega
    · rw [and_hasSide] at hside
      omega
  have hvalue : s / 2 ^ 55 = (s - suspendInterval) / 2 ^ 55 + 8 := by
    unfold suspendInterval at hlt ⊢
    omega
  rw [if_neg hlt]
  have hlt' : s - suspendInterval < 2 ^ 64 := by omega
  generalize s - suspendInterval = value at hvalue hlt' ⊢
  have hdirty : (value ||| dirty) < 2 ^ 64 ∧ s / 2 ^ 55 = (value ||| dirty) / 2 ^ 55 + 8 :=
    ⟨or_lt_two_pow hlt' (by decide), by rw [or_dirty_div]; exact hvalue⟩
  by_cases hrun : isRunnable value = true
  · have hsmall : value < 2 ^ 53 := of_decide_eq_true hrun
    have hstore : ∀ v < 2 ^ 55, v < 2 ^ 64 ∧ s / 2 ^ 55 = v / 2 ^ 55 + 8 := by
      omega
    simp only [hrun, Bool.not_true, Bool.false_eq_true, if_false]
    by_cases hlocked : drainLocked value = true
    · rw [if_pos hlocked]
      exact hdirty
    have hand : ∀ m, value &&& m < 2 ^ 55 := fun m =>
      and_le_left.trans_lt (hsmall.trans (by norm_num))
    split_ifs with hbarrier
    · apply hstore
      have hself : q.lockValue t < 2 ^ 55 := (q.lockValue_lt t).trans (by norm_num)
      exact or_lt_two_pow (hand _)
        (or_lt_two_pow (or_lt_two_pow hself (by decide)) (by decide))
    · apply hstore
      exact and_le_left.trans_lt (hand _)
  · simp only [Bool.eq_false_iff.mpr hrun]
    exact hdirty

/-! ## Invariant -/

section Invariant

variable {ι : Type*} {q : Queue ι} {t u : ι} {sh sh' : Shared ι}

/-- The inline suspend count, `dq_state`'s upper 6 bits. -/
def inlineCount (dqState : ℕ) : ℕ := dqState / 2 ^ 58

/-- `HAS_SIDE_SUSPEND_CNT` as a number. -/
def sideBit (dqState : ℕ) : ℕ := dqState / 2 ^ 57 % 2

/-- The suspend count when the critical section that is under way is over. -/
def Shared.total (sh : Shared ι) : ℕ := inlineCount sh.dqState + sh.moved

/-- **Invariant of the queue.** -/
structure SharedOk (sh : Shared ι) : Prop where
  lt : sh.dqState < 2 ^ 64
  active : sh.dqState / 2 ^ 55 % 4 = 0
  side : sideBit sh.dqState = if sh.moved = 0 then 0 else 1
  dvd : suspendHalf ∣ sh.moved
  free : sh.sidelock = none → sh.moved = sh.sideSuspendCnt

/-- **Invariant of a thread**: what it knows with the sidelock. -/
def Local (t : ι) (pc : Pc) (sh : Shared ι) : Prop :=
  match pc with
  | .idle | .suspend | .suspendLock | .resume | .resumeLock => sh.sidelock ≠ some t
  | .suspendDelta | .suspendUnlock | .suspendRetry | .resumeDelta | .resumeUnlock
  | .resumeRetry => sh.sidelock = some t ∧ sh.moved = sh.sideSuspendCnt
  | .suspendUpdate delta => sh.sidelock = some t ∧ sh.moved = sh.sideSuspendCnt ∧
      delta = 31 * 2 ^ 58 - if sh.sideSuspendCnt = 0 then 2 ^ 57 else 0
  | .suspendSide => sh.sidelock = some t ∧ sh.moved = sh.sideSuspendCnt + suspendHalf
  | .resumeUpdate delta => sh.sidelock = some t ∧ sh.moved = sh.sideSuspendCnt ∧
      sh.sideSuspendCnt ≠ 0 ∧
      delta = 31 * 2 ^ 58 - if sh.sideSuspendCnt = suspendHalf then 2 ^ 57 else 0
  | .resumeSide => sh.sidelock = some t ∧ sh.sideSuspendCnt = sh.moved + suspendHalf
  | .finalize => False

/-- What a step does to what the others know: nothing, taking the lock, or anything with it. -/
def Change (t : ι) (sh sh' : Shared ι) : Prop :=
  (sh'.sidelock = sh.sidelock ∧ sh'.moved = sh.moved ∧ sh'.sideSuspendCnt = sh.sideSuspendCnt) ∨
  (sh.sidelock = none ∧ sh'.sidelock = some t) ∨
  (sh.sidelock = some t ∧ (sh'.sidelock = some t ∨ sh'.sidelock = none))

variable {pc pc' : Pc}

theorem Local.stable (hut : u ≠ t) (h : Local u pc sh) (hchange : Change t sh sh') :
    Local u pc sh' := by
  rcases hchange with ⟨hlock, hmoved, hside⟩ | ⟨hlock, hlock'⟩ | ⟨hlock, hlock'⟩
  · cases pc <;> simp only [Local, hlock, hmoved, hside] at h ⊢ <;> exact h
  · cases pc <;> simp_all [Local, Ne.symm hut]
  · rcases hlock' with hlock' | hlock' <;> cases pc <;> simp_all [Local]

/-- What a step does to the counts. -/
def Counts (e : Event) (sh sh' : Shared ι) : Prop :=
  match e with
  | .silent | .tooManySuspends => sh'.total = sh.total
  | .suspended transfer => sh'.total = sh.total + 1 ∧
      (transfer = true → sh'.dqState % 2 ^ 57 = sh.dqState % 2 ^ 57)
  | .resumed transfer => sh'.total + 1 = sh.total ∧
      (transfer = true → sh'.dqState % 2 ^ 57 = sh.dqState % 2 ^ 57)
  | .overResumed => sh.total = 0 ∧ sh'.total = 0

/-- What a step gives. -/
structure StepOk (t : ι) (e : Event) (pc' : Pc) (sh sh' : Shared ι) : Prop where
  change : Change t sh sh'
  shared : SharedOk sh'
  thread : Local t pc' sh'
  counts : Counts e sh sh'

/-- A step changes the suspend bits only, or it is the read-modify-write of a resume. -/
def KeepsLow (q : Queue ι) (t : ι) (pc' : Pc) (sh sh' : Shared ι) : Prop :=
  sh'.dqState % 2 ^ 55 = sh.dqState % 2 ^ 55 ∨
    resumeValue q t sh.dqState = .store sh'.dqState ∧ pc' = .idle

theorem goto_ok (h : goto sh pc = some (e, pc', sh')) (hG : SharedOk sh)
    (hlocal : Local t pc sh) : StepOk t e pc' sh sh' ∧ KeepsLow q t pc' sh sh' := by
  cases h
  exact ⟨⟨.inl ⟨rfl, rfl, rfl⟩, hG, hlocal, rfl⟩, .inl rfl⟩

theorem sidelockLock_ok (h : sidelockLock t sh pc = some (e, pc', sh')) (hG : SharedOk sh)
    (hlocal : ∀ sh : Shared ι, sh.sidelock = some t → sh.moved = sh.sideSuspendCnt →
      Local t pc sh) : StepOk t e pc' sh sh' ∧ KeepsLow q t pc' sh sh' := by
  unfold sidelockLock at h
  split_ifs at h with hfree
  cases h
  refine ⟨⟨.inr (.inl ⟨hfree, rfl⟩), ?_, hlocal _ rfl (hG.free hfree), rfl⟩, .inl rfl⟩
  exact ⟨hG.lt, hG.active, hG.side, hG.dvd, fun hnone => by cases hnone⟩

theorem sidelockUnlock_ok (h : sidelockUnlock sh pc = some (e, pc', sh')) (hG : SharedOk sh)
    (hlock : sh.sidelock = some t) (hmoved : sh.moved = sh.sideSuspendCnt)
    (hlocal : ∀ sh : Shared ι, sh.sidelock = none → Local t pc sh) :
    StepOk t e pc' sh sh' ∧ KeepsLow q t pc' sh sh' := by
  cases h
  exact ⟨⟨.inr (.inr ⟨hlock, .inr rfl⟩), ⟨hG.lt, hG.active, hG.side, hG.dvd, fun _ => hmoved⟩,
    hlocal _ rfl, rfl⟩, .inl rfl⟩

section

variable (hG : SharedOk sh)
include hG

/-- A store to `dq_state` that leaves the side count alone. -/
theorem SharedOk.store {value : ℕ} (hlt : value < 2 ^ 64)
    (hvalue : value / 2 ^ 55 % 8 = sh.dqState / 2 ^ 55 % 8) :
    SharedOk { sh with dqState := value } := by
  have hactive := hG.active
  have hside := hG.side
  refine ⟨hlt, ?_, ?_, hG.dvd, hG.free⟩
  · show value / 2 ^ 55 % 4 = 0
    omega
  · rw [← hside]
    show value / 2 ^ 57 % 2 = sh.dqState / 2 ^ 57 % 2
    omega

/-- **The transfer of a suspend** moves half of the inline count and counts the suspend. -/
theorem suspendUpdate_ok {delta : ℕ} (hI : Local t (.suspendUpdate delta) sh)
    (hle : delta ≤ sh.dqState) : StepOk t (.suspended true) .suspendSide sh
      { sh with dqState := sh.dqState - delta, moved := sh.moved + suspendHalf } := by
  obtain ⟨hlock, hmoved, hdelta⟩ := hI
  obtain ⟨hlt, hactive, hside, hdvd, -⟩ := hG
  have hhalf : suspendHalf = 32 := rfl
  unfold sideBit at hside
  -- the word from the side bit up, before and after
  have hup : (sh.dqState - delta) / 2 ^ 57 + 62 =
      sh.dqState / 2 ^ 57 + if sh.moved = 0 then 1 else 0 := by
    split_ifs at hside hdelta ⊢ <;> omega
  have hlow : (sh.dqState - delta) % 2 ^ 57 = sh.dqState % 2 ^ 57 := by
    split_ifs at hdelta <;> omega
  refine ⟨.inr (.inr ⟨hlock, .inl hlock⟩), ⟨?_, ?_, ?_, dvd_add hdvd dvd_rfl,
    fun hnone => by cases hlock.symm.trans hnone⟩, ⟨hlock, ?_⟩, ?_, fun _ => hlow⟩
  · show sh.dqState - delta < 2 ^ 64
    omega
  · show (sh.dqState - delta) / 2 ^ 55 % 4 = 0
    omega
  · show (sh.dqState - delta) / 2 ^ 57 % 2 = if sh.moved + suspendHalf = 0 then 0 else 1
    rw [if_neg (by omega)]
    split_ifs at hside hup <;> omega
  · show sh.moved + suspendHalf = sh.sideSuspendCnt + suspendHalf
    omega
  · show (sh.dqState - delta) / 2 ^ 58 + (sh.moved + suspendHalf) =
      sh.dqState / 2 ^ 58 + sh.moved + 1
    split_ifs at hside hup <;> omega

/-- **The transfer of a resume.** -/
theorem resumeUpdate_ok {delta : ℕ} (hI : Local t (.resumeUpdate delta) sh)
    (hle : sh.dqState + delta < 2 ^ 64) : StepOk t (.resumed true) .resumeSide sh
      { sh with dqState := sh.dqState + delta, moved := sh.moved - suspendHalf } := by
  obtain ⟨hlock, hmoved, hne, hdelta⟩ := hI
  obtain ⟨hlt, hactive, hside, hdvd, -⟩ := hG
  have hhalf : suspendHalf = 32 := rfl
  unfold sideBit at hside
  rw [if_neg (by omega)] at hside
  have hle' : suspendHalf ≤ sh.moved := le_of_dvd (by omega) hdvd
  have hup : (sh.dqState + delta) / 2 ^ 57 + (if sh.moved = suspendHalf then 1 else 0) =
      sh.dqState / 2 ^ 57 + 62 := by
    split_ifs at hdelta ⊢ <;> omega
  have hlow : (sh.dqState + delta) % 2 ^ 57 = sh.dqState % 2 ^ 57 := by
    split_ifs at hdelta <;> omega
  refine ⟨.inr (.inr ⟨hlock, .inl hlock⟩), ⟨hle, ?_, ?_, Nat.dvd_sub hdvd dvd_rfl,
    fun hnone => by cases hlock.symm.trans hnone⟩, ⟨hlock, ?_⟩, ?_, fun _ => hlow⟩
  · show (sh.dqState + delta) / 2 ^ 55 % 4 = 0
    omega
  · show (sh.dqState + delta) / 2 ^ 57 % 2 = if sh.moved - suspendHalf = 0 then 0 else 1
    split_ifs at hup ⊢ <;> omega
  · show sh.sideSuspendCnt = sh.moved - suspendHalf + suspendHalf
    omega
  · show (sh.dqState + delta) / 2 ^ 58 + (sh.moved - suspendHalf) + 1 =
      sh.dqState / 2 ^ 58 + sh.moved
    split_ifs at hup <;> omega

/-- **Suspend.** -/
theorem suspendStep_ok (hI : Local t pc sh)
    (h : suspendStep t sh pc = some (e, pc', sh')) :
    StepOk t e pc' sh sh' ∧ KeepsLow q t pc' sh sh' := by
  cases pc with
  | suspend =>
    simp only [suspendStep] at h
    split_ifs at h with hover
    · exact goto_ok h hG hI
    · cases h
      unfold suspendInterval at *
      refine ⟨⟨.inl ⟨rfl, rfl, rfl⟩, hG.store (by omega) (by omega), hI, ?_, by simp⟩, .inl ?_⟩
      · simp only [Shared.total, inlineCount]
        omega
      · simp only
        omega
  | suspendLock => exact sidelockLock_ok h hG fun _ hlock hmoved => ⟨hlock, hmoved⟩
  | suspendDelta =>
    obtain ⟨hlock, hmoved⟩ := hI
    refine goto_ok h hG ⟨hlock, hmoved, ?_⟩
    unfold suspendHalf suspendInterval hasSideSuspendCnt
    split_ifs <;> norm_num
  | suspendUpdate delta =>
    simp only [suspendStep] at h
    split_ifs at h with hunder
    · exact goto_ok h hG ⟨hI.1, hI.2.1⟩
    · cases h
      have hok := suspendUpdate_ok hG hI (by omega)
      have hlow := hok.counts.2 rfl
      exact ⟨hok, .inl (by omega)⟩
  | suspendSide =>
    obtain ⟨hlock, hmoved⟩ := hI
    simp only [suspendStep] at h
    split_ifs at h with hmany <;> cases h
    · exact ⟨⟨.inl ⟨rfl, rfl, rfl⟩, ⟨hG.lt, hG.active, hG.side, hG.dvd, hG.free⟩, ⟨hlock, hmoved⟩,
        rfl⟩, .inl rfl⟩
    · refine ⟨⟨.inr (.inr ⟨hlock, .inl hlock⟩), ⟨hG.lt, hG.active, hG.side, hG.dvd, ?_⟩,
        ⟨hlock, hmoved⟩, rfl⟩, .inl rfl⟩
      exact fun _ => hmoved
  | suspendUnlock | suspendRetry =>
    exact sidelockUnlock_ok h hG hI.1 hI.2 fun _ hlock => by simp [Local, hlock]
  | _ => cases h

/-- **Resume.** -/
theorem resumeStep_ok (hI : Local t pc sh)
    (h : resumeStep q t sh pc = some (e, pc', sh')) :
    StepOk t e pc' sh sh' ∧ KeepsLow q t pc' sh sh' := by
  cases pc with
  | resume =>
    simp only [resumeStep] at h
    have hspec := resumeValue_spec q t hG.lt hG.active
    have hside := hG.side
    unfold sideBit at hside
    cases hr : resumeValue q t sh.dqState with
    | store value =>
      rw [hr] at h hspec
      obtain ⟨hlt, hvalue⟩ := hspec
      cases h
      rw [if_pos (xor_needsActivation (by omega))]
      refine ⟨⟨.inl ⟨rfl, rfl, rfl⟩, hG.store hlt (by omega), hI, ?_, by simp⟩, .inr ⟨hr, rfl⟩⟩
      simp only [Shared.total, inlineCount]
      omega
    | slow =>
      rw [hr] at h
      exact goto_ok h hG hI
    | overResume =>
      rw [hr] at h hspec
      cases h
      refine ⟨⟨.inl ⟨rfl, rfl, rfl⟩, ⟨hG.lt, hG.active, hG.side, hG.dvd, hG.free⟩, hI, ?_⟩, .inl rfl⟩
      simp only [Counts, Shared.total, inlineCount]
      split_ifs at hside <;> exact ⟨by omega, by omega⟩
  | resumeLock => exact sidelockLock_ok h hG fun _ hlock hmoved => ⟨hlock, hmoved⟩
  | resumeDelta =>
    obtain ⟨hlock, hmoved⟩ := hI
    simp only [resumeStep] at h
    split_ifs at h with hzero hhalf
    · exact goto_ok h hG ⟨hlock, hmoved⟩
    · exact goto_ok h hG ⟨hlock, hmoved, hzero, by rw [if_pos hhalf]; rfl⟩
    · exact goto_ok h hG ⟨hlock, hmoved, hzero, by rw [if_neg hhalf]; rfl⟩
  | resumeUpdate delta =>
    simp only [resumeStep] at h
    split_ifs at h with hover
    · exact goto_ok h hG ⟨hI.1, hI.2.1⟩
    · cases h
      have hok := resumeUpdate_ok hG hI (by omega)
      have hlow := hok.counts.2 rfl
      exact ⟨hok, .inl (by omega)⟩
  | resumeSide =>
    obtain ⟨hlock, hmoved⟩ := hI
    cases h
    have hside : sh.moved = sh.sideSuspendCnt - suspendHalf := by omega
    exact ⟨⟨.inr (.inr ⟨hlock, .inl hlock⟩), ⟨hG.lt, hG.active, hG.side, hG.dvd, fun _ => hside⟩,
      ⟨hlock, hside⟩, rfl⟩, .inl rfl⟩
  | resumeUnlock | resumeRetry =>
    exact sidelockUnlock_ok h hG hI.1 hI.2 fun _ hlock => by simp [Local, hlock]
  | _ => cases h

/-- **Step lemma.** -/
theorem threadStep_ok {c : Choice}
    (hI : Local t pc sh) (h : threadStep q t pc sh c = some (e, pc', sh')) :
    StepOk t e pc' sh sh' ∧ ((∃ low, c = .other low) ∨ KeepsLow q t pc' sh sh') := by
  unfold threadStep at h
  split_ifs at h
  split at h
  · exact (goto_ok h hG hI).imp_right .inr
  · exact (goto_ok h hG hI).imp_right .inr
  · cases h
    refine ⟨⟨.inl ⟨rfl, rfl, rfl⟩, ?_, hI, ?_⟩, .inl ⟨_, rfl⟩⟩
    · have hlt := hG.lt
      exact hG.store (by omega) (by omega)
    · simp only [Counts, Shared.total, inlineCount]
      omega
  all_goals first
    | exact (resumeStep_ok hG hI h).imp_right .inr
    | exact (suspendStep_ok hG hI h).imp_right .inr
    | cases h

end

end Invariant

/-! ## Runs -/

section Runs

variable {ι : Type*} {q : Queue ι} {es : List (ι × Event)} {g g' : State ι}

/-- The number of suspends in the events of a run. -/
def suspends (es : List (ι × Event)) : ℕ :=
  es.countP fun x => match x.2 with | .suspended _ => true | _ => false

/-- The number of resumes. -/
def resumes (es : List (ι × Event)) : ℕ :=
  es.countP fun x => match x.2 with | .resumed _ => true | _ => false

/-- Between the two updates of a slow path. -/
def Pc.betweenUpdates : Pc → Bool
  | .suspendSide | .resumeSide => true
  | _ => false

/-- **Invariant**: of the events so far and the state. -/
structure Inv (es : List (ι × Event)) (g : State ι) : Prop where
  shared : SharedOk g.shared
  thread : ∀ t, Local t (g.pc t) g.shared
  total : g.shared.total + resumes es = suspends es

theorem inv_initial (h : Initial g) : Inv ([] : List (ι × Event)) g := by
  have hstate := h.dqState
  refine ⟨⟨by omega, by omega, ?_, by simp [h.moved], fun _ => ?_⟩, fun t => ?_, ?_⟩
  · unfold sideBit
    rw [h.moved, if_pos rfl]
    omega
  · rw [h.moved, h.sideSuspendCnt]
  · rw [h.pc t]
    simp [Local, h.sidelock]
  · show g.shared.dqState / 2 ^ 58 + g.shared.moved + 0 = 0
    rw [h.moved]
    omega

theorem Counts.total {sh sh' : Shared ι} (h : Counts e sh sh')
    (htotal : sh.total + resumes es = suspends es) (t : ι) :
    sh'.total + resumes (es ++ [(t, e)]) = suspends (es ++ [(t, e)]) := by
  unfold resumes suspends at *
  rw [List.countP_append, List.countP_append, List.countP_singleton, List.countP_singleton]
  cases e <;> simp only [Counts, Bool.false_eq_true, if_true, if_false] at h ⊢ <;> omega

/-- When no thread is between its two updates, `dq_side_suspend_cnt` is up to date. -/
theorem Inv.moved_eq (h : Inv es g) (hpc : ∀ t, (g.pc t).betweenUpdates = false) :
    g.shared.moved = g.shared.sideSuspendCnt := by
  cases hlock : g.shared.sidelock with
  | none => exact h.shared.free hlock
  | some t =>
    have hlocal := h.thread t
    have hbetween := hpc t
    cases hpc' : g.pc t <;> rw [hpc'] at hlocal hbetween <;>
      simp_all [Local, Pc.betweenUpdates]

variable [DecidableEq ι]

/-- **Step lemma** for runs. -/
theorem inv_step (h : Inv es g) {x : ι × Event} (hstep : Step q g x g') : Inv (es ++ [x]) g' := by
  obtain ⟨hstep⟩ := hstep
  rename_i t e pc' sh'
  obtain ⟨c, hc⟩ := hstep
  have hok := (threadStep_ok h.shared (h.thread t) hc).1
  exact ⟨hok.shared, (Function.forall_update_iff g.pc fun u pc => Local u pc sh').mpr
    ⟨hok.thread, fun u hu => (h.thread u).stable hu hok.change⟩, hok.counts.total h.total t⟩

/-- **The suspend count.** Whatever any number of threads do with suspends and resumes of an
    active queue, and whatever else changes the lower bits of `dq_state`:

    * when no thread is between the two updates of a slow path, the inline count and
      `dq_side_suspend_cnt` are together the suspends minus the resumes, and
      `HAS_SIDE_SUSPEND_CNT` says whether the side count is not zero;
    * a transfer keeps every bit of `dq_state` below these two fields;
    * a resume crashes as an over-resume only when there are as many resumes as suspends. -/
theorem suspendCount_run (hinit : Initial g) (hrun : Run (Step q) g es g') :
    ((∀ t, (g'.pc t).betweenUpdates = false) →
      inlineCount g'.shared.dqState + g'.shared.sideSuspendCnt + resumes es = suspends es ∧
      (sideBit g'.shared.dqState = 1 ↔ g'.shared.sideSuspendCnt ≠ 0)) ∧ ∀ x g'', Step q g' x g'' →
      (x.2 = .suspended true ∨ x.2 = .resumed true →
        g''.shared.dqState % 2 ^ 57 = g'.shared.dqState % 2 ^ 57) ∧
      (x.2 = .overResumed → suspends es = resumes es) := by
  have h := hrun.history (I := Inv) (fun _ _ _ _ h hstep => inv_step h hstep) (inv_initial hinit)
  have htotal := h.total
  refine ⟨fun hpc => ?_, fun x g'' hstep => ?_⟩
  · have hmoved := h.moved_eq hpc
    have hside := h.shared.side
    unfold Shared.total at htotal
    rw [hmoved] at htotal hside
    refine ⟨htotal, ?_⟩
    rw [hside]
    simp
  · obtain ⟨c, hc⟩ := hstep
    have hcounts := (threadStep_ok h.shared (h.thread _) hc).1.counts
    refine ⟨?_, ?_⟩
    · rintro (rfl | rfl) <;> exact hcounts.2 rfl
    · rintro rfl
      have hzero := hcounts.1
      omega

end Runs

/-- A serial queue. -/
def serialQueue : Queue (Fin 2) := ⟨1, false, fun _ => 0x103, fun _ => by norm_num⟩

/-- Nothing runs on the queue. -/
def atRest : State (Fin 2) := ⟨fun _ => .idle, ⟨0, 0, none, 0, false⟩⟩

/-- The schedule of a call that takes `n` steps. -/
def call (t : Fin 2) (c : Choice) (n : ℕ) : List (Fin 2 × Choice) :=
  (t, c) :: List.replicate n (t, .go)

/-- The 64th suspend of a queue overflows the inline count, and half of it is moved. -/
theorem suspendCount_run_overflow :
    ∃ es, ∃ g : State (Fin 2), Run (Step serialQueue) atRest es g ∧ suspends es = 64 ∧
      g.shared.sideSuspendCnt = 32 ∧ inlineCount g.shared.dqState + 32 = 64 := by
  obtain ⟨es, g, hrun, hsuspends, hresumes, hside, hpc⟩ : ∃ es, ∃ g : State (Fin 2),
      Run (Step serialQueue) atRest es g ∧ suspends es = 64 ∧ resumes es = 0 ∧
        g.shared.sideSuspendCnt = 32 ∧ ∀ t, (g.pc t).betweenUpdates = false :=
    exists_history_of_schedule (threadStep serialQueue)
      ((List.replicate 63 (call 0 .suspend 1)).flatten ++ call 1 .suspend 6) (by decide +kernel)
  have hinit : Initial atRest := ⟨fun _ => rfl, by decide, rfl, rfl, rfl, rfl⟩
  have hcount := ((suspendCount_run hinit hrun).1 hpc).1
  exact ⟨es, g, hrun, hsuspends, hside, by omega⟩

/-! ## Inactive queues (`inline_internal.h`, lines 1064–1095) -/

/-- `_dq_state_is_inactive` (lines 826–831) -/
def isInactive (dqState : ℕ) : Bool := dqState &&& inactive ≠ 0

/-- How a call of `_dispatch_queue_try_inactive_suspend` ends. -/
inductive TryEnd where
  | returned (result : Bool)
  /-- "Too many calls to dispatch_suspend() prior to calling dispatch_set_target_queue()". -/
  | crashed
deriving DecidableEq

/-- `_dispatch_queue_try_inactive_suspend`: `dq_state` after the call, and how it ends. The addition
is not checked, and the side count is not changed. -/
def tryInactiveSuspend (dqState : ℕ) : ℕ × TryEnd :=
  if !isInactive dqState then (dqState, .returned false)
  else ((dqState + suspendInterval) % 2 ^ 64,
    if !isSuspended dqState ∨ dqState &&& hasSideSuspendCnt ≠ 0 then .crashed else .returned true)

/-- **A suspend of an inactive queue** counts one, keeps the other bits and does not wrap the inline
count, if and only if the queue is not inactive or its inline count is not 63. -/
theorem tryInactiveSuspend_iff (hs : s < 2 ^ 64) :
    (((tryInactiveSuspend s).2 = .returned true →
        inlineCount (tryInactiveSuspend s).1 = inlineCount s + 1 ∧
        (tryInactiveSuspend s).1 % 2 ^ 58 = s % 2 ^ 58) ∧
      ((tryInactiveSuspend s).2 = .returned false → (tryInactiveSuspend s).1 = s) ∧
      inlineCount s ≤ inlineCount (tryInactiveSuspend s).1) ↔
    (isInactive s = true → inlineCount s ≠ 63) := by
  unfold tryInactiveSuspend inlineCount suspendInterval
  by_cases hin : isInactive s = true
  · simp only [hin, Bool.not_true, Bool.false_eq_true, if_false, forall_const]
    constructor
    · omega
    · intro hne
      refine ⟨fun _ => by omega, fun hend => ?_, by omega⟩
      split_ifs at hend
      cases hend
  · simp [hin]

/-- After one suspend. -/
theorem tryInactiveSuspend_once :
    (tryInactiveSuspend (suspendInterval + inactive + needsActivation)).2 = .returned true ∧
    inlineCount (tryInactiveSuspend (suspendInterval + inactive + needsActivation)).1 = 2 :=
  ⟨by decide, (((tryInactiveSuspend_iff (by decide)).mpr (by decide)).1 (by decide)).1⟩

/-- `dq_state` of a new serial queue that is inactive (`_dispatch_queue_init`, lines 1036–1057). -/
def initInactive : ℕ := 0xfff * widthInterval + inactive + needsActivation

/-- 63 suspends of an inactive queue fill the inline count, and the call takes all of them away. -/
theorem tryInactiveSuspend_wraps : ∃ es, ∃ g : State (Fin 2), Run (Step serialQueue)
      ⟨fun _ => .idle, ⟨initInactive, 0, none, 0, false⟩⟩ es g ∧
    suspends es = 63 ∧ resumes es = 0 ∧ inlineCount g.shared.dqState = 63 ∧
    tryInactiveSuspend g.shared.dqState = (initInactive, .returned true) :=
  exists_history_of_schedule (threadStep serialQueue)
    (List.replicate 63 (call 0 .suspend 1)).flatten (by decide +kernel)

end Apple.Dispatch.Suspend
