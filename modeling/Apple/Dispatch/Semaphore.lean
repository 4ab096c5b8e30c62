import Apple.Lib.Tally

/-!
# `dispatch_semaphore_t` (`libdispatch-913.60.2/src/semaphore.c`, lines 43–157)

`dsema_value` counts what is left; below zero it counts the waits that need a wakeup from
the kernel semaphore. A wait that times out takes its decrement back if `dsema_value` is
still below zero, and otherwise drains the wakeup that is on its way.

Any number of threads signal and wait. One step is one atomic update of `dsema_value`, one
load of it, one signal of the kernel semaphore, or one return of a kernel wait, which is a
wakeup or, in a timed wait and at any time, a timeout.

Result: `semaphore_run`, what is counted in every reachable state.
-/

namespace Apple.Dispatch.Semaphore

open Apple.Lib

/-- `LONG_MAX` -/
def longMax : ℤ := 2 ^ 63 - 1

/-- `LONG_MIN` -/
def longMin : ℤ := -2 ^ 63

/-- A `dispatch_semaphore_t`: `dsema_value` and the count of the kernel semaphore `dsema_sema`;
`crashed` says that the process has ended in `DISPATCH_CLIENT_CRASH`. -/
structure Shared where
  value : ℤ
  sema : ℕ
  crashed : Bool

/-- `dispatch_semaphore_create` (lines 43–60) -/
def dispatchSemaphoreCreate (value : ℤ) : Option Shared :=
  if value < 0 then none else some ⟨value, 0, false⟩

/-- The cases of `switch (timeout)`. -/
inductive Timeout where
  | now
  | forever
  | deadline

/-- Where a thread is. -/
inductive Pc where
  | idle
  /-- `_dispatch_semaphore_signal_slow` is about to signal the kernel semaphore. -/
  | post
  /-- In `_dispatch_sema4_timedwait`. -/
  | timedWait
  /-- `orig = dsema->dsema_value` (line 129). -/
  | load
  /-- `while (orig < 0)` with the compare-and-swap (lines 130–135). -/
  | undo (orig : ℤ)
  /-- In `_dispatch_sema4_wait`. -/
  | drain
deriving DecidableEq

/-- What a step does that is counted. -/
inductive Event where
  | silent
  /-- The increment in `dispatch_semaphore_signal`. -/
  | signalled
  | posted
  /-- The decrement in `dispatch_semaphore_wait` with a result that is not negative: the wait
      returns 0. -/
  | waited
  /-- The decrement with a negative result. -/
  | waitBegan
  /-- The decrement is undone: the wait returns the timeout. -/
  | timedOut
  /-- A kernel wait has taken a wakeup: the wait returns 0. -/
  | woken
  | crashed
deriving DecidableEq

/-- What is not determined by the state: the call an idle thread makes, that a timed wait ends by
its timeout, that a weak compare-and-swap fails although the value is the same. -/
inductive Choice where
  | signal
  | wait (timeout : Timeout)
  | go
  | timeout
  | failStore

/-- The result of a step. -/
abbrev Result := Option (Event × Pc × Shared)

/-- `dispatch_semaphore_signal` (lines 103–115); the increment past `LONG_MAX` crashes. -/
def signalStep (sh : Shared) : Result :=
  if sh.value = longMax then some (.crashed, .idle, { sh with value := longMin, crashed := true })
  else
    let value := sh.value + 1
    some (.signalled, if value > 0 then .idle else .post, { sh with value := value })

/-- `dispatch_semaphore_wait` (lines 149–157) and the `switch` of `_dispatch_semaphore_wait_slow`
(lines 124–144). -/
def waitStep (timeout : Timeout) (sh : Shared) : Result :=
  let value := sh.value - 1
  if value ≥ 0 then some (.waited, .idle, { sh with value := value })
  else
    let pc := match timeout with
      | .now => .load
      | .forever => .drain
      | .deadline => .timedWait
    some (.waitBegan, pc, { sh with value := value })

/-- A kernel wait takes a wakeup. -/
def takeWakeup (sh : Shared) : Result :=
  if sh.sema > 0 then some (.woken, .idle, { sh with sema := sh.sema - 1 }) else none

/-- One step of a thread. -/
def threadStep (pc : Pc) (sh : Shared) (c : Choice) : Result :=
  if sh.crashed then none
  else
    match pc, c with
    | .idle, .signal => signalStep sh
    | .idle, .wait timeout => waitStep timeout sh
    | .post, .go => some (.posted, .idle, { sh with sema := sh.sema + 1 })
    | .timedWait, .go => takeWakeup sh
    | .timedWait, .timeout => some (.silent, .load, sh)
    | .load, .go => some (.silent, .undo sh.value, sh)
    | .undo orig, .go =>
      if orig < 0 then
        if sh.value = orig then some (.timedOut, .idle, { sh with value := orig + 1 })
        else some (.silent, .undo sh.value, sh)
      else some (.silent, .drain, sh)
    | .undo orig, .failStore => if orig < 0 then some (.silent, .undo sh.value, sh) else none
    | .drain, .go => takeWakeup sh
    | _, _ => none

/-- The steps of a thread, as a relation. -/
def ThreadStep {ι : Type*} (_ : ι) (pc : Pc) (sh : Shared) (e : Event) (pc' : Pc)
    (sh' : Shared) : Prop :=
  ∃ c, threadStep pc sh c = some (e, pc', sh')

/-- The threads and the semaphore. -/
abbrev State (ι : Type*) := Threads ι Pc Shared

/-- A step of any thread. -/
abbrev Step {ι : Type*} [DecidableEq ι] : State ι → ι × Event → State ι → Prop :=
  Interleave ThreadStep

/-! ## What a step does -/

/-- A thread in `_dispatch_semaphore_wait_slow`. -/
def Pc.waits : Pc → Bool
  | .timedWait | .load | .undo _ | .drain => true
  | _ => false

/-- A thread that will signal the kernel semaphore. -/
def Pc.posts : Pc → Bool
  | .post => true
  | _ => false

@[simp] theorem waits_idle : Pc.idle.waits = false := rfl

@[simp] theorem waits_post : Pc.post.waits = false := rfl

@[simp] theorem posts_idle : Pc.idle.posts = false := rfl

@[simp] theorem posts_post : Pc.post.posts = true := rfl

variable {pc pc' : Pc} {sh sh' : Shared} {e : Event}

theorem posts_of_waits (h : pc.waits = true) : pc.posts = false := by
  cases pc <;> first | rfl | cases h

/-- What a step does to the semaphore and to the place of the thread. -/
inductive Effect : Event → Pc → Pc → Shared → Shared → Prop
  | signal {sh : Shared} (h : 0 < sh.value + 1) :
      Effect .signalled .idle .idle sh { sh with value := sh.value + 1 }
  | signalSlow {sh : Shared} (h : sh.value + 1 ≤ 0) :
      Effect .signalled .idle .post sh { sh with value := sh.value + 1 }
  | post {sh : Shared} : Effect .posted .post .idle sh { sh with sema := sh.sema + 1 }
  | wait {sh : Shared} (h : 0 ≤ sh.value - 1) :
      Effect .waited .idle .idle sh { sh with value := sh.value - 1 }
  | waitSlow {sh : Shared} {pc : Pc} (h : sh.value - 1 < 0) (hpc : pc.waits = true) :
      Effect .waitBegan .idle pc sh { sh with value := sh.value - 1 }
  | move {sh : Shared} {pc pc' : Pc} (hpc : pc.waits = true) (hpc' : pc'.waits = true) :
      Effect .silent pc pc' sh sh
  | undo {sh : Shared} {pc : Pc} (hpc : pc.waits = true) (h : sh.value < 0) :
      Effect .timedOut pc .idle sh { sh with value := sh.value + 1 }
  | wake {sh : Shared} {pc : Pc} (hpc : pc.waits = true) (h : 0 < sh.sema) :
      Effect .woken pc .idle sh { sh with sema := sh.sema - 1 }
  | crash {sh : Shared} : Effect .crashed .idle .idle sh
      { sh with value := longMin, crashed := true }

theorem takeWakeup_effect (hpc : pc.waits = true)
    (h : takeWakeup sh = some (e, pc', sh')) : Effect e pc pc' sh sh' := by
  unfold takeWakeup at h
  split_ifs at h with hsema
  cases h
  exact .wake hpc hsema

theorem signalStep_effect (h : signalStep sh = some (e, pc', sh')) : Effect e .idle pc' sh sh' := by
  unfold signalStep at h
  split_ifs at h with hmax
  · cases h
    exact .crash
  · dsimp only at h
    split_ifs at h with hpos <;> cases h
    · exact .signal hpos
    · exact .signalSlow (by omega)

theorem waitStep_effect {timeout : Timeout}
    (h : waitStep timeout sh = some (e, pc', sh')) : Effect e .idle pc' sh sh' := by
  unfold waitStep at h
  dsimp only at h
  split_ifs at h with hge <;> cases h
  · exact .wait hge
  · exact .waitSlow (by omega) (by cases timeout <;> rfl)

/-- **Every step has one of these effects.** -/
theorem threadStep_effect {c : Choice} (h : threadStep pc sh c = some (e, pc', sh')) :
    sh.crashed = false ∧ Effect e pc pc' sh sh' := by
  unfold threadStep at h
  split_ifs at h with hcrash
  refine ⟨by simpa using hcrash, ?_⟩
  split at h
  · exact signalStep_effect h
  · exact waitStep_effect h
  · cases h
    exact .post
  · exact takeWakeup_effect rfl h
  · cases h
    exact .move rfl rfl
  · cases h
    exact .move rfl rfl
  · split_ifs at h with hneg heq <;> cases h
    · subst heq
      exact .undo rfl hneg
    · exact .move rfl rfl
    · exact .move rfl rfl
  · split_ifs at h with hneg
    cases h
    exact .move rfl rfl
  · exact takeWakeup_effect rfl h
  · cases h

/-! ## Counting -/

/-- The event is the start of a signal. -/
def Event.signals (e : Event) : Bool := e = .signalled

/-- The event is the start of a wait. -/
def Event.starts (e : Event) : Bool := e = .waited || e = .waitBegan

/-- The event decides that a wait returns 0. -/
def Event.returnsZero (e : Event) : Bool := e = .waited || e = .woken

/-- The event is the undo of a wait that timed out. -/
def Event.undoes (e : Event) : Bool := e = .timedOut

/-- How many events of a kind there were. -/
def count {ι : Type*} (p : Event → Bool) (es : List (ι × Event)) : ℕ := es.countP fun x => p x.2

theorem count_snoc {ι : Type*} (p : Event → Bool) (es : List (ι × Event)) (x : ι × Event) :
    count p (es ++ [x]) = count p es + if p x.2 then 1 else 0 := by
  rw [count, count, List.countP_append, List.countP_singleton]

/-- A step keeps the account of the waits. -/
theorem Effect.returned (h : Effect e pc pc' sh sh') :
    (if e.returnsZero then 1 else 0) + (if e.undoes then 1 else 0) + (if pc'.waits then 1 else 0) =
      (if e.starts then 1 else 0) + if pc.waits then 1 else 0 := by
  cases h <;> simp_all [Event.returnsZero, Event.undoes, Event.starts]

/-- A step keeps the account of `dsema_value`. -/
theorem Effect.value (h : Effect e pc pc' sh sh')
    (hcrash : sh'.crashed = false) :
    sh'.value + (if e.starts then 1 else 0 : ℕ) - (if e.undoes then 1 else 0 : ℕ) -
      (if e.signals then 1 else 0 : ℕ) = sh.value := by
  cases h <;> simp_all [Event.signals, Event.undoes, Event.starts]

/-- A step keeps the account of the wakeups. -/
theorem Effect.wakeups (h : Effect e pc pc' sh sh')
    (hcrash : sh'.crashed = false) :
    sh'.sema + (if pc'.posts then 1 else 0) + (-sh'.value).toNat + (if pc.waits then 1 else 0) =
      sh.sema + (if pc.posts then 1 else 0) + (-sh.value).toNat + if pc'.waits then 1 else 0 := by
  cases h with
  | signal h | wait h =>
    simp only
    omega
  | signalSlow h =>
    simp only [waits_idle, posts_idle, waits_post, posts_post, Bool.false_eq_true, if_false,
      if_true]
    omega
  | post =>
    simp [posts_post]
  | waitSlow h hpc | undo hpc h | wake hpc h =>
    simp only [waits_idle, posts_idle, hpc, posts_of_waits hpc, Bool.false_eq_true, if_false,
      if_true]
    omega
  | move hpc hpc' => simp only [hpc, hpc', posts_of_waits hpc, posts_of_waits hpc']
  | crash => cases hcrash

/-- **Invariant**: of the events so far and the state. -/
structure Inv {ι : Type*} (orig : ℤ) (es : List (ι × Event)) (g : State ι) : Prop where
  active : FinitelyActive .idle g.pc
  /-- Each started wait has returned 0, is undone or is under way. -/
  returned : count Event.returnsZero es + count Event.undoes es + tally (·.waits = true) g.pc =
    count Event.starts es
  value : g.shared.crashed = false →
    g.shared.value + count Event.starts es - count Event.undoes es - count Event.signals es = orig
  /-- Wakeups there and on the way, and the waits that have none, are the waits under way. -/
  wakeups : g.shared.crashed = false →
    g.shared.sema + tally (·.posts = true) g.pc + (-g.shared.value).toNat =
      tally (·.waits = true) g.pc

section Runs

variable {ι : Type*} {orig : ℤ} {es : List (ι × Event)} {g g' : State ι}

theorem inv_start (h : dispatchSemaphoreCreate orig = some sh) :
    Inv orig ([] : List (ι × Event)) ⟨fun _ => .idle, sh⟩ := by
  unfold dispatchSemaphoreCreate at h
  split_ifs at h with hneg
  cases h
  have hidle : tally (·.waits = true) (fun _ : ι => Pc.idle) = 0 := tally_const (by decide)
  have hpost : tally (·.posts = true) (fun _ : ι => Pc.idle) = 0 := tally_const (by decide)
  refine ⟨finitelyActive_const _, ?_, fun _ => ?_, fun _ => ?_⟩
  · simp [count, hidle]
  · simp [count]
  · simp only [hpost]
    omega

variable [DecidableEq ι]

/-- **Step lemma.** -/
theorem inv_step (h : Inv orig es g) {x : ι × Event} (hstep : Step g x g') :
    Inv orig (es ++ [x]) g' := by
  obtain ⟨hstep⟩ := hstep
  rename_i t e p sh'
  obtain ⟨c, hc⟩ := hstep
  obtain ⟨hcrash, heffect⟩ := threadStep_effect hc
  have hwaits := tally_update (P := (·.waits = true)) h.active (by decide) t p
  have hposts := tally_update (P := (·.posts = true)) h.active (by decide) t p
  have hvalue := h.value hcrash
  have hwakeups := h.wakeups hcrash
  have hreturned := h.returned
  refine ⟨h.active.update t p, ?_, fun hcrash' => ?_, fun hcrash' => ?_⟩
  · have := heffect.returned
    simp only [count_snoc]
    omega
  · have := heffect.value hcrash'
    simp only [count_snoc]
    omega
  · have := heffect.wakeups hcrash'
    show sh'.sema + tally _ (Function.update g.pc t p) + (-sh'.value).toNat =
      tally _ (Function.update g.pc t p)
    omega

/-- **The semaphore counts.** In every state that any number of threads can reach with signals
    and waits on a new semaphore, unless `LONG_MAX` signals too many have crashed it:

    * the waits that have returned 0 are at most the creation value and the signals;
    * `dsema_value` is the creation value plus signals and undone waits minus waits;
    * the wakeups in the kernel semaphore, those on their way and the waits that may still
      undo (as many as `dsema_value` is below zero) are together the waits under way. So
      there are at most as many wakeups as waits that have to take one, and none is
      left when the waits are over. -/
theorem semaphore_run {sh : Shared} (hcreate : dispatchSemaphoreCreate orig = some sh)
    (hrun : Run Step (⟨fun _ => .idle, sh⟩ : State ι) es g) (hcrash : g.shared.crashed = false) :
    (count Event.returnsZero es : ℤ) ≤ orig + count Event.signals es ∧
    g.shared.value + count Event.starts es - count Event.undoes es - count Event.signals es = orig ∧
    g.shared.sema ≤ tally (·.waits = true) g.pc - (-g.shared.value).toNat ∧
    g.shared.sema + tally (·.posts = true) g.pc + (-g.shared.value).toNat =
      tally (·.waits = true) g.pc := by
  have h := hrun.history (I := Inv orig) (fun _ _ _ _ h hstep => inv_step h hstep)
    (inv_start hcreate)
  have hreturned := h.returned
  have hvalue := h.value hcrash
  have hwakeups := h.wakeups hcrash
  refine ⟨?_, hvalue, ?_, hwakeups⟩
  · omega
  · omega

end Runs

/-- Thread 0 waits with a timeout, which comes together with the signal of thread 1: it finds
`dsema_value` at zero and takes the wakeup. -/
theorem semaphore_run_lateSignal :
    ∃ es, ∃ g : State (Fin 2), Run Step (⟨fun _ => .idle, ⟨0, 0, false⟩⟩ : State (Fin 2)) es g ∧
      count Event.returnsZero es = 1 ∧
      (count Event.returnsZero es : ℤ) ≤ 0 + count Event.signals es := by
  obtain ⟨es, g, hrun, hcrash, hes⟩ : ∃ es, ∃ g : State (Fin 2),
      Run Step (⟨fun _ => .idle, ⟨0, 0, false⟩⟩ : State (Fin 2)) es g ∧
        g.shared.crashed = false ∧ count Event.returnsZero es = 1 :=
    exists_history_of_schedule (fun _ => threadStep)
      [(0, .wait .deadline), (1, .signal), (0, .timeout), (0, .go), (0, .go), (1, .go), (0, .go)]
      (by decide)
  exact ⟨es, g, hrun, hes, (semaphore_run rfl hrun hcrash).1⟩

end Apple.Dispatch.Semaphore
