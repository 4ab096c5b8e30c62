import Apple.Lib.Tally

/-!
# `dispatch_apply`

Model of `_dispatch_apply_invoke2` (`libdispatch-913.60.2/src/apply.c`, lines 29–95) as run by the
threads of `_dispatch_apply_f2`: the caller, which waits at the end, and the worker threads. A
thread takes its indices from `da_index`, counts what it has done off `da_todo`, and gives up its
share of the object in `da_thr_cnt`. The thread event is modelled by its value
(`src/shims/lock.h`, lines 290–333, and `lock.c`, lines 467–499). Every access to shared memory is a
step of its own; the wait in the kernel may return at any time.

`da_index` and `da_todo` are `size_t`, the value of the event is a `uint32_t`.

Results:
* `applied_run`: what holds in every state of every run, as long as the iterations and the threads
  together are at most 2^64.
* `calls_twice`: with more of them `da_index` can wrap around, and `apply_run_iff` says both.
-/

namespace Apple.Dispatch.Apply

open Lib Function List

/-! ## The source -/

/-- Where a thread is in `_dispatch_apply_invoke2`. -/
inductive Pc
  /-- reads `da_iterations` -/
  | start
  /-- the first increment of `da_index` -/
  | first
  /-- reads `da_dc`, `da_nested` and `da_flags` -/
  | context (idx : ℕ)
  /-- calls the function -/
  | call (idx done : ℕ)
  /-- is in the function -/
  | calling (idx done : ℕ)
  /-- increments `da_index` -/
  | next (done : ℕ)
  /-- subtracts `done` from `da_todo` -/
  | sub (done : ℕ)
  /-- increments the value of the event -/
  | signal
  /-- wakes the waiting thread -/
  | wake
  /-- decrements the value of the event -/
  | wait
  /-- loads the value of the event -/
  | waitSlow
  /-- destroys the event -/
  | destroy
  /-- decrements `da_thr_cnt` -/
  | drop
  /-- frees the object -/
  | free
  /-- has returned -/
  | returned
  /-- a failed check has stopped the program -/
  | crashed
  deriving DecidableEq

/-- The fields of `dispatch_apply_t` that change, and whether it has been freed. -/
structure Shared where
  index : ℕ
  todo : ℕ
  event : ℕ
  thrCnt : ℤ
  freed : Bool

/-- What a step does. -/
inductive Event
  | silent
  | index (idx : ℕ)
  | called (idx : ℕ)
  | completed (idx : ℕ)
  | finished (done : ℕ) (last : Bool)
  | signalled
  | waited
  | spun
  | dropped (last : Bool)
  | freed
  | crashed
  deriving DecidableEq

/-- The label `out`: only the caller waits. -/
def out (waits : Bool) : Pc := if waits then .wait else .drop

/-- One step of a thread, with `DISPATCH_APPLY_INVOKE_WAIT` or without. -/
def threadStep (iter : ℕ) (waits : Bool) : Pc → Shared → Option (Event × Pc × Shared)
  | .start, sh => some (.silent, .first, sh)
  | .first, sh =>
    some (.index sh.index, if sh.index < iter then .context sh.index else out waits,
      { sh with index := (sh.index + 1) % 2 ^ 64 })
  | .context idx, sh => some (.silent, .call idx 0, sh)
  | .call idx done, sh => some (.called idx, .calling idx done, sh)
  | .calling idx done, sh => some (.completed idx, .next (done + 1), sh)
  | .next done, sh =>
    some (.index sh.index, if sh.index < iter then .call sh.index done else .sub done,
      { sh with index := (sh.index + 1) % 2 ^ 64 })
  | .sub done, sh =>
    let todo := (sh.todo + 2 ^ 64 - done) % 2 ^ 64
    some (.finished done (todo = 0), if todo = 0 then .signal else out waits,
      { sh with todo := todo })
  | .signal, sh =>
    some (.signalled, if sh.event = 0 then out waits else .wake,
      { sh with event := (sh.event + 1) % 2 ^ 32 })
  | .wake, sh => some (.silent, out waits, sh)
  | .wait, sh =>
    let value := (sh.event + (2 ^ 32 - 1)) % 2 ^ 32
    some (.waited, if value = 0 then .destroy else .waitSlow, { sh with event := value })
  | .waitSlow, sh =>
    if sh.event = 0 then some (.silent, .destroy, sh)
    else if sh.event ≠ 2 ^ 32 - 1 then some (.crashed, .crashed, sh)
    else some (.spun, .waitSlow, sh)
  | .destroy, sh =>
    if sh.event = 0 then some (.silent, .drop, sh) else some (.crashed, .crashed, sh)
  | .drop, sh =>
    let thrCnt := sh.thrCnt - 1
    some (.dropped (thrCnt = 0), if thrCnt = 0 then .free else .returned,
      { sh with thrCnt := thrCnt })
  | .free, sh => some (.freed, .returned, { sh with freed := true })
  | .returned, _ => none
  | .crashed, _ => none

section

variable {ι : Type} [DecidableEq ι]

/-- The steps of a thread, as a relation. -/
def ThreadStep (iter : ℕ) (caller t : ι) (pc : Pc) (sh : Shared) (e : Event) (pc' : Pc)
    (sh' : Shared) : Prop :=
  threadStep iter (decide (t = caller)) pc sh = some (e, pc', sh')

/-- The threads and the object they share. -/
abbrev State (ι : Type) := Threads ι Pc Shared

/-- A step of any thread. -/
abbrev Step (iter : ℕ) (caller : ι) : State ι → ι × Event → State ι → Prop :=
  Interleave (ThreadStep iter caller)

/-- The object as `dispatch_apply_f` sets it up (lines 287–298), for all threads of a type. -/
def initial (ι : Type) [Fintype ι] (iter : ℕ) : State ι :=
  ⟨fun _ => .start, ⟨0, iter, 0, Fintype.card ι, false⟩⟩

end

/-! ## What a step does to its thread -/

/-- A thread that has been given an index past the end. -/
def past : Pc → ℕ
  | .start | .first | .context _ | .call _ _ | .calling _ _ | .next _ => 0
  | _ => 1

/-- A thread that has been given the index `i` and has not called the function for it. -/
def owns (i : ℕ) : Pc → ℕ
  | .context idx | .call idx _ => if idx = i then 1 else 0
  | _ => 0

/-- A thread that has been given the index `i` and has not completed the call for it. -/
def busy (i : ℕ) : Pc → ℕ
  | .context idx | .call idx _ | .calling idx _ => if idx = i then 1 else 0
  | _ => 0

/-- The indices a thread has been given and has not yet counted off `da_todo`. -/
def pending : Pc → ℕ
  | .context _ => 1
  | .call _ done | .calling _ done => done + 1
  | .next done | .sub done => done
  | _ => 0

/-- A thread that will signal the event. -/
def atSignal : Pc → ℕ
  | .signal => 1
  | _ => 0

/-- A thread that has a share in the object. -/
def counted : Pc → ℕ
  | .free | .returned => 0
  | _ => 1

/-- A thread that will free the object. -/
def atFree : Pc → ℕ
  | .free => 1
  | _ => 0

namespace Event

/-- 1 for an increment of `da_index`. -/
def indexes : Event → ℕ
  | .index _ => 1
  | _ => 0

/-- 1 when the index `i` is given to a thread. -/
def gives (i : ℕ) : Event → ℕ
  | .index idx => if idx = i then 1 else 0
  | _ => 0

/-- 1 when an index of the range is given to a thread. -/
def givesBelow (iter : ℕ) : Event → ℕ
  | .index idx => if idx < iter then 1 else 0
  | _ => 0

/-- 1 for an index past the end. -/
def givesPast (iter : ℕ) : Event → ℕ
  | .index idx => if idx < iter then 0 else 1
  | _ => 0

/-- 1 for a call of the function with the index `i`. -/
def calls (i : ℕ) : Event → ℕ
  | .called idx => if idx = i then 1 else 0
  | _ => 0

/-- 1 for the end of a call of the function with the index `i`. -/
def completes (i : ℕ) : Event → ℕ
  | .completed idx => if idx = i then 1 else 0
  | _ => 0

/-- What is counted off `da_todo`. -/
def finishes : Event → ℕ
  | .finished done _ => done
  | _ => 0

/-- 1 when `da_todo` becomes 0. -/
def last : Event → ℕ
  | .finished _ true => 1
  | _ => 0

/-- 1 for a signal of the event. -/
def signals : Event → ℕ
  | .signalled => 1
  | _ => 0

/-- 1 for the wait for the event. -/
def waits : Event → ℕ
  | .waited => 1
  | _ => 0

/-- 1 for a wakeup without a signal. -/
def spins : Event → ℕ
  | .spun => 1
  | _ => 0

/-- 1 for a share that is given up. -/
def drops : Event → ℕ
  | .dropped _ => 1
  | _ => 0

/-- 1 for the last share. -/
def dropsLast : Event → ℕ
  | .dropped true => 1
  | _ => 0

/-- 1 when the object is freed. -/
def frees : Event → ℕ
  | .freed => 1
  | _ => 0

end Event

open Event

/-- What a step does, case by case. -/
inductive Effect (iter : ℕ) (waits : Bool) : Pc → Shared → Event → Pc → Shared → Prop
  | start {sh : Shared} : Effect iter waits .start sh .silent .first sh
  | firstIn {sh : Shared} (h : sh.index < iter) :
      Effect iter waits .first sh (.index sh.index) (.context sh.index)
        { sh with index := (sh.index + 1) % 2 ^ 64 }
  | firstOut {sh : Shared} (h : ¬ sh.index < iter) :
      Effect iter waits .first sh (.index sh.index) (out waits)
        { sh with index := (sh.index + 1) % 2 ^ 64 }
  | context {sh : Shared} {idx : ℕ} : Effect iter waits (.context idx) sh .silent (.call idx 0) sh
  | call {sh : Shared} {idx done : ℕ} :
      Effect iter waits (.call idx done) sh (.called idx) (.calling idx done) sh
  | complete {sh : Shared} {idx done : ℕ} :
      Effect iter waits (.calling idx done) sh (.completed idx) (.next (done + 1)) sh
  | nextIn {sh : Shared} {done : ℕ} (h : sh.index < iter) :
      Effect iter waits (.next done) sh (.index sh.index) (.call sh.index done)
        { sh with index := (sh.index + 1) % 2 ^ 64 }
  | nextOut {sh : Shared} {done : ℕ} (h : ¬ sh.index < iter) :
      Effect iter waits (.next done) sh (.index sh.index) (.sub done)
        { sh with index := (sh.index + 1) % 2 ^ 64 }
  | subLast {sh : Shared} {done : ℕ} (h : (sh.todo + 2 ^ 64 - done) % 2 ^ 64 = 0) :
      Effect iter waits (.sub done) sh (.finished done true) .signal { sh with todo := 0 }
  | sub {sh : Shared} {done todo : ℕ} (h : (sh.todo + 2 ^ 64 - done) % 2 ^ 64 = todo)
      (h0 : todo ≠ 0) :
      Effect iter waits (.sub done) sh (.finished done false) (out waits) { sh with todo := todo }
  | signal {sh : Shared} :
      Effect iter waits .signal sh .signalled (out waits)
        { sh with event := (sh.event + 1) % 2 ^ 32 }
  | signalWake {sh : Shared} :
      Effect iter waits .signal sh .signalled .wake { sh with event := (sh.event + 1) % 2 ^ 32 }
  | wake {sh : Shared} : Effect iter waits .wake sh .silent (out waits) sh
  | waitDone {sh : Shared} (h : (sh.event + (2 ^ 32 - 1)) % 2 ^ 32 = 0) :
      Effect iter waits .wait sh .waited .destroy { sh with event := 0 }
  | wait {sh : Shared} {value : ℕ} (h : (sh.event + (2 ^ 32 - 1)) % 2 ^ 32 = value)
      (h0 : value ≠ 0) :
      Effect iter waits .wait sh .waited .waitSlow { sh with event := value }
  | wokenUp {sh : Shared} (h : sh.event = 0) :
      Effect iter waits .waitSlow sh .silent .destroy sh
  | again {sh : Shared} : Effect iter waits .waitSlow sh .spun .waitSlow sh
  | corrupt {sh : Shared} (h : sh.event ≠ 0) (h' : sh.event ≠ 2 ^ 32 - 1) :
      Effect iter waits .waitSlow sh .crashed .crashed sh
  | destroy {sh : Shared} (h : sh.event = 0) : Effect iter waits .destroy sh .silent .drop sh
  | notZero {sh : Shared} (h : sh.event ≠ 0) : Effect iter waits .destroy sh .crashed .crashed sh
  | dropLast {sh : Shared} (h : sh.thrCnt - 1 = 0) :
      Effect iter waits .drop sh (.dropped true) .free { sh with thrCnt := sh.thrCnt - 1 }
  | drop {sh : Shared} (h : sh.thrCnt - 1 ≠ 0) :
      Effect iter waits .drop sh (.dropped false) .returned { sh with thrCnt := sh.thrCnt - 1 }
  | free {sh : Shared} : Effect iter waits .free sh .freed .returned { sh with freed := true }

section Balance

variable {iter : ℕ} {waits : Bool} {pc pc' : Pc} {sh sh' : Shared} {e : Event}

/-- **Inversion** of a step. -/
theorem threadStep_effect (h : threadStep iter waits pc sh = some (e, pc', sh')) :
    Effect iter waits pc sh e pc' sh' := by
  cases pc with
  | start => cases h; exact .start
  | first =>
    rw [threadStep] at h
    split_ifs at h with hlt <;> cases h
    · exact .firstIn hlt
    · exact .firstOut hlt
  | context idx => cases h; exact .context
  | call idx done => cases h; exact .call
  | calling idx done => cases h; exact .complete
  | next done =>
    rw [threadStep] at h
    split_ifs at h with hlt <;> cases h
    · exact .nextIn hlt
    · exact .nextOut hlt
  | sub done =>
    rw [threadStep] at h
    generalize htodo : (sh.todo + 2 ^ 64 - done) % 2 ^ 64 = todo at h
    by_cases h0 : todo = 0
    · subst h0
      cases h
      exact .subLast htodo
    · simp only [h0] at h
      cases h
      exact .sub htodo h0
  | signal =>
    rw [threadStep] at h
    split_ifs at h <;> cases h
    · exact .signal
    · exact .signalWake
  | wake => cases h; exact .wake
  | wait =>
    rw [threadStep] at h
    generalize hvalue : (sh.event + (2 ^ 32 - 1)) % 2 ^ 32 = value at h
    by_cases h0 : value = 0
    · subst h0
      cases h
      exact .waitDone hvalue
    · simp only [h0] at h
      cases h
      exact .wait hvalue h0
  | waitSlow =>
    rw [threadStep] at h
    split_ifs at h with h0 hmax <;> cases h
    · exact .wokenUp h0
    · exact .corrupt h0 hmax
    · exact .again
  | destroy =>
    rw [threadStep] at h
    split_ifs at h with h0 <;> cases h
    · exact .destroy h0
    · exact .notZero h0
  | drop =>
    rw [threadStep] at h
    by_cases h0 : sh.thrCnt - 1 = 0
    · simp only [h0] at h
      cases h
      exact h0 ▸ .dropLast h0
    · simp only [h0] at h
      cases h
      exact .drop h0
  | free => cases h; exact .free
  | returned => cases h
  | crashed => cases h

section

variable (h : Effect iter waits pc sh e pc' sh')

include h

theorem past_step : past pc' = past pc + givesPast iter e := by
  cases waits <;> cases h <;> simp_all [past, givesPast, out]

variable {i : ℕ}

theorem owns_step (hi : i < iter) : owns i pc' + calls i e = owns i pc + gives i e := by
  cases waits <;> cases h <;> simp [owns, calls, gives, out] <;> omega

theorem busy_step (hi : i < iter) : busy i pc' + completes i e = busy i pc + gives i e := by
  cases waits <;> cases h <;> simp [busy, completes, gives, out] <;> omega

theorem pending_step : pending pc' + finishes e = pending pc + givesBelow iter e := by
  cases waits <;> cases h <;> simp_all [pending, finishes, givesBelow, out]

theorem atSignal_step : atSignal pc' + signals e = atSignal pc + last e := by
  cases waits <;> cases h <;> simp [atSignal, signals, last, out]

theorem counted_step : counted pc' + drops e = counted pc := by
  cases waits <;> cases h <;> simp [counted, drops, out]

theorem atFree_step : atFree pc' + frees e = atFree pc + dropsLast e := by
  cases waits <;> cases h <;> simp [atFree, frees, dropsLast, out]

/-- No call is made for an index past the end. -/
theorem owns_step_past (hi : iter ≤ i) : owns i pc' + calls i e = owns i pc := by
  cases waits <;> cases h <;> simp [owns, calls, out] <;> omega

/-- The step at `da_index`, or none. -/
theorem index_step : (e = .index sh.index ∧ sh'.index = (sh.index + 1) % 2 ^ 64 ∧ past pc = 0) ∨
      (sh'.index = sh.index ∧ indexes e = 0 ∧ (∀ i, gives i e = 0) ∧ givesBelow iter e = 0 ∧
        givesPast iter e = 0) := by
  cases h <;> simp [indexes, gives, givesBelow, givesPast, past]

/-- The step at `da_todo`, or none. -/
theorem todo_step : (∃ done, pc = .sub done ∧ finishes e = done ∧
        sh'.todo = (sh.todo + 2 ^ 64 - done) % 2 ^ 64 ∧ last e = if sh'.todo = 0 then 1 else 0) ∨
      (sh'.todo = sh.todo ∧ finishes e = 0 ∧ last e = 0) := by
  cases h <;> simp_all [finishes, last]

/-- The steps at the value of the event. -/
theorem event_step : sh'.event = (sh.event + signals e + Event.waits e * (2 ^ 32 - 1)) % 2 ^ 32 ∨
      (sh'.event = sh.event ∧ signals e = 0 ∧ Event.waits e = 0) := by
  cases h <;> simp_all [signals, Event.waits]

/-- The step at `da_thr_cnt`, or none. -/
theorem thrCnt_step : sh'.thrCnt + drops e = sh.thrCnt ∧
      (dropsLast e = if drops e = 1 ∧ sh'.thrCnt = 0 then 1 else 0) ∧
      (drops e = 1 → counted pc = 1) := by
  cases h with
  | dropLast h =>
    refine ⟨?_, ?_, fun _ => rfl⟩
    · simp [drops]
    · simp [drops, dropsLast, h]
  | _ => simp_all [drops, dropsLast, counted]

theorem freed_step : sh'.freed = (sh.freed || decide (1 ≤ frees e)) := by
  cases h <;> simp [frees]

end

/-- A thread that has counted off has done something, and only the caller waits. -/
def LocalOk (waits : Bool) : Pc → Prop
  | .next done | .sub done => 1 ≤ done
  | .wait | .waitSlow | .destroy => waits = true
  | _ => True

variable (h : Effect iter waits pc sh e pc' sh')

include h in
theorem localOk_step (hok : LocalOk waits pc) : LocalOk waits pc' := by
  cases waits <;> cases h <;> simp_all [LocalOk, out]

/-- The caller has waited for the event. -/
def hasWaited : Pc → ℕ
  | .waitSlow | .destroy | .drop | .free | .returned | .crashed => 1
  | _ => 0

/-- The caller has found the event signalled. -/
def woken : Pc → Prop
  | .destroy | .drop | .free | .returned => True
  | _ => False

theorem hasWaited_step (h : Effect iter true pc sh e pc' sh') :
    hasWaited pc' = hasWaited pc + Event.waits e := by
  cases h <;> simp [hasWaited, Event.waits, out]

theorem waits_step (h : Effect iter false pc sh e pc' sh') (hok : LocalOk false pc) :
    Event.waits e = 0 := by
  cases h <;> simp_all [LocalOk, Event.waits]

variable {signalled : ℕ}

/-- A step of the caller past the wait. -/
theorem woken_step (h : Effect iter true pc sh e pc' sh') (hle : signalled ≤ 1)
    (hevent : sh.event = (signalled + hasWaited pc * (2 ^ 32 - 1)) % 2 ^ 32)
    (hwoken : woken pc → 1 ≤ signalled) (hpc : woken pc') : 1 ≤ signalled := by
  cases h with
  | waitDone h | wokenUp h =>
    rw [hevent] at h
    simp only [hasWaited] at h
    omega
  | _ => first | exact hwoken trivial | exact absurd hpc (by simp [woken, out])

include h in
theorem crashed_step (hle : signalled ≤ 1)
    (hevent : waits = true → sh.event = (signalled + hasWaited pc * (2 ^ 32 - 1)) % 2 ^ 32)
    (hwoken : waits = true → woken pc → 1 ≤ signalled) (hlocal : LocalOk waits pc) :
    pc' ≠ .crashed := by
  cases h with
  | corrupt h h' =>
    rw [hevent hlocal] at h h'
    simp only [hasWaited] at h h'
    omega
  | notZero h =>
    have hsig := hwoken hlocal trivial
    rw [hevent hlocal] at h
    simp only [hasWaited] at h
    omega
  | _ => cases waits <;> simp [out]

/-- The steps a thread has ahead of it, those for further indices apart. -/
def effort : Pc → ℕ
  | .start => 13
  | .first | .context _ => 12
  | .call _ _ => 11
  | .calling _ _ => 10
  | .next _ => 9
  | .sub _ => 8
  | .signal => 7
  | .wake => 6
  | .wait => 5
  | .waitSlow => 4
  | .destroy => 3
  | .drop => 2
  | .free => 1
  | .returned | .crashed => 0

include h in
theorem effort_step : effort pc' + 1 ≤ effort pc + 3 * givesBelow iter e + spins e := by
  cases waits <;> cases h <;> simp_all [effort, givesBelow, spins, out] <;> omega

/-- A thread that has not returned has a step, and spins only at an event that is not signalled. -/
theorem threadStep_total (iter : ℕ) (waits : Bool) (sh : Shared) (hret : pc ≠ .returned)
    (hcrash : pc ≠ .crashed) (hevent : pc = .waitSlow → sh.event = 0) :
    ∃ e pc' sh', threadStep iter waits pc sh = some (e, pc', sh') ∧ spins e = 0 := by
  cases pc with
  | returned => exact absurd rfl hret
  | crashed => exact absurd rfl hcrash
  | waitSlow => exact ⟨_, _, _, if_pos (hevent rfl), rfl⟩
  | destroy =>
    by_cases h0 : sh.event = 0
    · exact ⟨_, _, _, if_pos h0, rfl⟩
    · exact ⟨_, _, _, if_neg h0, rfl⟩
  | _ => exact ⟨_, _, _, rfl, rfl⟩

theorem past_le_one (pc : Pc) : past pc ≤ 1 := by
  cases pc <;> simp [past]

theorem owns_le_pending (i : ℕ) (pc : Pc) : owns i pc ≤ pending pc ∧ busy i pc ≤ pending pc := by
  cases pc <;> grind [owns, busy, pending]

end Balance

/-! ## Runs -/

section Runs

variable {ι : Type} [DecidableEq ι] [Fintype ι] {iter : ℕ} {caller : ι} {es : List (ι × Event)}
  {g : State ι}

omit [DecidableEq ι] in
theorem total_zero_of_le {w w' : Pc → ℕ} (h : ∀ pc, w pc ≤ w' pc)
    (h0 : total w' g.pc = 0) : total w g.pc = 0 := by
  refine total_eq_zero fun t => ?_
  have hle := le_total_univ w' g.pc t
  have hpc := h (g.pc t)
  omega

/-- A balance of single steps is one of a run. -/
theorem balance_run (w : Pc → ℕ) (up down : Event → ℕ) (hw : w .start = 0)
    (hstep : ∀ waits pc sh e pc' sh', Effect iter waits pc sh e pc' sh' →
      w pc' + down e = w pc + up e) (hrun : Run (Step iter caller) (initial ι iter) es g) :
    total w g.pc + amount down es = amount up es := by
  have h := hrun.total_balance w up down .start hw
    (fun t p s e p' s' hst => hstep _ _ _ _ _ _ (threadStep_effect hst)) (Set.toFinite _)
  rwa [show total w (initial ι iter).pc = 0 from total_eq_zero fun _ => hw, zero_add] at h

variable (h1 : 1 ≤ iter) (hfit : iter + Fintype.card ι ≤ 2 ^ 64)
  (hrun : Run (Step iter caller) (initial ι iter) es g)

include hrun

theorem localOk_run (t : ι) : LocalOk (decide (t = caller)) (g.pc t) := by
  have hinv := hrun.invariant
    (Interleave.invariant
      (I := fun t pc _ => LocalOk (decide (t = caller)) pc)
      (fun t p s e p' s' _ hok hstep =>
        ⟨trivial, localOk_step (threadStep_effect hstep) hok⟩)
      (fun _ _ _ _ _ _ _ _ _ _ _ hok _ => hok))
    ⟨trivial, fun t => show LocalOk _ Pc.start from trivial⟩
  exact hinv.2 t

/-! ### The indices -/

/-- The indices that have been given out, as long as there has been no wrap. -/
structure Given (iter : ℕ) (es : List (ι × Event)) (g : State ι) : Prop where
  index : g.shared.index = amount indexes es % 2 ^ 64
  gives : amount indexes es ≤ 2 ^ 64 → ∀ i,
    amount (gives i) es = if i < amount indexes es then 1 else 0
  below : amount indexes es ≤ 2 ^ 64 →
    amount (givesBelow iter) es = min (amount indexes es) iter
  past : amount indexes es ≤ 2 ^ 64 → amount (givesPast iter) es = amount indexes es - iter

theorem given_run : Given iter es g := by
  refine hrun.history ?_ ⟨rfl, by simp, by simp, by simp⟩
  rintro es g x g' hg hstep
  cases hstep with
  | @mk t e p s hst =>
  rcases index_step (threadStep_effect hst) with
    ⟨rfl, hindex, -⟩ | ⟨hindex, h0, hgives, hbelow, hpast⟩
  · have hidx := hg.index
    constructor
    · simp only [amount_snoc, indexes]
      omega
    · intro hle i
      simp only [amount_snoc, indexes] at hle ⊢
      rw [hg.gives (by omega) i, Event.gives]
      split_ifs <;> omega
    · intro hle
      simp only [amount_snoc, indexes] at hle ⊢
      rw [hg.below (by omega), givesBelow]
      split_ifs <;> omega
    · intro hle
      simp only [amount_snoc, indexes] at hle ⊢
      rw [hg.past (by omega), givesPast]
      split_ifs <;> omega
  · constructor
    · simp only [amount_snoc, hindex, h0]
      exact hg.index
    · simp only [amount_snoc, h0, hgives]
      exact hg.gives
    · simp only [amount_snoc, h0, hbelow]
      exact hg.below
    · simp only [amount_snoc, h0, hpast]
      exact hg.past

include hfit in
/-- Every thread is given one index past the end. -/
theorem indexes_le : amount indexes es ≤ iter + Fintype.card ι := by
  induction hrun with
  | nil => exact zero_le
  | @snoc g g' es x hrun hstep ih =>
    cases hstep with
    | @mk t e p s hst =>
    rcases index_step (threadStep_effect hst) with ⟨rfl, -, ht⟩ | ⟨-, h0, -⟩
    · have hpast := balance_run past (givesPast iter) (fun _ => 0) rfl
        (fun _ _ _ _ _ _ h => past_step h) hrun
      rw [(given_run hrun).past (ih.trans hfit), amount_zero] at hpast
      have hlt : total past g.pc < Fintype.card ι := by
        rw [total_eq_univ]
        calc ∑ u, past (g.pc u) < ∑ _u : ι, 1 :=
              Finset.sum_lt_sum (fun u _ => past_le_one _) ⟨t, Finset.mem_univ t, by omega⟩
          _ = Fintype.card ι := by rw [Finset.sum_const, Finset.card_univ, smul_eq_mul, mul_one]
      simp only [amount_snoc, indexes]
      omega
    · simp only [amount_snoc, h0]
      exact ih

/-! ### The iterations -/

include hfit in
theorem givesBelow_le : total pending g.pc + amount finishes es = min (amount indexes es) iter := by
  rw [balance_run pending (givesBelow iter) finishes rfl (fun _ _ _ _ _ _ h => pending_step h)
    hrun]
  exact (given_run hrun).below ((indexes_le hfit hrun).trans hfit)

include hfit in
/-- `da_todo` is what has not been counted off. -/
theorem todo_run : g.shared.todo + amount finishes es = iter := by
  have hcard : 0 < Fintype.card ι := Fintype.card_pos_iff.mpr ⟨caller⟩
  induction hrun with
  | nil => rfl
  | @snoc g g' es x hrun hstep ih =>
    cases hstep with
    | @mk t e p s hst =>
    have hcount := givesBelow_le hfit hrun
    rcases todo_step (threadStep_effect hst) with ⟨done, hpc, hfin, htodo, -⟩ | ⟨htodo, hfin, -⟩
    · have hle := le_total_univ pending g.pc t
      rw [hpc, pending] at hle
      simp only [amount_snoc]
      omega
    · simp only [amount_snoc, hfin, htodo]
      exact ih

include h1 hfit in
/-- `da_todo` becomes 0 once. -/
theorem last_run : amount last es = if g.shared.todo = 0 then 1 else 0 := by
  induction hrun with
  | nil =>
    rw [amount_nil, if_neg]
    show iter ≠ 0
    omega
  | @snoc g g' es x hrun hstep ih =>
    cases hstep with
    | @mk t e p s hst =>
    have hcount := givesBelow_le hfit hrun
    have htodo := todo_run hfit hrun
    rcases todo_step (threadStep_effect hst) with ⟨done, hpc, hfin, -, hlast⟩ | ⟨hs, -, hlast⟩
    · -- the thread still had something to count off, so `da_todo` was not 0
      have hle := le_total_univ pending g.pc t
      have hlocal := localOk_run hrun t
      rw [hpc] at hle hlocal
      simp only [pending, LocalOk] at hle hlocal
      rw [if_neg (by omega)] at ih
      simp only [amount_snoc, ih, hlast, zero_add]
    · simp only [amount_snoc, hlast, hs]
      exact ih

include h1 hfit in
/-- The event is signalled when `da_todo` has become 0. -/
theorem signals_run :
    total atSignal g.pc + amount signals es = if g.shared.todo = 0 then 1 else 0 := by
  rw [balance_run atSignal last signals rfl (fun _ _ _ _ _ _ h => atSignal_step h) hrun,
    last_run h1 hfit hrun]

include h1 hfit in
/-- Once the event is signalled, every index has been given out and counted off. -/
theorem all_done (hsig : 1 ≤ amount signals es) :
    iter ≤ amount indexes es ∧ total pending g.pc = 0 := by
  have hsignals := signals_run h1 hfit hrun
  have htodo := todo_run hfit hrun
  have hcount := givesBelow_le hfit hrun
  by_cases h0 : g.shared.todo = 0
  · omega
  · rw [if_neg h0] at hsignals
    omega

/-! ### The event -/

theorem waits_run : amount Event.waits es = hasWaited (g.pc caller) := by
  induction hrun with
  | nil => rfl
  | @snoc g g' es x hrun hstep ih =>
    cases hstep with
    | @mk t e p s hst =>
    have heffect := threadStep_effect hst
    rw [amount_snoc, ih]
    by_cases ht : t = caller
    · subst ht
      rw [decide_eq_true rfl] at heffect
      show hasWaited (g.pc t) + Event.waits e = hasWaited (update g.pc t p t)
      rw [update_self]
      exact (hasWaited_step heffect).symm
    · rw [decide_eq_false ht] at heffect
      have hlocal := localOk_run hrun t
      rw [decide_eq_false ht] at hlocal
      show hasWaited (g.pc caller) + Event.waits e = hasWaited (update g.pc t p caller)
      rw [update_of_ne (Ne.symm ht), waits_step heffect hlocal, add_zero]

theorem event_run :
    g.shared.event = (amount signals es + amount Event.waits es * (2 ^ 32 - 1)) % 2 ^ 32 := by
  induction hrun with
  | nil => simp [initial]
  | @snoc g g' es x hrun hstep ih =>
    cases hstep with
    | @mk t e p s hst =>
    rcases event_step (threadStep_effect hst) with h | ⟨h, hs, hw⟩
    · simp only [amount_snoc]
      omega
    · simp only [amount_snoc, h, hs, hw]
      exact ih

include h1 hfit in
/-- The caller goes on only when the event has been signalled, and no check fails. -/
theorem woken_run : (woken (g.pc caller) → 1 ≤ amount signals es) ∧ ∀ t, g.pc t ≠ .crashed := by
  induction hrun with
  | nil =>
    refine ⟨fun h => ?_, fun t h => ?_⟩
    · exact absurd h (show ¬ woken Pc.start from id)
    · cases (show Pc.start = Pc.crashed from h)
  | @snoc g g' es x hrun hstep ih =>
    have hevent := event_run hrun
    rw [waits_run hrun] at hevent
    have hle : amount signals es ≤ 1 := by
      have hsignals := signals_run h1 hfit hrun
      split_ifs at hsignals <;> omega
    cases hstep with
    | @mk t e p s hst =>
    have heffect := threadStep_effect hst
    refine ⟨fun hw => ?_,
      (forall_update_iff g.pc fun _ pc => pc ≠ .crashed).mpr ⟨?_, fun u _ => ih.2 u⟩⟩
    · rw [amount_snoc]
      refine Nat.le_add_right_of_le ?_
      by_cases ht : t = caller
      · subst ht
        rw [decide_eq_true rfl] at heffect
        have hw' : woken p := by simpa using hw
        exact woken_step heffect hle hevent ih.1 hw'
      · exact ih.1 (by simpa [update_of_ne (Ne.symm ht)] using hw)
    · refine crashed_step heffect hle (fun hc => ?_) (fun hc => ?_) (localOk_run hrun t)
      · rw [of_decide_eq_true hc]
        exact hevent
      · rw [of_decide_eq_true hc]
        exact ih.1

/-! ### The object -/

theorem counted_run : g.shared.thrCnt = total counted g.pc := by
  have hcounted := hrun.total_balance counted (fun _ => 0) drops .returned rfl
    (fun t p s e p' s' hst => counted_step (threadStep_effect hst)) (Set.toFinite _)
  have hstart : total counted (initial ι iter).pc = Fintype.card ι := by
    rw [total_eq_univ]
    exact (Finset.sum_const 1).trans (by rw [Finset.card_univ, smul_eq_mul, mul_one])
  rw [amount_zero] at hcounted
  have hthr : g.shared.thrCnt + amount drops es = Fintype.card ι := by
    clear hcounted
    induction hrun with
    | nil => exact add_zero _
    | @snoc g g' es x hrun hstep ih =>
      cases hstep with
      | @mk t e p s hst =>
      have hstep := (thrCnt_step (threadStep_effect hst)).1
      simp only [amount_snoc]
      omega
  omega

theorem frees_run : total atFree g.pc + amount frees es = if g.shared.thrCnt = 0 then 1 else 0 := by
  rw [balance_run atFree dropsLast frees rfl (fun _ _ _ _ _ _ h => atFree_step h) hrun]
  induction hrun with
  | nil =>
    have hcard : 0 < Fintype.card ι := Fintype.card_pos_iff.mpr ⟨caller⟩
    rw [amount_nil, if_neg]
    show (Fintype.card ι : ℤ) ≠ 0
    omega
  | @snoc g g' es x hrun hstep ih =>
    have hcount := counted_run hrun
    cases hstep with
    | @mk t e p s hst =>
    obtain ⟨hthr, hlast, hpc⟩ := thrCnt_step (threadStep_effect hst)
    have hle := le_total_univ counted g.pc t
    simp only [amount_snoc, ih, hlast]
    by_cases hd : drops e = 1
    · rw [if_neg (by omega), zero_add]
      exact if_congr (by simp [hd]) rfl rfl
    · have hzero : drops e = 0 := by
        cases e <;> simp_all [drops]
      rw [if_neg (show ¬ (drops e = 1 ∧ s.thrCnt = 0) from fun h => hd h.1)]
      exact if_congr (by omega) rfl rfl

theorem freed_run : g.shared.freed = decide (1 ≤ amount frees es) := by
  induction hrun with
  | nil => rfl
  | @snoc g g' es x hrun hstep ih =>
    cases hstep with
    | @mk t e p s hst =>
    have hstep := freed_step (threadStep_effect hst)
    simp only [amount_snoc, hstep, ih, ← Bool.decide_or]
    exact decide_eq_decide.mpr (by omega)

/-! ### Progress -/

theorem effort_run : total effort g.pc + es.length ≤
      13 * Fintype.card ι + 3 * amount (givesBelow iter) es + amount spins es := by
  induction hrun with
  | nil =>
    have hstart : total effort (initial ι iter).pc = Fintype.card ι * 13 := by
      rw [total_eq_univ]
      exact (Finset.sum_const 13).trans (by rw [Finset.card_univ, smul_eq_mul])
    rw [length_nil]
    omega
  | @snoc g g' es x hrun hstep ih =>
    cases hstep with
    | @mk t e p s hst =>
    have hown := effort_step (threadStep_effect hst)
    have hfin : FinitelyActive .returned g.pc := Set.toFinite _
    have htotal := total_update (w := effort) hfin rfl t p
    simp only [amount_snoc, length_append, length_singleton]
    omega

include h1 hfit in
/-- When the other threads have returned, the event has been signalled. -/
theorem event_signalled (hpc : g.pc caller = .waitSlow)
    (hall : ∀ t, g.pc t = .returned ∨ g.pc t = .waitSlow) : g.shared.event = 0 := by
  have hpending : total pending g.pc = 0 := total_eq_zero fun t => by
    rcases hall t with h | h <;> rw [h] <;> rfl
  have hatSignal : total atSignal g.pc = 0 := total_eq_zero fun t => by
    rcases hall t with h | h <;> rw [h] <;> rfl
  -- the caller has been given an index past the end
  have hpast := balance_run past (givesPast iter) (fun _ => 0) rfl
    (fun _ _ _ _ _ _ h => past_step h) hrun
  rw [(given_run hrun).past ((indexes_le hfit hrun).trans hfit), amount_zero] at hpast
  have hone : 1 ≤ total past g.pc := by
    have hle := le_total_univ past g.pc caller
    rw [hpc] at hle
    exact hle
  have hcount := givesBelow_le hfit hrun
  have htodo := todo_run hfit hrun
  have hsignals := signals_run h1 hfit hrun
  rw [if_pos (by omega), hatSignal, zero_add] at hsignals
  rw [event_run hrun, waits_run hrun, hsignals, hpc]
  rfl

include h1 hfit in
/-- Some thread moves on as long as one has not returned. -/
theorem exists_step (hne : ¬ ∀ t, g.pc t = .returned) :
    ∃ t e g', Step iter caller g (t, e) g' ∧ spins e = 0 := by
  have hcrashed := (woken_run h1 hfit hrun).2
  by_cases hall : ∀ t, g.pc t = .returned ∨ g.pc t = .waitSlow
  · push Not at hne
    obtain ⟨t, ht⟩ := hne
    have hslow := (hall t).resolve_left ht
    have hlocal := localOk_run hrun t
    rw [hslow] at hlocal
    have hcaller : t = caller := of_decide_eq_true hlocal
    subst hcaller
    obtain ⟨e, pc', sh', hst, hspin⟩ := threadStep_total iter (decide (t = t)) g.shared ht
      (hcrashed t) fun _ => event_signalled h1 hfit hrun hslow hall
    exact ⟨t, e, _, .mk hst, hspin⟩
  · push Not at hall
    obtain ⟨t, ht, hslow⟩ := hall
    obtain ⟨e, pc', sh', hst, hspin⟩ := threadStep_total iter (decide (t = caller)) g.shared ht
      (hcrashed t) fun h => absurd h hslow
    exact ⟨t, e, _, .mk hst, hspin⟩

omit hrun in
include h1 hfit in
/-- From every state the threads can all return. -/
theorem exists_finish (n : ℕ) :
    ∀ {es : List (ι × Event)} {g : State ι}, Run (Step iter caller) (initial ι iter) es g →
      13 * Fintype.card ι + 3 * iter + amount spins es ≤ es.length + n →
      ∃ fs g', Run (Step iter caller) g fs g' ∧ ∀ t, g'.pc t = .returned := by
  induction n with
  | zero =>
    intro es g hrun hn
    by_contra hnot
    have hne : ¬ ∀ t, g.pc t = .returned := fun h => hnot ⟨[], g, .nil g, h⟩
    obtain ⟨t, e, g', hstep, hspin⟩ := exists_step h1 hfit hrun hne
    have hrun' := hrun.snoc hstep
    have hle := effort_run hrun'
    have hbelow := (given_run hrun').below ((indexes_le hfit hrun').trans hfit)
    simp only [amount_snoc, length_append, length_singleton] at hle hbelow
    omega
  | succ n ih =>
    intro es g hrun hn
    by_cases hall : ∀ t, g.pc t = .returned
    · exact ⟨[], g, .nil g, hall⟩
    · obtain ⟨t, e, g', hstep, hspin⟩ := exists_step h1 hfit hrun hall
      obtain ⟨fs, g'', hrest, hend⟩ := ih (hrun.snoc hstep) (by
        simp only [amount_snoc, length_append, length_singleton]
        omega)
      exact ⟨(t, e) :: fs, g'', .cons hstep hrest, hend⟩

/-! ### All together -/

/-- What `dispatch_apply` is for, in a state of a run. -/
structure Applied (iter : ℕ) (caller : ι) (es : List (ι × Event)) (g : State ι) : Prop where
  /-- The function has been called at most once for an index, … -/
  once : ∀ i, amount (calls i) es ≤ 1
  /-- … and for none past the end. -/
  inRange : ∀ i, iter ≤ i → amount (calls i) es = 0
  signalledOnce : amount signals es ≤ 1
  freedOnce : amount frees es ≤ 1
  /-- When the caller has returned, every call has been made and is complete. -/
  returned : g.pc caller = .returned → amount signals es = 1 ∧
    ∀ i < iter, amount (calls i) es = 1 ∧ amount (completes i) es = 1
  /-- Once the object is freed, no thread does anything any more. -/
  untouched : g.shared.freed = true → ∀ t, g.pc t = .returned
  released : (∀ t, g.pc t = .returned) → amount frees es = 1
  /-- The continuation on the caller's stack is read while the caller is there. -/
  context : ∀ t idx, g.pc t = .context idx → g.pc caller ≠ .returned
  /-- No check of the event fails. -/
  running : ∀ t, g.pc t ≠ .crashed
  /-- Apart from wakeups without a signal, the number of steps is bounded, … -/
  bounded : es.length ≤ 13 * Fintype.card ι + 3 * iter + amount spins es
  /-- … and the threads can all return. -/
  finishes : ∃ fs g', Run (Step iter caller) g fs g' ∧ ∀ t, g'.pc t = .returned

include h1 hfit in
theorem applied_run : Applied iter caller es g := by
  have hsignals := signals_run h1 hfit hrun
  have hfrees := frees_run hrun
  obtain ⟨hwoken, hcrashed⟩ := woken_run h1 hfit hrun
  have hgiven := (given_run hrun).gives ((indexes_le hfit hrun).trans hfit)
  have hcalls : ∀ i < iter, total (owns i) g.pc + amount (calls i) es =
      if i < amount indexes es then 1 else 0 := fun i hi => by
    rw [balance_run (owns i) (gives i) (calls i) rfl (fun _ _ _ _ _ _ h => owns_step h hi) hrun,
      hgiven]
  have hcompletes : ∀ i < iter, total (busy i) g.pc + amount (completes i) es =
      if i < amount indexes es then 1 else 0 := fun i hi => by
    rw [balance_run (busy i) (gives i) (completes i) rfl (fun _ _ _ _ _ _ h => busy_step h hi)
      hrun, hgiven]
  have hpastCalls : ∀ i, iter ≤ i → amount (calls i) es = 0 := fun i hi => by
    have h := balance_run (owns i) (fun _ => 0) (calls i) rfl
      (fun _ _ _ _ _ _ h => owns_step_past h hi) hrun
    rw [amount_zero] at h
    omega
  have hone : amount signals es ≤ 1 := by
    split_ifs at hsignals <;> omega
  have hreturned : g.pc caller = .returned → 1 ≤ amount signals es := fun h =>
    hwoken (by rw [h]; trivial)
  refine ⟨fun i => ?_, hpastCalls, hone, ?_, fun h => ?_, fun h t => ?_, fun h => ?_,
    fun t idx ht h => ?_, hcrashed, ?_,
    exists_finish h1 hfit (13 * Fintype.card ι + 3 * iter + amount spins es) hrun
      (Nat.le_add_left _ _)⟩
  · by_cases hi : i < iter
    · have hi' := hcalls i hi
      split_ifs at hi' <;> omega
    · rw [hpastCalls i (not_lt.mp hi)]
      exact zero_le
  · split_ifs at hfrees <;> omega
  · obtain ⟨hall, hpending⟩ := all_done h1 hfit hrun (hreturned h)
    refine ⟨le_antisymm hone (hreturned h), fun i hi => ?_⟩
    have howns := total_zero_of_le (fun pc => (owns_le_pending i pc).1) hpending
    have hbusy := total_zero_of_le (fun pc => (owns_le_pending i pc).2) hpending
    have hi₁ := hcalls i hi
    have hi₂ := hcompletes i hi
    rw [if_pos (by omega)] at hi₁ hi₂
    omega
  · -- the share of every thread is gone
    rw [freed_run hrun, decide_eq_true_eq] at h
    have hcount := counted_run hrun
    have hcounted := le_total_univ counted g.pc t
    have hfree := le_total_univ atFree g.pc t
    have hthr : g.shared.thrCnt = 0 := by
      by_contra hne
      rw [if_neg hne] at hfrees
      omega
    rw [if_pos hthr] at hfrees
    cases hpc : g.pc t with
    | returned => rfl
    | free =>
      rw [hpc, atFree] at hfree
      omega
    | _ =>
      rw [hpc] at hcounted
      simp only [counted] at hcounted
      omega
  · have hcount := counted_run hrun
    rw [total_eq_zero fun t => by rw [h t]; rfl] at hcount
    rw [if_pos (by rw [hcount]; rfl), total_eq_zero fun t => by rw [h t]; rfl] at hfrees
    omega
  · obtain ⟨-, hpending⟩ := all_done h1 hfit hrun (hreturned h)
    have hle := le_total_univ pending g.pc t
    rw [ht, pending] at hle
    omega
  · have hle := effort_run hrun
    have hbelow := (given_run hrun).below ((indexes_le hfit hrun).trans hfit)
    omega

end Runs

/-! ## The wrap -/

section Wrap

variable {ι : Type} [DecidableEq ι] {iter : ℕ} {caller : ι} {pc : ι → Pc} {sh : Shared} {t : ι}
  {p : Pc}

/-- One thread goes on. -/
theorem snoc_update {g : State ι} {es : List (ι × Event)} {p' : Pc} {sh' : Shared}
    {e : Event} (h : Run (Step iter caller) g es ⟨update pc t p, sh⟩)
    (hst : threadStep iter (decide (t = caller)) p sh = some (e, p', sh')) :
    Run (Step iter caller) g (es ++ [(t, e)]) ⟨update pc t p', sh'⟩ := by
  have hstep : Step iter caller ⟨update pc t p, sh⟩ (t, e)
      ⟨update (update pc t p) t p', sh'⟩ :=
    .mk (show ThreadStep iter caller t (update pc t p t) sh e p' sh' by
      rwa [update_self])
  rw [update_idem] at hstep
  exact h.snoc hstep

theorem nil_update (iter : ℕ) (caller : ι) (hpc : pc t = p) :
    Run (Step iter caller) ⟨pc, sh⟩ [] ⟨update pc t p, sh⟩ := by
  rw [← hpc, update_eq_self]
  exact .nil _

/-- A thread that starts when `da_index` is 0 calls the function for the index 0. -/
theorem first_call (caller : ι) (h1 : 1 ≤ iter) (hpc : pc t = .start)
    (hindex : sh.index = 0) : ∃ es, Run (Step iter caller) ⟨pc, sh⟩ es
      ⟨update pc t (.calling 0 0), { sh with index := 1 }⟩ ∧ amount (calls 0) es = 1 := by
  have hfirst : threadStep iter (decide (t = caller)) .first sh =
      some (.index 0, .context 0, { sh with index := 1 }) := by
    rw [threadStep, hindex, if_pos (by omega)]
    rfl
  have hrun := snoc_update (snoc_update (snoc_update (snoc_update
    (nil_update iter caller hpc) rfl) hfirst) rfl) rfl
  exact ⟨_, hrun, rfl⟩

/-- A thread that is in the function makes the next `k` calls on its own. -/
theorem rounds (hiter : iter < 2 ^ 64) (t : ι) {i done : ℕ} (hindex : sh.index = i + 1) (k : ℕ)
    (hk : i + k < iter) : ∃ es, Run (Step iter caller) ⟨update pc t (.calling i done), sh⟩ es
      ⟨update pc t (.calling (i + k) (done + k)), { sh with index := i + k + 1 }⟩ := by
  induction k with
  | zero =>
    rw [← hindex]
    exact ⟨[], .nil _⟩
  | succ k ih =>
    obtain ⟨es, hrun⟩ := ih (by omega)
    have hnext : threadStep iter (decide (t = caller)) (.next (done + k + 1))
        { sh with index := i + k + 1 } =
          some (.index (i + k + 1), .call (i + k + 1) (done + k + 1),
            { sh with index := i + k + 1 + 1 }) := by
      rw [threadStep, if_pos (by omega)]
      rw [Nat.mod_eq_of_lt (show i + k + 1 + 1 < 2 ^ 64 by omega)]
    exact ⟨_, snoc_update (snoc_update (snoc_update hrun rfl) hnext) rfl⟩

/-- One thread makes all the calls, and takes the first index past the end. -/
theorem all_calls (caller : ι) (h1 : 1 ≤ iter) (hiter : iter < 2 ^ 64)
    (hpc : pc t = .start) (hindex : sh.index = 0) : ∃ es, Run (Step iter caller) ⟨pc, sh⟩ es
      ⟨update pc t (.sub iter), { sh with index := (iter + 1) % 2 ^ 64 }⟩ ∧
      1 ≤ amount (calls 0) es := by
  obtain ⟨es, hcall, hes⟩ := first_call caller h1 hpc hindex
  obtain ⟨fs, hrounds⟩ : ∃ fs, Run (Step iter caller)
      ⟨update pc t (.calling 0 0), { sh with index := 1 }⟩ fs
      ⟨update pc t (.calling (0 + (iter - 1)) (0 + (iter - 1))),
        { sh with index := 0 + (iter - 1) + 1 }⟩ :=
    rounds hiter t rfl (iter - 1) (by omega)
  rw [zero_add, Nat.sub_add_cancel h1] at hrounds
  have hlast : threadStep iter (decide (t = caller)) (.next (iter - 1 + 1))
      { sh with index := iter } =
        some (.index iter, .sub iter, { sh with index := (iter + 1) % 2 ^ 64 }) := by
    rw [threadStep, Nat.sub_add_cancel h1, if_neg (lt_irrefl iter)]
  refine ⟨_, snoc_update (snoc_update (hcall.append hrounds) rfl) hlast, ?_⟩
  simp only [amount_append]
  omega

/-- Threads that start after that take one index each, until `da_index` is 0 again. -/
theorem passes (caller : ι) (ts : List ι) : ∀ {pc : ι → Pc} {sh : Shared} {j : ℕ}, ts.Nodup →
    (∀ t ∈ ts, pc t = .start) → iter ≤ j → sh.index = j % 2 ^ 64 → j + ts.length = 2 ^ 64 →
    ∃ es pc', Run (Step iter caller) ⟨pc, sh⟩ es ⟨pc', { sh with index := 0 }⟩ ∧
      ∀ u ∉ ts, pc' u = pc u := by
  induction ts with
  | nil =>
    intro pc sh j _ _ _ hindex hlen
    rw [length_nil, add_zero] at hlen
    rw [hlen, Nat.mod_self] at hindex
    rw [← hindex]
    exact ⟨[], pc, .nil _, fun _ _ => rfl⟩
  | cons t ts ih =>
    intro pc sh j hnodup hstart hj hindex hlen
    obtain ⟨hnot, hnodup⟩ := nodup_cons.mp hnodup
    rw [length_cons] at hlen
    rw [Nat.mod_eq_of_lt (by omega)] at hindex
    have hfirst : threadStep iter (decide (t = caller)) .first sh =
        some (.index j, out (decide (t = caller)), { sh with index := (j + 1) % 2 ^ 64 }) := by
      rw [threadStep, hindex, if_neg (by omega)]
    have hone := snoc_update (snoc_update
      (nil_update iter caller (hstart t (mem_cons_self ..))) rfl) hfirst
    obtain ⟨es, pc', hrun, hsame⟩ : ∃ es pc', Run (Step iter caller)
        ⟨update pc t (out (decide (t = caller))),
          { sh with index := (j + 1) % 2 ^ 64 }⟩ es ⟨pc', { sh with index := 0 }⟩ ∧
        ∀ u ∉ ts, pc' u = update pc t (out (decide (t = caller))) u :=
      ih hnodup (fun u hu => (update_of_ne (ne_of_mem_of_not_mem hu hnot) _ _).trans
          (hstart u (mem_cons_of_mem t hu)))
        (by omega) rfl (by omega)
    refine ⟨_, pc', hone.append hrun, fun u hu => ?_⟩
    rw [mem_cons, not_or] at hu
    rw [hsame u hu.2, update_of_ne hu.1]

/-- With more threads than that, one of them is given the index 0 a second time. -/
theorem calls_twice [Fintype ι] (caller : ι) (h1 : 1 ≤ iter) (hiter : iter < 2 ^ 64)
    (hwrap : 2 ^ 64 < iter + Fintype.card ι) :
    ∃ es, ∃ g : State ι, Run (Step iter caller) (initial ι iter) es g ∧
      2 ≤ amount (calls 0) es := by
  obtain ⟨ts, hnodup, hlen⟩ : ∃ ts : List ι, ts.Nodup ∧ ts.length = 2 ^ 64 - iter + 1 := by
    refine ⟨Finset.univ.toList.take (2 ^ 64 - iter + 1),
      (Finset.nodup_toList _).sublist (take_sublist _ _), ?_⟩
    rw [length_take, Finset.length_toList, Finset.card_univ]
    omega
  match ts, hnodup, hlen with
  | [_], _, hlen =>
    rw [length_singleton] at hlen
    omega
  | t :: u :: ts, hnodup, hlen =>
    obtain ⟨ht, hnodup⟩ := nodup_cons.mp hnodup
    obtain ⟨hu, hnodup⟩ := nodup_cons.mp hnodup
    rw [mem_cons, not_or] at ht
    rw [length_cons, length_cons] at hlen
    obtain ⟨es, hall, hes⟩ : ∃ es, Run (Step iter caller) (initial ι iter) es
        ⟨update (fun _ => .start) t (.sub iter),
          { (initial ι iter).shared with index := (iter + 1) % 2 ^ 64 }⟩ ∧
        1 ≤ amount (calls 0) es :=
      all_calls caller h1 hiter rfl rfl
    obtain ⟨fs, pc', hpass, hsame⟩ : ∃ fs pc', Run (Step iter caller)
        ⟨update (fun _ => .start) t (.sub iter),
          { (initial ι iter).shared with index := (iter + 1) % 2 ^ 64 }⟩ fs
        ⟨pc', { (initial ι iter).shared with index := 0 }⟩ ∧
        ∀ v ∉ ts, pc' v = update (fun _ => Pc.start) t (.sub iter) v :=
      passes caller ts hnodup
        (fun v hv => update_of_ne (ne_of_mem_of_not_mem hv ht.2) _ _)
        (Nat.le_succ iter) rfl (by omega)
    have hpc : pc' u = .start := (hsame u hu).trans (update_of_ne (Ne.symm ht.1) _ _)
    have hzero : ({ (initial ι iter).shared with index := 0 } : Shared).index = 0 := rfl
    obtain ⟨es', hagain, hes'⟩ := first_call caller h1 hpc hzero
    refine ⟨_, _, (hall.append hpass).append hagain, ?_⟩
    simp only [amount_append]
    omega

end Wrap

/-- **`dispatch_apply`.** In every state that any interleaving of any number of threads reaches,
the function is called once for every index, the caller waits for all the calls, the event is
signalled once and the object is freed once, as long as the iterations and the threads
together are at most 2^64; with more, some run calls the function twice for the index 0. -/
theorem apply_run_iff {ι : Type} [DecidableEq ι] [Fintype ι] {iter : ℕ} {caller : ι}
    (h1 : 1 ≤ iter) (hiter : iter < 2 ^ 64) :
    (∀ es g, Run (Step iter caller) (initial ι iter) es g → Applied iter caller es g) ↔
      iter + Fintype.card ι ≤ 2 ^ 64 := by
  constructor
  · intro h
    by_contra hwrap
    obtain ⟨es, g, hrun, htwo⟩ := calls_twice caller h1 hiter (not_le.mp hwrap)
    have hone := (h es g hrun).once 0
    omega
  · intro hfit es g hrun
    exact applied_run h1 hfit hrun

/-- Two threads and one iteration: the worker makes the call while the caller waits. -/
theorem apply_run_two : ∃ es, ∃ g : State (Fin 2), Run (Step 1 0) (initial (Fin 2) 1) es g ∧
    g.pc 0 = .returned ∧ amount (calls 0) es = 1 ∧ amount signals es = 1 ∧ amount frees es ≤ 1 := by
  obtain ⟨es, g, hrun, hret⟩ : ∃ es, ∃ g : State (Fin 2),
      Run (Step 1 0) (initial (Fin 2) 1) es g ∧ g.pc 0 = .returned := by
    obtain ⟨es, g, hrun, hret⟩ := exists_history_of_schedule (g := initial (Fin 2) 1)
      (P := fun _ g => g.pc 0 = .returned)
      (fun t pc sh (_ : Unit) => threadStep 1 (decide (t = (0 : Fin 2))) pc sh)
      ([1, 1, 0, 0, 0, 1, 1, 1, 1, 1, 1, 1, 0, 0, 0].map fun t => (t, ()))
      (by decide)
    exact ⟨es, g, hrun.mono fun _ _ _ h => by
      obtain ⟨c, hst⟩ := h
      exact .mk hst, hret⟩
  have happlied := (apply_run_iff (by decide) (by decide)).mpr (by decide) es g hrun
  obtain ⟨hsignals, hcalls⟩ := happlied.returned hret
  exact ⟨es, g, hrun, hret, (hcalls 0 (by decide)).1, hsignals, happlied.freedOnce⟩

/-- **The index wraps around.** With 2^64 - 1 iterations and two threads the function can be called
twice for the index 0. -/
theorem apply_wraps : ∃ es, ∃ g : State (Fin 2),
    Run (Step (2 ^ 64 - 1) 0) (initial (Fin 2) (2 ^ 64 - 1)) es g ∧ 2 ≤ amount (calls 0) es :=
  calls_twice 0 (by norm_num) (by norm_num) (by norm_num)

end Apple.Dispatch.Apply
