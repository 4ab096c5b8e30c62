import Apple.Dispatch.Group

/-!
# Waiting for a group

`dg_waiters` and the kernel semaphore do not say for which round of enters and leaves they
count. A thread in `_dispatch_group_wake` may therefore wake a thread that began to wait in
the next round, whose `dg_value` has not been zero: `groupWait_early`.

Result: `groupWait_run`, for runs in which a round begins only when the signals of the round
before have been sent and consumed.
-/

namespace Apple.Dispatch.Group

open Apple.Lib Function

variable {ι ν : Type*}

/-- In `_dispatch_group_wake`, before all its signals are sent. -/
def Pc.wakes : Pc ν → Bool
  | .wakeHead _ | .wakeTail _ _ | .wakeWaiters _ _ _ | .wakeSignal _ _ _ _ => true
  | _ => false

/-- A step of thread `t` from `g` does not begin a round too early: if it is an enter that finds
`dg_value` at zero, then no thread is about to signal waiters and no signal is left. -/
def RoundOver (g : State ι ν) (t : ι) : Prop :=
  g.pc t = .enter → g.shared.value = 0 →
    g.shared.sema = 0 ∧ ∀ u, (g.pc u).wakes = false

instance [Fintype ι] [DecidableEq ν] (g : State ι ν) (t : ι) : Decidable (RoundOver g t) :=
  inferInstanceAs (Decidable (g.pc t = .enter → g.shared.value = 0 →
    g.shared.sema = 0 ∧ ∀ u, (g.pc u).wakes = false))

/-- `dg_value` was 0 at a moment since thread `t` last called `dispatch_group_wait`. -/
def ZeroDuringWait (t : ι) (es : List (ι × Entry ν)) : Prop :=
  ∃ es₁ x es₂, es = es₁ ++ x :: es₂ ∧ x.2.value = 0 ∧
    ∀ y ∈ es₂, ¬ (y.1 = t ∧ y.2.event = .waitBegan)

/-! ## Steps -/

/-- In a `_dispatch_group_wake` that `dispatch_group_wait` has called. -/
def Pc.wakesSelf : Pc ν → Bool
  | .wakeHead wake | .wakeTail wake _ | .wakeWaiters wake _ _ | .wakeSignal wake _ _ _
  | .wakeNext wake _ _ | .wakeSubmit wake _ _ _ | .wakeRelease wake _ => wake.after ≠ .ret
  | _ => false

/-- What a step does to `dg_value`, the semaphore, the threads that wake and the calls of
`dispatch_group_wait`. -/
structure SignalEffect (e : Event ν) (pc pc' : Pc ν) (sh sh' : Shared ν) : Prop where
  value : sh'.crashed = false → sh'.value ≠ 0 → sh.value ≠ 0 ∨ pc = .enter ∧ sh.value = 0
  wakes : pc'.wakes = true → pc.wakes = true ∨ sh'.value = 0
  sema : sh'.sema ≤ sh.sema ∨ pc.wakes = true
  began : e = .waitBegan → pc = .idle ∧ pc'.wakesSelf = false
  wakesSelf : pc'.wakesSelf = true → pc.wakesSelf = true ∨ pc ≠ .idle ∧ sh.value = 0
  returned : e = .waitReturned true →
    pc.wakesSelf = true ∨ pc ≠ .idle ∧ (sh.value = 0 ∨ sh.sema > 0)

section Steps

variable {pc pc' : Pc ν} {sh sh' : Shared ν} {c : Choice ν} {e : Event ν}

/-- **Inversion** of a step. -/
theorem threadStep_signal [DecidableEq ν] (h : threadStep pc sh c = some (e, pc', sh')) :
    SignalEffect e pc pc' sh sh' := by
  refine threadStep_elim h (fun hpc h => ?_) (fun h => ?_) (fun hpc h => ?_) (fun h => ?_)
    (fun h => ?_) fun h => ?_
  on_goal 1 => unfold callStep at h
  on_goal 2 => unfold enterStep crash at h
  on_goal 3 =>
    unfold leaveStep crash at h
    simp only at h
  on_goal 4 => unfold wakeStep wakeReturn Pc.afterSignal Pc.afterSubmit at h
  on_goal 5 => unfold waitStep takeWakeup Timeout.pc at h
  on_goal 6 => unfold notifyStep at h
  all_goals
    repeat' split at h
    all_goals cases h
    all_goals constructor <;> simp_all [Pc.wakes, Pc.wakesSelf]
  omega

end Steps

/-! ## Runs -/

/-- The entries of calls of `dispatch_group_wait` by `t`. -/
def waitBegins [DecidableEq ι] [DecidableEq ν] (t : ι) (x : ι × Entry ν) : Bool :=
  x.1 = t ∧ x.2.event = .waitBegan

/-- The entries with `dg_value` at zero. -/
def isZero (x : ι × Entry ν) : Bool := x.2.value = 0

/-- **Invariant** of the group and the calls under way. -/
structure WaitInv [DecidableEq ι] [DecidableEq ν] (es : List (ι × Entry ν)) (g : State ι ν) :
    Prop where
  /-- While a round is under way there are no signals of the round before. -/
  quiet : g.shared.value ≠ 0 → g.shared.sema = 0 ∧ ∀ t, (g.pc t).wakes = false
  zero : g.shared.value = 0 → ∀ t, g.pc t ≠ .idle → since (waitBegins t) isZero es = true
  wakesSelf : ∀ t, (g.pc t).wakesSelf = true → since (waitBegins t) isZero es = true

section Runs

variable [DecidableEq ι] [DecidableEq ν] {es : List (ι × Entry ν)} {g g' : State ι ν}

theorem zeroDuringWait_iff {t : ι} :
    since (waitBegins t) isZero es = true ↔ ZeroDuringWait t es := by
  rw [since_iff]
  simp [ZeroDuringWait, isZero, waitBegins]

theorem waitInv_start (count : ℕ) : WaitInv [] (start ι ν count) := by
  refine ⟨fun _ => ⟨rfl, fun _ => rfl⟩, fun _ t ht => absurd rfl ht, fun t ht => ?_⟩
  cases ht

/-- An entry of `t` does not begin a wait of another thread. -/
theorem waitBegins_of_ne {t u : ι} {e : Entry ν} (hut : u ≠ t) : waitBegins u (t, e) = false := by
  simp [waitBegins, Ne.symm hut]

/-- **Step lemma.** -/
theorem waitInv_step (h : WaitInv es g) {x : ι × Entry ν} (hover : RoundOver g x.1)
    (hstep : Step g x g') (hcrash : g'.shared.crashed = false) : WaitInv (es ++ [x]) g' := by
  obtain ⟨hstep⟩ := hstep
  rename_i t e pc' sh'
  obtain ⟨c, hc⟩ := hstep
  obtain ⟨hc, hvalue⟩ := recordedStep_eq_some hc
  have heffect := threadStep_signal hc
  refine ⟨fun hne => ?_, fun hzero u _ => ?_, fun u hu => ?_⟩
  · -- the round was under way before, or it begins now
    obtain ⟨hsema, hwakes⟩ : g.shared.sema = 0 ∧ ∀ u, (g.pc u).wakes = false := by
      rcases heffect.value hcrash hne with hne' | ⟨henter, hzero⟩
      · exact h.quiet hne'
      · exact hover henter hzero
    constructor
    · rcases heffect.sema with hle | hwake
      · show sh'.sema = 0
        omega
      · rw [hwakes t] at hwake
        cases hwake
    · refine (forall_update_iff g.pc fun _ pc => pc.wakes = false).mpr ⟨?_, fun u _ => hwakes u⟩
      by_contra hwake
      rcases heffect.wakes (by simpa using hwake) with hwake' | hzero
      · rw [hwakes t] at hwake'
        cases hwake'
      · exact hne hzero
  · apply since_snoc_of_hit
    simp only [isZero, hvalue, decide_eq_true_eq]
    exact hzero
  · change (update g.pc t pc' u).wakesSelf = true at hu
    by_cases hut : u = t
    · subst hut
      rw [update_self] at hu
      have hreset : waitBegins u (u, e) = false := by
        simp only [waitBegins, true_and, decide_eq_false_iff_not]
        intro hbegan
        rw [(heffect.began hbegan).2] at hu
        cases hu
      apply since_snoc_of_not_reset hreset
      rcases heffect.wakesSelf hu with hself | ⟨hidle, hzero⟩
      · exact h.wakesSelf u hself
      · exact h.zero hzero u hidle
    · rw [update_of_ne hut] at hu
      exact since_snoc_of_not_reset (waitBegins_of_ne hut) (h.wakesSelf u hu)

/-- A step from a state that has not crashed. -/
theorem not_crashed_of_step {x : ι × Entry ν} (hstep : Step g x g') : g.shared.crashed = false := by
  obtain ⟨c, hc⟩ := hstep
  have hc' := (recordedStep_eq_some hc).1
  unfold threadStep at hc'
  split_ifs at hc' with hcrash
  exact Bool.eq_false_iff.mpr hcrash

/-- **Waiting for a group.** In every run of any number of threads in which each enter that finds
`dg_value` at zero is executed when no thread is in `_dispatch_group_wake` before its signals
and no signal is left in the semaphore, a `dispatch_group_wait` returns 0 only after a moment
of the call at which `dg_value` was 0. -/
theorem groupWait_run {count : ℕ} {t : ι} {v : ℤ}
    (hrun : Run (fun g x g' => Step g x g' ∧ RoundOver g x.1) (start ι ν count) es g)
    (hstep : Step g (t, ⟨.waitReturned true, v⟩) g') : ZeroDuringWait t es := by
  have hcrash := not_crashed_of_step hstep
  have hinv : g.shared.crashed = false → WaitInv es g := by
    refine hrun.history (I := fun es g => g.shared.crashed = false → WaitInv es g) ?_
      fun _ => waitInv_start count
    rintro es g x g' ih ⟨hst, hover⟩ hcrash'
    exact waitInv_step (ih (not_crashed_of_step hst)) hover hst hcrash'
  have h := hinv hcrash
  obtain ⟨c, hc⟩ := hstep
  have heffect := threadStep_signal (recordedStep_eq_some hc).1
  rw [← zeroDuringWait_iff]
  rcases heffect.returned rfl with hself | ⟨hidle, hzero⟩
  · exact h.wakesSelf t hself
  · refine h.zero ?_ t hidle
    by_contra hne
    have hsema := (h.quiet hne).1
    omega

end Runs

/-- One thread enters and leaves, another waits in between. -/
theorem groupWait_run_oneRound : ∃ es, ∃ g g' : State (Fin 2) Unit,
      Run (fun g x g' => Step g x g' ∧ RoundOver g x.1) (start (Fin 2) Unit 0) es g ∧
      Step g (1, ⟨.waitReturned true, 0⟩) g' ∧ ZeroDuringWait 1 es := by
  obtain ⟨es, g, g', hrun, hstep, -⟩ := exists_step_of_scheduleIf (fun _ => recordedStep) RoundOver
    [(0, .enter), (0, .go), (0, .go), (1, .wait .forever), (1, .go), (1, .go), (1, .go), (1, .go),
      (0, .leave), (0, .go), (0, .go), (0, .go), (0, .go)]
    (g := start (Fin 2) Unit 0) 1 .go (e := ⟨.waitReturned true, 0⟩) (P := fun _ => True) (by decide)
  exact ⟨es, g, g', hrun, hstep, groupWait_run hrun hstep⟩

/-- Thread 0 leaves the group and is about to take `dg_waiters`. Thread 1 enters, and thread 2
begins to wait for it. Then thread 0 takes `dg_waiters` and wakes thread 2. -/
theorem groupWait_early : ∃ es, ∃ g g' : State (Fin 3) Unit, Run Step (start (Fin 3) Unit 0) es g ∧
      Step g (2, ⟨.waitReturned true, 1⟩) g' ∧ ¬ ZeroDuringWait 2 es := by
  obtain ⟨es, g, g', hrun, hstep, hzero⟩ := exists_step_of_scheduleIf (fun _ => recordedStep)
    (fun _ _ => True) [(0, .enter), (0, .go), (0, .go), (0, .leave), (0, .go), (0, .go),
      (1, .enter), (1, .go), (1, .go),
      (2, .wait .forever), (2, .go), (2, .go), (2, .go), (2, .go), (0, .go), (0, .go)]
    (g := start (Fin 3) Unit 0) 2 .go (e := ⟨.waitReturned true, 1⟩)
    (P := fun es => since (waitBegins 2) isZero es = false) (by decide)
  refine ⟨es, g, g', hrun.mono fun _ _ _ h => h.1, hstep, ?_⟩
  rw [← zeroDuringWait_iff, hzero]
  simp

end Apple.Dispatch.Group
