import Mathlib.Algebra.BigOperators.Group.List.Basic
import Mathlib.Logic.Function.Basic
import Mathlib.Tactic

/-!
# Runs of labelled transition systems

A step relation `step s e t` says that the system goes from `s` to `t` with event
`e`. `Run step s es t` is a finite run with the events `es`, in order. The rules
below turn facts about one step into facts about runs: invariants, balances of
counters, events that happen at most once, events that a stable condition rules out.

The second part is about systems of threads: a local state for each thread, one
shared state, and steps of single threads in any order. Their invariants have a
part `G` about the shared state and a part `I t` about each thread, and follow from
what a thread's step does to its own part and to the parts of the others.
-/

namespace Apple.Lib

open List

variable {σ ε : Type*}

/-- A run from `s` to `t` with the events `es`. -/
inductive Run (step : σ → ε → σ → Prop) : σ → List ε → σ → Prop
  | nil (s : σ) : Run step s [] s
  | snoc {s t u : σ} {es : List ε} {e : ε} :
      Run step s es t → step t e u → Run step s (es ++ [e]) u

namespace Run

variable {step : σ → ε → σ → Prop} {s t u : σ} {es fs : List ε} {e : ε} {I Q : σ → Prop} {m : σ → ℕ}

theorem single (h : step s e t) : Run step s [e] t := Run.snoc (Run.nil s) h

section

variable (h : Run step s es t)
include h

theorem append (h' : Run step t fs u) : Run step s (es ++ fs) u := by
  induction h' with
  | nil => simpa using h
  | snoc _ hstep ih =>
    rw [← append_assoc]
    exact Run.snoc ih hstep

omit h in
theorem cons (h : step s e t) (h' : Run step t es u) : Run step s (e :: es) u :=
  (single h).append h'

/-- Steps with more behaviour have more runs. -/
theorem mono {step' : σ → ε → σ → Prop} (himp : ∀ s e t, step s e t → step' s e t) :
    Run step' s es t := by
  induction h with
  | nil => exact Run.nil _
  | snoc _ hstep ih => exact Run.snoc ih (himp _ _ _ hstep)

/-- **History rule.** An invariant of the events so far and the state. -/
theorem history {I : List ε → σ → Prop} (hstep : ∀ es s e t, I es s → step s e t → I (es ++ [e]) t)
    (h0 : I [] s) : I es t := by
  induction h with
  | nil => exact h0
  | snoc _ hst ih => exact hstep _ _ _ _ ih hst

/-- **Invariant rule.** -/
theorem invariant (hstep : ∀ s e t, I s → step s e t → I t) (h0 : I s) : I t := by
  induction h with
  | nil => exact h0
  | snoc _ hst ih => exact hstep _ _ _ ih hst

/-- Along a run from a state with an invariant, the steps may be taken to start from states
with that invariant. -/
theorem strengthen (hstep : ∀ s e t, I s → step s e t → I t)
    (h0 : I s) : Run (fun s e t => I s ∧ step s e t) s es t := by
  induction h with
  | nil => exact Run.nil _
  | snoc hrun hst ih => exact Run.snoc ih ⟨hrun.invariant hstep h0, hst⟩

/-- **Balance rule.** If each step moves the measure `m` by `up e - down e`, a run moves it
by the sums over its events. -/
theorem balance {up down : ε → ℕ} (hstep : ∀ s e t, step s e t → m t + down e = m s + up e) :
    m t + (es.map down).sum = m s + (es.map up).sum := by
  induction h with
  | nil => simp
  | snoc _ hst ih =>
    have := hstep _ _ _ hst
    simp only [map_append, sum_append, map_cons, map_nil, sum_cons]
    omega

/-- **Potential rule.** If each event of the kind `p` takes one from the measure `m` and only
events of the kind `q` add to it, at most one each, a run has at most as many events of the
kind `p` as its start and its events of the kind `q` pay for. -/
theorem countP_le {p q : ε → Bool}
    (hstep : ∀ s e t, step s e t → m t + (if p e then 1 else 0) ≤ m s + if q e then 1 else 0) :
    m t + es.countP p ≤ m s + es.countP q := by
  induction h with
  | nil => simp
  | snoc _ hst ih =>
    have := hstep _ _ _ hst
    rw [countP_append, countP_append, countP_singleton, countP_singleton]
    omega

/-- Events that a stable condition rules out do not happen once it holds. -/
theorem not_of_stable {P : ε → Prop} (hstable : ∀ s e t, Q s → step s e t → Q t)
    (hexcl : ∀ s e t, Q s → step s e t → ¬ P e) (h0 : Q s) : ∀ e ∈ es, ¬ P e := by
  induction h with
  | nil => simp
  | snoc hrun hst ih =>
    rw [forall_mem_append, forall_mem_singleton]
    exact ⟨ih, hexcl _ _ _ (hrun.invariant hstable h0) hst⟩

end

/-- **At most once.** An event that happens only while a stable condition does not hold, and
that makes it hold, happens at most once. -/
theorem countP_le_one {P : ε → Bool} (hstable : ∀ s e t, Q s → step s e t → Q t)
    (hexcl : ∀ s e t, Q s → step s e t → ¬ P e = true)
    (hmake : ∀ s e t, step s e t → P e = true → Q t) (h : Run step s es t) :
    es.countP P ≤ 1 ∧ (0 < es.countP P → Q t) := by
  induction h with
  | nil => simp
  | @snoc t u es e hrun hst ih =>
    obtain ⟨hle, hQ⟩ := ih
    rw [countP_append, countP_singleton]
    by_cases hP : P e = true
    · have h0 : es.countP P = 0 := by
        by_contra hne
        exact hexcl _ _ _ (hQ (Nat.pos_of_ne_zero hne)) hst hP
      rw [if_pos hP, h0]
      exact ⟨le_rfl, fun _ => hmake _ _ _ hst hP⟩
    · rw [if_neg hP]
      exact ⟨hle, fun hpos => hstable _ _ _ (hQ hpos) hst⟩

/-- A run of a step function. -/
theorem of_foldlM {f : σ → ε → Option σ} (hf : ∀ s e t, f s e = some t → step s e t) :
    es.foldlM f s = some t → Run step s es t := by
  induction es generalizing s with
  | nil =>
    intro h
    cases h
    exact Run.nil _
  | cons e es ih =>
    intro h
    obtain ⟨u, hu, hrest⟩ := Option.bind_eq_some_iff.mp h
    exact Run.cons (hf _ _ _ hu) (ih hrest)

end Run

/-! ## Since -/

/-- Whether an event with `hit` has happened since the last event with `reset`, this one included. -/
def since (reset hit : ε → Bool) (es : List ε) : Bool :=
  es.foldl (fun seen e => if reset e then hit e else seen || hit e) false

section Since

variable {reset hit : ε → Bool} {es : List ε} {e : ε}

theorem since_snoc : since reset hit (es ++ [e]) =
    if reset e then hit e else since reset hit es || hit e := by
  simp only [since, foldl_append, foldl_cons, foldl_nil]

theorem since_snoc_of_hit (h : hit e = true) : since reset hit (es ++ [e]) = true := by
  simp [since_snoc, h]

theorem since_snoc_of_not_reset (h : reset e = false) (hsince : since reset hit es = true) :
    since reset hit (es ++ [e]) = true := by
  simp [since_snoc, h, hsince]

/-- The event with `hit`, and the events after it. -/
theorem since_iff : since reset hit es = true ↔
    ∃ es₁ e es₂, es = es₁ ++ e :: es₂ ∧ hit e = true ∧ ∀ x ∈ es₂, reset x = false := by
  constructor
  · intro h
    induction es using List.reverseRecOn with
    | nil => cases h
    | append_singleton es x ih =>
      rw [since_snoc] at h
      by_cases hx : hit x = true
      · exact ⟨es, x, [], rfl, hx, by simp⟩
      · have hreset : reset x = false := by
          by_contra hreset
          rw [Bool.not_eq_false] at hreset
          rw [if_pos hreset] at h
          exact hx h
        obtain ⟨es₁, e, es₂, rfl, he, hes₂⟩ := ih (by simpa [hreset, hx] using h)
        refine ⟨es₁, e, es₂ ++ [x], by simp, he, ?_⟩
        rw [forall_mem_append, forall_mem_singleton]
        exact ⟨hes₂, hreset⟩
  · rintro ⟨es₁, e, es₂, rfl, he, hes₂⟩
    induction es₂ using List.reverseRecOn with
    | nil => exact since_snoc_of_hit he
    | append_singleton es₂ x ih =>
      rw [← cons_append, ← append_assoc]
      exact since_snoc_of_not_reset (hes₂ x (by simp)) (ih fun y hy => hes₂ y (by simp [hy]))

end Since

/-! ## Threads -/

variable {ι π : Type*}

/-- The local states of all threads and the shared state. -/
structure Threads (ι π σ : Type*) where
  pc : ι → π
  shared : σ

/-- `t` makes one step. -/
inductive Interleave [DecidableEq ι] (step : ι → π → σ → ε → π → σ → Prop) :
    Threads ι π σ → ι × ε → Threads ι π σ → Prop
  | mk {g : Threads ι π σ} {t : ι} {e : ε} {p : π} {s : σ} :
      step t (g.pc t) g.shared e p s →
      Interleave step g (t, e) ⟨Function.update g.pc t p, s⟩

namespace Interleave

variable [DecidableEq ι] {step : ι → π → σ → ε → π → σ → Prop}

/-- **Thread-modular invariants.** -/
theorem invariant {G : σ → Prop} {I : ι → π → σ → Prop}
    (hown : ∀ t p s e p' s', G s → I t p s → step t p s e p' s' → G s' ∧ I t p' s')
    (hother : ∀ t p s e p' s' u q, u ≠ t → G s → I t p s → I u q s → step t p s e p' s' → I u q s')
    (g : Threads ι π σ) (e : ι × ε) (g' : Threads ι π σ)
    (h : G g.shared ∧ ∀ t, I t (g.pc t) g.shared) (hstep : Interleave step g e g') :
    G g'.shared ∧ ∀ t, I t (g'.pc t) g'.shared := by
  obtain ⟨hG, hI⟩ := h
  cases hstep with
  | @mk t e p s hst =>
  obtain ⟨hG', hI'⟩ := hown _ _ _ _ _ _ hG (hI t) hst
  refine ⟨hG', fun u => ?_⟩
  by_cases hu : u = t
  · subst hu
    simpa using hI'
  · simpa [Function.update_of_ne hu] using hother _ _ _ _ _ _ u _ hu hG (hI t) (hI u) hst

end Interleave

/-! ### Schedules -/

section Schedules

variable {γ : Type*} [DecidableEq ι] (f : ι → π → σ → γ → Option (ε × π × σ))

/-- Execute the steps of a schedule: which thread moves, and with which choice. -/
def runSchedule (g : Threads ι π σ) : List (ι × γ) → Option (List (ι × ε) × Threads ι π σ)
  | [] => some ([], g)
  | (t, c) :: schedule =>
    match f t (g.pc t) g.shared c with
    | none => none
    | some (e, p, s) =>
      match runSchedule ⟨Function.update g.pc t p, s⟩ schedule with
      | none => none
      | some (es, g') => some ((t, e) :: es, g')

variable (ok : Threads ι π σ → ι → Prop) [∀ g t, Decidable (ok g t)]

/-- Execute the steps of a schedule as long as they meet the condition `ok`. -/
def runScheduleIf (g : Threads ι π σ) : List (ι × γ) → Option (List (ι × ε) × Threads ι π σ)
  | [] => some ([], g)
  | (t, c) :: schedule =>
    if ok g t then
      match f t (g.pc t) g.shared c with
      | none => none
      | some (e, p, s) =>
        match runScheduleIf ⟨Function.update g.pc t p, s⟩ schedule with
        | none => none
        | some (es, g') => some ((t, e) :: es, g')
    else none

theorem run_of_runScheduleIf {schedule : List (ι × γ)} :
    ∀ {g g' : Threads ι π σ} {es : List (ι × ε)}, runScheduleIf f ok g schedule = some (es, g') →
      Run (fun g x g' => Interleave (fun t p s e p' s' => ∃ c, f t p s c = some (e, p', s')) g x g' ∧
        ok g x.1) g es g' := by
  induction schedule with
  | nil =>
    intro g g' es h
    cases h
    exact Run.nil _
  | cons tc schedule ih =>
    intro g g' es h
    obtain ⟨t, c⟩ := tc
    rw [runScheduleIf] at h
    split_ifs at h with hok
    split at h
    · cases h
    next e p s hstep =>
      split at h
      · cases h
      next es' g'' hrest =>
        cases h
        exact Run.cons ⟨.mk ⟨c, hstep⟩, hok⟩ (ih hrest)

variable (schedule : List (ι × γ)) {g : Threads ι π σ} {P : List (ι × ε) → Threads ι π σ → Prop}

/-- Events and a state with the property `P` are reached by a schedule of steps with `ok` that
ends in them. -/
theorem exists_history_of_scheduleIf [∀ es g, Decidable (P es g)]
    (h : (runScheduleIf f ok g schedule).any (fun r => decide (P r.1 r.2)) = true) :
    ∃ es g', Run (fun g x g' =>
      Interleave (fun t p s e p' s' => ∃ c, f t p s c = some (e, p', s')) g x g' ∧ ok g x.1) g es g' ∧
      P es g' := by
  obtain ⟨⟨es, g'⟩, hrun, hP⟩ := (Option.any_eq_true ..).mp h
  exact ⟨es, g', run_of_runScheduleIf f ok hrun, of_decide_eq_true hP⟩

/-- A schedule of steps with `ok` that have the events `P` leads to the event `e` of `t`. -/
theorem exists_step_of_scheduleIf [DecidableEq ε] (t : ι) (c : γ) {e : ε}
    {P : List (ι × ε) → Prop} [DecidablePred P] (h : (runScheduleIf f ok g schedule).any (fun r =>
      decide ((f t (r.2.pc t) r.2.shared c).map Prod.fst = some e ∧ P r.1)) = true) :
    ∃ es g' g'', Run (fun g x g' =>
      Interleave (fun t p s e p' s' => ∃ c, f t p s c = some (e, p', s')) g x g' ∧ ok g x.1) g es g' ∧
      Interleave (fun t p s e p' s' => ∃ c, f t p s c = some (e, p', s')) g' (t, e) g'' ∧ P es := by
  obtain ⟨es, g', hrun, hf, hP⟩ := exists_history_of_scheduleIf f ok schedule
    (P := fun es g => (f t (g.pc t) g.shared c).map Prod.fst = some e ∧ P es) h
  obtain ⟨⟨_, p, s⟩, hstep, rfl⟩ := Option.map_eq_some_iff.mp hf
  exact ⟨es, g', _, hrun, .mk ⟨c, hstep⟩, hP⟩

theorem runSchedule_eq (g : Threads ι π σ) (schedule : List (ι × γ)) :
    runSchedule f g schedule = runScheduleIf f (fun _ _ => True) g schedule := by
  induction schedule generalizing g with
  | nil => rfl
  | cons tc schedule ih => simp only [runSchedule, runScheduleIf, if_true, ih]

/-- Events and a state with the property `P` are reached by a schedule that ends in them. -/
theorem exists_history_of_schedule [∀ es g, Decidable (P es g)]
    (h : (runSchedule f g schedule).any (fun r => decide (P r.1 r.2)) = true) :
    ∃ es g', Run (Interleave fun t p s e p' s' => ∃ c, f t p s c = some (e, p', s')) g es g' ∧
      P es g' := by
  rw [runSchedule_eq] at h
  obtain ⟨es, g', hrun, hP⟩ := exists_history_of_scheduleIf f _ schedule h
  exact ⟨es, g', hrun.mono fun _ _ _ hstep => hstep.1, hP⟩

/-- A state with the property `P` is reached by a schedule that ends in one. -/
theorem exists_run_of_schedule {P : Threads ι π σ → Prop} [DecidablePred P]
    (h : (runSchedule f g schedule).any (fun r => decide (P r.2)) = true) :
    ∃ es g', Run (Interleave fun t p s e p' s' => ∃ c, f t p s c = some (e, p', s')) g es g' ∧
      P g' :=
  exists_history_of_schedule f schedule h

end Schedules

end Apple.Lib
