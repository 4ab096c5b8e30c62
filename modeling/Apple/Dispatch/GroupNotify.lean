import Apple.Dispatch.GroupWait
import Apple.Lib.SharedList

/-!
# Notifications of a group

The list of notifications is a list with many producers and snapshots: every step of a thread
is a step of `SharedList`, for what it does with `dg_notify_head`, `dg_notify_tail` and
the continuations. The references that the group takes on itself pay for the value being above
zero and for the list not being empty.

`_dispatch_group_wake` does not know in which round of enters and leaves a notification was
pushed. A thread that is about to take the list may submit a notification of the next
round, after whose push `dg_value` has not been zero: `notify_early`.

Result: `notify_run`.
-/

namespace Apple.Dispatch.Group

open Apple.Lib Function

variable {ι ν : Type*}

/-! ## The list -/

/-- What a thread does with the list. -/
def Pc.role : Pc ν → SharedList.Role ν
  | .notifyPush dsn => .making dsn
  | .notifyLink prev dsn => .linking prev dsn
  | .notifyRetain dsn | .notifyHead dsn | .wakeTail _ dsn => .keeping dsn
  | .wakeWaiters _ (some head) tail | .wakeSignal _ (some head) tail _
  | .wakeNext _ head tail => .walking head tail
  | .wakeSubmit _ head next tail => .popping head next tail
  | _ => .idle

/-- The memory of the list. -/
def Shared.list (sh : Shared ν) : SharedList.Mem ν :=
  ⟨sh.notifyHead, sh.notifyTail, sh.doNext, sh.allocated⟩

/-- What an event does with the list. -/
def Event.act : Event ν → SharedList.Act ν
  | .pushed dsn => .push dsn
  | .submitted dsn => .remove dsn
  | _ => .silent

/-- The list and what the threads do with it. -/
def listView (g : State ι ν) : Threads ι (SharedList.Role ν) (SharedList.Mem ν) :=
  ⟨fun t => (g.pc t).role, g.shared.list⟩

theorem role_afterSignal (wake : Wake) (head tail : Option ν) :
    (Pc.afterSignal wake head tail).role = (Pc.wakeWaiters wake head tail).role := by
  cases head <;> rfl

theorem role_wakeSignal (wake : Wake) (head tail : Option ν) (count : ℕ) :
    (Pc.wakeSignal wake head tail count).role = (Pc.wakeWaiters wake head tail).role := by
  cases head <;> rfl

theorem role_afterSubmit (wake : Wake) (next tail : Option ν) :
    (Pc.afterSubmit wake next tail).role = .goOn next tail := by
  cases next <;> rfl

section Steps

variable [DecidableEq ν] {pc pc' : Pc ν} {sh sh' : Shared ν} {c : Choice ν} {e : Event ν}

theorem wakeStep_list (h : wakeStep sh pc = some (e, pc', sh')) :
    SharedList.Step pc.role sh.list e.act pc'.role sh'.list := by
  cases pc with
  | wakeHead wake =>
    simp only [wakeStep] at h
    split at h
    · cases h
      exact .other _ _
    next head hhead =>
      cases h
      exact .takeHead hhead
  | wakeTail wake head =>
    cases h
    exact .takeTail head sh.list
  | wakeWaiters wake head tail =>
    simp only [wakeStep] at h
    split_ifs at h <;> cases h
    · rw [role_afterSignal]
      exact .other _ _
    · rw [role_wakeSignal]
      exact .other _ _
  | wakeSignal wake head tail count =>
    cases h
    split_ifs
    · rw [role_afterSignal, role_wakeSignal]
      exact .other _ _
    · rw [role_wakeSignal, role_wakeSignal]
      exact .other _ _
  | wakeNext wake head tail =>
    simp only [wakeStep] at h
    split_ifs at h with htail
    · cases h
      rw [htail]
      exact .nextLast head sh.list
    · split at h
      · cases h
      next next hnext =>
        cases h
        exact .next htail hnext
  | wakeSubmit wake head next tail =>
    cases h
    rw [role_afterSubmit]
    exact .remove head next tail sh.list
  | wakeRelease wake refs =>
    unfold wakeStep wakeReturn at h
    simp only at h
    split at h <;> cases h <;> exact .other _ _
  | _ => cases h

theorem notifyStep_list (h : notifyStep sh pc = some (e, pc', sh')) :
    SharedList.Step pc.role sh.list e.act pc'.role sh'.list := by
  cases pc with
  | notifyPush dsn =>
    simp only [notifyStep] at h
    cases htail : sh.notifyTail with
    | none =>
      rw [htail] at h
      cases h
      exact .pushFirst htail
    | some prev =>
      rw [htail] at h
      cases h
      exact .pushNext htail
  | notifyLink prev dsn =>
    cases h
    exact .link prev dsn sh.list
  | notifyRetain dsn =>
    cases h
    exact .other _ _
  | notifyHead dsn =>
    cases h
    exact .storeHead dsn sh.list
  | notifyCheck =>
    simp only [notifyStep] at h
    split_ifs at h <;> cases h <;> exact .other _ _
  | _ => cases h

theorem waitStep_list (h : waitStep sh c pc = some (e, pc', sh')) :
    SharedList.Step pc.role sh.list e.act pc'.role sh'.list := by
  unfold waitStep takeWakeup Timeout.pc at h
  repeat' split at h
  all_goals cases h
  all_goals exact .other _ _

/-- **Every step of a thread is a step of the list.** -/
theorem threadStep_list (h : threadStep pc sh c = some (e, pc', sh')) :
    SharedList.Step pc.role sh.list e.act pc'.role sh'.list := by
  refine threadStep_elim h (fun hpc hs => ?_) (fun h => ?_) (fun hpc hs => ?_) wakeStep_list
    waitStep_list notifyStep_list
  · subst hpc
    unfold callStep at hs
    repeat' split at hs
    all_goals cases hs
    case h_4.isFalse hallocated => exact .make (Bool.eq_false_iff.mpr hallocated)
    all_goals exact .other _ _
  · unfold enterStep crash at h
    repeat' split at h
    all_goals cases h
    all_goals exact .other _ _
  · subst hpc
    unfold leaveStep crash at hs
    simp only at hs
    split_ifs at hs <;> cases hs <;> exact .other _ _

end Steps

/-! ## References -/

/-- The enters that are in `dg_value` and not in `entered`. -/
def Pc.inFlight : Pc ν → ℕ
  | .enterRetain | .leave => 1
  | _ => 0

/-- The references that a thread will take for an enter. -/
def Pc.enterRetains : Pc ν → ℕ
  | .enterRetain => 1
  | _ => 0

/-- The references that a thread will take for a notification. -/
def Pc.notifyRetains : Pc ν → ℕ
  | .notifyRetain _ => 1
  | _ => 0

/-- The references that a thread will release. -/
def Pc.releases : Pc ν → ℕ
  | .wakeHead wake | .wakeTail wake _ | .wakeWaiters wake none _
  | .wakeSignal wake none _ _ => wake.refs
  | .wakeWaiters wake (some _) _ | .wakeSignal wake (some _) _ _ | .wakeNext wake _ _
  | .wakeSubmit wake _ _ _ => wake.refs + 1
  | .wakeRelease _ refs => refs
  | _ => 0

/-- What the references are for: a value above zero, and a list that is not empty. -/
def Shared.due (sh : Shared ν) : ℕ :=
  (if 0 < sh.value then 1 else 0) + if sh.notifyTail = none then 0 else 1

/-- The account of a step. -/
structure RefsEffect (pc pc' : Pc ν) (sh sh' : Shared ν) : Prop where
  value : sh'.value + sh.entered + pc.inFlight = sh.value + sh'.entered + pc'.inFlight
  refs : sh'.refs + pc'.enterRetains + pc'.notifyRetains + sh.due + pc.releases =
    sh.refs + pc.enterRetains + pc.notifyRetains + sh'.due + pc'.releases
  enterRetains : pc'.enterRetains ≤ pc.enterRetains ∨ sh.value = 0 ∧ 0 < sh'.value

section Steps

variable {pc pc' : Pc ν} {sh sh' : Shared ν} {c : Choice ν} {e : Event ν}

/-- **The account of a step.** A leave finds the value of an enter, and a thread that has taken the
head of the list finds a tail. -/
theorem threadStep_refs [DecidableEq ν] (h : threadStep pc sh c = some (e, pc', sh'))
    (hvalue : pc = .leave → 0 < sh.value)
    (htail : ∀ wake head, pc = .wakeTail wake head → sh.notifyTail ≠ none) :
    RefsEffect pc pc' sh sh' := by
  refine threadStep_elim h (fun hpc h => ?_) (fun h => ?_) (fun hpc h => ?_) (fun h => ?_)
    (fun h => ?_) fun h => ?_
  on_goal 1 =>
    rw [hpc]
    unfold callStep at h
  on_goal 2 => unfold enterStep crash at h
  on_goal 3 =>
    rw [hpc]
    unfold leaveStep crash at h
    simp only at h
  on_goal 4 => unfold wakeStep wakeReturn Pc.afterSignal Pc.afterSubmit at h
  on_goal 5 => unfold waitStep takeWakeup Timeout.pc at h
  on_goal 6 => unfold notifyStep at h
  all_goals
    repeat' split at h
    all_goals cases h
    all_goals constructor
    all_goals simp only [Pc.inFlight, Pc.enterRetains, Pc.notifyRetains, Pc.releases, Shared.due]
    all_goals grind [Pc.releases, Wake.refs]

end Steps

/-! ## Taking the list -/

/-- About to take the list, or to find that `dg_value` is not zero. -/
def Pc.willTake : Pc ν → Bool
  | .wakeHead _ | .notifyCheck => true
  | _ => false

/-- In `_dispatch_group_wake`, before it has the list. -/
def Pc.captures : Pc ν → Bool
  | .wakeHead _ | .wakeTail _ _ => true
  | _ => false

/-- What a step does about a list that is there. -/
structure TakeEffect (pc pc' : Pc ν) (sh sh' : Shared ν) : Prop where
  pending : sh'.notifyHead ≠ none → sh'.value = 0 →
    pc'.willTake = true ∨ sh.notifyHead ≠ none ∧ sh.value = 0 ∧ pc.willTake = false
  captures : pc'.captures = true → pc.captures = true ∨ sh'.value = 0

variable {e : Event ν} {es : List (ι × Entry ν)} {n : ν}

theorem threadStep_take [DecidableEq ν] {pc pc' : Pc ν} {sh sh' : Shared ν} {c : Choice ν}
    (h : threadStep pc sh c = some (e, pc', sh')) : TakeEffect pc pc' sh sh' := by
  refine threadStep_elim h (fun hpc h => ?_) (fun h => ?_) (fun hpc h => ?_) (fun h => ?_)
    (fun h => ?_) fun h => ?_
  on_goal 1 =>
    unfold callStep at h
  on_goal 2 => unfold enterStep crash at h
  on_goal 3 =>
    unfold leaveStep crash at h
    simp only at h
  on_goal 4 => unfold wakeStep wakeReturn Pc.afterSignal Pc.afterSubmit at h
  on_goal 5 => unfold waitStep takeWakeup Timeout.pc at h
  on_goal 6 => unfold notifyStep at h
  all_goals
    repeat' split at h
    all_goals cases h
    all_goals constructor <;> simp_all [Pc.willTake, Pc.captures]
  all_goals omega

/-! ## Runs -/

/-- How often the notification was pushed. -/
def pushes [DecidableEq ν] (dsn : ν) (es : List (ι × Entry ν)) : ℕ :=
  es.countP fun x => x.2.event = .pushed dsn

/-- How often it was submitted to its queue. -/
def submits [DecidableEq ν] (dsn : ν) (es : List (ι × Entry ν)) : ℕ :=
  es.countP fun x => x.2.event = .submitted dsn

theorem pushes_snoc [DecidableEq ν] (n : ν) (x : ι × Entry ν) :
    pushes n (es ++ [x]) = pushes n es + if x.2.event = .pushed n then 1 else 0 := by
  simp [pushes]

theorem submits_snoc [DecidableEq ν] (n : ν) (x : ι × Entry ν) :
    submits n (es ++ [x]) = submits n es + if x.2.event = .submitted n then 1 else 0 := by
  simp [submits]

theorem act_eq_push : e.act = .push n ↔ e = .pushed n := by
  cases e <;> simp [Event.act]

theorem act_eq_remove : e.act = .remove n ↔ e = .submitted n := by
  cases e <;> simp [Event.act]

/-- A step of thread `t` from `g` does not begin a round too early: if it is an enter that finds
`dg_value` at zero, then no thread is about to take the list. -/
def SnapshotOver (g : State ι ν) (t : ι) : Prop :=
  g.pc t = .enter → g.shared.value = 0 → ∀ u, (g.pc u).captures = false

instance [Fintype ι] [DecidableEq ν] (g : State ι ν) (t : ι) : Decidable (SnapshotOver g t) :=
  inferInstanceAs (Decidable (g.pc t = .enter → g.shared.value = 0 →
    ∀ u, (g.pc u).captures = false))

/-- `dg_value` was 0 at a moment since the notification was last pushed. -/
def ZeroSincePush (dsn : ν) (es : List (ι × Entry ν)) : Prop :=
  ∃ es₁ x es₂, es = es₁ ++ x :: es₂ ∧ x.2.value = 0 ∧ ∀ y ∈ es₂, y.2.event ≠ .pushed dsn

/-- The entries of pushes of the notification. -/
def isPush [DecidableEq ν] (dsn : ν) (x : ι × Entry ν) : Bool := x.2.event = .pushed dsn

theorem zeroSincePush_iff [DecidableEq ν] :
    since (isPush n) isZero es = true ↔ ZeroSincePush n es := by
  rw [since_iff]
  simp [ZeroSincePush, isZero, isPush]

/-- **Invariant of the list**, for the lists `a` that the memory stands for. -/
structure ListInv [DecidableEq ν] (es : List (ι × Entry ν)) (g : State ι ν)
    (a : SharedList.Chains ι ν) : Prop where
  represents : SharedList.Represents a (listView g)
  listed : ∀ n, a.Listed n → pushes n es = submits n es + 1
  notListed : ∀ n, ¬ a.Listed n → pushes n es = submits n es

/-- **Invariant of the references.** -/
structure RefsInv (g : State ι ν) : Prop where
  active : FinitelyActive .idle g.pc
  value : g.shared.value = g.shared.entered + total Pc.inFlight g.pc
  refs : g.shared.refs + total Pc.enterRetains g.pc + total Pc.notifyRetains g.pc =
    g.shared.due + total Pc.releases g.pc
  enterRetains : total Pc.enterRetains g.pc ≤ if 0 < g.shared.value then 1 else 0
  taker : g.shared.notifyHead ≠ none → g.shared.value = 0 → ∃ t, (g.pc t).willTake = true

/-- **Invariant of rounds that do not overlap.** -/
structure RoundInv [DecidableEq ν] (es : List (ι × Entry ν)) (g : State ι ν)
    (a : SharedList.Chains ι ν) : Prop where
  quiet : g.shared.value ≠ 0 → ∀ t, (g.pc t).captures = false
  zero : g.shared.value = 0 → ∀ n, a.Listed n → since (isPush n) isZero es = true
  taken : ∀ t, ∀ n ∈ a.taken t, since (isPush n) isZero es = true

section Runs

theorem refsInv_start (count : ℕ) : RefsInv (start ι ν count) := by
  have hzero : ∀ w : Pc ν → ℕ, w .idle = 0 → total w (start ι ν count).pc = 0 :=
    fun w hw => total_eq_zero fun _ => hw
  refine ⟨finitelyActive_const _, ?_, ?_, ?_, fun hhead => absurd rfl hhead⟩
  · rw [hzero _ rfl]
    simp [start, groupCreateWithCount]
  · rw [hzero _ rfl, hzero _ rfl, hzero _ rfl]
    simp only [start, groupCreateWithCount, Shared.due]
    grind
  · rw [hzero _ rfl]
    exact zero_le

theorem listInv_start [DecidableEq ν] (count : ℕ) :
    ListInv [] (start ι ν count) (SharedList.Chains.empty ι ν) := by
  refine ⟨SharedList.represents_empty _, fun n hn => ?_, fun n _ => rfl⟩
  rcases hn with hn | ⟨t, hn⟩ <;> cases hn

variable {es : List (ι × Entry ν)} {g g' : State ι ν} {a : SharedList.Chains ι ν}

/-- While a thread has the head of the list, there is a tail. -/
theorem notifyTail_ne_none (hlist : SharedList.Represents a (listView g)) {t : ι} {n : ν}
    (hrole : (g.pc t).role = .keeping n) : g.shared.notifyTail ≠ none := by
  intro hnone
  have hhead := ((hlist.thread t).keeping n hrole).2
  have hlast : g.shared.notifyTail = a.batch.getLast? := hlist.mem.tail
  rw [hnone, eq_comm, List.getLast?_eq_none_iff] at hlast
  rw [hlast] at hhead
  cases hhead

/-- The references taken pay for those that are due. -/
theorem RefsInv.refs_nonneg (h : RefsInv g) (hlist : SharedList.Represents a (listView g)) :
    0 ≤ g.shared.refs := by
  have hkeeping : ∀ t, (g.pc t).notifyRetains ≠ 0 → ∃ n, (g.pc t).role = .keeping n := by
    intro t ht
    cases hpc : g.pc t <;> simp_all [Pc.notifyRetains, Pc.role]
  have hnotify : total Pc.notifyRetains g.pc ≤ if g.shared.notifyTail = none then 0 else 1 := by
    split_ifs with htail
    · refine (total_eq_zero fun t => ?_).le
      by_contra ht
      obtain ⟨n, hn⟩ := hkeeping t ht
      exact notifyTail_ne_none hlist hn htail
    · refine total_le_one (fun pc => ?_) fun t u ht hu => ?_
      · cases pc <;> simp [Pc.notifyRetains]
      · obtain ⟨n, hn⟩ := hkeeping t ht
        obtain ⟨m, hm⟩ := hkeeping u hu
        have hkeeper := ((hlist.thread t).keeping n hn).1
        rw [((hlist.thread u).keeping m hm).1] at hkeeper
        cases hkeeper
        rfl
  have henter := h.enterRetains
  have hrefs := h.refs
  unfold Shared.due at hrefs
  omega

/-- When no thread is in a call, the references taken are those that are due. -/
theorem RefsInv.at_rest (h : RefsInv g) (hrest : ∀ t, g.pc t = .idle) :
    g.shared.refs = g.shared.due := by
  have hzero : ∀ w : Pc ν → ℕ, w .idle = 0 → total w g.pc = 0 :=
    fun w hw => total_eq_zero fun t => by rw [hrest t, hw]
  have hrefs := h.refs
  rw [hzero _ rfl, hzero _ rfl, hzero _ rfl] at hrefs
  simpa using hrefs

variable [DecidableEq ι] [DecidableEq ν] {e : Entry ν} {t : ι}

theorem listView_step (hstep : Step g (t, e) g') :
    Interleave (fun _ => SharedList.Step) (listView g) (t, e.event.act) (listView g') := by
  obtain ⟨hstep⟩ := hstep
  rename_i pc' sh'
  obtain ⟨c, hc⟩ := hstep
  have hlist := threadStep_list (recordedStep_eq_some hc).1
  have hview : listView (⟨update g.pc t pc', sh'⟩ : State ι ν) =
      ⟨update (fun u => (g.pc u).role) t pc'.role, sh'.list⟩ := by
    unfold listView
    congr 1
    exact comp_update Pc.role g.pc t pc'
  rw [hview]
  exact .mk hlist

/-- **Step lemma** of the list. -/
theorem listInv_step (h : ListInv es g a) (hstep : Step g (t, e) g') :
    ∃ a', ListInv (es ++ [(t, e)]) g' a' ∧
      SharedList.Moves t (g.pc t).role (g'.pc t).role e.event.act a a' := by
  obtain ⟨a', hrep, hmoves⟩ := SharedList.step_represents h.represents (listView_step hstep)
  refine ⟨a', ⟨hrep, fun n hn => ?_, fun n hn => ?_⟩, hmoves⟩
  all_goals
    have hlisted := h.listed n
    have hnotListed := h.notListed n
    have hpush := hmoves.push n
    have hremove := hmoves.remove n
    have hkeep := hmoves.keep n
    have hmem : n ∈ a.taken t → a.Listed n :=
      fun hn => h.represents.mem.listed_iff.mpr (.inr ⟨t, hn⟩)
    simp only [ne_eq, act_eq_push, act_eq_remove] at hpush hremove hkeep
    rw [pushes_snoc, submits_snoc]
    grind

/-- **Step lemma** of the references. -/
theorem refsInv_step (h : RefsInv g) (hlist : SharedList.Represents a (listView g))
    {x : ι × Entry ν} (hstep : Step g x g') : RefsInv g' := by
  obtain ⟨hstep⟩ := hstep
  rename_i t e pc' sh'
  obtain ⟨c, hc⟩ := hstep
  have hstep := (recordedStep_eq_some hc).1
  have htake := threadStep_take hstep
  -- a leave is for an enter that is counted
  have hvalue : g.pc t = .leave → 0 < g.shared.value := by
    intro hpc
    have hle := le_total (w := Pc.inFlight) h.active rfl t
    rw [hpc] at hle
    have := h.value
    simp only [Pc.inFlight] at hle
    omega
  have htail : ∀ wake head, g.pc t = .wakeTail wake head → g.shared.notifyTail ≠ none := by
    intro wake head hpc
    exact notifyTail_ne_none hlist (n := head) (by rw [hpc]; rfl)
  have heffect := threadStep_refs hstep hvalue htail
  have hin := total_update (w := Pc.inFlight) h.active rfl t pc'
  have henter := total_update (w := Pc.enterRetains) h.active rfl t pc'
  have hnotify := total_update (w := Pc.notifyRetains) h.active rfl t pc'
  have hreleases := total_update (w := Pc.releases) h.active rfl t pc'
  have hvalue' : sh'.value = sh'.entered + total Pc.inFlight (update g.pc t pc') := by
    have := heffect.value
    have := h.value
    omega
  refine ⟨h.active.update t pc', hvalue', ?_, ?_, fun hhead hzero => ?_⟩
  · have := heffect.refs
    have := h.refs
    show sh'.refs + total _ (update g.pc t pc') + total _ (update g.pc t pc') =
      sh'.due + total _ (update g.pc t pc')
    omega
  · show total _ (update g.pc t pc') ≤ if 0 < sh'.value then 1 else 0
    have hle := h.enterRetains
    by_cases hpos : 0 < sh'.value
    · rw [if_pos hpos]
      have hone : pc'.enterRetains ≤ 1 := by
        cases pc' <;> simp [Pc.enterRetains]
      rcases heffect.enterRetains with hle' | ⟨hzero, -⟩
      · split_ifs at hle <;> omega
      · rw [if_neg (by omega)] at hle
        omega
    · -- no enter is under way: the value counts them
      rw [if_neg hpos]
      have hnone : total Pc.inFlight (update g.pc t pc') = 0 := by omega
      refine (total_eq_zero fun u => ?_).le
      have hle' := le_total (w := Pc.inFlight) (h.active.update t pc') rfl u
      generalize update g.pc t pc' u = pc at hle'
      cases pc <;> simp_all [Pc.enterRetains, Pc.inFlight]
  · rcases htake.pending hhead hzero with hwill | ⟨hhead', hzero', hwill⟩
    · exact ⟨t, by simpa using hwill⟩
    · obtain ⟨u, hu⟩ := h.taker hhead' hzero'
      have hut : u ≠ t := by
        rintro rfl
        rw [hwill] at hu
        cases hu
      exact ⟨u, by simpa [update_of_ne hut] using hu⟩

/-- The list is taken by a thread in `_dispatch_group_wake`. -/
theorem captures_of_takes {pc pc' : Pc ν} {sh sh' : Shared ν} {c : Choice ν} {e : Event ν}
    (h : threadStep pc sh c = some (e, pc', sh')) {n n' : ν} {tail : Option ν}
    (hrole : pc.role = .keeping n) (hrole' : pc'.role = .walking n' tail) : pc.captures = true := by
  unfold threadStep at h
  split_ifs at h
  cases pc with
  | wakeTail => rfl
  | notifyRetain | notifyHead =>
    cases h
    cases hrole'
  | wakeWaiters _ head _ | wakeSignal _ head _ _ => cases head <;> cases hrole
  | _ => cases hrole

/-- **Step lemma** of rounds that do not overlap. -/
theorem roundInv_step (h : ListInv es g a) (hround : RoundInv es g a)
    (hover : SnapshotOver g t) (hstep : Step g (t, e) g') (hcrash : g'.shared.crashed = false) :
    ∃ a', ListInv (es ++ [(t, e)]) g' a' ∧ RoundInv (es ++ [(t, e)]) g' a' := by
  obtain ⟨a', hlist, hmoves⟩ := listInv_step h hstep
  refine ⟨a', hlist, ?_⟩
  obtain ⟨hstep⟩ := hstep
  rename_i pc' sh'
  obtain ⟨c, hc⟩ := hstep
  obtain ⟨hc, hvalue⟩ := recordedStep_eq_some hc
  have hsignal := threadStep_signal hc
  have htake := threadStep_take hc
  refine ⟨fun hne => ?_, fun hzero n _ => ?_, fun u n hn => ?_⟩
  · have hquiet : ∀ u, (g.pc u).captures = false := by
      rcases hsignal.value hcrash hne with hne' | ⟨henter, hzero⟩
      · exact hround.quiet hne'
      · exact hover henter hzero
    refine (forall_update_iff g.pc fun _ pc => pc.captures = false).mpr ⟨?_, fun u _ => hquiet u⟩
    by_contra hcaptures
    rcases htake.captures (by simpa using hcaptures) with hcaptures' | hzero
    · rw [hquiet t] at hcaptures'
      cases hcaptures'
    · exact hne hzero
  · apply since_snoc_of_hit
    simp only [isZero, hvalue, decide_eq_true_eq]
    exact hzero
  · have hlisted : a.Listed n := by
      rw [h.represents.mem.listed_iff]
      rcases hmoves.taken u n hn with hn | ⟨hn, -⟩
      · exact .inr ⟨u, hn⟩
      · exact .inl hn
    have hnotPush : isPush n (t, e) = false := by
      simp only [isPush, decide_eq_false_iff_not]
      intro hpush
      exact (hmoves.push n (act_eq_push.mpr hpush)).1 hlisted
    apply since_snoc_of_not_reset hnotPush
    rcases hmoves.taken u n hn with hn | ⟨-, k, tail, hrole, hrole'⟩
    · exact hround.taken u n hn
    · refine hround.zero ?_ n hlisted
      have hrole' : pc'.role = .walking k tail := by simpa using hrole'
      have hcaptures := captures_of_takes hc hrole hrole'
      by_contra hne
      rw [hround.quiet hne t] at hcaptures
      cases hcaptures

/-- The invariants of every run. -/
theorem inv_run {count : ℕ} (hrun : Run Step (start ι ν count) es g) :
    RefsInv g ∧ ∃ a, ListInv es g a := by
  refine hrun.history (I := fun es g => RefsInv g ∧ ∃ a, ListInv es g a) ?_
    ⟨refsInv_start count, _, listInv_start count⟩
  rintro es g ⟨t, e⟩ g' ⟨hrefs, a, hlist⟩ hstep
  obtain ⟨a', hlist', -⟩ := listInv_step hlist hstep
  exact ⟨refsInv_step hrefs hlist.represents hstep, a', hlist'⟩

/-- The invariants of a run whose rounds do not overlap. -/
theorem roundInv_run {count : ℕ}
    (hrun : Run (fun g x g' => Step g x g' ∧ SnapshotOver g x.1) (start ι ν count) es g)
    (hcrash : g.shared.crashed = false) : ∃ a, ListInv es g a ∧ RoundInv es g a := by
  revert hcrash
  refine hrun.history (I := fun es g => g.shared.crashed = false →
    ∃ a, ListInv es g a ∧ RoundInv es g a) ?_ fun _ => ⟨_, listInv_start count, ?_⟩
  · rintro es g ⟨t, e⟩ g' ih ⟨hstep, hover⟩ hcrash
    obtain ⟨a, hlist, hround⟩ := ih (not_crashed_of_step hstep)
    exact roundInv_step hlist hround hover hstep hcrash
  · refine ⟨fun _ _ => rfl, fun _ n hn => ?_, fun t n hn => ?_⟩
    · rcases hn with hn | ⟨t, hn⟩ <;> cases hn
    · cases hn

/-- **Notifications.** In every state that any number of threads can reach with enters, balanced
    leaves, waits and notifications on a new group:

    * a notification has been submitted at most as often as it was pushed, and pushed again only
      after it was submitted;
    * the memory stands for lists that hold the notifications that were pushed and not yet
      submitted, and no others; a thread that walks a list and finds no link waits for
      a thread that is about to store it;
    * the group has not released more references than it has taken; when no thread is in a call,
      it has those that are due for the value and the list;
    * when no thread is in a call and the value is 0, the list is empty, all notifications
      are submitted and no reference is left.

    If moreover each enter that found `dg_value` at zero was executed when no thread was in
    `_dispatch_group_wake` before it had the list, then a notification is submitted only after
    `dg_value` has been 0 at some moment since it was pushed. -/
theorem notify_run {count : ℕ} (hrun : Run Step (start ι ν count) es g) :
    (∀ n, submits n es ≤ pushes n es ∧ pushes n es ≤ submits n es + 1) ∧
    (∃ a, SharedList.Represents a (listView g) ∧ ∀ n, a.Listed n ↔ pushes n es = submits n es + 1) ∧
    (∀ t wake n tail, g.pc t = .wakeNext wake n tail → tail ≠ some n →
      g.shared.doNext n = none → ∃ u n', g.pc u = .notifyLink n n') ∧ 0 ≤ g.shared.refs ∧
    ((∀ t, g.pc t = .idle) → g.shared.refs = g.shared.due) ∧
    ((∀ t, g.pc t = .idle) → g.shared.value = 0 →
      g.shared.notifyHead = none ∧ g.shared.notifyTail = none ∧
      (∀ n, pushes n es = submits n es) ∧ g.shared.refs = 0) ∧
    (Run (fun g x g' => Step g x g' ∧ SnapshotOver g x.1) (start ι ν count) es g →
      ∀ t n v g', Step g (t, ⟨.submitted n, v⟩) g' → ZeroSincePush n es) := by
  obtain ⟨hrefs, a, hlist⟩ := inv_run hrun
  refine ⟨fun n => ?_, ⟨a, hlist.represents, fun n => ?_⟩, fun t wake n tail hpc htail hnext => ?_,
    hrefs.refs_nonneg hlist.represents, hrefs.at_rest, fun hrest hzero => ?_,
    fun hrun' t n v g' hstep => ?_⟩
  · by_cases hn : a.Listed n
    · have := hlist.listed n hn
      omega
    · have := hlist.notListed n hn
      omega
  · by_cases hn : a.Listed n
    · exact iff_of_true hn (hlist.listed n hn)
    · have := hlist.notListed n hn
      exact iff_of_false hn (by omega)
  · obtain ⟨u, n', hu⟩ := hlist.represents.linking_of_next (t := t)
      (by simp only [listView, hpc, Pc.role]) htail hnext
    refine ⟨u, n', ?_⟩
    change (g.pc u).role = .linking n n' at hu
    cases hpc' : g.pc u with
    | notifyLink prev dsn =>
      rw [hpc'] at hu
      cases hu
      rfl
    | wakeWaiters _ head _ | wakeSignal _ head _ _ =>
      rw [hpc'] at hu
      cases head <;> cases hu
    | _ =>
      rw [hpc'] at hu
      cases hu
  · have hrest' : ∀ t, (listView g).pc t = .idle := by
      intro t
      show (g.pc t).role = _
      rw [hrest t]
      rfl
    obtain ⟨hhead, htail, -, hlisted⟩ := hlist.represents.at_rest hrest'
    have hnone : g.shared.notifyHead = none := by
      by_contra hne
      obtain ⟨t, ht⟩ := hrefs.taker hne hzero
      rw [hrest t] at ht
      cases ht
    have hnil : a.batch = [] := by
      rw [← List.head?_eq_none_iff, ← hhead]
      exact hnone
    rw [hnil] at htail hlisted
    have htail' : g.shared.notifyTail = none := htail
    refine ⟨hnone, htail', fun n => hlist.notListed n fun hn => ?_, ?_⟩
    · cases (hlisted n).mp hn
    · rw [hrefs.at_rest hrest, Shared.due, hzero, htail']
      rfl
  · obtain ⟨a, hlist, hround⟩ := roundInv_run hrun' (not_crashed_of_step hstep)
    obtain ⟨_, _, hmoves⟩ := listInv_step hlist hstep
    rw [← zeroSincePush_iff]
    exact hround.taken t n (hmoves.remove n rfl).1

end Runs

/-- Thread 0 enters, thread 1 pushes a notification, and the leave of thread 0 takes it. -/
theorem notify_run_oneRound :
    ∃ es, ∃ g g' : State (Fin 2) Unit, Run Step (start (Fin 2) Unit 0) es g ∧
      Step g (0, ⟨.submitted (), 0⟩) g' ∧ pushes () es = 1 ∧ ZeroSincePush () es := by
  obtain ⟨es, g, g', hrun, hstep, hpushes⟩ := exists_step_of_scheduleIf (fun _ => recordedStep)
    SnapshotOver [(0, .enter), (0, .go), (0, .go), (1, .notify ()), (1, .go), (1, .go), (1, .go),
      (1, .go), (0, .leave), (0, .go), (0, .go), (0, .go), (0, .go), (0, .go)]
    (g := start (Fin 2) Unit 0) 0 .go (e := ⟨.submitted (), 0⟩) (P := fun es => pushes () es = 1)
    (by decide)
  have hrun' : Run Step (start (Fin 2) Unit 0) es g := hrun.mono fun _ _ _ h => h.1
  exact ⟨es, g, g', hrun', hstep, hpushes, (notify_run hrun').2.2.2.2.2.2 hrun 0 () 0 _ hstep⟩

/-- Thread 0 leaves the group and is about to take the list. Thread 1 enters, and thread 2
pushes a notification for it. Then thread 0 takes and submits the notification. -/
theorem notify_early : ∃ es, ∃ g g' : State (Fin 3) Unit, Run Step (start (Fin 3) Unit 0) es g ∧
      Step g (0, ⟨.submitted (), 1⟩) g' ∧ ¬ ZeroSincePush () es := by
  obtain ⟨es, g, g', hrun, hstep, hzero⟩ := exists_step_of_scheduleIf (fun _ => recordedStep)
    (fun _ _ => True) [(0, .enter), (0, .go), (0, .go), (0, .leave), (0, .go), (1, .enter),
      (1, .go), (1, .go), (2, .notify ()), (2, .go), (2, .go), (2, .go), (2, .go),
      (0, .go), (0, .go), (0, .go), (0, .go)]
    (g := start (Fin 3) Unit 0) 0 .go (e := ⟨.submitted (), 1⟩)
    (P := fun es => since (isPush ()) isZero es = false) (by decide)
  refine ⟨es, g, g', hrun.mono fun _ _ _ h => h.1, hstep, ?_⟩
  rw [← zeroSincePush_iff, hzero]
  simp

end Apple.Dispatch.Group
