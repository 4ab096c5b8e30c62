import Apple.Lib.Run

/-!
# `dispatch_once_f` with the list of waiters (`libdispatch-913.60.2/src/once.c`, lines 49–138)

The predicate is `NULL`, or points to the newest `_dispatch_once_waiter_s` of a list that ends
with that of the call that runs the function, or is `DISPATCH_ONCE_DONE`. A waiter puts
itself at the head of the list with a compare-and-swap and only then stores `dow_next`;
the owner detaches the list when the function has returned and walks it.

The model has any number of calls, each with its own `dow` on the stack; several calls of
one thread, also a call from inside of the function, are just several calls. One step is one
access to memory that other calls can see, or the begin or end of the function.

Result: `once_run`.
-/

namespace Apple.Dispatch.Once

open Apple.Lib Function List

/-- A `_dispatch_once_waiter_t`: `NULL`, the `dow` of a call, or `DISPATCH_ONCE_DONE`. -/
inductive Waiter (ι : Type*) where
  | null
  | dow (c : ι)
  | done
deriving DecidableEq

/-- The memory that calls share: the predicate and the fields of each `dow`. The last four fields
are auxiliary: the call that got the predicate first, the calls in the list that are not
yet signalled, the newest first, and whether the function was invoked and has returned. -/
structure Shared (ι : Type*) where
  val : Waiter ι
  dowThread : ι → Option ι
  dowNext : ι → Waiter ι
  /-- Signals of `dow_event` that are not yet taken. -/
  dowEvent : ι → ℕ
  owner : Option ι
  waiters : List ι
  invoked : Bool
  completed : Bool

/-- Where a call is. -/
inductive Pc (ι : Type*) where
  /-- `os_atomic_load(val, acquire)` in `dispatch_once_f`. -/
  | start
  /-- `os_atomic_cmpxchg(vval, NULL, tail, acquire)`. -/
  | tryEnter
  /-- `dow.dow_thread = _dispatch_tid_self()`. -/
  | setThread
  | invoke
  | running
  /-- `_dispatch_once_xchg_done(val)`. -/
  | exchange
  /-- `while (next != tail)` with the wait for `next->dow_next`. -/
  | walk (next : Waiter ι)
  /-- `_dispatch_thread_event_signal(event)` for `n`; the walk goes on with `tmp`. -/
  | signal (n : ι) (tmp : Waiter ι)
  /-- `_dispatch_thread_event_init(&dow.dow_event)`. -/
  | initEvent
  /-- `next = *vval`. -/
  | loadNext
  /-- The test and the compare-and-swap of the `for` loop. -/
  | link (next : Waiter ι)
  /-- `dow.dow_thread = next->dow_thread`. -/
  | copyThread (next : Waiter ι)
  /-- `dow.dow_next = next`. -/
  | setNext (next : Waiter ι)
  /-- `_dispatch_thread_event_wait(&dow.dow_event)`. -/
  | wait
  | returned
deriving DecidableEq

/-- What a step does that is counted. -/
inductive Event (ι : Type*) where
  | silent
  | invoked
  | completed
  /-- The call has put itself into the list. -/
  | linked
  | signalled (c : ι)
  | returned
deriving DecidableEq

/-- The result of a step; `none` while a call spins or sleeps. -/
abbrev Result (ι : Type*) := Option (Event ι × Pc ι × Shared ι)

section Steps

variable {ι : Type*} [DecidableEq ι]

/-- One step of call `c`. -/
def callStep (c : ι) (pc : Pc ι) (sh : Shared ι) : Result ι :=
  match pc with
  | .start =>
    if sh.val = .done then some (.returned, .returned, sh) else some (.silent, .tryEnter, sh)
  | .tryEnter =>
    if sh.val = .null then some (.silent, .setThread, { sh with val := .dow c, owner := some c })
    else some (.silent, .initEvent, sh)
  | .setThread =>
    some (.silent, .invoke, { sh with dowThread := update sh.dowThread c (some c) })
  | .invoke => some (.invoked, .running, { sh with invoked := true })
  | .running => some (.completed, .exchange, { sh with completed := true })
  | .exchange => some (.silent, .walk sh.val, { sh with val := .done })
  | .walk next =>
    if next = .dow c then some (.returned, .returned, sh)
    else
      match next with
      | .dow n => if sh.dowNext n = .null then none else some (.silent, .signal n (sh.dowNext n), sh)
      | _ => none
  | .signal n tmp =>
    some (.signalled n, .walk tmp, { sh with
      dowEvent := update sh.dowEvent n (sh.dowEvent n + 1)
      waiters := sh.waiters.erase n })
  | .initEvent =>
    some (.silent, .loadNext, { sh with dowEvent := update sh.dowEvent c 0 })
  | .loadNext => some (.silent, .link sh.val, sh)
  | .link next =>
    if next = .done then some (.returned, .returned, sh)
    else if sh.val = next then
      some (.linked, .copyThread next, { sh with val := .dow c, waiters := c :: sh.waiters })
    else some (.silent, .link sh.val, sh)
  | .copyThread next =>
    match next with
    | .dow n => some (.silent, .setNext next,
        { sh with dowThread := update sh.dowThread c (sh.dowThread n) })
    | _ => none
  | .setNext next =>
    some (.silent, .wait, { sh with dowNext := update sh.dowNext c next })
  | .wait =>
    if sh.dowEvent c > 0 then
      some (.returned, .returned,
        { sh with dowEvent := update sh.dowEvent c (sh.dowEvent c - 1) })
    else none
  | .returned => none

/-- The steps of a call, as a relation. -/
def CallStep (c : ι) (pc : Pc ι) (sh : Shared ι) (e : Event ι) (pc' : Pc ι)
    (sh' : Shared ι) : Prop :=
  callStep c pc sh = some (e, pc', sh')

end Steps

/-- The calls and the memory. -/
abbrev State (ι : Type*) := Threads ι (Pc ι) (Shared ι)

/-- A step of any call. -/
abbrev Step {ι : Type*} [DecidableEq ι] : State ι → ι × Event ι → State ι → Prop :=
  Interleave CallStep

/-- A predicate that is still `NULL`, and `dow = { }` for every call. -/
def initial (ι : Type*) : State ι where
  pc := fun _ => .start
  shared := ⟨.null, fun _ => none, fun _ => .null, fun _ => 0, none, [], false, false⟩

/-! ## Changes of the memory -/

/-- The first of the waiters, or the owner behind them. -/
def first {ι : Type*} (o : ι) : List ι → ι
  | [] => o
  | w :: _ => w

section Invariant

variable {ι : Type*}

/-- The list in memory: `dow_next` of a waiter is the waiter behind it, or not yet stored. -/
def Linked (sh : Shared ι) (o : ι) : Prop :=
  ∀ l w l', sh.waiters = l ++ w :: l' → sh.dowNext w = .null ∨ sh.dowNext w = .dow (first o l')

/-- **Invariant of the memory.** -/
structure SharedOk (sh : Shared ι) : Prop where
  nodup : sh.waiters.Nodup
  unowned : sh.owner = none → sh.val = .null ∧ sh.waiters = [] ∧ sh.invoked = false
  owned : ∀ o, sh.owner = some o → sh.val ≠ .null ∧ o ∉ sh.waiters ∧ Linked sh o ∧
    (sh.val ≠ .done → sh.val = .dow (first o sh.waiters))
  done : sh.val = .done → sh.completed = true
  signalled : ∀ w, 0 < sh.dowEvent w → sh.val = .done ∧ w ∉ sh.waiters

/-- A call that is not in the list. -/
def Outside (sh : Shared ι) (c : ι) : Prop :=
  c ∉ sh.waiters ∧ sh.owner ≠ some c ∧ sh.dowNext c = .null

/-- A call in the list, and the one behind it. -/
def InList (sh : Shared ι) (c : ι) (next : Waiter ι) : Prop :=
  ∃ o l l', sh.owner = some o ∧ sh.waiters = l ++ c :: l' ∧ next = .dow (first o l')

/-- **Invariant of a call**, by where it is. -/
def Local (c : ι) (pc : Pc ι) (sh : Shared ι) : Prop :=
  match pc with
  | .start | .tryEnter => Outside sh c
  | .setThread | .invoke => sh.owner = some c ∧ sh.val ≠ .done ∧ sh.invoked = false
  | .running => sh.owner = some c ∧ sh.val ≠ .done
  | .exchange => sh.owner = some c ∧ sh.val ≠ .done ∧ sh.completed = true
  | .walk next => sh.owner = some c ∧ sh.val = .done ∧ next = .dow (first c sh.waiters)
  | .signal n tmp => sh.owner = some c ∧ sh.val = .done ∧ sh.dowNext n ≠ .null ∧
      ∃ l, sh.waiters = n :: l ∧ tmp = .dow (first c l)
  | .initEvent | .loadNext => Outside sh c ∧ sh.val ≠ .null
  | .link next => Outside sh c ∧ sh.val ≠ .null ∧ next ≠ .null ∧ (next = .done → sh.val = .done)
  | .copyThread next | .setNext next => InList sh c next ∧ sh.dowNext c = .null
  | .wait => sh.owner ≠ some c ∧ sh.dowNext c ≠ .null
  | .returned => c ∉ sh.waiters ∧ sh.completed = true ∧
      (sh.owner = some c → sh.val = .done ∧ sh.waiters = [])

/-- What a step of call `c` can do to the memory. -/
inductive Change [DecidableEq ι] (c : ι) (sh : Shared ι) : Shared ι → Prop
  | none : Change c sh sh
  | enter (h : sh.val = .null) : Change c sh { sh with val := .dow c, owner := some c }
  | setThread (x : Option ι) :
      Change c sh { sh with dowThread := update sh.dowThread c x }
  | invoke (h : sh.owner = some c) : Change c sh { sh with invoked := true }
  | complete (h : sh.owner = some c) : Change c sh { sh with completed := true }
  | finish (h : sh.owner = some c) (hc : sh.completed = true) :
      Change c sh { sh with val := .done }
  | signal {n : ι} {l : List ι} (h : sh.owner = some c) (hval : sh.val = .done)
      (hl : sh.waiters = n :: l) (hn : sh.dowNext n ≠ .null) :
      Change c sh { sh with
        dowEvent := update sh.dowEvent n (sh.dowEvent n + 1), waiters := l }
  | setEvent (n : ℕ) (h : n ≤ sh.dowEvent c) :
      Change c sh { sh with dowEvent := update sh.dowEvent c n }
  | link (h : Outside sh c) (hval : sh.val ≠ .null) (hdone : sh.val ≠ .done) :
      Change c sh { sh with val := .dow c, waiters := c :: sh.waiters }
  | setNext {next : Waiter ι} (h : InList sh c next) :
      Change c sh { sh with dowNext := update sh.dowNext c next }

variable {c u : ι} {sh sh' : Shared ι}

/-- Where an element of a list without repetitions is, is unique. -/
theorem behind_unique {l l' : List ι} (hnodup : (l ++ c :: l').Nodup) :
    ∀ {k k' : List ι}, l ++ c :: l' = k ++ c :: k' → l' = k' := by
  induction l with
  | nil =>
    rintro (_ | ⟨x, k⟩) k' heq
    · exact (List.cons.inj heq).2
    · obtain ⟨rfl, rfl⟩ := List.cons.inj heq
      simp at hnodup
  | cons y l ih =>
    rintro (_ | ⟨x, k⟩) k' heq
    · obtain ⟨rfl, -⟩ := List.cons.inj heq
      simp at hnodup
    · exact ih (nodup_cons.mp hnodup).2 (List.cons.inj heq).2

variable [DecidableEq ι]

/-- **Changes keep the invariant of the memory.** -/
theorem Change.sharedOk (h : SharedOk sh) (hchange : Change c sh sh') : SharedOk sh' := by
  cases hchange with
  | none => exact h
  | enter hval =>
    have hnone : sh.owner = Option.none := by
      rcases ho : sh.owner with _ | o
      · rfl
      · exact absurd hval (h.owned o ho).1
    have hnil := (h.unowned hnone).2.1
    refine ⟨h.nodup, by simp, ?_, by simp, ?_⟩
    · rintro o ⟨⟩
      refine ⟨by simp, by simp [hnil], ?_, fun _ => by rw [hnil]; rfl⟩
      intro l w l' hl
      simp [hnil] at hl
    · intro w hw
      have := (h.signalled w hw).1
      rw [hval] at this
      cases this
  | setThread x => exact ⟨h.nodup, h.unowned, h.owned, h.done, h.signalled⟩
  | invoke ho =>
    refine ⟨h.nodup, fun hnone => ?_, h.owned, h.done, h.signalled⟩
    rw [ho] at hnone
    cases hnone
  | complete => exact ⟨h.nodup, h.unowned, h.owned, fun _ => rfl, h.signalled⟩
  | finish ho hc =>
    refine ⟨h.nodup, ?_, ?_, fun _ => hc, fun w hw => ⟨rfl, (h.signalled w hw).2⟩⟩
    · intro hnone
      rw [ho] at hnone
      cases hnone
    · intro o ho'
      obtain ⟨-, hmem, hlinked, -⟩ := h.owned o ho'
      exact ⟨by simp, hmem, hlinked, fun hne => absurd rfl hne⟩
  | @signal n l ho hval hl hn =>
    have hnodup := h.nodup
    rw [hl, nodup_cons] at hnodup
    refine ⟨hnodup.2, ?_, ?_, h.done, ?_⟩
    · intro hnone
      rw [ho] at hnone
      cases hnone
    · intro o ho'
      obtain ⟨hnull, hmem, hlinked, -⟩ := h.owned o ho'
      rw [hl] at hmem
      refine ⟨hnull, fun hin => hmem (mem_cons_of_mem _ hin), ?_, fun hne => absurd hval hne⟩
      intro k w k' hk
      exact hlinked (n :: k) w k' (by rw [hl]; exact congrArg _ hk)
    · intro w hw
      refine ⟨hval, ?_⟩
      dsimp only at hw
      by_cases hwn : w = n
      · rw [hwn]
        exact hnodup.1
      · rw [update_of_ne hwn] at hw
        have := (h.signalled w hw).2
        rw [hl] at this
        exact fun hin => this (mem_cons_of_mem _ hin)
  | setEvent n hn =>
    refine ⟨h.nodup, h.unowned, h.owned, h.done, fun w hw => ?_⟩
    dsimp only at hw
    by_cases hwc : w = c
    · subst hwc
      rw [update_self] at hw
      exact h.signalled w (by omega)
    · rw [update_of_ne hwc] at hw
      exact h.signalled w hw
  | link hout hval hdone =>
    obtain ⟨hmem, hown, hnext⟩ := hout
    refine ⟨nodup_cons.mpr ⟨hmem, h.nodup⟩, ?_, ?_, by simp, ?_⟩
    · intro hnone
      exact absurd (h.unowned hnone).1 hval
    · intro o ho
      obtain ⟨-, hmem', hlinked, hfirst⟩ := h.owned o ho
      have hoc : o ≠ c := fun heq => hown (heq ▸ ho)
      refine ⟨by simp, by simp [hoc, hmem'], ?_, fun _ => rfl⟩
      rintro (_ | ⟨x, k⟩) w k' hk
      · obtain ⟨rfl, -⟩ := List.cons.inj hk
        exact .inl hnext
      · exact hlinked k w k' (List.cons.inj hk).2
    · intro w hw
      exact absurd (h.signalled w hw).1 hdone
  | @setNext next hin =>
    obtain ⟨o, l, l', ho, hl, rfl⟩ := hin
    refine ⟨h.nodup, h.unowned, ?_, h.done, h.signalled⟩
    intro o' ho'
    cases ho.symm.trans ho'
    obtain ⟨hnull, hmem, hlinked, hfirst⟩ := h.owned o ho
    refine ⟨hnull, hmem, ?_, hfirst⟩
    intro k w k' hk
    dsimp only at hk ⊢
    by_cases hwc : w = c
    · subst hwc
      rw [update_self]
      have hnodup := h.nodup
      rw [hl] at hnodup hk
      rw [behind_unique hnodup hk]
      exact .inr rfl
    · rw [update_of_ne hwc]
      exact hlinked k w k' hk

/-! ## Steps -/

variable {pc pc' : Pc ι} {e : Event ι}

/-- A step of one call keeps the invariant of another. -/
theorem Local.stable (huc : u ≠ c) (hG : SharedOk sh) (hchange : Change c sh sh')
    (h : Local u pc sh) : Local u pc sh' := by
  cases hchange with
  | none => exact h
  | enter hval =>
    have hnone : ∀ o, sh.owner ≠ some o := fun o ho => (hG.owned o ho).1 hval
    cases pc <;> simp only [Local, Outside, InList] at h ⊢ <;> grind
  | setThread x | setEvent n hn => cases pc <;> exact h
  | invoke ho | complete ho | finish ho hc =>
    cases pc <;> simp only [Local, Outside, InList] at h ⊢ <;> grind
  | @signal n l ho hval hl hn =>
    have hin : ∀ next, InList sh u next → u ≠ n → InList { sh with waiters := l } u next := by
      rintro next ⟨o, k, k', ho', hk, hnext⟩ hun
      rw [hl] at hk
      rcases k with _ | ⟨x, k⟩
      · exact absurd (List.cons.inj hk).1.symm hun
      · exact ⟨o, k, k', ho', (List.cons.inj hk).2, hnext⟩
    -- a waiter that has not stored `dow_next` is not the one that is signalled
    have hne : sh.dowNext u = .null → u ≠ n := by
      rintro hu rfl
      exact hn hu
    cases pc with
    | copyThread next | setNext next => exact ⟨hin next h.1 (hne h.2), h.2⟩
    | _ =>
      simp only [Local, Outside] at h ⊢
      grind
  | link hout hval hdone =>
    have hin : ∀ next, InList sh u next → InList { sh with waiters := c :: sh.waiters } u next := by
      rintro next ⟨o, k, k', ho, hk, hnext⟩
      exact ⟨o, c :: k, k', ho, congrArg _ hk, hnext⟩
    cases pc <;> simp only [Local, Outside, InList] at h hin ⊢ <;> grind
  | setNext hin =>
    obtain ⟨o, l, l', ho, hl, rfl⟩ := hin
    cases pc <;> simp only [Local, Outside, InList] at h ⊢ <;> grind

/-- A call that may still put itself into the list. -/
def Pc.mayLink : Pc ι → Bool
  | .start | .tryEnter | .initEvent | .loadNext | .link _ => true
  | _ => false

/-- What the events of a step say. -/
structure Recorded (c : ι) (pc pc' : Pc ι) (sh sh' : Shared ι) (e : Event ι) : Prop where
  invoked : sh'.invoked = (sh.invoked || e = .invoked)
  once : e = .invoked → sh.owner = some c ∧ sh.invoked = false
  completed : sh'.completed = (sh.completed || e = .completed)
  returned : e = .returned → sh.completed = true
  owner : ∀ o, sh.owner = some o → sh'.owner = some o
  linked : e = .linked → pc.mayLink = true ∧ pc'.mayLink = false
  mayLink : pc'.mayLink = true → pc.mayLink = true
  waiters : ∀ u, (if e = .signalled u then 1 else 0) + sh'.waiters.count u =
    sh.waiters.count u + if (c, e) = (u, .linked) then 1 else 0

/-- A step that is not counted, or the return of a call. -/
theorem Recorded.quiet (he : e = .silent ∨ e = .returned)
    (hreturned : e = .returned → sh.completed = true := by simp)
    (howner : ∀ o, sh.owner = some o → sh'.owner = some o := by simp)
    (hmay : pc'.mayLink = true → pc.mayLink = true := by simp [Pc.mayLink])
    (hinvoked : sh'.invoked = sh.invoked := by rfl)
    (hcompleted : sh'.completed = sh.completed := by rfl)
    (hwaiters : sh'.waiters = sh.waiters := by rfl) :
    Recorded c pc pc' sh sh' e := by
  rcases he with rfl | rfl
  all_goals
    refine ⟨by simp [hinvoked], by simp, by simp [hcompleted], hreturned, howner, by simp, hmay, ?_⟩
    simp [hwaiters]

/-- **One step of a call** changes the memory in one of the ways above, keeps the invariant of
the call and is recorded. -/
theorem callStep_change (hG : SharedOk sh) (h : Local c pc sh)
    (hstep : callStep c pc sh = some (e, pc', sh')) :
    Change c sh sh' ∧ Local c pc' sh' ∧ Recorded c pc pc' sh sh' e := by
  cases pc with
  | start =>
    simp only [callStep] at hstep
    split_ifs at hstep with hdone <;> cases hstep
    · exact ⟨.none, ⟨h.1, hG.done hdone, fun ho => absurd ho h.2.1⟩,
        .quiet (.inr rfl) fun _ => hG.done hdone⟩
    · exact ⟨.none, h, .quiet (.inl rfl)⟩
  | tryEnter =>
    simp only [callStep] at hstep
    split_ifs at hstep with hnull <;> cases hstep
    · refine ⟨.enter hnull, ⟨rfl, by simp, ?_⟩,
        .quiet (.inl rfl) (by simp) fun o ho => absurd hnull (hG.owned o ho).1⟩
      rcases ho : sh.owner with _ | o
      · exact (hG.unowned ho).2.2
      · exact absurd hnull (hG.owned o ho).1
    · exact ⟨.none, ⟨h, hnull⟩, .quiet (.inl rfl)⟩
  | setThread =>
    cases hstep
    exact ⟨.setThread _, h, .quiet (.inl rfl)⟩
  | invoke =>
    cases hstep
    refine ⟨.invoke h.1, ⟨h.1, h.2.1⟩, by simp, fun _ => ⟨h.1, h.2.2⟩, by simp, by simp, by simp,
      by simp, by simp [Pc.mayLink], by simp⟩
  | running =>
    cases hstep
    refine ⟨.complete h.1, ⟨h.1, h.2, rfl⟩, by simp, by simp, by simp, by simp, by simp, by simp,
      by simp [Pc.mayLink], by simp⟩
  | exchange =>
    cases hstep
    obtain ⟨ho, hval, hc⟩ := h
    exact ⟨.finish ho hc, ⟨ho, rfl, (hG.owned c ho).2.2.2 hval⟩, .quiet (.inl rfl)⟩
  | walk next =>
    obtain ⟨ho, hval, rfl⟩ := h
    simp only [callStep] at hstep
    split_ifs at hstep with hself hnull <;> cases hstep
    · have hmem := (hG.owned c ho).2.1
      refine ⟨.none, ⟨hmem, hG.done hval, fun _ => ⟨hval, ?_⟩⟩,
        .quiet (.inr rfl) fun _ => hG.done hval⟩
      rcases hw : sh.waiters with _ | ⟨n, l⟩
      · rfl
      · rw [hw] at hself hmem
        obtain rfl : n = c := Waiter.dow.inj hself
        exact absurd mem_cons_self hmem
    · refine ⟨.none, ⟨ho, hval, hnull, ?_⟩, .quiet (.inl rfl)⟩
      rcases hw : sh.waiters with _ | ⟨n, l⟩
      · rw [hw] at hself
        exact absurd rfl hself
      · rw [hw] at hnull
        refine ⟨l, rfl, ?_⟩
        exact ((hG.owned c ho).2.2.1 [] n l hw).resolve_left hnull
  | signal n tmp =>
    obtain ⟨ho, hval, hn, l, hl, rfl⟩ := h
    cases hstep
    have herase : sh.waiters.erase n = l := by rw [hl, erase_cons_head]
    rw [herase]
    refine ⟨.signal ho hval hl hn, ⟨ho, hval, rfl⟩, by simp, by simp, by simp, by simp, by simp,
      by simp, by simp [Pc.mayLink], fun u => ?_⟩
    simp only [hl, count_cons]
    by_cases hun : u = n
    · simp [hun, add_comm]
    · simp [Ne.symm hun]
  | initEvent =>
    cases hstep
    exact ⟨.setEvent 0 zero_le, h, .quiet (.inl rfl)⟩
  | loadNext =>
    cases hstep
    exact ⟨.none, ⟨h.1, h.2, h.2, fun heq => heq⟩, .quiet (.inl rfl)⟩
  | link next =>
    obtain ⟨hout, hnull, -, hdone⟩ := h
    simp only [callStep] at hstep
    split_ifs at hstep with hdone' heq <;> cases hstep
    · have hcompleted := hG.done (hdone hdone')
      exact ⟨.none, ⟨hout.1, hcompleted, fun ho => absurd ho hout.2.1⟩,
        .quiet (.inr rfl) fun _ => hcompleted⟩
    · subst heq
      refine ⟨.link hout hnull hdone', ⟨?_, hout.2.2⟩, by simp, by simp, by simp, by simp, by simp,
        by simp [Pc.mayLink], by simp [Pc.mayLink], fun u => ?_⟩
      · obtain ⟨o, ho⟩ : ∃ o, sh.owner = some o := by
          rcases ho : sh.owner with _ | o
          · exact absurd (hG.unowned ho).1 hnull
          · exact ⟨o, rfl⟩
        exact ⟨o, [], sh.waiters, ho, rfl, (hG.owned o ho).2.2.2 hdone'⟩
      · by_cases hu : c = u
        · simp [hu]
        · simp [hu]
    · exact ⟨.none, ⟨hout, hnull, hnull, fun heq => heq⟩, .quiet (.inl rfl)⟩
  | copyThread next =>
    obtain ⟨⟨o, l, l', ho, hl, rfl⟩, hnull⟩ := h
    cases hstep
    exact ⟨.setThread _, ⟨⟨o, l, l', ho, hl, rfl⟩, hnull⟩, .quiet (.inl rfl)⟩
  | setNext next =>
    cases hstep
    obtain ⟨hin, -⟩ := h
    refine ⟨.setNext hin, ?_, .quiet (.inl rfl)⟩
    obtain ⟨o, l, l', ho, hl, rfl⟩ := hin
    refine ⟨?_, by simp⟩
    intro ho'
    exact (hG.owned c ho').2.1 (by simp [hl])
  | wait =>
    simp only [callStep] at hstep
    split_ifs at hstep with hpos
    cases hstep
    obtain ⟨hval, hmem⟩ := hG.signalled c hpos
    exact ⟨.setEvent _ (Nat.sub_le _ _), ⟨hmem, hG.done hval, fun ho => absurd ho h.1⟩,
      .quiet (.inr rfl) fun _ => hG.done hval⟩
  | returned => cases hstep

/-- **Invariant** of the memory and all calls. -/
def Inv (g : State ι) : Prop := SharedOk g.shared ∧ ∀ c, Local c (g.pc c) g.shared

omit [DecidableEq ι] in
theorem inv_initial : Inv (initial ι) := by
  refine ⟨⟨nodup_nil, fun _ => ⟨rfl, rfl, rfl⟩, ?_, ?_, ?_⟩, fun c => ⟨?_, ?_, rfl⟩⟩
  · intro o ho
    cases ho
  · intro hval
    cases hval
  · intro w hw
    exact absurd hw (lt_irrefl 0)
  · exact not_mem_nil
  · intro ho
    cases ho

theorem inv_step (g : State ι) (x : ι × Event ι) (g' : State ι) (h : Inv g)
    (hstep : Step g x g') : Inv g' := by
  refine Interleave.invariant ?_ ?_ g x g' h hstep
  · intro c pc sh e pc' sh' hG hI hcall
    obtain ⟨hchange, hlocal, -⟩ := callStep_change hG hI hcall
    exact ⟨hchange.sharedOk hG, hlocal⟩
  · intro c pc sh e pc' sh' u q hu hG hI hq hcall
    exact hq.stable hu hG (callStep_change hG hI hcall).1

/-! ## What the calls do -/

/-- The predicate stays, or goes from `NULL` into the list, on in the list, or to
`DISPATCH_ONCE_DONE`. -/
def Advances (v v' : Waiter ι) : Prop :=
  v' = v ∨ (v = .null ∧ ∃ c, v' = .dow c) ∨ ∃ c, v = .dow c ∧ (v' = .done ∨ ∃ c', v' = .dow c')

theorem Change.advances (hG : SharedOk sh) (h : Change c sh sh') : Advances sh.val sh'.val := by
  have hdow : ∀ v : Waiter ι, v ≠ .null → v ≠ .done → ∃ c, v = .dow c := by
    rintro (_ | c | _) hnull hdone
    · exact absurd rfl hnull
    · exact ⟨c, rfl⟩
    · exact absurd rfl hdone
  cases h with
  | enter hval => exact .inr (.inl ⟨hval, c, rfl⟩)
  | finish ho hc =>
    by_cases hdone : sh.val = .done
    · exact .inl hdone.symm
    · obtain ⟨d, hd⟩ := hdow _ (hG.owned c ho).1 hdone
      exact .inr (.inr ⟨d, hd, .inl rfl⟩)
  | link hout hval hdone =>
    obtain ⟨d, hd⟩ := hdow _ hval hdone
    exact .inr (.inr ⟨d, hd, .inr ⟨c, rfl⟩⟩)
  | _ => exact .inl rfl

/-- The walk of the owner waits only for a call that is about to store its `dow_next`. -/
theorem walk_blocked {g : State ι} (h : Inv g) {next : Waiter ι} (hpc : g.pc c = .walk next)
    (hblocked : callStep c (.walk next) g.shared = none) :
    ∃ n, next = .dow n ∧ (callStep n (g.pc n) g.shared).isSome = true := by
  obtain ⟨hG, hI⟩ := h
  have hc := hI c
  rw [hpc] at hc
  obtain ⟨ho, hval, rfl⟩ := hc
  refine ⟨_, rfl, ?_⟩
  simp only [callStep] at hblocked
  split_ifs at hblocked with hself hnull
  -- so the first waiter has not stored `dow_next`
  have hmem : first c g.shared.waiters ∈ g.shared.waiters := by
    rcases hw : g.shared.waiters with _ | ⟨n, l⟩
    · rw [hw] at hself
      exact absurd rfl hself
    · exact mem_cons_self
  generalize first c g.shared.waiters = n at hnull hmem ⊢
  have hn := hI n
  have hne : g.shared.owner ≠ some n := fun ho' => (hG.owned n ho').2.1 hmem
  rcases hq : g.pc n with _ | _ | _ | _ | _ | _ | next | ⟨m, tmp⟩ | _ | _ | next | next | next | _ | _
    <;> rw [hq] at hn
  case copyThread =>
    obtain ⟨⟨o, l, l', -, -, rfl⟩, -⟩ := hn
    rfl
  all_goals simp only [Local, Outside] at hn
  all_goals tauto

/-! ## Runs -/

/-- How many events of a kind there were. -/
def count (p : Event ι → Bool) (es : List (ι × Event ι)) : ℕ := es.countP fun x => p x.2

omit [DecidableEq ι] in
theorem count_snoc (p : Event ι → Bool) (es : List (ι × Event ι)) (x : ι × Event ι) :
    count p (es ++ [x]) = count p es + if p x.2 then 1 else 0 := by
  rw [count, count, countP_append, countP_singleton]

/-- **Invariant** of the events so far and the state. -/
structure History (es : List (ι × Event ι)) (g : State ι) : Prop where
  inv : Inv g
  invoked : count (· = .invoked) es = if g.shared.invoked then 1 else 0
  owner : ∀ c, (c, .invoked) ∈ es → g.shared.owner = some c
  completed : g.shared.completed = true → 0 < count (· = .completed) es
  waiters : ∀ u, count (· = .signalled u) es + g.shared.waiters.count u = es.count (u, .linked)
  linked : ∀ u, es.count (u, .linked) ≤ 1 ∧
    ((g.pc u).mayLink = true → es.count (u, .linked) = 0)

theorem history_initial : History [] (initial ι) := by
  refine ⟨inv_initial, by simp [count, initial], by simp, by simp [initial], ?_, by simp⟩
  simp [count, initial]

theorem history_step {es : List (ι × Event ι)} {g g' : State ι} {x : ι × Event ι}
    (h : History es g) (hstep : Step g x g') : History (es ++ [x]) g' := by
  have hinv := inv_step g x g' h.inv hstep
  obtain ⟨hcall⟩ := hstep
  rename_i c e p sh
  have hrec := (callStep_change h.inv.1 (h.inv.2 c) hcall).2.2
  refine ⟨hinv, ?_, ?_, ?_, ?_, ?_⟩
  · have hold := h.invoked
    rw [count_snoc, hrec.invoked, hold]
    by_cases he : e = .invoked
    · simp [(hrec.once he).2]
    · simp [he]
  · intro d hd
    rcases mem_append.mp hd with hd | hd
    · exact hrec.owner d (h.owner d hd)
    · obtain ⟨rfl, rfl⟩ := Prod.mk.inj (mem_singleton.mp hd)
      exact hrec.owner d (hrec.once rfl).1
  · intro hcompleted
    rw [count_snoc]
    rw [hrec.completed, Bool.or_eq_true] at hcompleted
    rcases hcompleted with hold | he
    · have := h.completed hold
      omega
    · simp [of_decide_eq_true he]
  · intro u
    have hold := h.waiters u
    have hnew := hrec.waiters u
    rw [count_snoc, count_append, count_singleton]
    simp only [beq_iff_eq, decide_eq_true_eq] at hnew ⊢
    omega
  · intro u
    obtain ⟨hle, hzero⟩ := h.linked u
    rw [count_append, count_singleton]
    by_cases heq : (c, e) = (u, Event.linked)
    · obtain ⟨rfl, rfl⟩ := Prod.mk.inj heq
      obtain ⟨hmay, hmay'⟩ := hrec.linked rfl
      simp [hzero hmay, hmay']
    · simp only [beq_iff_eq, heq]
      refine ⟨hle, fun hmay => hzero ?_⟩
      by_cases hu : u = c
      · subst hu
        rw [update_self] at hmay
        exact hrec.mayLink hmay
      · rwa [update_of_ne hu] at hmay

/-- **`dispatch_once_f` runs the function once.** In every run of any number of calls on one
    predicate:

    * the function is invoked at most once, and a call returns only if it has returned;
    * a call puts itself into the list at most once, is signalled only if it did and at most
      once, and all have been signalled when the call that ran the function returns; before
      that the walk over the list waits only for calls that can go on;
    * the predicate goes only from `NULL` into the list and from there to
      `DISPATCH_ONCE_DONE`. -/
theorem once_run {es : List (ι × Event ι)} {g : State ι} (hrun : Run Step (initial ι) es g) :
    count (· = .invoked) es ≤ 1 ∧
    (∀ c g', Step g (c, .returned) g' → 0 < count (· = .completed) es) ∧
    (∀ u, es.count (u, .linked) ≤ 1 ∧ count (· = .signalled u) es ≤ es.count (u, .linked)) ∧
    (∀ c, (c, .invoked) ∈ es → g.pc c = .returned →
      ∀ u, count (· = .signalled u) es = es.count (u, .linked)) ∧
    (∀ c next, g.pc c = .walk next → callStep c (.walk next) g.shared = none →
      ∃ n, next = .dow n ∧ (callStep n (g.pc n) g.shared).isSome = true) ∧
    ∀ x g', Step g x g' → Advances g.shared.val g'.shared.val := by
  have h := hrun.history (fun _ _ _ _ h hstep => history_step h hstep)
    history_initial
  refine ⟨?_, ?_, ?_, ?_, ?_, ?_⟩
  · rw [h.invoked]
    split_ifs <;> omega
  · rintro c g' ⟨hcall⟩
    exact h.completed ((callStep_change h.inv.1 (h.inv.2 c) hcall).2.2.returned rfl)
  · intro u
    have := h.waiters u
    exact ⟨(h.linked u).1, by omega⟩
  · intro c hc hpc u
    have hlocal := h.inv.2 c
    rw [hpc] at hlocal
    have hnil := (hlocal.2.2 (h.owner c hc)).2
    have := h.waiters u
    rwa [hnil, count_nil] at this
  · intro c next hpc hblocked
    exact walk_blocked h.inv hpc hblocked
  · rintro x g' ⟨hcall⟩
    exact (callStep_change h.inv.1 (h.inv.2 _) hcall).1.advances h.inv.1

end Invariant

/-- Two calls: call 1 links itself while call 0 runs the function, and is signalled. -/
theorem once_run_twoCalls :
    ∃ es, ∃ g : State (Fin 2), Run Step (initial (Fin 2)) es g ∧ (0, .invoked) ∈ es ∧
      g.pc 0 = .returned ∧ es.count (1, .linked) = 1 ∧
      count (· = .signalled 1) es = es.count (1, .linked) := by
  obtain ⟨es, g, hrun, hinvoked, hpc, hlinked⟩ := exists_history_of_schedule
    (fun c pc sh (_ : Unit) => callStep c pc sh) (g := initial (Fin 2))
    (P := fun es g => (0, Event.invoked) ∈ es ∧ g.pc 0 = .returned ∧ es.count (1, .linked) = 1)
    ([0, 0, 0, 0, 1, 1, 1, 1, 1, 0, 0, 1, 1, 0, 0, 0].map fun c => (c, ())) (by decide)
  have hrun : Run Step (initial (Fin 2)) es g := hrun.mono fun s e t hstep => by
    obtain ⟨_, hcall⟩ := hstep
    exact .mk hcall
  exact ⟨es, g, hrun, hinvoked, hpc, hlinked, (once_run hrun).2.2.2.1 0 hinvoked hpc 1⟩

end Apple.Dispatch.Once
