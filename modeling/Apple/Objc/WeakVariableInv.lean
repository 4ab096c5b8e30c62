import Apple.Objc.WeakVariable

/-!
# Weak variables under interleaving: the invariant

A live variable that holds an object is registered with it, and the object is marked as weakly
referenced (`SharedOk.live`). The rest of `SharedOk` says what makes this stable: who has the lock
while a variable is not registered (`changing`), which registrations may be out of date (those of
an object that is being swept), and that the deallocation of an object that is being stored has
not begun (`users_alive`).

Results:
* `threadStep_sound`: every step of a thread that keeps the rules of use keeps the invariant of
  the shared state and the thread's own, and leaves alone what other threads rely on.
* `Local.stable`: these are enough for the invariants of the other threads.
* `step_inv`: the invariant `Inv` is preserved by every step of the system.
-/

namespace Apple.Objc.WeakVariable

open Apple.Lib Apple.Objc.Weak Function List

variable {ι : Type*} {R : Runtime}

/-! ## Invariants -/

/-- Some thread is in the loop of `weak_clear_no_lock` for `o`. -/
def Sweeping (sh : Shared ι) (o : ℕ) : Prop := ∃ t, sh.stage o = .clearing t true

/-- The invariant of the shared state. -/
structure SharedOk (R : Runtime) (sh : Shared ι) : Prop where
  /-- A live variable is registered with the object it holds. -/
  live : ∀ v, sh.status v = .live → R.IsObject (sh.mem v) →
    (sh.mem v, v) ∈ sh.registry ∧ sh.weaklyReferenced (sh.mem v) = true
  /-- While a store changes a variable, the storing thread has the lock of the old object. -/
  changing : ∀ v, sh.status v = .changing → R.IsObject (sh.mem v) →
    sh.weaklyReferenced (sh.mem v) = true ∧
      ∃ t, sh.writer v = some t ∧ sh.lock (R.tableOf (sh.mem v)) = some t
  pair_object : ∀ o v, (o, v) ∈ sh.registry → R.IsObject o
  pair_dead : ∀ o v, (o, v) ∈ sh.registry → sh.status v = .dead → Sweeping sh o
  pair_live : ∀ o v, (o, v) ∈ sh.registry → sh.status v = .live → sh.mem v = o ∨ Sweeping sh o
  pair_busy : ∀ o v, (o, v) ∈ sh.registry → sh.status v = .changing ∨ sh.status v = .starting →
    Sweeping sh o ∨ ∃ t ∈ sh.users o, sh.writer v = some t
  sweeping_lock : ∀ o t, sh.stage o = .clearing t true → sh.lock (R.tableOf o) = some t
  users_alive : ∀ o t, t ∈ sh.users o → sh.stage o = .alive
  stage_object : ∀ o, sh.stage o ≠ .alive → R.IsObject o
  cleared : ∀ o, sh.stage o = .cleared → ∀ v, sh.status v = .live ∨ sh.status v = .changing →
    sh.mem v ≠ o

/-- The locks that a thread holds. -/
def held (R : Runtime) : Pc → List ℕ
  | .store a (.check _ oldObj) => a.tables R oldObj
  | .store a (.testClass _ oldObj) => a.tables R oldObj
  | .store a (.unregister oldObj) => a.tables R oldObj
  | .store a (.register oldObj) => a.tables R oldObj
  | .store a (.setBit oldObj _) => a.tables R oldObj
  | .store a (.assign oldObj _) => a.tables R oldObj
  | .store a (.unlock oldObj) => a.tables R oldObj
  | .load _ (.check obj) => [R.tableOf obj]
  | .load _ (.retain obj) => [R.tableOf obj]
  | .load _ (.unlock obj _) => [R.tableOf obj]
  | .clear obj .locked => [R.tableOf obj]
  | .clear obj (.sweep _) => [R.tableOf obj]
  | .clear obj .remove => [R.tableOf obj]
  | .clear obj .erase => [R.tableOf obj]
  | _ => []

/-- The variable that a thread stores into. -/
def writes : Pc → Option ℕ
  | .store a _ => some a.location
  | _ => none

/-- The object that a thread stores. -/
def stores : Pc → Option ℕ
  | .store a _ => if a.haveNew then some a.newObj else none
  | _ => none

/-- The object that a thread clears, and whether it is in the loop. -/
def clears : Pc → Option (ℕ × Bool)
  | .clear obj (.sweep _) => some (obj, true)
  | .clear obj .remove => some (obj, true)
  | .clear obj _ => some (obj, false)
  | _ => none

/-- `storeWeak` between unregistration and assignment. Other registrations of the variable
than with `newObj` are about to be removed. -/
structure Window (sh : Shared ι) (a : StoreArgs) (oldObj : ℕ) (newObj : Option ℕ) : Prop where
  haveNew : a.haveNew = true
  status : sh.status a.location = a.during
  mem : a.haveOld = true → sh.mem a.location = oldObj
  pairs : ∀ o, (o, a.location) ∈ sh.registry → some o = newObj ∨ Sweeping sh o

/-- What the local variables of a thread say about the shared state. -/
def PcOk (R : Runtime) (sh : Shared ι) : Pc → Prop
  | .store a (.read _) => sh.status a.location = a.before
  | .store a (.lock _ _) => sh.status a.location = a.before
  | .store a (.check _ _) => sh.status a.location = a.before
  | .store a (.classInit _) => sh.status a.location = a.before
  | .store a (.testClass _ oldObj) =>
    sh.status a.location = a.before ∧ (a.haveOld = true → sh.mem a.location = oldObj)
  | .store a (.unregister oldObj) =>
    sh.status a.location = a.before ∧ (a.haveOld = true → sh.mem a.location = oldObj)
  | .store a (.register oldObj) => Window sh a oldObj none
  | .store a (.setBit oldObj newObj) =>
    Window sh a oldObj (some newObj) ∧ newObj = a.newObj ∧ R.IsObject newObj ∧
      (newObj, a.location) ∈ sh.registry
  | .store a (.assign oldObj newObj) =>
    Window sh a oldObj (some newObj) ∧ (R.IsObject newObj → newObj = a.newObj ∧
      (newObj, a.location) ∈ sh.registry ∧ sh.weaklyReferenced newObj = true)
  | .store a (.unlock _) => sh.status a.location = .live ∨ sh.status a.location = .dead
  | .clear obj (.sweep referrers) =>
    R.IsObject obj ∧ ∀ v, (obj, v) ∈ sh.registry → sh.mem v = obj → v ∈ referrers
  | .clear obj .remove => R.IsObject obj ∧ ∀ v, (obj, v) ∈ sh.registry → sh.mem v ≠ obj
  | .clear obj .erase => R.IsObject obj ∧ ∀ v, (obj, v) ∉ sh.registry
  | .clear obj _ => R.IsObject obj
  | _ => True

/-- The invariant of one thread. -/
structure Local (R : Runtime) (t : ι) (pc : Pc) (sh : Shared ι) : Prop where
  lock : ∀ l, sh.lock l = some t ↔ l ∈ held R pc
  writer : ∀ v, sh.writer v = some t ↔ writes pc = some v
  users : ∀ o, t ∈ sh.users o ↔ stores pc = some o
  stage : ∀ o b, sh.stage o = .clearing t b ↔ clears pc = some (o, b)
  ok : PcOk R sh pc

/-- The invariant of the system. -/
def Inv (R : Runtime) (g : State ι) : Prop :=
  SharedOk R g.shared ∧ ∀ t, Local R t (g.pc t) g.shared

/-! ## What a step leaves alone -/

/-- What a step of thread `t` leaves alone. -/
structure Guarantee (R : Runtime) (t : ι) (sh sh' : Shared ι) : Prop where
  lock : ∀ l u, u ≠ t → (sh'.lock l = some u ↔ sh.lock l = some u)
  writer : ∀ v u, u ≠ t → (sh'.writer v = some u ↔ sh.writer v = some u)
  users : ∀ o u, u ≠ t → (u ∈ sh'.users o ↔ u ∈ sh.users o)
  stage : ∀ o u b, u ≠ t → (sh'.stage o = .clearing u b ↔ sh.stage o = .clearing u b)
  status : ∀ v u, u ≠ t → sh.writer v = some u → sh'.status v = sh.status v
  mem : ∀ v u, u ≠ t → sh.writer v = some u → sh.lock (R.tableOf (sh.mem v)) = some u →
    sh'.mem v = sh.mem v
  mem_new : ∀ v o, sh'.mem v = o → R.IsObject o → sh.mem v = o ∨ sh.stage o = .alive
  pair_new : ∀ o v, (o, v) ∈ sh'.registry → (o, v) ∈ sh.registry ∨
    sh.writer v = some t ∧ sh.stage o = .alive
  pair_old : ∀ o v, (o, v) ∈ sh.registry → (o, v) ∈ sh'.registry ∨ sh.writer v = some t ∨
    Sweeping sh o
  sweeping : ∀ o v, (o, v) ∈ sh'.registry → Sweeping sh o → Sweeping sh' o
  weak : ∀ o, sh.stage o = .alive → sh.weaklyReferenced o = true → sh'.weaklyReferenced o = true

variable {a : StoreArgs}

theorem Window.stable {t u : ι} (hut : u ≠ t) {sh sh' : Shared ι} (hG : Guarantee R t sh sh')
    {oldObj : ℕ} {newObj : Option ℕ} (h : Window sh a oldObj newObj)
    (hwriter : sh.writer a.location = some u)
    (hlock : a.haveOld = true → sh.lock (R.tableOf oldObj) = some u) :
    Window sh' a oldObj newObj := by
  refine ⟨h.haveNew, ?_, ?_, ?_⟩
  · rw [hG.status _ u hut hwriter, h.status]
  · intro hold
    have hmem := h.mem hold
    rw [hG.mem _ u hut hwriter (by rw [hmem]; exact hlock hold), hmem]
  · intro o ho
    rcases hG.pair_new o _ ho with hpair | ⟨hw, _⟩
    · rcases h.pairs o hpair with heq | hsweep
      · exact .inl heq
      · exact .inr (hG.sweeping o _ ho hsweep)
    · rw [hwriter] at hw
      exact absurd (Option.some.inj hw) hut

theorem mem_tables_old (h : a.haveOld = true) (oldObj : ℕ) :
    R.tableOf oldObj ∈ a.tables R oldObj := by
  simp [StoreArgs.tables, h]

/-- The steps of other threads keep the invariant of a thread. -/
theorem Local.stable {t u : ι} (hut : u ≠ t) {sh sh' : Shared ι} (hG : Guarantee R t sh sh')
    (hS : SharedOk R sh) {pc : Pc} (h : Local R u pc sh) : Local R u pc sh' := by
  refine ⟨fun l => (hG.lock l u hut).trans (h.lock l), fun v => (hG.writer v u hut).trans
    (h.writer v), fun o => (hG.users o u hut).trans (h.users o), fun o b =>
    (hG.stage o u b hut).trans (h.stage o b), ?_⟩
  have hok := h.ok
  cases pc with
  | idle => trivial
  | load v p => trivial
  | store a p =>
    have hwriter : sh.writer a.location = some u := (h.writer _).mpr rfl
    have hstatus := hG.status _ u hut hwriter
    have hlock : ∀ oldObj, a.tables R oldObj = held R (.store a p) → a.haveOld = true →
        sh.lock (R.tableOf oldObj) = some u := by
      intro oldObj htables hold
      rw [h.lock, ← htables]
      exact mem_tables_old hold oldObj
    have hmem : ∀ oldObj, a.tables R oldObj = held R (.store a p) →
        (a.haveOld = true → sh.mem a.location = oldObj) →
        a.haveOld = true → sh'.mem a.location = oldObj := by
      intro oldObj htables hmem hold
      rw [hG.mem _ u hut hwriter, hmem hold]
      rw [hmem hold, hlock oldObj htables hold]
    have hkept : ∀ n, a.haveNew = true → n = a.newObj → (n, a.location) ∈ sh.registry →
        (n, a.location) ∈ sh'.registry ∧ sh.stage n = .alive := by
      intro n hnew hn hpair
      have halive : sh.stage n = .alive := by
        refine hS.users_alive n u ((h.users n).mpr ?_)
        simp [stores, hnew, hn]
      refine ⟨?_, halive⟩
      rcases hG.pair_old n _ hpair with hpair | hw | ⟨w, hsweep⟩
      · exact hpair
      · rw [hwriter] at hw
        exact absurd (Option.some.inj hw) hut
      · rw [halive] at hsweep
        cases hsweep
    cases p with
    | read _ | lock _ _ | check _ _ | classInit _ => exact hstatus.trans hok
    | testClass _ oldObj | unregister oldObj => exact ⟨hstatus.trans hok.1, hmem oldObj rfl hok.2⟩
    | register oldObj => exact Window.stable hut hG hok hwriter (hlock oldObj rfl)
    | setBit oldObj n =>
      obtain ⟨hwin, hn, hobj, hpair⟩ := hok
      exact ⟨Window.stable hut hG hwin hwriter (hlock oldObj rfl), hn, hobj,
        (hkept n hwin.haveNew hn hpair).1⟩
    | assign oldObj n =>
      obtain ⟨hwin, hnew⟩ := hok
      refine ⟨Window.stable hut hG hwin hwriter (hlock oldObj rfl), fun hobj => ?_⟩
      obtain ⟨hn, hpair, hweak⟩ := hnew hobj
      obtain ⟨hpair', halive⟩ := hkept n hwin.haveNew hn hpair
      exact ⟨hn, hpair', hG.weak n halive hweak⟩
    | unlock _ =>
      show sh'.status _ = _ ∨ sh'.status _ = _
      rw [hstatus]
      exact hok
  | clear o p =>
    have hbegun : sh.stage o ≠ .alive := fun halive => by
      have hstage := h.stage o
      cases p <;> simp [halive, clears] at hstage
    have hpairs : ∀ v, (o, v) ∈ sh'.registry → (o, v) ∈ sh.registry := fun v hpair =>
      (hG.pair_new o v hpair).resolve_right fun h => hbegun h.2
    have hmem : ∀ v, R.IsObject o → sh'.mem v = o → sh.mem v = o := fun v hobj hv =>
      (hG.mem_new v o hv hobj).resolve_right hbegun
    cases p with
    | test | lock | locked => exact hok
    | sweep vs | remove =>
      exact ⟨hok.1, fun v hpair hv => hok.2 v (hpairs v hpair) (hmem v hok.1 hv)⟩
    | erase => exact ⟨hok.1, fun v hpair => hok.2 v (hpairs v hpair)⟩

/-! ## What the steps do to the shared state -/

/-- A step keeps the invariant of the shared state and leaves alone what it must. -/
structure Sound (R : Runtime) (t : ι) (sh sh' : Shared ι) : Prop where
  shared : SharedOk R sh'
  guarantee : Guarantee R t sh sh'

theorem not_isObject_zero (R : Runtime) : ¬ R.IsObject 0 := by
  simp [Runtime.IsObject]

section Sound

variable {t : ι} {sh : Shared ι} (h : SharedOk R sh)

include h

theorem sound_quiet (x : ℕ → ℕ) (d i : ℕ → Bool) :
    Sound R t sh { sh with extraRc := x, deallocating := d, isInitialized := i } := by
  cases h
  constructor <;> constructor <;> grind [Sweeping]

variable {ls : List ℕ} {a : StoreArgs} {v o : ℕ}

theorem sound_lockAll (hfree : ∀ l ∈ ls, sh.lock l = none) : Sound R t sh (sh.lockAll t ls) := by
  cases h
  constructor <;> constructor <;> simp only [Shared.lockAll, Sweeping] at * <;> grind

/-- Locks are given back only outside of the critical section of a store and outside of the
loop of `weak_clear_no_lock`. -/
theorem sound_unlockAll (hheld : ∀ l ∈ ls, sh.lock l = some t)
    (hstatus : ∀ v, sh.writer v = some t → sh.status v ≠ .changing)
    (hstage : ∀ o, sh.stage o ≠ .clearing t true) : Sound R t sh (sh.unlockAll ls) := by
  cases h
  constructor <;> constructor <;> simp only [Shared.unlockAll, Sweeping] at * <;> grind

theorem sound_beginStore [DecidableEq ι]
    (hwriter : sh.writer a.location = none)
    (halive : a.haveNew = true → sh.stage a.newObj = .alive) :
    Sound R t sh { sh with
      writer := update sh.writer a.location (some t)
      users := if a.haveNew then update sh.users a.newObj (insert t (sh.users a.newObj))
        else sh.users } := by
  cases h
  constructor <;> constructor <;> grind [Sweeping]

theorem sound_initNil (hwriter : sh.writer v = none)
    (hdead : sh.status v = .dead) :
    Sound R t sh { sh with
      mem := update sh.mem v 0
      status := update sh.status v .live } := by
  have hzero := not_isObject_zero R
  cases h
  constructor <;> constructor <;> grind [Sweeping]

variable {old : ℕ}

/-- Unregistering the old object. What is left for the variable is being swept. -/
theorem sound_unregister {status : Status}
    (hwriter : sh.writer a.location = some t) (hbefore : sh.status a.location = a.before)
    (hmem : a.haveOld = true → sh.mem a.location = old)
    (hlock : a.haveOld = true → sh.lock (R.tableOf old) = some t)
    (hstatus : status = a.during ∨ status = .dead) :
    Sound R t sh (sh.unregistered a old status) := by
  cases h
  constructor <;> constructor <;>
    simp only [Shared.unregistered, Sweeping, StoreArgs.before,
      StoreArgs.during] at * <;> grind

theorem pairs_unregistered (status : Status) (hbefore : sh.status a.location = a.before)
    (hmem : a.haveOld = true → sh.mem a.location = old)
    (ho : (o, a.location) ∈ (sh.unregistered a old status).registry) : Sweeping sh o := by
  unfold Shared.unregistered at ho
  unfold StoreArgs.before at hbefore
  split_ifs at ho hbefore with hold
  · obtain ⟨hne, ho⟩ := Finset.mem_erase.mp ho
    rcases h.pair_live o _ ho hbefore with heq | hsweep
    · rw [hmem hold] at heq
      exact absurd (by rw [heq]) hne
    · exact hsweep
  · exact h.pair_dead o _ ho hbefore

theorem sound_register {n : ℕ} (hwriter : sh.writer v = some t)
    (hobj : R.IsObject n) (husers : t ∈ sh.users n)
    (hstatus : sh.status v = .changing ∨ sh.status v = .starting) :
    Sound R t sh { sh with registry := insert (n, v) sh.registry } := by
  cases h
  constructor <;> constructor <;> grind [Sweeping]

theorem sound_setBit (n : ℕ) : Sound R t sh
      { sh with weaklyReferenced := update sh.weaklyReferenced n true } := by
  cases h
  constructor <;> constructor <;> grind [Sweeping]

/-- The assignment. The new object is not cleared, because its deallocation does not begin
while it is being stored. -/
theorem sound_assign {n : ℕ} (hwriter : sh.writer v = some t)
    (hnew : R.IsObject n →
      t ∈ sh.users n ∧ (n, v) ∈ sh.registry ∧ sh.weaklyReferenced n = true)
    (hpairs : ∀ o, (o, v) ∈ sh.registry → o = n ∨ Sweeping sh o) :
    Sound R t sh { sh with
      mem := update sh.mem v n
      status := update sh.status v .live } := by
  cases h
  constructor <;> constructor <;> grind [Sweeping]

theorem sound_endStore [DecidableEq ι] {n : ℕ}
    (hheld : ∀ l ∈ ls, sh.lock l = some t) (hwriter : ∀ v', sh.writer v' = some t ↔ v' = v)
    (hstatus : sh.status v = .live ∨ sh.status v = .dead)
    (hstage : ∀ o, sh.stage o ≠ .clearing t true) :
    Sound R t sh { sh.unlockAll ls with
      writer := update sh.writer v none
      users := update sh.users n ((sh.users n).erase t) } := by
  cases h
  constructor <;> constructor <;>
    simp only [Shared.unlockAll, Sweeping] at * <;> grind

theorem sound_beginClear (hobj : R.IsObject o)
    (hstage : sh.stage o = .alive) (husers : sh.users o = ∅) :
    Sound R t sh { sh with stage := update sh.stage o (.clearing t false) } := by
  cases h
  constructor <;> constructor <;> grind [Sweeping]

/-- No lock is taken for an object without the weakly-referenced bit: no variable holds it. -/
theorem sound_skip (hobj : R.IsObject o)
    (hstage : sh.stage o = .clearing t false) (hweak : sh.weaklyReferenced o = false) :
    Sound R t sh { sh with stage := update sh.stage o .cleared } := by
  cases h
  constructor <;> constructor <;> grind [Sweeping]

theorem sound_beginSweep (hstage : sh.stage o = .clearing t false)
    (hlock : sh.lock (R.tableOf o) = some t) :
    Sound R t sh { sh with stage := update sh.stage o (.clearing t true) } := by
  cases h
  constructor <;> constructor <;> grind [Sweeping]

theorem sound_sweepOne (hstage : sh.stage o = .clearing t true)
    (hmem : sh.mem v = o) : Sound R t sh { sh with mem := update sh.mem v 0 } := by
  have hzero := not_isObject_zero R
  cases h
  constructor <;> constructor <;> grind [Sweeping]

theorem sound_remove (hstage : sh.stage o = .clearing t true)
    (hmem : ∀ v, (o, v) ∈ sh.registry → sh.mem v ≠ o) :
    Sound R t sh { sh with
      registry := sh.registry.filter (·.1 ≠ o)
      stage := update sh.stage o (.clearing t false) } := by
  cases h
  constructor <;> constructor <;>
    simp only [Sweeping] at * <;> grind

/-- The end of `clearDeallocating` under the lock. No variable holds the object: a live one would
be registered, and one that is being changed would have its thread hold the lock. -/
theorem sound_erase (hobj : R.IsObject o)
    (hstage : sh.stage o = .clearing t false) (hlock : sh.lock (R.tableOf o) = some t)
    (hpairs : ∀ v, (o, v) ∉ sh.registry) (hwriter : ∀ v, sh.writer v ≠ some t)
    (hsweep : ∀ o, sh.stage o ≠ .clearing t true) {weak : ℕ → Bool}
    (hweak : ∀ o', o' ≠ o → weak o' = sh.weaklyReferenced o') (d : ℕ → Bool) (x : ℕ → ℕ) :
    Sound R t sh { sh.unlockAll [R.tableOf o] with
      stage := update sh.stage o .cleared
      weaklyReferenced := weak
      deallocating := d
      extraRc := x } := by
  cases h
  constructor <;> constructor <;>
    simp only [Shared.unlockAll, Sweeping] at * <;>
    grind

end Sound

/-! ## What the steps do to the thread itself -/

section Own

variable {t : ι} {sh sh' : Shared ι} {pc pc' : Pc}

/-- A step that takes and gives back nothing. -/
theorem Local.move (h : Local R t pc sh) (hok : PcOk R sh' pc')
    (hlock : sh'.lock = sh.lock := by rfl) (hwriter : sh'.writer = sh.writer := by rfl)
    (husers : sh'.users = sh.users := by rfl) (hstage : sh'.stage = sh.stage := by rfl)
    (hheld : held R pc' = held R pc := by rfl) (hwrites : writes pc' = writes pc := by rfl)
    (hstores : stores pc' = stores pc := by rfl) (hclears : clears pc' = clears pc := by rfl) :
    Local R t pc' sh' := by
  refine ⟨?_, ?_, ?_, ?_, hok⟩
  · rw [hlock, hheld]
    exact h.lock
  · rw [hwriter, hwrites]
    exact h.writer
  · rw [husers, hstores]
    exact h.users
  · rw [hstage, hclears]
    exact h.stage

theorem Local.lockAll (h : Local R t pc sh) (hok : PcOk R (sh.lockAll t (held R pc')) pc')
    (hpc : held R pc = [] := by rfl) (hwrites : writes pc' = writes pc := by rfl)
    (hstores : stores pc' = stores pc := by rfl) (hclears : clears pc' = clears pc := by rfl) :
    Local R t pc' (sh.lockAll t (held R pc')) := by
  refine ⟨?_, ?_, ?_, ?_, hok⟩
  · intro l
    have hfree : sh.lock l ≠ some t := by
      rw [Ne, h.lock, hpc]
      exact not_mem_nil
    by_cases hl : l ∈ held R pc' <;> simp [Shared.lockAll, hfree]
  · rw [hwrites]
    exact h.writer
  · rw [hstores]
    exact h.users
  · rw [hclears]
    exact h.stage

theorem Local.unlockAll (h : Local R t pc sh) (hok : PcOk R (sh.unlockAll (held R pc)) pc')
    (hpc' : held R pc' = [] := by rfl) (hwrites : writes pc' = writes pc := by rfl)
    (hstores : stores pc' = stores pc := by rfl) (hclears : clears pc' = clears pc := by rfl) :
    Local R t pc' (sh.unlockAll (held R pc)) := by
  refine ⟨?_, ?_, ?_, ?_, hok⟩
  · intro l
    rw [hpc']
    by_cases hl : l ∈ held R pc
    · simp [Shared.unlockAll, hl]
    · simp [Shared.unlockAll, h.lock]
  · rw [hwrites]
    exact h.writer
  · rw [hstores]
    exact h.users
  · rw [hclears]
    exact h.stage

end Own

/-! ## The steps of the functions -/

section Steps

variable {t : ι} {sh sh' : Shared ι} {c : Choice} {e : Event} {pc' : Pc} {a : StoreArgs} {v o : ℕ}
  {p : ClearPc} {pc : Pc}

theorem Local.not_sweeping (h : Local R t pc sh) (hpc : ∀ o, clears pc ≠ some (o, true))
    (o : ℕ) : sh.stage o ≠ .clearing t true :=
  fun ho => hpc o ((h.stage o true).mp ho)

/-- A thread that is not in the critical section of a store, nor in the loop of
`weak_clear_no_lock`, may give back its locks. -/
theorem sound_unlock (hS : SharedOk R sh) (h : Local R t pc sh)
    (hstatus : ∀ v, writes pc = some v → sh.status v ≠ .changing)
    (hpc : ∀ o, clears pc ≠ some (o, true)) : Sound R t sh (sh.unlockAll (held R pc)) :=
  sound_unlockAll hS (fun l hl => (h.lock l).mpr hl)
    (fun v hv => hstatus v ((h.writer v).mp hv)) (h.not_sweeping hpc)

theorem before_ne_changing (a : StoreArgs) : a.before ≠ .changing := by
  unfold StoreArgs.before
  split_ifs <;> simp

theorem during_busy (a : StoreArgs) : a.during = .changing ∨ a.during = .starting := by
  unfold StoreArgs.during
  split_ifs <;> simp

theorem lockThen_eq_some {ls : List ℕ} {p : Pc} (h : lockThen t sh ls p = some (e, pc', sh')) :
    (∀ l ∈ ls, sh.lock l = none) ∧ e = .silent ∧ pc' = p ∧ sh' = sh.lockAll t ls := by
  unfold lockThen at h
  split_ifs at h with hfree
  cases h
  exact ⟨hfree, rfl, rfl, rfl⟩

/-- The program points that are not the end of a load. -/
def NotLoaded : Pc → Prop
  | .load _ (.unlock _ _) => False
  | _ => True

/-- What the steps of a load can end in: the object is retained while it is not deallocating,
and the load goes on to return it; or it goes on to return nil, or returns. -/
inductive Loaded (R : Runtime) (sh : Shared ι) (v : ℕ) (p : LoadPc) (e : Event) (pc' : Pc) : Prop
  | retained (obj : ℕ) (he : e = .retained v obj) (halive : sh.deallocating obj = false)
      (hpc : pc' = .load v (.unlock obj obj))
  | quiet (he : e = .silent) (hpc : NotLoaded pc' ∨ ∃ obj, pc' = .load v (.unlock obj 0))
  | returned (r : ℕ) (he : e = .returned v r) (hpc : pc' = .idle)
      (hr : R.IsObject r → ∃ obj, p = .unlock obj r)

theorem registerOutcome_eq_some {remembered : Bool} {n : ℕ}
    (h : registerOutcome R sh c a = some (remembered, n)) :
    (remembered = true ∧ n = a.newObj ∧ R.IsObject n) ∨ (remembered = false ∧ ¬ R.IsObject n) := by
  have hzero := not_isObject_zero R
  unfold registerOutcome at h
  by_cases hobj : R.IsObject a.newObj
  · rw [if_pos hobj] at h
    split at h
    · cases h
      exact .inr ⟨rfl, hzero⟩
    · split_ifs at h
      cases h
      exact .inr ⟨rfl, hzero⟩
    · cases h
      exact .inl ⟨rfl, rfl, hobj⟩
  · rw [if_neg hobj] at h
    cases h
    exact .inr ⟨rfl, hobj⟩

section

variable (hS : SharedOk R sh)
include hS

theorem storeStep_sound [DecidableEq ι] {p : StorePc}
    (h : Local R t (.store a p) sh) (hstep : storeStep R t sh c a p = some (e, pc', sh')) :
    Sound R t sh sh' ∧ Local R t pc' sh' ∧ e = .silent ∧ NotLoaded pc' := by
  have hwriter : sh.writer a.location = some t := (h.writer _).mpr rfl
  have hok := h.ok
  cases p with
  | read prev =>
    cases hstep
    exact ⟨sound_quiet hS _ _ _, h.move hok, rfl, trivial⟩
  | lock prev old =>
    obtain ⟨hfree, rfl, rfl, rfl⟩ := lockThen_eq_some hstep
    exact ⟨sound_lockAll hS hfree, h.lockAll hok, rfl, trivial⟩
  | check prev old =>
    simp only [storeStep] at hstep
    split_ifs at hstep with hchanged <;> cases hstep
    · refine ⟨sound_unlock hS h ?_ nofun, h.unlockAll hok, rfl, trivial⟩
      rintro _ ⟨⟩ heq
      exact before_ne_changing a (hok.symm.trans heq)
    · refine ⟨sound_quiet hS _ _ _, h.move ⟨hok, ?_⟩, rfl, trivial⟩
      intro hold
      by_contra hne
      exact hchanged ⟨hold, hne⟩
  | testClass prev old =>
    simp only [storeStep] at hstep
    split_ifs at hstep with hclass <;> cases hstep
    · refine ⟨sound_unlock hS h ?_ nofun, h.unlockAll hok.1, rfl, trivial⟩
      rintro _ ⟨⟩ heq
      exact before_ne_changing a (hok.1.symm.trans heq)
    · exact ⟨sound_quiet hS _ _ _, h.move hok, rfl, trivial⟩
  | classInit cls =>
    simp only [storeStep] at hstep
    split_ifs at hstep
    all_goals
      cases hstep
      exact ⟨sound_quiet hS _ _ _, h.move hok, rfl, trivial⟩
  | unregister old =>
    have hlock : a.haveOld = true → sh.lock (R.tableOf old) = some t := fun hold =>
      (h.lock _).mpr (mem_tables_old hold old)
    simp only [storeStep] at hstep
    split_ifs at hstep with hnew <;> cases hstep
    · refine ⟨sound_unregister hS hwriter hok.1 hok.2 hlock (.inl rfl),
        h.move ⟨hnew, update_self .., hok.2, ?_⟩, rfl, trivial⟩
      intro o ho
      exact .inr (pairs_unregistered hS a.during hok.1 hok.2 ho)
    · exact ⟨sound_unregister hS hwriter hok.1 hok.2 hlock (.inr rfl),
        h.move (.inr (update_self ..)), rfl, trivial⟩
  | register old =>
    simp only [storeStep] at hstep
    split at hstep
    · cases hstep
    next remembered n hout =>
    have husers : t ∈ sh.users a.newObj := (h.users _).mpr (by simp [stores, hok.haveNew])
    have hbusy : sh.status a.location = .changing ∨ sh.status a.location = .starting := by
      rw [hok.status]
      exact during_busy a
    rcases registerOutcome_eq_some hout with ⟨rfl, rfl, hobj⟩ | ⟨rfl, hobj⟩
    · rw [if_pos hobj] at hstep
      cases hstep
      refine ⟨sound_register hS hwriter hobj husers hbusy, h.move
        ⟨⟨hok.haveNew, hok.status, hok.mem, ?_⟩, rfl, hobj, Finset.mem_insert_self _ _⟩,
        rfl, trivial⟩
      intro o ho
      rcases Finset.mem_insert.mp ho with heq | ho
      · cases heq
        exact .inl rfl
      · exact .inr ((hok.pairs o ho).resolve_left (by simp))
    · rw [if_neg hobj] at hstep
      cases hstep
      refine ⟨sound_quiet hS _ _ _, h.move
        ⟨⟨hok.haveNew, hok.status, hok.mem, ?_⟩, fun hobj' => absurd hobj' hobj⟩,
        rfl, trivial⟩
      intro o ho
      exact .inr ((hok.pairs o ho).resolve_left (by simp))
  | setBit old n =>
    cases hstep
    obtain ⟨hwin, hn, hobj, hpair⟩ := hok
    refine ⟨sound_setBit hS n, h.move
      ⟨⟨hwin.haveNew, hwin.status, hwin.mem, hwin.pairs⟩, fun _ => ⟨hn, hpair, ?_⟩⟩,
      rfl, trivial⟩
    exact update_self ..
  | assign old n =>
    cases hstep
    obtain ⟨hwin, hnew⟩ := hok
    refine ⟨sound_assign hS hwriter ?_ ?_, h.move (.inl ?_), rfl, trivial⟩
    · intro hobj
      obtain ⟨rfl, hpair, hweak⟩ := hnew hobj
      exact ⟨(h.users _).mpr (by simp [stores, hwin.haveNew]), hpair, hweak⟩
    · intro o ho
      exact (hwin.pairs o ho).imp_left Option.some.inj
    · exact update_self ..
  | unlock old =>
    cases hstep
    have hlocks : ∀ l ∈ a.tables R old, sh.lock l = some t := fun l hl => (h.lock l).mpr hl
    have hw : ∀ v, sh.writer v = some t ↔ v = a.location := by
      intro v
      rw [h.writer v]
      simp [writes, eq_comm]
    refine ⟨sound_endStore hS hlocks hw hok (h.not_sweeping nofun),
      ⟨?_, ?_, ?_, fun o b => ?_, trivial⟩, rfl, trivial⟩
    · intro l
      have hl := h.lock l
      by_cases hmem : l ∈ a.tables R old
      · simp [Shared.unlockAll, hmem, held]
      · simp only [Shared.unlockAll, if_neg hmem]
        exact hl.trans (iff_of_false hmem not_mem_nil)
    · intro v
      by_cases hv : v = a.location
      · simp [hv, writes]
      · simp [Shared.unlockAll, hw, hv, writes]
    · intro o
      by_cases ho : o = a.newObj
      · simp [ho, stores]
      · have hnot : t ∉ sh.users o := by
          rw [h.users o]
          simp only [stores]
          split_ifs <;> simp [Ne.symm ho]
        simp [Shared.unlockAll, ho, hnot, stores]
    · exact (h.stage o b).trans (by simp [clears])

theorem tryRetain_sound {obj : ℕ} (h : Local R t (.load v (.retain obj)) sh)
    (hstep : tryRetain sh v obj = some (e, pc', sh')) :
    Sound R t sh sh' ∧ Local R t pc' sh' ∧ Loaded R sh v (.retain obj) e pc' := by
  unfold tryRetain at hstep
  split_ifs at hstep with hdealloc <;> cases hstep
  · exact ⟨sound_quiet hS _ _ _, h.move trivial, .quiet rfl (.inr ⟨obj, rfl⟩)⟩
  · exact ⟨sound_quiet hS _ _ _, h.move trivial,
      .retained obj rfl (Bool.eq_false_of_not_eq_true hdealloc) rfl⟩

theorem loadStep_sound {p : LoadPc} (h : Local R t (.load v p) sh)
    (hstep : loadStep R t sh c v p = some (e, pc', sh')) :
    Sound R t sh sh' ∧ Local R t pc' sh' ∧ Loaded R sh v p e pc' := by
  cases p with
  | read =>
    simp only [loadStep] at hstep
    split_ifs at hstep with hobj <;> cases hstep
    · exact ⟨sound_quiet hS _ _ _, h.move trivial, .quiet rfl (.inl trivial)⟩
    · exact ⟨sound_quiet hS _ _ _, h.move trivial,
        .returned _ rfl rfl fun hobj' => absurd hobj' hobj⟩
  | lock obj =>
    obtain ⟨hfree, rfl, rfl, rfl⟩ := lockThen_eq_some hstep
    exact ⟨sound_lockAll hS hfree, h.lockAll trivial, .quiet rfl (.inl trivial)⟩
  | check obj =>
    simp only [loadStep] at hstep
    split_ifs at hstep <;> cases hstep
    · exact ⟨sound_unlock hS h nofun nofun, h.unlockAll trivial, .quiet rfl (.inl trivial)⟩
    · exact ⟨sound_quiet hS _ _ _, h.move trivial, .quiet rfl (.inl trivial)⟩
  | retain obj =>
    simp only [loadStep] at hstep
    split at hstep
    · exact tryRetain_sound hS h hstep
    split at hstep
    · split at hstep
      · exact tryRetain_sound hS h hstep
      · cases hstep
        exact ⟨sound_quiet hS _ _ _, h.move trivial, .quiet rfl (.inr ⟨obj, rfl⟩)⟩
    · cases hstep
      exact ⟨sound_unlock hS h nofun nofun, h.unlockAll trivial, .quiet rfl (.inl trivial)⟩
  | classInit cls =>
    cases hstep
    exact ⟨sound_quiet hS _ _ _, h.move trivial, .quiet rfl (.inl trivial)⟩
  | unlock obj result =>
    cases hstep
    exact ⟨sound_unlock hS h nofun nofun, h.unlockAll trivial,
      .returned result rfl rfl fun _ => ⟨obj, rfl⟩⟩

variable {b : Bool}

omit hS in
theorem Local.clearing [DecidableEq ι] {p' : ClearPc} (h : Local R t (.clear o p) sh)
    {b' : Bool} (hok : PcOk R sh' (.clear o p'))
    (hstage : sh'.stage = update sh.stage o (.clearing t b') := by rfl)
    (hclears : clears (.clear o p) = some (o, b) := by rfl)
    (hclears' : clears (.clear o p') = some (o, b') := by rfl)
    (hheld : held R (.clear o p') = held R (.clear o p) := by rfl)
    (hlock : sh'.lock = sh.lock := by rfl) (hwriter : sh'.writer = sh.writer := by rfl)
    (husers : sh'.users = sh.users := by rfl) : Local R t (.clear o p') sh' := by
  refine ⟨?_, ?_, ?_, fun o' b'' => ?_, hok⟩
  · rw [hlock, hheld]
    exact h.lock
  · rw [hwriter]
    exact h.writer
  · rw [husers]
    exact h.users
  · rw [hstage, hclears']
    by_cases ho : o' = o
    · simp [ho]
    · have := h.stage o' b''
      rw [hclears] at this
      simp [ho, Ne.symm ho, this]

/-- An object whose deallocation has begun and that is not weakly referenced is not registered. -/
theorem no_pairs_of_not_weak (hobj : R.IsObject o)
    (hstage : sh.stage o = .clearing t false) (hweak : ¬ sh.weaklyReferenced o = true) (v : ℕ) :
    (o, v) ∉ sh.registry := by
  intro hpair
  have hsweep : ¬ Sweeping sh o := by
    rintro ⟨u, hu⟩
    rw [hstage] at hu
    cases hu
  have hbusy : sh.status v = .changing ∨ sh.status v = .starting → False := by
    intro hv
    rcases hS.pair_busy o v hpair hv with h | ⟨u, hu, _⟩
    · exact hsweep h
    · have halive := hS.users_alive o u hu
      rw [hstage] at halive
      cases halive
  cases hv : sh.status v with
  | dead => exact hsweep (hS.pair_dead o v hpair hv)
  | live =>
    rcases hS.pair_live o v hpair hv with rfl | h
    · exact hweak (hS.live v hv hobj).2
    · exact hsweep h
  | changing => exact hbusy (.inl hv)
  | starting => exact hbusy (.inr hv)

omit hS in
/-- The end of `clearDeallocating`. -/
theorem Local.endClear [DecidableEq ι] (h : Local R t (.clear o p) sh)
    (hlock : ∀ l, sh'.lock l ≠ some t) (hclears : clears (.clear o p) = some (o, b) := by rfl)
    (hwriter : sh'.writer = sh.writer := by rfl) (husers : sh'.users = sh.users := by rfl)
    (hstage : sh'.stage = update sh.stage o .cleared := by rfl) : Local R t .idle sh' := by
  refine ⟨fun l => iff_of_false (hlock l) not_mem_nil, ?_, ?_, fun o' b' => ?_, trivial⟩
  · rw [hwriter]
    exact h.writer
  · rw [husers]
    exact h.users
  · rw [hstage]
    by_cases ho : o' = o
    · simp [ho, clears]
    · have := h.stage o' b'
      rw [hclears] at this
      simp [ho, Ne.symm ho, this, clears]

theorem clearStep_sound [DecidableEq ι]
    (h : Local R t (.clear o p) sh) (hstep : clearStep R t sh c o p = some (e, pc', sh')) :
    Sound R t sh sh' ∧ Local R t pc' sh' ∧ e = .silent ∧ NotLoaded pc' := by
  have hok := h.ok
  cases p with
  | test =>
    have hstage : sh.stage o = .clearing t false := (h.stage o false).mpr rfl
    simp only [clearStep] at hstep
    split_ifs at hstep with hskip <;> cases hstep
    · exact ⟨sound_skip hS hok hstage (by simpa using hskip.2.1),
        h.endClear fun l hl => not_mem_nil ((h.lock l).mp hl), rfl, trivial⟩
    · exact ⟨sound_quiet hS _ _ _, h.move hok, rfl, trivial⟩
  | lock =>
    obtain ⟨hfree, rfl, rfl, rfl⟩ := lockThen_eq_some hstep
    exact ⟨sound_lockAll hS hfree, h.lockAll hok, rfl, trivial⟩
  | locked =>
    have hstage : sh.stage o = .clearing t false := (h.stage o false).mpr rfl
    have hlock : sh.lock (R.tableOf o) = some t := (h.lock _).mpr (mem_singleton_self _)
    simp only [clearStep] at hstep
    split_ifs at hstep with hweak hscan <;> cases hstep
    · refine ⟨sound_beginSweep hS hstage hlock, h.clearing ⟨hok, ?_⟩, rfl, trivial⟩
      intro v hpair _
      rw [← List.mem_toFinset, hscan]
      exact mem_referrers.mpr hpair
    · exact ⟨sound_quiet hS _ _ _, h.move
        ⟨hok, no_pairs_of_not_weak hS hok hstage hweak⟩, rfl, trivial⟩
  | sweep vs =>
    have hstage : sh.stage o = .clearing t true := (h.stage o true).mpr rfl
    cases vs with
    | nil =>
      cases hstep
      refine ⟨sound_quiet hS _ _ _, h.move ⟨hok.1, ?_⟩, rfl, trivial⟩
      intro v hpair hv
      exact not_mem_nil (hok.2 v hpair hv)
    | cons x xs =>
      have hrest : ∀ v, (o, v) ∈ sh.registry → sh.mem v = o → v ≠ x → v ∈ xs := by
        intro v hpair hv hne
        exact (mem_cons.mp (hok.2 v hpair hv)).resolve_left hne
      simp only [clearStep] at hstep
      split_ifs at hstep with hhold <;> cases hstep
      · refine ⟨sound_sweepOne hS hstage hhold,
          h.move ⟨hok.1, fun v hpair hv => ?_⟩, rfl, trivial⟩
        have hne : v ≠ x := by
          rintro rfl
          exact hok.1.1 (hv.symm.trans (update_self ..))
        have hv' : sh.mem v = o := (update_of_ne hne ..).symm.trans hv
        exact hrest v hpair hv' hne
      · refine ⟨sound_quiet hS _ _ _,
          h.move ⟨hok.1, fun v hpair hv => ?_⟩, rfl, trivial⟩
        exact hrest v hpair hv (fun hvx => hhold (hvx ▸ hv))
  | remove =>
    have hstage : sh.stage o = .clearing t true := (h.stage o true).mpr rfl
    cases hstep
    refine ⟨sound_remove hS hstage hok.2, h.clearing ⟨hok.1, ?_⟩, rfl, trivial⟩
    intro v hpair
    exact (Finset.mem_filter.mp hpair).2 rfl
  | erase =>
    have hstage : sh.stage o = .clearing t false := (h.stage o false).mpr rfl
    have hlock : sh.lock (R.tableOf o) = some t := (h.lock _).mpr (mem_singleton_self _)
    have hwriter : ∀ v, sh.writer v ≠ some t := fun v hv => nomatch (h.writer v).mp hv
    have hsweep := h.not_sweeping nofun
    have hfree : ∀ l, (sh.unlockAll [R.tableOf o]).lock l ≠ some t := by
      intro l
      have hl := h.lock l
      by_cases hmem : l ∈ [R.tableOf o]
      · simp only [Shared.unlockAll, if_pos hmem]
        exact (Option.some_ne_none t).symm
      · simp only [Shared.unlockAll, if_neg hmem]
        exact fun heq => hmem (hl.mp heq)
    simp only [clearStep] at hstep
    split_ifs at hstep <;> cases hstep
    · exact ⟨sound_erase hS hok.1 hstage hlock hok.2 hwriter hsweep (fun _ _ => rfl) _ _,
        h.endClear hfree, rfl, trivial⟩
    · exact ⟨sound_erase hS hok.1 hstage hlock hok.2 hwriter hsweep
        (fun o' ho' => update_of_ne ho' ..) _ _, h.endClear hfree, rfl, trivial⟩

theorem callStep_sound [DecidableEq ι] (h : Local R t .idle sh) {op : Op}
    (hallowed : Allowed sh op) (hstep : callStep R t sh op = some (e, pc', sh')) :
    Sound R t sh sh' ∧ Local R t pc' sh' ∧ e = .silent ∧ NotLoaded pc' := by
  cases op with
  | storeWeak a =>
    obtain ⟨hstatus, halive⟩ := hallowed
    simp only [callStep] at hstep
    split at hstep
    · cases hstep
    next hfree =>
    have hwriter : sh.writer a.location = none := by
      by_contra hne
      exact hfree (.inl hne)
    split at hstep
    next hnil =>
      cases hstep
      have hdead : sh.status a.location = .dead := by
        rw [hstatus, StoreArgs.before, if_neg hnil.1]
      exact ⟨sound_initNil hS hwriter hdead, h.move trivial, rfl, trivial⟩
    next hnil =>
      cases hstep
      refine ⟨sound_beginStore hS hwriter halive,
        ⟨h.lock, fun v => ?_, fun o => ?_, h.stage, hstatus⟩, rfl, trivial⟩
      · by_cases hv : v = a.location
        · simp [hv, writes]
        · have := h.writer v
          simp [hv, Ne.symm hv, writes, this]
      · have hnot : t ∉ sh.users o := by
          rw [h.users o]
          simp [stores]
        by_cases hnew : a.haveNew
        · by_cases ho : o = a.newObj
          · simp [hnew, ho, stores]
          · simp [hnew, ho, Ne.symm ho, stores, hnot]
        · simp [hnew, stores, hnot]
  | loadWeakRetained v =>
    cases hstep
    exact ⟨sound_quiet hS _ _ _, h.move trivial, rfl, trivial⟩
  | rootRetain o =>
    simp only [callStep] at hstep
    split_ifs at hstep
    cases hstep
    exact ⟨sound_quiet hS _ _ _, h.move trivial, rfl, trivial⟩
  | rootRelease o =>
    simp only [callStep] at hstep
    split_ifs at hstep
    all_goals
      cases hstep
      exact ⟨sound_quiet hS _ _ _, h.move trivial, rfl, trivial⟩
  | clearDeallocating o =>
    simp only [callStep] at hstep
    split_ifs at hstep with hdealloc
    cases hstep
    obtain ⟨hobj, _, hstage⟩ := hdealloc
    refine ⟨sound_beginClear hS hobj hstage hallowed,
      ⟨h.lock, h.writer, h.users, fun o' b => ?_, hobj⟩, rfl, trivial⟩
    by_cases ho : o' = o
    · subst ho
      simp [clears]
    · have := h.stage o' b
      simp [ho, Ne.symm ho, clears, this]

/-- **Every step of a thread that keeps the rules of use is sound**, and keeps the invariant of
the thread. Only loads have events. -/
theorem threadStep_sound [DecidableEq ι] {pc : Pc} (h : Local R t pc sh)
    (hstep : SafeThreadStep R t pc sh e pc' sh') : Sound R t sh sh' ∧ Local R t pc' sh' ∧
      (e = .silent ∧ NotLoaded pc' ∨ ∃ v p, pc = .load v p ∧ Loaded R sh v p e pc') := by
  obtain ⟨c, hallowed, hstep⟩ := hstep
  cases pc with
  | idle =>
    simp only [threadStep] at hstep
    split at hstep
    · cases hstep
    next op hop =>
      obtain ⟨hsound, hown, hquiet⟩ := callStep_sound hS h (hallowed rfl op hop) hstep
      exact ⟨hsound, hown, .inl hquiet⟩
  | store a p =>
    obtain ⟨hsound, hown, hquiet⟩ := storeStep_sound hS h hstep
    exact ⟨hsound, hown, .inl hquiet⟩
  | load v p =>
    obtain ⟨hsound, hown, hload⟩ := loadStep_sound hS h hstep
    exact ⟨hsound, hown, .inr ⟨v, p, rfl, hload⟩⟩
  | clear o p =>
    obtain ⟨hsound, hown, hquiet⟩ := clearStep_sound hS h hstep
    exact ⟨hsound, hown, .inl hquiet⟩

end

end Steps

/-! ## The invariant of the system -/

theorem step_inv [DecidableEq ι] (g : State ι) (e : ι × Event) (g' : State ι) (h : Inv R g)
    (hstep : SafeStep R g e g') : Inv R g' := by
  refine Interleave.invariant ?_ ?_ g e g' h hstep
  · intro t p s e p' s' hS hL hst
    obtain ⟨hsound, hown, -⟩ := threadStep_sound hS hL hst
    exact ⟨hsound.shared, hown⟩
  · intro t p s e p' s' u q hut hS hL hLu hst
    exact hLu.stable hut (threadStep_sound hS hL hst).1.guarantee hS

theorem Initial.inv {g : State ι} (h : Initial g) : Inv R g := by
  have hzero := not_isObject_zero R
  have hstatus : ∀ v, g.shared.status v ≠ .changing ∧ g.shared.status v ≠ .starting := by
    intro v
    rcases h.status v with hv | hv <;> simp [hv]
  refine ⟨⟨?_, ?_, ?_, ?_, ?_, ?_, ?_, ?_, ?_, ?_⟩, fun t => ⟨?_, ?_, ?_, ?_, ?_⟩⟩
  · intro v hv hobj
    rw [h.mem v hv] at hobj
    exact absurd hobj hzero
  · exact fun v hv => absurd hv (hstatus v).1
  · simp [h.registry]
  · simp [h.registry]
  · simp [h.registry]
  · simp [h.registry]
  · simp [h.stage]
  · simp [h.users]
  · simp [h.stage]
  · simp [h.stage]
  · simp [h.lock, h.idle, held]
  · simp [h.writer, h.idle, writes]
  · simp [h.users, h.idle, stores]
  · simp [h.stage, h.idle, clears]
  · rw [h.idle]
    trivial

end Apple.Objc.WeakVariable
