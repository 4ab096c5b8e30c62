import Apple.Objc.Refcount

/-!
# Retain and release under interleaving: what a step can do

The retain count of an object is spread over three places: `extra_rc` in the `isa`, the
count in the side-table entry, and counts that the holder of the lock has taken from one
and not yet put into the other. `Transfer` says what one step can do to the three, and
`threadStep_transfer` that every step of every function is one of these transfers. All
invariants follow from the transfers, not from the functions.

Results:
* `threadStep_transfer`: every step is a transfer and keeps the thread's own invariant.
* `Transfer.guarantee`: what a transfer by one thread leaves alone while another thread
  has the lock.
* `step_inv`: the invariant `Inv` is preserved by every step of the system.
-/

namespace Apple.Objc.Refcount

open Apple.Lib

variable {A : Arch} {ι : Type*}

/-! ## Counts in transit -/

/-- Counts, and the deallocating bit, that a thread has taken out of the `isa` or the side
table and not yet put back. -/
structure Carried where
  rc : ℕ
  deallocating : Bool
deriving DecidableEq, Repr

/-- Nothing in transit. -/
def Carried.nothing : Carried := ⟨0, false⟩

/-- What a thread carries at each program counter: an overflowing `rootRetain` between its
`isa` store and `sidetable_addExtraRC_nolock`, an underflowing `rootRelease` between
`sidetable_subExtraRC_nolock` and its `isa` store, and `changeIsa` between its `isa` store
and `sidetable_moveExtraRC_nolock`. -/
def carried : Pc A → Carried
  | .retain (.add _) => ⟨A.rcHalf, false⟩
  | .release (.put _ borrowed) => ⟨borrowed, false⟩
  | .release (.reload borrowed) => ⟨borrowed, false⟩
  | .release (.put2 _ _ borrowed) => ⟨borrowed, false⟩
  | .release (.undo borrowed) => ⟨borrowed, false⟩
  | .change (.move old) => ⟨old.extraRc, old.deallocating⟩
  | _ => .nothing

/-- Program counters at which the thread has the side-table lock. -/
def holds : Pc A → Bool
  | .retain (.load tryRetain _ locked) => tryRetain || locked
  | .retain (.store tryRetain _ locked _ _ _) => tryRetain || locked
  | .retain (.add _) => true
  | .retain .unlock => true
  | .retain .rawUnlock => true
  | .retain .trySide => true
  | .retain .tryUnlock => true
  | .release (.load _ locked) => locked
  | .release (.store _ locked _ _) => locked
  | .release (.borrow _) => true
  | .release (.put _ _) => true
  | .release (.reload _) => true
  | .release (.put2 _ _ _) => true
  | .release (.undo _) => true
  | .release (.dealloc _ locked _) => locked
  | .release .unlock => true
  | .release .rawUnlock => true
  | .change (.load _ locked) => locked
  | .change (.store _ locked _ _ _) => locked
  | .change (.move _) => true
  | .change .unlock => true
  | _ => false

/-! ## Invariants -/

/-- The `isa` is a class pointer. -/
def Raw (sh : Shared A ι) : Prop := ∃ cls, sh.isa = .raw cls

/-- The `isa` is packed and says that there may be counts in the side table. -/
def Spilled (sh : Shared A ι) : Prop := ∃ f, sh.isa = .nonpointer f ∧ f.hasSidetableRc = true

/-- Two packed `isa`s that agree on all that concerns the count. -/
def SameCount (f g : IsaBits A) : Prop :=
  g.extraRc = f.extraRc ∧ g.deallocating = f.deallocating ∧ g.hasSidetableRc = f.hasSidetableRc

/-- What the local variables of a thread say about the shared state. -/
def PcOk (sh : Shared A ι) : Pc A → Prop
  | .retain (.load _ ho locked) => locked = true → ho = true
  | .retain (.lock old) => old.addRc 1 = none
  | .retain (.store tryRetain ho locked old new transcribe) =>
    (locked = true → ho = true) ∧ (tryRetain = true → old.deallocating = false) ∧
      if transcribe then locked = true ∧ old.addRc 1 = none ∧ new = halved old
      else old.addRc 1 = some new
  | .retain (.add _) => Spilled sh
  | .retain .rawUnlock => Raw sh
  | .retain .side => Raw sh
  | .retain .trySide => Raw sh
  | .release (.load hu locked) => locked = true → hu = true
  | .release (.store hu locked old new) => (locked = true → hu = true) ∧ old.subRc = some new
  | .release (.borrow old) => old.extraRc.val = 0 ∧ Spilled sh
  | .release (.put old borrowed) => borrowed = A.rcHalf ∧ old.extraRc.val = 0 ∧ Spilled sh
  | .release (.reload borrowed) => borrowed = A.rcHalf ∧ Spilled sh
  | .release (.put2 old new borrowed) =>
    borrowed = A.rcHalf ∧ old.addRc (borrowed - 1) = some new ∧ Spilled sh
  | .release (.undo borrowed) => borrowed = A.rcHalf ∧ Spilled sh
  | .release (.dealloc hu locked old) =>
    (locked = true → hu = true) ∧ old.extraRc.val = 0 ∧ old.deallocating = false ∧
      (old.hasSidetableRc = true → locked = true ∧ sh.side.value = 0)
  | .release .rawUnlock => Raw sh
  | .release .side => Raw sh
  | .change (.store _ locked old new transcribe) =>
    match transcribe with
    | some f => locked = true ∧ old = .nonpointer f ∧ ∃ cls, new = .raw cls
    | none =>
      old = .zero ∨ (∃ cls cls', old = .raw cls ∧ new = .raw cls') ∨
        ∃ f g, old = .nonpointer f ∧ new = .nonpointer g ∧ SameCount f g
  | .change (.move _) => Raw sh ∧ sh.side.value % (4 * A.rcHalf) = 0
  | _ => True

/-- The invariant of one thread. -/
structure Local (t : ι) (pc : Pc A) (sh : Shared A ι) : Prop where
  lock : holds pc = true ↔ sh.lock = some t
  ok : PcOk sh pc

/-- The invariant of the shared state. With a packed `isa` the side table has whole halves,
no flags, and nothing at all before the first overflow. -/
structure SharedOk (sh : Shared A ι) : Prop where
  ne_zero : sh.isa ≠ .zero
  halves : ∀ f, sh.isa = .nonpointer f → sh.side.value % (4 * A.rcHalf) = 0
  unspilled : ∀ f, sh.isa = .nonpointer f → f.hasSidetableRc = false → sh.side.value = 0

/-- The invariant of the system. -/
def Inv (g : State A ι) : Prop := SharedOk g.shared ∧ ∀ t, Local t (g.pc t) g.shared

/-! ## Transfers -/

/-- Events that stand for one retain. -/
def Event.up : Event → ℕ
  | .retained => 1
  | .tryRetained => 1
  | _ => 0

/-- Events that stand for one release. -/
def Event.down : Event → ℕ
  | .released _ => 1
  | _ => 0

/-- What one step of thread `t` can do to the shared state and to what `t` carries. -/
inductive Transfer (t : ι) (sh : Shared A ι) :
    Carried → Event → Shared A ι → Carried → Prop
  /-- Nothing. -/
  | quiet {c : Carried} {e : Event} : e.up = 0 → e.down = 0 → e ≠ .borrowed →
      Transfer t sh c e sh c
  | acquire : sh.lock = none →
      Transfer t sh .nothing .silent { sh with lock := some t } .nothing
  | drop : sh.lock = some t →
      Transfer t sh .nothing .silent { sh with lock := none } .nothing
  /-- An `isa` store that changes the inline count by one, or only the class. -/
  | inline {f g : IsaBits A} {e : Event} : sh.isa = .nonpointer f →
      g.deallocating = f.deallocating → g.hasSidetableRc = f.hasSidetableRc →
      g.extraRc.val + e.down = f.extraRc + e.up → e ≠ .released true → e ≠ .borrowed →
      (e = .tryRetained → f.deallocating = false) →
      Transfer t sh .nothing e { sh with isa := .nonpointer g } .nothing
  /-- The `isa` store of an overflowing retain. -/
  | spill {f g : IsaBits A} {e : Event} : sh.lock = some t → sh.isa = .nonpointer f →
      g.deallocating = f.deallocating → g.hasSidetableRc = true →
      g.extraRc.val + A.rcHalf = f.extraRc + 1 → e = .retained ∨ e = .tryRetained →
      (e = .tryRetained → f.deallocating = false) →
      Transfer t sh .nothing e { sh with isa := .nonpointer g } ⟨A.rcHalf, false⟩
  /-- `sidetable_addExtraRC_nolock(RC_HALF)`. -/
  | deposit : sh.lock = some t → Spilled sh →
      Transfer t sh ⟨A.rcHalf, false⟩ .silent
        { sh with side := (sidetableAddExtraRC A.rcHalf sh.side).1 } .nothing
  /-- `sidetable_subExtraRC_nolock(RC_HALF)` on a non-zero entry. -/
  | borrow : sh.lock = some t → Spilled sh → sh.side.value ≠ 0 →
      Transfer t sh .nothing .borrowed
        { sh with side := (sidetableSubExtraRC A.rcHalf sh.side).1 } ⟨A.rcHalf, false⟩
  /-- The `isa` store of the borrowed counts, less the one that is released. -/
  | fill {f g : IsaBits A} : sh.lock = some t → sh.isa = .nonpointer f →
      g.deallocating = f.deallocating → g.hasSidetableRc = f.hasSidetableRc →
      g.extraRc.val + 1 = f.extraRc + A.rcHalf →
      Transfer t sh ⟨A.rcHalf, false⟩ (.released false) { sh with isa := .nonpointer g } .nothing
  /-- The store of the deallocating bit. -/
  | dealloc {f : IsaBits A} : sh.isa = .nonpointer f → f.extraRc.val = 0 →
      f.deallocating = false →
      (f.hasSidetableRc = true → sh.lock = some t ∧ sh.side.value = 0) →
      Transfer t sh .nothing (.released true)
        { sh with isa := .nonpointer { f with deallocating := true } } .nothing
  /-- Raw to raw. -/
  | reclass {cls : ClassPtr} : Raw sh →
      Transfer t sh .nothing .silent { sh with isa := .raw cls } .nothing
  /-- Packed to raw: the count is in transit. -/
  | migrate {f : IsaBits A} {cls : ClassPtr} : sh.lock = some t → sh.isa = .nonpointer f →
      Transfer t sh .nothing .silent { sh with isa := .raw cls } ⟨f.extraRc, f.deallocating⟩
  /-- `sidetable_moveExtraRC_nolock`. -/
  | settle {f : IsaBits A} : sh.lock = some t → Raw sh → sh.side.value % (4 * A.rcHalf) = 0 →
      Transfer t sh ⟨f.extraRc, f.deallocating⟩ .silent
        { sh with side := sidetableMoveExtraRC f.extraRc f.deallocating f.weaklyReferenced
                    sh.side } .nothing
  | sideRetain : sh.lock = none → Raw sh →
      Transfer t sh .nothing .retained
        { sh with side := Apple.Objc.sidetableRetain sh.side } .nothing
  | sideTryRetain : sh.lock = some t → Raw sh →
      Transfer t sh .nothing
        (if (sidetableTryRetain sh.side).2 then .tryRetained else .tryFailed)
        { sh with side := (sidetableTryRetain sh.side).1 } .nothing
  | sideRelease : sh.lock = none → Raw sh →
      Transfer t sh .nothing (.released (Apple.Objc.sidetableRelease sh.side).2)
        { sh with side := (Apple.Objc.sidetableRelease sh.side).1 } .nothing

/-! ## Every step is a transfer -/

section Moves

variable {t : ι} {sh sh' : Shared A ι} {pc pc' q : Pc A} {e : Event}

theorem Local.held (hL : Local t pc sh) (hholds : holds pc = true := by rfl) :
    sh.lock = some t :=
  hL.lock.mp hholds

theorem quiet_move (hL : Local t pc sh) (hup : e.up = 0) (hdown : e.down = 0)
    (hne : e ≠ .borrowed) (hcarried : carried pc' = carried pc) (hholds : holds pc' = holds pc)
    (hok : PcOk sh pc') : Transfer t sh (carried pc) e sh (carried pc') ∧ Local t pc' sh := by
  rw [hcarried]
  exact ⟨.quiet hup hdown hne, by rw [hholds]; exact hL.lock, hok⟩

theorem goto_move (h : goto sh pc' = some (e, q, sh')) (hL : Local t pc sh) (hok : PcOk sh pc')
    (hholds : holds pc' = holds pc := by simp [holds, *])
    (hcarried : carried pc' = carried pc := by rfl) :
    Transfer t sh (carried pc) e sh' (carried q) ∧ Local t q sh' := by
  cases h
  exact quiet_move hL rfl rfl (by simp) hcarried hholds hok

theorem unlock_move (h : sidetableUnlock sh pc' = some (e, q, sh')) (hL : Local t pc sh)
    (hok : PcOk { sh with lock := (none : Option ι) } pc') (hholds : holds pc = true := by rfl)
    (hholds' : holds pc' = false := by rfl) (hcarried : carried pc = .nothing := by rfl)
    (hcarried' : carried pc' = .nothing := by rfl) :
    Transfer t sh (carried pc) e sh' (carried q) ∧ Local t q sh' := by
  cases h
  rw [hcarried, hcarried']
  exact ⟨.drop (hL.lock.mp hholds), by simp [hholds'], hok⟩

theorem lock_move (h : sidetableLock t sh pc' = some (e, q, sh'))
    (hok : PcOk { sh with lock := some t } pc') (hholds' : holds pc' = true := by rfl)
    (hcarried : carried pc = .nothing := by rfl) (hcarried' : carried pc' = .nothing := by rfl) :
    Transfer t sh (carried pc) e sh' (carried q) ∧ Local t q sh' := by
  rw [sidetableLock] at h
  split_ifs at h with hfree
  cases h
  rw [hcarried, hcarried']
  exact ⟨.acquire hfree, by simp [hholds'], hok⟩

theorem store_move {c : Choice A} {old new : Isa A} {e0 : Event} {done fail : Pc A}
    (h : storeExclusive sh c old new e0 done fail = some (e, q, sh'))
    (hL : Local t pc sh) (hok : PcOk sh fail)
    (hdone : sh.isa = old → Transfer t sh (carried pc) e0 { sh with isa := new } (carried done) ∧
      Local t done { sh with isa := new })
    (hholds : holds fail = holds pc := by rfl) (hcarried : carried fail = carried pc := by rfl) :
    Transfer t sh (carried pc) e sh' (carried q) ∧ Local t q sh' := by
  unfold storeExclusive at h
  split at h
  · exact goto_move h hL hok hholds hcarried
  · split_ifs at h with hisa
    · cases h
      exact hdone hisa
    · exact goto_move h hL hok hholds hcarried

end Moves

section Functions

variable {t : ι} {sh sh' : Shared A ι} {c : Choice A} {pc' : Pc A} {e : Event}

theorem SharedOk.raw (hG : SharedOk sh) (h : ∀ f, sh.isa ≠ .nonpointer f) : Raw sh := by
  cases hisa : sh.isa with
  | zero => exact absurd hisa hG.ne_zero
  | raw cls => exact ⟨cls, hisa⟩
  | nonpointer f => exact absurd hisa (h f)

/-- An overflowing `extra_rc` is all ones, and its successor is twice `RC_HALF`. -/
theorem extraRc_of_overflow {old : IsaBits A} (h : old.addRc 1 = none) :
    old.extraRc.val + 1 = A.rcHalf + A.rcHalf := by
  have := IsaBits.addRc_eq_none.mp h
  have := A.two_mul_rcHalf
  omega

theorem rootRetainStep_transfer {p : RetainPc A} (hG : SharedOk sh) (hL : Local t (.retain p) sh)
    (h : rootRetainStep t sh c p = some (e, pc', sh')) :
    Transfer t sh (carried (.retain p)) e sh' (carried pc') ∧ Local t pc' sh' := by
  cases p with
  | tryLock => exact lock_move h (by simp [PcOk])
  | load tryRetain ho locked =>
    have hlocked : locked = true → ho = true := hL.ok
    simp only [rootRetainStep] at h
    split at h
    next old hisa =>
      split at h
      next hdealloc =>
        cases h
        have htry : tryRetain = true := (Bool.and_eq_true_iff.mp hdealloc).1
        exact quiet_move hL rfl rfl (by simp) rfl (by simp [holds, htry]) trivial
      next hdealloc =>
        have hlive : tryRetain = true → old.deallocating = false := by
          intro htry
          simpa [htry] using hdealloc
        split at h
        next new hadd => exact goto_move h hL ⟨hlocked, hlive, hadd⟩
        next hadd =>
          split_ifs at h with hho hfree
          · have : locked = false := by cases locked <;> simp_all
            exact goto_move h hL (by simp [PcOk])
          · simp only [Bool.and_eq_true, Bool.not_eq_true'] at hfree
            exact goto_move h hL hadd
          · have hheld : (tryRetain || locked) = true := by
              cases tryRetain <;> cases locked <;> simp_all
            exact goto_move h hL ⟨by simpa using hho, hlive, rfl, hadd, rfl⟩
    next hnp =>
      have hraw : Raw sh := hG.raw fun f hf => hnp f hf
      split_ifs at h with htry hlock <;> exact goto_move h hL hraw
  | lock old => exact lock_move h ⟨by simp, by simp, rfl, hL.ok, rfl⟩
  | store tryRetain ho locked old new transcribe =>
    obtain ⟨hlocked, hlive, hnew⟩ := hL.ok
    refine store_move h hL hlocked ?_
    intro hisa
    have hlock := hL.lock
    cases transcribe with
    | true =>
      obtain ⟨rfl, hover, rfl⟩ := hnew
      have hheld : sh.lock = some t := hlock.mp (by simp [holds])
      refine ⟨.spill hheld hisa rfl rfl ?_ ?_ ?_, ?_, ?_⟩
      · rw [extraRc_of_overflow hover]
        exact congrArg (· + A.rcHalf) (Nat.mod_eq_of_lt A.rcHalf_lt)
      · cases tryRetain <;> simp
      · cases tryRetain <;> simp_all
      · simp [holds, hheld]
      · exact ⟨_, rfl, rfl⟩
    | false =>
      obtain ⟨hrc, hd, hs, -⟩ := IsaBits.addRc_eq_some hnew
      have hcarried : carried (if tryRetain then .retain .tryUnlock
          else if locked then .retain .unlock else .idle : Pc A) = .nothing := by
        split_ifs <;> rfl
      have hholds : holds (if tryRetain then .retain .tryUnlock
          else if locked then .retain .unlock else .idle : Pc A) = (tryRetain || locked) := by
        cases tryRetain <;> cases locked <;> rfl
      simp only [Bool.false_eq_true, if_false]
      rw [hcarried]
      refine ⟨.inline hisa hd hs ?_ ?_ ?_ ?_, ?_, ?_⟩
      · cases tryRetain <;> simp [Event.up, Event.down, hrc]
      · cases tryRetain <;> simp
      · cases tryRetain <;> simp
      · cases tryRetain <;> simp_all
      · rw [hholds]
        exact hlock
      · cases tryRetain <;> cases locked <;> trivial
  | add tryRetain =>
    cases h
    have hheld := hL.held
    refine ⟨?_, ?_, ?_⟩
    · cases tryRetain <;> exact .deposit hheld hL.ok
    · cases tryRetain <;> simp [holds, hheld]
    · cases tryRetain <;> trivial
  | unlock | tryUnlock => exact unlock_move h hL trivial
  | rawUnlock => exact unlock_move h hL hL.ok
  | side =>
    simp only [rootRetainStep] at h
    split_ifs at h with hfree
    cases h
    exact ⟨.sideRetain hfree hL.ok, by simp [holds, hfree], trivial⟩
  | trySide =>
    cases h
    have hheld := hL.held
    exact ⟨.sideTryRetain hheld hL.ok, by simp [holds, hheld], trivial⟩

/-- `sidetable_subExtraRC_nolock` on an empty entry leaves it alone. -/
theorem sub_of_value_zero {side : Side A} (h : side.value = 0) :
    sidetableSubExtraRC A.rcHalf side = (side, 0) := by
  cases side with
  | none => rfl
  | some w =>
    have hw : w = 0 := by
      rw [← BitVec.toNat_inj]
      exact h
    simp [sidetableSubExtraRC, hw]

theorem sub_of_value_ne_zero {side : Side A} (h : side.value ≠ 0) :
    (sidetableSubExtraRC A.rcHalf side).2 = A.rcHalf := by
  rw [(sidetableSubExtraRC_spec A.rcHalf_lt side).1, if_neg h]

variable {pc done : Pc A} {locked : Bool}

theorem reallyDeallocate_transfer {hu : Bool} {old : IsaBits A}
    (h : reallyDeallocate sh hu locked old = some (e, pc', sh')) (hL : Local t pc sh)
    (hcarried : carried pc = .nothing) (hholds : holds pc = locked)
    (hlocked : locked = true → hu = true) (hrc : old.extraRc.val = 0)
    (hside : old.hasSidetableRc = true → locked = true ∧ sh.side.value = 0) :
    Transfer t sh (carried pc) e sh' (carried pc') ∧ Local t pc' sh' := by
  rw [reallyDeallocate] at h
  split at h
  next hdealloc =>
    cases h
    refine quiet_move hL rfl rfl (by simp) ?_ ?_ ?_
    · rw [hcarried]
      cases locked <;> rfl
    · rw [hholds]
      cases locked <;> rfl
    · cases locked <;> trivial
  next hdealloc =>
    exact goto_move h hL ⟨hlocked, hrc, by simpa using hdealloc, hside⟩ hholds.symm hcarried.symm

/-- After an `isa` store that keeps the thread's lock: unlock if `locked`, or return. -/
theorem local_after_store {isa : Isa A}
    (hlock : locked = true ↔ sh.lock = some t) (hholds : holds done = true)
    (hok : PcOk { sh with isa := isa } done) :
    Local t (if locked then done else .idle) { sh with isa := isa } := by
  cases locked with
  | true => exact ⟨by simpa [hholds] using hlock, hok⟩
  | false => exact ⟨by simpa [holds] using hlock, trivial⟩

theorem carried_after_store (h : carried done = .nothing) :
    carried (if locked then done else .idle) = .nothing := by
  split_ifs
  · exact h
  · rfl

theorem rootReleaseStep_transfer {p : ReleasePc A} (hG : SharedOk sh)
    (hL : Local t (.release p) sh) (h : rootReleaseStep t sh c p = some (e, pc', sh')) :
    Transfer t sh (carried (.release p)) e sh' (carried pc') ∧ Local t pc' sh' := by
  cases p with
  | load hu locked =>
    have hlocked : locked = true → hu = true := hL.ok
    simp only [rootReleaseStep] at h
    split at h
    next old hisa =>
      split at h
      next new hsub => exact goto_move h hL ⟨hlocked, hsub⟩
      next hsub =>
        have hrc := IsaBits.subRc_eq_none.mp hsub
        split at h
        next hspilled =>
          split_ifs at h with hhu hfree
          · have : locked = false := by cases locked <;> simp_all
            exact goto_move h hL (by simp [PcOk])
          · simp only [Bool.not_eq_true'] at hfree
            exact goto_move h hL trivial
          · simp only [Bool.not_eq_true', Bool.not_eq_false] at hfree
            exact goto_move h hL ⟨hrc, old, hisa, hspilled⟩
        next hspilled =>
          exact reallyDeallocate_transfer h hL rfl rfl hlocked hrc fun hs => absurd hs hspilled
    next hnp =>
      have hraw : Raw sh := hG.raw fun f hf => hnp f hf
      split_ifs at h with hlock <;> exact goto_move h hL hraw
  | store hu locked old new =>
    obtain ⟨hlocked, hnew⟩ := hL.ok
    obtain ⟨hrc, hd, hs, -⟩ := IsaBits.subRc_eq_some hnew
    refine store_move h hL hlocked fun hisa => ⟨?_, local_after_store hL.lock rfl trivial⟩
    rw [carried_after_store rfl]
    exact .inline hisa hd hs (by simpa [Event.up, Event.down] using hrc) (by simp) (by simp)
      (by simp)
  | lock => exact lock_move h (by simp [PcOk])
  | borrow old =>
    obtain ⟨hrc, hspilled⟩ := hL.ok
    have hheld := hL.held
    simp only [rootReleaseStep] at h
    by_cases hzero : sh.side.value = 0
    · simp only [sub_of_value_zero hzero, gt_iff_lt, lt_irrefl, if_false] at h
      exact reallyDeallocate_transfer h hL rfl rfl (fun _ => rfl) hrc fun _ => ⟨rfl, hzero⟩
    · simp only [sub_of_value_ne_zero hzero, gt_iff_lt, A.rcHalf_pos, if_true] at h
      cases h
      exact ⟨.borrow hheld hspilled hzero, by simp [holds, hheld], rfl, hrc, hspilled⟩
  | put old borrowed =>
    obtain ⟨rfl, hrc, f, hf, hs⟩ := hL.ok
    refine store_move h hL ⟨rfl, f, hf, hs⟩ fun hisa => ?_
    have hheld := hL.held
    have hpos := A.rcHalf_pos
    have hlt := A.rcHalf_lt
    refine ⟨.fill hheld hisa rfl rfl ?_, by simp [holds, hheld], trivial⟩
    rw [IsaBits.setRc_extraRc, Nat.mod_eq_of_lt (by omega)]
    omega
  | reload borrowed =>
    obtain ⟨rfl, hspilled⟩ := hL.ok
    simp only [rootReleaseStep] at h
    split at h
    next old hisa =>
      split at h
      next new hadd => exact goto_move h hL ⟨rfl, hadd, hspilled⟩
      next => exact goto_move h hL ⟨rfl, hspilled⟩
    next => exact goto_move h hL ⟨rfl, hspilled⟩
  | put2 old new borrowed =>
    obtain ⟨rfl, hadd, hspilled⟩ := hL.ok
    refine store_move h hL ⟨rfl, hspilled⟩ fun hisa => ?_
    have hheld := hL.held
    have hpos := A.rcHalf_pos
    obtain ⟨hrc, hd, hs, -⟩ := IsaBits.addRc_eq_some hadd
    exact ⟨.fill hheld hisa hd hs (by omega), by simp [holds, hheld], trivial⟩
  | undo borrowed =>
    obtain ⟨rfl, hspilled⟩ := hL.ok
    have hheld := hL.held
    cases h
    exact ⟨.deposit hheld hspilled, by simp [holds, hheld], fun _ => rfl⟩
  | dealloc hu locked old =>
    obtain ⟨hlocked, hrc, hlive, hside⟩ := hL.ok
    refine store_move h hL hlocked fun hisa => ⟨?_, local_after_store hL.lock rfl trivial⟩
    rw [carried_after_store rfl]
    exact .dealloc hisa hrc hlive fun hs => ⟨hL.lock.mp (hside hs).1, (hside hs).2⟩
  | unlock => exact unlock_move h hL trivial
  | rawUnlock => exact unlock_move h hL hL.ok
  | side =>
    simp only [rootReleaseStep] at h
    split_ifs at h with hfree
    cases h
    exact ⟨.sideRelease hfree hL.ok, by simp [holds, hfree], trivial⟩

theorem changeIsaStep_transfer {p : ChangePc A} (hG : SharedOk sh)
    (hL : Local t (.change p) sh) (h : changeIsaStep t sh c p = some (e, pc', sh')) :
    Transfer t sh (carried (.change p)) e sh' (carried pc') ∧ Local t pc' sh' := by
  cases p with
  | load newCls locked =>
    simp only [changeIsaStep] at h
    split at h
    next hisa => exact absurd hisa hG.ne_zero
    next old hisa =>
      split_ifs at h with hcan hfree
      · exact goto_move h hL (.inr (.inr ⟨old, _, rfl, rfl, rfl, rfl, rfl⟩))
      · simp only [Bool.not_eq_true'] at hfree
        exact goto_move h hL trivial
      · simp only [Bool.not_eq_true', Bool.not_eq_false] at hfree
        exact goto_move h hL ⟨rfl, rfl, _, rfl⟩
    next cls hisa => exact goto_move h hL (.inr (.inl ⟨cls, _, rfl, rfl⟩))
  | lock newCls old => exact lock_move h ⟨rfl, rfl, _, rfl⟩
  | store newCls locked old new transcribe =>
    refine store_move h hL trivial fun hisa => ?_
    cases transcribe with
    | some f =>
      obtain ⟨rfl, rfl, cls, rfl⟩ := hL.ok
      have hheld := hL.held
      exact ⟨.migrate hheld hisa, by simp [holds, hheld], ⟨cls, rfl⟩, hG.halves f hisa⟩
    | none =>
      refine ⟨?_, local_after_store hL.lock rfl trivial⟩
      rw [carried_after_store rfl]
      rcases hL.ok with rfl | ⟨cls, cls', rfl, rfl⟩ | ⟨f, g, rfl, rfl, hrc, hd, hs⟩
      · exact absurd hisa hG.ne_zero
      · exact .reclass ⟨cls, hisa⟩
      · exact .inline hisa hd hs (by simp [Event.up, Event.down, hrc]) (by simp) (by simp)
          (by simp)
  | move old =>
    obtain ⟨hraw, hhalves⟩ := hL.ok
    have hheld := hL.held
    cases h
    exact ⟨.settle hheld hraw hhalves, by simp [holds, hheld], trivial⟩
  | unlock => exact unlock_move h hL trivial

theorem callStep_transfer {op : Op A} (hL : Local t .idle sh)
    (h : callStep sh op = some (e, pc', sh')) :
    Transfer t sh .nothing e sh' (carried pc') ∧ Local t pc' sh' := by
  cases op with
  | rootRetain | rootRelease => exact goto_move h hL (by simp [PcOk])
  | rootTryRetain | changeIsa newCls => exact goto_move h hL trivial
  | sidetableRetain | sidetableRelease =>
    simp only [callStep] at h
    split at h
    next cls hisa => exact goto_move h hL ⟨cls, hisa⟩
    next => cases h

/-- **Every step is a transfer**, and keeps the invariant of its thread. -/
theorem threadStep_transfer (hG : SharedOk sh) (hL : Local t pc sh)
    (h : ThreadStep t pc sh e pc' sh') :
    Transfer t sh (carried pc) e sh' (carried pc') ∧ Local t pc' sh' := by
  obtain ⟨c, h⟩ := h
  cases pc with
  | idle =>
    cases c with
    | call op => exact callStep_transfer hL h
    | _ => cases h
  | retain p =>
    cases c with
    | call op => cases h
    | _ => exact rootRetainStep_transfer hG hL h
  | release p =>
    cases c with
    | call op => cases h
    | _ => exact rootReleaseStep_transfer hG hL h
  | change p =>
    cases c with
    | call op => cases h
    | _ => exact changeIsaStep_transfer hG hL h

end Functions

/-! ## The invariant -/

section Invariant

variable {t : ι} {sh sh' : Shared A ι} {c c' : Carried} {e : Event}

/-- What a thread leaves alone: a raw `isa` stays raw, nobody else's lock is touched, and
while another thread has the lock the side table does not change and a spilled `isa` stays
spilled. -/
structure Guarantee (t : ι) (sh sh' : Shared A ι) : Prop where
  raw : Raw sh → Raw sh'
  lock : ∀ u, u ≠ t → (sh'.lock = some u ↔ sh.lock = some u)
  side : ∀ u, u ≠ t → sh.lock = some u → sh'.side = sh.side
  spilled : ∀ u, u ≠ t → sh.lock = some u → Spilled sh → Spilled sh'

theorem Raw.not_nonpointer {f : IsaBits A} (h : Raw sh) : sh.isa ≠ .nonpointer f := by
  obtain ⟨cls, hcls⟩ := h
  simp [hcls]

theorem Spilled.hasSidetableRc {f : IsaBits A} (h : Spilled sh) (hf : sh.isa = .nonpointer f) :
    f.hasSidetableRc = true := by
  obtain ⟨g, hg, hs⟩ := h
  rw [hf] at hg
  cases hg
  exact hs

/-- A store to a packed `isa` that keeps `has_sidetable_rc`. -/
theorem guarantee_store {f g : IsaBits A} (hf : sh.isa = .nonpointer f)
    (hs : f.hasSidetableRc = true → g.hasSidetableRc = true) :
    Guarantee t sh { sh with isa := .nonpointer g } where
  raw h := absurd hf h.not_nonpointer
  lock _ _ := Iff.rfl
  side _ _ _ := rfl
  spilled _ _ _ h := ⟨g, rfl, hs (h.hasSidetableRc hf)⟩

/-- A change of the side table by the holder of the lock, or while the lock is free. -/
theorem guarantee_side {side : Side A} (hlock : sh.lock = some t ∨ sh.lock = none) :
    Guarantee t sh { sh with side := side } where
  raw h := h
  lock _ _ := Iff.rfl
  side u hu h := by rcases hlock with h' | h' <;> simp_all
  spilled _ _ _ h := h

theorem Transfer.guarantee (h : Transfer t sh c e sh' c') : Guarantee t sh sh' := by
  cases h with
  | quiet => exact ⟨id, fun _ _ => Iff.rfl, fun _ _ _ => rfl, fun _ _ _ => id⟩
  | acquire hlock | drop hlock =>
    refine ⟨id, fun u hu => ?_, fun _ _ _ => rfl, fun _ _ _ => id⟩
    simp [hlock, Ne.symm hu]
  | inline hf _ hs | fill _ hf _ hs => exact guarantee_store hf fun h => hs.trans h
  | spill _ hf _ hs => exact guarantee_store hf fun _ => hs
  | dealloc hf => exact guarantee_store hf id
  | reclass hraw =>
    exact ⟨fun _ => ⟨_, rfl⟩, fun _ _ => Iff.rfl, fun _ _ _ => rfl,
      fun _ _ _ ⟨f, hf, _⟩ => absurd hf hraw.not_nonpointer⟩
  | migrate hheld hf =>
    refine ⟨fun _ => ⟨_, rfl⟩, fun _ _ => Iff.rfl, fun _ _ _ => rfl, fun u hu hlock _ => ?_⟩
    rw [hheld] at hlock
    exact absurd (Option.some.inj hlock).symm hu
  | deposit hheld | borrow hheld | settle hheld | sideTryRetain hheld =>
    exact guarantee_side (.inl hheld)
  | sideRetain hfree | sideRelease hfree => exact guarantee_side (.inr hfree)

/-- Borrowing from a non-zero number of halves takes one half. -/
theorem value_borrow {side : Side A} (hhalves : side.value % (4 * A.rcHalf) = 0)
    (hne : side.value ≠ 0) :
    (sidetableSubExtraRC A.rcHalf side).1.value + 4 * A.rcHalf = side.value := by
  have hle : 4 * A.rcHalf ≤ side.value :=
    Nat.le_of_dvd (Nat.pos_of_ne_zero hne) (Nat.dvd_of_mod_eq_zero hhalves)
  have hlt : side.value < 2 ^ A.wordBits := BitVec.isLt _
  rw [(sidetableSubExtraRC_spec A.rcHalf_lt side).2, if_neg hne,
    show side.value + (2 ^ A.wordBits - 4 * A.rcHalf) =
      side.value - 4 * A.rcHalf + 2 ^ A.wordBits by omega,
    Nat.add_mod_right, Nat.mod_eq_of_lt (by omega)]
  omega

theorem Transfer.sharedOk (h : Transfer t sh c e sh' c') (hG : SharedOk sh) : SharedOk sh' := by
  have hstore : ∀ {f g : IsaBits A}, sh.isa = .nonpointer f →
      (g.hasSidetableRc = false → f.hasSidetableRc = false) →
      SharedOk { sh with isa := .nonpointer g } := by
    intro f g hf hs
    refine ⟨by simp, fun k _ => hG.halves f hf, ?_⟩
    rintro k ⟨⟩ hk
    exact hG.unspilled f hf (hs hk)
  have hrawIsa : ∀ {cls : ClassPtr}, SharedOk { sh with isa := .raw cls } := by
    exact ⟨by simp, by simp, by simp⟩
  have hrawSide : ∀ {side : Side A}, Raw sh → SharedOk { sh with side := side } := by
    intro side hraw
    exact ⟨hG.ne_zero, fun f hf => absurd hf hraw.not_nonpointer,
      fun f hf => absurd hf hraw.not_nonpointer⟩
  cases h with
  | quiet => exact hG
  | acquire | drop => exact ⟨hG.ne_zero, hG.halves, hG.unspilled⟩
  | inline hf _ hs | fill _ hf _ hs => exact hstore hf fun h => hs.symm.trans h
  | spill _ hf _ hs => exact hstore hf fun h => by simp [hs] at h
  | dealloc hf => exact hstore hf id
  | reclass | migrate => exact hrawIsa
  | deposit _ hspilled =>
    refine ⟨hG.ne_zero, fun f hf => ?_, fun f hf hs => ?_⟩
    · have hhalves := hG.halves f hf
      simp only [sidetableAddExtraRC_spec A.rcHalf_lt]
      split_ifs
      · exact hhalves
      · rw [Nat.add_mod_right, hhalves]
    · simp [hspilled.hasSidetableRc hf] at hs
  | borrow _ hspilled hne =>
    refine ⟨hG.ne_zero, fun f hf => ?_, fun f hf hs => ?_⟩
    · have hhalves := hG.halves f hf
      rw [← value_borrow hhalves hne, Nat.add_mod_right] at hhalves
      exact hhalves
    · simp [hspilled.hasSidetableRc hf] at hs
  | settle _ hraw | sideRetain _ hraw | sideTryRetain _ hraw | sideRelease _ hraw =>
    exact hrawSide hraw

/-- What a thread knows is not affected by the steps of others. -/
theorem Local.stable {u : ι} {q : Pc A} (hL : Local u q sh) (hu : u ≠ t)
    (hg : Guarantee t sh sh') : Local u q sh' := by
  refine ⟨by rw [hL.lock, hg.lock u hu], ?_⟩
  have hok := hL.ok
  have hside : holds q = true → sh'.side = sh.side := fun h => hg.side u hu (hL.lock.mp h)
  have hspilled : holds q = true → Spilled sh → Spilled sh' := fun h =>
    hg.spilled u hu (hL.lock.mp h)
  cases q with
  | idle => trivial
  | retain p =>
    cases p with
    | add => exact hspilled rfl hok
    | rawUnlock | side | trySide => exact hg.raw hok
    | _ => exact hok
  | release p =>
    cases p with
    | borrow | reload | undo => exact ⟨hok.1, hspilled rfl hok.2⟩
    | put | put2 => exact ⟨hok.1, hok.2.1, hspilled rfl hok.2.2⟩
    | dealloc =>
      obtain ⟨hlocked, hrc, hlive, hzero⟩ := hok
      refine ⟨hlocked, hrc, hlive, fun hs => ⟨(hzero hs).1, ?_⟩⟩
      rw [hside (hzero hs).1]
      exact (hzero hs).2
    | rawUnlock | side => exact hg.raw hok
    | _ => exact hok
  | change p =>
    cases p with
    | move => exact ⟨hg.raw hok.1, by rw [hside rfl]; exact hok.2⟩
    | _ => exact hok

/-- **The invariant is preserved by every step.** -/
theorem step_inv [DecidableEq ι] (g : State A ι) (e : ι × Event) (g' : State A ι) (h : Inv g)
    (hstep : Step g e g') : Inv g' := by
  refine Interleave.invariant ?_ ?_ g e g' h hstep
  · intro t p s e p' s' hG hL hst
    obtain ⟨htransfer, hL'⟩ := threadStep_transfer hG hL hst
    exact ⟨htransfer.sharedOk hG, hL'⟩
  · intro t p s e p' s' u q hu hG hL hLu hst
    exact hLu.stable hu (threadStep_transfer hG hL hst).1.guarantee

end Invariant

end Apple.Objc.Refcount
