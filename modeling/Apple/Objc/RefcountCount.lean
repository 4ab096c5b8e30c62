import Apple.Objc.RefcountTransfer

/-!
# Retain and release under interleaving: the count

The logical retain count of an object is one, or zero once the deallocating bit is set,
plus `extra_rc`, plus the side-table count, plus what the holder of the lock carries
between the two. Retains add one to it, releases take one away, and no other step changes
it, as long as the side-table count does not reach the pinned bit.

Results:
* `Transfer.balance`: a transfer changes the logical count by its event.
* `refcount_run`: the count in every state of every run; dealloc at most once and at zero;
  no `rootTryRetain` succeeds on a deallocating object.
-/

namespace Apple.Objc.Refcount

open Apple.Lib

variable {A : Arch} {ι : Type*}

/-! ## The logical count -/

/-- `extra_rc` of a packed `isa`. -/
def isaRc : Isa A → ℕ
  | .nonpointer f => f.extraRc
  | _ => 0

/-- The deallocating bit of a packed `isa`. -/
def isaDeallocating : Isa A → Bool
  | .nonpointer f => f.deallocating
  | _ => false

/-- The deallocating bit, in the `isa`, in the side table or in transit. -/
def deallocatingIn (sh : Shared A ι) (c : Carried) : Bool :=
  isaDeallocating sh.isa || valueDeallocating sh.side.value || c.deallocating

/-- The logical count of a shared state with `c` in transit. -/
def countIn (sh : Shared A ι) (c : Carried) : ℕ :=
  (if deallocatingIn sh c then 0 else 1) + isaRc sh.isa + valueCount sh.side.value + c.rc

/-- What the holder of the lock carries. -/
def lockCarried (g : State A ι) : Carried :=
  match g.shared.lock with
  | none => .nothing
  | some t => carried (g.pc t)

/-- The deallocating bit of the object. -/
def deallocating (g : State A ι) : Bool := deallocatingIn g.shared (lockCarried g)

/-- The logical retain count of the object. -/
def logicalCount (g : State A ι) : ℕ := countIn g.shared (lockCarried g)

/-- The side-table count has not reached the pinned bit. -/
def Unpinned (sh : Shared A ι) : Prop := ¬ valuePinned A sh.side.value

instance (sh : Shared A ι) : Decidable (Unpinned sh) :=
  inferInstanceAs (Decidable (¬ valuePinned A sh.side.value))

/-- A step between states that are not pinned. -/
def UnpinnedStep [DecidableEq ι] (g : State A ι) (e : ι × Event) (g' : State A ι) : Prop :=
  Step g e g' ∧ Unpinned g.shared ∧ Unpinned g'.shared

/-- No call is in progress, and the `isa` and the side table agree. -/
structure Initial (g : State A ι) : Prop where
  idle : ∀ t, g.pc t = .idle
  unlocked : g.shared.lock = none
  ok : SharedOk g.shared

theorem Initial.inv {g : State A ι} (h : Initial g) : Inv g := by
  refine ⟨h.ok, fun t => ?_⟩
  rw [h.idle t]
  exact ⟨by simp [holds, h.unlocked], trivial⟩

/-! ## Transfers and the count -/

/-- Two threads' loads together. -/
def Carried.plus (c o : Carried) : Carried := ⟨c.rc + o.rc, c.deallocating || o.deallocating⟩

attribute [simp] Event.up Event.down isaRc isaDeallocating Carried.plus Carried.nothing

/-- What threads other than `t` carry: nothing, unless one of them has the lock; and then the
`isa` shows it. -/
structure Others (t : ι) (sh : Shared A ι) (o : Carried) : Prop where
  lock : o ≠ .nothing → ∃ u, u ≠ t ∧ sh.lock = some u
  raw : o.deallocating = true → Raw sh
  spilled : o.rc ≠ 0 → Raw sh ∨ Spilled sh

section Balance

variable {t : ι} {sh sh' : Shared A ι} {c c' o : Carried} {e : Event}

theorem Others.eq_nothing (ho : Others t sh o) (h : sh.lock = some t ∨ sh.lock = none) :
    o = .nothing := by
  by_contra hne
  obtain ⟨u, hu, hlock⟩ := ho.lock hne
  rcases h with h | h
  · rw [h] at hlock
    exact hu (Option.some.inj hlock).symm
  · simp [h] at hlock

variable {v : ℕ}

theorem mod_four_of_halves (h : v % (4 * A.rcHalf) = 0) : v % 4 = 0 :=
  Nat.mod_eq_zero_of_dvd ((Nat.dvd_mul_right 4 A.rcHalf).trans (Nat.dvd_of_mod_eq_zero h))

theorem valueDeallocating_of_halves (h : v % (4 * A.rcHalf) = 0) : valueDeallocating v = false := by
  have h4 := mod_four_of_halves h
  simp only [valueDeallocating, beq_eq_false_iff_ne]
  omega

theorem valueDeallocating_add_four (v n : ℕ) :
    valueDeallocating (v + 4 * n) = valueDeallocating v := by
  unfold valueDeallocating
  rw [show (v + 4 * n) / 2 % 2 = v / 2 % 2 by omega]

theorem valueCount_add_four (v n : ℕ) : valueCount (v + 4 * n) = valueCount v + n := by
  unfold valueCount
  omega

/-- One retain in the side table. -/
theorem valueDeallocating_add_one (v : ℕ) : valueDeallocating (v + 4) = valueDeallocating v :=
  valueDeallocating_add_four v 1

theorem valueCount_add_one (v : ℕ) : valueCount (v + 4) = valueCount v + 1 :=
  valueCount_add_four v 1

section

variable (hunp : Unpinned sh)
include hunp

/-- `sidetable_addExtraRC_nolock` on an entry that is not pinned. -/
theorem value_deposit :
    (sidetableAddExtraRC A.rcHalf sh.side).1.value = sh.side.value + 4 * A.rcHalf := by
  rw [sidetableAddExtraRC_spec A.rcHalf_lt, if_neg hunp]

theorem Unpinned.add_four_lt : sh.side.value + 4 < 2 ^ A.wordBits := by
  have hlt : sh.side.value < 2 ^ (A.wordBits - 1) := not_le.mp hunp
  have htwo := two_pow_wordBits A
  have hge := wordBits_ge A
  omega

theorem value_sideRetain : (Apple.Objc.sidetableRetain sh.side).value = sh.side.value + 4 := by
  rw [value_sidetableRetain, if_neg hunp, Nat.mod_eq_of_lt hunp.add_four_lt]

theorem value_settle (hhalves : sh.side.value % (4 * A.rcHalf) = 0) (f : IsaBits A) :
    (sidetableMoveExtraRC f.extraRc f.deallocating f.weaklyReferenced sh.side).value =
      sh.side.value + 4 * f.extraRc + 2 * f.deallocating.toNat + f.weaklyReferenced.toNat := by
  have hlt : sh.side.value < 2 ^ (A.wordBits - 1) := not_le.mp hunp
  have htwo := two_pow_wordBits A
  have hbits : 4 * 2 ^ A.rcBits ≤ 2 ^ (A.wordBits - 1) := by cases A <;> decide
  have hrc := f.extraRc.isLt
  exact sidetableMoveExtraRC_spec hrc _ _ (mod_four_of_halves hhalves) (by omega)

theorem value_sideTryRetain :
    (valueDeallocating sh.side.value = true ∧ (sidetableTryRetain sh.side).2 = false ∧
      (sidetableTryRetain sh.side).1.value = sh.side.value) ∨
    (valueDeallocating sh.side.value = false ∧ (sidetableTryRetain sh.side).2 = true ∧
      (sidetableTryRetain sh.side).1.value = sh.side.value + 4) := by
  obtain ⟨hres, hval⟩ := sidetableTryRetain_spec sh.side
  rw [if_neg hunp] at hval
  cases hd : valueDeallocating sh.side.value with
  | true => exact .inl ⟨rfl, by rw [hres, hd]; rfl, by rw [hval, hd]; rfl⟩
  | false =>
    refine .inr ⟨rfl, by rw [hres, hd]; rfl, ?_⟩
    rw [hval, hd, if_neg (by simp), Nat.mod_eq_of_lt hunp.add_four_lt]

/-- `sidetable_release` on an entry that is not pinned and does not become pinned. -/
theorem value_sideRelease (hunp' : ¬ valuePinned A (Apple.Objc.sidetableRelease sh.side).1.value) :
    (sh.side.value < 2 ∧ (Apple.Objc.sidetableRelease sh.side).2 = true ∧
      (Apple.Objc.sidetableRelease sh.side).1.value = sh.side.value + 2) ∨
    ((Apple.Objc.sidetableRelease sh.side).2 = false ∧
      sh.side.value = (Apple.Objc.sidetableRelease sh.side).1.value + 4) := by
  have hlt : sh.side.value < 2 ^ (A.wordBits - 1) := not_le.mp hunp
  have htwo := two_pow_wordBits A
  obtain ⟨hres, hval⟩ := sidetableRelease_spec sh.side
  rw [if_neg hunp] at hval
  by_cases h2 : sh.side.value < 2
  · exact .inl ⟨h2, by rw [hres]; simpa using h2, by rw [hval, if_pos h2]⟩
  · rw [if_neg h2] at hval
    refine .inr ⟨by rw [hres]; simpa using h2, ?_⟩
    by_cases h4 : sh.side.value < 4
    · -- only the deallocating bit is left: the subtraction wraps around and pins the entry
      rw [Nat.mod_eq_of_lt (by omega)] at hval
      exact absurd (by rw [valuePinned]; omega) hunp'
    · rw [show sh.side.value + (2 ^ A.wordBits - 4) = sh.side.value - 4 + 2 ^ A.wordBits by omega,
        Nat.add_mod_right, Nat.mod_eq_of_lt (by omega)] at hval
      omega

end

/-- The counts in all three places. -/
def rcIn (sh : Shared A ι) (c : Carried) : ℕ :=
  isaRc sh.isa + valueCount sh.side.value + c.rc

/-- A transfer sets the deallocating bit with the release that returns true, and otherwise
leaves it as it is; it changes the counts by its event, except that the release that
returns true does not touch them. -/
theorem Transfer.books (h : Transfer t sh c e sh' c') (hG : SharedOk sh)
    (hunp : Unpinned sh) (hunp' : Unpinned sh') :
    deallocatingIn sh' (c'.plus o) =
        (deallocatingIn sh (c.plus o) || decide (e = .released true)) ∧
      rcIn sh' (c'.plus o) + e.down =
        rcIn sh (c.plus o) + e.up + (if e = .released true then 1 else 0) := by
  unfold deallocatingIn rcIn
  cases h with
  | quiet hup hdown =>
    have : e ≠ .released true := by
      rintro rfl
      simp at hdown
    rw [hup, hdown]
    simp [this]
  | acquire => simp
  | drop => simp
  | inline hf hd _ hrc hne =>
    simp only [hf, isaRc, if_neg hne]
    exact ⟨by simp [hd, hne], by omega⟩
  | spill _ hf hd _ hrc he =>
    have hup : e.up = 1 ∧ e.down = 0 ∧ e ≠ .released true := by
      rcases he with rfl | rfl <;> simp
    simp only [hf, isaRc, Carried.plus, Carried.nothing, hup, if_false]
    exact ⟨by simp [hd], by omega⟩
  | deposit =>
    simp [value_deposit hunp, valueDeallocating_add_four, valueCount_add_four]
    omega
  | borrow _ hspilled hne =>
    obtain ⟨f, hf, _⟩ := hspilled
    have hval := value_borrow (hG.halves f hf) hne
    simp [← hval, valueDeallocating_add_four, valueCount_add_four]
    omega
  | fill _ hf hd _ hrc =>
    simp [hf, hd]
    omega
  | dealloc hf => simp [hf]
  | reclass hraw =>
    obtain ⟨cls, hcls⟩ := hraw
    simp [hcls]
  | migrate _ hf =>
    simp [hf, Bool.or_left_comm, Bool.or_assoc]
    omega
  | @settle f _ hraw hhalves =>
    obtain ⟨cls, hcls⟩ := hraw
    have h4 := mod_four_of_halves hhalves
    have hdealloc : valueDeallocating (sidetableMoveExtraRC f.extraRc f.deallocating
        f.weaklyReferenced sh.side).value = f.deallocating := by
      rw [value_settle hunp hhalves]
      unfold valueDeallocating
      cases f.deallocating <;> cases f.weaklyReferenced <;> simp <;> omega
    have hcount : valueCount (sidetableMoveExtraRC f.extraRc f.deallocating f.weaklyReferenced
        sh.side).value = valueCount sh.side.value + f.extraRc := by
      rw [value_settle hunp hhalves]
      have hd := Bool.toNat_le f.deallocating
      have hw := Bool.toNat_le f.weaklyReferenced
      unfold valueCount
      omega
    simp [hcls, valueDeallocating_of_halves hhalves, hdealloc, hcount]
    omega
  | sideRetain =>
    simp [value_sideRetain hunp, valueDeallocating_add_one, valueCount_add_one]
    omega
  | sideTryRetain =>
    rcases value_sideTryRetain hunp with ⟨_, hres, hval⟩ | ⟨_, hres, hval⟩
    · simp [hres, hval]
    · simp [hres, hval, valueDeallocating_add_one, valueCount_add_one]
      omega
  | sideRelease =>
    rcases value_sideRelease hunp hunp' with ⟨h2, hres, hval⟩ | ⟨hres, hval⟩
    · have : valueDeallocating (sh.side.value + 2) = true := by
        simp only [valueDeallocating, beq_iff_eq]
        omega
      simp [hres, hval, this, valueCount]
      omega
    · simp [hres, hval, valueDeallocating_add_one, valueCount_add_one]
      omega

/-- A release returns true only from the last count: the object is not deallocating and no
count is left in any place. -/
theorem Transfer.released_true (h : Transfer t sh c (.released true) sh' c') (hG : SharedOk sh)
    (ho : Others t sh o) (hunp : Unpinned sh) (hunp' : Unpinned sh') :
    deallocatingIn sh (c.plus o) = false ∧ rcIn sh (c.plus o) = 0 := by
  generalize he : Event.released true = e at h
  cases h with
  | quiet _ hdown => simp [← he] at hdown
  | inline _ _ _ _ hne => exact absurd he.symm hne
  | spill _ _ _ _ _ heither => rcases heither with rfl | rfl <;> cases he
  | @dealloc f hf hrc hlive hside =>
    have hzero : sh.side.value = 0 := by
      cases hs : f.hasSidetableRc with
      | true => exact (hside hs).2
      | false => exact hG.unspilled f hf hs
    have hod : o.deallocating = false := by
      by_contra hod
      exact (ho.raw (by simpa using hod)).not_nonpointer hf
    have horc : o.rc = 0 := by
      by_contra hne
      rcases ho.spilled hne with hraw | hspilled
      · exact hraw.not_nonpointer hf
      · have hheld := (hside (hspilled.hasSidetableRc hf)).1
        exact hne (by rw [ho.eq_nothing (.inl hheld)]; rfl)
    constructor
    · simp [deallocatingIn, hf, hlive, hzero, valueDeallocating, hod]
    · simp [rcIn, hf, hrc, hzero, valueCount, horc]
  | sideRelease hfree hraw =>
    obtain ⟨cls, hcls⟩ := hraw
    rw [ho.eq_nothing (.inr hfree)]
    rcases value_sideRelease hunp hunp' with ⟨h2, _, _⟩ | ⟨hres, _⟩
    · have hhalf : sh.side.value / 2 = 0 := Nat.div_eq_of_lt h2
      have hquarter : sh.side.value / 4 = 0 := Nat.div_eq_of_lt (by omega)
      constructor
      · simp [deallocatingIn, hcls, valueDeallocating, hhalf]
      · simp [rcIn, hcls, valueCount, hquarter]
    · simp [hres] at he
  | sideTryRetain => split_ifs at he
  | _ => cases he

/-- `rootTryRetain` succeeds only on an object that is not deallocating. -/
theorem Transfer.tryRetained (h : Transfer t sh c .tryRetained sh' c') (hG : SharedOk sh)
    (ho : Others t sh o) (hunp : Unpinned sh) : deallocatingIn sh (c.plus o) = false := by
  have hpacked : ∀ {f : IsaBits A}, sh.isa = .nonpointer f → f.deallocating = false →
      deallocatingIn sh (Carried.nothing.plus o) = false := by
    intro f hf hlive
    have hod : o.deallocating = false := by
      by_contra hod
      exact (ho.raw (by simpa using hod)).not_nonpointer hf
    simp [deallocatingIn, hf, hlive,
      valueDeallocating_of_halves (hG.halves f hf), hod]
  generalize he : Event.tryRetained = e at h
  cases h with
  | quiet hup => simp [← he] at hup
  | inline hf _ _ _ _ _ hlive | spill _ hf _ _ _ _ hlive => exact hpacked hf (hlive he.symm)
  | sideTryRetain hheld hraw =>
    obtain ⟨cls, hcls⟩ := hraw
    rw [ho.eq_nothing (.inl hheld)]
    rcases value_sideTryRetain hunp with ⟨_, hres, _⟩ | ⟨hd, _, _⟩
    · simp [hres] at he
    · simp [deallocatingIn, hcls, hd]
  | _ => cases he

/-- **A transfer changes the logical count by its event.** -/
theorem Transfer.balance (h : Transfer t sh c e sh' c') (hG : SharedOk sh)
    (ho : Others t sh o) (hunp : Unpinned sh) (hunp' : Unpinned sh') :
    countIn sh' (c'.plus o) + e.down = countIn sh (c.plus o) + e.up := by
  have hsplit : ∀ (sh : Shared A ι) c,
      countIn sh c = (if deallocatingIn sh c then 0 else 1) + rcIn sh c := by
    unfold countIn rcIn
    omega
  obtain ⟨hd, hrc⟩ := h.books (o := o) hG hunp hunp'
  rw [hsplit, hsplit, hd]
  by_cases htrue : e = .released true
  · subst htrue
    have hbefore := (h.released_true hG ho hunp hunp').1
    simp only [hbefore, decide_true, Bool.or_true, if_true, Bool.false_eq_true, if_false] at hrc ⊢
    omega
  · simp only [htrue, decide_false, Bool.or_false, if_false] at hrc ⊢
    omega

end Balance

/-- Other threads' loads show in the `isa`. -/
theorem carried_ok {t : ι} {pc : Pc A} {sh : Shared A ι} (hL : Local t pc sh) :
    ((carried pc).deallocating = true → Raw sh) ∧ ((carried pc).rc ≠ 0 → Raw sh ∨ Spilled sh) := by
  have hok := hL.ok
  cases pc with
  | idle => simp [carried]
  | retain p =>
    cases p with
    | add => exact ⟨by simp [carried], fun _ => .inr hok⟩
    | _ => simp [carried]
  | release p =>
    cases p with
    | put | put2 => exact ⟨by simp [carried], fun _ => .inr hok.2.2⟩
    | reload | undo => exact ⟨by simp [carried], fun _ => .inr hok.2⟩
    | _ => simp [carried]
  | change p =>
    cases p with
    | move => exact ⟨fun _ => hok.1, fun _ => .inl hok.1⟩
    | _ => simp [carried]

/-! ## Steps and runs of the system -/

section Runs

variable [DecidableEq ι] {g g' g₀ : State A ι} {e : ι × Event} {es : List (ι × Event)}

/-- What the holder of the lock carries, if it is not `t`. -/
def othersCarried (g : State A ι) (t : ι) : Carried :=
  match g.shared.lock with
  | none => .nothing
  | some u => if u = t then .nothing else carried (g.pc u)

theorem carried_of_not_holds {pc : Pc A} (h : holds pc = false) : carried pc = .nothing := by
  cases pc with
  | idle => rfl
  | retain p | release p | change p => cases p <;> first | rfl | simp [holds] at h

variable {t : ι}

theorem lockCarried_eq (hL : Local t (g.pc t) g.shared) :
    lockCarried g = (carried (g.pc t)).plus (othersCarried g t) := by
  have hempty : g.shared.lock ≠ some t → carried (g.pc t) = .nothing := fun h =>
    carried_of_not_holds (Bool.eq_false_iff.mpr (mt hL.lock.mp h))
  unfold lockCarried othersCarried
  cases hlock : g.shared.lock with
  | none => simp [hempty (by simp [hlock])]
  | some u =>
    by_cases hu : u = t
    · subst hu
      simp
    · simp [hempty (by simp [hlock, hu]), hu]

theorem others_othersCarried (hI : Inv g) (t : ι) : Others t g.shared (othersCarried g t) := by
  unfold othersCarried
  cases hlock : g.shared.lock with
  | none => exact ⟨by simp, by simp, by simp⟩
  | some u =>
    by_cases hu : u = t
    · simp only [hu]
      exact ⟨by simp, by simp, by simp⟩
    · simp only [hu]
      exact ⟨fun _ => ⟨u, hu, hlock⟩, (carried_ok (hI.2 u)).1, (carried_ok (hI.2 u)).2⟩

/-- Every step of the system is a transfer, with what other threads carry unchanged. -/
theorem step_transfer (hI : Inv g) (hstep : Step g e g') :
    ∃ c c' o, Transfer e.1 g.shared c e.2 g'.shared c' ∧ Others e.1 g.shared o ∧
      lockCarried g = c.plus o ∧ lockCarried g' = c'.plus o := by
  have hI' := step_inv g e g' hI hstep
  obtain ⟨t, ev⟩ := e
  cases hstep with
  | @mk _ _ p s hst =>
    have htransfer := (threadStep_transfer hI.1 (hI.2 t) hst).1
    have hlock := htransfer.guarantee.lock
    refine ⟨_, _, othersCarried g t, htransfer, others_othersCarried hI t,
      lockCarried_eq (hI.2 t), ?_⟩
    rw [lockCarried_eq (hI'.2 t)]
    simp only [Function.update_self]
    -- the lock of another thread and that thread's program counter are unchanged
    unfold othersCarried
    cases hs : s.lock with
    | none =>
      cases hg : g.shared.lock with
      | none => rfl
      | some u =>
        by_cases hu : u = t
        · simp [hu]
        · have := (hlock u hu).mpr hg
          simp [hs] at this
    | some u =>
      by_cases hu : u = t
      · subst hu
        simp only
        cases hg : g.shared.lock with
        | none => rfl
        | some v =>
          by_cases hv : v = u
          · simp [hv]
          · have := (hlock v hv).mpr hg
            rw [hs] at this
            exact absurd (Option.some.inj this).symm hv
      · have := (hlock u hu).mp hs
        simp [this, hu]

theorem unpinnedStep_inv (g : State A ι) (e : ι × Event) (g' : State A ι) (hI : Inv g)
    (h : UnpinnedStep g e g') : Inv g' :=
  step_inv g e g' hI h.1

theorem step_balance (hI : Inv g) (h : UnpinnedStep g e g') :
    logicalCount g' + e.2.down = logicalCount g + e.2.up := by
  obtain ⟨c, c', o, htransfer, ho, hc, hc'⟩ := step_transfer hI h.1
  rw [logicalCount, logicalCount, hc, hc']
  exact htransfer.balance hI.1 ho h.2.1 h.2.2

theorem step_deallocating (hI : Inv g) (h : UnpinnedStep g e g') :
    deallocating g' = (deallocating g || decide (e.2 = .released true)) := by
  obtain ⟨c, c', o, htransfer, ho, hc, hc'⟩ := step_transfer hI h.1
  rw [deallocating, deallocating, hc, hc']
  exact (htransfer.books hI.1 h.2.1 h.2.2).1

/-- The release that returns true takes the count from one to zero. -/
theorem step_released_true (hI : Inv g) (h : UnpinnedStep g (t, .released true) g') :
    deallocating g = false ∧ logicalCount g = 1 ∧ logicalCount g' = 0 := by
  obtain ⟨c, c', o, htransfer, ho, hc, hc'⟩ := step_transfer hI h.1
  obtain ⟨hd, hrc⟩ := htransfer.released_true hI.1 ho h.2.1 h.2.2
  have hone : logicalCount g = 1 := by
    rw [logicalCount, hc, countIn, hd]
    unfold rcIn at hrc
    simp only [Bool.false_eq_true, if_false]
    omega
  have hbal := step_balance hI h
  simp at hbal
  exact ⟨by rw [deallocating, hc, hd], hone, by omega⟩

theorem step_tryRetained (hI : Inv g) (h : UnpinnedStep g (t, .tryRetained) g') :
    deallocating g = false := by
  obtain ⟨c, c', o, htransfer, ho, hc, hc'⟩ := step_transfer hI h.1
  rw [deallocating, hc]
  exact htransfer.tryRetained hI.1 ho h.2.1

/-- The steps of a run from an initial state start from states with the invariant. -/
theorem Initial.run_inv (h0 : Initial g₀) (hrun : Run UnpinnedStep g₀ es g) :
    Inv g ∧ Run (fun g e g' => Inv g ∧ UnpinnedStep g e g') g₀ es g :=
  ⟨hrun.invariant unpinnedStep_inv h0.inv, hrun.strengthen unpinnedStep_inv h0.inv⟩

theorem deallocating_stable (g : State A ι) (e : ι × Event) (g' : State A ι)
    (hd : deallocating g = true) (h : Inv g ∧ UnpinnedStep g e g') : deallocating g' = true := by
  rw [step_deallocating h.1 h.2, hd, Bool.true_or]

/-- **The retain count under interleaving.** Let any threads run `rootRetain`,
    `rootTryRetain`, `rootRelease` and `changeIsa` on one object, in any order of their steps,
    while the side-table count does not reach the pinned bit. In every state reached
    * the logical count is the initial one plus the retains minus the releases that have
      happened;
    * at most one release has returned true, and a release that returns true takes the
      count from one to zero;
    * if the object is deallocating, no `rootTryRetain` succeeds from now on. -/
theorem refcount_run (h0 : Initial g₀) (hrun : Run UnpinnedStep g₀ es g) :
    logicalCount g + (es.map fun e => e.2.down).sum =
        logicalCount g₀ + (es.map fun e => e.2.up).sum ∧
      es.countP (fun e => decide (e.2 = .released true)) ≤ 1 ∧
      (∀ t g', UnpinnedStep g (t, .released true) g' → logicalCount g = 1 ∧ logicalCount g' = 0) ∧
      (deallocating g = true →
        ∀ fs g', Run UnpinnedStep g fs g' → ∀ e ∈ fs, e.2 ≠ .tryRetained) := by
  obtain ⟨hI, hrun'⟩ := h0.run_inv hrun
  refine ⟨?_, ?_, ?_, ?_⟩
  · exact hrun'.balance fun g e g' h => step_balance h.1 h.2
  · refine (Run.countP_le_one deallocating_stable ?_ ?_ hrun').1
    · rintro g ⟨t, e⟩ g' hd ⟨hI, h⟩ he
      obtain rfl : e = .released true := of_decide_eq_true he
      simp [(step_released_true hI h).1] at hd
    · intro g e g' h he
      rw [step_deallocating h.1 h.2, he, Bool.or_true]
  · intro t g' h
    exact (step_released_true hI h).2
  · intro hd fs g' hrun2 e he
    have hrun2' := hrun2.strengthen unpinnedStep_inv hI
    refine hrun2'.not_of_stable (P := fun e => e.2 = .tryRetained) deallocating_stable ?_ hd e he
    rintro g ⟨t, e⟩ g' hd ⟨hI, h⟩ he
    obtain rfl : e = .tryRetained := he
    simp [step_tryRetained hI h] at hd

end Runs

/-! ## Concrete runs -/

/-- An idle object with a packed `isa`, `n` inline counts and no side-table entry. -/
def packedObject (n : Fin (2 ^ Arch.x86_64.rcBits)) : State .x86_64 Unit :=
  ⟨fun _ => .idle, .nonpointer ⟨false, false, 0, false, false, false, n⟩, none, none⟩

theorem initial_packedObject (n : Fin (2 ^ Arch.x86_64.rcBits)) : Initial (packedObject n) where
  idle _ := rfl
  unlocked := rfl
  ok := ⟨by simp [packedObject], by simp [packedObject], by simp [packedObject]⟩

/-- One `rootRetain` of a new object. -/
theorem packedObject_retain : ∃ g,
    Run UnpinnedStep (packedObject 0) [((), .silent), ((), .silent), ((), .retained)] g :=
  ⟨_, .cons ⟨.mk ⟨.call .rootRetain, rfl⟩, by decide, by decide⟩ <|
    .cons ⟨.mk ⟨.go, rfl⟩, by decide, by decide⟩ <|
    .cons ⟨.mk ⟨.go, rfl⟩, by decide, by decide⟩ <| .nil _⟩

theorem refcount_run_packedObject : ∃ g,
    Run UnpinnedStep (packedObject 0) [((), .silent), ((), .silent), ((), .retained)] g ∧
      logicalCount g = 2 := by
  obtain ⟨g, hrun⟩ := packedObject_retain
  have hone : logicalCount (packedObject 0) = 1 := rfl
  have hcount := (refcount_run (initial_packedObject 0) hrun).1
  refine ⟨g, hrun, ?_⟩
  simpa [hone] using hcount

/-- What `rootRelease` has borrowed from the side table at a program counter. -/
def borrowedBy : Pc A → ℕ
  | .release p => (carried (.release p)).rc
  | _ => 0

/-- `extra_rc`, the side-table count and the counts that `rootRelease` has borrowed, without
the counts that `rootRetain` and `changeIsa` have in transit. -/
def partialCount (g : State A ι) : ℕ :=
  1 + isaRc g.shared.isa + valueCount g.shared.side.value +
    (match g.shared.lock with
      | none => 0
      | some t => borrowedBy (g.pc t))

/-- An overflowing `rootRetain` between its `isa` store and `sidetable_addExtraRC_nolock`:
half of the counts are in neither place, and no number of completed retains makes up for
them. -/
theorem partialCount_overflow : Initial (packedObject 255) ∧
    ∃ es g, Run UnpinnedStep (packedObject 255) es g ∧ (es.map fun e => e.2.down).sum = 0 ∧
      ∀ retains, partialCount g ≠ logicalCount (packedObject 255) + retains := by
  refine ⟨initial_packedObject 255,
    [((), .silent), ((), .silent), ((), .silent), ((), .silent), ((), .retained)], _,
    .cons ⟨.mk ⟨.call .rootRetain, rfl⟩, by decide, by decide⟩ <|
    .cons ⟨.mk ⟨.go, rfl⟩, by decide, by decide⟩ <|
    .cons ⟨.mk ⟨.go, rfl⟩, by decide, by decide⟩ <|
    .cons ⟨.mk ⟨.go, rfl⟩, by decide, by decide⟩ <|
    .cons ⟨.mk ⟨.go, rfl⟩, by decide, by decide⟩ <| .nil _, rfl, fun retains => ?_⟩
  have hbefore : logicalCount (packedObject 255) = 256 := rfl
  refine ne_of_lt (lt_of_eq_of_lt (b := 129) rfl ?_)
  omega

end Apple.Objc.Refcount
