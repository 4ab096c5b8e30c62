import Apple.Objc.RefcountCount

/-!
# Pinned retain counts

`SIDE_TABLE_RC_PINNED` is set when the side-table count has grown into the top bit.
`sidetable_retain`, `sidetable_tryRetain`, `sidetable_release` and
`sidetable_addExtraRC_nolock` leave a pinned entry alone, and
`sidetable_moveExtraRC_nolock` keeps the bit. `sidetable_subExtraRC_nolock` does not look
at the bit (`NSObject.mm`, lines 1453–1455): it subtracts `RC_HALF`, and when fewer counts
than that are left below the bit, the borrow takes the bit away.

Results:
* `pinned_step_iff`: what each step does to a pinned entry.
* `pinned_run_iff`: an entry stays pinned along a run, and no release returns true,
  exactly when every borrow of the run leaves the bit alone.
* `pinned_lost`: retains of a new object that pin its entry, and releases that unpin it.
-/

namespace Apple.Objc.Refcount

open Apple.Lib

variable {A : Arch} {ι : Type*}

/-- The pinned bit is set. -/
def Pinned (sh : Shared A ι) : Prop := valuePinned A sh.side.value

/-- The counts below the pinned bit are at least the `RC_HALF` that a borrow takes. -/
def BorrowKeepsPinned (sh : Shared A ι) : Prop :=
  2 ^ (A.wordBits - 1) + 4 * A.rcHalf ≤ sh.side.value

/-- A borrow leaves the pinned bit alone; all other steps are unrestricted. -/
def SafeStep [DecidableEq ι] (g : State A ι) (e : ι × Event) (g' : State A ι) : Prop :=
  Step g e g' ∧ (e.2 = .borrowed → BorrowKeepsPinned g.shared)

/-- The entry stays pinned, and no release returns true. -/
def KeepsPinned [DecidableEq ι] (g : State A ι) (e : ι × Event) (g' : State A ι) : Prop :=
  Step g e g' ∧ Pinned g'.shared ∧ e.2 ≠ .released true

theorem Pinned.value_ne_zero {sh : Shared A ι} (h : Pinned sh) : sh.side.value ≠ 0 := by
  have := Nat.two_pow_pos (A.wordBits - 1)
  have hle : 2 ^ (A.wordBits - 1) ≤ sh.side.value := h
  omega

theorem Pinned.two_le {sh : Shared A ι} (h : Pinned sh) : ¬ sh.side.value < 2 := by
  have hbits : 2 ≤ 2 ^ (A.wordBits - 1) := by cases A <;> decide
  have hle : 2 ^ (A.wordBits - 1) ≤ sh.side.value := h
  omega

/-- `sidetable_moveExtraRC_nolock` keeps the pinned bit, also when the sum overflows. -/
theorem valuePinned_move {side : Side A} (h : valuePinned A side.value) (n : ℕ) (d w : Bool) :
    valuePinned A (sidetableMoveExtraRC n d w side).value := by
  have hor : ∀ a b : BitVec A.wordBits, valuePinned A a.toNat → valuePinned A (a ||| b).toNat := by
    intro a b ha
    exact le_trans ha Nat.left_le_or
  have hsum : valuePinned A (if (addc (side.getD 0) (shiftRc n)).2 then sideTableRcPinned
      else (addc (side.getD 0) (shiftRc n)).1).toNat := by
    split
    next => simp [valuePinned]
    next hcarry =>
      have hlt : (side.getD 0).toNat + (shiftRc n : BitVec A.wordBits).toNat < 2 ^ A.wordBits := by
        simpa [addc] using hcarry
      rw [(addc_of_lt hlt).1, (addc_of_lt hlt).2]
      exact le_trans h (Nat.le_add_right _ _)
  cases d <;> cases w
  · exact hsum
  · exact hor _ _ hsum
  · exact hor _ _ hsum
  · exact hor _ _ (hor _ _ hsum)

section Steps

variable {t : ι} {sh sh' : Shared A ι} {c c' : Carried} {e : Event}

/-- What a transfer does to a pinned entry. -/
theorem Transfer.pinned_iff (h : Transfer t sh c e sh' c') (hG : SharedOk sh) (hp : Pinned sh) :
    Pinned sh' ∧ e ≠ .released true ↔ (e = .borrowed → BorrowKeepsPinned sh) := by
  cases h with
  | quiet _ hdown hne =>
    refine ⟨fun _ he => absurd he hne, fun _ => ⟨hp, ?_⟩⟩
    rintro rfl
    simp [Event.down] at hdown
  | inline _ _ _ _ hne hnb => exact ⟨fun _ he => absurd he hnb, fun _ => ⟨hp, hne⟩⟩
  | spill _ _ _ _ _ he =>
    rcases he with rfl | rfl
    · exact ⟨fun _ he => by simp at he, fun _ => ⟨hp, by simp⟩⟩
    · exact ⟨fun _ he => by simp at he, fun _ => ⟨hp, by simp⟩⟩
  | @dealloc f hf _ _ hside =>
    -- a pinned entry is not empty, so that the object is not at its last count
    refine absurd ?_ hp.value_ne_zero
    cases hs : f.hasSidetableRc with
    | true => exact (hside hs).2
    | false => exact hG.unspilled f hf hs
  | deposit =>
    refine ⟨fun _ he => by simp at he, fun _ => ⟨?_, by simp⟩⟩
    unfold Pinned at hp ⊢
    rw [sidetableAddExtraRC_spec A.rcHalf_lt, if_pos hp]
    exact hp
  | borrow _ hspilled hne =>
    obtain ⟨f, hf, _⟩ := hspilled
    have hval := value_borrow (hG.halves f hf) hne
    simp only [Pinned, valuePinned, BorrowKeepsPinned, ne_eq, reduceCtorEq, not_false_eq_true,
      and_true, forall_const]
    omega
  | settle =>
    exact ⟨fun _ he => by simp at he, fun _ => ⟨valuePinned_move hp _ _ _, by simp⟩⟩
  | sideRetain =>
    refine ⟨fun _ he => by simp at he, fun _ => ⟨?_, by simp⟩⟩
    unfold Pinned at hp ⊢
    rw [value_sidetableRetain, if_pos hp]
    exact hp
  | sideTryRetain =>
    refine ⟨fun _ he => by split_ifs at he, fun _ => ⟨?_, by split_ifs <;> simp⟩⟩
    unfold Pinned at hp ⊢
    rw [(sidetableTryRetain_spec sh.side).2, if_pos hp, ite_self]
    exact hp
  | sideRelease =>
    obtain ⟨hres, hval⟩ := sidetableRelease_spec sh.side
    refine ⟨fun _ he => by simp at he, fun _ => ⟨?_, by simp [hres, hp.two_le]⟩⟩
    have htwo := hp.two_le
    unfold Pinned at hp ⊢
    rw [hval, if_neg htwo, if_pos hp]
    exact hp
  | _ => exact ⟨fun _ he => by simp at he, fun _ => ⟨hp, by simp⟩⟩

variable [DecidableEq ι] {g g' g₀ : State A ι} {es fs : List (ι × Event)}

/-- **A step keeps a pinned entry pinned, and returns no true release, exactly when it is not
a borrow that takes the bit away.** -/
theorem pinned_step_iff {e : ι × Event} (hI : Inv g) (hp : Pinned g.shared) (hstep : Step g e g') :
    Pinned g'.shared ∧ e.2 ≠ .released true ↔ (e.2 = .borrowed → BorrowKeepsPinned g.shared) := by
  obtain ⟨c, c', o, htransfer, -, -, -⟩ := step_transfer hI hstep
  exact htransfer.pinned_iff hI.1 hp

/-- **Pinned entries along runs.** From a reachable state with a pinned entry, a run keeps the
entry pinned in every state and no release of it returns true, if and only if every borrow
of the run finds at least `RC_HALF` counts below the pinned bit. -/
theorem pinned_run_iff (h0 : Initial g₀) (hreach : Run Step g₀ fs g) (hp : Pinned g.shared) :
    Run KeepsPinned g es g' ↔ Run SafeStep g es g' := by
  have hI : Inv g := hreach.invariant step_inv h0.inv
  have hkeep : ∀ (g : State A ι) (e : ι × Event) (g' : State A ι), Inv g ∧ Pinned g.shared →
      KeepsPinned g e g' → Inv g' ∧ Pinned g'.shared :=
    fun g e g' h hstep => ⟨step_inv g e g' h.1 hstep.1, hstep.2.1⟩
  have hsafe : ∀ (g : State A ι) (e : ι × Event) (g' : State A ι), Inv g ∧ Pinned g.shared →
      SafeStep g e g' → Inv g' ∧ Pinned g'.shared :=
    fun g e g' h hstep => ⟨step_inv g e g' h.1 hstep.1,
      ((pinned_step_iff h.1 h.2 hstep.1).mpr hstep.2).1⟩
  constructor
  · intro hrun
    refine (hrun.strengthen hkeep ⟨hI, hp⟩).mono ?_
    rintro g e g' ⟨⟨hI, hp⟩, hstep⟩
    exact ⟨hstep.1, (pinned_step_iff hI hp hstep.1).mp hstep.2⟩
  · intro hrun
    refine (hrun.strengthen hsafe ⟨hI, hp⟩).mono ?_
    rintro g e g' ⟨⟨hI, hp⟩, hstep⟩
    exact ⟨hstep.1, (pinned_step_iff hI hp hstep.1).mpr hstep.2⟩

end Steps

/-! ## A pinned entry that is lost

One thread retains a new object until its entry is pinned, and then releases it. -/

section Lost

/-- The calls and steps of a single thread. -/
def runOne (g : State A Unit) : List (Choice A) → Option (State A Unit)
  | [] => some g
  | c :: cs =>
    match threadStep () (g.pc ()) g.shared c with
    | none => none
    | some (_, p, s) => runOne ⟨fun _ => p, s⟩ cs

/-- Some run goes from `g` to `g'`. -/
def Reaches (g g' : State A Unit) : Prop := ∃ es, Run Step g es g'

theorem Reaches.refl (g : State A Unit) : Reaches g g := ⟨[], .nil g⟩

theorem Reaches.trans {g g' g'' : State A Unit} (h : Reaches g g') (h' : Reaches g' g'') :
    Reaches g g'' := by
  obtain ⟨es, hes⟩ := h
  obtain ⟨fs, hfs⟩ := h'
  exact ⟨es ++ fs, hes.append hfs⟩

theorem reaches_of_runOne {g g' : State A Unit} {cs : List (Choice A)}
    (h : runOne g cs = some g') : Reaches g g' := by
  induction cs generalizing g with
  | nil =>
    cases h
    exact .refl _
  | cons c cs ih =>
    rw [runOne] at h
    split at h
    · cases h
    next e p s hstep =>
      obtain ⟨es, hes⟩ := ih h
      exact ⟨((), e) :: es, .cons (.mk ⟨c, hstep⟩) hes⟩

theorem rc_pos (A : Arch) : 0 < 2 ^ A.rcBits := Nat.two_pow_pos _

/-- An idle object with `n` inline counts and the side-table entry `side`. -/
def idleObject (A : Arch) (n : ℕ) (spilled : Bool) (side : Side A) : State A Unit :=
  ⟨fun _ => .idle,
    .nonpointer (IsaBits.setRc ⟨false, false, ⟨0, Nat.two_pow_pos _⟩, false, false, spilled,
      ⟨0, rc_pos A⟩⟩ n), side, none⟩

variable {n : ℕ} {spilled : Bool} {side : Side A}

theorem setRc_setRc (f : IsaBits A) (m n : ℕ) : (f.setRc m).setRc n = f.setRc n := rfl

theorem retain_inline (h : n + 1 < 2 ^ A.rcBits) :
    Reaches (idleObject A n spilled side) (idleObject A (n + 1) spilled side) := by
  refine reaches_of_runOne (?_ : runOne _ [.call .rootRetain, .go, .go] = _)
  simp [runOne, threadStep, callStep, rootRetainStep, goto, storeExclusive, idleObject,
    IsaBits.addRc, Nat.mod_eq_of_lt (by omega : n < 2 ^ A.rcBits), h, setRc_setRc]

theorem retain_overflow (h : n + 1 = 2 ^ A.rcBits) : Reaches (idleObject A n spilled side)
      (idleObject A A.rcHalf true (sidetableAddExtraRC A.rcHalf side).1) := by
  refine reaches_of_runOne (?_ : runOne _
    [.call .rootRetain, .go, .go, .go, .go, .go, .go] = _)
  simp [runOne, threadStep, callStep, rootRetainStep, goto, storeExclusive, sidetableLock,
    sidetableUnlock, idleObject, IsaBits.addRc, Nat.mod_eq_of_lt (by omega : n < 2 ^ A.rcBits), h,
    halved, IsaBits.setRc]

theorem release_inline (h : n + 1 < 2 ^ A.rcBits) :
    Reaches (idleObject A (n + 1) spilled side) (idleObject A n spilled side) := by
  refine reaches_of_runOne (?_ : runOne _ [.call .rootRelease, .go, .go] = _)
  simp [runOne, threadStep, callStep, rootReleaseStep, goto, storeExclusive, idleObject,
    IsaBits.subRc, Nat.mod_eq_of_lt h, setRc_setRc]

/-- A release without inline counts: lock, borrow, store, unlock. -/
theorem release_borrow (h : side.value ≠ 0) : Reaches (idleObject A 0 true side)
      (idleObject A (A.rcHalf - 1) true (sidetableSubExtraRC A.rcHalf side).1) := by
  refine reaches_of_runOne (?_ : runOne _
    [.call .rootRelease, .go, .go, .go, .go, .go, .go, .go] = _)
  simp [runOne, threadStep, callStep, rootReleaseStep, goto, storeExclusive, sidetableLock,
    sidetableUnlock, idleObject, IsaBits.subRc, sub_of_value_ne_zero h, A.rcHalf_pos, setRc_setRc]

/-- `k` retains in a row that stay inline. -/
theorem retains_inline {m : ℕ} (k : ℕ) (h : m + k < 2 ^ A.rcBits) :
    Reaches (idleObject A m spilled side) (idleObject A (m + k) spilled side) := by
  induction k with
  | zero => exact .refl _
  | succ k ih => exact (ih (by omega)).trans (retain_inline (by omega))

theorem releases_inline (k : ℕ) (h : k < 2 ^ A.rcBits) :
    Reaches (idleObject A k spilled side) (idleObject A 0 spilled side) := by
  induction k with
  | zero => exact .refl _
  | succ k ih => exact (release_inline h).trans (ih (by omega))

/-- Every `RC_HALF` retains fill one more half, up to the pinned bit. -/
theorem fill_halves (k : ℕ) (hk : 4 * A.rcHalf * (k + 1) ≤ 2 ^ (A.wordBits - 1)) :
    ∃ side, side.value = 4 * A.rcHalf * (k + 1) ∧
      Reaches (idleObject A 0 false none) (idleObject A A.rcHalf true side) := by
  have hhalf := A.two_mul_rcHalf
  have hpos := A.rcHalf_pos
  induction k with
  | zero =>
    refine ⟨(sidetableAddExtraRC A.rcHalf none).1, ?_, ?_⟩
    · rw [sidetableAddExtraRC_spec A.rcHalf_lt, if_neg (by simp [valuePinned])]
      simp
    · have h1 : Reaches (idleObject A 0 false none)
          (idleObject A (0 + (2 ^ A.rcBits - 1)) false none) :=
        retains_inline _ (by omega)
      exact h1.trans (retain_overflow (by omega))
  | succ k ih =>
    have hstep : 4 * A.rcHalf * (k + 1 + 1) = 4 * A.rcHalf * (k + 1) + 4 * A.rcHalf := by ring
    obtain ⟨side, hval, hreach⟩ := ih (by omega)
    refine ⟨(sidetableAddExtraRC A.rcHalf side).1, ?_, ?_⟩
    · have hunp : ¬ valuePinned A side.value := by
        rw [valuePinned]
        omega
      rw [sidetableAddExtraRC_spec A.rcHalf_lt, if_neg hunp, hval, hstep]
    · have h1 : Reaches (idleObject A A.rcHalf true side)
          (idleObject A (A.rcHalf + (2 ^ A.rcBits - 1 - A.rcHalf)) true side) :=
        retains_inline _ (by omega)
      exact (hreach.trans h1).trans (retain_overflow (by omega))

/-- **A pinned entry that is lost.** Enough retains of a new object pin its entry; its inline
counts are then released one by one, and one more release borrows from the side table
and clears the pinned bit. -/
theorem pinned_lost : Initial (idleObject .x86_64 0 false none) ∧
    ∃ g g', Reaches (idleObject .x86_64 0 false none) g ∧ Pinned g.shared ∧ Reaches g g' ∧
      ¬ Pinned g'.shared := by
  refine ⟨⟨fun _ => rfl, rfl, by simp [idleObject], by simp [idleObject], by simp [idleObject]⟩, ?_⟩
  obtain ⟨side, hval, hreach⟩ := fill_halves (A := .x86_64) (2 ^ 54 - 1) (by decide)
  have hpin : side.value = 2 ^ 63 := hval
  have hborrow : (sidetableSubExtraRC Arch.x86_64.rcHalf side).1.value +
      4 * Arch.x86_64.rcHalf = side.value :=
    value_borrow (by rw [hpin]; decide) (by rw [hpin]; decide)
  refine ⟨_, _, hreach, ?_, (releases_inline _ (Arch.rcHalf_lt _)).trans (release_borrow ?_), ?_⟩
  · show valuePinned .x86_64 side.value
    rw [hpin]
    decide
  · rw [hpin]
    decide
  · show ¬ 2 ^ 63 ≤ (sidetableSubExtraRC Arch.x86_64.rcHalf side).1.value
    omega

/-- A raw object with a pinned entry. -/
def pinnedRaw : State .x86_64 Unit :=
  ⟨fun _ => .idle, .raw ⟨8, by decide, by decide⟩, some (BitVec.ofNat _ (2 ^ 63)), none⟩

theorem pinned_run_iff_pinnedRaw : Pinned pinnedRaw.shared ∧
    ∃ g, Run KeepsPinned pinnedRaw [((), .silent), ((), .silent), ((), .released false)] g := by
  have h0 : Initial pinnedRaw :=
    ⟨fun _ => rfl, rfl, by simp [pinnedRaw], by simp [pinnedRaw], by simp [pinnedRaw]⟩
  have hp : Pinned pinnedRaw.shared := by
    unfold Pinned
    decide
  exact ⟨hp, _, (pinned_run_iff h0 (.nil _) hp).mpr <|
    .cons ⟨.mk ⟨.call .rootRelease, rfl⟩, by simp⟩ <|
    .cons ⟨.mk ⟨.go, rfl⟩, by simp⟩ <| .cons ⟨.mk ⟨.go, rfl⟩, by simp⟩ <| .nil _⟩

end Lost

end Apple.Objc.Refcount
