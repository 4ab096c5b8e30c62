import Apple.Objc.WeakRegistry

/-!
# Entries that outlive their referrers

Unregistering the last referrer of an object removes its entry from the weak table only when
the entry is inline (`isEmptyEntry_iff`). An entry moves out of line when its object gets a fifth
referrer, and it never moves back. So the entry of an object that ever had five referrers at
once stays in the table when all of them are gone.

Results:
* `Call.run_settled`: which entries there are, and which are out of line, after any calls.
* `Call.hasEntry_iff_registered_iff`: when the objects with an entry are those with a referrer.
-/

namespace Apple.Objc.Weak

open Apple.Lib Function

/-- The calls on a weak table. -/
inductive Call where
  | register (calloc : Calloc) (info : ReferentInfo) (crashIfDeallocating : Bool)
      (referent referrer : ℕ)
  | unregister (referent referrer : ℕ)

/-- The table has an entry for the referent. -/
def HasEntry (t : WeakTable) (r : ℕ) : Prop := ∃ e, Holds t e ∧ e.referent = r

namespace Call

def exec (ptrHash : ℕ → ℕ) (t : WeakTable) : Call → Except Fatal WeakTable
  | .register calloc info crashIfDeallocating referent referrer =>
    (weakRegisterNoLock ptrHash calloc t info referent referrer crashIfDeallocating).map Prod.fst
  | .unregister referent referrer => (weakUnregisterNoLock ptrHash t referent referrer).map Prod.fst

/-- What a call does to the set of registered pairs. -/
def apply (reg : Registry) : Call → Registry
  | .register _ info _ referent referrer =>
    if referent ≠ 0 ∧ Viable info then insert (referent, referrer) reg else reg
  | .unregister referent referrer => reg.erase (referent, referrer)

/-- The pairs that are registered after the calls. -/
def registered (calls : List Call) : Registry := calls.foldl apply ∅

/-- A variable is registered only while it is not registered, in a call that does not end the
process, and unregistered only while it is registered. -/
def Allowed (reg : Registry) : Call → Prop
  | .register _ info crashIfDeallocating referent referrer =>
    (crashIfDeallocating = true → info.deallocating = some true →
      referent = 0 ∨ info.isTaggedPointer = true) ∧
    Aligned referrer ∧ referrer ≠ 0 ∧ Unregistered reg referrer
  | .unregister referent referrer => (referent, referrer) ∈ reg

instance (reg : Registry) : (c : Call) → Decidable (Allowed reg c)
  | .register .. => inferInstanceAs (Decidable (_ ∧ _))
  | .unregister .. => inferInstanceAs (Decidable (_ ∈ reg))

/-- Every call is allowed when it is made. -/
def Disciplined (calls : List Call) : Prop :=
  ∀ n (h : n < calls.length), Allowed (registered (calls.take n)) calls[n]

instance (calls : List Call) : Decidable (Disciplined calls) :=
  Nat.decidableBallLT ..

/-- The object has had more referrers at once than fit inline. -/
def Crowded (calls : List Call) (r : ℕ) : Prop :=
  ∃ pre, pre <+: calls ∧ weakInlineCount < (referrers (registered pre) r).card

variable {calls : List Call} {c : Call} {r r' x : ℕ}

theorem registered_concat : registered (calls ++ [c]) = apply (registered calls) c := by
  simp [registered]

theorem Disciplined.of_concat (h : Disciplined (calls ++ [c])) :
    Disciplined calls ∧ Allowed (registered calls) c := by
  constructor
  · intro n hn
    have hcall := h n (by simp; omega)
    rwa [List.take_append_of_le_length hn.le, List.getElem_append_left hn] at hcall
  · simpa using h calls.length (by simp)

theorem crowded_concat : Crowded (calls ++ [c]) r ↔
    weakInlineCount < (referrers (apply (registered calls) c) r).card ∨ Crowded calls r := by
  simp only [Crowded, List.prefix_concat_iff, or_and_right, exists_or, exists_eq_left,
    registered_concat]

theorem crowded_of_card (h : weakInlineCount < (referrers (registered calls) r).card) :
    Crowded calls r := ⟨calls, List.prefix_rfl, h⟩

/-- A call that gives the object no new referrer. -/
theorem crowded_concat_of_subset
    (h : referrers (apply (registered calls) c) r ⊆ referrers (registered calls) r) :
    Crowded (calls ++ [c]) r ↔ Crowded calls r := by
  rw [crowded_concat]
  refine or_iff_right_of_imp fun hcard => ?_
  exact crowded_of_card (hcard.trans_le (Finset.card_le_card h))

/-- What a call that replaces or removes the entry of `r` does to the out-of-line entries. -/
theorem outOfLine_replace {t t' : WeakTable} {e : WeakEntry} (kept : Prop) (href : e.referent = r)
    (hholds : ∀ a, Holds t' a ↔ kept ∧ a = e ∨ a.referent ≠ r ∧ Holds t a) :
    OutOfLine t' r' ↔ if r' = r then kept ∧ e.outOfLine = true else OutOfLine t r' := by
  simp only [OutOfLine, hholds]
  split_ifs with hr
  · constructor
    · rintro ⟨a, ⟨hkept, rfl⟩ | ⟨hne, _⟩, har, hout⟩
      · exact ⟨hkept, hout⟩
      · exact absurd (har.trans hr) hne
    · rintro ⟨hkept, hout⟩
      exact ⟨e, .inl ⟨hkept, rfl⟩, href.trans hr.symm, hout⟩
  · constructor
    · rintro ⟨a, ⟨_, rfl⟩ | ⟨_, ha⟩, har, hout⟩
      · exact absurd (har.symm.trans href) hr
      · exact ⟨a, ha, har, hout⟩
    · rintro ⟨a, ha, har, hout⟩
      exact ⟨a, .inr ⟨har ▸ hr, ha⟩, har, hout⟩

/-- The table refines the registered pairs. Its entries are out of line for the objects that
have been crowded, and the other entries have a referrer. -/
structure Settled (ptrHash : ℕ → ℕ) (t : WeakTable) (calls : List Call) : Prop where
  refines : Refines ptrHash t (registered calls)
  outOfLine : ∀ r, OutOfLine t r ↔ Crowded calls r
  nonempty : ∀ e, Holds t e →
    e.outOfLine = true ∨ (referrers (registered calls) e.referent).Nonempty

variable {ptrHash : ℕ → ℕ} {t : WeakTable}

theorem Settled.hasEntry_iff (h : Settled ptrHash t calls) :
    HasEntry t r ↔ (referrers (registered calls) r).Nonempty ∨ Crowded calls r := by
  constructor
  · rintro ⟨e, he, rfl⟩
    rcases h.nonempty e he with hout | hne
    · exact .inr ((h.outOfLine _).mp ⟨e, he, rfl, hout⟩)
    · exact .inl hne
  · rintro (hne | hcrowded)
    · by_contra hnone
      simp only [HasEntry, not_exists, not_and] at hnone
      exact hne.ne_empty (h.refines.complete r hnone)
    · obtain ⟨e, he, her, _⟩ := (h.outOfLine r).mpr hcrowded
      exact ⟨e, he, her⟩

variable {calloc : Calloc} {info : ReferentInfo} {crash : Bool}

/-- A registration. -/
theorem Settled.register (h : Settled ptrHash t calls) (hviable : r ≠ 0 ∧ Viable info)
    (hallowed : Allowed (registered calls) (.register calloc info crash r x)) :
    ∃ t', exec ptrHash t (.register calloc info crash r x) = .ok t' ∧
      Settled ptrHash t' (calls ++ [.register calloc info crash r x]) := by
  obtain ⟨_, hx, hx0, hfree⟩ := hallowed
  set c := Call.register calloc info crash r x
  have hnew : (r, x) ∉ registered calls := fun hmem => hfree.ne hmem rfl
  have hreg : apply (registered calls) c = insert (r, x) (registered calls) := if_pos hviable
  obtain ⟨t', e, ht', hwf, href, hholds, hrep, hout⟩ :=
    rememberReferrer_spec calloc h.refines hviable.1 hx hx0 hnew
  have hother : ∀ r', r' ≠ r →
      referrers (registered (calls ++ [c])) r' = referrers (registered calls) r' := by
    intro r' hr'
    rw [registered_concat, hreg, referrers_insert_of_ne _ hr']
  have hsame : registered (calls ++ [c]) = insert (r, x) (registered calls) :=
    registered_concat.trans hreg
  refine ⟨t', ?_, ?_, fun r' => ?_, fun a ha => ?_⟩
  · obtain ⟨hr, htagged, hdealloc⟩ := hviable
    simp [c, exec, weakRegisterNoLock, hr, htagged, hdealloc, ht', Except.map]
  · apply h.refines.replaceEntry hwf href hholds hother
    rwa [hsame]
  · rw [outOfLine_replace True href (by simpa using hholds)]
    split_ifs with hr'
    · subst hr'
      have hcard := Finset.card_insert_of_notMem (mem_referrers.not.mpr hnew)
      rw [hout, h.outOfLine, crowded_concat, hreg, referrers_insert_self]
      have := @crowded_of_card calls r'
      grind
    · rw [h.outOfLine, crowded_concat_of_subset]
      rw [hreg, referrers_insert_of_ne _ hr']
  · rcases (hholds a).mp ha with rfl | ⟨hne, ha⟩
    · right
      rw [href, hsame, referrers_insert_self]
      exact Finset.insert_nonempty ..
    · rw [hother _ hne]
      exact h.nonempty a ha

theorem Settled.unregister (h : Settled ptrHash t calls) (hmem : (r, x) ∈ registered calls) :
    ∃ t', exec ptrHash t (.unregister r x) = .ok t' ∧
      Settled ptrHash t' (calls ++ [.unregister r x]) := by
  set c := Call.unregister r x
  have hreg : registered (calls ++ [c]) = (registered calls).erase (r, x) := registered_concat
  obtain ⟨t', e, ht', hwf, href, hrep, hout, hholds⟩ := weakUnregister_spec h.refines hmem
  obtain ⟨t1, ht1, href1⟩ := weakUnregister_refines h.refines hmem
  obtain rfl : t1 = t' := by simpa [ht1] using ht'
  rw [← hreg] at hrep href1
  refine ⟨t1, by simp [c, exec, ht1, Except.map], href1, fun r' => ?_, fun a ha => ?_⟩
  · have hsub : referrers (apply (registered calls) c) r' ⊆ referrers (registered calls) r' := by
      intro y hy
      exact mem_referrers.mpr (Finset.mem_of_mem_erase (mem_referrers.mp hy))
    rw [crowded_concat_of_subset hsub, ← h.outOfLine, outOfLine_replace _ href hholds]
    split_ifs with hr'
    · rw [hr', ← hout]
      refine and_iff_right_of_imp fun ho => ?_
      rw [← Bool.not_eq_true, isEmptyEntry_iff hrep]
      simp [ho]
    · rfl
  · rcases (hholds a).mp ha with ⟨hempty, rfl⟩ | ⟨hne, ha⟩
    · rw [← Bool.not_eq_true, isEmptyEntry_iff hrep, not_and_or] at hempty
      rw [href, Finset.nonempty_iff_ne_empty]
      rcases hempty with hne | hline
      · exact .inr hne
      · exact .inl (Bool.eq_true_of_not_eq_false hline)
    · rw [hreg, referrers_erase_of_ne _ hne]
      exact h.nonempty a ha

/-- An object that cannot have weak references is not registered. -/
theorem exec_refused {reg : Registry}
    (h : ¬ (r ≠ 0 ∧ Viable info)) (hallowed : Allowed reg (.register calloc info crash r x)) :
    exec ptrHash t (.register calloc info crash r x) = .ok t := by
  have hcrash := hallowed.1
  unfold exec weakRegisterNoLock
  by_cases hr : r = 0 ∨ info.isTaggedPointer = true
  · simp [hr, Except.map]
  · rcases hdealloc : info.deallocating with _ | _ | _
    · simp [hr, hdealloc, Except.map]
    · rw [not_or, Bool.not_eq_true] at hr
      exact absurd ⟨hr.1, hr.2, hdealloc⟩ h
    · have hgoes : crash = false := by
        rw [← Bool.not_eq_true]
        exact fun hc => hr (hcrash hc hdealloc)
      simp [hr, hdealloc, hgoes, Except.map]

/-- **After any calls** the entries are known. -/
theorem run_settled (ptrHash : ℕ → ℕ) : ∀ calls : List Call, Disciplined calls →
    ∃ t, calls.foldlM (exec ptrHash) .init = .ok t ∧ Settled ptrHash t calls := by
  intro calls
  induction calls using List.reverseRecOn with
  | nil =>
    intro _
    refine ⟨.init, rfl, refines_init, fun r => ?_, ?_⟩
    · simp [OutOfLine, Crowded, Holds, WeakTable.init, registered, referrers]
    · rintro e ⟨entries, ⟨⟩, _⟩
  | append_singleton calls c ih =>
    intro hdisc
    obtain ⟨hcalls, hallowed⟩ := hdisc.of_concat
    obtain ⟨t, ht, h⟩ := ih hcalls
    have hlast : (calls ++ [c]).foldlM (exec ptrHash) .init = exec ptrHash t c := by
      rw [List.foldlM_append, ht]
      exact bind_pure (exec ptrHash t c)
    rw [hlast]
    cases c with
    | unregister r x => exact h.unregister hallowed
    | register calloc info crash r x =>
      by_cases hviable : r ≠ 0 ∧ Viable info
      · exact h.register hviable hallowed
      · have hreg : apply (registered calls) (.register calloc info crash r x) =
            registered calls := if_neg hviable
        refine ⟨t, exec_refused hviable hallowed, ?_, fun r' => ?_, ?_⟩
        · rw [registered_concat, hreg]
          exact h.refines
        · rw [h.outOfLine, crowded_concat_of_subset (by rw [hreg])]
        · rw [registered_concat, hreg]
          exact h.nonempty

/-- **An object without a referrer has no entry, unless it was crowded.** After any sequence of
calls the table has an entry for an object exactly when a referrer is registered for it, if
and only if there is such a referrer or the object never had five at once. -/
theorem hasEntry_iff_registered_iff (ptrHash : ℕ → ℕ) (calls : List Call)
    (h : Disciplined calls) : ∃ t, calls.foldlM (exec ptrHash) .init = .ok t ∧ ∀ r,
      (HasEntry t r ↔ ∃ x, (r, x) ∈ registered calls) ↔
        (∃ x, (r, x) ∈ registered calls) ∨ ¬ Crowded calls r := by
  obtain ⟨t, ht, hsettled⟩ := run_settled ptrHash calls h
  refine ⟨t, ht, fun r => ?_⟩
  rw [hsettled.hasEntry_iff]
  simp only [Finset.Nonempty, mem_referrers]
  tauto

/-- Five variables are registered for the object at 4096, and unregistered again. -/
def fiveAndBack : List Call :=
  [8, 16, 24, 32, 40].map (register callocAbove ⟨false, false, false, none⟩ true 4096) ++
    [8, 16, 24, 32, 40].map (unregister 4096)

theorem hasEntry_iff_registered_iff_fiveAndBack : Disciplined fiveAndBack ∧
    ∃ t, fiveAndBack.foldlM (exec id) .init = .ok t ∧ ∀ r,
      (HasEntry t r ↔ ∃ x, (r, x) ∈ registered fiveAndBack) ↔
        (∃ x, (r, x) ∈ registered fiveAndBack) ∨ ¬ Crowded fiveAndBack r := by
  have hdisc : Disciplined fiveAndBack := by decide
  exact ⟨hdisc, hasEntry_iff_registered_iff id fiveAndBack hdisc⟩

/-- The last of the five does not take the entry with it. -/
theorem hasEntry_fiveAndBack : Disciplined fiveAndBack ∧ registered fiveAndBack = ∅ ∧
    ∃ t, fiveAndBack.foldlM (exec id) .init = .ok t ∧ HasEntry t 4096 := by
  have hdisc : Disciplined fiveAndBack := by decide
  obtain ⟨t, ht, hsettled⟩ := run_settled id fiveAndBack hdisc
  exact ⟨hdisc, by decide, t, ht, hsettled.hasEntry_iff.mpr
    (.inr ⟨fiveAndBack.take 5, List.take_prefix .., by decide⟩)⟩

end Call

end Apple.Objc.Weak
