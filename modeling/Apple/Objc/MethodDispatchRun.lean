import Apple.Lib.Run
import Apple.Objc.MethodDispatch

/-!
# Method caches are transparent

Every entry of every cache is what the uncached walk gives for its class and selector.
Lookups keep this because what they cache comes from a sound cache or from a method list
on the way up; changes keep it because the walks of classes outside the subtree of the
change do not pass through it, and the caches inside are erased.

Result: `dispatch_run`. In every run of lookups and changes, an implementation that
`lookUpImpOrForward` returns is the one of the uncached walk at that moment.
-/

namespace Apple.Objc.Messaging

open Apple.Lib Relation Function

variable {C : Type} {arch : CacheArch} {kids : Option C → List C}
  {rt rt' : Runtime C} {cls : C} {sel : Sel} {imp : Imp}

/-! ## Invariant -/

/-- The same classes with other caches. -/
def Recached (rt rt' : Runtime C) : Prop := ∃ cache, rt' = { rt with cache := cache }

theorem Recached.refl (rt : Runtime C) : Recached rt rt := ⟨rt.cache, rfl⟩

/-- What `getMethodNoSuper_nolock` finds in a class is its first method. -/
theorem getMethodNoSuper_methodAt (rt : Runtime C) (cls : C) (sel : Sel) :
    ((getMethodNoSuper sel (rt.lists cls)).bind fun p => rt.methodAt ⟨cls, p.1, p.2⟩) =
      firstMethod (rt.lists cls) sel := by
  rcases hfound : getMethodNoSuper sel (rt.lists cls) with _ | ⟨i, j⟩
  · rw [getMethodNoSuper_none hfound]
    rfl
  · obtain ⟨l, m, hl, hm, hfirst⟩ := getMethodNoSuper_some hfound
    rw [hfirst]
    simp [Runtime.methodAt, hl, hm]

variable [Fintype C]

/-- The realized classes: a forest of classes and metaclasses side by side, with a metaclass
for each class. The tables of class names have the classes. -/
structure Hierarchy (kids : Option C → List C) (rt : Runtime C) : Prop where
  forest : Forest rt.tree kids
  isa_meta : ∀ c, rt.isMetaClass c = false → rt.isMetaClass (rt.isa c) = true
  isa_inj : ∀ c d, rt.isMetaClass c = false → rt.isMetaClass d = false → rt.isa c = rt.isa d →
    c = d
  parallel : ∀ c p, rt.isMetaClass c = false → rt.tree.parent c = some p →
    rt.tree.parent (rt.isa c) = some (rt.isa p)
  counted : Fintype.card C ≤ 2 * rt.namedClasses

/-- A hierarchy whose caches are in order. -/
structure WellFormed (arch : CacheArch) (kids : Option C → List C) (rt : Runtime C) : Prop
    extends Hierarchy kids rt where
  caches : ∀ c, (rt.cache c).Ok arch

/-- The cache entries of the classes in `S` are what the uncached walk gives. -/
def SoundOn (S : C → Prop) (rt : Runtime C) : Prop :=
  ∀ c, S c → ∀ sel imp, (rt.cache c).Holds sel imp → imp = uncachedImp rt c sel

/-- Every cache entry is what the uncached walk gives. -/
def Sound (rt : Runtime C) : Prop := SoundOn (fun _ => True) rt

/-- A lookup leaves the classes as they are and the caches sound. -/
structure Keeps (arch : CacheArch) (kids : Option C → List C) (rt rt' : Runtime C) : Prop where
  wellFormed : WellFormed arch kids rt'
  sound : Sound rt'
  recached : Recached rt rt'

theorem Hierarchy.recached (h : Hierarchy kids rt) (h' : Recached rt rt') : Hierarchy kids rt' := by
  obtain ⟨cache, rfl⟩ := h'
  exact ⟨h.forest, h.isa_meta, h.isa_inj, h.parallel, h.counted⟩

theorem Hierarchy.isa_ne (h : Hierarchy kids rt) {c d : C} (hc : rt.isMetaClass c = false)
    (hd : rt.isMetaClass d = false) : rt.isa c ≠ d := by
  intro heq
  have := h.isa_meta c hc
  rw [heq, hd] at this
  cases this

variable (h : WellFormed arch kids rt)

include h in
theorem Keeps.refl (hs : Sound rt) : Keeps arch kids rt rt :=
  ⟨h, hs, Recached.refl rt⟩

/-! ## The uncached walk -/

/-- The walk from a class: its own method, or the walk from its superclass. -/
theorem uncachedImp_eq (h : Forest rt.tree kids) (cls : C) (sel : Sel) :
    uncachedImp rt cls sel =
      match firstMethod (rt.lists cls) sel with
      | some m => m.imp
      | none =>
        match rt.tree.parent cls with
        | none => .forward
        | some p => uncachedImp rt p sel := by
  rw [uncachedImp, h.searchUp_eq]
  rcases firstMethod (rt.lists cls) sel with _ | m
  · rcases rt.tree.parent cls with _ | p <;> rfl
  · rfl

/-- The walk depends only on the classes on the way up. -/
theorem uncachedImp_congr (h : ∀ d, rt'.tree.Within cls d → rt'.lists d = rt.lists d ∧
      rt'.tree.parent d = rt.tree.parent d) : uncachedImp rt' cls sel = uncachedImp rt cls sel := by
  rw [uncachedImp, uncachedImp, eq_comm]
  congr 1
  apply searchUp_congr
  intro d hd
  obtain ⟨hlists, hparent⟩ := h d hd
  exact ⟨by rw [hlists], hparent.symm⟩

/-! ## Lookups -/

/-- The call succeeds with `P`, or fails in a state without `g`. -/
def Returns {α : Type} (g : Prop) (r : Except Fault α) (P : α → Prop) : Prop :=
  match r with
  | .ok a => P a
  | .error _ => ¬ g

variable {g : Prop} {S : C → Prop} {α : Type} {r : Except Fault α} {P : α → Prop} {newSuper : C}

theorem Returns.bind {β : Type} {f : α → Except Fault β}
    {Q : β → Prop} (h : Returns g r P) (hf : ∀ a, P a → Returns g (f a) Q) :
    Returns g (r >>= f) Q := by
  cases r with
  | ok a => exact hf a h
  | error e => exact h

include h in
/-- **The loop over the superclasses** finds what the uncached walk from `curClass` gives. -/
theorem searchSuperclasses_spec (hs : Sound rt) (sel : Sel)
    (attempts : ℕ) :
    ∀ cur, rt.tree.depth cur + 1 < attempts →
      ∃ r, rt.searchSuperclasses arch sel attempts (some cur) = .ok r ∧
        match r with
        | some imp => imp = uncachedImp rt cur sel
        | none => uncachedImp rt cur sel = .forward := by
  induction attempts with
  | zero =>
    omega
  | succ attempts ih =>
    intro cur hlt
    rw [Runtime.searchSuperclasses, if_neg (by omega)]
    have hhit : (rt.cache cur).getImp arch sel ≠ .null →
        (rt.cache cur).getImp arch sel = uncachedImp rt cur sel := fun hne =>
      hs cur trivial sel _ (Cache.holds_of_getImp (h.caches cur) hne)
    by_cases hnull : (rt.cache cur).getImp arch sel = .null
    · rw [if_neg (not_not.mpr hnull), getMethodNoSuper_methodAt]
      have heq := uncachedImp_eq h.forest cur sel
      rcases hfirst : firstMethod (rt.lists cur) sel with _ | m
      · rw [hfirst] at heq
        rcases hp : rt.tree.parent cur with _ | p
        · rw [hp] at heq
          exact ⟨none, by cases attempts <;> rfl, heq⟩
        · rw [hp] at heq
          have := h.forest.depth_parent_lt hp
          obtain ⟨r, hr, hspec⟩ := ih p (by omega)
          refine ⟨r, hr, ?_⟩
          rw [heq]
          exact hspec
      · rw [hfirst] at heq
        exact ⟨some m.imp, rfl, heq.symm⟩
    · rw [if_pos hnull]
      by_cases hforward : (rt.cache cur).getImp arch sel = .forward
      · rw [if_neg (not_not.mpr hforward)]
        exact ⟨none, rfl, (hhit hnull).symm.trans hforward⟩
      · rw [if_pos hforward]
        exact ⟨_, rfl, hhit hnull⟩

theorem Returns.weaken {g' : Prop} (h : Returns g r P) (hg : g' → g) : Returns g' r P := by
  cases r with
  | ok a => exact h
  | error e => exact fun hg' => h (hg hg')

variable [DecidableEq C]

section

include h

/-- `cache_fill` with what the uncached walk gives. -/
theorem cacheFill_spec (hs : Sound rt) (himp : imp = uncachedImp rt cls sel) :
    Returns (rt.cache cls).Growable (rt.cacheFill arch cls sel imp) (Keeps arch kids rt) := by
  rcases (rt.cache cls).fill_spec (h.caches cls) sel imp with
    ⟨c, hfill, hok, hentries⟩ | ⟨hg, hfill⟩
  · simp only [Runtime.cacheFill, hfill]
    refine ⟨⟨h.toHierarchy.recached ⟨_, rfl⟩, ?_⟩, ?_, _, rfl⟩
    · intro d
      by_cases hd : d = cls
      · subst hd
        simpa using hok
      · simpa [update_of_ne hd] using h.caches d
    · intro d _ sel' imp' hh
      by_cases hd : d = cls
      · subst hd
        simp only [update_self] at hh
        rcases hentries sel' imp' hh with ⟨rfl, rfl⟩ | hold
        · exact himp
        · exact hs d trivial sel' imp' hold
      · simp only [update_of_ne hd] at hh
        exact hs d trivial sel' imp' hh
  · simp only [Runtime.cacheFill, hfill]
    exact hg

/-- **A search** finds what the uncached walk gives; it finds nothing only if that is the
forwarding implementation. -/
theorem search_spec (hs : Sound rt) (cls : C) (sel : Sel) :
    Returns (rt.cache cls).Growable (rt.search arch cls sel) fun r =>
      Keeps arch kids rt r.2 ∧
        match r.1 with
        | some imp => imp = uncachedImp rt cls sel
        | none => uncachedImp rt cls sel = .forward ∧ r.2 = rt := by
  have hfill : ∀ imp, imp = uncachedImp rt cls sel →
      Returns (rt.cache cls).Growable
        (rt.cacheFill arch cls sel imp >>= fun rt' => .ok (some imp, rt')) fun r =>
        Keeps arch kids rt r.2 ∧
          match r.1 with
          | some imp => imp = uncachedImp rt cls sel
          | none => uncachedImp rt cls sel = .forward ∧ r.2 = rt := by
    intro imp himp
    apply (cacheFill_spec h hs himp).bind
    intro rt' hrt'
    exact ⟨hrt', himp⟩
  rw [Runtime.search]
  by_cases hnull : (rt.cache cls).getImp arch sel = .null
  · rw [if_neg (not_not.mpr hnull), getMethodNoSuper_methodAt]
    have heq := uncachedImp_eq h.forest cls sel
    rcases hfirst : firstMethod (rt.lists cls) sel with _ | m
    · rw [hfirst] at heq
      rcases hp : rt.tree.parent cls with _ | p
      · rw [hp] at heq
        exact ⟨.refl h hs, heq, rfl⟩
      · rw [hp] at heq
        have hdepth : rt.tree.depth p + 1 < rt.unreasonableClassCount := by
          have := h.forest.depth_lt_card p
          have := h.counted
          unfold Runtime.unreasonableClassCount
          omega
        obtain ⟨r, hr, hspec⟩ :=
          searchSuperclasses_spec h hs sel rt.unreasonableClassCount p hdepth
        simp only [hr]
        cases r with
        | none => exact ⟨.refl h hs, heq.trans hspec, rfl⟩
        | some imp => exact hfill imp (hspec.trans heq.symm)
    · rw [hfirst] at heq
      exact hfill m.imp heq.symm
  · rw [if_pos hnull]
    exact ⟨.refl h hs,
      hs cls trivial sel _ (Cache.holds_of_getImp (h.caches cls) hnull)⟩

/-- Forwarding, if that is what the uncached walk gives. -/
theorem useForwarding_spec (hs : Sound rt) (hforward : uncachedImp rt cls sel = .forward) :
    Returns (rt.cache cls).Growable (rt.useForwarding arch cls sel) fun r =>
      Keeps arch kids rt r.2 ∧ r.1 = uncachedImp rt cls sel := by
  apply (cacheFill_spec h hs hforward.symm).bind
  intro rt' hrt'
  exact ⟨hrt', hforward.symm⟩

/-- **A lookup** returns what the uncached walk gives, if it does not call the resolver. -/
theorem lookUpImpOrForward_spec (hs : Sound rt) (cls : C) (sel : Sel) (cache resolver : Bool) :
    Returns (rt.cache cls).Growable (rt.lookUpImpOrForward arch cls sel cache resolver) fun r =>
      Keeps arch kids rt r.2 ∧ ∀ imp, r.1 = some imp → imp = uncachedImp rt cls sel := by
  rw [Runtime.lookUpImpOrForward]
  by_cases hhit : cache = true ∧ (rt.cache cls).getImp arch sel ≠ .null
  · rw [if_pos hhit]
    refine ⟨.refl h hs, fun imp himp => ?_⟩
    cases himp
    exact hs cls trivial sel _ (Cache.holds_of_getImp (h.caches cls) hhit.2)
  · rw [if_neg hhit]
    apply (search_spec h hs cls sel).bind
    rintro ⟨found, rt'⟩ ⟨hkeeps, hfound⟩
    cases found with
    | some imp =>
      refine ⟨hkeeps, fun imp' himp' => ?_⟩
      cases himp'
      exact hfound
    | none =>
      obtain ⟨hforward, rfl⟩ := hfound
      by_cases hresolver : resolver = true
      · show Returns _ (if resolver = true then _ else _) _
        rw [if_pos hresolver]
        exact ⟨hkeeps, fun imp himp => by cases himp⟩
      · show Returns _ (if resolver = true then _ else _) _
        rw [if_neg hresolver]
        apply (useForwarding_spec h hs hforward).bind
        rintro ⟨imp, rt''⟩ ⟨hkeeps', himp⟩
        refine ⟨hkeeps', fun imp' himp' => ?_⟩
        cases himp'
        exact himp

/-- **After the resolver** a lookup returns what the uncached walk gives then. -/
theorem lookUpAfterResolver_spec (hs : Sound rt) (cls : C) (sel : Sel) :
    Returns (rt.cache cls).Growable (rt.lookUpAfterResolver arch cls sel) fun r =>
      Keeps arch kids rt r.2 ∧ r.1 = uncachedImp rt cls sel := by
  apply (search_spec h hs cls sel).bind
  rintro ⟨found, rt'⟩ ⟨hkeeps, hfound⟩
  cases found with
  | some imp => exact ⟨hkeeps, hfound⟩
  | none =>
    obtain ⟨hforward, rfl⟩ := hfound
    exact useForwarding_spec h hs hforward

end

/-! ## Changes -/

/-- The classes whose caches `flushCaches` erases. -/
def Flushed (rt : Runtime C) (cls : Option C) (c : C) : Prop :=
  match cls with
  | some top => rt.tree.Within c top
  | none => True

omit [DecidableEq C] in
theorem Hierarchy.card_lt (h : Hierarchy kids rt) :
    2 * Fintype.card C < rt.unreasonableClassCount := by
  have := h.counted
  unfold Runtime.unreasonableClassCount
  omega

/-- The runtime with the caches of some classes erased. -/
def Runtime.erased (rt : Runtime C) (classes : List C) : Runtime C :=
  { rt with cache := fun c => if c ∈ classes then (rt.cache c).erase else rt.cache c }

theorem flushCaches_eq (h : Hierarchy kids rt) (cls : Option C) :
    ∃ xs, rt.flushCaches cls = .ok (rt.erased xs) ∧ ∀ c, Flushed rt cls c → c ∈ xs := by
  have hcard := h.card_lt
  cases cls with
  | some top =>
    obtain ⟨xs, k, hvisit, -, hmem, -⟩ := h.forest.visit_eq hcard
    refine ⟨xs, ?_, fun c => (hmem c).mpr⟩
    simp only [Runtime.flushCaches, hvisit, Runtime.erased]
  | none =>
    have hfuel : Fintype.card C ≤ rt.unreasonableClassCount := by omega
    obtain ⟨xs, k, hvisit, hmem⟩ := h.forest.visitAll_eq hfuel hcard
    refine ⟨xs, ?_, fun c _ => hmem c⟩
    simp only [Runtime.flushCaches, hvisit, Runtime.erased]

include h in
/-- **`flushCaches`** visits every class below the change. Caches that were sound elsewhere are
sound everywhere after it. -/
theorem flushCaches_spec (cls : Option C) (hs : SoundOn S rt) :
    ∃ rt', rt.flushCaches cls = .ok rt' ∧ WellFormed arch kids rt' ∧ Recached rt rt' ∧
      SoundOn (fun c => S c ∨ Flushed rt cls c) rt' := by
  obtain ⟨xs, hflush, hmem⟩ := flushCaches_eq h.toHierarchy cls
  refine ⟨_, hflush, ⟨h.toHierarchy.recached ⟨_, rfl⟩, fun c => ?_⟩, ⟨_, rfl⟩, ?_⟩
  · unfold Runtime.erased
    dsimp only
    split_ifs
    · exact Cache.erase_ok (h.caches c)
    · exact h.caches c
  · intro c hc sel imp hholds
    unfold Runtime.erased at hholds
    by_cases hin : c ∈ xs
    · simp only [if_pos hin] at hholds
      exact absurd hholds (Cache.not_holds_erase (h.caches c))
    · simp only [if_neg hin] at hholds
      exact hs c (hc.resolve_right fun hflushed => hin (hmem c hflushed)) sel imp hholds

omit [DecidableEq C] in
theorem SoundOn.mono {T : C → Prop} (h : SoundOn S rt) (hST : ∀ c, T c → S c) : SoundOn T rt :=
  fun c hc => h c (hST c hc)

/-- Other method lists in the same classes. -/
structure Relisted (rt rt' : Runtime C) (changed : C → Prop) : Prop where
  eq : ∃ methods, rt' = { rt with methods := methods }
  lists : ∀ c, ¬ changed c → rt'.lists c = rt.lists c

omit [Fintype C] [DecidableEq C] in
theorem Relisted.trans {rt'' : Runtime C} (h : Relisted rt rt' S)
    (h' : Relisted rt' rt'' S) : Relisted rt rt'' S := by
  obtain ⟨⟨m, rfl⟩, hlists⟩ := h
  obtain ⟨⟨m', rfl⟩, hlists'⟩ := h'
  exact ⟨⟨m', rfl⟩, fun c hc => (hlists' c hc).trans (hlists c hc)⟩

include h in
omit [DecidableEq C] in
theorem Relisted.wellFormed (h' : Relisted rt rt' S) : WellFormed arch kids rt' := by
  obtain ⟨⟨m, rfl⟩, -⟩ := h'
  exact ⟨⟨h.forest, h.isa_meta, h.isa_inj, h.parallel, h.counted⟩, h.caches⟩

omit [DecidableEq C] in
/-- Caches of classes that are not below a change stay sound. -/
theorem Relisted.soundOn (hs : Sound rt) (h : Relisted rt rt' S) :
    SoundOn (fun c => ∀ d, S d → ¬ rt.tree.Within c d) rt' := by
  obtain ⟨⟨m, rfl⟩, hlists⟩ := h
  intro c hc sel imp hholds
  rw [hs c trivial sel imp hholds]
  symm
  apply uncachedImp_congr
  intro d hd
  exact ⟨hlists d fun hSd => hc d hSd hd, rfl⟩

include h in
/-- **A change of methods** with the flush of the classes below. -/
theorem Relisted.flush (hs : Sound rt) (hlisted : Relisted rt rt' S) (cls : Option C)
    (hbelow : ∀ c d, S d → rt.tree.Within c d → Flushed rt cls c) :
    ∃ rt'', rt'.flushCaches cls = .ok rt'' ∧ WellFormed arch kids rt'' ∧ Sound rt'' := by
  obtain ⟨rt'', hflush, hwf, -, hsound⟩ :=
    flushCaches_spec (hlisted.wellFormed h) cls (hlisted.soundOn hs)
  refine ⟨rt'', hflush, hwf, hsound.mono fun c _ => ?_⟩
  by_cases hc : ∀ d, S d → ¬ rt.tree.Within c d
  · exact .inl hc
  · push Not at hc
    obtain ⟨d, hd, hwithin⟩ := hc
    obtain ⟨⟨m, rfl⟩, -⟩ := hlisted
    exact .inr (hbelow c d hd hwithin)

omit [Fintype C] in
theorem setImp_relisted (rt : Runtime C) (m : MethodRef C) (imp : Imp) :
    Relisted rt (rt.setImp m imp) (· = m.cls) := by
  refine ⟨⟨_, rfl⟩, fun c hc => ?_⟩
  simp only [Runtime.lists, Runtime.setImp, update_of_ne hc]

omit [Fintype C] in
theorem attach_relisted (rt : Runtime C) (cls : C) (added : List MethodList) :
    Relisted rt (rt.attach cls added) (· = cls) := by
  refine ⟨⟨_, rfl⟩, fun c hc => ?_⟩
  simp only [Runtime.lists, Runtime.attach, update_of_ne hc]

section

include h

theorem Relisted.flush_at (hs : Sound rt) (hlisted : Relisted rt rt' (· = cls)) :
    ∃ rt'', rt'.flushCaches (some cls) = .ok rt'' ∧ WellFormed arch kids rt'' ∧ Sound rt'' := by
  apply hlisted.flush h hs
  rintro c _ rfl hwithin
  exact hwithin

theorem setImplementation_spec (hs : Sound rt) (cls : Option C)
    (m : MethodRef C) (imp : Imp) (hcls : ∀ c, cls = some c → m.cls = c) :
    ∃ rt', rt.setImplementation cls m imp = .ok rt' ∧ WellFormed arch kids rt' ∧ Sound rt' := by
  unfold Runtime.setImplementation
  split_ifs
  · exact ⟨rt, rfl, h, hs⟩
  · exact ⟨rt, rfl, h, hs⟩
  · apply (setImp_relisted rt m imp).flush h hs
    rintro c _ rfl hwithin
    cases cls with
    | none => trivial
    | some top =>
      rw [hcls top rfl] at hwithin
      exact hwithin

theorem methodExchangeImplementations_spec (hs : Sound rt) (m₁ m₂ : MethodRef C) :
    ∃ rt', rt.methodExchangeImplementations m₁ m₂ = .ok rt' ∧ WellFormed arch kids rt' ∧
      Sound rt' := by
  unfold Runtime.methodExchangeImplementations
  split
  · have hweak : ∀ (rt : Runtime C) m imp, Relisted rt (rt.setImp m imp) fun _ => True :=
      fun rt m imp => ⟨(setImp_relisted rt m imp).eq, fun c hc => absurd trivial hc⟩
    exact ((hweak _ _ _).trans (hweak _ _ _)).flush h hs none fun _ _ _ _ => trivial
  · exact ⟨rt, rfl, h, hs⟩

theorem addMethod_spec (hs : Sound rt) (cls : C) (name : Sel) (imp : Imp) (replace : Bool) :
    ∃ rt', rt.addMethod cls name imp replace = .ok rt' ∧ WellFormed arch kids rt' ∧ Sound rt' := by
  unfold Runtime.addMethod
  split
  · split_ifs
    · exact setImplementation_spec h hs (some cls) _ imp fun c hc => Option.some.inj hc
    · exact ⟨rt, rfl, h, hs⟩
  · exact (attach_relisted rt cls _).flush_at h hs

end

omit [Fintype C] in
theorem attach_nil (rt : Runtime C) (cls : C) : (rt.attach cls []).lists = rt.lists := by
  funext c
  by_cases hc : c = cls
  · subst hc
    simp [Runtime.lists, Runtime.attach]
  · exact (attach_relisted rt cls []).lists c hc

include h in
/-- **`attachCategories` with flush**: without methods to attach there is nothing to flush. -/
theorem attachCategories_spec (hs : Sound rt) (cls : C) (cats : List Category) :
    ∃ rt', rt.attachCategories cls cats true = .ok rt' ∧ WellFormed arch kids rt' ∧ Sound rt' := by
  unfold Runtime.attachCategories
  dsimp only
  split_ifs with hflush
  · exact (attach_relisted rt cls _).flush_at h hs
  · have hnil : cats.reverse.filterMap
        (fun cat => cat.methodsForMeta (rt.isMetaClass cls)) = [] := by
      simpa using hflush
    rw [hnil]
    have hlisted : Relisted rt (rt.attach cls []) fun _ => False :=
      ⟨⟨_, rfl⟩, fun c _ => congrFun (attach_nil rt cls) c⟩
    refine ⟨_, rfl, hlisted.wellFormed h, (hlisted.soundOn hs).mono fun c _ => ?_⟩
    rintro d ⟨⟩

/-! ## Changes of the superclass -/

/-- The superclasses after `setSuperclass`. -/
def Runtime.reparented (rt : Runtime C) (cls newSuper : C) : C → Option C :=
  update (update rt.tree.parent cls (some newSuper)) (rt.isa cls)
    (some (rt.isa newSuper))

/-- The class and its metaclass leave the lists of their superclasses. -/
theorem removeSubclass_twice (h : Hierarchy kids rt) {old : C}
    (hmeta : rt.isMetaClass cls = false) (hold : rt.tree.parent cls = some old) :
    ∃ P₁ P₂ kids', rt.removeSubclass old cls = .ok { rt with tree := P₁ } ∧
      Runtime.removeSubclass (rt.isa old) (rt.isa cls) { rt with tree := P₁ } =
        .ok { rt with tree := P₂ } ∧ P₂.parent = rt.tree.parent ∧ Siblings P₂ kids' ∧
      ∀ q x, x ∈ kids' q ↔ x ∈ kids q ∧ x ≠ cls ∧ x ≠ rt.isa cls := by
  have hlen : ∀ {P : Pointers C} {kids : Option C → List C} (p : Option C), Siblings P kids →
      (kids p).length ≤ Fintype.card C :=
    fun p hs => (hs.linked p).nodup.length_le_card
  have hne := h.isa_ne hmeta hmeta
  have hmem : cls ∈ kids (some old) := (h.forest.mem cls _).mpr hold
  obtain ⟨P₁, hP₁, hparent₁, hs₁⟩ := h.forest.siblings.unlink hmem (hlen _ h.forest.siblings)
  have hold' := h.parallel cls old hmeta hold
  have hmem' := (h.forest.siblings.mem_unlink hmem (some (rt.isa old)) (rt.isa cls)).mpr
    ⟨(h.forest.mem _ _).mpr hold', hne⟩
  obtain ⟨P₂, hP₂, hparent₂, hs₂⟩ := hs₁.unlink hmem' (hlen _ hs₁)
  refine ⟨P₁, P₂, _, ?_, ?_, hparent₂.trans hparent₁, hs₂, fun q x => ?_⟩
  · simp only [Runtime.removeSubclass, if_pos hold, hP₁]
  · simp only [Runtime.removeSubclass, hparent₁, if_pos hold', hP₂]
  · rw [hs₁.mem_unlink hmem', h.forest.siblings.mem_unlink hmem, and_assoc]

/-- **The lists of subclasses** after `setSuperclass` are those of the new superclasses. -/
theorem setSuperclass_tree (h : Hierarchy kids rt)
    (hmeta : rt.isMetaClass cls = false) (hsuper : rt.tree.parent cls ≠ none)
    (hacyclic : ∀ c, ¬ TransGen (fun x y => rt.reparented cls newSuper x = some y) c c) :
    ∃ P kids', P.parent = rt.reparented cls newSuper ∧ Hierarchy kids' { rt with tree := P } ∧
      rt.setSuperclass cls newSuper =
        (Runtime.flushCaches (some cls) { rt with tree := P } >>= fun rt' =>
          rt'.flushCaches (some (rt'.isa cls))) := by
  obtain ⟨old, hold⟩ := Option.ne_none_iff_exists'.mp hsuper
  obtain ⟨P₁, P₂, kids₂, hremove, hremove', hparent, hsib, hmem⟩ :=
    removeSubclass_twice h hmeta hold
  have hne := h.isa_ne hmeta hmeta
  have hsib' : Siblings { P₂ with parent := rt.reparented cls newSuper } kids₂ :=
    ⟨hsib.linked, hsib.disjoint⟩
  have hpush := hsib'.push (some newSuper) fun q hq => ((hmem q cls).mp hq).2.1 rfl
  have hpush' := hpush.push (some (rt.isa newSuper)) <| by
    intro q hq
    rcases (Siblings.mem_push kids₂ _ q cls _).mp hq with hq | ⟨heq, -⟩
    · exact ((hmem q _).mp hq).2.2 rfl
    · exact hne heq
  refine ⟨_, _, rfl, ⟨⟨hpush', fun x q => ?_, hacyclic⟩, h.isa_meta, h.isa_inj, ?_, h.counted⟩, ?_⟩
  · rw [Siblings.mem_push, Siblings.mem_push, hmem, h.forest.mem]
    show _ ↔ rt.reparented cls newSuper x = q
    unfold Runtime.reparented
    by_cases hx : x = rt.isa cls
    · subst hx
      simp [hne, eq_comm]
    · by_cases hx' : x = cls
      · subst hx'
        simp [hx, eq_comm]
      · simp [hx, hx']
  · intro c p hc hp
    show rt.reparented cls newSuper (rt.isa c) = some (rt.isa p)
    replace hp : rt.reparented cls newSuper c = some p := hp
    have hc' := h.isa_ne hc hmeta
    have hcne := (h.isa_ne hmeta hc).symm
    unfold Runtime.reparented at hp ⊢
    rw [update_of_ne hcne] at hp
    by_cases heq : c = cls
    · subst heq
      rw [update_self] at hp ⊢
      cases hp
      rfl
    · rw [update_of_ne heq] at hp
      rw [update_of_ne fun hisa => heq (h.isa_inj c cls hc hmeta hisa),
        update_of_ne hc']
      exact h.parallel c p hc hp
  · simp only [Runtime.setSuperclass, hold, hremove, hremove', bind, Except.bind,
      Runtime.writeSuperclass, hparent]
    rfl

include h in
/-- **`setSuperclass`**: the walks of classes outside the two moved subtrees stay. -/
theorem setSuperclass_spec (hs : Sound rt)
    (hmeta : rt.isMetaClass cls = false) (hsuper : rt.tree.parent cls ≠ none)
    (hacyclic : ∀ c, ¬ TransGen (fun x y => rt.reparented cls newSuper x = some y) c c) :
    ∃ rt' kids', rt.setSuperclass cls newSuper = .ok rt' ∧ WellFormed arch kids' rt' ∧
      Sound rt' := by
  obtain ⟨P, kids', hparent, hhier, heq⟩ :=
    setSuperclass_tree h.toHierarchy hmeta hsuper hacyclic
  have hs' : SoundOn (fun c => ¬ P.Within c cls ∧ ¬ P.Within c (rt.isa cls))
      { rt with tree := P } := by
    rintro c ⟨hcls, hisa⟩ sel imp hholds
    rw [hs c trivial sel imp hholds]
    symm
    apply uncachedImp_congr
    intro d hd
    refine ⟨rfl, ?_⟩
    have hdcls : d ≠ cls := fun hd' => hcls (hd' ▸ hd)
    have hdisa : d ≠ rt.isa cls := fun hd' => hisa (hd' ▸ hd)
    rw [hparent, Runtime.reparented, update_of_ne hdisa, update_of_ne hdcls]
  obtain ⟨rt₁, hflush₁, hwf₁, hre₁, hs₁⟩ := flushCaches_spec ⟨hhier, h.caches⟩ (some cls) hs'
  obtain ⟨rt₂, hflush₂, hwf₂, hre₂, hs₂⟩ := flushCaches_spec hwf₁ (some (rt₁.isa cls)) hs₁
  refine ⟨rt₂, kids', ?_, hwf₂, hs₂.mono fun c _ => ?_⟩
  · rw [heq, hflush₁]
    exact hflush₂
  · by_cases hcls : P.Within c cls
    · exact .inl (.inr hcls)
    · by_cases hisa : P.Within c (rt.isa cls)
      · right
        obtain ⟨cache, rfl⟩ := hre₁
        exact hisa
      · exact .inl (.inl ⟨hcls, hisa⟩)

/-! ## Runs -/

/-- The runtime between calls. `waiting` has the lookups whose method resolver is running, which
is the time when other calls can come in the middle of a lookup. -/
structure State (C : Type) where
  runtime : Runtime C
  waiting : List (C × Sel)

/-- A call, made atomic by `runtimeLock`; `resume` is the rest of a lookup after its resolver. -/
inductive Op (C : Type)
  | lookUp (cls : C) (sel : Sel) (cache resolver : Bool)
  | resume (i : ℕ)
  | addMethod (cls : C) (name : Sel) (imp : Imp) (replace : Bool)
  | setImplementation (m : MethodRef C) (imp : Imp)
  | exchangeImplementations (m₁ m₂ : MethodRef C)
  | attachCategories (cls : C) (cats : List Category)
  | setSuperclass (cls newSuper : C)

/-- What a call does: a lookup returns or calls the resolver, the others change the classes. -/
inductive Event (C : Type)
  | returned (cls : C) (sel : Sel) (imp : Imp)
  | resolving (cls : C) (sel : Sel)
  | changed

/-- A call that changes the classes. -/
def State.change (s : State C) (r : Except Fault (Runtime C)) :
    Except Fault (Event C × State C) := do
  let rt ← r
  .ok (.changed, { s with runtime := rt })

/-- Perform a call. -/
def perform (arch : CacheArch) (s : State C) : Op C → Except Fault (Event C × State C)
  | .lookUp cls sel cache resolver => do
    let (found, rt) ← s.runtime.lookUpImpOrForward arch cls sel cache resolver
    match found with
    | some imp => .ok (.returned cls sel imp, { s with runtime := rt })
    | none => .ok (.resolving cls sel, ⟨rt, s.waiting ++ [(cls, sel)]⟩)
  | .resume i =>
    match s.waiting[i]? with
    | none => .error .assertion
    | some (cls, sel) => do
      let (imp, rt) ← s.runtime.lookUpAfterResolver arch cls sel
      .ok (.returned cls sel imp, ⟨rt, s.waiting.eraseIdx i⟩)
  | .addMethod cls name imp replace => s.change (s.runtime.addMethod cls name imp replace)
  | .setImplementation m imp => s.change (s.runtime.methodSetImplementation m imp)
  | .exchangeImplementations m₁ m₂ => s.change (s.runtime.methodExchangeImplementations m₁ m₂)
  | .attachCategories cls cats => s.change (s.runtime.attachCategories cls cats true)
  | .setSuperclass cls newSuper => s.change (s.runtime.setSuperclass cls newSuper)

/-- When a call may be made: a lookup is resumed that waits, and the superclass of a class that
has one is changed such that the hierarchy stays acyclic. -/
def Allowed (s : State C) : Op C → Prop
  | .resume i => i < s.waiting.length
  | .setSuperclass cls newSuper => s.runtime.isMetaClass cls = false ∧
      s.runtime.tree.parent cls ≠ none ∧
      ∀ c, ¬ TransGen (fun x y => s.runtime.reparented cls newSuper x = some y) c c
  | _ => True

/-- One call. -/
def Step (arch : CacheArch) (s : State C) (e : Op C × Event C) (s' : State C) : Prop :=
  Allowed s e.1 ∧ perform arch s e.1 = .ok (e.2, s')

/-- Any hierarchy, with empty caches. -/
structure Initial (s : State C) : Prop where
  hierarchy : ∃ kids, Hierarchy kids s.runtime
  caches : ∀ c, s.runtime.cache c = {}
  waiting : s.waiting = []

/-- **Invariant** of the calls. -/
def Inv (arch : CacheArch) (s : State C) : Prop :=
  ∃ kids, WellFormed arch kids s.runtime ∧ Sound s.runtime

/-- What a call returns and leaves behind. -/
def Performed (arch : CacheArch) (s : State C) (r : Event C × State C) : Prop :=
  Inv arch r.2 ∧
    ∀ cls sel imp, r.1 = .returned cls sel imp → imp = uncachedImp s.runtime cls sel

variable {s : State C}

omit [DecidableEq C] in
theorem Initial.inv (h : Initial s) : Inv arch s := by
  obtain ⟨kids, hkids⟩ := h.hierarchy
  refine ⟨kids, ⟨hkids, fun c => ?_⟩, fun c _ sel imp hholds => ?_⟩
  · rw [h.caches c]
    exact Cache.ok_empty
  · rw [h.caches c] at hholds
    exact absurd hholds (Cache.not_holds_of_empty rfl)

omit [DecidableEq C] in
theorem change_performed {r : Except Fault (Runtime C)}
    (h : ∃ rt kids, r = .ok rt ∧ WellFormed arch kids rt ∧ Sound rt) :
    Returns g (s.change r) (Performed arch s) := by
  obtain ⟨rt, kids, rfl, hwf, hs⟩ := h
  refine ⟨⟨kids, hwf, hs⟩, fun cls sel imp heq => ?_⟩
  cases heq

/-- **One call.** It keeps the invariant, a lookup that returns gives what the uncached walk
gives, and it fails only if a cache cannot grow any more. -/
theorem perform_spec (h : Inv arch s) {op : Op C} (hop : Allowed s op) :
    Returns (∀ c, (s.runtime.cache c).Growable) (perform arch s op) (Performed arch s) := by
  obtain ⟨kids, hwf, hs⟩ := h
  cases op with
  | lookUp cls sel cache resolver =>
    apply Returns.bind ((lookUpImpOrForward_spec hwf hs cls sel cache resolver).weaken (· cls))
    rintro ⟨found, rt⟩ ⟨hkeeps, himp⟩
    cases found with
    | some imp =>
      refine ⟨⟨kids, hkeeps.wellFormed, hkeeps.sound⟩, fun cls' sel' imp' heq => ?_⟩
      cases heq
      exact himp imp rfl
    | none =>
      refine ⟨⟨kids, hkeeps.wellFormed, hkeeps.sound⟩, fun cls' sel' imp' heq => ?_⟩
      cases heq
  | resume i =>
    have hget : s.waiting[i]? = some s.waiting[i] := List.getElem?_eq_getElem hop
    simp only [perform, hget]
    apply Returns.bind ((lookUpAfterResolver_spec hwf hs _ _).weaken (· _))
    rintro ⟨imp, rt⟩ ⟨hkeeps, himp⟩
    refine ⟨⟨kids, hkeeps.wellFormed, hkeeps.sound⟩, fun cls' sel' imp' heq => ?_⟩
    cases heq
    exact himp
  | addMethod cls name imp replace =>
    obtain ⟨rt, hrt⟩ := addMethod_spec hwf hs cls name imp replace
    exact change_performed ⟨rt, kids, hrt⟩
  | setImplementation m imp =>
    obtain ⟨rt, hrt⟩ := setImplementation_spec hwf hs none m imp fun c hc => by cases hc
    exact change_performed ⟨rt, kids, hrt⟩
  | exchangeImplementations m₁ m₂ =>
    obtain ⟨rt, hrt⟩ := methodExchangeImplementations_spec hwf hs m₁ m₂
    exact change_performed ⟨rt, kids, hrt⟩
  | attachCategories cls cats =>
    obtain ⟨rt, hrt⟩ := attachCategories_spec hwf hs cls cats
    exact change_performed ⟨rt, kids, hrt⟩
  | setSuperclass cls newSuper =>
    obtain ⟨rt, kids', hrt⟩ := setSuperclass_spec hwf hs hop.1 hop.2.1 hop.2.2
    exact change_performed ⟨rt, kids', hrt⟩

theorem step_inv (s : State C) (e : Op C × Event C) (s' : State C) (h : Inv arch s)
    (hstep : Step arch s e s') : Inv arch s' := by
  have hspec := perform_spec h hstep.1
  rw [hstep.2] at hspec
  exact hspec.1

/-- **Dispatch is cache-transparent.** In every run of lookups and changes of methods and
superclasses from a hierarchy with empty caches: a lookup that returns gives the
implementation that the uncached walk gives at that moment, whatever the other calls did
before it and while its resolver ran; and a call fails only if the cache of some class
has reached `2 ^ 31` buckets. -/
theorem dispatch_run {s₀ s : State C} {es : List (Op C × Event C)} (h₀ : Initial s₀)
    (hrun : Run (Step arch) s₀ es s) (op : Op C) (hop : Allowed s op) :
    match perform arch s op with
    | .ok (e, _) => ∀ cls sel imp, e = .returned cls sel imp → imp = uncachedImp s.runtime cls sel
    | .error _ => ∃ c, 2 ^ 32 ≤ (s.runtime.cache c).capacity * 2 := by
  have hspec := perform_spec (hrun.invariant step_inv h₀.inv) hop
  rcases hperform : perform arch s op with fault | ⟨e, s'⟩
  · rw [hperform] at hspec
    by_contra hnone
    push Not at hnone
    exact hspec hnone
  · rw [hperform] at hspec
    exact hspec.2

local instance neZero_four : NeZero 4 := ⟨four_ne_zero⟩

/-- A root class 0 and a subclass 2 with their metaclasses 1 and 3. -/
def twoClasses : State (Fin 4) where
  runtime :=
    { tree :=
        { parent := ![none, some 0, some 0, some 1]
          head := fun p => p.elim (some 0) ![some 2, some 3, none, none]
          next := ![none, none, some 1, none] }
      isa := ![1, 1, 3, 1]
      isMetaClass := ![false, true, false, true]
      methods := fun _ => .list none
      cache := fun _ => {}
      namedClasses := 2 }
  waiting := []

theorem twoClasses_initial : Initial twoClasses := by
  refine ⟨⟨fun p => p.elim [0] ![[2, 1], [3], [], []], ⟨⟨⟨?_, ?_⟩, ?_, ?_⟩, ?_, ?_, ?_, ?_⟩⟩, ?_,
    rfl⟩
  · rintro (_ | p)
    · exact ⟨rfl, rfl⟩
    · fin_cases p
      · exact ⟨rfl, rfl, rfl⟩
      · exact ⟨rfl, rfl⟩
      · exact (rfl : (none : Option (Fin 4)) = none)
      · exact (rfl : (none : Option (Fin 4)) = none)
  · decide
  · decide
  · apply acyclic_of_rank ![0, 1, 2, 2]
    decide
  · decide
  · decide
  · decide
  · decide
  · exact fun _ => rfl

/-- `mask_t` and `cache_next` on `x86_64`. -/
def x86Cache : CacheArch := ⟨32, true, by decide, by decide⟩

theorem step_x86Cache {s' : State C} {e : Event C} (op : Op C) (hop : Allowed s op)
    (h : perform x86Cache s op = .ok (e, s')) : Step x86Cache s (op, e) s' := ⟨hop, h⟩

/-- The subclass caches the forwarding implementation, then the root class gets the method. -/
theorem dispatch_run_twoClasses : ∃ s s' : State (Fin 4), Run (Step x86Cache) twoClasses
        [(.lookUp 2 5 true false, .returned 2 5 .forward),
          (.addMethod 0 5 (.code 7) false, .changed)] s ∧
      perform x86Cache s (.lookUp 2 5 true false) = .ok (.returned 2 5 (.code 7), s') ∧
      .code 7 = uncachedImp s.runtime 2 5 := by
  have hrun := Run.snoc
    (Run.single (step_x86Cache (s := twoClasses) (.lookUp 2 5 true false) trivial rfl))
    (step_x86Cache (.addMethod 0 5 (.code 7) false) trivial rfl)
  exact ⟨_, _, hrun, rfl,
    dispatch_run twoClasses_initial hrun (.lookUp 2 5 true false) trivial 2 5 (.code 7) rfl⟩

end Apple.Objc.Messaging
