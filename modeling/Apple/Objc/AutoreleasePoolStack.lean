import Apple.Objc.AutoreleasePool

/-!
# The pages hold a stack

`Pages cfg s chain l` says that the pages of `s` are linked in the order `chain` and that
page `i` holds the `i`-th chunk of the stack `l`, so pages below the end of the stack are
full and pages above it are empty. `Represents` adds that the hot page is the one where
the stack ends. Position `n` of the stack is slot `n % capacity` of page `n / capacity`
(`Located`), whatever the stack holds.

Results, for a thread that represents a stack:

* `autoreleaseFast_spec`: an entry is added on top, the slot of the result is its position;
* `releaseStep_spec`: a pass of the loop of `releaseUntil` takes the top entry, or ends the
  loop when the stack ends at `stop`;
* `popStart_spec`, `popEnd_spec`: the other parts of `pop`;
* `logicalStack_eq`: the stack is the one read off the pages.
-/

namespace Apple.Objc.AutoreleasePool

open Apple.Lib List Option Nat Relation

variable {α : Type} {cfg : Settings} {s : Thread α} {chain : List PageId} {l : List (Entry α)}
  {h k n : ℕ} {p fresh : PageId} {e : Entry α}

theorem Settings.capacity_pos (cfg : Settings) : 0 < cfg.capacity := by
  have := cfg.two_le
  omega

/-! ## Representation -/

/-- Page `i` of `chain` holds the `i`-th chunk of `l`. -/
structure Pages (cfg : Settings) (s : Thread α) (chain : List PageId) (l : List (Entry α)) :
    Prop where
  linked : DLinked Page.parent Page.child s.pages chain
  count : s.count = chain.length
  entries : ∀ i p pg, chain[i]? = some p → s.pages p = some pg →
    pg.entries = chunk cfg.capacity l i

/-- Page `h`, at `p`, is the one where `l` ends. -/
structure EndsAt (cfg : Settings) (chain : List PageId) (l : List (Entry α)) (h : ℕ)
    (p : PageId) : Prop where
  page : chain[h]? = some p
  lower : h * cfg.capacity ≤ l.length
  upper : l.length ≤ (h + 1) * cfg.capacity

/-- What the thread-local value says about the stack. -/
def Hot (cfg : Settings) (tls : Tls) (chain : List PageId) (l : List (Entry α)) : Prop :=
  match tls with
  | .null => chain = [] ∧ l = []
  | .placeholder => chain = [] ∧ l = [.boundary]
  | .page p => ∃ h, EndsAt cfg chain l h p

/-- The thread's pages hold the stack `l`. -/
structure Represents (cfg : Settings) (s : Thread α) (chain : List PageId)
    (l : List (Entry α)) : Prop where
  pages : Pages cfg s chain l
  hot : Hot cfg s.tls chain l

/-- The token is the address of position `n`. -/
def Located (cfg : Settings) (chain : List PageId) (n : ℕ) : Token → Prop
  | .placeholder => n = 0
  | .slot p i => chain[n / cfg.capacity]? = some p ∧ i = n % cfg.capacity

theorem Represents.endsAt (hr : Represents cfg s chain l) (hhot : hotPage s = some p) :
    s.tls = .page p ∧ ∃ h, EndsAt cfg chain l h p := by
  obtain ⟨-, hot⟩ := hr
  unfold hotPage at hhot
  split at hhot
  next q htls =>
    rw [htls, some.inj hhot] at hot
    exact ⟨htls.trans (congrArg _ (some.inj hhot)), hot⟩
  next => cases hhot

variable (hp : Pages cfg s chain l) {i : ℕ} {chain' : List PageId} {tok : Token}

include hp in
theorem Pages.page (hi : chain[i]? = some p) :
    ∃ pg, s.pages p = some pg ∧ s.page p = .ok pg ∧ pg.entries = chunk cfg.capacity l i ∧
      pg.parent = predecessor chain i ∧ pg.child = chain[i + 1]? := by
  obtain ⟨pg, hpg, hparent, hchild⟩ := hp.linked.node i p hi
  exact ⟨pg, hpg, by simp only [Thread.page, hpg], hp.entries i p pg hi hpg, hparent, hchild⟩

theorem Pages.nil : Pages cfg ({} : Thread α) [] l :=
  ⟨DLinked.nil, rfl, by simp⟩

theorem Pages.nil_of (hp : Pages cfg s [] l) (l' : List (Entry α)) : Pages cfg s [] l' :=
  ⟨hp.linked, hp.count, by simp⟩

include hp in
/-- The pages do not depend on the thread-local value. -/
theorem Pages.setHotPage (q : Option PageId) : Pages cfg (setHotPage q s) chain l :=
  ⟨hp.linked, hp.count, hp.entries⟩

theorem check_of {b : Bool} (hb : b = true) : check b = .ok () := by
  rw [check, if_pos hb]

/-! ## Adding entries -/

variable (hh : chain[h]? = some p)

include hp hh in
/-- A page's entries are replaced: chunk `h` changes, the others stay. -/
theorem Pages.setEntries {l' : List (Entry α)} {pg : Page α} (hpg : s.pages p = some pg)
    (hother : ∀ i, i ≠ h → chunk cfg.capacity l' i = chunk cfg.capacity l i) :
    Pages cfg (s.setPage p { pg with entries := chunk cfg.capacity l' h }) chain l' := by
  refine ⟨hp.linked.update hpg rfl rfl, hp.count, ?_⟩
  intro i q qg hi hqg
  by_cases hqp : q = p
  · subst hqp
    have hih : i = h := hp.linked.index_inj hi hh
    rw [Thread.pages_setPage_self] at hqg
    rw [← some.inj hqg, hih]
  · have hih : i ≠ h := by
      intro heq
      rw [heq, hh] at hi
      exact hqp (some.inj hi).symm
    rw [Thread.pages_setPage_of_ne hqp] at hqg
    rw [hother i hih]
    exact hp.entries i q qg hi hqg

include hp hh in
theorem add_spec (hlo : h * cfg.capacity ≤ l.length) (hhi : l.length < (h + 1) * cfg.capacity) :
    ∃ s', add cfg p e s = .ok (.slot p (l.length - h * cfg.capacity), s') ∧
      Pages cfg s' chain (l ++ [e]) ∧ s'.tls = s.tls := by
  obtain ⟨pg, hpg, hpage, hentries, -⟩ := hp.page hh
  have hlen : pg.entries.length = l.length - h * cfg.capacity := by
    rw [hentries, length_chunk]
    rw [succ_mul] at hhi
    omega
  have hroom : pg.full cfg = false := by
    rw [Page.full, beq_eq_false_iff_ne]
    rw [succ_mul] at hhi
    omega
  have hsnoc : pg.entries ++ [e] = chunk cfg.capacity (l ++ [e]) h := by
    rw [chunk_snoc hlo hhi, if_pos rfl, hentries]
  refine ⟨s.setPage p { pg with entries := pg.entries ++ [e] }, ?_, ?_, rfl⟩
  · rw [add, hpage]
    simp [hroom, check_of, hlen]
  · rw [hsnoc]
    apply hp.setEntries hh hpg
    intro i hi
    rw [chunk_snoc hlo hhi, if_neg hi]

theorem newPage_first (fresh : PageId) (hp : Pages cfg s [] l) :
    ∃ s', newPage fresh none s = .ok s' ∧ Pages cfg s' [fresh] ([] : List (Entry α)) := by
  refine ⟨s.alloc fresh { parent := none }, rfl, hp.linked.singleton rfl rfl, ?_, ?_⟩
  · rw [Thread.alloc, hp.count]
    rfl
  · intro i q qg hi hqg
    rcases i with _ | i
    · obtain rfl : fresh = q := by simpa using hi
      rw [Thread.pages_alloc_self] at hqg
      rw [← some.inj hqg, chunk_nil]
    · simp at hi

theorem newPage_last (hp : Pages cfg s (chain ++ [p]) l) (hfresh : s.pages fresh = none)
    (hle : l.length ≤ (chain.length + 1) * cfg.capacity) :
    ∃ s', newPage fresh (some p) s = .ok s' ∧ Pages cfg s' (chain ++ [p] ++ [fresh]) l ∧
      s'.tls = s.tls := by
  have hlast : (chain ++ [p])[chain.length]? = some p := by simp
  obtain ⟨pg, hpg, hpage, hentries, -, hchild⟩ := hp.page hlast
  have hnochild : pg.child = none := by
    rw [hchild]
    simp
  refine ⟨(s.setPage p { pg with child := some fresh }).alloc fresh { parent := some p }, ?_,
    ⟨hp.linked.append hfresh hpg rfl rfl rfl rfl, ?_, ?_⟩, rfl⟩
  · rw [newPage]
    simp [hpage, hnochild, check_of]
  · show s.count + 1 = _
    rw [hp.count]
    simp
  · intro i q qg hi hqg
    by_cases hqf : q = fresh
    · subst hqf
      have hi' : i = chain.length + 1 := by
        by_contra hne
        have hlt : i < (chain ++ [p]).length := by
          have := (List.getElem?_eq_some_iff.mp hi).1
          simp only [length_append, length_singleton] at this ⊢
          omega
        rw [getElem?_append_left hlt] at hi
        exact hp.linked.not_mem hfresh (mem_of_getElem? hi)
      rw [Thread.pages_alloc_self] at hqg
      rw [← some.inj hqg, hi', chunk_eq_nil hle]
    · have hi' := lt_length_of_getElem?_snoc hi hqf
      rw [getElem?_append_left hi'] at hi
      rw [Thread.pages_alloc_of_ne hqf] at hqg
      by_cases hqp : q = p
      · subst hqp
        rw [Thread.pages_setPage_self] at hqg
        rw [← some.inj hqg]
        exact hp.entries i q pg hi hpg
      · rw [Thread.pages_setPage_of_ne hqp] at hqg
        exact hp.entries i q qg hi hqg

/-- **Stepping off a full page.** The hot page `h` is full, so the stack goes on in page `h + 1`,
which is the empty child or a new page. -/
theorem nextPage_spec (fuel : ℕ) (hp : Pages cfg s chain l) (hh : chain[h]? = some p)
    (hlen : l.length = (h + 1) * cfg.capacity) (hfresh : s.pages fresh = none) :
    ∃ q s' chain', nextPage cfg fresh (fuel + 1) p s = .ok (q, s') ∧ Pages cfg s' chain' l ∧
      chain <+: chain' ∧ chain'[h + 1]? = some q ∧ s'.tls = s.tls := by
  have hempty : ∀ {s' : Thread α} {chain' q}, Pages cfg s' chain' l → chain'[h + 1]? = some q →
      ∃ qg, s'.page q = .ok qg ∧ qg.full cfg = false := by
    intro s' chain' q hp' hq
    obtain ⟨qg, -, hqpage, hqentries, -⟩ := hp'.page hq
    refine ⟨qg, hqpage, ?_⟩
    rw [Page.full, beq_eq_false_iff_ne, hqentries, chunk_eq_nil hlen.le]
    have := cfg.capacity_pos
    simp only [length_nil]
    omega
  obtain ⟨pg, -, hpage, -, -, hchild⟩ := hp.page hh
  rcases hq : chain[h + 1]? with _ | q
  · have hlast : h + 1 = chain.length := by
      have := List.getElem?_eq_none_iff.mp hq
      have := (List.getElem?_eq_some_iff.mp hh).1
      omega
    obtain ⟨chain₀, rfl⟩ : ∃ chain₀, chain = chain₀ ++ [p] := by
      obtain ⟨hlt, hget⟩ := List.getElem?_eq_some_iff.mp hh
      refine ⟨chain.take h, ?_⟩
      rw [← hget, ← take_succ_eq_append_getElem hlt, hlast, take_length]
    have hlen0 : h = chain₀.length := by simpa using hlast
    obtain ⟨s', hnew, hp', htls⟩ := newPage_last hp hfresh (by rw [hlen, hlen0])
    have hq' : (chain₀ ++ [p] ++ [fresh])[h + 1]? = some fresh := by
      rw [hlast]
      simp
    obtain ⟨qg, hqpage, hqfull⟩ := hempty hp' hq'
    refine ⟨fresh, s', _, ?_, hp', prefix_append .., hq', htls⟩
    rw [nextPage]
    simp [hpage, hchild, hq, hnew, hqpage, hqfull]
  · obtain ⟨qg, hqpage, hqfull⟩ := hempty hp hq
    refine ⟨q, s, chain, ?_, hp, prefix_rfl, hq, rfl⟩
    rw [nextPage]
    simp [hpage, hchild, hq, hqpage, hqfull]

include hh in
theorem located_slot (hlo : h * cfg.capacity ≤ n)
    (hhi : n < (h + 1) * cfg.capacity) : Located cfg chain n (.slot p (n - h * cfg.capacity)) := by
  have hdiv : n / cfg.capacity = h := Nat.div_eq_of_lt_le hlo hhi
  have hmod := div_add_mod n cfg.capacity
  rw [hdiv, mul_comm] at hmod
  exact ⟨by rw [hdiv, hh], by omega⟩

variable (htls : s.tls = .page p)

include hp htls in
/-- `add` on a hot page with room. -/
theorem add_represents (hh : chain[h]? = some p) (hlo : h * cfg.capacity ≤ l.length)
    (hhi : l.length < (h + 1) * cfg.capacity) :
    ∃ tok s', add cfg p e s = .ok (tok, s') ∧ Represents cfg s' chain (l ++ [e]) ∧
      Located cfg chain l.length tok ∧ s'.tls = .page p := by
  obtain ⟨s', hadd, hp', htls'⟩ := add_spec (e := e) hp hh hlo hhi
  refine ⟨_, s', hadd, ⟨hp', ?_⟩, located_slot hh hlo hhi, htls'.trans htls⟩
  rw [htls', htls]
  refine ⟨h, hh, ?_, ?_⟩
  · rw [length_append]
    omega
  · rw [length_append, length_singleton]
    omega

variable [DecidableEq α]

/-- `autoreleaseNoPage` when it installs the first page. -/
theorem autoreleaseNoPage_first (fresh : PageId) (hp : Pages cfg s [] l) (htls : hotPage s = none)
    (hm : cfg.debugMissingPools = false)
    (hl : l = if haveEmptyPoolPlaceholder s then [.boundary] else [])
    (hinstall : haveEmptyPoolPlaceholder s = true ∨ e ≠ .boundary) :
    ∃ tok s', autoreleaseFast cfg fresh e s = .ok (some tok, s') ∧
      Represents cfg s' [fresh] (l ++ [e]) ∧ Located cfg [fresh] l.length tok := by
  subst hl
  have hfast : autoreleaseFast cfg fresh e s = autoreleaseNoPage cfg fresh e s := by
    rw [autoreleaseFast, htls]
  rw [hfast, autoreleaseNoPage]
  obtain ⟨s₁, hnew, hp₁⟩ := newPage_first fresh hp
  have hp₂ := hp₁.setHotPage (some fresh)
  have hcap := cfg.two_le
  by_cases hph : haveEmptyPoolPlaceholder s = true
  · obtain ⟨tok₁, s₃, hadd₁, hr₃, -, htls₃⟩ :=
      add_represents (e := .boundary) (h := 0) hp₂ rfl rfl (by simp) (by simp; omega)
    obtain ⟨tok, s₄, hadd₂, hr₄, hloc, -⟩ :=
      add_represents (e := e) (h := 0) hr₃.pages htls₃ rfl (by simp) (by simp; omega)
    refine ⟨tok, s₄, ?_, ?_, ?_⟩
    · simp [htls, check_of, hph, hnew, hadd₁, hadd₂]
    · simpa [hph] using hr₄
    · simpa [hph] using hloc
  · have hne : e ≠ .boundary := hinstall.resolve_left hph
    obtain ⟨tok, s₄, hadd, hr₄, hloc, -⟩ :=
      add_represents (e := e) (h := 0) hp₂ rfl rfl (by simp) (by simp; omega)
    refine ⟨tok, s₄, ?_, ?_, ?_⟩
    · have hbeq : (e == .boundary) = false := beq_eq_false_iff_ne.mpr hne
      simp [htls, check_of, hph, hm, hbeq, hnew, hadd]
    · simpa [hph] using hr₄
    · simpa [hph] using hloc

variable (hr : Represents cfg s chain l) (hfresh : s.pages fresh = none)
  (hm : cfg.debugMissingPools = false) (ha : cfg.debugPoolAllocation = false)

include hr hfresh hm ha in
/-- **Adding an entry** on top of the stack. The result is the address of its position. -/
theorem autoreleaseFast_spec : ∃ tok s' chain', autoreleaseFast cfg fresh e s = .ok (some tok, s') ∧
      Represents cfg s' chain' (l ++ [e]) ∧ chain <+: chain' ∧ Located cfg chain' l.length tok := by
  obtain ⟨hp, hhot⟩ := hr
  rcases htls : s.tls with _ | _ | p
  · -- no pool: a boundary only installs the placeholder
    rw [htls] at hhot
    obtain ⟨rfl, rfl⟩ := hhot
    have hhp : hotPage s = none := by simp only [hotPage, htls]
    have hph : haveEmptyPoolPlaceholder s = false := by
      rw [haveEmptyPoolPlaceholder, htls]
      rfl
    by_cases he : e = .boundary
    · subst he
      refine ⟨.placeholder, { s with tls := .placeholder }, [], ?_,
        ⟨⟨hp.linked, hp.count, by simp⟩, rfl, rfl⟩, prefix_rfl, rfl⟩
      rw [autoreleaseFast]
      simp [hhp, autoreleaseNoPage, setEmptyPoolPlaceholder, htls, check_of, hph, ha]
    · obtain ⟨tok, s', hauto, hr', hloc⟩ :=
        autoreleaseNoPage_first fresh hp hhp hm (by rw [hph]; rfl) (.inr he)
      exact ⟨tok, s', [fresh], hauto, hr', nil_prefix, hloc⟩
  · -- the placeholder pool gets its boundary first
    rw [htls] at hhot
    obtain ⟨rfl, rfl⟩ := hhot
    have hhp : hotPage s = none := by simp only [hotPage, htls]
    have hph : haveEmptyPoolPlaceholder s = true := by
      rw [haveEmptyPoolPlaceholder, htls]
      rfl
    obtain ⟨tok, s', hauto, hr', hloc⟩ :=
      autoreleaseNoPage_first (e := e) fresh hp hhp hm (by rw [hph]; rfl) (.inl hph)
    exact ⟨tok, s', [fresh], hauto, hr', nil_prefix, hloc⟩
  · rw [htls] at hhot
    obtain ⟨h, hh, hlo, hhi⟩ := hhot
    have hhp : hotPage s = some p := by simp only [hotPage, htls]
    obtain ⟨pg, -, hpage, hentries, -⟩ := hp.page hh
    have hcap := cfg.capacity_pos
    have hfull : pg.full cfg = decide (l.length = (h + 1) * cfg.capacity) := by
      rw [Page.full, hentries, length_chunk, Bool.eq_iff_iff, beq_iff_eq, decide_eq_true_iff]
      rw [succ_mul] at *
      omega
    by_cases hroom : l.length = (h + 1) * cfg.capacity
    · obtain ⟨q, s₁, chain', hnext, hp₁, hpre, hq, htls₁⟩ :=
        nextPage_spec s.count hp hh hroom hfresh
      obtain ⟨tok, s₂, hadd, hr₂, hloc, -⟩ := add_represents (e := e) (hp₁.setHotPage (some q)) rfl hq
        hroom.ge (by rw [succ_mul (h + 1)]; omega)
      refine ⟨tok, s₂, chain', ?_, hr₂, hpre, hloc⟩
      have hfull' : pg.full cfg = true := by rw [hfull, decide_eq_true hroom]
      rw [autoreleaseFast]
      simp [hhp, hpage, hfull', autoreleaseFullPage, check_of, hnext, hadd]
    · obtain ⟨tok, s', hadd, hr', hloc, -⟩ :=
        add_represents (e := e) hp htls hh hlo (lt_of_le_of_ne hhi hroom)
      refine ⟨tok, s', chain, ?_, hr', prefix_rfl, hloc⟩
      have hfull' : pg.full cfg = false := by rw [hfull, decide_eq_false hroom]
      rw [autoreleaseFast]
      simp [hhp, hpage, hfull', hadd]

include hr hfresh hm ha in
theorem push_spec : ∃ tok s' chain', push cfg fresh s = .ok (tok, s') ∧
      Represents cfg s' chain' (l ++ [.boundary]) ∧ chain <+: chain' ∧
      Located cfg chain' l.length tok := by
  obtain ⟨tok, s', chain', hfast, hspec⟩ := autoreleaseFast_spec hr hfresh hm ha
  refine ⟨tok, s', chain', ?_, hspec⟩
  rw [push]
  simp [ha, hfast]

theorem autorelease_spec (obj : α) (hr : Represents cfg s chain l) (hfresh : s.pages fresh = none)
    (hm : cfg.debugMissingPools = false) (ha : cfg.debugPoolAllocation = false) :
    ∃ s' chain', autorelease cfg fresh obj s = .ok s' ∧
      Represents cfg s' chain' (l ++ [.object obj]) ∧ chain <+: chain' := by
  obtain ⟨tok, s', chain', hfast, hr', hpre, -⟩ := autoreleaseFast_spec hr hfresh hm ha
  refine ⟨s', chain', ?_, hr', hpre⟩
  rw [autorelease]
  simp [hfast]

omit [DecidableEq α]

/-! ## Taking entries -/

/-- The proper ancestors of the page are full, its descendants are empty. -/
structure FilledUpTo (cfg : Settings) (s : Thread α) (hot : PageId) : Prop where
  ancestor : ∀ q, TransGen (Follows Page.parent s.pages) hot q →
    ∃ pg, s.pages q = some pg ∧ pg.full cfg = true
  descendant : ∀ q, TransGen (Follows Page.child s.pages) hot q →
    ∃ pg, s.pages q = some pg ∧ pg.empty = true

include hp in
theorem Pages.filledUpTo (hend : EndsAt cfg chain l h p) : FilledUpTo cfg s p := by
  obtain ⟨hh, hlo, hhi⟩ := hend
  constructor
  · intro q hq
    obtain ⟨i, hi, hiq⟩ := hp.linked.prev_transGen hh hq
    obtain ⟨qg, hqg, -, hentries, -⟩ := hp.page hiq
    have hle : (i + 1) * cfg.capacity ≤ h * cfg.capacity := Nat.mul_le_mul_right _ hi
    refine ⟨qg, hqg, ?_⟩
    rw [Page.full, beq_iff_eq, hentries, length_chunk]
    rw [succ_mul] at hle
    omega
  · intro q hq
    obtain ⟨i, hi, hiq⟩ := hp.linked.next_transGen hh hq
    obtain ⟨qg, hqg, -, hentries, -⟩ := hp.page hiq
    have hle : (h + 1) * cfg.capacity ≤ i * cfg.capacity := Nat.mul_le_mul_right _ hi
    refine ⟨qg, hqg, ?_⟩
    rw [Page.empty, hentries, isEmpty_iff_length_eq_zero, length_chunk]
    omega

/-- The inner loop of `releaseUntil` with `if` in place of `while`. -/
def climbOnce (page : PageId) (s : Thread α) : Except Fault (PageId × Thread α) := do
  let pg ← s.page page
  if pg.empty then
    match pg.parent with
    | some parent => .ok (parent, setHotPage (some parent) s)
    | none => .error .badAccess
  else .ok (page, s)

include hp htls in
/-- The inner loop of `releaseUntil` stops at the page of the top entry. The page before an
empty hot page is full, so the loop makes one step at most. -/
theorem climb_spec {fuel : ℕ} (hend : EndsAt cfg chain l h p) (hne : l ≠ []) (hfuel : h < fuel) :
    ∃ q s' h', climb fuel p s = .ok (q, s') ∧ climbOnce p s = .ok (q, s') ∧
      Pages cfg s' chain l ∧ s'.tls = .page q ∧ chain[h']? = some q ∧
      h' * cfg.capacity < l.length ∧ l.length ≤ (h' + 1) * cfg.capacity := by
  obtain ⟨hh, hlo, hhi⟩ := hend
  obtain ⟨pg, -, hpage, hentries, hparent, -⟩ := hp.page hh
  have hcap := cfg.capacity_pos
  have hlen := length_pos_iff.mpr hne
  have hempty : pg.empty = decide (l.length = h * cfg.capacity) := by
    rw [Page.empty, hentries, Bool.eq_iff_iff, isEmpty_iff_length_eq_zero, length_chunk,
      decide_eq_true_iff]
    omega
  obtain ⟨fuel, rfl⟩ : ∃ f, fuel = f + 1 := ⟨fuel - 1, by omega⟩
  by_cases hb : l.length = h * cfg.capacity
  · obtain ⟨h, rfl⟩ : ∃ h', h = h' + 1 := by
      rcases h with _ | h
      · omega
      · exact ⟨h, rfl⟩
    have hlt : h < chain.length := by
      have := (List.getElem?_eq_some_iff.mp hh).1
      omega
    obtain ⟨q, hq⟩ : ∃ q, chain[h]? = some q := ⟨_, getElem?_eq_getElem hlt⟩
    obtain ⟨qg, -, hqpage, hqentries, -⟩ := hp.page hq
    have hqempty : qg.empty = false := by
      rw [Page.empty, hqentries, isEmpty_eq_false_iff, ← length_pos_iff, length_chunk]
      rw [succ_mul] at hb
      omega
    refine ⟨q, setHotPage (some q) s, h, ?_, ?_, hp.setHotPage _, rfl, hq, ?_, hb.le⟩
    · have hqpage' : (setHotPage (some q) s).page q = .ok qg := hqpage
      obtain ⟨fuel, rfl⟩ : ∃ f, fuel = f + 1 := ⟨fuel - 1, by omega⟩
      rw [climb]
      simp only [bind, Except.bind, hpage, hempty, decide_eq_true hb, hparent, predecessor,
        hq]
      rw [climb]
      simp [hqpage', hqempty]
    · simp [climbOnce, hpage, hempty, hb, hparent, predecessor, hq]
    · rw [succ_mul] at hb
      omega
  · refine ⟨p, s, h, ?_, ?_, hp, htls, hh, by omega, hhi⟩
    · rw [climb]
      simp [hpage, hempty, decide_eq_false hb]
    · simp [climbOnce, hpage, hempty, hb]

variable (hk : chain[k]? = some p)

include hr hk in
/-- **The loop of `releaseUntil`.** Above position `n` it takes the top entry; it ends, with the
page of that position hot, when the stack ends there. -/
theorem releaseStep_spec
    (hlo : k * cfg.capacity ≤ n) (hhi : n < (k + 1) * cfg.capacity) (hn : n ≤ l.length) :
    (n = l.length ∧ ∃ s', releaseStep p (n - k * cfg.capacity) s = .ok (none, s') ∧
      Pages cfg s' chain l ∧ s'.tls = .page p) ∨ ∃ e l' s', l = l' ++ [e] ∧ n ≤ l'.length ∧
      releaseStep p (n - k * cfg.capacity) s = .ok (some e, s') ∧ Represents cfg s' chain l' := by
  obtain ⟨hp, hhot⟩ := hr
  obtain ⟨pg, -, hpage, hentries, -⟩ := hp.page hk
  have hlen : pg.entries.length = min cfg.capacity (l.length - k * cfg.capacity) := by
    rw [hentries, length_chunk]
  have hiff : pg.entries.length = n - k * cfg.capacity ↔ n = l.length := by
    rw [succ_mul] at hhi
    omega
  by_cases heq : n = l.length
  · refine .inl ⟨heq, setHotPage (some p) s, ?_, hp.setHotPage _, rfl⟩
    rw [releaseStep]
    simp [hpage, if_pos (hiff.mpr heq)]
  right
  have hne : l ≠ [] := by
    rintro rfl
    exact heq (le_zero.mp hn)
  obtain ⟨hot, htls⟩ : ∃ hot, s.tls = .page hot := by
    rcases htls : s.tls with _ | _ | hot
    · rw [htls] at hhot
      exact absurd hhot.2 hne
    · rw [htls] at hhot
      rw [hhot.1] at hk
      simp at hk
    · exact ⟨hot, rfl⟩
  rw [htls] at hhot
  obtain ⟨h, hend⟩ := hhot
  have hhp : hotPage s = some hot := by simp only [hotPage, htls]
  have hfuel : h < s.count := by
    rw [hp.count]
    exact (List.getElem?_eq_some_iff.mp hend.page).1
  obtain ⟨q, s₁, h', hclimb, -, hp₁, htls₁, hh', hlo', hhi'⟩ :=
    climb_spec hp htls hend hne hfuel
  obtain ⟨l', e, rfl⟩ : ∃ l' e, l = l' ++ [e] :=
    ⟨l.dropLast, l.getLast hne, (dropLast_append_getLast hne).symm⟩
  rw [length_append, length_singleton] at hn heq hlo' hhi'
  -- the top entry is the last one of page `h'`
  have hsnoc : ∀ i, chunk cfg.capacity (l' ++ [e]) i =
      if i = h' then chunk cfg.capacity l' h' ++ [e] else chunk cfg.capacity l' i := fun i =>
    chunk_snoc (by omega) (by omega)
  obtain ⟨qg, hqg, hqpage, hqentries, -⟩ := hp₁.page hh'
  rw [hsnoc] at hqentries
  refine ⟨e, l', s₁.setPage q { qg with entries := chunk cfg.capacity l' h' }, rfl, by omega,
    ?_, ?_, ?_⟩
  · rw [releaseStep]
    have hgoon : ¬ pg.entries.length = n - k * cfg.capacity := by
      rw [hiff, length_append]
      exact heq
    simp [hpage, if_neg hgoon, hhp, hclimb, hqpage, hqentries]
  · apply hp₁.setEntries hh' hqg
    intro i hi
    rw [hsnoc, if_neg hi]
  · show Hot cfg s₁.tls chain l'
    rw [htls₁]
    exact ⟨h', hh', by omega, by omega⟩


/-! ## Deleting pages -/

/-- The only page is deleted. -/
theorem Pages.freeOnly (hp : Pages cfg s [p] l) : Pages cfg (s.free p) [] l := by
  refine ⟨hp.linked.dropOnly, ?_, by simp⟩
  show s.count - 1 = 0
  rw [hp.count]
  rfl

/-- The last page is deleted, after the link to it. -/
theorem Pages.freeLast {q : PageId} {qg : Page α} (hp : Pages cfg s (chain ++ [q] ++ [p]) l)
    (hqg : s.pages q = some qg) :
    Pages cfg ((s.setPage q { qg with child := none }).free p) (chain ++ [q]) l := by
  have hdrop := hp.linked.dropLast hqg (w := { qg with child := none }) rfl rfl
  refine ⟨hdrop, ?_, ?_⟩
  · show s.count - 1 = _
    rw [hp.count]
    simp
  · intro i r rg hi hrg
    have hi' : (chain ++ [q] ++ [p])[i]? = some r := by
      rwa [getElem?_append_left (List.getElem?_eq_some_iff.mp hi).1]
    have hrp : r ≠ p := by
      rintro rfl
      rw [Thread.pages_free_self] at hrg
      cases hrg
    rw [Thread.pages_free_of_ne hrp] at hrg
    by_cases hrq : r = q
    · subst hrq
      rw [Thread.pages_setPage_self] at hrg
      rw [← some.inj hrg]
      exact hp.entries i r qg hi' hqg
    · rw [Thread.pages_setPage_of_ne hrq] at hrg
      exact hp.entries i r rg hi' hrg

/-- One pass through the loop of `kill`: the last page is empty and goes. -/
theorem killLoop_last {page : PageId} (fuel : ℕ) (hn : chain[n]? = some page)
    (hp : Pages cfg s (chain.take (n + 1)) l) (hle : l.length ≤ n * cfg.capacity) :
    ∃ s', Pages cfg s' (chain.take n) l ∧ s'.tls = s.tls ∧
      killLoop p (fuel + 1) page s =
        if page = p then .ok s'
        else match (chain.take n).getLast? with
          | none => .error .badAccess
          | some parent => killLoop p fuel parent s' := by
  obtain ⟨hlt, hget⟩ := List.getElem?_eq_some_iff.mp hn
  rw [take_succ_eq_append_getElem hlt, hget] at hp
  rw [← length_take_of_le hlt.le] at hle
  generalize chain.take n = chain at hp hle ⊢
  have hlast : (chain ++ [page])[chain.length]? = some page := by simp
  obtain ⟨pg, -, hpage, hentries, hparent, hchild⟩ := hp.page hlast
  have hempty : pg.empty = true := by
    rw [Page.empty, hentries, chunk_eq_nil hle]
    rfl
  have hnochild : pg.child = none := by
    rw [hchild]
    simp
  rcases eq_nil_or_concat' chain with rfl | ⟨chain, q, rfl⟩
  · have hnoparent : pg.parent = none := hparent
    refine ⟨s.free page, hp.freeOnly, rfl, ?_⟩
    rw [killLoop]
    simp [hpage, hnoparent, hempty, hnochild, check_of]
  · have hq : (chain ++ [q] ++ [page])[chain.length]? = some q := by simp
    obtain ⟨qg, hqg, hqpage, -⟩ := hp.page hq
    have hparent' : pg.parent = some q := by
      rw [hparent, length_append]
      exact hq
    refine ⟨_, hp.freeLast hqg, rfl, ?_⟩
    rw [killLoop]
    simp [hpage, hparent', hqpage, hempty, hnochild, check_of]

include hk in
/-- The loop of `kill` deletes the empty pages from `k` on. -/
theorem killLoop_spec (hnodup : chain.Nodup) (hle : l.length ≤ k * cfg.capacity) (m : ℕ) :
    ∀ (s : Thread α) (fuel : ℕ) (page : PageId), chain[k + m]? = some page → m < fuel →
      Pages cfg s (chain.take (k + m + 1)) l →
      ∃ s', killLoop p fuel page s = .ok s' ∧ Pages cfg s' (chain.take k) l ∧ s'.tls = s.tls := by
  induction m with
  | zero =>
    intro s fuel page hpage hfuel hp
    obtain ⟨fuel, rfl⟩ : ∃ f, fuel = f + 1 := ⟨fuel - 1, by omega⟩
    obtain ⟨s', hp', htls, hloop⟩ := killLoop_last (p := p) fuel hpage hp hle
    have hpp : page = p := some.inj (hpage.symm.trans hk)
    exact ⟨s', by rw [hloop, if_pos hpp], hp', htls⟩
  | succ m ih =>
    intro s fuel page hpage hfuel hp
    obtain ⟨fuel, rfl⟩ : ∃ f, fuel = f + 1 := ⟨fuel - 1, by omega⟩
    obtain ⟨hlt, hget⟩ := List.getElem?_eq_some_iff.mp hpage
    obtain ⟨s₁, hp₁, htls₁, hloop⟩ := killLoop_last (p := p) fuel hpage hp
      (hle.trans (Nat.mul_le_mul_right _ (by omega)))
    have hpp : page ≠ p := by
      rintro rfl
      obtain ⟨hlt', hget'⟩ := List.getElem?_eq_some_iff.mp hk
      have := hnodup.getElem_inj_iff.mp (hget.trans hget'.symm)
      omega
    have hq : chain[k + m]? = some chain[k + m] := getElem?_eq_getElem (by omega)
    have hlast : (chain.take (k + (m + 1))).getLast? = some chain[k + m] := by
      rw [show k + (m + 1) = k + m + 1 by omega, take_succ_eq_append_getElem (by omega),
        getLast?_concat]
    obtain ⟨s', hkill, hp', htls'⟩ := ih s₁ fuel _ hq (by omega) hp₁
    refine ⟨s', ?_, hp', htls'.trans htls₁⟩
    rw [hloop, if_neg hpp, hlast]
    exact hkill

include hp hk in
theorem kill_spec (hle : l.length ≤ k * cfg.capacity) :
    ∃ s', kill p s = .ok s' ∧ Pages cfg s' (chain.take k) l ∧ s'.tls = s.tls := by
  have hlt := (List.getElem?_eq_some_iff.mp hk).1
  have hend : endOf Page.child s.pages s.count p = chain.getLast? :=
    hp.linked.endOf_next s.count k p hk (by rw [hp.count]; omega)
  have hlast : chain[k + (chain.length - 1 - k)]? = some (chain[chain.length - 1]) := by
    rw [show k + (chain.length - 1 - k) = chain.length - 1 by omega]
    exact getElem?_eq_getElem _
  obtain ⟨s', hkill, hp', htls⟩ := killLoop_spec hk hp.linked.nodup hle
    (chain.length - 1 - k) s s.count _ hlast
    (by rw [hp.count]; omega)
    (by rwa [show k + (chain.length - 1 - k) + 1 = chain.length by omega, take_length])
  refine ⟨s', ?_, hp', htls⟩
  rw [kill, hend, getLast?_eq_getElem?, getElem?_eq_getElem (by omega)]
  exact hkill

/-! ## `pop` -/

/-- The page of a position. -/
theorem Located.slot (hloc : Located cfg chain n (.slot p i)) :
    ∃ k, chain[k]? = some p ∧ k * cfg.capacity ≤ n ∧ n < (k + 1) * cfg.capacity ∧
      i = n - k * cfg.capacity := by
  obtain ⟨hpage, rfl⟩ := hloc
  have hmod := mod_lt n cfg.capacity_pos
  have hdiv := div_add_mod n cfg.capacity
  rw [mul_comm] at hdiv
  refine ⟨n / cfg.capacity, hpage, by omega, ?_, by omega⟩
  rw [succ_mul]
  omega

/-- A position stays where it is when pages are added, or deleted behind its page. -/
theorem Located.of_chain (hloc : Located cfg chain n tok)
    (hchain : chain[n / cfg.capacity]? = chain'[n / cfg.capacity]?) : Located cfg chain' n tok := by
  cases tok with
  | placeholder => exact hloc
  | slot p i => exact ⟨hchain.symm.trans hloc.1, hloc.2⟩

theorem Located.mono (hloc : Located cfg chain n tok)
    (hpre : chain <+: chain') : Located cfg chain' n tok := by
  obtain ⟨t, rfl⟩ := hpre
  cases tok with
  | placeholder => exact hloc
  | slot p i =>
    have hlt := (List.getElem?_eq_some_iff.mp hloc.1).1
    exact ⟨by rw [getElem?_append_left hlt, hloc.1], hloc.2⟩

include hp hk in
theorem popSlot_spec (hlo : k * cfg.capacity ≤ n) (hhi : n < (k + 1) * cfg.capacity)
    (hn : l[n]? = some .boundary) :
    popSlot p (n - k * cfg.capacity) s = .ok (.releasing p (n - k * cfg.capacity)) := by
  obtain ⟨pg, -, hpage, hentries, -⟩ := hp.page hk
  have hget : pg.entries[n - k * cfg.capacity]? = some .boundary := by
    rw [succ_mul] at hhi
    rw [hentries, getElem?_chunk (by omega), show k * cfg.capacity + (n - k * cfg.capacity) = n by
      omega, hn]
  rw [popSlot]
  simp [hpage, hget]

include hr in
/-- **The start of `pop`**, for a token of a position that holds a boundary: the loop is entered
at that position, or the stack was the unused placeholder pool. -/
theorem popStart_spec (hloc : Located cfg chain n tok) (hn : l[n]? = some .boundary) :
    (∃ s', popStart tok s = .ok (.done s') ∧ n = 0 ∧ l = [.boundary] ∧ Represents cfg s' chain []) ∨
    ∃ p i, popStart tok s = .ok (.releasing p i) ∧ Located cfg chain n (.slot p i) := by
  obtain ⟨hp, hhot⟩ := hr
  cases tok with
  | slot p i =>
    obtain ⟨k, hk, hlo, hhi, rfl⟩ := Located.slot hloc
    exact .inr ⟨p, _, popSlot_spec hp hk hlo hhi hn, hloc⟩
  | placeholder =>
    obtain rfl : n = 0 := hloc
    rcases htls : s.tls with _ | _ | hot
    · rw [htls] at hhot
      rw [hhot.2] at hn
      simp at hn
    · rw [htls] at hhot
      obtain ⟨rfl, rfl⟩ := hhot
      refine .inl ⟨setHotPage none s, ?_, rfl, rfl, (hp.setHotPage none).nil_of [], rfl, rfl⟩
      simp only [popStart, hotPage, htls]
    · rw [htls] at hhot
      obtain ⟨h, hend⟩ := hhot
      have hlt := (List.getElem?_eq_some_iff.mp hend.page).1
      have hcold : coldPage s = .ok (some (chain[0])) := by
        have := hp.linked.endOf_prev s.count h hot hend.page (by rw [hp.count]; exact hlt)
        simp only [coldPage, hotPage, htls, this, head?_eq_getElem?]
        rw [getElem?_eq_getElem (by omega)]
      have hzero : chain[0]? = some chain[0] := getElem?_eq_getElem _
      have hcap := cfg.capacity_pos
      have hslot := popSlot_spec (n := 0) hp hzero (by omega) (by omega) hn
      simp only [Nat.zero_mul] at hslot
      refine .inr ⟨chain[0], 0, ?_, ?_, ?_⟩
      · simp [popStart, hotPage, htls, hcold, hslot]
      · rw [Nat.zero_div, hzero]
      · rw [zero_mod]

include hp htls in
/-- **The end of `pop`** deletes empty pages only, none of them up to the page of the end of the
stack. -/
theorem popEnd_spec (hend : EndsAt cfg chain l k p) (hm : cfg.debugMissingPools = false)
    (ha : cfg.debugPoolAllocation = false) :
    ∃ s' m, popEnd cfg p s = .ok s' ∧ k < m ∧ Represents cfg s' (chain.take m) l := by
  obtain ⟨hk, hlo, hhi⟩ := hend
  obtain ⟨pg, -, hpage, -, -, hchild⟩ := hp.page hk
  have hlt := (List.getElem?_eq_some_iff.mp hk).1
  have hrep : ∀ {s' : Thread α} {m : ℕ}, k < m → Pages cfg s' (chain.take m) l → s'.tls = s.tls →
      Represents cfg s' (chain.take m) l := by
    intro s' m hkm hp' htls'
    refine ⟨hp', ?_⟩
    rw [htls', htls]
    exact ⟨k, by rw [getElem?_take_of_lt hkm, hk], hlo, hhi⟩
  have hall : Pages cfg s (chain.take chain.length) l := by rwa [take_length]
  have hbehind : ∀ j, k < j → l.length ≤ j * cfg.capacity := fun j hkj =>
    hhi.trans (Nat.mul_le_mul_right _ hkj)
  rcases hc : chain[k + 1]? with _ | child
  · refine ⟨s, chain.length, ?_, hlt, hrep hlt hall rfl⟩
    rw [popEnd]
    simp [hpage, ha, hm, hchild, hc]
  obtain ⟨cg, -, hcpage, -, -, hcchild⟩ := hp.page hc
  by_cases hhalf : pg.lessThanHalfFull cfg = true
  · obtain ⟨s', hkill, hp', htls'⟩ := kill_spec hp hc (hbehind _ (by omega))
    refine ⟨s', k + 1, ?_, by omega, hrep (by omega) hp' htls'⟩
    rw [popEnd]
    simp [hpage, ha, hm, hchild, hc, if_pos hhalf, hkill]
  · rcases hg : chain[k + 1 + 1]? with _ | grandchild
    · refine ⟨s, chain.length, ?_, hlt, hrep hlt hall rfl⟩
      rw [popEnd]
      simp [hpage, ha, hm, hchild, hc, if_neg hhalf, hcpage, hcchild, hg]
    · obtain ⟨s', hkill, hp', htls'⟩ := kill_spec hp hg (hbehind _ (by omega))
      refine ⟨s', k + 1 + 1, ?_, by omega, hrep (by omega) hp' htls'⟩
      rw [popEnd]
      simp [hpage, ha, hm, hchild, hc, if_neg hhalf, hcpage, hcchild, hg, hkill]

/-! ## The logical stack -/

include hp in
theorem stackUpTo_eq (h : ℕ) : ∀ fuel p, chain[h]? = some p → h < fuel →
      stackUpTo s.pages fuel (some p) = l.take ((h + 1) * cfg.capacity) := by
  induction h with
  | zero =>
    intro fuel p hh hfuel
    obtain ⟨fuel, rfl⟩ : ∃ f, fuel = f + 1 := ⟨fuel - 1, by omega⟩
    obtain ⟨pg, hpg, -, hentries, hparent, -⟩ := hp.page hh
    rw [← take_append_chunk, stackUpTo, hpg]
    simp only [hparent, hentries, Nat.zero_mul]
    cases fuel <;> rfl
  | succ h ih =>
    intro fuel p hh hfuel
    obtain ⟨fuel, rfl⟩ : ∃ f, fuel = f + 1 := ⟨fuel - 1, by omega⟩
    obtain ⟨pg, hpg, -, hentries, hparent, -⟩ := hp.page hh
    have hlt := (List.getElem?_eq_some_iff.mp hh).1
    have hq : chain[h]? = some chain[h] := getElem?_eq_getElem (by omega)
    rw [← take_append_chunk, stackUpTo, hpg]
    simp only [hparent, predecessor, hq, hentries]
    rw [ih fuel _ hq (by omega)]

include hr in
/-- The stack that the pages hold is the one read off them. -/
theorem logicalStack_eq : logicalStack s = l := by
  obtain ⟨hp, hhot⟩ := hr
  rcases htls : s.tls with _ | _ | p
  · rw [htls] at hhot
    rw [logicalStack, htls, hhot.2]
  · rw [htls] at hhot
    rw [logicalStack, htls, hhot.2]
  · rw [htls] at hhot
    obtain ⟨h, hend⟩ := hhot
    have hlt := (List.getElem?_eq_some_iff.mp hend.page).1
    rw [logicalStack, htls]
    simp only
    rw [stackUpTo_eq hp h _ p hend.page (by rw [hp.count]; exact hlt),
      take_of_length_le hend.upper]

end Apple.Objc.AutoreleasePool
