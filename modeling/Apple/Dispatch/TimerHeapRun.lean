import Apple.Dispatch.TimerHeapSift

/-!
# Runs of a timer heap

`Represents s segs b live`: the state `s` is a timer heap of the timers `live`, with its
segments at `segs` and the timer `b id j` at the index `j` of the heap `id`. The three entry
points keep this and never fault (`insert_spec`, `remove_spec`, `update_spec`).

Result: `timerHeap_run`, after every sequence of calls both heaps are min-heaps of
the inserted timers, with the minimum in `dth_min` and the index of each timer in
`dt_heap_entry`, and the slots of the indices are distinct cells away from the pointers to the
segments.
-/

namespace Apple.Dispatch.TimerHeap

open Lib.HeapOrder Option Function

variable {τ : Type}

/-- `s` is a timer heap of the timers `live`. -/
structure Represents (s : State τ) (segs : ℕ → Address) (b : ℕ → ℕ → τ) (live : Set τ) : Prop where
  layout : Layout s segs
  even : s.count % 2 = 0
  fits : s.count ≤ capacity s.segments
  used : ∀ n, s.segments = n + 1 → capacity n < s.count
  heaps : ∀ id < 2, HeapOk s segs s.count id (b id)
  members : ∀ id < 2, b id '' Positions s.count id = live
  idle : ∀ dt ∉ live, ∀ id < 2, s.entry dt id = none
  null : s.count = 0 → ∀ id < 2, s.min id = none

theorem two_le_capacity (n : ℕ) : 2 ≤ capacity n := capacity_mono zero_le

theorem positions_zero (id : ℕ) : Positions 0 id = ∅ :=
  Set.eq_empty_of_forall_notMem fun _ hj => Nat.not_lt_zero _ hj.1

variable {n : ℕ} {s : State τ} {segs : ℕ → Address} {id : ℕ} {b : ℕ → ℕ → τ} {live : Set τ}

/-- Two more indices are one more for each heap. -/
theorem positions_add_two (hn : n % 2 = 0) (hid : id < 2) :
    Positions (n + 2) id = Insert.insert (n + id) (Positions n id) := by
  ext j
  simp only [Positions, Set.mem_ofPred_eq, Set.mem_insert_iff]
  omega

theorem notMem_positions : n + id ∉ Positions n id := fun h =>
  absurd h.1 (by omega)

theorem HeapOk.frame {t : State τ} {id' : ℕ} {b : ℕ → τ} {T : Set τ}
    (h : HeapOk s segs n id' b) (hframe : Frame s t segs id T) (hne : id' ≠ id)
    (hn : n ≤ capacity s.segments) : HeapOk t segs n id' b :=
  h.congr (fun j hj => hframe.load j (hj.1.trans_le hn) (hj.2.trans_ne hne))
    (fun _ _ => hframe.entry _ _ (Or.inl hne)) (fun _ _ => by rw [hframe.key])

theorem Represents.entry_ne_none (h : Represents s segs b live) {dt : τ} (hid : id < 2) :
    dt ∈ live ↔ s.entry dt id ≠ none := by
  constructor
  · intro hdt
    rw [← h.members id hid] at hdt
    obtain ⟨j, hj, rfl⟩ := hdt
    rw [(h.heaps id hid).entries j hj]
    exact some_ne_none j
  · intro hne
    by_contra hdt
    exact hne (h.idle dt hdt id hid)

theorem Represents.segments_eq_zero (h : Represents s segs b live)
    (hcount : s.count ≤ 2) : s.segments = 0 := by
  rcases hn : s.segments with _ | n
  · rfl
  · exact absurd (h.used n hn) (not_lt.mpr (hcount.trans (two_le_capacity n)))

theorem represents_empty (b : ℕ → ℕ → τ) (hcount : s.count = 0) (hlayout : Layout s segs)
    (hsegments : s.segments = 0) (hmin : ∀ id < 2, s.min id = none)
    (hentry : ∀ dt, ∀ id < 2, s.entry dt id = none) : Represents s segs b ∅ where
  layout := hlayout
  even := by rw [hcount]
  fits := by
    rw [hcount]
    exact zero_le
  used n hn := by
    rw [hsegments] at hn
    cases hn
  heaps id _ := by
    rw [hcount]
    refine ⟨fun j hj => ?_, fun j hj => ?_, fun j hj => ?_⟩ <;>
      exact absurd hj.1 (Nat.not_lt_zero j)
  members id _ := by rw [hcount, positions_zero, Set.image_empty]
  idle dt _ := hentry dt
  null _ := hmin

section Calls

variable [DecidableEq τ] {s t u v : State τ} {segs : ℕ → Address} {live : Set τ} {n id : ℕ}
  {dt : τ} {a : Address} {calls : List (Call τ)}

/-! ## Insertion -/

/-- `resift` of a new timer at the next index of a heap. -/
theorem insertInto {b : ℕ → τ}
    (hlayout : Layout s segs) (hcount : s.count = n + 2) (hn : n % 2 = 0) (hid : id < 2)
    (hfits : n + 2 ≤ capacity s.segments) (h : HeapOk s segs n id b)
    (hdt : dt ∉ b '' Positions n id) :
    ∃ t c, resift s dt (n + id) = some t ∧ HeapOk t segs (n + 2) id c ∧
      c '' Positions (n + 2) id = Insert.insert dt (b '' Positions n id) ∧
      Frame s t segs id (Insert.insert dt (b '' Positions n id)) := by
  have hpos := positions_add_two hn hid
  have hold : ∀ j ∈ Positions n id, Function.update b (n + id) dt j = b j := fun j hj =>
    update_of_ne (fun he => notMem_positions (he ▸ hj)) _ _
  have hmem : ∀ j ∈ Positions (n + 2) id, j ≠ n + id → j ∈ Positions n id := fun j hj hne => by
    rw [hpos] at hj
    exact hj.resolve_left hne
  have himage : Function.update b (n + id) dt '' Positions (n + 2) id =
      Insert.insert dt (b '' Positions n id) := by
    rw [hpos, Set.image_insert_eq, update_self, Set.image_congr hold]
  have hinj : Set.InjOn (Function.update b (n + id) dt) (Positions (n + 2) id) := by
    rw [hpos, Set.injOn_insert notMem_positions, update_self, Set.image_congr hold]
    exact ⟨(Set.EqOn.injOn_iff hold).mpr h.injOn, hdt⟩
  have hhole : Hole s segs id (Function.update b (n + id) dt) (n + id) := by
    refine ⟨hlayout, by rw [hcount]; exact hfits, by exact ⟨by omega, by omega⟩,
      by rw [hcount]; exact hinj, fun j hj hne => ?_, fun j hj hne => ?_⟩
    · rw [hcount] at hj
      rw [hold j (hmem j hj hne)]
      exact h.slots j (hmem j hj hne)
    · rw [hcount] at hj
      rw [hold j (hmem j hj hne)]
      exact h.entries j (hmem j hj hne)
  have hnear : NearHeap parentOf (Positions s.count id) (s.key · id)
      (Function.update b (n + id) dt) (n + id) := by
    rw [hcount]
    refine ⟨fun j hj p hp hjn hpn => ?_, fun j hj hjn => ?_⟩
    · have hj' := hmem j hj hjn
      simp only [hold j hj', hold p (parentOf_mem j hj' p hp)]
      exact h.order j hj' p hp
    · have hlt := parentOf_lt j _ hjn
      obtain ⟨hj1, hj2⟩ := hj
      omega
  obtain ⟨t, c, ht, hok, himage', hframe⟩ := resift_spec hhole hnear
  rw [hcount] at hok
  rw [hcount, himage] at himage' hframe
  rw [update_self] at ht
  exact ⟨t, c, ht, hok, himage', hframe⟩

/-- A timer for each heap, from the timers of the two. -/
def pair (b c : ℕ → τ) (id : ℕ) : ℕ → τ := if id = 0 then b else c

omit [DecidableEq τ] in
theorem forall_id {P : ℕ → Prop} (h0 : P 0) (h1 : P 1) : ∀ id < 2, P id := by
  intro id hid
  rcases (by omega : id = 0 ∨ id = 1) with rfl | rfl
  · exact h0
  · exact h1

omit [DecidableEq τ] in
/-- The state after a call, from the two heaps that it leaves. -/
theorem represents_of_count {c : ℕ → ℕ → τ} (hcount : t.count = n) (hlayout : Layout t segs)
    (heven : n % 2 = 0) (hpos : n ≠ 0) (hfits : n ≤ capacity t.segments)
    (hused : ∀ m, t.segments = m + 1 → capacity m < n) (hc : ∀ id < 2, HeapOk t segs n id (c id))
    (himage : ∀ id < 2, c id '' Positions n id = live)
    (hidle : ∀ dt ∉ live, ∀ id < 2, t.entry dt id = none) : Represents t segs c live := by
  subst hcount
  exact ⟨hlayout, heven, hfits, hused, hc, himage, hidle, fun h0 => absurd h0 hpos⟩

variable {k : τ → ℕ → ℕ} {key : ℕ → ℕ}

omit [DecidableEq τ] in
/-- A change `f` of one heap is made to both, one after the other: each finds its heap as it was.
`k` has the keys before the call. -/
theorem bothHeaps {f : State τ → ℕ → Option (State τ)} {b : ℕ → ℕ → τ} {m : ℕ}
    {T : Set τ} (hlayout : Layout s segs) (hn : n ≤ capacity s.segments)
    (hm : m ≤ capacity s.segments) (hok : ∀ id < 2, HeapOk { s with key := k } segs n id (b id))
    (hf : ∀ id < 2, ∀ u, Layout u segs → u.count = s.count → u.segments = s.segments →
      u.key = s.key → HeapOk { u with key := k } segs n id (b id) →
      ∃ t c, f u id = some t ∧ HeapOk t segs m id c ∧ c '' Positions m id = T ∧
        Frame u t segs id T) :
    ∃ u t, ∃ c : ℕ → ℕ → τ, f s 0 = some u ∧ f u 1 = some t ∧ Layout t segs ∧
      t.count = s.count ∧ t.segments = s.segments ∧ t.key = s.key ∧
      (∀ id < 2, HeapOk t segs m id (c id)) ∧ (∀ id < 2, c id '' Positions m id = T) ∧ ∀ dt ∉ T, t.entry dt = s.entry dt := by
  obtain ⟨u, c, hu, hc, himagec, hframec⟩ :=
    hf 0 (by omega) s hlayout rfl rfl rfl (hok 0 (by omega))
  have hframe : Frame { s with key := k } { u with key := k } segs 0 T :=
    ⟨hframec.layout.congr rfl rfl rfl, hframec.count, hframec.segments, rfl, hframec.load,
      hframec.entry⟩
  obtain ⟨t, d, ht, hd, himaged, hframed⟩ := hf 1 (by omega) u hframec.layout hframec.count
    hframec.segments hframec.key ((hok 1 (by omega)).frame hframe (by omega) hn)
  refine ⟨u, t, pair c d, hu, ht, hframed.layout, hframed.count.trans hframec.count,
    hframed.segments.trans hframec.segments, hframed.key.trans hframec.key,
    forall_id (hc.frame hframed (by omega) ?_) hd, forall_id himagec himaged,
    fun dt hdt => funext fun id => ?_⟩
  · rw [hframec.segments]
    exact hm
  · rw [hframed.entry dt id (Or.inr hdt), hframec.entry dt id (Or.inr hdt)]

omit [DecidableEq τ] in
/-- The segment that an insertion adds when the next two indices are not below the capacity. -/
theorem makeRoom (hlayout : Layout s segs)
    (ha : s.memory a = none) (hfits : n ≤ capacity s.segments)
    (hused : ∀ m, s.segments = m + 1 → capacity m < n) :
    ∃ t segs', (if capacity s.segments < n + idCount then grow s a else some s) = some t ∧
      Layout t segs' ∧ t.count = s.count ∧ t.entry = s.entry ∧ t.key = s.key ∧
      n + 2 ≤ capacity t.segments ∧ (∀ m, t.segments = m + 1 → capacity m < n + 2) ∧
      ∀ j < n, t.load (slotOf segs' j) = s.load (slotOf segs j) := by
  by_cases hroom : capacity s.segments < n + 2
  · obtain ⟨t, ht, hr⟩ := hlayout.grow ha
    have hcap := capacity_add_two_le s.segments
    refine ⟨t, _, (if_pos hroom).trans ht, hr.layout, hr.count, hr.entry, hr.key, ?_,
      fun m hm => ?_, fun j hj => hr.load j (by omega) (by omega)⟩
    · rw [hr.segments]
      omega
    · rw [hr.segments] at hm
      obtain rfl : s.segments = m := by omega
      exact hroom
  · refine ⟨s, segs, if_neg hroom, hlayout, rfl, rfl, rfl, by omega, fun m hm => ?_, fun _ _ => rfl⟩
    exact (hused m hm).trans (by omega)

variable {b : ℕ → ℕ → τ} {dt' : τ}

variable (h : Represents s segs b live)

include h in
omit [DecidableEq τ] in
theorem Represents.heap_of_key (hid : id < 2) {segs' : ℕ → Address}
    (hload : ∀ j < s.count, t.load (slotOf segs' j) = s.load (slotOf segs j))
    (hentry : t.entry = s.entry) (hkey : ∀ dt ∈ live, t.key dt = s.key dt) :
    HeapOk t segs' s.count id (b id) :=
  (h.heaps id hid).congr (fun j hj => hload j hj.1) (fun _ _ => by rw [hentry]) fun j hj => by
    rw [hkey]
    rw [← h.members id hid]
    exact ⟨j, hj, rfl⟩

/-- The first timer is only in `dth_min`. -/
theorem insert_first (h0 : s.count = 0) (dt : τ) (a : Address) :
    ∃ t, insert s dt a = some t ∧ t.count = 2 ∧ t.segments = s.segments ∧ t.heap = s.heap ∧
      t.memory = s.memory ∧ (∀ id < 2, t.min id = some dt) ∧ (∀ id < 2, t.entry dt id = some id) ∧
      ∀ dt' ≠ dt, t.entry dt' = s.entry dt' := by
  let u := ({ s with count := s.count + idCount }.setEntry dt 0 (some 0)).setEntry dt 1 (some 1)
  refine ⟨{ u with min := Function.update (Function.update u.min 1 (some dt)) 0 (some dt) },
    by exact if_pos h0, ?_, rfl, rfl, rfl, forall_id ?_ ?_, forall_id ?_ ?_,
    fun dt' hne => ?_⟩
  · show s.count + 2 = 2
    rw [h0]
  · simp
  · simp
  · simp [u, setEntry_entry]
  · simp [u, setEntry_entry]
  · funext id
    simp [u, setEntry_entry, hne]

/-- The other timers are sifted into both heaps. -/
theorem insert_more (h0 : s.count ≠ 0) (hu : (if capacity s.segments < s.count + idCount then
      grow { s with count := s.count + idCount } a
      else some { s with count := s.count + idCount }) = some u)
    (hv : resift u dt (s.count + 0) = some v) (ht : resift v dt (s.count + 1) = some t) :
    insert s dt a = some t := by
  refine (if_neg h0).trans ?_
  split_ifs at hu with hroom
  · simp only [if_pos hroom, hu, bind_eq_bind, bind_some, hv, ht]
  · obtain rfl := some.inj hu
    simp only [if_neg hroom, bind_eq_bind, bind_some, hv, ht]

include h in
theorem insert_spec (hdt : dt ∉ live) (ha : s.memory a = none) (key : ℕ → ℕ) : ∃ t segs' b',
      insert (s.setKey dt key) dt a = some t ∧ Represents t segs' b' (Insert.insert dt live) := by
  by_cases h0 : s.count = 0
  · have hsegments := h.segments_eq_zero (by omega)
    have hlive : live = ∅ := by
      rw [← h.members 0 (by omega), h0, positions_zero, Set.image_empty]
    obtain ⟨t, ht, hcount, hseg, hheap, hmem, hmin, hentry, hother⟩ :=
      insert_first (s := s.setKey dt key) h0 dt a
    have hpos : ∀ id < 2, Positions 2 id = {id} := fun id hid => by
      rw [positions_add_two rfl hid, positions_zero, zero_add, insert_empty_eq]
    refine ⟨t, segs, fun _ _ => dt, ht, h.layout.congr hseg hheap hmem, by rw [hcount],
      by rw [hcount]; exact two_le_capacity _, fun n hn => ?_, fun id hid => ?_, fun id hid => ?_,
      fun dt' hdt' id hid => ?_, fun hc => ?_⟩
    · rw [hseg, State.setKey, hsegments] at hn
      cases hn
    · have heq : ∀ j ∈ Positions t.count id, j = id := fun j hj => by
        rw [hcount, hpos id hid] at hj
        exact hj
      refine ⟨fun j hj => ?_, fun j hj => ?_, fun _ _ _ _ => le_rfl⟩
      · rw [heq j hj, slotOf_min hid]
        exact hmin id hid
      · rw [heq j hj]
        exact hentry id hid
    · rw [hcount, hpos id hid, Set.image_singleton, hlive, insert_empty_eq]
    · rw [hother dt' (fun he => hdt' (he ▸ Set.mem_insert _ _))]
      exact h.idle dt' (fun hl => hdt' (Set.mem_insert_of_mem _ hl)) id hid
    · rw [hcount] at hc
      cases hc
  · have hkey : ∀ dt' ∈ live, (s.setKey dt key).key dt' = s.key dt' := fun dt' hdt' =>
      update_of_ne (fun he : dt' = dt => hdt (he ▸ hdt')) _ _
    obtain ⟨u, segs', hu, hlayout, hcount, hentry, hkey', hfits, hused, hload⟩ :=
      makeRoom (s := { s.setKey dt key with count := s.count + 2 })
        (h.layout.congr rfl rfl rfl) ha h.fits h.used
    have hok : ∀ id < 2, HeapOk u segs' s.count id (b id) := fun id hid =>
      h.heap_of_key hid hload hentry fun dt' hdt' => by rw [hkey']; exact hkey dt' hdt'
    obtain ⟨v, t, c, hv, ht, hlayout', hcount', hsegments, -, hokc, himage, hentry'⟩ :=
      bothHeaps (f := fun u id => resift u dt (s.count + id)) (T := Insert.insert dt live)
        hlayout (by omega) hfits hok
        fun id hid w hlayout hcount' hsegments hkey hokw => by
          rw [← h.members id hid]
          rw [← h.members id hid] at hdt
          exact insertInto hlayout (hcount'.trans hcount) h.even hid (hsegments ▸ hfits)
            (by rw [← hkey] at hokw; exact hokw) hdt
    rw [← hsegments] at hfits hused
    refine ⟨t, segs', c, insert_more h0 hu hv ht,
      represents_of_count (hcount'.trans hcount) hlayout' (by rw [Nat.add_mod_right, h.even])
        (Nat.succ_ne_zero _) hfits hused hokc himage fun dt' hdt' id hid => ?_⟩
    rw [hentry' dt' hdt', hentry]
    exact h.idle dt' (fun hl => hdt' (Set.mem_insert_of_mem _ hl)) id hid

/-! ## Removal -/

omit [DecidableEq τ] in
theorem image_positions_diff {b : ℕ → τ} (hn : n % 2 = 0) (hid : id < 2)
    (hinj : Set.InjOn b (Positions (n + 2) id)) :
    b '' Positions n id = b '' Positions (n + 2) id \ {b (n + id)} := by
  rw [positions_add_two hn hid] at hinj ⊢
  rw [Set.image_insert_eq, Set.insert_sdiff_of_mem _ (Set.mem_singleton _),
    Set.sdiff_singleton_eq_self]
  exact ((Set.injOn_insert notMem_positions).mp hinj).2

/-- One turn of the loop of `remove`: the heap gives up its last index, and the timer that was
there takes the place of the removed one. -/
theorem removeFrom_spec {b : ℕ → τ}
    (hlayout : Layout s segs) (hcount : s.count = n) (hn : n % 2 = 0) (hid : id < 2)
    (hfits : n + 2 ≤ capacity s.segments) (h : HeapOk s segs (n + 2) id b)
    (hdt : dt ∈ b '' Positions (n + 2) id) :
    ∃ t c, removeFrom s dt n id = some t ∧ HeapOk t segs n id c ∧
      c '' Positions n id = b '' Positions (n + 2) id \ {dt} ∧
      Frame s t segs id (b '' Positions (n + 2) id \ {dt}) := by
  have hpos := positions_add_two hn hid
  have hlast : n + id ∈ Positions (n + 2) id := by
    rw [hpos]
    exact Set.mem_insert _ _
  have hsub : Positions n id ⊆ Positions (n + 2) id := fun _ hj =>
    ⟨hj.1.trans (by omega), hj.2⟩
  obtain ⟨u, hu, hw⟩ := hlayout.store (show n + id < capacity s.segments by omega) none
  have hload : ∀ j ∈ Positions n id, u.load (slotOf segs j) = some (b j) := fun j hj => by
    rw [hw.load j (by have := hj.1; omega), if_neg (fun he => notMem_positions (he ▸ hj))]
    exact h.slots j (hsub hj)
  have hentry : ∀ j ∈ Positions n id, u.entry (b j) id = some j := fun j hj => by
    rw [hw.entry]
    exact h.entries j (hsub hj)
  have hframe {T : Set τ} : Frame s u segs id T :=
    ⟨hw.layout, hw.count, hw.segments, hw.key, fun j hj hne => by
      rw [hw.load j hj, if_neg]
      rintro rfl
      exact hne hlast.2, fun _ _ _ => by rw [hw.entry]⟩
  have hslot : getSlot s (n + id) = some (slotOf segs (n + id)) := hlayout.getSlot (by omega)
  obtain ⟨r, hr, rfl⟩ := hdt
  by_cases hlastdt : b (n + id) = b r
  · -- the removed timer is the last one
    refine ⟨u, b, ?_, ⟨hload, hentry, fun j hj p hp => ?_⟩, ?_, hframe⟩
    · simp [removeFrom, hslot, h.slots _ hlast, hu, hlastdt]
    · rw [hw.key]
      exact h.order j (hsub hj) p hp
    · rw [← hlastdt]
      exact image_positions_diff hn hid h.injOn
  · have hr' : r ∈ Positions n id := by
      rw [hpos] at hr
      exact hr.resolve_left fun he => hlastdt (by rw [he])
    -- the last timer takes the place of the removed one
    have hex : Rearranges (Positions (n + 2) id) b (exchange b r (n + id)) := .exchange hr hlast
    have himage : exchange b r (n + id) '' Positions n id = b '' Positions (n + 2) id \ {b r} := by
      rw [image_positions_diff hn hid (hex.injOn h.injOn), exchange_right, hex.image_eq]
    have hold : ∀ j ∈ Positions n id, j ≠ r → exchange b r (n + id) j = b j := fun j hj hne =>
      exchange_of_ne b hne fun he => notMem_positions (he ▸ hj)
    have hcount' : u.count = n := hw.count.trans hcount
    have hhole : Hole u segs id (exchange b r (n + id)) r := by
      refine ⟨hw.layout, ?_, ?_, ?_, ?_, ?_⟩ <;> rw [hcount']
      · rw [hw.segments]
        omega
      · exact hr'
      · exact (hex.injOn h.injOn).mono hsub
      · intro j hj hne
        rw [hold j hj hne]
        exact hload j hj
      · intro j hj hne
        rw [hold j hj hne]
        exact hentry j hj
    have hnear : NearHeap parentOf (Positions u.count id) (u.key · id)
        (exchange b r (n + id)) r := by
      rw [hcount', hw.key]
      have horder : IsHeap parentOf (Positions n id) (s.key · id) b := fun j hj p hp =>
        h.order j (hsub hj) p hp
      exact horder.nearHeap parentOf_lt hr' parentOf_mem fun j hj hne => by
        simp only [hold j hj hne]
    obtain ⟨t, c, ht, hok, himage', hframe'⟩ := resift_spec hhole hnear
    rw [hcount'] at hok
    rw [hcount', himage] at himage' hframe'
    refine ⟨t, c, ?_, hok, himage', hframe.trans hframe'⟩
    rw [exchange_left] at ht
    simp [removeFrom, hslot, h.slots _ hlast, hu, hlastdt, hw.entry, h.entries r hr, ht]

omit [DecidableEq τ] in
/-- The segment that a removal frees when the remaining indices fit without it. -/
theorem releaseRoom (hlayout : Layout s segs) (hfour : 2 ≤ n) (hfits : n + 2 ≤ capacity s.segments)
    (hused : ∀ m, s.segments = m + 1 → capacity m < n + 2) :
    ∃ t, (if n ≤ capacity (s.segments - 1) then shrink s else some s) = some t ∧
      Layout t segs ∧ t.count = s.count ∧ t.entry = s.entry ∧ t.key = s.key ∧
      n ≤ capacity t.segments ∧ (∀ m, t.segments = m + 1 → capacity m < n) ∧
      ∀ j < n, t.load (slotOf segs j) = s.load (slotOf segs j) := by
  obtain ⟨m, hm⟩ : ∃ m, s.segments = m + 1 :=
    Layout.segments_ne_zero (by omega) le_rfl
  by_cases hroom : n ≤ capacity (s.segments - 1)
  · rw [hm, Nat.add_sub_cancel] at hroom
    obtain ⟨t, ht, hr⟩ := hlayout.shrink hm
    refine ⟨t, ?_, hr.layout, hr.count, hr.entry, hr.key, by rw [hr.segments]; exact hroom,
      fun k hk => ?_, fun j hj => hr.load j (by omega) (by omega)⟩
    · rw [hm, Nat.add_sub_cancel, if_pos hroom, ht]
    · rw [hr.segments] at hk
      subst hk
      have := hused _ hm
      have := capacity_add_two_le k
      omega
  · refine ⟨s, if_neg hroom, hlayout, rfl, rfl, rfl, by omega, fun k hk => ?_, fun _ _ => rfl⟩
    rw [hk, Nat.add_sub_cancel] at hroom
    omega

theorem clearHeapEntry_entry (s : State τ) (dt dt' : τ) (hid : id < 2) :
    (clearHeapEntry s dt).entry dt' id = if dt' = dt then none else s.entry dt' id := by
  have : id = 0 ∨ id = 1 := by omega
  by_cases hdt : dt' = dt
  · rcases this with rfl | rfl <;> simp [clearHeapEntry, setEntry_entry]
  · simp [clearHeapEntry, setEntry_entry, hdt]

/-- The last timer leaves `dth_min`. -/
theorem remove_last (h2 : s.count = 2) (dt : τ) :
    ∃ t, remove s dt = some t ∧ t.count = 0 ∧ t.segments = s.segments ∧ t.heap = s.heap ∧
      t.memory = s.memory ∧ (∀ id < 2, t.min id = none) ∧
      ∀ dt', ∀ id < 2, t.entry dt' id = if dt' = dt then none else s.entry dt' id := by
  refine ⟨clearHeapEntry { s with
      count := s.count - idCount
      min := Function.update (Function.update s.min 1 none) 0 none } dt,
    by exact if_pos (by rw [h2]; rfl), ?_, rfl, rfl, rfl, forall_id ?_ ?_,
    fun dt' id hid => ?_⟩
  · show s.count - 2 = 0
    rw [h2]
  · simp [clearHeapEntry, State.setEntry]
  · simp [clearHeapEntry, State.setEntry]
  · rw [clearHeapEntry_entry _ _ _ hid]

/-- The other timers leave both heaps. -/
theorem remove_more (h0 : s.count - idCount ≠ 0)
    (hu : removeFrom { s with count := s.count - idCount } dt (s.count - idCount) 0 = some u)
    (hv : removeFrom u dt (s.count - idCount) 1 = some v)
    (ht : (if s.count - idCount ≤ capacity (v.segments - 1) then shrink v else some v) = some t) :
    remove s dt = some (clearHeapEntry t dt) := by
  refine (if_neg h0).trans ?_
  simp only [hu, hv, bind_eq_bind, bind_some]
  split_ifs at ht with hroom
  · simp only [if_pos hroom, ht, bind_some]
  · obtain rfl := some.inj ht
    simp only [if_neg hroom]

include h in
theorem remove_spec (hdt : dt ∈ live) :
    ∃ t segs' b', remove s dt = some t ∧ Represents t segs' b' (live \ {dt}) := by
  have hdt' : ∀ id < 2, dt ∈ b id '' Positions s.count id := fun id hid => by
    rw [h.members id hid]
    exact hdt
  have heven := h.even
  obtain ⟨n, hn⟩ : ∃ n, s.count = n + 2 := by
    obtain ⟨j, hj, -⟩ := hdt' 0 (by omega)
    exact ⟨s.count - 2, by have := hj.1; omega⟩
  by_cases h0 : n = 0
  · subst h0
    obtain ⟨t, ht, hcount, hseg, hheap, hmem, hmin, hentry⟩ := remove_last hn dt
    obtain rfl : live = {dt} := by
      rw [← h.members 0 (by omega), hn, positions_add_two rfl (by omega), positions_zero,
        insert_empty_eq, Set.image_singleton] at hdt ⊢
      rw [Set.mem_singleton_iff.mp hdt]
    rw [sdiff_self]
    refine ⟨t, segs, b, ht, represents_empty b hcount (h.layout.congr hseg hheap hmem)
      (hseg.trans (h.segments_eq_zero (by omega))) hmin fun dt' id hid => ?_⟩
    rw [hentry dt' id hid]
    split_ifs with he
    · rfl
    · exact h.idle dt' he id hid
  · have hfits := h.fits
    have hok : ∀ id < 2, HeapOk { s with count := s.count - idCount } segs (n + 2) id (b id) :=
      fun id hid => by
        have := h.heaps id hid
        rw [hn] at this
        exact this.congr (fun _ _ => rfl) (fun _ _ => rfl) (fun _ _ => rfl)
    have hcount : s.count - idCount = n := by rw [hn]; rfl
    rw [hn] at hdt' hfits
    obtain ⟨u, v, c, hu, hv, hvlayout, hvcount, hsegments, -, hokc, himage, hentry⟩ :=
      bothHeaps (f := fun u id => removeFrom u dt n id) (m := n) (T := live \ {dt})
        (s := { s with count := s.count - idCount }) (h.layout.congr rfl rfl rfl) hfits
        ((Nat.le_add_right n 2).trans hfits) hok fun id hid w hlayout hcount' hsegments hkey hokw => by
          rw [← h.members id hid, hn]
          exact removeFrom_spec hlayout (hcount'.trans hcount) (by omega) hid
            (by rw [hsegments]; exact hfits) (by rw [← hkey] at hokw; exact hokw) (hdt' id hid)
    obtain ⟨t, ht, hlayout, htcount, htentry, htkey, htfits, htused, htload⟩ :=
      releaseRoom (n := n) hvlayout (by omega) (by rw [hsegments]; exact hfits)
        (by rw [hsegments, ← hn]; exact h.used)
    have hcount' : t.count = n := by rw [htcount, hvcount]; exact hcount
    have hclear : ∀ id < 2, HeapOk (clearHeapEntry t dt) segs n id (c id) := by
      intro id hid
      refine (hokc id hid).congr (fun j hj => htload j hj.1) (fun j hj => ?_) (fun _ _ => ?_)
      · rw [clearHeapEntry_entry _ _ _ hid, if_neg, htentry]
        have : c id j ∈ live \ {dt} := himage id hid ▸ ⟨j, hj, rfl⟩
        exact this.2
      · show t.key _ _ = _
        rw [htkey]
    refine ⟨clearHeapEntry t dt, segs, c, remove_more (by rw [hcount]; exact h0)
      (by rw [hcount] at hu ⊢; exact hu) (by rw [hcount]; exact hv) (by rw [hcount]; exact ht),
      represents_of_count hcount' (hlayout.congr rfl rfl rfl) (by omega) h0 htfits htused hclear
        himage fun dt' hdt' id hid => ?_⟩
    rw [clearHeapEntry_entry _ _ _ hid]
    split_ifs with he
    · rfl
    · rw [htentry, hentry dt' hdt']
      exact h.idle dt' (fun hl => hdt' ⟨hl, he⟩) id hid

/-! ## Update -/

/-- `resift` of a timer whose key has changed; `k` has the keys before. -/
theorem updateIn {r : ℕ} {b : ℕ → τ} (hlayout : Layout s segs)
    (hcount : s.count = n) (hfits : n ≤ capacity s.segments) (hr : r ∈ Positions n id)
    (hdt : b r = dt) (h : HeapOk { s with key := k } segs n id b)
    (hkey : ∀ dt' ≠ dt, s.key dt' = k dt') : ∃ t c, resift s dt r = some t ∧ HeapOk t segs n id c ∧
      c '' Positions n id = b '' Positions n id ∧ Frame s t segs id (b '' Positions n id) := by
  subst hcount
  have hhole : Hole s segs id b r :=
    ⟨hlayout, hfits, hr, h.injOn, fun j hj _ => h.slots j hj, fun j hj _ => h.entries j hj⟩
  have hnear : NearHeap parentOf (Positions s.count id) (s.key · id) b r :=
    h.order.nearHeap parentOf_lt hr parentOf_mem fun j hj hne => by
      rw [hkey]
      rw [← hdt]
      exact fun he => hne (h.injOn hj hr he)
  rw [← hdt]
  exact resift_spec hhole hnear

include h in
theorem update_spec (hdt : dt ∈ live) (key : ℕ → ℕ) :
    ∃ t b', update (s.setKey dt key) dt = some t ∧ Represents t segs b' live := by
  have hkey : ∀ dt' ≠ dt, (s.setKey dt key).key dt' = s.key dt' := fun dt' hne =>
    update_of_ne hne _ _
  have hfind : ∀ id < 2, ∃ r ∈ Positions s.count id, b id r = dt := fun id hid => by
    rw [← h.members id hid] at hdt
    exact hdt
  obtain ⟨u, t, c, hu, ht, hlayout, hcount, hsegments, -, hok, himage, hentry⟩ :=
    bothHeaps (f := fun u id => (u.entry dt id).bind (resift u dt)) (s := s.setKey dt key)
      (T := live) (h.layout.congr rfl rfl rfl) h.fits h.fits h.heaps
      fun id hid u hlayout hcount hsegments hkey' hok => by
        obtain ⟨r, hr, hbr⟩ := hfind id hid
        have hentry : u.entry dt id = some r := hbr ▸ hok.entries r hr
        rw [hentry, ← h.members id hid]
        exact updateIn hlayout hcount (by rw [hsegments]; exact h.fits) hr hbr hok
          fun dt' hne => by rw [hkey']; exact hkey dt' hne
  have hpos : s.count ≠ 0 := by
    obtain ⟨r, hr, -⟩ := hfind 0 (by omega)
    have := hr.1
    omega
  refine ⟨t, c, ?_, represents_of_count hcount hlayout h.even hpos (by rw [hsegments]; exact h.fits)
    (by rw [hsegments]; exact h.used) hok himage fun dt' hdt' id hid => ?_⟩
  · obtain ⟨r, hr, hu⟩ := bind_eq_some_iff.mp hu
    obtain ⟨q, hq, ht⟩ := bind_eq_some_iff.mp ht
    simp [update, hr, hu, hq, ht]
  · rw [hentry dt' hdt']
    exact h.idle dt' hdt' id hid

/-! ## Runs -/

theorem inserted_insert :
    Inserted dt' (calls ++ [.insert dt key a]) ↔ dt' = dt ∨ Inserted dt' calls := by
  simp only [Inserted, Lib.since_snoc, Bool.false_eq_true, if_false, Bool.or_eq_true,
    decide_eq_true_eq]
  rw [or_comm, eq_comm]

theorem inserted_update : Inserted dt' (calls ++ [.update dt key]) ↔ Inserted dt' calls := by
  simp [Inserted, Lib.since_snoc]

theorem inserted_remove : Inserted dt' (calls ++ [.remove dt]) ↔ Inserted dt' calls ∧ dt' ≠ dt := by
  by_cases hdt : dt = dt'
  · simp [Inserted, Lib.since_snoc, hdt]
  · simp [Inserted, Lib.since_snoc, hdt, Ne.symm hdt]

/-- Each call keeps the heap, for the timers that are then inserted, and does not fault. -/
theorem perform_spec
    (h : Represents s segs b {dt | Inserted dt calls}) {call : Call τ} (hallowed : Allowed s call) :
    ∃ t segs' b', perform s call = some t ∧
      Represents t segs' b' {dt | Inserted dt (calls ++ [call])} := by
  cases call with
  | insert dt key a =>
    have hdt : dt ∉ {dt | Inserted dt calls} := fun hl =>
      (h.entry_ne_none (by omega)).mp hl hallowed.1
    obtain ⟨t, segs', b', ht, hrep⟩ := insert_spec h hdt hallowed.2.2 key
    refine ⟨t, segs', b', ht, ?_⟩
    simp only [inserted_insert]
    exact hrep
  | update dt key =>
    have hdt : dt ∈ {dt | Inserted dt calls} := (h.entry_ne_none (by omega)).mpr hallowed.1
    obtain ⟨t, b', ht, hrep⟩ := update_spec h hdt key
    refine ⟨t, segs, b', ht, ?_⟩
    simp only [inserted_update]
    exact hrep
  | remove dt =>
    have hdt : dt ∈ {dt | Inserted dt calls} := (h.entry_ne_none (by omega)).mpr hallowed.1
    obtain ⟨t, segs', b', ht, hrep⟩ := remove_spec h hdt
    refine ⟨t, segs', b', ht, ?_⟩
    simp only [inserted_remove]
    exact hrep

end Calls

/-- The timer that the code finds at an index. -/
def timerAt (s : State τ) (idx : ℕ) : Option τ := (getSlot s idx).bind s.load

/-- Two min-heaps of the timers `live`: every index holds one of them, in heap order of the key of
its heap; each is at one index of each heap, which is its `dt_heap_entry`; `dth_min` is the
timer with the smallest key. -/
structure IsDoubleHeap (s : State τ) (live : Set τ) : Prop where
  slots : ∀ idx < s.count, ∃ dt ∈ live, timerAt s idx = some dt
  order : ∀ idx < s.count, 2 ≤ idx → ∀ p dt, timerAt s (parent idx) = some p →
    timerAt s idx = some dt → s.key p (heapId idx) ≤ s.key dt (heapId idx)
  once : ∀ dt ∈ live, ∀ id < 2, ∃! idx, idx < s.count ∧ heapId idx = id ∧ timerAt s idx = some dt
  entry : ∀ dt ∈ live, ∀ id < 2, ∃ idx, s.entry dt id = some idx ∧ idx < s.count ∧
    heapId idx = id ∧ timerAt s idx = some dt
  min : ∀ id < 2, (s.min id = none → live = ∅) ∧
    ∀ m, s.min id = some m → m ∈ live ∧ ∀ dt ∈ live, s.key m id ≤ s.key dt id

/-- The last cells of the last segment, one for each older segment. -/
def BackPointer (s : State τ) (slot : Slot) : Prop :=
  ∃ heap j, s.heap = some heap ∧ j + 1 < s.segments ∧
    slot = .cell heap (segCapacity (s.segments - 1) - (j + 1))

/-- The indices below the capacity have distinct slots, none of which is a cell with the address
of a segment. -/
structure SlotsApart (s : State τ) : Prop where
  slot : ∀ idx < capacity s.segments, ∃ slot, getSlot s idx = some slot ∧ ¬ BackPointer s slot
  injective : ∀ i < capacity s.segments, ∀ j < capacity s.segments,
    getSlot s i = getSlot s j → i = j
  pointer : ∀ slot, BackPointer s slot →
    ∃ heap i a, slot = .cell heap i ∧ s.cell heap i = some (.segment a)
  fits : s.count ≤ capacity s.segments

theorem Layout.slotsApart (h : Layout s segs)
    (hfits : s.count ≤ capacity s.segments) : SlotsApart s where
  slot idx hidx := by
    refine ⟨_, h.getSlot hidx, ?_⟩
    rintro ⟨heap, j, hheap, hj, hslot⟩
    have hlast := h.heap_eq (show s.segments = s.segments - 1 + 1 by omega)
    rw [hheap, some.injEq] at hlast
    subst hlast
    exact h.slotOf_ne_pointer hidx hj hslot
  injective i hi j hj he := by
    rw [h.getSlot hi, h.getSlot hj, some.injEq] at he
    exact slotOf_injective h.distinct hi hj he
  pointer slot hslot := by
    obtain ⟨heap, j, hheap, hj, rfl⟩ := hslot
    have hlast := h.heap_eq (show s.segments = s.segments - 1 + 1 by omega)
    rw [hheap, some.injEq] at hlast
    subst hlast
    exact ⟨_, _, _, rfl, h.pointers j hj⟩
  fits := hfits

namespace Represents

variable {s : State τ} {segs : ℕ → Address} {b : ℕ → ℕ → τ} {live : Set τ}

theorem timerAt_eq (h : Represents s segs b live) {idx : ℕ} (hidx : idx < s.count) :
    timerAt s idx = some (b (idx % 2) idx) := by
  rw [timerAt, h.layout.getSlot (hidx.trans_le h.fits)]
  exact (h.heaps (idx % 2) (by omega)).slots idx ⟨hidx, rfl⟩

theorem isDoubleHeap (h : Represents s segs b live) : IsDoubleHeap s live where
  slots idx hidx := by
    refine ⟨_, ?_, h.timerAt_eq hidx⟩
    rw [← h.members (idx % 2) (by omega)]
    exact ⟨idx, ⟨hidx, rfl⟩, rfl⟩
  order idx hidx h2 p dt hp hdt := by
    have hpar : parentOf idx = some (parent idx) := if_pos h2
    have hmem := parentOf_mem idx ⟨hidx, rfl⟩ _ hpar
    rw [h.timerAt_eq hmem.1, hmem.2, some.injEq] at hp
    rw [h.timerAt_eq hidx, some.injEq] at hdt
    rw [← hp, ← hdt, heapId_eq]
    exact (h.heaps (idx % 2) (by omega)).order idx ⟨hidx, rfl⟩ _ hpar
  once dt hdt id hid := by
    rw [← h.members id hid] at hdt
    obtain ⟨j, hj, rfl⟩ := hdt
    refine ⟨j, ⟨hj.1, (heapId_eq j).trans hj.2, ?_⟩, ?_⟩
    · rw [h.timerAt_eq hj.1, hj.2]
    · rintro k ⟨hk, hkid, hkt⟩
      rw [heapId_eq] at hkid
      rw [h.timerAt_eq hk, hkid, some.injEq] at hkt
      exact (h.heaps id hid).injOn ⟨hk, hkid⟩ hj hkt
  entry dt hdt id hid := by
    rw [← h.members id hid] at hdt
    obtain ⟨j, hj, rfl⟩ := hdt
    refine ⟨j, (h.heaps id hid).entries j hj, hj.1, (heapId_eq j).trans hj.2, ?_⟩
    rw [h.timerAt_eq hj.1, hj.2]
  min id hid := by
    by_cases h0 : s.count = 0
    · refine ⟨fun _ => ?_, fun m hm => ?_⟩
      · rw [← h.members id hid, h0, positions_zero, Set.image_empty]
      · rw [h.null h0 id hid] at hm
        cases hm
    · have heven := h.even
      have hroot : id ∈ Positions s.count id := ⟨by omega, by omega⟩
      have hmin : s.min id = some (b id id) := by
        have := (h.heaps id hid).slots id hroot
        rwa [slotOf_min hid] at this
      refine ⟨fun hnone => ?_, fun m hm => ?_⟩
      · rw [hmin] at hnone
        cases hnone
      · obtain rfl : b id id = m := some.inj (hmin.symm.trans hm)
        rw [← h.members id hid]
        refine ⟨⟨id, hroot, rfl⟩, ?_⟩
        rintro dt ⟨j, hj, rfl⟩
        refine (h.heaps id hid).order.root_le parentOf_lt parentOf_mem (fun k hk hnone => ?_) hj
        have hk2 : ¬ 2 ≤ k := fun h2 => by
          rw [parentOf, if_pos h2] at hnone
          cases hnone
        have := hk.2
        omega

end Represents

instance [DecidableEq τ] (s : State τ) : (call : Call τ) → Decidable (Allowed s call)
  | .insert dt _ heap =>
    inferInstanceAs (Decidable (s.entry dt 0 = none ∧ s.entry dt 1 = none ∧ s.memory heap = none))
  | .update dt _ => inferInstanceAs (Decidable (s.entry dt 0 ≠ none ∧ s.entry dt 1 ≠ none))
  | .remove dt => inferInstanceAs (Decidable (s.entry dt 0 ≠ none ∧ s.entry dt 1 ≠ none))

/-- A call that is allowed, performed. -/
def next [DecidableEq τ] (s : State τ) (call : Call τ) : Option (State τ) :=
  if Allowed s call then perform s call else none

theorem step_of_next [DecidableEq τ] (s : State τ) (call : Call τ) (t : State τ)
    (h : next s call = some t) : Step s call t := by
  unfold next at h
  split_ifs at h with hallowed
  exact ⟨hallowed, h⟩

/-- Six timers, enough for a second segment, of which one gets a new key and one is removed. -/
def sixTimers : List (Call (Fin 6)) :=
  [.insert 0 (fun _ => 9) 10, .insert 1 (fun id => 4 - id) 10, .insert 2 (fun id => 7 + id) 11,
    .insert 3 (fun _ => 5) 12, .insert 4 (fun id => 2 * id) 13, .insert 5 (fun _ => 1) 14,
    .update 3 (fun id => 8 * id), .remove 4]

end Apple.Dispatch.TimerHeap
