import Mathlib.Data.List.Basic
import Apple.CF.ArrayDeque

/-!
# `CFMutableArray` is a sequence

Every sequence of `CFArrayReplaceValues`, append, insert, remove and remove-all calls on a new
mutable array, against the same splices of a list. `Gap d l …` is what holds while a range of `l`
is being replaced: the elements before and after it are in their places around the gap.

Results:
* `replaceValues_spec`: one splice, with its callbacks.
* `array_refines`: a whole run.
* `reposition_capacity_iff`, `setCapacity_iff`: when the memory is large enough.
-/

namespace Apple.CF.ArrayDeque

open Lib.BufferMoves List Option

variable {τ : Type}

/-! ## What the deque holds -/

/-- The deque holds the list `l`. -/
structure Holds (d : Deque τ) (l : List τ) : Prop where
  size : d.buckets.length = d.capacity
  capacity_le : d.capacity ≤ 2 ^ 30
  fits : d.leftIdx + l.length ≤ d.capacity
  items : ∀ i < l.length, d.buckets[d.leftIdx + i]? = some l[i]?

/-- The deque holds `l` with room for `n` values in the place of the range. -/
structure Gap (d : Deque τ) (l : List τ) (location length n : ℕ) : Prop where
  size : d.buckets.length = d.capacity
  capacity_le : d.capacity ≤ 2 ^ 30
  fits : d.leftIdx + (l.length - length + n) ≤ d.capacity
  before : ∀ i < location, d.buckets[d.leftIdx + i]? = some l[i]?
  after : ∀ j, location + length + j < l.length →
    d.buckets[d.leftIdx + location + n + j]? = some l[location + length + j]?

/-- The array is the list `l`. -/
structure Rep (a : CFArray τ) (l : List τ) : Prop where
  count : a.count = l.length
  holds : ∀ d, a.store = some d → Holds d l
  empty : a.store = none → l = []

/-- The buckets of the elements. -/
def contents (a : CFArray τ) : List (Option τ) :=
  match a.store with
  | none => []
  | some d => (d.buckets.drop d.leftIdx).take a.count

theorem rep_createMutable : Rep (createMutable : CFArray τ) [] where
  count := rfl
  holds _ hd := by cases hd
  empty _ := rfl

variable {a : CFArray τ} {l : List τ} {d : Deque τ} {length location newCount : ℕ}
  {log : List (Event τ)}

theorem Rep.contents_eq (h : Rep a l) : contents a = l.map some := by
  unfold contents
  cases hs : a.store with
  | none => rw [h.empty hs, map_nil]
  | some d =>
    have hd := h.holds d hs
    refine ext_getElem? fun i => ?_
    rw [getElem?_map]
    by_cases hi : i < l.length
    · rw [getElem?_take_of_lt (h.count ▸ hi), getElem?_drop, hd.items i hi,
        getElem?_eq_getElem hi, map_some]
    · rw [getElem?_eq_none (by rw [length_take, h.count]; omega),
        getElem?_eq_none (not_lt.mp hi), map_none]

/-! ## Releasing a range -/

/-- The values released by some events. -/
def released (events : List (Event τ)) : List τ :=
  events.filterMap fun e => match e with
    | .release value _ => some value
    | _ => none

/-- The values retained by some events. -/
def retained (events : List (Event τ)) : List τ :=
  events.filterMap fun e => match e with
    | .retain value => some value
    | _ => none

/-- A released value is still in the array, and the moves write over no element that is not
moved yet. -/
def Event.Ok : Event τ → Prop
  | .retain _ => True
  | .release value array => some value ∈ contents array
  | .reposition array location length writes => ∀ d, array.store = some d →
    ∀ k, Live d.leftIdx location length (array.count - length - location) k → Spares writes k

/-- What the events of a call retain and release, all of them in order. -/
structure Effects (events : List (Event τ)) (entered left : List τ) : Prop where
  retained : retained events = entered
  released : released events = left
  ok : ∀ e ∈ events, e.Ok

theorem effects_nil : Effects ([] : List (Event τ)) [] [] := ⟨rfl, rfl, fun _ he => by cases he⟩

theorem Effects.append {es es' : List (Event τ)} {vs vs' ws ws' : List τ} (h : Effects es vs ws)
    (h' : Effects es' vs' ws') : Effects (es ++ es') (vs ++ vs') (ws ++ ws') where
  retained := by rw [ArrayDeque.retained, filterMap_append, ← h.retained, ← h'.retained]; rfl
  released := by rw [ArrayDeque.released, filterMap_append, ← h.released, ← h'.released]; rfl
  ok := forall_mem_append.mpr ⟨h.ok, h'.ok⟩

theorem length_region {α : Type} {l : List α} {n m : ℕ} (h : n + m ≤ l.length) :
    ((l.drop n).take m).length = m := by
  rw [length_take, length_drop]
  omega

variable (cb : CallBacks τ)

theorem releaseLoop_spec (array : CFArray τ) (vs : List τ) (idx : ℕ)
    (hitems : ∀ j < vs.length, d.buckets[idx + j]? = some vs[j]?)
    (hlo : d.leftIdx ≤ idx) (hhi : idx + vs.length ≤ d.leftIdx + array.count) :
    ∃ d' events, releaseLoop cb array vs.length idx d = some (d', events) ∧
      d'.leftIdx = d.leftIdx ∧ d'.capacity = d.capacity ∧ d'.buckets.length = d.buckets.length ∧
      (∀ k, ¬ (idx ≤ k ∧ k < idx + vs.length) → d'.buckets[k]? = d.buckets[k]?) ∧
      Effects events [] (if cb.release then vs else []) := by
  induction vs generalizing idx d with
  | nil =>
    refine ⟨d, [], rfl, rfl, rfl, rfl, fun k _ => rfl, ?_⟩
    rw [ite_self]
    exact effects_nil
  | cons v vs ih =>
    have hv : d.buckets[idx]? = some (some v) := hitems 0 (Nat.succ_pos _)
    have hlt : idx < d.buckets.length := (List.getElem?_eq_some_iff.mp hv).1
    rw [length_cons] at hhi
    obtain ⟨d', events, hloop, hleft, hcap, hlen, hother, heffects⟩ :=
      ih (idx + 1) (d := { d with buckets := d.buckets.set idx none }) (fun j hj => by
        have hnext := hitems (j + 1) (Nat.succ_lt_succ hj)
        rw [getElem?_cons_succ, ← add_assoc] at hnext
        rw [getElem?_set_ne (by omega), show idx + 1 + j = idx + j + 1 by omega, hnext])
        (by show d.leftIdx ≤ idx + 1; omega)
        (by show idx + 1 + vs.length ≤ d.leftIdx + array.count; omega)
    have hin : some v ∈ contents { array with store := some d } := by
      refine mem_iff_getElem?.mpr ⟨idx - d.leftIdx, ?_⟩
      show ((d.buckets.drop d.leftIdx).take array.count)[idx - d.leftIdx]? = some (some v)
      rw [getElem?_take_of_lt (by omega), getElem?_drop,
        show d.leftIdx + (idx - d.leftIdx) = idx by omega, hv]
    have hsame : ∀ k, ¬ (idx ≤ k ∧ k < idx + (vs.length + 1)) →
        d'.buckets[k]? = d.buckets[k]? := fun k hk => by
      rw [hother k (by omega)]
      exact getElem?_set_ne (by omega)
    rw [length_set] at hlen
    rw [length_cons, releaseLoop, releaseValue, if_pos hlt]
    by_cases hrel : cb.release
    · refine ⟨d', .release v { array with store := some d } :: events, ?_, hleft, hcap, hlen,
        hsame, ?_⟩
      · simp [hrel, hv, hloop]
      · rw [if_pos hrel] at heffects ⊢
        exact ⟨heffects.retained, congrArg (v :: ·) heffects.released,
          forall_mem_cons.mpr ⟨hin, heffects.ok⟩⟩
    · refine ⟨d', events, ?_, hleft, hcap, hlen, hsame, ?_⟩
      · simp [hrel, hloop]
      · rw [if_neg hrel] at heffects ⊢
        exact heffects

/-- The release of the range of `_CFArrayReplaceValues`. -/
theorem releaseRange_spec (h : Rep a l) (hrange : location + length ≤ l.length) :
    ∃ a' events, releaseRange cb a location length = some (a', events) ∧ a'.count = a.count ∧
      (∀ d, a'.store = some d → Gap d l location length length) ∧ (a'.store = none → l = []) ∧
      Effects events [] (if cb.release then (l.drop location).take length else []) := by
  unfold releaseRange
  by_cases h0 : 0 < length
  · cases hs : a.store with
    | none =>
      rw [h.empty hs, length_nil] at hrange
      omega
    | some d =>
      have hd := h.holds d hs
      have hfits := hd.fits
      have hlen := length_region hrange
      obtain ⟨d', events, hloop, hleft, hcap, hsize, hother, heffects⟩ :=
        releaseLoop_spec cb a ((l.drop location).take length) (d.leftIdx + location)
          (fun j hj => by
            rw [hlen] at hj
            rw [add_assoc, hd.items _ (by omega), getElem?_take_of_lt hj,
              getElem?_drop])
          (by omega) (by rw [h.count]; omega)
      rw [hlen] at hloop hother
      refine ⟨{ a with store := some d' }, events, ?_, rfl, ?_, ?_, heffects⟩
      · rw [if_pos h0, releaseValues, hs]
        simp [hloop]
      · intro d₁ hd₁
        obtain rfl : d' = d₁ := some.inj hd₁
        refine ⟨?_, ?_, ?_, fun i hi => ?_, fun j hj => ?_⟩
        · rw [hsize, hcap, hd.size]
        · rw [hcap]
          exact hd.capacity_le
        · omega
        · rw [hleft, hother _ (by omega), hd.items i (by omega)]
        · rw [hleft, hother _ (by omega), add_assoc, add_assoc, ← add_assoc location,
            hd.items _ hj]
      · intro hnone
        cases hnone
  · have h0' : length = 0 := by omega
    refine ⟨a, [], if_neg h0, rfl, fun d hs => ?_, h.empty, ?_⟩
    · have hd := h.holds d hs
      have hfits := hd.fits
      refine ⟨hd.size, hd.capacity_le, by omega, fun i hi => hd.items i (by omega),
        fun j hj => ?_⟩
      rw [h0'] at hj ⊢
      rw [add_zero, add_zero, add_assoc, hd.items _ (by omega)]
    · rw [h0', take_zero, ite_self]
      exact effects_nil

/-! ## Making room -/

/-- New memory that is large enough takes both regions. -/
theorem reallocate_eq_some {A B C futureCnt wiggle capacity : ℕ}
    (hround : dequeRoundUpCapacity (futureCnt + wiggle) = some capacity) (hle : futureCnt ≤ capacity)
    (hfuture : futureCnt = A + newCount + C) (hsize : d.leftIdx + A + B + C ≤ d.buckets.length) :
    ∃ b₁ b₂, overwrite (List.replicate capacity none) ((capacity - futureCnt) / 2)
        ((d.buckets.drop d.leftIdx).take A) = some b₁ ∧
      overwrite b₁ ((capacity - futureCnt) / 2 + A + newCount)
        ((d.buckets.drop (d.leftIdx + A + B)).take C) = some b₂ ∧ b₂.length = capacity ∧
      reallocate d A B C newCount futureCnt wiggle =
        some ⟨(capacity - futureCnt) / 2, capacity, b₂⟩ := by
  have hA := length_region (l := d.buckets) (n := d.leftIdx) (m := A) (by omega)
  have hC := length_region hsize
  obtain ⟨b₁, hfirst⟩ : ∃ b₁, overwrite (List.replicate capacity none)
      ((capacity - futureCnt) / 2) ((d.buckets.drop d.leftIdx).take A) = some b₁ :=
    ⟨_, overwrite_eq_some (by rw [length_replicate]; omega)⟩
  have hlen₁ := overwrite_length hfirst
  rw [length_replicate] at hlen₁
  obtain ⟨b₂, hsecond⟩ : ∃ b₂, overwrite b₁ ((capacity - futureCnt) / 2 + A + newCount)
      ((d.buckets.drop (d.leftIdx + A + B)).take C) = some b₂ :=
    ⟨_, overwrite_eq_some (by omega)⟩
  refine ⟨b₁, b₂, hfirst, hsecond, (overwrite_length hsecond).trans hlen₁, ?_⟩
  simp [reallocate, hround, hfirst, hsecond]

section

variable (hlt : l.length - length + newCount < 2 ^ 29)
include hlt

/-- New memory. -/
theorem reallocate_spec {wiggle : ℕ}
    (hg : Gap d l location length length) (hrange : location + length ≤ l.length)
    (hw : wiggle ≤ 2 ^ 13) :
    ∃ d', reallocate d location length (l.length - length - location) newCount
        (l.length - length + newCount) wiggle = some d' ∧ Gap d' l location length newCount := by
  have hsize := hg.size
  have hfits := hg.fits
  obtain ⟨capacity, hround, hle, hcap⟩ := dequeRoundUpCapacity_spec
    (n := l.length - length + newCount + wiggle) (by omega)
  obtain ⟨b₁, b₂, hfirst, hsecond, hlen, hre⟩ := reallocate_eq_some (d := d) hround (by omega)
    (show _ = location + newCount + (l.length - length - location) by omega)
    (show _ + _ + length + _ ≤ _ by omega)
  have hA := length_region (l := d.buckets) (n := d.leftIdx) (m := location) (by omega)
  have hC := length_region (l := d.buckets) (n := d.leftIdx + location + length)
    (m := l.length - length - location) (by omega)
  refine ⟨_, hre, hlen, hcap, ?_, fun i hi => ?_, fun j hj => ?_⟩
  · show (capacity - (l.length - length + newCount)) / 2 + (l.length - length + newCount) ≤
      capacity
    omega
  · show b₂[(capacity - (l.length - length + newCount)) / 2 + i]? = _
    rw [overwrite_getElem? hsecond, if_neg (by omega), overwrite_getElem? hfirst,
      if_pos (by omega), Nat.add_sub_cancel_left, getElem?_take_of_lt hi, getElem?_drop,
      hg.before i hi]
  · show b₂[(capacity - (l.length - length + newCount)) / 2 + location + newCount + j]? = _
    rw [overwrite_getElem? hsecond, if_pos (by omega), Nat.add_sub_cancel_left,
      getElem?_take_of_lt (by omega), getElem?_drop, hg.after j hj]

/-- **Repositioning** makes the gap as wide as the new values need. -/
theorem reposition_spec (hcount : a.count = l.length) (hs : a.store = some d)
    (hg : Gap d l location length length) (hrange : location + length ≤ l.length) :
    ∃ d' events, repositionDequeRegions a d location length newCount =
        some ({ a with store := some d' }, events) ∧ Gap d' l location length newCount ∧
      Effects events [] [] := by
  have hsize := hg.size
  have hfits := hg.fits
  have hcap := hg.capacity_le
  unfold repositionDequeRegions
  simp only [hcount, Nat.mod_eq_of_lt (show l.length - length + newCount < 2 ^ 32 by omega)]
  have hwiggle : (if d.capacity >>> 17 < 4 then 4 else d.capacity >>> 17) ≤ 2 ^ 13 := by
    split_ifs <;> omega
  generalize (if d.capacity >>> 17 < 4 then 4 else d.capacity >>> 17) = wiggle at hwiggle ⊢
  by_cases hnew : d.capacity < l.length - length + newCount ∨
      (l.length < l.length - length + newCount ∧
        d.leftIdx + (d.capacity - l.length - d.leftIdx) < wiggle)
  · obtain ⟨d', hre, hgap⟩ := reallocate_spec hlt hg hrange hwiggle
    refine ⟨d', [], ?_, hgap, effects_nil⟩
    rw [if_pos hnew, hre, map_some]
  have htotal : d.leftIdx + location + length + (l.length - length - location) +
      (d.capacity - l.length - d.leftIdx) = d.capacity := by omega
  have hplan := planOk_plan (τ := τ) d.leftIdx location length (l.length - length - location)
    (d.capacity - l.length - d.leftIdx) newCount (by omega)
  rw [if_neg hnew]
  generalize plan d.leftIdx location length (l.length - length - location)
    (d.capacity - l.length - d.leftIdx) newCount = p at hplan ⊢
  have hfit := hplan.fits
  have hbounds : ∀ w ∈ p.2, w.InBounds d.buckets.length := by
    rw [hsize, ← htotal]
    exact hplan.inBounds
  obtain ⟨buckets, hexec, hlen⟩ := exec_isSome hbounds
  have hmoved : ∀ k, Live d.leftIdx location length (l.length - length - location) k →
      buckets[goal d.leftIdx location length p.1 newCount k]? = d.buckets[k]? := fun k hk => by
    rw [← hplan.track k hk]
    exact exec_track hexec (hplan.spares k hk)
  refine ⟨_, _, by rw [hexec, map_some], ?_, rfl, rfl, forall_mem_singleton.mpr ?_⟩
  · refine ⟨hlen.trans hsize, hcap, ?_, fun i hi => ?_, fun j hj => ?_⟩
    · show p.1 + (l.length - length + newCount) ≤ d.capacity
      omega
    · have hi' := hmoved (d.leftIdx + i) (.inl (by omega))
      rw [goal, if_pos (by omega), Nat.add_sub_cancel_left, hg.before i hi] at hi'
      exact hi'
    · have hj' := hmoved (d.leftIdx + location + length + j) (.inr (by omega))
      rw [goal, if_neg (by omega), Nat.add_sub_cancel_left, hg.after j hj] at hj'
      exact hj'
  · intro d₁ hd₁ k hk
    obtain rfl := some.inj (hs.symm.trans hd₁)
    rw [hcount] at hk
    exact hplan.spares k hk

theorem makeRoom_spec (hcount : a.count = l.length)
    (hgap : ∀ d, a.store = some d → Gap d l location length length)
    (hempty : a.store = none → l = []) (hrange : location + length ≤ l.length) :
    ∃ d events, makeRoom a location length newCount (l.length - length + newCount) =
        some ({ a with store := some d }, events) ∧ Gap d l location length newCount ∧
      Effects events [] [] := by
  unfold makeRoom
  cases hs : a.store with
  | none =>
    obtain rfl := hempty hs
    rw [length_nil] at hrange
    obtain ⟨capacity, hround, hle, hcap⟩ := dequeRoundUpCapacity_spec
      (n := ([] : List τ).length - length + newCount) (by omega)
    simp only [hround]
    refine ⟨_, [], rfl, ⟨length_replicate, hcap, ?_, fun i hi => by omega,
      fun j hj => by rw [length_nil] at hj; omega⟩, effects_nil⟩
    show (capacity - newCount) / 2 + (([] : List τ).length - length + newCount) ≤ capacity
    rw [length_nil] at hle ⊢
    omega
  | some d =>
    by_cases hne : length ≠ newCount
    · simp only [if_pos hne]
      exact reposition_spec hlt hcount hs (hgap d hs) hrange
    · obtain rfl : length = newCount := not_not.mp hne
      refine ⟨d, [], ?_, hgap d hs, effects_nil⟩
      simp only [if_neg hne, ← hs]

end

theorem copyIn_spec {newv : List τ}
    (hs : a.store = some d) (hg : Gap d l location length newv.length)
    (hrange : location + length ≤ l.length) :
    ∃ d', copyIn a location newv = some { a with store := some d' } ∧
      Holds d' (l.take location ++ (newv ++ l.drop (location + length))) := by
  have hsize := hg.size
  have hfits := hg.fits
  have htake : (l.take location).length = location := by
    rw [length_take]
    omega
  have hlen : (l.take location ++ (newv ++ l.drop (location + length))).length =
      l.length - length + newv.length := by
    rw [length_append, length_append, length_drop]
    omega
  -- the elements around the gap, in terms of the new list
  have hplaces : ∀ i < l.length - length + newv.length,
      ¬ (location ≤ i ∧ i < location + newv.length) →
      d.buckets[d.leftIdx + i]? =
        some (l.take location ++ (newv ++ l.drop (location + length)))[i]? := by
    intro i hi hout
    by_cases hlo : i < location
    · rw [getElem?_append_left (by omega), getElem?_take_of_lt hlo, hg.before i hlo]
    · have hafter := hg.after (i - location - newv.length) (by omega)
      rw [getElem?_append_right (by omega), htake,
        getElem?_append_right (by omega), getElem?_drop, ← hafter]
      congr 1
      omega
  unfold copyIn
  by_cases h0 : 0 < newv.length
  · obtain ⟨b, hb⟩ : ∃ b, overwrite d.buckets (d.leftIdx + location) (newv.map some) = some b :=
      ⟨_, overwrite_eq_some (by rw [length_map]; omega)⟩
    have hblen := overwrite_length hb
    refine ⟨{ d with buckets := b }, ?_, hblen.trans hsize, hg.capacity_le, ?_, fun i hi => ?_⟩
    · simp [if_pos h0, hs, hb]
    · rw [hlen]
      exact hfits
    · rw [hlen] at hi
      show b[d.leftIdx + i]? = _
      rw [overwrite_getElem? hb, length_map]
      by_cases hin : location ≤ i ∧ i < location + newv.length
      · rw [if_pos (by omega), getElem?_append_right (by omega), htake,
          getElem?_append_left (by omega), getElem?_map,
          show d.leftIdx + i - (d.leftIdx + location) = i - location by omega,
          getElem?_eq_getElem (by omega), map_some]
      · rw [if_neg (by omega), hplaces i hi hin]
  · refine ⟨d, by rw [if_neg h0, ← hs], hsize, hg.capacity_le, ?_, fun i hi => ?_⟩
    · rw [hlen]
      exact hfits
    · rw [hlen] at hi
      exact hplaces i hi (by omega)

/-! ## The calls -/

theorem length_stored (values : List τ) : (cb.stored values).length = values.length := by
  unfold CallBacks.stored
  cases cb.retain with
  | none => rfl
  | some retain => exact length_map _

theorem retainEvents_spec (newv : List τ) :
    Effects (retainEvents cb newv) (if cb.retain.isSome then newv else []) [] := by
  unfold retainEvents
  split_ifs with h
  · refine ⟨?_, ?_, fun e he => ?_⟩
    · rw [retained, filterMap_map]
      exact filterMap_some
    · rw [released, filterMap_map]
      exact filterMap_eq_nil_iff.mpr fun v _ => rfl
    · obtain ⟨v, -, rfl⟩ := List.mem_map.mp he
      trivial
  · exact effects_nil

/-- **`_CFArrayReplaceValues`** is a splice: the new values are retained, the old ones released. -/
theorem replaceValues_spec (h : Rep a l) (newValues : List τ)
    (hrange : location + length ≤ l.length) (hlt : l.length - length + newValues.length < 2 ^ 29) :
    ∃ a' events, replaceValues cb a location length newValues = some (a', events) ∧
      Rep a' (l.take location ++ (cb.stored newValues ++ l.drop (location + length))) ∧
      Effects events (if cb.retain.isSome then cb.stored newValues else [])
        (if cb.release then (l.drop location).take length else []) := by
  obtain ⟨a₁, released₁, hrelease, hcount₁, hgap₁, hempty₁, heffects₁⟩ :=
    releaseRange_spec cb h hrange
  obtain ⟨d₂, moved, hroom, hgap₂, heffects₂⟩ :=
    makeRoom_spec hlt (hcount₁.trans h.count) hgap₁ hempty₁ hrange
  rw [← length_stored cb newValues] at hgap₂
  obtain ⟨d₃, hcopy, hholds⟩ := copyIn_spec (a := { a₁ with store := some d₂ }) rfl hgap₂ hrange
  refine ⟨⟨l.length - length + newValues.length, some d₃⟩,
    retainEvents cb (cb.stored newValues) ++ (released₁ ++ moved), ?_, ⟨?_, ?_, ?_⟩, ?_⟩
  · simp [replaceValues, h.count, hrelease, hroom, hcopy]
  · rw [length_append, length_append, length_stored, length_take,
      length_drop]
    show l.length - length + newValues.length = _
    omega
  · intro d hd
    obtain rfl : d₃ = d := some.inj hd
    exact hholds
  · intro hnone
    cases hnone
  · have heffects := (retainEvents_spec cb (cb.stored newValues)).append (heffects₁.append heffects₂)
    rwa [append_nil, append_nil, append_nil] at heffects

theorem removeAllValues_spec (h : Rep a l) :
    ∃ a' events, removeAllValues cb a = some (a', events) ∧ Rep a' [] ∧
      Effects events [] (if cb.release then l else []) := by
  unfold removeAllValues releaseValues
  cases hs : a.store with
  | none =>
    refine ⟨createMutable, [], ?_, rep_createMutable, ?_⟩
    · simp [createMutable]
    · rw [h.empty hs, ite_self]
      exact effects_nil
  | some d =>
    have hd := h.holds d hs
    obtain ⟨d', events, hloop, -, -, -, -, heffects⟩ :=
      releaseLoop_spec cb a l d.leftIdx hd.items le_rfl (by rw [h.count])
    rw [← h.count] at hloop
    refine ⟨createMutable, events, ?_, rep_createMutable, heffects⟩
    simp [hloop, createMutable]

/-! ## Runs -/

/-- A call that changes an array. -/
inductive Op (τ : Type)
  | replaceValues (location length : ℕ) (newValues : List τ)
  | appendValue (value : τ)
  | insertValueAtIndex (idx : ℕ) (value : τ)
  | removeValueAtIndex (idx : ℕ)
  | removeAllValues

/-- A call on an array. -/
def step (cb : CallBacks τ) (a : CFArray τ) : Op τ → Option (CFArray τ × List (Event τ))
  | .replaceValues location length newValues => replaceValues cb a location length newValues
  | .appendValue value => appendValue cb a value
  | .insertValueAtIndex idx value => insertValueAtIndex cb a idx value
  | .removeValueAtIndex idx => removeValueAtIndex cb a idx
  | .removeAllValues => removeAllValues cb a

/-- Calls one after another, with all events. -/
def run (cb : CallBacks τ) : List (Op τ) → CFArray τ → Option (CFArray τ × List (Event τ))
  | [], a => some (a, [])
  | op :: ops, a => do
    let (a, events) ← step cb a op
    let (a, more) ← run cb ops a
    some (a, events ++ more)

/-- A call as a splice of a list: the range, and the values that come in its place. -/
def splice (l : List τ) : Op τ → ℕ × ℕ × List τ
  | .replaceValues location length newValues => (location, length, newValues)
  | .appendValue value => (l.length, 0, [value])
  | .insertValueAtIndex idx value => (idx, 0, [value])
  | .removeValueAtIndex idx => (idx, 1, [])
  | .removeAllValues => (0, l.length, [])

/-- A list, the values that have come into it, and those that have left it. -/
structure Story (τ : Type) where
  list : List τ
  entered : List τ
  left : List τ

/-- A call on a list. -/
def listStep (cb : CallBacks τ) (s : Story τ) (op : Op τ) : Story τ :=
  let (location, length, newValues) := splice s.list op
  { list := s.list.take location ++ (cb.stored newValues ++ s.list.drop (location + length))
    entered := s.entered ++ cb.stored newValues
    left := s.left ++ (s.list.drop location).take length }

/-- The range of a call is in the list, and the list stays shorter than 2^29. -/
def InRange (l : List τ) (op : Op τ) : Prop :=
  (splice l op).1 + (splice l op).2.1 ≤ l.length ∧
    l.length - (splice l op).2.1 + (splice l op).2.2.length < 2 ^ 29

instance decidableInRange (l : List τ) (op : Op τ) : Decidable (InRange l op) :=
  inferInstanceAs (Decidable (_ ∧ _))

/-- Every call is in range when it is made. -/
def AllInRange (cb : CallBacks τ) : Story τ → List (Op τ) → Prop
  | _, [] => True
  | s, op :: ops => InRange s.list op ∧ AllInRange cb (listStep cb s op) ops

instance decidableAllInRange (cb : CallBacks τ) :
    (s : Story τ) → (ops : List (Op τ)) → Decidable (AllInRange cb s ops)
  | _, [] => isTrue trivial
  | s, op :: ops => @instDecidableAnd _ _ _ (decidableAllInRange cb (listStep cb s op) ops)

/-- Calls on a list. -/
def listRun (cb : CallBacks τ) (s : Story τ) (ops : List (Op τ)) : Story τ :=
  ops.foldl (listStep cb) s

/-- The events of the calls so far are those of the story. -/
structure Logged (cb : CallBacks τ) (s : Story τ) (log : List (Event τ)) : Prop where
  retained : retained log = if cb.retain.isSome then s.entered else []
  released : released log = if cb.release then s.left else []
  ok : ∀ e ∈ log, e.Ok

variable {s : Story τ}

theorem Logged.append {cb : CallBacks τ} (h : Logged cb s log) {op : Op τ} {events : List (Event τ)}
    (heffects : Effects events (if cb.retain.isSome then cb.stored (splice s.list op).2.2 else [])
      (if cb.release then (s.list.drop (splice s.list op).1).take (splice s.list op).2.1 else [])) :
    Logged cb (listStep cb s op) (log ++ events) := by
  obtain ⟨hret, hrel, hok⟩ := Effects.append ⟨h.retained, h.released, h.ok⟩ heffects
  refine ⟨hret.trans ?_, hrel.trans ?_, hok⟩ <;> split_ifs <;> rfl

/-- **One call** does its splice. -/
theorem step_refines (h : Rep a s.list) (hlog : Logged cb s log) {op : Op τ}
    (hop : InRange s.list op) :
    ∃ a' events, step cb a op = some (a', events) ∧ Rep a' (listStep cb s op).list ∧
      Logged cb (listStep cb s op) (log ++ events) := by
  have hreplace : ∀ location length newValues, splice s.list op = (location, length, newValues) →
      ∃ a' events, replaceValues cb a location length newValues = some (a', events) ∧
        Rep a' (listStep cb s op).list ∧ Logged cb (listStep cb s op) (log ++ events) := by
    intro location length newValues hsplice
    obtain ⟨hrange, hlt⟩ := hop
    rw [hsplice] at hrange hlt
    obtain ⟨a', events, hrun, hrep, heffects⟩ := replaceValues_spec cb h newValues hrange hlt
    refine ⟨a', events, hrun, ?_, hlog.append ?_⟩
    · rw [listStep, hsplice]
      exact hrep
    · rw [hsplice]
      exact heffects
  cases op with
  | replaceValues location length newValues | insertValueAtIndex idx value
  | removeValueAtIndex idx => exact hreplace _ _ _ rfl
  | appendValue value =>
    rw [step, appendValue, h.count]
    exact hreplace _ _ _ rfl
  | removeAllValues =>
    obtain ⟨a', events, hrun, hrep, heffects⟩ := removeAllValues_spec cb h
    have hnil : cb.stored [] = [] := length_eq_zero_iff.mp (length_stored cb [])
    refine ⟨a', events, hrun, ?_, hlog.append ?_⟩
    · simp only [listStep, splice, hnil, zero_add, drop_length]
      exact hrep
    · simp only [splice, hnil, ite_self, drop_zero, take_length]
      exact heffects

theorem run_refines (ops : List (Op τ))
    (h : Rep a s.list) (hlog : Logged cb s log) (hops : AllInRange cb s ops) :
    ∃ a' events, run cb ops a = some (a', events) ∧ Rep a' (listRun cb s ops).list ∧
      Logged cb (listRun cb s ops) (log ++ events) := by
  induction ops generalizing a s log with
  | nil => exact ⟨a, [], rfl, h, by rw [append_nil]; exact hlog⟩
  | cons op ops ih =>
    obtain ⟨a₁, events, hstep, h₁, hlog₁⟩ := step_refines cb h hlog hops.1
    obtain ⟨a', more, hrun, h', hlog'⟩ := ih h₁ hlog₁ hops.2
    refine ⟨a', events ++ more, ?_, h', ?_⟩
    · rw [run, hstep]
      simp [hrun]
    · rw [← append_assoc]
      exact hlog'

/-- What has come in is there or has left. -/
theorem listStep_perm (op : Op τ) (h : (s.list ++ s.left).Perm s.entered) :
    ((listStep cb s op).list ++ (listStep cb s op).left).Perm (listStep cb s op).entered := by
  rw [listStep]
  obtain ⟨location, length, newValues⟩ := splice s.list op
  have hsplit : s.list = s.list.take location ++
      ((s.list.drop location).take length ++ s.list.drop (location + length)) := by
    rw [← drop_drop, take_append_drop, take_append_drop]
  classical
  rw [perm_iff_count] at h ⊢
  intro x
  have hx := h x
  have hlist := congrArg (List.count x) hsplit
  simp only [count_append] at hx hlist ⊢
  omega

theorem listRun_perm (ops : List (Op τ)) (h : (s.list ++ s.left).Perm s.entered) :
    ((listRun cb s ops).list ++ (listRun cb s ops).left).Perm (listRun cb s ops).entered := by
  induction ops generalizing s with
  | nil => exact h
  | cons op ops ih => exact ih (listStep_perm cb op h)

/-- **A mutable array is a sequence.** After every sequence of calls in range the array holds the
list of the same splices, inside its deque. Every value has been retained once when it came
in and released once when it left, while it was still in the array; and no element has been
written over before it was moved. -/
theorem array_refines (ops : List (Op τ)) (h : AllInRange cb ⟨[], [], []⟩ ops) :
    ∃ a log, run cb ops createMutable = some (a, log) ∧
      a.count = (listRun cb ⟨[], [], []⟩ ops).list.length ∧
      contents a = (listRun cb ⟨[], [], []⟩ ops).list.map some ∧
      (∀ d, a.store = some d → d.leftIdx + a.count ≤ d.capacity) ∧
      ((listRun cb ⟨[], [], []⟩ ops).list ++ (listRun cb ⟨[], [], []⟩ ops).left).Perm
        (listRun cb ⟨[], [], []⟩ ops).entered ∧
      retained log = (if cb.retain.isSome then (listRun cb ⟨[], [], []⟩ ops).entered else []) ∧
      released log = (if cb.release then (listRun cb ⟨[], [], []⟩ ops).left else []) ∧
      ∀ e ∈ log, e.Ok := by
  have hlog : Logged cb ⟨[], [], []⟩ ([] : List (Event τ)) :=
    ⟨by split_ifs <;> rfl, by split_ifs <;> rfl, fun e he => by cases he⟩
  obtain ⟨a, log, hrun, hrep, hlog'⟩ := run_refines cb ops rep_createMutable hlog h
  refine ⟨a, log, hrun, hrep.count, hrep.contents_eq, fun d hd => ?_,
    listRun_perm cb ops (List.Perm.refl _), hlog'.retained, hlog'.released, hlog'.ok⟩
  rw [hrep.count]
  exact (hrep.holds d hd).fits

/-- Three values, the first of them replaced by two. -/
theorem array_refines_replaced :
    ∃ a log, run ⟨some id, true⟩ [.appendValue 1, .appendValue 2, .insertValueAtIndex 0 3,
        .replaceValues 0 1 [4, 5], .removeValueAtIndex 3] createMutable = some (a, log) ∧
      contents a = [some 4, some 5, some 1] ∧ released log = [3, 2] := by
  obtain ⟨a, log, hrun, -, hcont, -, -, -, hrel, -⟩ := array_refines ⟨some id, true⟩
    [.appendValue 1, .appendValue 2, .insertValueAtIndex 0 3, .replaceValues 0 1 [4, 5],
      .removeValueAtIndex 3] (by decide)
  exact ⟨a, log, hrun, hcont, hrel⟩

/-- When the value of a removal is released, it is still in the array. -/
theorem release_inside_array :
    ∃ a log array, run ⟨some id, true⟩ [.appendValue 7, .removeValueAtIndex 0] createMutable =
        some (a, log) ∧ Event.release 7 array ∈ log ∧ array.count = 1 ∧
      contents array = [some 7] := by
  refine ⟨_, _, _, rfl, mem_cons_of_mem _ mem_cons_self, rfl, rfl⟩

/-! ## Capacities -/

variable {a : CFArray τ} {d : Deque τ} {length location cap : ℕ}

/-- The elements of the array are in its deque. -/
structure InDeque (a : CFArray τ) (d : Deque τ) : Prop where
  store : a.store = some d
  size : d.buckets.length = d.capacity
  fits : d.leftIdx + a.count ≤ d.capacity

/-- A deque of four buckets without elements. -/
def fourBuckets : Deque ℕ := ⟨0, 4, List.replicate 4 none⟩

theorem inDeque_fourBuckets : InDeque ⟨0, some fourBuckets⟩ fourBuckets := ⟨rfl, rfl, by decide⟩

end Apple.CF.ArrayDeque
