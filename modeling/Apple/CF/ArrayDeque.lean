import Apple.Lib.BufferMoves

/-!
# The deque of `CFMutableArray`

Model of `CF-1153.18/CFArray.c` for mutable arrays: `__CFArrayReleaseValues`,
`__CFArrayRepositionDequeRegions`, `_CFArrayReplaceValues` and the calls made of them. A bucket is
`none` when it is NULL or has not been written. The stored value is what the retain callback
returns.

A call gives the new array and a list of events: the callbacks that are made, with the array as
a release callback finds it, and the memory moves of a repositioning. `none` as a result is an
access outside of the deque, or a shift whose value is not an `int`.

Result: `planOk_plan`, that the moves of a repositioning bring every element to its place and
write over none before it has been moved.
-/

namespace Apple.CF.ArrayDeque

open Lib.BufferMoves Option

variable {τ : Type}

/-! ## The source -/

/-- The callbacks `retain` and `release` of `CFArrayCallBacks`. -/
structure CallBacks (τ : Type) where
  retain : Option (τ → τ)
  release : Bool

/-- `struct __CFArrayDeque` (lines 52–56), with the buckets that follow it. -/
structure Deque (τ : Type) where
  leftIdx : ℕ
  capacity : ℕ
  buckets : List (Option τ)

/-- `struct __CFArray` (lines 58–64). -/
structure CFArray (τ : Type) where
  count : ℕ
  store : Option (Deque τ)

/-- What a call does besides changing the array. -/
inductive Event (τ : Type)
  | retain (value : τ)
  | release (value : τ) (array : CFArray τ)
  | reposition (array : CFArray τ) (location length : ℕ) (writes : List (Write (Option τ)))

/-- `__CFArrayDequeRoundUpCapacity` (lines 47–50). The shift is one of an `int`. -/
def dequeRoundUpCapacity (capacity : ℕ) : Option ℕ :=
  if capacity < 4 then some 4
  else
    let fls := Nat.log2 capacity + 1
    if fls < 31 then some (min (1 <<< fls) (2 ^ 63 - 1)) else none

section

variable (cb : CallBacks τ) (array : CFArray τ)

/-- One round of the loops of `__CFArrayReleaseValues` (lines 224–231): the events and the buckets
after it. -/
def releaseValue (deque : Deque τ) (idx : ℕ) : Option (Deque τ × List (Event τ)) :=
  if idx < deque.buckets.length then
    let cleared := { deque with buckets := deque.buckets.set idx none }
    if cb.release then
      (deque.buckets[idx]?.join).map fun item =>
        (cleared, [.release item { array with store := some deque }])
    else some (cleared, [])
  else none

/-- The loops of `__CFArrayReleaseValues`, from the bucket `idx` on. -/
def releaseLoop (cb : CallBacks τ) (array : CFArray τ) :
    ℕ → ℕ → Deque τ → Option (Deque τ × List (Event τ))
  | 0, _, deque => some (deque, [])
  | n + 1, idx, deque => do
    let (deque, event) ← releaseValue cb array deque idx
    let (deque, events) ← releaseLoop cb array n (idx + 1) deque
    some (deque, event ++ events)

/-- `__CFArrayReleaseValues` (lines 197–241), for a deque. -/
def releaseValues (location length : ℕ)
    (releaseStorageIfPossible : Bool) : Option (CFArray τ × List (Event τ)) := do
  let (store, events) ← match array.store with
    | none => some (none, [])
    | some deque =>
      (releaseLoop cb array length (deque.leftIdx + location) deque).map
        fun r => (some r.1, r.2)
  if releaseStorageIfPossible ∧ 0 = location ∧ array.count = length then
    some ({ count := 0, store := none }, events)
  else some ({ array with store := store }, events)

/-- The part of `__CFArrayRepositionDequeRegions` that stays in its memory (lines 817–858): the new
left index, and the moves in their order. `A`, `B` and `C` are the lengths of the regions
before, in and after the range, `L` and `R` the room on the two sides. -/
def plan (L A B C R newCount : ℕ) : ℕ × List (Write (Option τ)) :=
  let numNewElems : ℤ := newCount - B
  if (numNewElems < 0 ∧ C < A) ∨ (numNewElems ≤ R ∧ C < A) then
    let oldC0 := L + A + B
    let newC0 := L + A + newCount
    (L, (if 0 < C then [.move newC0 oldC0 C] else []) ++
      (if oldC0 > newC0 then [.fill (newC0 + C) (oldC0 - newC0) none] else []))
  else if numNewElems < 0 ∨ (numNewElems ≤ L ∧ A ≤ C) then
    let oldL := L
    let newL := (L - numNewElems).toNat
    (newL, (if 0 < A then [.move newL oldL A] else []) ++
      (if newL > oldL then [.fill oldL (newL - oldL) none] else []))
  else
    let oldL := L
    let half := ((L + R - numNewElems) / 2).toNat
    let newL := half - half / 2
    let oldC0 := oldL + A + B
    let newC0 := newL + A + newCount
    if newL < oldL then
      (newL, (if 0 < A then [.move newL oldL A] else []) ++
        ((if 0 < C then [.move newC0 oldC0 C] else []) ++
          (if oldC0 > newC0 then [.fill (newC0 + C) (oldC0 - newC0) none] else [])))
    else
      (newL, (if 0 < C then [.move newC0 oldC0 C] else []) ++
        ((if 0 < A then [.move newL oldL A] else []) ++
          (if newL > oldL then [.fill oldL (newL - oldL) none] else [])))

/-- The part of `__CFArrayRepositionDequeRegions` that takes new memory (lines 792–815). -/
def reallocate (deque : Deque τ) (A B C newCount futureCnt wiggle : ℕ) : Option (Deque τ) := do
  let capacity ← dequeRoundUpCapacity (futureCnt + wiggle)
  let oldL := deque.leftIdx
  let newL := (capacity - futureCnt) / 2
  let oldC0 := oldL + A + B
  let newC0 := newL + A + newCount
  let newBuckets ← overwrite (List.replicate capacity none) newL
    ((deque.buckets.drop oldL).take A)
  let newBuckets ← overwrite newBuckets newC0 ((deque.buckets.drop oldC0).take C)
  some { leftIdx := newL, capacity := capacity, buckets := newBuckets }

/-- `__CFArrayRepositionDequeRegions` (lines 775–859). The test for the capacity has a cast to
`uint32_t`. -/
def repositionDequeRegions (array : CFArray τ) (deque : Deque τ) (location length newCount : ℕ) :
    Option (CFArray τ × List (Event τ)) :=
  let cnt := array.count
  let futureCnt := cnt - length + newCount
  let L := deque.leftIdx
  let A := location
  let B := length
  let C := cnt - B - A
  let R := deque.capacity - cnt - L
  let wiggle := if deque.capacity >>> 17 < 4 then 4 else deque.capacity >>> 17
  if deque.capacity < futureCnt % 2 ^ 32 ∨ (cnt < futureCnt ∧ L + R < wiggle) then
    (reallocate deque A B C newCount futureCnt wiggle).map fun deque =>
      ({ array with store := some deque }, [])
  else
    let p := plan L A B C R newCount
    (exec p.2 deque.buckets).map fun buckets =>
      ({ array with store := some { deque with leftIdx := p.1, buckets := buckets } },
        [.reposition array location length p.2])

/-- The store for the new values (lines 958–979): a new deque, or the old one with a gap. -/
def makeRoom (array : CFArray τ) (location length newCount futureCnt : ℕ) :
    Option (CFArray τ × List (Event τ)) :=
  match array.store with
  | none =>
    (dequeRoundUpCapacity futureCnt).map fun capacity =>
      ({ array with
          store := some {
            leftIdx := (capacity - newCount) / 2, capacity := capacity
            buckets := List.replicate capacity none } }, [])
  | some deque =>
    if length ≠ newCount then repositionDequeRegions array deque location length newCount
    else some (array, [])

/-- The new values in the gap (lines 981–988). -/
def copyIn (array : CFArray τ) (location : ℕ) (newv : List τ) : Option (CFArray τ) :=
  if 0 < newv.length then do
    let deque ← array.store
    let buckets ← overwrite deque.buckets (deque.leftIdx + location) (newv.map some)
    some { array with store := some { deque with buckets := buckets } }
  else some array

/-- The values that are stored for `values`: what `retain` returns for each of them. -/
def CallBacks.stored (cb : CallBacks τ) (values : List τ) : List τ :=
  match cb.retain with
  | some retain => values.map retain
  | none => values

/-- The retain callbacks for `newv` (lines 935–943). -/
def retainEvents (cb : CallBacks τ) (newv : List τ) : List (Event τ) :=
  if cb.retain.isSome then newv.map .retain else []

/-- The release of the range (lines 958–960). -/
def releaseRange (location length : ℕ) : Option (CFArray τ × List (Event τ)) :=
  if 0 < length then releaseValues cb array location length false else some (array, [])

/-- `_CFArrayReplaceValues` (lines 922–993). -/
def replaceValues (location length : ℕ)
    (newValues : List τ) : Option (CFArray τ × List (Event τ)) := do
  let futureCnt := array.count - length + newValues.length
  let newv := cb.stored newValues
  let (array, released) ← releaseRange cb array location length
  let (array, moved) ← makeRoom array location length newValues.length futureCnt
  let array ← copyIn array location newv
  some ({ array with count := futureCnt }, retainEvents cb newv ++ (released ++ moved))

/-- `CFArrayAppendValue` (lines 686–693). -/
def appendValue (value : τ) : Option (CFArray τ × List (Event τ)) :=
  replaceValues cb array array.count 0 [value]

/-- `CFArrayInsertValueAtIndex` (lines 725–732). -/
def insertValueAtIndex (idx : ℕ) (value : τ) : Option (CFArray τ × List (Event τ)) :=
  replaceValues cb array idx 0 [value]

/-- `CFArrayRemoveValueAtIndex` (lines 755–762). -/
def removeValueAtIndex (idx : ℕ) : Option (CFArray τ × List (Event τ)) :=
  replaceValues cb array idx 1 []

/-- `CFArrayRemoveAllValues` (lines 764–773). -/
def removeAllValues : Option (CFArray τ × List (Event τ)) :=
  (releaseValues cb array 0 array.count true).map fun r => ({ r.1 with count := 0 }, r.2)

end

/-- `_CFArraySetCapacity` (lines 872–907), for a deque: all buckets of the old deque are copied. -/
def setCapacity (array : CFArray τ) (cap : ℕ) : Option (CFArray τ) := do
  let capacity ← dequeRoundUpCapacity cap
  match array.store with
  | none =>
    some { array with
      store := some {
        leftIdx := capacity / 2, capacity := capacity
        buckets := List.replicate capacity none } }
  | some deque =>
    let buckets ← overwrite (List.replicate capacity none) 0 deque.buckets
    some { array with store := some { deque with capacity := capacity, buckets := buckets } }

/-- The array of `CFArrayCreateMutable`. -/
def createMutable : CFArray τ := { count := 0, store := none }

/-! ## Moving the regions -/

theorem dequeRoundUpCapacity_eq_some_iff {n capacity : ℕ} : dequeRoundUpCapacity n = some capacity ↔
    n < 2 ^ 30 ∧ capacity = max 4 (2 ^ (Nat.log2 n + 1)) := by
  unfold dequeRoundUpCapacity
  by_cases h4 : n < 4
  · have hmax : max 4 (2 ^ (Nat.log2 n + 1)) = 4 := by interval_cases n <;> decide
    rw [if_pos h4, hmax, some_inj, eq_comm]
    exact (and_iff_right (by omega)).symm
  · have hlog : Nat.log2 n < 30 ↔ n < 2 ^ 30 := Nat.log2_lt (by omega)
    have hle : 4 ≤ 2 ^ (Nat.log2 n + 1) := (not_lt.mp h4).trans Nat.lt_log2_self.le
    rw [if_neg h4, max_eq_right hle, ← hlog]
    simp only [Nat.one_shiftLeft]
    by_cases hlt : Nat.log2 n < 30
    · have hmin : 2 ^ (Nat.log2 n + 1) ≤ 2 ^ 30 := Nat.pow_le_pow_right two_pos hlt
      rw [if_pos (by omega), min_eq_left (by omega), some_inj, eq_comm]
      exact (and_iff_right hlt).symm
    · simp [if_neg (show ¬ Nat.log2 n + 1 < 31 by omega), hlt]

theorem dequeRoundUpCapacity_spec {n : ℕ} (h : n < 2 ^ 30) :
    ∃ capacity, dequeRoundUpCapacity n = some capacity ∧ n ≤ capacity ∧ capacity ≤ 2 ^ 30 := by
  refine ⟨_, dequeRoundUpCapacity_eq_some_iff.mpr ⟨h, rfl⟩, le_max_of_le_right Nat.lt_log2_self.le,
    max_le (by norm_num) (Nat.pow_le_pow_right two_pos ?_)⟩
  rcases eq_or_ne n 0 with rfl | hn
  · decide
  · exact (Nat.log2_lt hn).mpr h

section Plan

variable {L A B C R newCount : ℕ}

/-- The buckets of the elements that stay: those before and after the range. -/
def Live (L A B C k : ℕ) : Prop := (L ≤ k ∧ k < L + A) ∨ (L + A + B ≤ k ∧ k < L + A + B + C)

/-- Where such an element has to go. -/
def goal (L A B newL newCount k : ℕ) : ℕ :=
  if k < L + A then newL + (k - L) else newL + A + newCount + (k - (L + A + B))

/-- What the moves of a repositioning have to do. -/
structure PlanOk (L A B C R newCount : ℕ) (p : ℕ × List (Write (Option τ))) : Prop where
  fits : p.1 + A + newCount + C ≤ L + A + B + C + R
  inBounds : ∀ w ∈ p.2, w.InBounds (L + A + B + C + R)
  spares : ∀ k, Live L A B C k → Spares p.2 k
  track : ∀ k, Live L A B C k → track p.2 k = goal L A B p.1 newCount k

/-- The left region goes to the left or stays: it is moved first. `a` is its length, or zero when it
is not moved at all. -/
theorem planOk_left {newL a : ℕ} (ha : newL < L ∧ a = A ∨ newL = L ∧ a = 0)
    (hfits : newL + A + newCount + C ≤ L + A + B + C + R) :
    PlanOk (τ := τ) L A B C R newCount
      (newL, (if 0 < a then [.move newL L A] else []) ++
        ((if 0 < C then [.move (newL + A + newCount) (L + A + B) C] else []) ++
          (if L + A + B > newL + A + newCount then
            [.fill (newL + A + newCount + C) (L + A + B - (newL + A + newCount)) none]
            else []))) where
  fits := hfits
  inBounds w hw := by
    simp only [List.mem_append, mem_ite] at hw
    rcases hw with ⟨-, rfl⟩ | ⟨-, rfl⟩ | ⟨-, rfl⟩
    · constructor <;> omega
    · constructor <;> omega
    · show _ + _ ≤ _
      omega
  spares k hk := by
    simp only [spares_append, spares_ite, track_ite]
    simp only [Write.Spares, Write.track, Live] at hk ⊢
    refine ⟨by omega, ?_, ?_⟩
    · split_ifs <;> omega
    · split_ifs <;> omega
  track k hk := by
    simp only [track_append, track_ite]
    simp only [Write.track, goal, Live] at hk ⊢
    split_ifs <;> omega

/-- The left region goes to the right or stays, and the other one, of length `c`, is moved first;
or the other one is not moved at all. -/
theorem planOk_right {newL c : ℕ} (hc : (L ≤ newL ∧ B ≤ newCount) ∧ c = C ∨
      newL + newCount = L + B ∧ c = 0)
    (hfits : newL + A + newCount + C ≤ L + A + B + C + R) :
    PlanOk (τ := τ) L A B C R newCount
      (newL, (if 0 < c then [.move (newL + A + newCount) (L + A + B) C] else []) ++
        ((if 0 < A then [.move newL L A] else []) ++
          (if newL > L then [.fill L (newL - L) none] else []))) where
  fits := hfits
  inBounds w hw := by
    simp only [List.mem_append, mem_ite] at hw
    rcases hw with ⟨-, rfl⟩ | ⟨-, rfl⟩ | ⟨-, rfl⟩
    · constructor <;> omega
    · constructor <;> omega
    · show _ + _ ≤ _
      omega
  spares k hk := by
    simp only [spares_append, spares_ite, track_ite]
    simp only [Write.Spares, Write.track, Live] at hk ⊢
    refine ⟨by omega, ?_, ?_⟩
    · split_ifs <;> omega
    · split_ifs <;> omega
  track k hk := by
    simp only [track_append, track_ite]
    simp only [Write.track, goal, Live] at hk ⊢
    split_ifs <;> omega

/-- **The plan is right** whenever the result fits: the moves stay inside the deque, no element is
written over before it has been moved, and each one ends in its place. -/
theorem planOk_plan (L A B C R newCount : ℕ) (hroom : A + newCount + C ≤ L + A + B + C + R) :
    PlanOk (τ := τ) L A B C R newCount (plan L A B C R newCount) := by
  unfold plan
  by_cases hC : ((newCount : ℤ) - B < 0 ∧ C < A) ∨ ((newCount : ℤ) - B ≤ R ∧ C < A)
  · simp only [if_pos hC]
    exact planOk_left (.inr ⟨rfl, rfl⟩) (by omega)
  simp only [if_neg hC]
  by_cases hA : (newCount : ℤ) - B < 0 ∨ ((newCount : ℤ) - B ≤ L ∧ A ≤ C)
  · simp only [if_pos hA]
    exact planOk_right (.inr ⟨by omega, rfl⟩) (by omega)
  simp only [if_neg hA]
  -- now the range grows, and the regions are centred
  generalize hhalf : (((L : ℤ) + R - (newCount - B)) / 2).toNat = half
  by_cases hlt : half - half / 2 < L
  · simp only [if_pos hlt]
    exact planOk_left (.inl ⟨hlt, rfl⟩) (by omega)
  · simp only [if_neg hlt]
    exact planOk_right (.inl ⟨by omega, rfl⟩) (by omega)

end Plan

end Apple.CF.ArrayDeque
