import Mathlib.Tactic

/-!
# The insertion loop of `CFStorage`

Model of `CFStorageCreate` and of the loop of `CFStorageInsertValues` in `CF-1153.18/CFStorage.c`,
which makes room for values in pieces of at most one leaf. A run of the loop is the list of its
calls of `__CFStorageInsertUnfrozen`; what these do to the tree has no part in the next turn.
`CFIndex` is 64 bits wide.

Result: `insertValues_terminates`. The header of the file says that values cannot be larger than
a leaf: then the loop never ends (`insertValues_large`).
-/

namespace Apple.CF.Storage

/-- `__CFStorageMaxLeafCapacity` (line 72). -/
def defaultCapacity : ℤ := 4096 * 3

/-- The fields of `struct __CFStorage` that the loop depends on. -/
structure CFStorage where
  valueSize : ℤ
  byteToValueShifter : Option ℕ
  maxLeafCapacity : ℤ

/-- `CFStorageCreate` (lines 1110–1152), for a positive size of values. -/
def create (valueSize : ℕ) : CFStorage where
  valueSize := valueSize
  byteToValueShifter := if valueSize &&& (valueSize - 1) = 0 then some valueSize.log2 else none
  maxLeafCapacity :=
    if defaultCapacity % valueSize ≠ 0 then defaultCapacity / valueSize * valueSize
    else defaultCapacity

/-- `__CFStorageConvertValueToByte` (lines 192–197). -/
def convertValueToByte (storage : CFStorage) (value : ℤ) : ℤ :=
  match storage.byteToValueShifter with
  | some shifter => (value * 2 ^ shifter).bmod (2 ^ 64)
  | none => (value * storage.valueSize).bmod (2 ^ 64)

/-- The loop of `CFStorageInsertValues` (lines 1236–1263): where each turn inserts, and how many
bytes. `none` when the turns are used up. -/
def insertLoop (insertionChunkSize : ℤ) : ℕ → ℤ → ℤ → Option (List (ℤ × ℤ))
  | 0, _, _ => none
  | turns + 1, numBytesToInsert, byteNum =>
    if numBytesToInsert > 0 then do
      let insertThisTime := min numBytesToInsert insertionChunkSize
      let rest ← insertLoop insertionChunkSize turns (numBytesToInsert - insertThisTime)
        (byteNum + insertThisTime)
      some ((byteNum, insertThisTime) :: rest)
    else some []

/-- `CFStorageInsertValues` (lines 1230–1266), for so many turns of the loop. -/
def insertValues (turns : ℕ) (storage : CFStorage) (location length : ℤ) :
    Option (List (ℤ × ℤ)) :=
  insertLoop storage.maxLeafCapacity turns (convertValueToByte storage length)
    (convertValueToByte storage location)

theorem insertLoop_spec {chunk : ℤ} (hchunk : 0 < chunk) {turns : ℕ} {n byteNum : ℤ}
    (h : n.toNat < turns) : ∃ calls, insertLoop chunk turns n byteNum = some calls ∧
      (∀ call ∈ calls, 0 < call.2) ∧ (calls.map Prod.snd).sum = max n 0 := by
  induction turns generalizing n byteNum with
  | zero => omega
  | succ turns ih =>
    unfold insertLoop
    by_cases hn : n > 0
    · obtain ⟨calls, hcalls, hpos, hsum⟩ := @ih (n - min n chunk) (byteNum + min n chunk)
        (by omega)
      refine ⟨(byteNum, min n chunk) :: calls, by simp [hn, hcalls], ?_, ?_⟩
      · simp only [List.forall_mem_cons]
        exact ⟨lt_min hn hchunk, hpos⟩
      · rw [List.map_cons, List.sum_cons, hsum]
        omega
    · exact ⟨[], if_neg hn, by simp, (max_eq_right (not_lt.mp hn)).symm⟩

/-- A leaf holds a value when values are not larger than the largest leaf. -/
theorem maxLeafCapacity_pos {valueSize : ℕ} (h0 : 0 < valueSize) (h : valueSize ≤ 12288) :
    0 < (create valueSize).maxLeafCapacity := by
  have hle : 1 * (valueSize : ℤ) ≤ defaultCapacity := by
    unfold defaultCapacity
    omega
  have hdiv := Int.le_ediv_of_mul_le (Int.natCast_pos.mpr h0) hle
  simp only [create]
  split_ifs with hmod
  · exact mul_pos hdiv (Int.natCast_pos.mpr h0)
  · exact Int.natCast_pos.mpr (by norm_num)

/-- **The loop ends** for every size of values up to that of a leaf and every number of values:
each turn inserts some bytes, and together all there are. -/
theorem insertValues_terminates {valueSize : ℕ} (h0 : 1 ≤ valueSize) (h : valueSize ≤ 12288)
    (location length : ℤ) :
    ∃ turns calls, insertValues turns (create valueSize) location length = some calls ∧
      (∀ call ∈ calls, 0 < call.2) ∧
      (calls.map Prod.snd).sum = max (convertValueToByte (create valueSize) length) 0 :=
  ⟨_, insertLoop_spec (maxLeafCapacity_pos h0 h) (Nat.lt_succ_self _)⟩

theorem insertValues_four : ∃ turns calls, insertValues turns (create 4) 3 10 = some calls ∧
    (∀ call ∈ calls, 0 < call.2) ∧
    (calls.map Prod.snd).sum = max (convertValueToByte (create 4) 10) 0 :=
  insertValues_terminates (by norm_num) (by norm_num) 3 10

theorem insertLoop_zero {n : ℤ} (hn : 0 < n) (byteNum : ℤ) (turns : ℕ) :
    insertLoop 0 turns n byteNum = none := by
  induction turns with
  | zero => rfl
  | succ turns ih => simp [insertLoop, hn, min_eq_right hn.le, ih]

/-- A leaf has no room for a larger value, and the turns of the loop insert nothing. -/
theorem insertValues_large :
    ¬ ∃ turns calls, insertValues turns (create 12289) 0 1 = some calls := by
  rintro ⟨turns, calls, h⟩
  exact nomatch (insertLoop_zero (by decide) _ turns).symm.trans h

end Apple.CF.Storage
