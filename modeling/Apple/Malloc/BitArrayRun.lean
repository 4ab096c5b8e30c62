import Mathlib.Tactic
import Apple.Malloc.BitArrayLevels

/-!
# The bit array as a set of indices

Each operation of `libmalloc-67/src/bitarray.c` on a memory that marks a set of indices gives the
result it has on the set and leaves a memory that marks the new set.

Results:
* `exec_spec`: one call.
* `bitarray_refines_iff`: every sequence of calls gives the results of a finite set, except that
  `bitarray_zap_first_set` aborts on the set bit of an array of one bit.
-/

namespace Apple.Malloc.BitArray

open Apple.Lib List

/-! ## The operations -/

section

variable {logSize i m : ℕ} {bits : Bits} {s : Finset ℕ}

theorem depth_le (hlog : logSize ≤ 31) : depth logSize ≤ 3 := by
  unfold depth
  split_ifs
  · omega
  · omega

/-- The last level is the set itself. -/
theorem Represents.leaf (h : Represents logSize bits s) (hi : i < 512 ^ (depth logSize + 1)) :
    bitAt bits (place (depth logSize) i) = decide (i ∈ s) := by
  rw [Bool.eq_iff_iff, h.level _ le_rfl i hi, decide_eq_true_eq]
  simp only [above_self, exists_eq_right]

theorem leaf_lt (hi : i < 2 ^ logSize) : i < 512 ^ (depth logSize + 1) :=
  hi.trans_le (two_pow_le logSize)

theorem leaf_room (h : Represents logSize bits s) (hi : i < 2 ^ logSize) :
    place (depth logSize) i / 64 < bits.length := by
  have := place_room h.length hi le_rfl
  rwa [above_self] at this

theorem depth_small (hsmall : logSize ≤ nb) : depth logSize = 0 := if_pos hsmall

theorem small_place (hsmall : logSize ≤ nb) : 64 * 0 + i = place (depth logSize) i := by
  rw [depth_small hsmall]
  rfl

/-- The word of a bit of the last level, as the source computes it. -/
theorem leaf_word (hlarge : ¬ logSize ≤ nb) :
    levelsNumWords ((logSize - nb - 1) / nb) = levelStart (depth logSize) := by
  rw [depth_level hlarge]
  rfl

section

variable (h : Represents logSize bits s)
include h

theorem bitarrayGet_spec (hi : i < 2 ^ logSize) :
    bitarrayGet bits logSize i = .ok (decide (i ∈ s)) := by
  have hroom := leaf_room h hi
  unfold bitarrayGet
  split_ifs with hsmall
  · rw [getSimple_spec (by rw [small_place hsmall]; exact hroom), small_place hsmall,
      h.leaf (leaf_lt hi)]
  · dsimp only
    rw [leaf_word hsmall, node_index, node_bit, num64b_eq,
      getSimple_spec (by rw [node_place]; exact hroom), node_place, h.leaf (leaf_lt hi)]

theorem Represents.bound_insert (hi : i < 2 ^ logSize) :
    ∀ x ∈ insert i s, x < 2 ^ logSize :=
  Finset.forall_mem_insert _ _ _ |>.mpr ⟨hi, h.bound⟩

omit h in
/-- An array with summaries: the level before the last one. -/
theorem exists_level (hlarge : ¬ logSize ≤ nb) : ∃ k, depth logSize = k + 1 ∧
    (logSize - nb - 1) / nb = k ∧ (logSize - 1) / nb = k + 1 ∧
    ∀ i, above (depth logSize) (k + 1) i = i ∧ above (depth logSize) k i = i / 512 := by
  refine ⟨_, depth_level hlarge, rfl, ?_, fun i => ?_⟩
  · rw [← depth_level hlarge, depth_level' hlarge]
  · have hself : above (depth logSize) ((logSize - nb - 1) / nb + 1) i = i := by
      rw [← depth_level hlarge, above_self]
    refine ⟨hself, ?_⟩
    rw [← above_succ (by rw [depth_level hlarge]; omega), hself]

theorem bitarraySet_spec (hi : i < 2 ^ logSize)
    (hlog : logSize ≤ 31) : ∃ bits', bitarraySet bits logSize i = .ok (bits', decide (i ∉ s)) ∧
      Represents logSize bits' (insert i s) := by
  have hroom := leaf_room h hi
  have hdone := h.between.set hi le_rfl
  rw [above_self] at hdone
  have hbit := h.leaf (leaf_lt hi)
  unfold bitarraySet
  split_ifs with hsmall
  · rw [setChanged_spec (by rw [small_place hsmall]; exact hroom), small_place hsmall, hbit]
    refine ⟨setAt bits (place (depth logSize) i), ?_, ?_⟩
    · by_cases his : i ∈ s
      · simp
      · simp
    · rw [depth_small hsmall] at hdone ⊢
      exact hdone.represents (h.bound_insert hi)
  · obtain ⟨k, hk, hlevel, -, habove⟩ := exists_level hsmall
    dsimp only
    rw [leaf_word hsmall, node_index, node_bit, num64b_eq,
      setChangedGoDown_spec (by rw [node_place]; exact hroom), node_place, ok_bind, hbit, hlevel]
    rw [hk] at hdone ⊢
    have hlt : k < depth logSize := by omega
    have hstop := hdone.stop_of_near (h.level (k + 1) hlt) hi hlt
    rw [(habove i).1] at hstop
    by_cases his : i ∈ s
    · -- the bit is there already
      rw [decide_eq_true his, decide_eq_false (not_not_intro his)]
      refine ⟨_, rfl, (hstop ⟨i, rfl, ?_⟩).represents (h.bound_insert hi)⟩
      rw [← hk, hbit, decide_eq_true his]
    · rw [decide_eq_false his, if_neg Bool.false_ne_true, decide_eq_true his]
      by_cases hword : bits.getD (place (k + 1) i / 64) 0 = 0
      · have hdepth := depth_le hlog
        obtain ⟨bits', hrun, hbits'⟩ := setSummaries_spec hi hlt hdone
        rw [(habove i).2] at hrun
        rw [hword]
        refine ⟨bits', ?_, hbits'.represents (h.bound_insert hi)⟩
        rw [if_neg (by omega), hrun]
        rfl
      · rw [bne_iff_ne.mpr hword]
        exact ⟨_, rfl, (hstop (exists_of_word_ne_zero hword)).represents (h.bound_insert hi)⟩

theorem Represents.bound_erase :
    ∀ x ∈ s.erase i, x < 2 ^ logSize := fun x hx => h.bound x (Finset.mem_of_mem_erase hx)

omit h in
/-- The index that `erase` takes away is the only one. -/
theorem eq_of_notMem_erase {y : ℕ} (hy : y ∈ s) (hyt : y ∉ s.erase i) : y = i := by
  by_contra hne
  exact hyt (Finset.mem_erase.mpr ⟨hne, hy⟩)

theorem Represents.zap_leaf (hi : i < 2 ^ logSize) :
    Between logSize (zapAt bits (place (depth logSize) i)) (depth logSize) s (s.erase i) := by
  have hdone := h.between.zap hi le_rfl
    ⟨Finset.erase_subset i s, fun y hy hyt => by rw [eq_of_notMem_erase hy hyt]⟩
    (fun y hy => by rw [above_self, above_self]; exact Finset.ne_of_mem_erase hy)
  rwa [above_self] at hdone

omit h in
/-- The indices of one node go: the summaries are adjusted if nothing is left of it. -/
theorem zapSummaries_node {k : ℕ} {t : Finset ℕ} (h : Between logSize bits (k + 1) s t)
    (hbound : ∀ y ∈ s, y < 2 ^ logSize) (hm : m ∈ s) (hts : t ⊆ s)
    (hgone : ∀ y ∈ s, y ∉ t → y / 512 = m / 512) (hk : depth logSize = k + 1)
    (habove : ∀ i, above (depth logSize) (k + 1) i = i ∧ above (depth logSize) k i = i / 512)
    (hlog : logSize ≤ 31) :
    ∃ bits', (if decide (Clear bits (levelStart (k + 1) + m / 512 * 8) 8) then
        zapSummaries bits (m / 512) k else .ok bits) = .ok bits' ∧ Represents logSize bits' t := by
  have hdepth := depth_le hlog
  have hlt : k < depth logSize := by omega
  have htbound : ∀ y ∈ t, y < 2 ^ logSize := fun y hy => hbound y (hts hy)
  have hgone' : Shrinks (depth logSize) k m s t := by
    refine ⟨hts, fun y hy hyt => ?_⟩
    rw [(habove y).2, (habove m).2, hgone y hy hyt]
  by_cases hclear : Clear bits (levelStart (k + 1) + m / 512 * 8) 8
  · have hnone := h.none_of_clear hlt htbound (by rw [(habove m).1]; exact hclear)
    obtain ⟨bits', hrun, hbits'⟩ := zapSummariesFrom_spec hbound hm hlt h hgone' hnone
    rw [(habove m).2] at hrun
    refine ⟨bits', ?_, hbits'.represents htbound⟩
    rw [decide_eq_true hclear, if_pos rfl, zapSummaries, if_neg (by omega), hrun]
  · refine ⟨bits, by rw [decide_eq_false hclear, if_neg Bool.false_ne_true], ?_⟩
    exact (h.stop_of_not_clear (hbound m hm) hlt hgone'
      (by rw [(habove m).1]; exact hclear)).represents htbound

/-- Clearing an index of the last level and then, if its node is empty, the summaries. -/
theorem zap_spec (his : i ∈ s) (hlog : logSize ≤ 31)
    (hlarge : ¬ logSize ≤ nb) : ∃ bits₁ clear bits', zapChangedGoDown bits
        (levelsNumWords ((logSize - nb - 1) / nb) + (i >>> nb) * num64b) (i &&& (1 <<< nb - 1)) =
        .ok (bits₁, some clear) ∧
      (if clear then zapSummaries bits₁ (i >>> nb) ((logSize - nb - 1) / nb) else .ok bits₁) =
        .ok bits' ∧ Represents logSize bits' (s.erase i) := by
  have hi := h.bound i his
  have hdone := h.zap_leaf hi
  have hroom := room h.length hi le_rfl
  have hbit := h.leaf (leaf_lt hi)
  obtain ⟨k, hk, hlevel, -, habove⟩ := exists_level hlarge
  rw [above_self] at hroom
  rw [leaf_word hlarge, node_index, node_bit, num64b_eq,
    zapChangedGoDown_spec hroom (Nat.mod_lt _ (by decide)), node_place, hbit, decide_eq_true his,
    hlevel]
  rw [hk] at hdone ⊢
  obtain ⟨bits', hrun, hbits'⟩ := zapSummaries_node hdone h.bound his (Finset.erase_subset i s)
    (fun y hy hyt => by rw [eq_of_notMem_erase hy hyt]) hk habove hlog
  exact ⟨_, _, bits', rfl, hrun, hbits'⟩

theorem bitarrayZap_spec (hi : i < 2 ^ logSize)
    (hlog : logSize ≤ 31) : ∃ bits', bitarrayZap bits logSize i = .ok (bits', decide (i ∈ s)) ∧
      Represents logSize bits' (s.erase i) := by
  have hroom := leaf_room h hi
  have hbit := h.leaf (leaf_lt hi)
  unfold bitarrayZap
  split_ifs with hsmall
  · have hdone := h.zap_leaf hi
    rw [zapChanged_spec (by rw [small_place hsmall]; exact hroom), small_place hsmall, hbit]
    refine ⟨zapAt bits (place (depth logSize) i), ?_, ?_⟩
    · by_cases his : i ∈ s
      · simp
      · simp
    · rw [depth_small hsmall] at hdone ⊢
      exact hdone.represents h.bound_erase
  · dsimp only
    by_cases his : i ∈ s
    · obtain ⟨bits₁, clear, bits', hleaf, hrun, hbits'⟩ := zap_spec h his hlog hsmall
      rw [hleaf, ok_bind, decide_eq_true his]
      refine ⟨bits', ?_, hbits'⟩
      match clear with
      | true =>
        rw [if_pos rfl] at hrun
        rw [hrun]
        rfl
      | false =>
        rw [← Except.ok.inj hrun]
        rfl
    · have hroom' := room h.length hi le_rfl
      rw [above_self] at hroom'
      rw [leaf_word hsmall, node_index, node_bit, num64b_eq,
        zapChangedGoDown_spec hroom' (Nat.mod_lt _ (by decide)), node_place, hbit,
        decide_eq_false his, Finset.erase_eq_of_notMem his,
        zapAt_of_bitAt hroom (hbit.trans (decide_eq_false his))]
      exact ⟨bits, rfl, h⟩

theorem across_least {k : ℕ} (hm : m ∈ s)
    (hleast : ∀ x ∈ s, m ≤ x) (hlog : logSize ≤ 31) (hk : k + 1 = depth logSize) :
    adjustOffsetForFfsAcrossSummaries bits 0 (above (depth logSize) 0 m + 1 - 1) (k + 1) =
      .ok (levelStart k, above (depth logSize) k m) := by
  have hdepth := depth_le hlog
  rw [adjustOffsetForFfsAcrossSummaries, if_pos (by omega), Nat.add_sub_cancel,
    Nat.add_sub_cancel, adjustOffsets_least h hm hleast hlog (by omega)]

theorem bitarrayFirstSet_least (hm : m ∈ s)
    (hleast : ∀ x ∈ s, m ≤ x) (hlog : logSize ≤ 31) :
    bitarrayFirstSet bits logSize = .ok (m + 1) := by
  rw [bitarrayFirstSet, ffs_top h hm hleast, ok_bind]
  by_cases hsmall : logSize ≤ nb
  · rw [if_pos hsmall, depth_small hsmall, above_self]
    rfl
  · obtain ⟨k, hk, -, hlevel, habove⟩ := exists_level hsmall
    have hbound : m < 2 ^ 31 := (h.bound m hm).trans_le (Nat.pow_le_pow_right (by decide) hlog)
    rw [if_neg (by omega)]
    dsimp only
    rw [hlevel, across_least h hm hleast hlog hk.symm, ok_bind]
    rw [Nat.add_sub_cancel, adjustOffset_least h hm hleast hlog (by omega), ok_bind, (habove m).1]
    rw [Nat.mod_eq_of_lt (by omega)]
    rfl

omit h in
theorem bitarrayFirstSet_empty (h : Represents logSize bits ∅) :
    bitarrayFirstSet bits logSize = .ok 0 := by
  rw [bitarrayFirstSet, ffs_top_empty h, ok_bind, if_pos rfl, ite_self]
  rfl

omit h in
theorem pred32_of_pos (hpos : 0 < logSize) (hlog : logSize ≤ 31) :
    pred32 logSize = logSize - 1 := by
  unfold pred32
  omega

theorem bitarrayZapFirstSet_least (hm : m ∈ s)
    (hleast : ∀ x ∈ s, m ≤ x) (hpos : 0 < logSize) (hlog : logSize ≤ 31) :
    ∃ bits', bitarrayZapFirstSet bits logSize = .ok (bits', some m) ∧
      Represents logSize bits' (s.erase m) := by
  rw [bitarrayZapFirstSet, ffs_top h hm hleast, ok_bind, if_neg (by omega),
    pred32_of_pos hpos hlog]
  dsimp only
  by_cases hsmall : logSize ≤ nb
  · have hdone := h.zap_leaf (h.bound m hm)
    have hroom := leaf_room h (h.bound m hm)
    have hzero : (logSize - 1) / nb = 0 := Nat.div_eq_of_lt (by
      omega)
    rw [if_pos hzero, depth_small hsmall, above_self,
      zapSimple_spec (by rw [small_place hsmall]; exact hroom), small_place hsmall]
    refine ⟨_, rfl, ?_⟩
    rw [depth_small hsmall] at hdone ⊢
    exact hdone.represents h.bound_erase
  · obtain ⟨k, hk, hlow, hlevel, habove⟩ := exists_level hsmall
    obtain ⟨bits₁, clear, bits', hleaf, hrun, hbits'⟩ := zap_spec h hm hlog hsmall
    rw [hlow] at hleaf hrun
    rw [hlevel, if_neg (by omega), across_least h hm hleast hlog hk.symm, ok_bind]
    rw [Nat.add_sub_cancel, adjustOffset_least h hm hleast hlog (by omega), ok_bind, (habove m).1]
    rw [hleaf, ok_bind]
    refine ⟨bits', ?_, hbits'⟩
    match clear with
    | true =>
      rw [if_pos rfl] at hrun
      rw [hrun]
      rfl
    | false =>
      rw [← Except.ok.inj hrun]
      rfl

end

theorem bitarrayZapFirstSet_empty (h : Represents logSize bits ∅) :
    bitarrayZapFirstSet bits logSize = .ok (bits, none) := by
  rw [bitarrayZapFirstSet, ffs_top_empty h]
  rfl

/-- For an array of one bit `(log_size - 1) / NB` wraps and no case of the `switch` is left. -/
theorem bitarrayZapFirstSet_one (h : Represents 0 bits s) (hm : m ∈ s)
    (hleast : ∀ x ∈ s, m ≤ x) : bitarrayZapFirstSet bits 0 = .error .abort := by
  rw [bitarrayZapFirstSet, ffs_top h hm hleast]
  rfl

end

/-! ## Clearing several of the least indices -/

section

variable {logSize m max : ℕ} {bits : Bits} {s : Finset ℕ}

/-- The first index of the node of `m`. -/
def nodeBase (m : ℕ) : ℕ := 512 * (m / 512)

theorem node_base_place {L b : ℕ} :
    64 * (levelStart L + m / 512 * 8) + b = place L (nodeBase m + b) := by
  unfold place nodeBase
  omega

theorem nodeBase_add_lt (hm : m < 2 ^ logSize) {b : ℕ} (hb : b < 512) :
    nodeBase m + b < 512 ^ (depth logSize + 1) := by
  have hlt := leaf_lt hm
  unfold nodeBase
  omega

/-- The bits of the node of `m`, from the lowest on. -/
theorem lowest_node (h : Represents logSize bits s) (hm : m < 2 ^ logSize) :
    (lowest bits (levelStart (depth logSize) + m / 512 * 8) 8 max).map (· + nodeBase m) =
      (block s (nodeBase m) 512).take max := by
  have hnode : members (fun b => bitAt bits (64 * (levelStart (depth logSize) + m / 512 * 8) + b))
      512 = members (fun b => decide (nodeBase m + b ∈ s)) 512 := by
    apply members_congr
    intro b hb
    rw [node_base_place, h.leaf (nodeBase_add_lt hm hb)]
  rw [lowest, hnode, block, ← map_take]
  apply map_congr_left
  intro b _
  exact add_comm _ _

/-- `FFS_and_zap_word` on the node of `m`: its least indices are listed and leave the last
level. -/
theorem ffsAndZapWord_node (h : Represents logSize bits s) (hm : m < 2 ^ logSize) (hmax : 0 < max) :
    ∃ bits', ffsAndZapWord bits (levelStart (depth logSize) + m / 512 * 8) max (nodeBase m) =
        .ok (bits', (block s (nodeBase m) 512).take max) ∧ Between logSize bits' (depth logSize) s
        (s \ ((block s (nodeBase m) 512).take max).toFinset) := by
  have hroom := room h.length hm le_rfl
  rw [above_self] at hroom
  obtain ⟨bits', hrun, hlen, hbits⟩ := ffsAndZapWord_spec hroom hmax
  rw [lowest_node h hm] at hrun
  have hat : ∀ c j, (∀ b ∈ lowest bits (levelStart (depth logSize) + m / 512 * 8) 8 max,
      place c j ≠ 64 * (levelStart (depth logSize) + m / 512 * 8) + b) ↔
      ∀ i ∈ (block s (nodeBase m) 512).take max, place c j ≠ place (depth logSize) i := by
    intro c j
    rw [← lowest_node h hm, List.forall_mem_map]
    refine forall₂_congr fun b _ => ?_
    rw [node_base_place, add_comm]
  refine ⟨bits', hrun, hlen.trans h.length, fun c hc j hj => ?_, fun c hle hc j hj => ?_⟩
  · rw [hbits, decide_eq_true, Bool.and_true]
    · exact h.level c (by omega) j hj
    · rw [hat]
      intro i hi
      have his := (mem_block.mp (mem_of_mem_take hi)).1
      exact place_ne hc.ne hj (leaf_lt (h.bound i his))
  · obtain rfl : c = depth logSize := by omega
    rw [hbits, Bool.and_eq_true, decide_eq_true_eq, hat, h.level _ le_rfl j hj]
    simp only [above_self, exists_eq_right, Finset.mem_sdiff, List.mem_toFinset, place_inj, Ne]
    refine and_congr_right fun _ => ⟨fun hall hj => hall j hj rfl, fun hnot i hi hji => ?_⟩
    rw [hji] at hnot
    exact hnot hi

theorem block_length_pos (hm : m ∈ s) : 0 < (block s (nodeBase m) 512).length := by
  apply length_pos_of_mem
  rw [mem_block]
  unfold nodeBase
  exact ⟨hm, by omega, by omega⟩

/-- When fewer than `max` indices are listed, the node is empty. -/
theorem clear_of_length_lt {t : Finset ℕ} (h : Between logSize bits (depth logSize) s t)
    (hm : m < 2 ^ logSize) (ht : t = s \ ((block s (nodeBase m) 512).take max).toFinset)
    (hshort : ((block s (nodeBase m) 512).take max).length < max) :
    Clear bits (levelStart (depth logSize) + m / 512 * 8) 8 := by
  intro b hb
  rw [node_base_place]
  by_contra hset
  rw [Bool.not_eq_false, h.high _ le_rfl le_rfl _ (nodeBase_add_lt hm hb)] at hset
  obtain ⟨x, hx, hxb⟩ := hset
  rw [above_self] at hxb
  rw [length_take] at hshort
  rw [ht, take_of_length_le (by omega), Finset.mem_sdiff, List.mem_toFinset, mem_block] at hx
  exact hx.2 ⟨hx.1, by omega, by omega⟩

/-- One round: the least indices of the first node that has any. -/
theorem zapNode_spec {k zapped : ℕ} (hlog : logSize ≤ 31) (hk : depth logSize = k + 1)
    (habove : ∀ i, above (depth logSize) (k + 1) i = i ∧ above (depth logSize) k i = i / 512)
    (hmax : zapped < max) (h : Represents logSize bits s) (hm : m ∈ s) :
    ∃ bits', zapNode bits (levelStart (k + 1) + m / 512 * 8) (m / 512) (k + 1) max zapped =
        .ok (bits', (block s (nodeBase m) 512).take (max - zapped)) ∧
      Represents logSize bits' (s \ ((block s (nodeBase m) 512).take (max - zapped)).toFinset) := by
  have hbase : (m / 512) <<< nb = nodeBase m := by
    rw [Nat.shiftLeft_eq, mul_comm]
    rfl
  have hroom := room h.length (h.bound m hm) le_rfl
  rw [above_self] at hroom
  have hlimit : 0 < max - zapped := by omega
  obtain ⟨bits₁, hzap, hbits₁⟩ := ffsAndZapWord_node h (h.bound m hm) hlimit
  generalize hout : (block s (nodeBase m) 512).take (max - zapped) = out at *
  -- with fewer than `max` indices the node is empty, so the test is always for that
  have hclear : nodeZapped bits₁ (levelStart (k + 1) + m / 512 * 8) (zapped + out.length) max =
      .ok (decide (Clear bits₁ (levelStart (k + 1) + m / 512 * 8) 8)) := by
    unfold nodeZapped
    rw [← hk]
    split_ifs with hshort
    · rw [decide_eq_true (clear_of_length_lt hbits₁ (h.bound m hm) (by rw [hout])
        (by rw [hout]; omega))]
      rfl
    · apply allZeros_spec
      rw [hbits₁.length, ← h.length]
      exact hroom
  have hgone : ∀ y ∈ s, y ∉ s \ out.toFinset → y / 512 = m / 512 := by
    intro y hy hyt
    rw [Finset.mem_sdiff, List.mem_toFinset, not_and_not_right] at hyt
    have hblock := mem_block.mp (mem_of_mem_take (hout ▸ hyt hy))
    unfold nodeBase at hblock
    omega
  obtain ⟨bits', hrun, hbits'⟩ := zapSummaries_node (hk ▸ hbits₁) h.bound hm
    Finset.sdiff_subset hgone hk habove hlog
  refine ⟨bits', ?_, hbits'⟩
  rw [zapNode, hbase, ← hk, hzap, ok_bind]
  dsimp only
  rw [hk, hclear, ok_bind, Nat.add_sub_cancel]
  split_ifs at hrun ⊢
  · rw [hrun]
    rfl
  · rw [Except.ok.inj hrun]
    rfl

/-- **The loop of `bitarray_zap_first_set_multiple`** lists the least indices in order. -/
theorem zapFirstSetLoop_spec {k fuel zapped : ℕ} (hlog : logSize ≤ 31) (hk : depth logSize = k + 1)
    (habove : ∀ i, above (depth logSize) (k + 1) i = i ∧ above (depth logSize) k i = i / 512)
    (hfuel : max - zapped < fuel) (h : Represents logSize bits s) :
    ∃ bits', zapFirstSetLoop (k + 1) max fuel bits zapped =
        .ok (bits', (s.sort (· ≤ ·)).take (max - zapped)) ∧
      Represents logSize bits' (s \ ((s.sort (· ≤ ·)).take (max - zapped)).toFinset) := by
  induction fuel generalizing bits s zapped with
  | zero => omega
  | succ fuel ih =>
    rw [zapFirstSetLoop]
    split_ifs with hmax
    · rcases s.eq_empty_or_nonempty with rfl | hne
      · rw [ffs_top_empty h, Finset.sort_empty, take_nil]
        exact ⟨bits, rfl, h⟩
      obtain ⟨m, hm, hleast⟩ : ∃ m ∈ s, ∀ x ∈ s, m ≤ x :=
        ⟨s.min' hne, s.min'_mem hne, fun x hx => s.min'_le x hx⟩
      obtain ⟨bits₁, hnode, hbits₁⟩ := zapNode_spec hlog hk habove hmax h hm
      have hsort : s.sort (· ≤ ·) = block s (nodeBase m) 512 ++
          (s \ (block s (nodeBase m) 512).toFinset).sort (· ≤ ·) := by
        apply sort_eq_block_append
        intro x hx
        have := hleast x hx
        unfold nodeBase
        omega
      rw [ffs_top h hm hleast, ok_bind, across_least h hm hleast hlog hk.symm, ok_bind]
      dsimp only
      rw [Nat.add_sub_cancel, levelStart_add, (habove m).2, num64b_eq, hnode, ok_bind]
      have hpos := block_length_pos hm
      generalize block s (nodeBase m) 512 = first at *
      have hlen : (first.take (max - zapped)).length = min (max - zapped) first.length :=
        length_take
      obtain ⟨bits', hrest, hbits'⟩ := ih (show max - (zapped +
        (first.take (max - zapped)).length) < fuel by omega) hbits₁
      have hlist : (s.sort (· ≤ ·)).take (max - zapped) = first.take (max - zapped) ++
          ((s \ (first.take (max - zapped)).toFinset).sort (· ≤ ·)).take
            (max - (zapped + (first.take (max - zapped)).length)) := by
        rw [hsort, take_append]
        rcases le_total first.length (max - zapped) with hle | hge
        · rw [take_of_length_le hle, Nat.sub_sub]
        · rw [show max - (zapped + (first.take (max - zapped)).length) = 0 by omega,
            show max - zapped - first.length = 0 by omega, take_zero, take_zero]
      refine ⟨bits', ?_, ?_⟩
      · rw [hrest, hlist]
        rfl
      · rwa [hlist, toFinset_append, ← Finset.sup_eq_union, ← sdiff_sdiff_left]
    · rw [Nat.sub_eq_zero_of_le (by omega)]
      exact ⟨bits, rfl, by simpa using h⟩

theorem bitarrayZapFirstSetMultiple_spec (h : Represents logSize bits s) (hlog : logSize ≤ 31)
    (hmax : 0 < max) : ∃ bits', bitarrayZapFirstSetMultiple bits logSize max =
        .ok (bits', (s.sort (· ≤ ·)).take max) ∧
      Represents logSize bits' (s \ ((s.sort (· ≤ ·)).take max).toFinset) := by
  unfold bitarrayZapFirstSetMultiple
  split_ifs with hsmall
  · have hbound : ∀ x ∈ s, x < 2 ^ 9 := fun x hx =>
      (h.bound x hx).trans_le (Nat.pow_le_pow_right (by decide) hsmall)
    have hempty : s \ (block s 0 512).toFinset = ∅ := by
      rw [Finset.sdiff_eq_empty_iff_subset]
      intro x hx
      rw [List.mem_toFinset, mem_block]
      exact ⟨hx, zero_le, by simpa using hbound x hx⟩
    have hsort : s.sort (· ≤ ·) = block s 0 512 := by
      rw [sort_eq_block_append fun x _ => zero_le, hempty,
        Finset.sort_empty, append_nil]
    obtain ⟨bits', hrun, hbits'⟩ := ffsAndZapWord_node h (Nat.two_pow_pos logSize) hmax
    rw [depth_small hsmall] at hrun hbits'
    rw [hsort]
    exact ⟨bits', hrun, hbits'.represents fun x hx => h.bound x (Finset.sdiff_subset hx)⟩
  · obtain ⟨k, hk, -, hlevel, habove⟩ := exists_level hsmall
    rw [hlevel]
    exact zapFirstSetLoop_spec hlog hk habove (Nat.lt_succ_self max) h

end

/-! ## Every sequence of calls -/

/-- A call, with its arguments. -/
inductive Op
  | get (index : ℕ)
  | set (index : ℕ)
  | zap (index : ℕ)
  | firstSet
  | zapFirstSet
  | zapFirstSetMultiple (max : ℕ)
  deriving DecidableEq, Repr

/-- What a call returns or stores for its caller. -/
inductive Result
  | bool (value : Bool)
  | index (value : ℕ)
  | found (index : Option ℕ)
  | indices (values : List ℕ)
  deriving DecidableEq, Repr

/-- The indices are below `2 ^ log_size`, and `max` is at least 1. -/
def Op.Legal (logSize : ℕ) : Op → Prop
  | get index | set index | zap index => index < 2 ^ logSize
  | firstSet | zapFirstSet => True
  | zapFirstSetMultiple max => 1 ≤ max

instance {logSize : ℕ} : (op : Op) → Decidable (op.Legal logSize)
  | .get index | .set index | .zap index => inferInstanceAs (Decidable (index < 2 ^ logSize))
  | .firstSet | .zapFirstSet => inferInstanceAs (Decidable True)
  | .zapFirstSetMultiple max => inferInstanceAs (Decidable (1 ≤ max))

/-- A call on the memory of a bit array. -/
def exec (logSize : ℕ) (bits : Bits) : Op → Except Trap (Bits × Result)
  | .get index => do
    let value ← bitarrayGet bits logSize index
    pure (bits, .bool value)
  | .set index => do
    let (bits, changed) ← bitarraySet bits logSize index
    pure (bits, .bool changed)
  | .zap index => do
    let (bits, changed) ← bitarrayZap bits logSize index
    pure (bits, .bool changed)
  | .firstSet => do
    let value ← bitarrayFirstSet bits logSize
    pure (bits, .index value)
  | .zapFirstSet => do
    let (bits, index) ← bitarrayZapFirstSet bits logSize
    pure (bits, .found index)
  | .zapFirstSetMultiple max => do
    let (bits, indices) ← bitarrayZapFirstSetMultiple bits logSize max
    pure (bits, .indices indices)

/-- Calls one after the other, with their results. -/
def execAll (logSize : ℕ) (bits : Bits) : List Op → Except Trap (List Result)
  | [] => pure []
  | op :: ops => do
    let (bits, result) ← exec logSize bits op
    let results ← execAll logSize bits ops
    pure (result :: results)

/-- The same call on a set of indices. -/
def specify (s : Finset ℕ) : Op → Finset ℕ × Result
  | .get index => (s, .bool (decide (index ∈ s)))
  | .set index => (insert index s, .bool (decide (index ∉ s)))
  | .zap index => (s.erase index, .bool (decide (index ∈ s)))
  | .firstSet => (s, .index (if h : s.Nonempty then s.min' h + 1 else 0))
  | .zapFirstSet =>
    if h : s.Nonempty then (s.erase (s.min' h), .found (some (s.min' h))) else (s, .found none)
  | .zapFirstSetMultiple max =>
    (s \ ((s.sort (· ≤ ·)).take max).toFinset, .indices ((s.sort (· ≤ ·)).take max))

/-- The results of calls on a set of indices. -/
def specifyAll (s : Finset ℕ) : List Op → List Result
  | [] => []
  | op :: ops => (specify s op).2 :: specifyAll (specify s op).1 ops

/-- No `bitarray_zap_first_set` on the set bit of an array of one bit. -/
def Avoids (logSize : ℕ) (s : Finset ℕ) : List Op → Prop
  | [] => True
  | op :: ops => ¬ (logSize = 0 ∧ op = .zapFirstSet ∧ s.Nonempty) ∧
      Avoids logSize (specify s op).1 ops

section

variable {logSize : ℕ} {bits : Bits} {s : Finset ℕ} {op : Op}

/-- A new bit array is the empty set. -/
theorem represents_create (logSize : ℕ) : Represents logSize (bitarrayCreate logSize) ∅ where
  length := length_replicate
  bound := by simp
  level k _ j _ := by
    have hzero : (bitarrayCreate logSize).getD (place k j / 64) 0 = 0 := by
      rw [getD_eq_getElem?_getD, bitarrayCreate, getElem?_replicate]
      split_ifs
      · rfl
      · rfl
    rw [bitAt, hzero]
    simp

/-- **One call**: unless it is the one that aborts, it does what it does on the set. -/
theorem exec_spec (hlog : logSize ≤ 31) (h : Represents logSize bits s) (hop : op.Legal logSize)
    (havoid : ¬ (logSize = 0 ∧ op = .zapFirstSet ∧ s.Nonempty)) :
    ∃ bits', exec logSize bits op = .ok (bits', (specify s op).2) ∧
      Represents logSize bits' (specify s op).1 := by
  match op with
  | .get index =>
    refine ⟨bits, ?_, h⟩
    rw [exec, bitarrayGet_spec h hop]
    rfl
  | .set index =>
    obtain ⟨bits', hrun, hbits'⟩ := bitarraySet_spec h hop hlog
    refine ⟨bits', ?_, hbits'⟩
    rw [exec, hrun]
    rfl
  | .zap index =>
    obtain ⟨bits', hrun, hbits'⟩ := bitarrayZap_spec h hop hlog
    refine ⟨bits', ?_, hbits'⟩
    rw [exec, hrun]
    rfl
  | .firstSet =>
    refine ⟨bits, ?_, h⟩
    rcases s.eq_empty_or_nonempty with rfl | hne
    · rw [exec, bitarrayFirstSet_empty h]
      rfl
    · rw [exec, bitarrayFirstSet_least h (s.min'_mem hne) (fun x hx => s.min'_le x hx) hlog,
        specify, dif_pos hne]
      rfl
  | .zapFirstSet =>
    rcases s.eq_empty_or_nonempty with rfl | hne
    · refine ⟨bits, ?_, h⟩
      rw [exec, bitarrayZapFirstSet_empty h]
      rfl
    · have hpos : 0 < logSize := Nat.pos_of_ne_zero fun h0 => havoid ⟨h0, rfl, hne⟩
      obtain ⟨bits', hrun, hbits'⟩ := bitarrayZapFirstSet_least h (s.min'_mem hne)
        (fun x hx => s.min'_le x hx) hpos hlog
      rw [exec, hrun, specify, dif_pos hne]
      exact ⟨bits', rfl, hbits'⟩
  | .zapFirstSetMultiple max =>
    obtain ⟨bits', hrun, hbits'⟩ := bitarrayZapFirstSetMultiple_spec h hlog hop
    refine ⟨bits', ?_, hbits'⟩
    rw [exec, hrun]
    rfl

theorem execAll_iff (hlog : logSize ≤ 31) {ops : List Op} (hops : ∀ op ∈ ops, op.Legal logSize)
    (h : Represents logSize bits s) :
    execAll logSize bits ops = .ok (specifyAll s ops) ↔ Avoids logSize s ops := by
  induction ops generalizing bits s with
  | nil => exact ⟨fun _ => trivial, fun _ => rfl⟩
  | cons op ops ih =>
    rw [forall_mem_cons] at hops
    rw [Avoids]
    by_cases havoid : logSize = 0 ∧ op = .zapFirstSet ∧ s.Nonempty
    · obtain ⟨rfl, rfl, hne⟩ := havoid
      rw [execAll, exec, bitarrayZapFirstSet_one h (s.min'_mem hne) fun x hx => s.min'_le x hx]
      constructor
      · intro herr
        exact absurd herr (by nofun)
      · intro hnot
        exact absurd ⟨rfl, rfl, hne⟩ hnot.1
    · obtain ⟨bits', hrun, hbits'⟩ := exec_spec hlog h hops.1 havoid
      rw [execAll, hrun, ok_bind, ← ih hops.2 hbits', and_iff_right havoid, specifyAll]
      dsimp only
      cases execAll logSize bits' ops with
      | error e => exact ⟨by nofun, by nofun⟩
      | ok results =>
        constructor
        · intro heq
          have := Except.ok.inj heq
          rw [cons_eq_cons] at this
          rw [this.2]
        · intro heq
          rw [Except.ok.inj heq]
          rfl

end

/-- **Refinement**: for every `log_size` up to 31 and every sequence of calls with indices below
`2 ^ log_size` on a new bit array, no call leaves the memory of the array and the results are those
of a set of indices, exactly if `bitarray_zap_first_set` is never called while the one bit of an
array with `log_size` 0 is set. -/
theorem bitarray_refines_iff (logSize : ℕ) (hlog : logSize ≤ 31) (ops : List Op)
    (hops : ∀ op ∈ ops, op.Legal logSize) :
    execAll logSize (bitarrayCreate logSize) ops = .ok (specifyAll ∅ ops) ↔ Avoids logSize ∅ ops :=
  execAll_iff hlog hops (represents_create logSize)

/-- The calls of `bitarray_refines_two_levels`. -/
def sample : List Op :=
  [.set 700, .set 3, .set 700, .get 3, .firstSet, .zapFirstSet, .set 701, .zapFirstSetMultiple 2,
    .firstSet]

theorem bitarray_refines_two_levels :
    execAll 10 (bitarrayCreate 10) sample = .ok (specifyAll ∅ sample) := by
  refine (bitarray_refines_iff 10 (by decide) sample (by decide)).mpr ?_
  simp [sample, Avoids]

/-- An array of one bit: setting it and asking for the first bit to be cleared aborts. -/
theorem bitarray_one_bit_aborts :
    execAll 0 (bitarrayCreate 0) [.set 0, .zapFirstSet] = .error .abort ∧
      specifyAll ∅ [.set 0, .zapFirstSet] = [.bool true, .found (some 0)] := by
  decide +kernel

end Apple.Malloc.BitArray
