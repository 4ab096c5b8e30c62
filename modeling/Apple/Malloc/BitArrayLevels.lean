import Mathlib.Tactic
import Apple.Malloc.BitArray

/-!
# The levels of a bit array

The levels of a bit array of `libmalloc-67/src/bitarray.c` are numbered from the top: level 0 is
one node, level `k` has `512 ^ k` nodes, and level `depth` holds the bits themselves. A bit of level
`k` stands for `512 ^ (depth - k)` indices. `Represents` says that every level marks exactly what
the set has under it, `Between` how far an update has climbed.

Results:
* `setSummaries_spec`, `zapSummariesFrom_spec`: climbing the summaries after a change.
* `adjustOffsets_least`: descending the summaries finds the least index.
-/

namespace Apple.Malloc.BitArray

open Apple.Lib Nat

/-! ## Levels -/

/-- The first word of level `k`. -/
def levelStart : (k : ℕ) → ℕ
  | 0 => 0
  | k + 1 => levelsNumWords k

/-- The place of bit `j` of level `k` in the memory. -/
def place (k j : ℕ) : ℕ := 64 * levelStart k + j

/-- The level of the bits themselves. -/
def depth (logSize : ℕ) : ℕ := if logSize ≤ 9 then 0 else (logSize - 10) / 9 + 1

theorem levelStart_succ (k : ℕ) : levelStart (k + 1) = levelStart k + 512 ^ k * 8 := by
  have hpow : (1 <<< (nb * k)) * num64b = 512 ^ k * 8 := by
    rw [shiftLeft_eq, one_mul, pow_mul]
    rfl
  rw [← hpow]
  match k with
  | 0 => rfl
  | k + 1 => rfl

theorem place_succ_zero (k : ℕ) : place (k + 1) 0 = place k (512 ^ (k + 1)) := by
  rw [place, place, levelStart_succ]
  omega

variable {k logSize : ℕ}

theorem levelStart_mono {k' : ℕ} (h : k ≤ k') : levelStart k ≤ levelStart k' := by
  refine monotone_nat_of_le_succ (fun n => ?_) h
  rw [levelStart_succ]
  omega

/-- The bits of a level come before those of the levels after it. -/
theorem place_lt {k' j : ℕ} (hk : k < k') (hj : j < 512 ^ (k + 1)) (j' : ℕ) :
    place k j < place k' j' := by
  have hmono : levelStart (k + 1) ≤ levelStart k' := levelStart_mono hk
  have hsucc := place_succ_zero k
  unfold place at hsucc ⊢
  omega

theorem place_ne {k' j j' : ℕ} (hk : k ≠ k') (hj : j < 512 ^ (k + 1))
    (hj' : j' < 512 ^ (k' + 1)) : place k j ≠ place k' j' := by
  rcases lt_or_gt_of_ne hk with h | h
  · exact (place_lt h hj j').ne
  · exact (place_lt h hj' j).ne'

theorem place_inj {j j' : ℕ} : place k j = place k j' ↔ j = j' := by
  unfold place
  omega

theorem num64b_eq : num64b = 8 := rfl

theorem node_index (j : ℕ) : j >>> nb = j / 512 := shiftRight_eq_div_pow _ _

theorem node_bit (j : ℕ) : j &&& (1 <<< nb - 1) = j % 512 := by
  rw [show (1 <<< nb - 1 : ℕ) = 2 ^ 9 - 1 from rfl, and_two_pow_sub_one_eq_mod]

/-- The node of a bit and the place in the node. -/
theorem node_place (k j : ℕ) : 64 * (levelStart k + j / 512 * 8) + j % 512 = place k j := by
  unfold place
  omega

theorem two_pow_le (logSize : ℕ) : 2 ^ logSize ≤ 512 ^ (depth logSize + 1) := by
  rw [show (512 : ℕ) = 2 ^ 9 from rfl, ← pow_mul]
  apply Nat.pow_le_pow_right (by decide)
  unfold depth
  split_ifs
  · omega
  · omega

theorem depth_level (h : ¬ logSize ≤ 9) : depth logSize = (logSize - nb - 1) / nb + 1 := by
  rw [depth, if_neg h]
  rfl

theorem depth_level' (h : ¬ logSize ≤ 9) : depth logSize = (logSize - 1) / nb := by
  rw [depth, if_neg h, show nb = 9 from rfl]
  omega

theorem sixtyFour_mul_bitarraySize (logSize : ℕ) : 64 * bitarraySize logSize =
      64 * levelStart (depth logSize) + if logSize ≤ 9 then 512 else 2 ^ logSize := by
  unfold bitarraySize
  by_cases h : logSize ≤ 9
  · rw [if_neg (by show ¬ logSize > 9; omega), if_pos h, depth, if_pos h]
    rfl
  · have hlarge : logSize > nb := Nat.lt_of_not_le h
    rw [if_pos hlarge, if_neg h, depth_level h]
    have hsplit : 2 ^ logSize = 64 * 2 ^ (logSize - 6) := by
      rw [show (64 : ℕ) = 2 ^ 6 from rfl, ← pow_add]
      congr 1
      omega
    simp only [levelStart]
    omega

/-- The bit of level `k` over index `i`. -/
def above (L k i : ℕ) : ℕ := i / 512 ^ (L - k)

theorem above_self (L i : ℕ) : above L L i = i := by
  rw [above, Nat.sub_self, pow_zero, Nat.div_one]

theorem above_succ {L : ℕ} (hk : k < L) (i : ℕ) : above L (k + 1) i / 512 = above L k i := by
  rw [above, Nat.div_div_eq_div_mul, ← pow_succ]
  congr 2
  omega

theorem above_eq_of_le {L c : ℕ} (hk : k ≤ L) (hc : c ≤ k) {x i : ℕ}
    (h : above L k x = above L k i) : above L c x = above L c i := by
  have hsplit : ∀ y, above L c y = above L k y / 512 ^ (k - c) := by
    intro y
    rw [above, above, Nat.div_div_eq_div_mul, ← pow_add]
    congr 2
    omega
  rw [hsplit, hsplit, h]

theorem above_lt {i : ℕ} (hk : k ≤ depth logSize) (hi : i < 2 ^ logSize) :
    above (depth logSize) k i < 512 ^ (k + 1) := by
  rw [above, Nat.div_lt_iff_lt_mul (by positivity), ← pow_add]
  refine hi.trans_le ((two_pow_le logSize).trans (le_of_eq ?_))
  congr 1
  omega

/-- The node of a bit lies inside of the memory. -/
theorem node_room {i : ℕ} (hk : k ≤ depth logSize) (hi : i < 2 ^ logSize) :
    levelStart k + above (depth logSize) k i / 512 * 8 + 8 ≤ bitarraySize logSize := by
  have hsize := sixtyFour_mul_bitarraySize logSize
  rcases Nat.lt_or_eq_of_le hk with hlt | rfl
  · have hj := above_lt hk hi
    have hmono : levelStart (k + 1) ≤ levelStart (depth logSize) := levelStart_mono hlt
    have hsucc := levelStart_succ k
    split_ifs at hsize
    · omega
    · omega
  · rw [above_self]
    split_ifs at hsize with hsmall
    · have : 2 ^ logSize ≤ 2 ^ 9 := Nat.pow_le_pow_right (by decide) hsmall
      omega
    · obtain ⟨r, rfl⟩ : ∃ r, logSize = 9 + r := ⟨logSize - 9, by omega⟩
      rw [pow_add] at hi hsize
      omega


/-! ## What a level marks -/

/-- Level `k` marks exactly the nodes, or the indices, that `s` has an element under. -/
def LevelOk (L : ℕ) (bits : Bits) (k : ℕ) (s : Finset ℕ) : Prop :=
  ∀ j < 512 ^ (k + 1), bitAt bits (place k j) = true ↔ ∃ i ∈ s, above L k i = j

section

variable {logSize L k c i : ℕ} {bits bits' : Bits} {s t : Finset ℕ}

theorem LevelOk.congr (h : LevelOk L bits k s)
    (hst : ∀ j, (∃ i ∈ s, above L k i = j) ↔ ∃ i ∈ t, above L k i = j) : LevelOk L bits k t :=
  fun j hj => (h j hj).trans (hst j)

variable {x j : ℕ}

/-- A new index next to one that is there already changes nothing from level `k` up. -/
theorem LevelOk.insert_of_near (h : LevelOk L bits c s) (hk : k ≤ L) (hc : c ≤ k)
    (hx : x ∈ s) (hnear : above L k x = above L k i) : LevelOk L bits c (insert i s) := by
  apply h.congr
  intro j
  rw [Finset.exists_mem_insert, ← above_eq_of_le hk hc hnear]
  exact ⟨Or.inr, fun hj => hj.elim (fun e => ⟨x, hx, e⟩) id⟩

/-- From `s` to `t` only indices under the bit over `i` at level `k` go. -/
structure Shrinks (L k i : ℕ) (s t : Finset ℕ) : Prop where
  subset : t ⊆ s
  gone : ∀ y ∈ s, y ∉ t → above L k y = above L k i

/-- Taking indices away next to one that stays changes nothing from level `k` up. -/
theorem LevelOk.remove_of_near (h : LevelOk L bits c s) (hk : k ≤ L) (hc : c ≤ k)
    (hgone : Shrinks L k i s t) (hx : x ∈ t) (hnear : above L k x = above L k i) : LevelOk L bits c t := by
  apply h.congr
  intro j
  constructor
  · rintro ⟨y, hy, rfl⟩
    by_cases hyt : y ∈ t
    · exact ⟨y, hyt, rfl⟩
    · exact ⟨x, hx, above_eq_of_le hk hc (hnear.trans (hgone.gone y hy hyt).symm)⟩
  · rintro ⟨y, hy, rfl⟩
    exact ⟨y, hgone.subset hy, rfl⟩

/-- A node is clear when no bit of it is set. -/
theorem clear_node : Clear bits (levelStart k + j / 512 * 8) 8 ↔
    ∀ j', j' / 512 = j / 512 → bitAt bits (place k j') = false := by
  constructor
  · intro h j' hj'
    have := h (j' % 512) (by omega)
    rwa [show 64 * (levelStart k + j / 512 * 8) + j' % 512 = place k j' by
      unfold place; omega] at this
  · intro h b hb
    have := h (512 * (j / 512) + b) (by omega)
    rwa [show place k (512 * (j / 512) + b) = 64 * (levelStart k + j / 512 * 8) + b by
      unfold place; omega] at this

/-- A word that is not 0 has a bit of its node set. -/
theorem exists_of_word_ne_zero (h : bits.getD (place k j / 64) 0 ≠ 0) :
    ∃ j', j' / 512 = j / 512 ∧ bitAt bits (place k j') = true := by
  rw [Ne, getD_eq_zero_iff] at h
  push Not at h
  obtain ⟨b, hb, hbit⟩ := h
  refine ⟨64 * (j / 64) + b, by omega, ?_⟩
  rw [show place k (64 * (j / 64) + b) = 64 * (place k j / 64) + b by unfold place; omega]
  simpa using hbit

variable (hlen : bits.length = bitarraySize logSize) (hi : i < 2 ^ logSize)
  (hk : k ≤ depth logSize)

include hlen hi hk

theorem room : levelStart k + above (depth logSize) k i / 512 * 8 + 8 ≤ bits.length := by
  rw [hlen]
  exact node_room hk hi

theorem place_room : place k (above (depth logSize) k i) / 64 < bits.length := by
  have := room hlen hi hk
  unfold place
  omega

theorem levelOk_setAt (h : LevelOk (depth logSize) bits k s) :
    LevelOk (depth logSize) (setAt bits (place k (above (depth logSize) k i))) k (insert i s) := by
  intro j hj
  rw [bitAt_setAt (place_room hlen hi hk), Bool.or_eq_true, decide_eq_true_eq, place_inj, h j hj,
    Finset.exists_mem_insert, eq_comm]

theorem levelOk_zapAt (h : LevelOk (depth logSize) bits k s) (hgone : Shrinks (depth logSize) k i s t)
    (hnone : ∀ y ∈ t, above (depth logSize) k y ≠ above (depth logSize) k i) :
    LevelOk (depth logSize) (zapAt bits (place k (above (depth logSize) k i))) k t := by
  intro j hj
  rw [bitAt_zapAt (place_room hlen hi hk), Bool.and_eq_true, decide_eq_true_eq, Ne, place_inj,
    h j hj]
  constructor
  · rintro ⟨hne, y, hy, rfl⟩
    by_cases hyt : y ∈ t
    · exact ⟨y, hyt, rfl⟩
    · exact absurd (hgone.gone y hy hyt) hne
  · rintro ⟨y, hy, rfl⟩
    exact ⟨hnone y hy, y, hgone.subset hy, rfl⟩

end

/-! ## Climbing the summaries -/

/-- The memory has its size and marks `s` at every level. -/
structure Represents (logSize : ℕ) (bits : Bits) (s : Finset ℕ) : Prop where
  length : bits.length = bitarraySize logSize
  bound : ∀ i ∈ s, i < 2 ^ logSize
  level : ∀ k ≤ depth logSize, LevelOk (depth logSize) bits k s

/-- An update from `s` to `t` that has reached level `k`: from there on the levels mark `t`, those
above still mark `s`. -/
structure Between (logSize : ℕ) (bits : Bits) (k : ℕ) (s t : Finset ℕ) : Prop where
  length : bits.length = bitarraySize logSize
  low : ∀ c < k, LevelOk (depth logSize) bits c s
  high : ∀ c, k ≤ c → c ≤ depth logSize → LevelOk (depth logSize) bits c t

section

variable {logSize i k : ℕ} {bits : Bits} {s t : Finset ℕ}

theorem Represents.between (h : Represents logSize bits s) :
    Between logSize bits (depth logSize + 1) s t where
  length := h.length
  low c hc := h.level c (by omega)
  high c hk hc := by omega

theorem Between.represents (h : Between logSize bits 0 s t) (ht : ∀ i ∈ t, i < 2 ^ logSize) :
    Represents logSize bits t where
  length := h.length
  bound := ht
  level c hc := h.high c (Nat.zero_le c) hc

/-- The update can stop where the levels above mark `t` as well. -/
theorem Between.stop (h : Between logSize bits k s t)
    (hlow : ∀ c < k, LevelOk (depth logSize) bits c s → LevelOk (depth logSize) bits c t) :
    Between logSize bits 0 s t where
  length := h.length
  low c hc := by omega
  high c _ hc := by
    rcases lt_or_ge c k with hck | hkc
    · exact hlow c hck (h.low c hck)
    · exact h.high c hkc hc

/-- A write at level `k`. -/
theorem Between.write {bits' : Bits} (h : Between logSize bits (k + 1) s t)
    (hi : i < 2 ^ logSize) (hk : k ≤ depth logSize) (hlen : bits'.length = bits.length)
    (hother : ∀ m ≠ place k (above (depth logSize) k i), bitAt bits' m = bitAt bits m)
    (hlevel : LevelOk (depth logSize) bits' k t) : Between logSize bits' k s t := by
  have hother' : ∀ {c r}, c ≠ k → LevelOk (depth logSize) bits c r →
      LevelOk (depth logSize) bits' c r := by
    intro c r hc hok j hj
    rw [hother _ (place_ne hc hj (above_lt hk hi)), hok j hj]
  refine ⟨hlen.trans h.length, fun c hc => hother' hc.ne (h.low c (by omega)), fun c hkc hc => ?_⟩
  by_cases hck : c = k
  · rwa [hck]
  · exact hother' hck (h.high c (by omega) hc)

theorem Between.set (h : Between logSize bits (k + 1) s (insert i s)) (hi : i < 2 ^ logSize)
    (hk : k ≤ depth logSize) :
    Between logSize (setAt bits (place k (above (depth logSize) k i))) k s (insert i s) :=
  h.write hi hk length_setAt
    (fun m hm => by simp [bitAt_setAt (place_room h.length hi hk), hm])
    (levelOk_setAt h.length hi hk (h.low k (by omega)))

theorem Between.zap (h : Between logSize bits (k + 1) s t) (hi : i < 2 ^ logSize)
    (hk : k ≤ depth logSize) (hgone : Shrinks (depth logSize) k i s t)
    (hnone : ∀ y ∈ t, above (depth logSize) k y ≠ above (depth logSize) k i) :
    Between logSize (zapAt bits (place k (above (depth logSize) k i))) k s t :=
  h.write hi hk length_zapAt
    (fun m hm => by simp [bitAt_zapAt (place_room h.length hi hk), hm])
    (levelOk_zapAt h.length hi hk (h.low k (by omega)) hgone hnone)

/-- The index of a set bit in the node of the bit over `i`. -/
theorem LevelOk.exists_near (h : LevelOk (depth logSize) bits (k + 1) s) (hi : i < 2 ^ logSize)
    (hk : k < depth logSize) {j : ℕ} (hj : j / 512 = above (depth logSize) (k + 1) i / 512)
    (hbit : bitAt bits (place (k + 1) j) = true) :
    ∃ x ∈ s, above (depth logSize) k x = above (depth logSize) k i := by
  have hlt := above_lt (k := k + 1) hk hi
  obtain ⟨x, hx, rfl⟩ := (h j (by omega)).mp hbit
  rw [above_succ hk, above_succ hk] at hj
  exact ⟨x, hx, hj⟩

/-- One more bit in a node that had one already: nothing to do above. -/
theorem Between.stop_of_near {bits' : Bits} (h : Between logSize bits' (k + 1) s (insert i s))
    (hold : LevelOk (depth logSize) bits (k + 1) s) (hi : i < 2 ^ logSize)
    (hk : k < depth logSize) (hnode : ∃ j, j / 512 = above (depth logSize) (k + 1) i / 512 ∧
      bitAt bits (place (k + 1) j) = true) : Between logSize bits' 0 s (insert i s) := by
  obtain ⟨j, hj, hbit⟩ := hnode
  obtain ⟨x, hx, hnear⟩ := hold.exists_near hi hk hj hbit
  exact h.stop fun c hc hok => hok.insert_of_near hk.le (Nat.lt_succ_iff.mp hc) hx hnear

/-- A node that is clear has nothing of `t` under it. -/
theorem Between.none_of_clear (h : Between logSize bits (k + 1) s t) (hk : k < depth logSize)
    (hbound : ∀ y ∈ t, y < 2 ^ logSize)
    (hclear : Clear bits (levelStart (k + 1) + above (depth logSize) (k + 1) i / 512 * 8) 8) :
    ∀ y ∈ t, above (depth logSize) k y ≠ above (depth logSize) k i := by
  intro y hy hnear
  have hnode : above (depth logSize) (k + 1) y / 512 =
      above (depth logSize) (k + 1) i / 512 := by
    rw [above_succ hk, above_succ hk, hnear]
  have hset := (h.high (k + 1) le_rfl hk _ (above_lt hk (hbound y hy))).mpr ⟨y, hy, rfl⟩
  rw [clear_node.mp hclear _ hnode] at hset
  exact absurd hset Bool.false_ne_true

/-- A node that still has a bit: nothing to do above. -/
theorem Between.stop_of_not_clear (h : Between logSize bits (k + 1) s t) (hi : i < 2 ^ logSize)
    (hk : k < depth logSize) (hgone : Shrinks (depth logSize) k i s t)
    (hclear : ¬ Clear bits (levelStart (k + 1) + above (depth logSize) (k + 1) i / 512 * 8) 8) :
    Between logSize bits 0 s t := by
  rw [clear_node] at hclear
  push Not at hclear
  obtain ⟨j, hj, hset⟩ := hclear
  obtain ⟨x, hx, hnear⟩ := (h.high (k + 1) le_rfl hk).exists_near hi hk hj (by simpa using hset)
  exact h.stop fun c hc hok =>
    hok.remove_of_near hk.le (Nat.lt_succ_iff.mp hc) hgone hx hnear

theorem top_place (hi : i < 2 ^ logSize) :
    64 * 0 + above (depth logSize) 0 i % 512 = place 0 (above (depth logSize) 0 i) := by
  have hlt := above_lt (Nat.zero_le _) hi
  rw [mod_eq_of_lt (by simpa using hlt)]
  rfl

/-- **Climbing after a set**: the levels after `k` already mark `i`. -/
theorem setSummaries_spec (hi : i < 2 ^ logSize) (hk : k < depth logSize)
    (h : Between logSize bits (k + 1) s (insert i s)) :
    ∃ bits', setSummaries bits k (above (depth logSize) k i) = .ok bits' ∧
      Between logSize bits' 0 s (insert i s) := by
  induction k generalizing bits with
  | zero =>
    have hroom := place_room h.length hi zero_le
    rw [setSummaries, node_bit, setSimple_spec (by rw [top_place hi]; exact hroom), top_place hi]
    exact ⟨_, rfl, h.set hi zero_le⟩
  | succ k ih =>
    have hroom := place_room h.length hi hk.le
    have hdone := h.set hi hk.le
    rw [← node_place] at hroom
    rw [setSummaries, show levelsNumWords k = levelStart (k + 1) from rfl, node_index, node_bit,
      num64b_eq, setGoDown_spec hroom, node_place, above_succ (by omega)]
    have hstop := hdone.stop_of_near (h.low (k + 1) (by omega)) hi (by omega)
    by_cases hbit : bitAt bits (place (k + 1) (above (depth logSize) (k + 1) i)) = true
    · rw [if_pos hbit]
      exact ⟨_, rfl, hstop ⟨_, rfl, hbit⟩⟩
    · rw [if_neg hbit]
      by_cases hword : bits.getD (place (k + 1) (above (depth logSize) (k + 1) i) / 64) 0 = 0
      · rw [hword]
        exact ih (by omega) hdone
      · rw [beq_eq_false_iff_ne.mpr hword]
        exact ⟨_, rfl, hstop (exists_of_word_ne_zero hword)⟩

/-- **Climbing after a clear**: the levels after `k` already mark `t`, which has nothing left under
the bit over `i`. -/
theorem zapSummariesFrom_spec (hbound : ∀ y ∈ s, y < 2 ^ logSize) (his : i ∈ s)
    (hk : k < depth logSize) (h : Between logSize bits (k + 1) s t)
    (hgone : Shrinks (depth logSize) k i s t)
    (hnone : ∀ y ∈ t, above (depth logSize) k y ≠ above (depth logSize) k i) :
    ∃ bits', zapSummariesFrom bits k (above (depth logSize) k i) = .ok bits' ∧
      Between logSize bits' 0 s t := by
  have hi := hbound i his
  induction k generalizing bits with
  | zero =>
    have hroom := place_room h.length hi zero_le
    rw [zapSummariesFrom, node_bit, zapSimple_spec (by rw [top_place hi]; exact hroom),
      top_place hi]
    exact ⟨_, rfl, h.zap hi zero_le hgone hnone⟩
  | succ k ih =>
    have hroom := room h.length hi hk.le
    have hdone := h.zap hi hk.le hgone hnone
    have hbit : bitAt bits (place (k + 1) (above (depth logSize) (k + 1) i)) = true :=
      (h.low (k + 1) (by omega) _ (above_lt hk.le hi)).mpr ⟨i, his, rfl⟩
    have hgone' : Shrinks (depth logSize) k i s t :=
      ⟨hgone.subset, fun y hy hyt => above_eq_of_le hk.le (le_succ k) (hgone.gone y hy hyt)⟩
    rw [zapSummariesFrom, show levelsNumWords k = levelStart (k + 1) from rfl, node_index, node_bit,
      num64b_eq, zapGoDown_spec hroom (mod_lt _ (by decide)), node_place, if_pos hbit]
    by_cases hclear : Clear (zapAt bits (place (k + 1) (above (depth logSize) (k + 1) i)))
        (levelStart (k + 1) + above (depth logSize) (k + 1) i / 512 * 8) 8
    · rw [decide_eq_true hclear, above_succ (by omega)]
      exact ih (by omega) hdone hgone'
        (hdone.none_of_clear (by omega) (fun y hy => hbound y (hgone.subset hy)) hclear)
    · rw [decide_eq_false hclear]
      exact ⟨_, rfl, hdone.stop_of_not_clear hi (by omega) hgone' hclear⟩

end

/-! ## Descending the summaries -/

section

variable {logSize i k m : ℕ} {bits : Bits} {s t : Finset ℕ}

variable (h : Represents logSize bits s)

include h in
/-- `FFS` on the node over the least index finds the next bit over it. -/
theorem ffs_above (hm : m ∈ s) (hleast : ∀ x ∈ s, m ≤ x)
    (hk : k ≤ depth logSize) : ffs bits (levelStart k + above (depth logSize) k m / 512 * 8) =
      .ok (above (depth logSize) k m % 512 + 1) := by
  have hlt := above_lt hk (h.bound m hm)
  apply ffs_least (room h.length (h.bound m hm) hk) (mod_lt _ (by decide))
  · rw [node_place]
    exact (h.level k hk _ hlt).mpr ⟨m, hm, rfl⟩
  · intro b hb
    rw [show 64 * (levelStart k + above (depth logSize) k m / 512 * 8) + b =
      place k (512 * (above (depth logSize) k m / 512) + b) by unfold place; omega]
    by_contra hset
    rw [Bool.not_eq_false, h.level k hk _ (by omega)] at hset
    obtain ⟨x, hx, hxm⟩ := hset
    have : above (depth logSize) k m ≤ above _ k x := Nat.div_le_div_right (hleast x hx)
    omega

include h in
theorem ffs_top (hm : m ∈ s) (hleast : ∀ x ∈ s, m ≤ x) :
    ffs bits 0 = .ok (above (depth logSize) 0 m + 1) := by
  have hlt := above_lt zero_le (h.bound m hm)
  have htop := ffs_above h hm hleast zero_le
  rw [mod_eq_of_lt (by simpa using hlt), div_eq_of_lt (by simpa using hlt)] at htop
  exact htop

theorem top_room (hlen : bits.length = bitarraySize logSize) : 0 + 8 ≤ bits.length := by
  have := room hlen (Nat.two_pow_pos logSize) zero_le
  simpa [above, levelStart] using this

theorem ffs_top_empty (h : Represents logSize bits ∅) : ffs bits 0 = .ok 0 := by
  refine ffsFrom_clear (top_room h.length) fun b (hb : b < 512) => ?_
  by_contra hset
  rw [Bool.not_eq_false] at hset
  obtain ⟨x, hx, -⟩ := (h.level 0 zero_le b (by simpa)).mp hset
  exact absurd hx (Finset.notMem_empty x)

theorem levelStart_add (k : ℕ) : levelStart k + 1 <<< (nb * k) * num64b = levelStart (k + 1) := by
  rw [levelStart_succ, shiftLeft_eq, one_mul, pow_mul]
  rfl

include h in
theorem adjustOffset_least (hm : m ∈ s)
    (hleast : ∀ x ∈ s, m ≤ x) (hlog : logSize ≤ 31) (hk : k < depth logSize) :
    adjustOffsetForFfs bits (levelStart k) (above (depth logSize) k m) k =
      .ok (levelStart (k + 1), above (depth logSize) (k + 1) m) := by
  have hdiv := above_succ hk m
  have hbound : m < 2 ^ 31 := (h.bound m hm).trans_le (Nat.pow_le_pow_right (by decide) hlog)
  have hle : above (depth logSize) (k + 1) m ≤ m := Nat.div_le_self _ _
  have hbase : above (depth logSize) k m <<< nb + (above (depth logSize) (k + 1) m % 512 + 1) =
      above (depth logSize) (k + 1) m + 1 := by
    rw [show nb = 9 from rfl]
    omega
  have hffs := ffs_above h hm hleast hk
  rw [hdiv] at hffs
  rw [adjustOffsetForFfs, levelStart_add, num64b_eq, hffs, ok_bind, hbase, pred32_succ (by omega)]
  rfl

include h in
/-- **The descent** to level `k` arrives at the bit over the least index. -/
theorem adjustOffsets_least (hm : m ∈ s)
    (hleast : ∀ x ∈ s, m ≤ x) (hlog : logSize ≤ 31) (hk : k ≤ depth logSize) :
    adjustOffsets bits 0 (above (depth logSize) 0 m) k =
      .ok (levelStart k, above (depth logSize) k m) := by
  induction k with
  | zero => rfl
  | succ k ih =>
    rw [adjustOffsets, ih (by omega)]
    exact adjustOffset_least h hm hleast hlog hk

end

end Apple.Malloc.BitArray
