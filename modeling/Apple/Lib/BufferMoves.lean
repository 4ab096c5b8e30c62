import Mathlib.Tactic

/-!
# Moves inside a buffer

A buffer is a list of cells. A `Write` moves a block of cells to another place, as `memmove` does,
or fills a block. `Spares ws k` says that on the way of the cell `k` through the writes `ws`
nothing is written over it other than by its own move; `track ws k` is the place where it ends.

Results:
* `overwrite_getElem?`: what a buffer holds after a block has been written.
* `exec_track`: a cell that is spared is found where it has been moved.
-/

namespace Apple.Lib.BufferMoves

open List

variable {β : Type*}

/-- The buffer `l` with `xs` written from `dst` on. -/
def overwrite (l : List β) (dst : ℕ) (xs : List β) : Option (List β) :=
  if dst + xs.length ≤ l.length then some (l.take dst ++ (xs ++ l.drop (dst + xs.length)))
  else none

variable {l xs l' : List β} {dst : ℕ}

theorem overwrite_eq_some (h : dst + xs.length ≤ l.length) :
    overwrite l dst xs = some (l.take dst ++ (xs ++ l.drop (dst + xs.length))) := if_pos h

theorem overwrite_bounds (h : overwrite l dst xs = some l') : dst + xs.length ≤ l.length := by
  by_contra hn
  rw [overwrite, if_neg hn] at h
  cases h

theorem overwrite_length (h : overwrite l dst xs = some l') : l'.length = l.length := by
  have hle := overwrite_bounds h
  rw [overwrite_eq_some hle, Option.some.injEq] at h
  subst h
  rw [length_append, length_append, length_take, length_drop]
  omega

/-- A cell after a write: one of the block, or the old one. -/
theorem overwrite_getElem? (h : overwrite l dst xs = some l')
    (k : ℕ) : l'[k]? = if dst ≤ k ∧ k < dst + xs.length then xs[k - dst]? else l[k]? := by
  have hle := overwrite_bounds h
  rw [overwrite_eq_some hle, Option.some.injEq] at h
  subst h
  have htake : (l.take dst).length = dst := by
    rw [length_take]
    omega
  by_cases hlo : k < dst
  · rw [getElem?_append_left (by omega), getElem?_take_of_lt hlo, if_neg (by omega)]
  · rw [getElem?_append_right (by omega), htake]
    by_cases hhi : k < dst + xs.length
    · rw [getElem?_append_left (by omega), if_pos (by omega)]
    · rw [getElem?_append_right (by omega), getElem?_drop, if_neg (by omega)]
      congr 1
      omega

/-- A write into a buffer. -/
inductive Write (β : Type*)
  | move (dst src len : ℕ)
  | fill (dst len : ℕ) (value : β)

namespace Write

/-- The buffer after a write. -/
def apply (l : List β) : Write β → Option (List β)
  | move dst src len =>
    if src + len ≤ l.length then overwrite l dst ((l.drop src).take len) else none
  | fill dst len value => overwrite l dst (List.replicate len value)

/-- The write stays inside a buffer of `n` cells. -/
def InBounds (n : ℕ) : Write β → Prop
  | move dst src len => src + len ≤ n ∧ dst + len ≤ n
  | fill dst len _ => dst + len ≤ n

/-- The write moves the cell `k`, or does not touch it. -/
def Spares (k : ℕ) : Write β → Prop
  | move dst src len => (src ≤ k ∧ k < src + len) ∨ ¬ (dst ≤ k ∧ k < dst + len)
  | fill dst len _ => ¬ (dst ≤ k ∧ k < dst + len)

/-- Where the cell `k` is after the write. -/
def track (k : ℕ) : Write β → ℕ
  | move dst src len => if src ≤ k ∧ k < src + len then dst + (k - src) else k
  | fill _ _ _ => k

variable {w : Write β}

theorem apply_isSome (h : w.InBounds l.length) :
    ∃ l', w.apply l = some l' ∧ l'.length = l.length := by
  cases w with
  | move dst src len =>
    have hlen : ((l.drop src).take len).length = len := by
      rw [length_take, length_drop]
      have hsrc := h.1
      omega
    have hdst : dst + ((l.drop src).take len).length ≤ l.length := by
      rw [hlen]
      exact h.2
    have hok := overwrite_eq_some hdst
    exact ⟨_, by rw [apply, if_pos h.1, hok], overwrite_length hok⟩
  | fill dst len value =>
    have hdst : dst + (List.replicate len value).length ≤ l.length := by
      rw [length_replicate]
      exact h
    have hok := overwrite_eq_some hdst
    exact ⟨_, by rw [apply, hok], overwrite_length hok⟩

theorem apply_track {k : ℕ} (h : w.apply l = some l')
    (hk : w.Spares k) : l'[w.track k]? = l[k]? := by
  cases w with
  | move dst src len =>
    rw [apply] at h
    by_cases hsrc : src + len ≤ l.length
    · rw [if_pos hsrc] at h
      have hlen : ((l.drop src).take len).length = len := by
        rw [length_take, length_drop]
        omega
      rw [overwrite_getElem? h, hlen, track]
      by_cases hin : src ≤ k ∧ k < src + len
      · rw [if_pos hin, if_pos (by omega), getElem?_take_of_lt (by omega),
          getElem?_drop]
        congr 1
        omega
      · rw [if_neg hin, if_neg (hk.resolve_left hin)]
    · rw [if_neg hsrc] at h
      cases h
  | fill dst len value =>
    rw [overwrite_getElem? h, length_replicate, track, if_neg hk]

end Write

/-- Writes one after another. -/
def exec (ws : List (Write β)) (l : List β) : Option (List β) := ws.foldlM Write.apply l

/-- No write goes over the cell `k` on its way. -/
def Spares : List (Write β) → ℕ → Prop
  | [], _ => True
  | w :: ws, k => w.Spares k ∧ Spares ws (w.track k)

/-- Where the cell `k` ends. -/
def track : List (Write β) → ℕ → ℕ
  | [], k => k
  | w :: ws, k => track ws (w.track k)

theorem spares_append (ws ws' : List (Write β)) (k : ℕ) :
    Spares (ws ++ ws') k ↔ Spares ws k ∧ Spares ws' (track ws k) := by
  induction ws generalizing k with
  | nil => exact (iff_of_eq (true_and _)).symm
  | cons w ws ih => rw [cons_append, Spares, ih, Spares, track, and_assoc]

theorem track_append (ws ws' : List (Write β)) (k : ℕ) :
    track (ws ++ ws') k = track ws' (track ws k) := by
  induction ws generalizing k with
  | nil => rfl
  | cons w ws ih => rw [cons_append, track, ih, track]

theorem spares_ite (c : Prop) [Decidable c] (w : Write β) (k : ℕ) :
    Spares (if c then [w] else []) k ↔ (c → w.Spares k) := by
  by_cases h : c
  · simp [h, Spares]
  · simp [h, Spares]

theorem track_ite (c : Prop) [Decidable c] (w : Write β) (k : ℕ) :
    track (if c then [w] else []) k = if c then w.track k else k := by
  by_cases h : c
  · simp [h, track]
  · simp [h, track]

theorem mem_ite (c : Prop) [Decidable c] (w v : Write β) :
    v ∈ (if c then [w] else []) ↔ c ∧ v = w := by
  by_cases h : c
  · simp [h]
  · simp [h]

variable {ws : List (Write β)}

theorem exec_isSome (h : ∀ w ∈ ws, w.InBounds l.length) :
    ∃ l', exec ws l = some l' ∧ l'.length = l.length := by
  induction ws generalizing l with
  | nil => exact ⟨l, rfl, rfl⟩
  | cons w ws ih =>
    obtain ⟨l₁, hw, hlen⟩ := Write.apply_isSome (h w mem_cons_self)
    obtain ⟨l', hws, hlen'⟩ := ih fun v hv => by
      rw [hlen]
      exact h v (mem_cons_of_mem w hv)
    refine ⟨l', ?_, hlen'.trans hlen⟩
    rw [exec, foldlM_cons, hw]
    exact hws

/-- **A spared cell** is found where the writes have moved it. -/
theorem exec_track {k : ℕ} (h : exec ws l = some l')
    (hk : Spares ws k) : l'[track ws k]? = l[k]? := by
  induction ws generalizing l k with
  | nil =>
    obtain rfl : l = l' := Option.some.inj h
    rfl
  | cons w ws ih =>
    rw [exec, foldlM_cons] at h
    cases hw : w.apply l with
    | none =>
      rw [hw] at h
      cases h
    | some l₁ =>
      rw [hw] at h
      rw [← Write.apply_track hw hk.1]
      exact ih h hk.2

end Apple.Lib.BufferMoves
