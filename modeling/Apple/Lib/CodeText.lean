import Mathlib.Data.List.Basic
import Mathlib.Tactic

/-!
# Texts in a variable-length code, cut into regions

A text is a list of characters, written as the concatenation of their encodings. For a prefix
code the text determines its characters (`PrefixCode.flatMap_injective`).

The second part is about a reader that goes through such a text region by region: a
character belongs to the region it starts in, and the bytes of it that lie in later
regions are skipped there. `visits` lists the regions in which a character starts, with the
number of bytes that are skipped and the character that the end of the region cuts.
-/

namespace Apple.Lib

variable {α β : Type*}

/-! ## Prefix codes -/

/-- No encoding is empty or starts with another one. -/
structure PrefixCode (enc : α → List β) : Prop where
  ne_nil : ∀ a, enc a ≠ []
  eq_of_append : ∀ {a b : α} {x y : List β}, enc a ++ x = enc b ++ y → a = b

namespace PrefixCode

variable {enc : α → List β}

theorem of_decode {γ : Type*} {decode : List β → γ} {value : α → γ} (hne : ∀ a, enc a ≠ [])
    (hdecode : ∀ a x, decode (enc a ++ x) = value a) (hvalue : Function.Injective value) :
    PrefixCode enc where
  ne_nil := hne
  eq_of_append {a b x y} h := hvalue (by rw [← hdecode a x, ← hdecode b y, h])

theorem cons_eq (h : PrefixCode enc) {a b : α} {x y : List β} (he : enc a ++ x = enc b ++ y) :
    a = b ∧ x = y := by
  obtain rfl := h.eq_of_append he
  exact ⟨rfl, List.append_cancel_left he⟩

theorem flatMap_injective (h : PrefixCode enc) {as bs : List α}
    (he : as.flatMap enc = bs.flatMap enc) : as = bs := by
  induction as generalizing bs with
  | nil =>
    cases bs with
    | nil => rfl
    | cons b bs => exact absurd he.symm (by simp [h.ne_nil b])
  | cons a as ih =>
    cases bs with
    | nil => exact absurd he (by simp [h.ne_nil a])
    | cons b bs =>
      obtain ⟨rfl, hrest⟩ := h.cons_eq he
      rw [ih hrest]

end PrefixCode

/-! ## Regions -/

section Regions

variable (len : α → ℕ)

/-- The character of the text `cs`, which begins at `t`, that starts before `stop` and ends
after it, with its position. -/
def cutAt (stop : ℕ) : ℕ → List α → Option (ℕ × α)
  | _, [] => none
  | t, c :: cs =>
    if stop ≤ t then none
    else if stop < t + len c then some (t, c)
    else cutAt stop (t + len c) cs

/-- The position of the first character that does not start before `stop`, and the text from
there. -/
def restFrom (stop : ℕ) : ℕ → List α → ℕ × List α
  | t, [] => (t, [])
  | t, c :: cs => if stop ≤ t then (t, c :: cs) else restFrom stop (t + len c) cs

/-- The characters that start before `stop`. -/
def startingBefore (stop : ℕ) : ℕ → List α → List α
  | _, [] => []
  | t, c :: cs => if stop ≤ t then [] else c :: startingBefore stop (t + len c) cs

/-- A region in which a character starts. -/
structure Visit (α : Type*) where
  start : ℕ
  stop : ℕ
  /-- The number of bytes at the start of the region that belong to an earlier character. -/
  skip : ℕ
  first : α
  /-- The position and the character that the end of the region cuts. -/
  cut : Option (ℕ × α)

/-- The regions with the given sizes, the first of which begins at `start`, in which a character
of the text `cs` starts, which begins at `t`. -/
def visits : ℕ → List ℕ → ℕ → List α → List (Visit α)
  | _, [], _, _ => []
  | _, _ :: _, _, [] => []
  | start, size :: sizes, t, c :: cs =>
    let rest := restFrom len (start + size) t (c :: cs)
    if t < start + size then
      ⟨start, start + size, t - start, c, cutAt len (start + size) t (c :: cs)⟩ ::
        visits (start + size) sizes rest.1 rest.2
    else visits (start + size) sizes t (c :: cs)

/-- The number of bytes of a text. -/
def size (cs : List α) : ℕ := (cs.map len).sum

variable {len}

@[simp] theorem size_nil : size len [] = 0 := rfl

@[simp] theorem size_cons (c : α) (cs : List α) : size len (c :: cs) = len c + size len cs := by
  simp [size]

theorem size_append (cs ds : List α) : size len (cs ++ ds) = size len cs + size len ds := by
  simp [size]

variable {stop t : ℕ} {cs : List α}

theorem eq_nil_of_size (hlen : ∀ c, 0 < len c) (h : size len cs = 0) : cs = [] := by
  cases cs with
  | nil => rfl
  | cons c cs =>
    have := hlen c
    rw [size_cons] at h
    omega

theorem restFrom_of_le (h : stop ≤ t) (cs : List α) : restFrom len stop t cs = (t, cs) := by
  cases cs with
  | nil => rfl
  | cons c cs => rw [restFrom, if_pos h]

theorem startingBefore_of_le (h : stop ≤ t) (cs : List α) : startingBefore len stop t cs = [] := by
  cases cs with
  | nil => rfl
  | cons c cs => rw [startingBefore, if_pos h]

theorem cutAt_of_le (h : stop ≤ t) (cs : List α) : cutAt len stop t cs = none := by
  cases cs with
  | nil => rfl
  | cons c cs => rw [cutAt, if_pos h]

theorem startingBefore_append (stop t : ℕ) (cs : List α) :
    startingBefore len stop t cs ++ (restFrom len stop t cs).2 = cs := by
  induction cs generalizing t with
  | nil => rfl
  | cons c cs ih =>
    rw [startingBefore, restFrom]
    split_ifs with h
    · rfl
    · rw [List.cons_append, ih]

theorem restFrom_fst (stop t : ℕ) (cs : List α) :
    (restFrom len stop t cs).1 = t + size len (startingBefore len stop t cs) := by
  induction cs generalizing t with
  | nil => rfl
  | cons c cs ih =>
    rw [startingBefore, restFrom]
    split_ifs with h
    · rfl
    · rw [ih, size_cons]
      omega

/-- The text from the next character on ends where the text ends. -/
theorem restFrom_size (stop t : ℕ) (cs : List α) :
    (restFrom len stop t cs).1 + size len (restFrom len stop t cs).2 = t + size len cs := by
  have happend : startingBefore len stop t cs ++ (restFrom len stop t cs).2 = cs :=
    startingBefore_append stop t cs
  have h := congrArg (size len) happend
  rw [size_append] at h
  rw [restFrom_fst]
  omega

/-- The next character does not start before the end of the region, if that is inside the
text. -/
theorem le_restFrom (h : stop ≤ t + size len cs) : stop ≤ (restFrom len stop t cs).1 := by
  induction cs generalizing t with
  | nil => simpa [restFrom] using h
  | cons c cs ih =>
    rw [restFrom]
    split_ifs with hstop
    · exact hstop
    · rw [size_cons, ← add_assoc] at h
      exact ih h

/-- The text from the next character on, as encoded. -/
theorem drop_restFrom {enc : α → List β} (hlen : ∀ a, (enc a).length = len a) {text : List β}
    (stop : ℕ) (h : text.drop t = cs.flatMap enc) :
    text.drop (restFrom len stop t cs).1 = (restFrom len stop t cs).2.flatMap enc := by
  induction cs generalizing t with
  | nil => exact h
  | cons c cs ih =>
    rw [restFrom]
    split_ifs with hstop
    · exact h
    · apply ih
      rw [← List.drop_drop, h, List.flatMap_cons, ← hlen, List.drop_left]

/-- A character that is cut ends the part of the text that starts in the region. -/
theorem cutAt_spec {u : ℕ} {d : α} (hcut : cutAt len stop t cs = some (u, d)) :
    t ≤ u ∧ u < stop ∧ stop < u + len d ∧ (restFrom len stop t cs).1 = u + len d ∧
      ∃ before, startingBefore len stop t cs = before ++ [d] ∧ t + size len before = u := by
  induction cs generalizing t with
  | nil => cases hcut
  | cons c cs ih =>
    rw [cutAt] at hcut
    rw [restFrom, startingBefore]
    split_ifs at hcut ⊢ with h1 h2
    · cases hcut
      rw [restFrom_of_le (by omega)]
      exact ⟨le_rfl, by omega, h2, rfl, [], by rw [startingBefore_of_le (by omega)]; rfl, by simp⟩
    · obtain ⟨h3, h4, h5, h6, before, hbefore, hsize⟩ := ih hcut
      refine ⟨by omega, h4, h5, h6, c :: before, by rw [hbefore]; rfl, ?_⟩
      rw [size_cons]
      omega

/-- The regions one by one: the first one, if a character starts in it, and the others. -/
theorem forall_visits_cons {P : Visit α → Prop} (start size : ℕ) (sizes : List ℕ) (t : ℕ)
    (cs : List α) : (∀ v ∈ visits len start (size :: sizes) t cs, P v) ↔
      (∀ c cs', cs = c :: cs' → t < start + size →
        P ⟨start, start + size, t - start, c, cutAt len (start + size) t cs⟩) ∧
      ∀ v ∈ visits len (start + size) sizes (restFrom len (start + size) t cs).1
        (restFrom len (start + size) t cs).2, P v := by
  cases cs with
  | nil => cases sizes <;> simp [visits, restFrom]
  | cons c cs =>
    rw [visits]
    split_ifs with h
    · rw [List.forall_mem_cons]
      refine and_congr_left fun _ => ⟨?_, fun hp => hp c cs rfl h⟩
      rintro hp c' cs' ⟨rfl, rfl⟩ -
      exact hp
    · rw [restFrom_of_le (not_lt.mp h)]
      exact (and_iff_right fun _ _ _ hlt => absurd hlt h).symm

theorem cutAt_of_size (h : t + size len cs ≤ stop) : cutAt len stop t cs = none := by
  induction cs generalizing t with
  | nil => rfl
  | cons c cs ih =>
    rw [size_cons, ← add_assoc] at h
    rw [cutAt]
    split_ifs with h1 h2
    · rfl
    · omega
    · exact ih h

/-- In a single region nothing is cut. -/
theorem visits_single {v : Visit α}
    (hv : v ∈ visits len 0 [size len cs] 0 cs) : v.start = 0 ∧ v.cut = none := by
  have hcut : cutAt len (0 + size len cs) 0 cs = none := cutAt_of_size le_rfl
  revert v
  rw [forall_visits_cons]
  refine ⟨fun c cs' _ _ => ⟨rfl, hcut⟩, fun v hv => ?_⟩
  cases hv

end Regions

end Apple.Lib
