import Apple.Dispatch.Utf
import Apple.Lib.CodeText

/-!
# Single characters in the UTF transforms

The specification of the transforms: `utf8` and `utf16` are the encodings of a list of
characters, the first one by `String.utf8EncodeChar`. The lemmas of this file say what the
code reads from, and writes for, one character.
-/

namespace Apple.Dispatch.Utf

open Lib List Option Nat

/-! ## Encodings -/

/-- The UTF-8 text of a list of characters. -/
def utf8 (cs : List Char) : Bytes := cs.flatMap String.utf8EncodeChar

/-- The 16-bit units of a character. -/
def utf16Units (c : Char) : List ℕ :=
  if c.toNat < 0x10000 then [c.toNat]
  else [0xd800 + (c.toNat - 0x10000) / 0x400, 0xdc00 + (c.toNat - 0x10000) % 0x400]

def unitBytes (order : ByteOrder) (u : ℕ) : Bytes :=
  match order with
  | .little => [UInt8.ofNat (u % 256), UInt8.ofNat (u / 256)]
  | .big => [UInt8.ofNat (u / 256), UInt8.ofNat (u % 256)]

def utf16EncodeChar (order : ByteOrder) (c : Char) : Bytes :=
  (utf16Units c).flatMap (unitBytes order)

/-- The UTF-16 text of a list of characters. -/
def utf16 (order : ByteOrder) (cs : List Char) : Bytes := cs.flatMap (utf16EncodeChar order)

/-- The byte order mark. -/
def bom : Char := '\uFEFF'

/-- A text without a leading byte order mark. -/
def dropBom : List Char → List Char
  | [] => []
  | c :: cs => if c = bom then cs else c :: cs

/-- The number of bytes of a character in UTF-8. -/
def len8 (c : Char) : ℕ := (String.utf8EncodeChar c).length

/-- The number of bytes of a character in UTF-16. -/
def len16 (c : Char) : ℕ := 2 * (utf16Units c).length

@[simp] theorem utf8_nil : utf8 [] = [] := rfl

@[simp] theorem utf8_cons (c : Char) (cs : List Char) :
    utf8 (c :: cs) = String.utf8EncodeChar c ++ utf8 cs := rfl

@[simp] theorem utf8_append (cs ds : List Char) : utf8 (cs ++ ds) = utf8 cs ++ utf8 ds :=
  flatMap_append

@[simp] theorem utf16_nil (order : ByteOrder) : utf16 order [] = [] := rfl

@[simp] theorem utf16_cons (order : ByteOrder) (c : Char) (cs : List Char) :
    utf16 order (c :: cs) = utf16EncodeChar order c ++ utf16 order cs := rfl

@[simp] theorem utf16_append (order : ByteOrder) (cs ds : List Char) :
    utf16 order (cs ++ ds) = utf16 order cs ++ utf16 order ds := flatMap_append

theorem length_utf8 (cs : List Char) : (utf8 cs).length = size len8 cs := by
  induction cs with
  | nil => rfl
  | cons c cs ih => rw [utf8_cons, length_append, ih, size_cons, len8]

theorem char_range (c : Char) :
    c.toNat < 0xd800 ∨ (0xdfff < c.toNat ∧ c.toNat < 0x110000) := c.valid

/-! ## UTF-8 -/

variable {x u next : ℕ} {c : Char} {bytes : Bytes} {b : Buffer}

theorem utf8Length_ofNat (hx : x < 256) : utf8Length (UInt8.ofNat x) =
    if x < 0x80 then 1 else if x < 0xc0 then 0 else if x < 0xe0 then 2 else if x < 0xf0 then 3
    else if x < 0xf8 then 4 else 0 := by
  revert x
  decide +kernel

theorem toNat_ofNat (hx : x < 256) : (UInt8.ofNat x).toNat = x := by
  rw [UInt8.toNat_ofNat', mod_eq_of_lt hx]

/-- The payload of a first byte. -/
theorem lead_payload {m : ℕ} (k : ℕ) (hx : x + m < 256) (hm : m % 2 ^ k = 0) (hlt : x < 2 ^ k) :
    (UInt8.ofNat (x + m)).toNat &&& (2 ^ k - 1) = x := by
  rw [toNat_ofNat hx, and_two_pow_sub_one_eq_mod, add_mod, hm, add_zero,
    mod_mod, mod_eq_of_lt hlt]

/-- A continuation byte, with its payload. -/
structure Continues (b : UInt8) (x : ℕ) : Prop where
  length : utf8Length b = 0
  payload : b.toNat &&& 0x3f = x
  lt : x < 64

theorem continues_ofNat (x : ℕ) : Continues (UInt8.ofNat (x % 64 + 128)) (x % 64) where
  length := by rw [utf8Length_ofNat (by omega), if_neg (by omega), if_pos (by omega)]
  payload := lead_payload 6 (by omega) rfl (by omega)
  lt := by omega

theorem utf8EncodeChar_one (h : c.toNat < 0x80) :
    String.utf8EncodeChar c = [UInt8.ofNat c.toNat] := by
  exact if_pos (le_of_lt_succ h)

theorem utf8EncodeChar_two (h : 0x80 ≤ c.toNat) (h' : c.toNat < 0x800) : String.utf8EncodeChar c =
      [UInt8.ofNat (c.toNat / 64 % 32 + 192), UInt8.ofNat (c.toNat % 64 + 128)] := by
  exact (if_neg (not_le.mpr h)).trans (if_pos (le_of_lt_succ h'))

theorem utf8EncodeChar_three (h : 0x800 ≤ c.toNat) (h' : c.toNat < 0x10000) :
    String.utf8EncodeChar c =
      [UInt8.ofNat (c.toNat / 4096 % 16 + 224), UInt8.ofNat (c.toNat / 64 % 64 + 128),
        UInt8.ofNat (c.toNat % 64 + 128)] := by
  exact (if_neg (not_le.mpr (lt_of_lt_of_le (by decide) h))).trans
    ((if_neg (not_le.mpr h)).trans (if_pos (le_of_lt_succ h')))

theorem utf8EncodeChar_four (h : 0x10000 ≤ c.toNat) : String.utf8EncodeChar c =
      [UInt8.ofNat (c.toNat / 262144 % 8 + 240), UInt8.ofNat (c.toNat / 4096 % 64 + 128),
        UInt8.ofNat (c.toNat / 64 % 64 + 128), UInt8.ofNat (c.toNat % 64 + 128)] := by
  exact (if_neg (not_le.mpr (lt_of_lt_of_le (by decide) h))).trans
    ((if_neg (not_le.mpr (lt_of_lt_of_le (by decide) h))).trans (if_neg (not_le.mpr h)))

theorem utf8_one (h : c.toNat < 0x80) : ∃ b, String.utf8EncodeChar c = [b] ∧
    utf8Length b = 1 ∧ b.toNat &&& 0x7f = c.toNat := by
  refine ⟨UInt8.ofNat (c.toNat + 0), utf8EncodeChar_one h, ?_,
    lead_payload 7 (by omega) rfl (by omega)⟩
  · rw [utf8Length_ofNat (by omega), if_pos (by omega)]

theorem utf8_two (h : 0x80 ≤ c.toNat) (h' : c.toNat < 0x800) :
    ∃ b b₁, String.utf8EncodeChar c = [b, b₁] ∧ utf8Length b = 2 ∧
      b.toNat &&& 0x1f = c.toNat / 64 ∧ Continues b₁ (c.toNat % 64) := by
  have hdiv : c.toNat / 64 % 32 = c.toNat / 64 := by omega
  refine ⟨_, _, utf8EncodeChar_two h h', ?_, ?_, continues_ofNat _⟩
  · rw [utf8Length_ofNat (by omega), if_neg (by omega), if_neg (by omega), if_pos (by omega)]
  · rw [hdiv]
    exact lead_payload 5 (by omega) rfl (by omega)

theorem utf8_three (h : 0x800 ≤ c.toNat) (h' : c.toNat < 0x10000) :
    ∃ b b₁ b₂, String.utf8EncodeChar c = [b, b₁, b₂] ∧ utf8Length b = 3 ∧
      b.toNat &&& 0xf = c.toNat / 4096 ∧ Continues b₁ (c.toNat / 64 % 64) ∧
      Continues b₂ (c.toNat % 64) := by
  have hdiv : c.toNat / 4096 % 16 = c.toNat / 4096 := by omega
  refine ⟨_, _, _, utf8EncodeChar_three h h', ?_, ?_, continues_ofNat _, continues_ofNat _⟩
  · rw [utf8Length_ofNat (by omega), if_neg (by omega), if_neg (by omega), if_neg (by omega),
      if_pos (by omega)]
  · rw [hdiv]
    exact lead_payload 4 (by omega) rfl (by omega)

theorem utf8_four (h : 0x10000 ≤ c.toNat) :
    ∃ b b₁ b₂ b₃, String.utf8EncodeChar c = [b, b₁, b₂, b₃] ∧ utf8Length b = 4 ∧
      b.toNat &&& 0x7 = c.toNat / 262144 ∧ Continues b₁ (c.toNat / 4096 % 64) ∧
      Continues b₂ (c.toNat / 64 % 64) ∧ Continues b₃ (c.toNat % 64) := by
  have hrange := char_range c
  have hdiv : c.toNat / 262144 % 8 = c.toNat / 262144 := by omega
  refine ⟨_, _, _, _, utf8EncodeChar_four h, ?_, ?_, continues_ofNat _, continues_ofNat _,
    continues_ofNat _⟩
  · rw [utf8Length_ofNat (by omega), if_neg (by omega), if_neg (by omega), if_neg (by omega),
      if_neg (by omega), if_pos (by omega)]
  · rw [hdiv]
    exact lead_payload 3 (by omega) rfl (by omega)

/-- The first byte of an encoding gives its length, and no other byte starts one. -/
theorem utf8Length_encode (c : Char) : ∃ b bs, String.utf8EncodeChar c = b :: bs ∧
    utf8Length b = len8 c ∧ ∀ b' ∈ bs, utf8Length b' = 0 := by
  by_cases h1 : c.toNat < 0x80
  · obtain ⟨b, he, hlen, -⟩ := utf8_one h1
    exact ⟨b, [], he, by rw [len8, he, hlen]; rfl, by simp⟩
  by_cases h2 : c.toNat < 0x800
  · obtain ⟨b, b₁, he, hlen, -, hb₁⟩ := utf8_two (not_lt.mp h1) h2
    exact ⟨b, [b₁], he, by rw [len8, he, hlen]; rfl, by simp [hb₁.length]⟩
  by_cases h3 : c.toNat < 0x10000
  · obtain ⟨b, b₁, b₂, he, hlen, -, hb₁, hb₂⟩ := utf8_three (not_lt.mp h2) h3
    exact ⟨b, [b₁, b₂], he, by rw [len8, he, hlen]; rfl, by simp [hb₁.length, hb₂.length]⟩
  · obtain ⟨b, b₁, b₂, b₃, he, hlen, -, hb₁, hb₂, hb₃⟩ := utf8_four (not_lt.mp h3)
    exact ⟨b, [b₁, b₂, b₃], he, by rw [len8, he, hlen]; rfl,
      by simp [hb₁.length, hb₂.length, hb₃.length]⟩

theorem len8_pos (c : Char) : 0 < len8 c := by
  obtain ⟨b, bs, he, -, -⟩ := utf8Length_encode c
  rw [len8, he]
  exact succ_pos _

theorem len8_lt (c : Char) : len8 c < 256 := by
  rw [len8, String.length_utf8EncodeChar]
  exact (Char.utf8Size_le_four c).trans_lt (by decide)

/-- The bits of a continuation byte go behind those read before it. -/
theorem Continues.or {b : UInt8} (h : Continues b x) {a : ℕ} (ha : a < 2 ^ 26) :
    a <<< 6 % 2 ^ 32 ||| (b.toNat &&& 0x3f) = a * 64 + x := by
  have hx := h.lt
  rw [h.payload, mod_eq_of_lt (by omega),
    ← shiftLeft_add_eq_or_of_lt (by omega), shiftLeft_eq]

/-- `_dispatch_transform_read_utf8_sequence` at the start of a character. -/
theorem readUtf8Sequence_encode (c : Char) (rest : Bytes) :
    readUtf8Sequence (String.utf8EncodeChar c ++ rest) = some c.toNat := by
  have hrange := char_range c
  have hmod {a : ℕ} (ha : a < 2 ^ 26) : a <<< 6 = a <<< 6 % 2 ^ 32 :=
    (mod_eq_of_lt (by omega)).symm
  by_cases h1 : c.toNat < 0x80
  · obtain ⟨b, he, hlen, hb⟩ := utf8_one h1
    simp [he, readUtf8Sequence, hlen, readContinuation, hb]
  by_cases h2 : c.toNat < 0x800
  · obtain ⟨b, b₁, he, hlen, hb, hb₁⟩ := utf8_two (not_lt.mp h1) h2
    have hread : readUtf8Sequence (b :: b₁ :: rest) =
        some ((b.toNat &&& 0x1f) <<< 6 ||| (b₁.toNat &&& 0x3f)) := by
      simp [readUtf8Sequence, hlen, readContinuation]
    rw [he]
    refine hread.trans (congrArg some ?_)
    rw [hmod (by omega), hb₁.or (by omega)]
    omega
  by_cases h3 : c.toNat < 0x10000
  · obtain ⟨b, b₁, b₂, he, hlen, hb, hb₁, hb₂⟩ := utf8_three (not_lt.mp h2) h3
    have hread : readUtf8Sequence (b :: b₁ :: b₂ :: rest) =
        some (((b.toNat &&& 0xf) <<< 6 ||| (b₁.toNat &&& 0x3f)) <<< 6 % 2 ^ 32 |||
          (b₂.toNat &&& 0x3f)) := by
      simp [readUtf8Sequence, hlen, readContinuation]
    rw [he]
    refine hread.trans (congrArg some ?_)
    rw [hb, hmod (show c.toNat / 4096 < 2 ^ 26 by omega), hb₁.or (by omega), hb₂.or (by omega)]
    omega
  · obtain ⟨b, b₁, b₂, b₃, he, hlen, hb, hb₁, hb₂, hb₃⟩ := utf8_four (not_lt.mp h3)
    have hread : readUtf8Sequence (b :: b₁ :: b₂ :: b₃ :: rest) =
        some ((((b.toNat &&& 0x7) <<< 6 ||| (b₁.toNat &&& 0x3f)) <<< 6 % 2 ^ 32 |||
          (b₂.toNat &&& 0x3f)) <<< 6 % 2 ^ 32 ||| (b₃.toNat &&& 0x3f)) := by
      simp [readUtf8Sequence, hlen, readContinuation]
    rw [he]
    refine hread.trans (congrArg some ?_)
    rw [hb, hmod (show c.toNat / 262144 < 2 ^ 26 by omega), hb₁.or (by omega), hb₂.or (by omega),
      hb₃.or (by omega)]
    omega

/-- Too few bytes, or a byte that does not start a character, cannot be read. -/
theorem readContinuation_none {n : ℕ} (h : bytes.length < n) (wch : ℕ) :
    readContinuation n bytes wch = none := by
  induction n generalizing bytes wch with
  | zero => exact absurd h (Nat.not_lt_zero _)
  | succ n ih =>
    cases bytes with
    | nil => rfl
    | cons b bytes => exact ih (lt_of_succ_lt_succ h) _

theorem readUtf8Sequence_of_length {b : UInt8} {bs : Bytes}
    (h : bs.length < (utf8Length b + 255) % 256) : readUtf8Sequence (b :: bs) = none :=
  readContinuation_none h _

theorem toNat_injective : Function.Injective fun c : Char => some c.toNat := fun _ _ h =>
  Char.toNat_inj.mp (some.inj h)

theorem prefixCode_utf8 : PrefixCode String.utf8EncodeChar :=
  .of_decode (fun _ => String.utf8EncodeChar_ne_nil) readUtf8Sequence_encode toNat_injective

/-! ## UTF-16 -/

section

variable (order : ByteOrder)
include order

theorem storeU16_swapFromHost (h : u < 0x10000) :
    storeU16 (swapFromHost order u) = unitBytes order u := by
  cases order with
  | little => rfl
  | big =>
    have h1 : swapInt16 u % 256 = u / 256 := by unfold swapInt16; omega
    have h2 : swapInt16 u / 256 = u % 256 := by unfold swapInt16; omega
    rw [swapFromHost, storeU16, h1, h2, unitBytes]

theorem length_unitBytes (u : ℕ) : (unitBytes order u).length = 2 := by
  cases order <;> rfl

/-- Reading a unit gives it back. -/
theorem loadU16_unitBytes (h : u < 0x10000) (rest : Bytes) :
    (loadU16 (unitBytes order u ++ rest)).map (swapToHost order) = some u := by
  have h1 : (UInt8.ofNat (u % 256)).toNat = u % 256 := toNat_ofNat (by omega)
  have h2 : (UInt8.ofNat (u / 256)).toNat = u / 256 := toNat_ofNat (by omega)
  cases order with
  | little =>
    refine congrArg some ?_
    show (UInt8.ofNat (u % 256)).toNat + 256 * (UInt8.ofNat (u / 256)).toNat = u
    omega
  | big =>
    refine congrArg some ?_
    show swapInt16 ((UInt8.ofNat (u / 256)).toNat + 256 * (UInt8.ofNat (u % 256)).toNat) = u
    rw [swapInt16]
    omega

omit order in
/-- The units of a character, as the code tells them apart. -/
theorem utf16Units_cases (c : Char) :
    (c.toNat < 0x10000 ∧ ¬ (0xd800 ≤ c.toNat ∧ c.toNat ≤ 0xdfff) ∧ utf16Units c = [c.toNat]) ∨
    ∃ hi lo, utf16Units c = [hi, lo] ∧ 0xd800 ≤ hi ∧ hi ≤ 0xdbff ∧ 0xdc00 ≤ lo ∧ lo ≤ 0xdfff ∧
      c.toNat = (hi - 0xd800) * 0x400 + (lo - 0xdc00) + 0x10000 := by
  have hrange := char_range c
  by_cases h : c.toNat < 0x10000
  · exact Or.inl ⟨h, by omega, if_pos h⟩
  · exact Or.inr ⟨_, _, if_neg h, by omega, by omega, by omega, by omega, by omega⟩

theorem length_utf16EncodeChar (c : Char) :
    (utf16EncodeChar order c).length = len16 c := by
  rcases utf16Units_cases c with ⟨-, -, h⟩ | ⟨hi, lo, h, -⟩ <;>
    simp [utf16EncodeChar, len16, h, length_unitBytes]

theorem length_utf16 (cs : List Char) :
    (utf16 order cs).length = size len16 cs := by
  induction cs with
  | nil => rfl
  | cons c cs ih => rw [utf16_cons, length_append, ih, size_cons, length_utf16EncodeChar]

omit order in
/-- The code point of a surrogate pair (lines 456–477). -/
theorem pair_codePoint (hi : ℕ) {lo : ℕ} (h3 : 0xdc00 ≤ lo) (h4 : lo ≤ 0xdfff) :
    ((hi - 0xd800) <<< 10 ||| (lo &&& 0x3ff)) + 0x10000 =
      (hi - 0xd800) * 0x400 + (lo - 0xdc00) + 0x10000 := by
  rw [show 0x3ff = 2 ^ 10 - 1 by rfl, and_two_pow_sub_one_eq_mod,
    ← shiftLeft_add_eq_or_of_lt (by omega)]
  omega

/-- The code point at the start of a text, as the loop of `transformFromUtf16` reads it. -/
def firstCodePoint (order : ByteOrder) (text : Bytes) : Option ℕ :=
  (srcUnit order text 0).bind fun ch =>
    if 0xd800 ≤ ch ∧ ch ≤ 0xdbff then
      (srcUnit order text 1).map fun ch' =>
        ((ch - 0xd800) <<< 10 ||| (ch' &&& 0x3ff)) + 0x10000
    else some ch

theorem srcUnit_zero (h : u < 0x10000) (rest : Bytes) :
    srcUnit order (unitBytes order u ++ rest) 0 = some u := loadU16_unitBytes order h rest

theorem srcUnit_succ (u : ℕ) (rest : Bytes) (i : ℕ) :
    srcUnit order (unitBytes order u ++ rest) (i + 1) = srcUnit order rest i := by
  have h : (unitBytes order u ++ rest).drop (2 * (i + 1)) = rest.drop (2 * i) := by
    rw [show 2 * (i + 1) = (unitBytes order u).length + 2 * i by
      rw [length_unitBytes]; omega, drop_length_add_append]
  rw [srcUnit, h, srcUnit]

theorem firstCodePoint_encode (c : Char) (rest : Bytes) :
    firstCodePoint order (utf16EncodeChar order c ++ rest) = some c.toNat := by
  rcases utf16Units_cases c with ⟨hlt, hsur, h⟩ | ⟨hi, lo, h, h1, h2, h3, h4, hc⟩
  · rw [utf16EncodeChar, h, flatMap_singleton, firstCodePoint, srcUnit_zero order hlt,
      bind_some, if_neg (by omega)]
  · rw [utf16EncodeChar, h, flatMap_cons, flatMap_singleton, append_assoc,
      firstCodePoint, srcUnit_zero order (by omega), bind_some, if_pos ⟨h1, h2⟩,
      srcUnit_succ, srcUnit_zero order (by omega), map_some, pair_codePoint hi h3 h4, hc]

theorem utf16EncodeChar_ne_nil (c : Char) : utf16EncodeChar order c ≠ [] := by
  intro h
  have hlen := length_utf16EncodeChar order c
  rw [h, len16] at hlen
  rcases utf16Units_cases c with ⟨-, -, h⟩ | ⟨hi, lo, h, -⟩ <;> simp [h] at hlen

theorem prefixCode_utf16 : PrefixCode (utf16EncodeChar order) :=
  .of_decode (utf16EncodeChar_ne_nil order) (firstCodePoint_encode order) toNat_injective

end

/-! ## Writing a character -/

/-- The result so far, with what is still in the buffer. -/
def Buffer.contents (b : Buffer) : Bytes := b.data ++ b.written

/-- A buffer without memory. -/
def Buffer.flushed (data : Bytes) : Buffer := { data := data, written := [], size := 0 }

theorem bufferNew_zero (b : Buffer) : bufferNew b 0 0 = some (.flushed b.contents) := by
  simp [bufferNew, Buffer.flushed, Buffer.contents]

theorem bufferNew_flushed (data : Bytes) {required size : ℕ}
    (hmax : required + size ≤ bufferMallocMax) : bufferNew (.flushed data) required size =
      some { data := data, written := [], size := required + size } := by
  rw [bufferNew, if_neg (not_lt.mpr hmax)]
  simp [Buffer.flushed]

/-- Room is made for the bytes, and they are written. -/
def emit (b : Buffer) (bytes : Bytes) (next : ℕ) : Option Buffer :=
  (bufferNew b bytes.length next).bind (write · bytes)

theorem emit_room (hne : bytes ≠ []) (h : bytes.length ≤ b.size - b.written.length) (next : ℕ) :
    emit b bytes next = some { b with written := b.written ++ bytes } := by
  have hpos := length_pos_iff.mpr hne
  have hnew : bufferNew b bytes.length next = some b := if_neg (by omega)
  rw [emit, hnew, bind_some, write, if_pos (by omega)]

theorem emit_new (h : b.size - b.written.length < bytes.length)
    (hmax : bytes.length + next ≤ bufferMallocMax) : emit b bytes next =
      some { data := b.contents, written := bytes, size := bytes.length + next } := by
  have hnew : bufferNew b bytes.length next =
      some { data := b.contents, written := [], size := bytes.length + next } :=
    (if_pos (Or.inr h)).trans (if_neg (not_lt.mpr hmax))
  rw [emit, hnew, bind_some, write, if_pos (by simp)]
  rfl

theorem emit_none (h : b.size - b.written.length < bytes.length)
    (hmax : bufferMallocMax < bytes.length + next) : emit b bytes next = none := by
  have hnew : bufferNew b bytes.length next = none := (if_pos (Or.inr h)).trans (if_pos hmax)
  rw [emit, hnew, bind_none]

theorem emit_contents {b' : Buffer} (hne : bytes ≠ [])
    (h : emit b bytes next = some b') : b'.contents = b.contents ++ bytes := by
  by_cases hroom : bytes.length ≤ b.size - b.written.length
  · rw [emit_room hne hroom, some.injEq] at h
    rw [← h, Buffer.contents, Buffer.contents, append_assoc]
  · by_cases hmax : bytes.length + next ≤ bufferMallocMax
    · rw [emit_new (not_le.mp hroom) hmax, some.injEq] at h
      rw [← h]
      rfl
    · rw [emit_none (not_le.mp hroom) (not_le.mp hmax)] at h
      cases h

theorem emit_isSome (b : Buffer) (next : ℕ) (hne : bytes ≠ [])
    (hmax : bytes.length + next ≤ bufferMallocMax) : ∃ b', emit b bytes next = some b' := by
  by_cases hroom : bytes.length ≤ b.size - b.written.length
  · exact ⟨_, emit_room hne hroom next⟩
  · exact ⟨_, emit_new (not_le.mp hroom) hmax⟩

theorem write_append (b : Buffer) (x y : Bytes) :
    (write b x).bind (write · y) = write b (x ++ y) := by
  unfold write
  by_cases hx : b.written.length + x.length ≤ b.size
  · rw [if_pos hx]
    simp [add_assoc]
  · rw [if_neg hx, bind_none, if_neg]
    rw [length_append]
    omega

theorem emitUtf16_eq (order : ByteOrder) (b : Buffer) (c : Char) (next : ℕ) :
    emitUtf16 order b c.toNat next = emit b (utf16EncodeChar order c) next := by
  have hrange := char_range c
  have hlen := length_utf16EncodeChar order c
  by_cases h : c.toNat < 0x10000
  · have hunits : utf16Units c = [c.toNat] := if_pos h
    have hand : c.toNat &&& 0xffff = c.toNat := by
      rw [show 0xffff = 2 ^ 16 - 1 by rfl, and_two_pow_sub_one_eq_mod]
      omega
    rw [emit, hlen, len16, emitUtf16, if_neg (by omega), if_neg (by omega), utf16EncodeChar,
      hunits, flatMap_singleton, hand]
    simp only [writeUnit, storeU16_swapFromHost order h]
    rfl
  · have hunits : utf16Units c =
        [0xd800 + (c.toNat - 0x10000) / 0x400, 0xdc00 + (c.toNat - 0x10000) % 0x400] := if_neg h
    have hhi : (c.toNat - 0x10000) >>> 10 &&& 0x3ff = (c.toNat - 0x10000) / 0x400 := by
      rw [show 0x3ff = 2 ^ 10 - 1 by rfl, and_two_pow_sub_one_eq_mod]
      omega
    have hlo : c.toNat - 0x10000 &&& 0x3ff = (c.toNat - 0x10000) % 0x400 := by
      rw [show 0x3ff = 2 ^ 10 - 1 by rfl, and_two_pow_sub_one_eq_mod]
    rw [emit, hlen, len16, emitUtf16, if_neg (by omega), if_pos (by omega), utf16EncodeChar,
      hunits, flatMap_cons, flatMap_singleton]
    simp only [hhi, hlo, writeUnit, ← write_append]
    rw [storeU16_swapFromHost order (by omega), storeU16_swapFromHost order (by omega),
      add_comm _ 0xd800, add_comm _ 0xdc00]
    rfl

/-- The marker of a byte, behind which its payload goes. -/
theorem marker_or {m : ℕ} (k : ℕ) (hm : m % 2 ^ k = 0) (hx : x < 2 ^ k) : m ||| x = x + m := by
  have hor := two_pow_add_eq_or_of_lt hx (m / 2 ^ k)
  rw [Nat.mul_div_cancel' (dvd_of_mod_eq_zero hm)] at hor
  rw [← hor, add_comm]

theorem emitUtf8_eq (b : Buffer) (c : Char) (next : ℕ) :
    emitUtf8 b c.toNat next = emit b (String.utf8EncodeChar c) next := by
  have hrange := char_range c
  have hand (x : ℕ) : 0x80 ||| x &&& 0x3f = x % 64 + 128 := by
    rw [show 0x3f = 2 ^ 6 - 1 by rfl, and_two_pow_sub_one_eq_mod, marker_or 6 rfl (by omega)]
  by_cases h1 : c.toNat < 0x80
  · have hff : c.toNat &&& 0xff = c.toNat := by
      rw [show 0xff = 2 ^ 8 - 1 by rfl, and_two_pow_sub_one_eq_mod]
      omega
    rw [emitUtf8, if_pos h1, hff, utf8EncodeChar_one h1]
    rfl
  by_cases h2 : c.toNat < 0x800
  · have hlead : 0xc0 ||| c.toNat >>> 6 = c.toNat / 64 % 32 + 192 := by
      rw [marker_or 5 rfl (by omega)]
      omega
    rw [emitUtf8, if_neg h1, if_pos h2, hlead, hand, utf8EncodeChar_two (not_lt.mp h1) h2]
    rfl
  by_cases h3 : c.toNat < 0x10000
  · have hlead : 0xe0 ||| c.toNat >>> 12 = c.toNat / 4096 % 16 + 224 := by
      rw [marker_or 4 rfl (by omega)]
      omega
    have hmid : 0x80 ||| c.toNat >>> 6 &&& 0x3f = c.toNat / 64 % 64 + 128 := by
      rw [hand, shiftRight_eq_div_pow]
    rw [emitUtf8, if_neg h1, if_neg h2, if_pos h3, hlead, hmid, hand, utf8EncodeChar_three (not_lt.mp h2) h3]
    rfl
  · have hlead : 0xf0 ||| c.toNat >>> 18 = c.toNat / 262144 % 8 + 240 := by
      rw [marker_or 3 rfl (by omega)]
      omega
    have hmid : 0x80 ||| c.toNat >>> 6 &&& 0x3f = c.toNat / 64 % 64 + 128 := by
      rw [hand, shiftRight_eq_div_pow]
    have hmid' : 0x80 ||| c.toNat >>> 12 &&& 0x3f = c.toNat / 4096 % 64 + 128 := by
      rw [hand, shiftRight_eq_div_pow]
    rw [emitUtf8, if_neg h1, if_neg h2, if_neg h3, if_pos (by omega), hlead, hmid, hmid', hand,
      utf8EncodeChar_four (not_lt.mp h3)]
    rfl

end Apple.Dispatch.Utf
