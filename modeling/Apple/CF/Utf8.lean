import Apple.Dispatch.UtfFrom

/-!
# UTF-8 in `CFBuiltinConverters`

Model of the UTF-8 converter of `CF-1153.18/CFBuiltinConverters.c` (885–1192) with flags 0: strict,
without fallbacks and without canonical forms. `__CFToUTF8` and `__CFFromUTF8` take the room in the
output, 0 for a mere count; what they return is the part of the input that is left, the output and
its length. Code units are natural numbers.

The first byte of a sequence gives its length by a table, and the bytes are put together with their
marks, which are then subtracted at once. A byte `0xA9` where a sequence should begin is not refused
but replaced, as the source says, for the sake of old programs.

Results: `exists_encode_of_legal`, `readsAs_encode`, `toUTF8Core_eq`: single characters are read and
written as Unicode has them.
-/

namespace Apple.CF.Utf8

open Apple.Dispatch.Utf Nat

/-! ## The source -/

/-- `kReplacementCharacter`. -/
def replacementCharacter : ℕ := 0xFFFD

/-- `trailingBytesForUTF8` (885–894), by the ranges of its entries. -/
def trailingBytesForUTF8 (byte : UInt8) : ℕ :=
  if byte < 0xC0 then 0
  else if byte < 0xE0 then 1
  else if byte < 0xF0 then 2
  else if byte < 0xF8 then 3
  else if byte < 0xFC then 4
  else 5

/-- `offsetsFromUTF8` (901–902). -/
def offsetsFromUTF8 : List ℕ :=
  [0x00000000, 0x00003080, 0x000E2080, 0x03C82080, 0xFA082080, 0x82082080]

/-- `firstByteMark` (904). -/
def firstByteMark : List ℕ := [0x00, 0x00, 0xC0, 0xE0, 0xF0, 0xF8, 0xFC]

/-- `__CFUTF8BytesToWriteForCharacter` (913–921). -/
def bytesToWriteForCharacter (ch : ℕ) : ℕ :=
  if ch < 0x80 then 1
  else if ch < 0x800 then 2
  else if ch < 0x10000 then 3
  else if ch < 0x200000 then 4
  else if ch < 0x4000000 then 5
  else if ch ≤ 0x7FFFFFFF then 6
  else 0

/-- The switch of `__CFToUTF8Core` (935–942): `n` bytes after the first, written from the last. -/
def trailing : ℕ → ℕ → List UInt8
  | 0, _ => []
  | n + 1, ch => trailing n (ch >>> 6) ++ [UInt8.ofNat ((ch ||| 0x80) &&& 0xBF)]

/-- `__CFToUTF8Core` (923–944): the bytes, if there is room for them. `maxByteLen` is a
`uint32_t`. -/
def toUTF8Core (ch maxByteLen : ℕ) : Option (List UInt8) :=
  let (bytesToWrite, ch) := if bytesToWriteForCharacter ch = 0 then (2, replacementCharacter)
    else (bytesToWriteForCharacter ch, ch)
  if maxByteLen % 2 ^ 32 < bytesToWrite then none
  else
    some (UInt8.ofNat (ch >>> (6 * (bytesToWrite - 1)) ||| firstByteMark.getD bytesToWrite 0) ::
      trailing (bytesToWrite - 1) ch)

/-- What a conversion leaves of its input, what it puts out and how much that is. -/
structure Conversion (α β : Type) where
  rest : List α
  output : List β
  used : ℕ
deriving DecidableEq

/-- Output before that of the rest of a conversion, and not written in a mere count. -/
def Conversion.emit {α β : Type} (max : ℕ) (output : List β) (next : Conversion α β) :
    Conversion α β :=
  { next with output := (if max = 0 then [] else output) ++ next.output }

def isHighSurrogate (ch : ℕ) : Bool := 0xD800 ≤ ch ∧ ch ≤ 0xDBFF

def isLowSurrogate (ch : ℕ) : Bool := 0xDC00 ≤ ch ∧ ch ≤ 0xDFFF

/-- The code point at the head of `characters` and what follows it, unless it is half a surrogate
pair (956–972). -/
def nextCodePoint : List ℕ → Option (ℕ × List ℕ)
  | [] => none
  | ch :: characters =>
    if isHighSurrogate ch then
      match characters with
      | [] => none
      | low :: characters =>
        if isLowSurrogate low then
          some (((ch - 0xD800) <<< 10) + (low - 0xDC00) + 0x10000, characters)
        else none
    else if isLowSurrogate ch then none
    else some (ch, characters)

/-- The loop of `__CFToUTF8` (955–981). -/
def toUTF8Loop (maxByteLen : ℕ) : ℕ → List ℕ → ℕ → Conversion ℕ UInt8
  | 0, characters, used => ⟨characters, [], used⟩
  | fuel + 1, characters, used =>
    if maxByteLen ≠ 0 ∧ maxByteLen ≤ used then ⟨characters, [], used⟩
    else
      match nextCodePoint characters with
      | none => ⟨characters, [], used⟩
      | some (ch, characters') =>
        if ch < 0x80 then
          (toUTF8Loop maxByteLen fuel characters' (used + 1)).emit maxByteLen [UInt8.ofNat ch]
        else if maxByteLen = 0 then
          toUTF8Loop maxByteLen fuel characters' (used + bytesToWriteForCharacter ch)
        else
          match toUTF8Core ch (maxByteLen - used) with
          | none => ⟨characters, [], used⟩
          | some bytes =>
            (toUTF8Loop maxByteLen fuel characters' (used + bytes.length)).emit maxByteLen bytes

/-- `__CFToUTF8` (946–986). Every step takes a code unit. -/
def toUTF8 (maxByteLen : ℕ) (characters : List ℕ) : Conversion ℕ UInt8 :=
  toUTF8Loop maxByteLen characters.length characters 0

/-- `__CFIsLegalUTF8` (999–1011), of the bytes of the sequence. -/
def isLegalUTF8 : List UInt8 → Bool
  | [] => false
  | head :: trail =>
    let second := trail.headD 0
    trail.length + 1 ≤ 4 && trail.all (· &&& 0xC0 = 0x80) &&
      !(((0x80 ≤ head && head < 0xC2) || 0xF4 < head)) &&
      !((head = 0xE0 && second < 0xA0) || (head = 0xED && 0x9F < second) ||
        (head = 0xF0 && second < 0x90) || (head = 0xF4 && 0x8F < second))

/-- The bytes of a sequence put together and freed of their marks (1046–1056). -/
def sequenceValue (bytes : List UInt8) : ℕ :=
  let ch := bytes.foldl (fun ch byte => ((ch <<< 6) + byte.toNat) % 2 ^ 32) 0
  (ch + 2 ^ 32 - offsetsFromUTF8.getD (bytes.length - 1) 0) % 2 ^ 32

/-- The loop of `__CFFromUTF8` (1025–1101). -/
def fromUTF8Loop (maxCharLen : ℕ) : ℕ → List UInt8 → ℕ → Conversion UInt8 ℕ
  | 0, source, used => ⟨source, [], used⟩
  | _ + 1, [], used => ⟨[], [], used⟩
  | fuel + 1, byte :: bytes, used =>
    let source := byte :: bytes
    let extraBytesToRead := trailingBytesForUTF8 byte
    if maxCharLen ≠ 0 ∧ maxCharLen ≤ used then ⟨source, [], used⟩
    else if bytes.length < extraBytesToRead then ⟨source, [], used⟩
    else if 3 < extraBytesToRead ∨ !isLegalUTF8 (source.take (extraBytesToRead + 1)) then
      if byte = 0xA9 then
        (fromUTF8Loop maxCharLen fuel bytes (used + 1)).emit maxCharLen [replacementCharacter]
      else ⟨source, [], used⟩
    else
      let ch := sequenceValue (source.take (extraBytesToRead + 1))
      let rest := source.drop (extraBytesToRead + 1)
      if ch ≤ 0xFFFF then
        if 0xD800 ≤ ch ∧ ch ≤ 0xDFFF then ⟨source, [], used⟩
        else (fromUTF8Loop maxCharLen fuel rest (used + 1)).emit maxCharLen [ch]
      else if 0x10FFFF < ch then ⟨source, [], used⟩
      else if maxCharLen ≠ 0 ∧ maxCharLen < used + 2 then ⟨rest, [], used⟩
      else
        (fromUTF8Loop maxCharLen fuel rest (used + 2)).emit maxCharLen
          [((ch - 0x10000) >>> 10) + 0xD800, ((ch - 0x10000) &&& 0x3FF) + 0xDC00]

/-- `__CFFromUTF8` (1013–1106). Every step takes a byte. -/
def fromUTF8 (maxCharLen : ℕ) (bytes : List UInt8) : Conversion UInt8 ℕ :=
  fromUTF8Loop maxCharLen bytes.length bytes 0

/-- The loop of `__CFToUTF8Len` (1112–1120). `bytesToWrite` is a `uint32_t`. -/
def toUTF8LenLoop : ℕ → List ℕ → ℕ → ℕ
  | 0, _, bytesToWrite => bytesToWrite
  | _ + 1, [], bytesToWrite => bytesToWrite
  | fuel + 1, ch :: characters, bytesToWrite =>
    let (ch, characters) := match characters with
      | [] => (ch, [])
      | low :: rest =>
        if isHighSurrogate ch && isLowSurrogate low then
          (((ch - 0xD800) <<< 10) + (low - 0xDC00) + 0x10000, rest)
        else (ch, low :: rest)
    toUTF8LenLoop fuel characters ((bytesToWrite + bytesToWriteForCharacter ch) % 2 ^ 32)

/-- `__CFToUTF8Len` (1108–1123). -/
def toUTF8Len (characters : List ℕ) : ℕ := toUTF8LenLoop characters.length characters 0

/-- The loop of `__CFFromUTF8Len` (1136–1189). -/
def fromUTF8LenLoop : ℕ → List UInt8 → ℕ → ℕ
  | 0, _, used => used
  | _ + 1, [], used => used
  | fuel + 1, byte :: bytes, used =>
    let source := byte :: bytes
    let extraBytesToRead := trailingBytesForUTF8 byte
    if bytes.length < extraBytesToRead then used
    else if 3 < extraBytesToRead ∨ !isLegalUTF8 (source.take (extraBytesToRead + 1)) then
      if byte = 0xA9 then fromUTF8LenLoop fuel bytes (used + 1)
      else used
    else
      let ch := sequenceValue (source.take (extraBytesToRead + 1))
      let rest := source.drop (extraBytesToRead + 1)
      if ch ≤ 0xFFFF then
        if 0xD800 ≤ ch ∧ ch ≤ 0xDFFF then used
        else fromUTF8LenLoop fuel rest (used + 1)
      else if 0x10FFFF < ch then fromUTF8LenLoop fuel rest (used + 1)
      else fromUTF8LenLoop fuel rest (used + 2)

/-- `__CFFromUTF8Len` (1125–1192). -/
def fromUTF8Len (bytes : List UInt8) : ℕ := fromUTF8LenLoop bytes.length bytes 0

/-! ## Single characters -/

theorem forall_uint8 {P : UInt8 → Prop} (h : ∀ x < 256, P (UInt8.ofNat x)) (b : UInt8) : P b := by
  have hb := h b.toNat b.toNat_lt
  rwa [UInt8.ofNat_toNat] at hb

theorem trailingBytes_eq (b : UInt8) : trailingBytesForUTF8 b =
    if b.toNat < 0xC0 then 0 else if b.toNat < 0xE0 then 1 else if b.toNat < 0xF0 then 2
    else if b.toNat < 0xF8 then 3 else if b.toNat < 0xFC then 4 else 5 := rfl

theorem continuation_iff (b : UInt8) : b &&& 0xC0 = 0x80 ↔ 0x80 ≤ b.toNat ∧ b.toNat < 0xC0 := by
  apply forall_uint8 (P := fun b => b &&& 0xC0 = 0x80 ↔ 0x80 ≤ b.toNat ∧ b.toNat < 0xC0)
  decide +kernel

/-- A legal sequence, by the numbers of its bytes. -/
theorem isLegalUTF8_cons (head : UInt8) (trail : List UInt8) :
    isLegalUTF8 (head :: trail) = true ↔ trail.length ≤ 3 ∧
      (∀ b ∈ trail, 0x80 ≤ b.toNat ∧ b.toNat < 0xC0) ∧
      (head.toNat < 0x80 ∨ 0xC2 ≤ head.toNat) ∧ head.toNat ≤ 0xF4 ∧
      (head.toNat = 0xE0 → 0xA0 ≤ (trail.headD 0).toNat) ∧
      (head.toNat = 0xED → (trail.headD 0).toNat ≤ 0x9F) ∧
      (head.toNat = 0xF0 → 0x90 ≤ (trail.headD 0).toNat) ∧
      (head.toNat = 0xF4 → (trail.headD 0).toNat ≤ 0x8F) := by
  simp only [isLegalUTF8, continuation_iff]
  simp only [UInt8.lt_iff_toNat_lt, UInt8.le_iff_toNat_le, ← UInt8.toNat_inj]
  grind

theorem ofNat_eq {x : ℕ} {b : UInt8} (h : x = b.toNat) : UInt8.ofNat x = b := by
  rw [h, UInt8.ofNat_toNat]

/-- **A legal sequence is a character.** -/
theorem exists_encode_of_legal {byte : UInt8} {bytes : List UInt8}
    (hlen : trailingBytesForUTF8 byte ≤ bytes.length) (hle : trailingBytesForUTF8 byte ≤ 3)
    (hlegal : isLegalUTF8 ((byte :: bytes).take (trailingBytesForUTF8 byte + 1)) = true) :
    ∃ c, (byte :: bytes).take (trailingBytesForUTF8 byte + 1) = String.utf8EncodeChar c := by
  rw [List.take_succ_cons, isLegalUTF8_cons] at hlegal
  obtain ⟨-, htrail, hhead, hmax, hE0, hED, hF0, hF4⟩ := hlegal
  have htable := trailingBytes_eq byte
  rw [List.take_succ_cons]
  match hn : trailingBytesForUTF8 byte, bytes, hlen with
  | 0, bytes, _ =>
    have hrange : byte.toNat < 0x80 := by split_ifs at htable <;> omega
    obtain ⟨c, hc⟩ := exists_char (n := byte.toNat) (by omega)
    refine ⟨c, ?_⟩
    rw [utf8EncodeChar_one (by omega), ofNat_eq hc, List.take_zero]
  | 1, b₁ :: bytes, _ =>
    have hrange : 0xC2 ≤ byte.toNat ∧ byte.toNat < 0xE0 := by split_ifs at htable <;> omega
    have h₁ := htrail b₁ (by simp [hn])
    obtain ⟨c, hc⟩ := exists_char (n := (byte.toNat - 192) * 64 + (b₁.toNat - 128)) (by omega)
    refine ⟨c, ?_⟩
    rw [utf8EncodeChar_two (by omega) (by omega), ofNat_eq (b := byte) (by omega),
      ofNat_eq (b := b₁) (by omega)]
    rfl
  | 2, b₁ :: b₂ :: bytes, _ =>
    have hrange : 0xE0 ≤ byte.toNat ∧ byte.toNat < 0xF0 := by split_ifs at htable <;> omega
    have h₁ := htrail b₁ (by simp [hn])
    have h₂ := htrail b₂ (by simp [hn])
    rw [hn] at hE0 hED
    simp only [List.take_succ_cons, List.headD_cons] at hE0 hED
    obtain ⟨c, hc⟩ := exists_char
      (n := (byte.toNat - 224) * 4096 + (b₁.toNat - 128) * 64 + (b₂.toNat - 128)) (by omega)
    refine ⟨c, ?_⟩
    rw [utf8EncodeChar_three (by omega) (by omega), ofNat_eq (b := byte) (by omega),
      ofNat_eq (b := b₁) (by omega), ofNat_eq (b := b₂) (by omega)]
    rfl
  | 3, b₁ :: b₂ :: b₃ :: bytes, _ =>
    have hrange : 0xF0 ≤ byte.toNat := by split_ifs at htable <;> omega
    have h₁ := htrail b₁ (by simp [hn])
    have h₂ := htrail b₂ (by simp [hn])
    have h₃ := htrail b₃ (by simp [hn])
    rw [hn] at hF0 hF4
    simp only [List.take_succ_cons, List.headD_cons] at hF0 hF4
    obtain ⟨c, hc⟩ := exists_char (n := (byte.toNat - 240) * 262144 + (b₁.toNat - 128) * 4096 +
      (b₂.toNat - 128) * 64 + (b₃.toNat - 128)) (by omega)
    refine ⟨c, ?_⟩
    rw [utf8EncodeChar_four (by omega), ofNat_eq (b := byte) (by omega),
      ofNat_eq (b := b₁) (by omega), ofNat_eq (b := b₂) (by omega), ofNat_eq (b := b₃) (by omega)]
    rfl
  | n + 4, _, _ => omega

/-- What the reader sees of a character. -/
structure ReadsAs (bytes : List UInt8) (ch : ℕ) : Prop where
  ne_nil : bytes ≠ []
  trailing : trailingBytesForUTF8 (bytes.headD 0) + 1 = bytes.length
  legal : isLegalUTF8 bytes = true
  value : sequenceValue bytes = ch

/-- **A character is a legal sequence**, with its code point as value. -/
theorem readsAs_encode (c : Char) : ReadsAs (String.utf8EncodeChar c) c.toNat := by
  have hrange := char_range c
  by_cases h1 : c.toNat < 0x80
  on_goal 2 => by_cases h2 : c.toNat < 0x800
  on_goal 3 => by_cases h3 : c.toNat < 0x10000
  on_goal 1 => rw [utf8EncodeChar_one h1]
  on_goal 2 => rw [utf8EncodeChar_two (by omega) h2]
  on_goal 3 => rw [utf8EncodeChar_three (by omega) h3]
  on_goal 4 => rw [utf8EncodeChar_four (by omega)]
  all_goals
    refine ⟨by simp, ?_, ?_, ?_⟩
    · simp [trailingBytes_eq]
      repeat' split
      all_goals omega
    · rw [isLegalUTF8_cons]
      simp
      omega
    · simp [sequenceValue, offsetsFromUTF8]
      omega

theorem mask_eq (ch : ℕ) : (ch ||| 0x80) &&& 0xBF = ch % 64 + 128 := by
  have hmod : (ch ||| 0x80) &&& 0xBF = ((ch % 256) ||| 0x80) &&& 0xBF := by
    apply eq_of_testBit_eq
    intro i
    simp only [testBit_and, testBit_or, show 256 = 2 ^ 8 from rfl, testBit_mod_two_pow]
    by_cases hi : i < 8
    · simp [hi]
    · have hlt : 0xBF < 2 ^ i :=
        lt_of_lt_of_le (by decide) (Nat.pow_le_pow_right (by decide) (not_lt.mp hi))
      simp [testBit_lt_two_pow hlt]
  have hsmall : ∀ x < 256, (x ||| 0x80) &&& 0xBF = x % 64 + 128 := by decide +kernel
  rw [hmod, hsmall _ (mod_lt _ (by decide))]
  omega

theorem mark_eq {x mark k : ℕ} (hmark : mark % 2 ^ k = 0) (hx : x < 2 ^ k) :
    x ||| mark = x + mark := by
  rw [Nat.or_comm, marker_or k hmark hx]

theorem bytesToWrite_eq (c : Char) :
    bytesToWriteForCharacter c.toNat = (String.utf8EncodeChar c).length := by
  have hrange := char_range c
  rw [bytesToWriteForCharacter]
  by_cases h1 : c.toNat < 0x80
  · rw [utf8EncodeChar_one h1]
    simp [h1]
  by_cases h2 : c.toNat < 0x800
  · rw [utf8EncodeChar_two (by omega) h2]
    simp [h1, h2]
  by_cases h3 : c.toNat < 0x10000
  · rw [utf8EncodeChar_three (by omega) h3]
    simp [h1, h2, h3]
  · rw [utf8EncodeChar_four (by omega)]
    simp [h1, h2, h3, show c.toNat < 0x200000 by omega]

theorem trailing_succ (n ch : ℕ) :
    trailing (n + 1) ch = trailing n (ch / 64) ++ [UInt8.ofNat (ch % 64 + 128)] := by
  rw [trailing, mask_eq, shiftRight_eq_div_pow]

/-- The bytes of a character, as the switch writes them. -/
theorem encode_switch (c : Char) :
    UInt8.ofNat (c.toNat >>> (6 * ((String.utf8EncodeChar c).length - 1)) |||
        firstByteMark.getD (String.utf8EncodeChar c).length 0) ::
      trailing ((String.utf8EncodeChar c).length - 1) c.toNat = String.utf8EncodeChar c := by
  have hrange := char_range c
  by_cases h1 : c.toNat < 0x80
  · rw [utf8EncodeChar_one h1]
    simp [firstByteMark, trailing]
  by_cases h2 : c.toNat < 0x800
  · have hmark : c.toNat / 2 ^ 6 ||| 192 = c.toNat / 64 % 32 + 192 := by
      rw [mark_eq (k := 5) (by decide) (by omega)]
      omega
    rw [utf8EncodeChar_two (by omega) h2, shiftRight_eq_div_pow]
    show UInt8.ofNat (c.toNat / 2 ^ 6 ||| 192) :: trailing 1 c.toNat = _
    rw [hmark, trailing_succ]
    rfl
  by_cases h3 : c.toNat < 0x10000
  · have hmark : c.toNat / 2 ^ 12 ||| 224 = c.toNat / 4096 % 16 + 224 := by
      rw [mark_eq (k := 4) (by decide) (by omega)]
      omega
    rw [utf8EncodeChar_three (by omega) h3, shiftRight_eq_div_pow]
    show UInt8.ofNat (c.toNat / 2 ^ 12 ||| 224) :: trailing 2 c.toNat = _
    rw [hmark, trailing_succ, trailing_succ]
    rfl
  · have hmark : c.toNat / 2 ^ 18 ||| 240 = c.toNat / 262144 % 8 + 240 := by
      rw [mark_eq (k := 3) (by decide) (by omega)]
      omega
    rw [utf8EncodeChar_four (by omega), shiftRight_eq_div_pow]
    show UInt8.ofNat (c.toNat / 2 ^ 18 ||| 240) :: trailing 3 c.toNat = _
    rw [hmark, trailing_succ, trailing_succ, trailing_succ,
      show c.toNat / 64 / 64 = c.toNat / 4096 by omega]
    rfl

/-- **A character is written as Unicode has it**, if the room that is left does not look too small
in 32 bits. -/
theorem toUTF8Core_eq (c : Char) (maxByteLen : ℕ) : toUTF8Core c.toNat maxByteLen =
      if maxByteLen % 2 ^ 32 < (String.utf8EncodeChar c).length then none
      else some (String.utf8EncodeChar c) := by
  have hpos : (String.utf8EncodeChar c).length ≠ 0 := (len8_pos c).ne'
  rw [toUTF8Core, bytesToWrite_eq, if_neg hpos]
  dsimp only
  rw [encode_switch]

end Apple.CF.Utf8
