import Apple.CF.Utf8

/-!
# UTF-8 conversion of whole strings

The loops of `__CFFromUTF8`, `__CFToUTF8` and of the two functions that predict their lengths, on
whole strings.

Results:
* `fromUTF8Loop_text`, `toUTF8_eq_iff`, `toUTF8Len_eq`: what the loops do.
* `utf8_conversion_iff`: when the conversions are those of Unicode.
* `chunksExact_iff`: when decoding into one buffer after another is.
-/

namespace Apple.CF.Utf8

open Apple.Dispatch.Utf List Nat

/-- The UTF-16 of a list of characters. -/
def utf16Text (cs : List Char) : List ℕ := cs.flatMap utf16Units

@[simp] theorem utf16Text_nil : utf16Text [] = [] := rfl

variable (c : Char)

@[simp] theorem utf16Text_cons (cs : List Char) :
    utf16Text (c :: cs) = utf16Units c ++ utf16Text cs := rfl

variable {α β : Type} {fuel max used : ℕ} {cs : List Char} {bytes : List UInt8}

@[simp] theorem emit_rest (max : ℕ) (output : List β) (next : Conversion α β) :
    (next.emit max output).rest = next.rest := rfl

theorem emit_emit (max : ℕ) (output output' : List β) (next : Conversion α β) :
    (next.emit max output').emit max output = next.emit max (output ++ output') := by
  rw [Conversion.emit, Conversion.emit, Conversion.emit]
  split <;> simp

theorem emit_nil (max : ℕ) (next : Conversion α β) : next.emit max [] = next := by
  rw [Conversion.emit]
  split <;> rfl

/-! ## From UTF-8 -/

/-- The first byte of a character says how many follow. -/
theorem encode_append_eq (rest : List UInt8) : ∃ byte bytes,
    String.utf8EncodeChar c ++ rest = byte :: bytes ∧
      trailingBytesForUTF8 byte ≤ bytes.length ∧ trailingBytesForUTF8 byte ≤ 3 ∧
      (byte :: bytes).take (trailingBytesForUTF8 byte + 1) = String.utf8EncodeChar c ∧
      (byte :: bytes).drop (trailingBytesForUTF8 byte + 1) = rest := by
  have hreads := readsAs_encode c
  match henc : String.utf8EncodeChar c with
  | [] => exact absurd henc hreads.ne_nil
  | byte :: trail =>
    have htrailing := hreads.trailing
    have hlegal := hreads.legal
    rw [henc, headD_cons] at htrailing
    rw [henc, isLegalUTF8_cons] at hlegal
    refine ⟨byte, trail ++ rest, rfl, ?_, ?_, ?_, ?_⟩
    · rw [length_append]
      simp only [length_cons] at htrailing
      omega
    · simp only [length_cons] at htrailing
      omega
    · rw [htrailing, ← cons_append, take_left]
    · rw [htrailing, ← cons_append, drop_left]

/-- The loop takes a character. -/
theorem fromUTF8Loop_char (rest : List UInt8)
    (hroom : max = 0 ∨ used + (utf16Units c).length ≤ max) :
    fromUTF8Loop max (fuel + 1) (String.utf8EncodeChar c ++ rest) used =
      (fromUTF8Loop max fuel rest (used + (utf16Units c).length)).emit max (utf16Units c) := by
  obtain ⟨byte, bytes, heq, hlen, hle, htake, hdrop⟩ := encode_append_eq c rest
  have hreads := readsAs_encode c
  have hrange := char_range c
  rw [heq, fromUTF8Loop]
  rw [htake, hdrop, hreads.legal, hreads.value]
  rw [utf16Units] at hroom ⊢
  by_cases hbmp : c.toNat < 0x10000
  · rw [if_pos hbmp] at hroom ⊢
    rw [if_neg (by simp at hroom; omega), if_neg (by omega), if_neg (by simp; omega),
      if_pos (by omega), if_neg (by omega)]
    rfl
  · rw [if_neg hbmp] at hroom ⊢
    simp only [length_cons] at hroom
    rw [if_neg (by omega), if_neg (by omega), if_neg (by simp; omega), if_neg (by omega),
      if_neg (by omega), if_neg (by omega), shiftRight_eq_div_pow,
      show (0x3FF : ℕ) = 2 ^ 10 - 1 from rfl, and_two_pow_sub_one_eq_mod, add_comm 0xd800,
      add_comm 0xdc00]
    rfl

/-- A sequence that no character starts is refused. -/
theorem refused_of_stuck {byte : UInt8} {bytes : List UInt8}
    (hstuck : ∀ c rest, byte :: bytes ≠ String.utf8EncodeChar c ++ rest)
    (hlen : trailingBytesForUTF8 byte ≤ bytes.length) : 3 < trailingBytesForUTF8 byte ∨
      !isLegalUTF8 ((byte :: bytes).take (trailingBytesForUTF8 byte + 1)) := by
  by_contra hlegal
  rw [not_or, not_lt, Bool.not_eq_true', Bool.not_eq_false] at hlegal
  obtain ⟨c, hc⟩ := exists_encode_of_legal hlen hlegal.1 hlegal.2
  apply hstuck c ((byte :: bytes).drop (trailingBytesForUTF8 byte + 1))
  rw [← hc, take_append_drop]

/-- Nothing that could be read as a character, nor the byte that is replaced. -/
theorem fromUTF8Loop_stuck {source : List UInt8}
    (hstuck : ∀ c rest, source ≠ String.utf8EncodeChar c ++ rest)
    (hbyte : source.head? ≠ some 0xA9) (max fuel used : ℕ) :
    fromUTF8Loop max fuel source used = ⟨source, [], used⟩ := by
  match fuel, source, hstuck, hbyte with
  | 0, _, _, _ => rfl
  | _ + 1, [], _, _ => rfl
  | fuel + 1, byte :: bytes, hstuck, hbyte =>
    rw [fromUTF8Loop]
    split
    · rfl
    · split
      · rfl
      · next hlen =>
        rw [if_pos (refused_of_stuck hstuck (not_lt.mp hlen)), if_neg (by simpa using hbyte)]

/-- The loop takes the characters of a text. -/
theorem fromUTF8Loop_text (rest : List UInt8) : ∀ {cs : List Char} {fuel used : ℕ},
    max = 0 ∨ used + (utf16Text cs).length ≤ max →
    fromUTF8Loop max (cs.length + fuel) (utf8 cs ++ rest) used =
      (fromUTF8Loop max fuel rest (used + (utf16Text cs).length)).emit max (utf16Text cs)
  | [], fuel, used, _ => by
    rw [utf16Text_nil, emit_nil, length_nil, length_nil, zero_add]
    rfl
  | c :: cs, fuel, used, hroom => by
    rw [utf16Text_cons, length_append] at hroom
    rw [length_cons, add_right_comm, utf8_cons, append_assoc,
      fromUTF8Loop_char c _ (by omega), fromUTF8Loop_text rest (by omega), emit_emit,
      utf16Text_cons, length_append, add_assoc]

/-- A stray `0xA9` is replaced. -/
theorem fromUTF8Loop_replace (bytes : List UInt8) (hroom : max = 0 ∨ used < max) :
    fromUTF8Loop max (fuel + 1) (0xA9 :: bytes) used =
      (fromUTF8Loop max fuel bytes (used + 1)).emit max [replacementCharacter] := by
  have hlegal : isLegalUTF8 [0xA9] = false := by decide
  have htrailing : trailingBytesForUTF8 0xA9 = 0 := by decide
  rw [fromUTF8Loop]
  rw [htrailing, if_neg (by omega), if_neg (by omega), take_succ_cons, take_zero, hlegal,
    if_pos (by simp), if_pos rfl]

theorem length_rest_le (max : ℕ) : ∀ (fuel : ℕ) (source : List UInt8) (used : ℕ),
    (fromUTF8Loop max fuel source used).rest.length ≤ source.length
  | 0, source, used => le_refl _
  | _ + 1, [], used => le_refl _
  | fuel + 1, byte :: bytes, used => by
    have ih := length_rest_le max fuel
    have hdrop : ((byte :: bytes).drop (trailingBytesForUTF8 byte + 1)).length ≤
        (byte :: bytes).length := by
      rw [length_drop]
      omega
    rw [fromUTF8Loop]
    dsimp only
    split_ifs
    all_goals
      first
        | exact le_refl _
        | exact hdrop
        | exact (ih _ _).trans hdrop
        | exact (ih _ _).trans (le_succ _)

/-! ## The length of the conversion from UTF-8 -/

theorem fromUTF8LenLoop_char (rest : List UInt8) :
    fromUTF8LenLoop (fuel + 1) (String.utf8EncodeChar c ++ rest) used =
      fromUTF8LenLoop fuel rest (used + (utf16Units c).length) := by
  obtain ⟨byte, bytes, heq, hlen, hle, htake, hdrop⟩ := encode_append_eq c rest
  have hreads := readsAs_encode c
  have hrange := char_range c
  rw [heq, fromUTF8LenLoop]
  dsimp only
  rw [htake, hdrop, hreads.legal, hreads.value, if_neg (by omega), if_neg (by simp; omega),
    utf16Units]
  split_ifs
  all_goals first | omega | rfl

theorem fromUTF8LenLoop_stuck {source : List UInt8}
    (hstuck : ∀ c rest, source ≠ String.utf8EncodeChar c ++ rest)
    (hbyte : source.head? ≠ some 0xA9) (fuel used : ℕ) :
    fromUTF8LenLoop fuel source used = used := by
  match fuel, source, hstuck, hbyte with
  | 0, _, _, _ => rfl
  | _ + 1, [], _, _ => rfl
  | fuel + 1, byte :: bytes, hstuck, hbyte =>
    rw [fromUTF8LenLoop]
    split
    · rfl
    · next hlen =>
      rw [if_pos (refused_of_stuck hstuck (not_lt.mp hlen)), if_neg (by simpa using hbyte)]

theorem fromUTF8LenLoop_text (rest : List UInt8) : ∀ {cs : List Char} {fuel used : ℕ},
    fromUTF8LenLoop (cs.length + fuel) (utf8 cs ++ rest) used =
      fromUTF8LenLoop fuel rest (used + (utf16Text cs).length)
  | [], fuel, used => by
    rw [utf16Text_nil, length_nil, length_nil, zero_add]
    rfl
  | c :: cs, fuel, used => by
    rw [length_cons, add_right_comm, utf8_cons, append_assoc,
      fromUTF8LenLoop_char, fromUTF8LenLoop_text rest, utf16Text_cons, length_append,
      add_assoc]

/-! ## To UTF-8 -/

/-- The units of a character, as the code tells them apart. -/
theorem surrogates_cases : (utf16Units c = [c.toNat] ∧ isHighSurrogate c.toNat = false ∧
      isLowSurrogate c.toNat = false) ∨
    ∃ hi lo, utf16Units c = [hi, lo] ∧ isHighSurrogate hi = true ∧ isLowSurrogate lo = true ∧
      c.toNat = (hi - 0xd800) * 0x400 + (lo - 0xdc00) + 0x10000 := by
  simp only [isHighSurrogate, isLowSurrogate, decide_eq_false_iff_not, decide_eq_true_eq]
  rcases utf16Units_cases c with ⟨hbmp, hsurrogate, hunits⟩ | ⟨hi, lo, hunits, h1, h2, h3, h4, hc⟩
  · exact .inl ⟨hunits, by omega, by omega⟩
  · exact .inr ⟨hi, lo, hunits, ⟨h1, h2⟩, ⟨h3, h4⟩, hc⟩

theorem nextCodePoint_units (rest : List ℕ) :
    nextCodePoint (utf16Units c ++ rest) = some (c.toNat, rest) := by
  rcases surrogates_cases c with ⟨hunits, hhigh, hlow⟩ | ⟨hi, lo, hunits, hhigh, hlow, hc⟩
  · rw [hunits]
    simp [nextCodePoint, hhigh, hlow]
  · rw [hunits]
    simp [nextCodePoint, hhigh, hlow, shiftLeft_eq, hc]

/-- There is room for every character that is not ASCII, in the 32 bits that `__CFToUTF8Core` sees
of what is left of the buffer. -/
def RoomLeft (maxByteLen : ℕ) : ℕ → List Char → Prop
  | _, [] => True
  | used, c :: cs =>
    (0x80 ≤ c.toNat → len8 c ≤ (maxByteLen - used) % 2 ^ 32) ∧
      RoomLeft maxByteLen (used + len8 c) cs

theorem toUTF8Loop_char (rest : List ℕ) (hmax : used < max)
    (hroom : 0x80 ≤ c.toNat → len8 c ≤ (max - used) % 2 ^ 32) :
    toUTF8Loop max (fuel + 1) (utf16Units c ++ rest) used =
      (toUTF8Loop max fuel rest (used + len8 c)).emit max (String.utf8EncodeChar c) := by
  rw [toUTF8Loop, if_neg (by omega), nextCodePoint_units]
  dsimp only
  split
  · next hascii =>
    rw [len8, utf8EncodeChar_one hascii]
    rfl
  · next hascii =>
    have hfits := hroom (not_lt.mp hascii)
    rw [len8] at hfits
    rw [if_neg (by omega), toUTF8Core_eq, if_neg (by omega)]
    rfl

theorem toUTF8Loop_full (rest : List ℕ) (hmax : used < max)
    (hascii : 0x80 ≤ c.toNat) (hroom : (max - used) % 2 ^ 32 < len8 c) :
    toUTF8Loop max (fuel + 1) (utf16Units c ++ rest) used = ⟨utf16Units c ++ rest, [], used⟩ := by
  rw [len8] at hroom
  rw [toUTF8Loop, if_neg (by omega), nextCodePoint_units]
  dsimp only
  rw [if_neg (by omega), if_neg (by omega), toUTF8Core_eq, if_pos hroom]

theorem utf16Units_ne_nil : utf16Units c ≠ [] := by
  rw [utf16Units]
  split <;> simp

theorem toUTF8Loop_iff (hmax : 0 < max) : ∀ {cs : List Char} {fuel used : ℕ},
    cs.length ≤ fuel → used + (utf8 cs).length ≤ max →
    (toUTF8Loop max fuel (utf16Text cs) used = ⟨[], utf8 cs, used + (utf8 cs).length⟩ ↔
      RoomLeft max used cs)
  | [], fuel, used, _, _ => by
    match fuel with
    | 0 => simp [toUTF8Loop, RoomLeft]
    | fuel + 1 => simp [toUTF8Loop, RoomLeft, nextCodePoint]
  | c :: cs, fuel + 1, used, hfuel, hle => by
    have hpos := len8_pos c
    have hlen : (String.utf8EncodeChar c).length = len8 c := rfl
    rw [utf8_cons, length_append] at hle
    rw [utf16Text_cons, RoomLeft]
    by_cases hroom : 0x80 ≤ c.toNat → len8 c ≤ (max - used) % 2 ^ 32
    · have ih := toUTF8Loop_iff hmax (le_of_succ_le_succ hfuel)
        (show used + len8 c + (utf8 cs).length ≤ max by omega)
      rw [toUTF8Loop_char c _ (by omega) hroom, and_iff_right hroom, ← ih, Conversion.emit,
        if_neg hmax.ne', utf8_cons, length_append, hlen, ← add_assoc]
      match toUTF8Loop max fuel (utf16Text cs) (used + len8 c) with
      | ⟨rest, output, total⟩ => simp
    · refine iff_of_false ?_ fun h => hroom h.1
      push Not at hroom
      rw [toUTF8Loop_full c _ (by omega) hroom.1 hroom.2]
      simp

theorem toUTF8LenLoop_char (rest : List ℕ) : toUTF8LenLoop (fuel + 1) (utf16Units c ++ rest) used =
      toUTF8LenLoop fuel rest ((used + len8 c) % 2 ^ 32) := by
  have hbytes := bytesToWrite_eq c
  rcases surrogates_cases c with ⟨hunits, hhigh, hlow⟩ | ⟨hi, lo, hunits, hhigh, hlow, hc⟩
  · rw [hunits, singleton_append, len8, ← hbytes]
    rcases rest with _ | ⟨low, rest⟩
    · rfl
    · rw [toUTF8LenLoop]
      rw [hhigh, Bool.false_and, if_neg Bool.false_ne_true]
  · rw [hunits, cons_append, singleton_append, toUTF8LenLoop, len8, ← hbytes]
    rw [hhigh, hlow, Bool.and_true, if_pos rfl, shiftLeft_eq, ← hc]

/-- The length of a conversion is counted in 32 bits. -/
theorem toUTF8LenLoop_eq : ∀ {cs : List Char} {fuel used : ℕ}, cs.length ≤ fuel → used < 2 ^ 32 →
    toUTF8LenLoop fuel (utf16Text cs) used = (used + (utf8 cs).length) % 2 ^ 32
  | [], fuel, used, _, hused => by
    rw [utf8_nil, length_nil, add_zero, mod_eq_of_lt hused]
    match fuel with
    | 0 => rfl
    | fuel + 1 => rfl
  | c :: cs, fuel + 1, used, hfuel, hused => by
    have hlen : (String.utf8EncodeChar c).length = len8 c := rfl
    rw [utf16Text_cons, toUTF8LenLoop_char, toUTF8LenLoop_eq (le_of_succ_le_succ hfuel)
      (mod_lt _ (by decide)), utf8_cons, length_append, hlen, mod_add_mod,
      add_assoc]

theorem length_le_utf16Text (cs : List Char) : cs.length ≤ (utf16Text cs).length := by
  induction cs with
  | nil => rfl
  | cons c cs ih =>
    have hpos := length_pos_of_ne_nil (utf16Units_ne_nil c)
    rw [utf16Text_cons, length_append, length_cons]
    omega

theorem toUTF8Len_eq (cs : List Char) : toUTF8Len (utf16Text cs) = (utf8 cs).length % 2 ^ 32 := by
  rw [toUTF8Len, toUTF8LenLoop_eq (length_le_utf16Text cs) (by decide), zero_add]

theorem toUTF8_eq_iff (hmax : 0 < max) (hle : (utf8 cs).length ≤ max) :
    toUTF8 max (utf16Text cs) = ⟨[], utf8 cs, (utf8 cs).length⟩ ↔ RoomLeft max 0 cs := by
  have h := toUTF8Loop_iff hmax (length_le_utf16Text cs) (show 0 + (utf8 cs).length ≤ max by omega)
  rwa [zero_add] at h

/-! ## Both directions -/

/-- The UTF-8 of `cs` is the longest well-formed prefix of `bytes`. -/
structure IsLongest (bytes : List UInt8) (cs : List Char) : Prop where
  isPrefix : utf8 cs <+: bytes
  longest : ∀ cs', utf8 cs' <+: bytes → (utf8 cs').length ≤ (utf8 cs).length

theorem IsLongest.stuck (h : IsLongest bytes cs) :
    ∀ c rest, bytes.drop (utf8 cs).length ≠ String.utf8EncodeChar c ++ rest := by
  intro c rest hrest
  have hpos := len8_pos c
  obtain ⟨tail, htail⟩ := h.isPrefix
  rw [← htail, drop_left] at hrest
  have hlonger := h.longest (cs ++ [c]) ⟨rest, by
    rw [← htail, hrest, utf8_append, utf8_cons, utf8_nil, append_nil, append_assoc]⟩
  rw [utf8_append, length_append, utf8_cons, utf8_nil, append_nil] at hlonger
  rw [len8] at hpos
  omega

theorem exists_isLongest (bytes : List UInt8) : ∃ cs, IsLongest bytes cs := by
  classical
  obtain ⟨cs, hcs, hmax⟩ := findGreatest_spec
    (P := fun n => ∃ cs, utf8 cs <+: bytes ∧ (utf8 cs).length = n) zero_le
    ⟨[], nil_prefix, rfl⟩
  refine ⟨cs, hcs, fun cs' hcs' => ?_⟩
  rw [hmax]
  exact le_findGreatest hcs'.length_le ⟨cs', hcs', rfl⟩

/-- With room enough, `__CFFromUTF8` takes the UTF-8 of `cs` off `bytes` and puts its UTF-16 out,
and `__CFFromUTF8Len` says how long that is. -/
def FromExact (bytes : List UInt8) (cs : List Char) : Prop :=
  (∀ max, 0 < max → (utf16Text cs).length ≤ max → fromUTF8 max bytes =
    ⟨bytes.drop (utf8 cs).length, utf16Text cs, (utf16Text cs).length⟩) ∧
    fromUTF8Len bytes = (utf16Text cs).length

/-- `__CFToUTF8` turns the UTF-16 of `cs` into its UTF-8, `__CFToUTF8Len` says how long that is, and
`__CFFromUTF8` turns it back. -/
def ToExact (cs : List Char) (max : ℕ) : Prop :=
  toUTF8 max (utf16Text cs) = ⟨[], utf8 cs, (utf8 cs).length⟩ ∧
    toUTF8Len (utf16Text cs) = (utf8 cs).length ∧ FromExact (utf8 cs) cs

theorem length_le_utf8 (cs : List Char) : cs.length ≤ (utf8 cs).length := by
  induction cs with
  | nil => rfl
  | cons c cs ih =>
    have hpos := len8_pos c
    rw [len8] at hpos
    rw [utf8_cons, length_append, length_cons]
    omega

/-- The bytes after the characters `cs` are left to the rest of the steps. -/
theorem exists_fuel {rest : List UInt8} (h : utf8 cs ++ rest = bytes) :
    ∃ fuel, bytes.length = cs.length + fuel ∧ rest.length ≤ fuel := by
  have hle := length_le_utf8 cs
  refine ⟨bytes.length - cs.length, ?_, ?_⟩
  all_goals
    rw [← h, length_append]
    omega

theorem fromExact_iff (h : IsLongest bytes cs) :
    FromExact bytes cs ↔ (bytes.drop (utf8 cs).length).head? ≠ some 0xA9 := by
  have hstuck := h.stuck
  obtain ⟨rest, hrest⟩ := h.isPrefix
  obtain ⟨fuel, hfuel, hle⟩ := exists_fuel hrest
  have hdrop : bytes.drop (utf8 cs).length = rest := by rw [← hrest, drop_left]
  rw [hdrop] at hstuck ⊢
  rw [FromExact, hdrop]
  constructor
  · rintro ⟨hfrom, -⟩ hbyte
    -- one unit more than the text needs is room for the replacement
    have hresult := hfrom ((utf16Text cs).length + 1) (succ_pos _) (le_succ _)
    match rest, fuel, hbyte, hle with
    | byte :: tail, fuel + 1, hbyte, _ =>
      obtain rfl : byte = 0xA9 := by simpa using hbyte
      rw [fromUTF8, hfuel, ← hrest, fromUTF8Loop_text _ (by omega),
        fromUTF8Loop_replace tail (by omega)] at hresult
      have hlen := length_rest_le ((utf16Text cs).length + 1) fuel tail
        (0 + (utf16Text cs).length + 1)
      have hrest' := congrArg (fun r => r.rest.length) hresult
      simp only [emit_rest, length_cons] at hrest'
      omega
  · intro hbyte
    constructor
    · intro max hmax hroom
      rw [fromUTF8, hfuel, ← hrest, fromUTF8Loop_text _ (by omega),
        fromUTF8Loop_stuck hstuck hbyte, Conversion.emit, if_neg hmax.ne', append_nil,
        zero_add]
    · rw [fromUTF8Len, hfuel, ← hrest, fromUTF8LenLoop_text, fromUTF8LenLoop_stuck hstuck hbyte,
        zero_add]

theorem isLongest_utf8 (cs : List Char) : IsLongest (utf8 cs) cs :=
  ⟨prefix_rfl, fun _ h => h.length_le⟩

theorem fromExact_utf8 (cs : List Char) : FromExact (utf8 cs) cs := by
  rw [fromExact_iff (isLongest_utf8 cs)]
  simp

/-- **UTF-8 conversion.** Of every byte string `__CFFromUTF8` takes the longest well-formed prefix,
unless a byte `0xA9` follows that. The UTF-16 of every text becomes its UTF-8 in a buffer of `max`
bytes, and comes back from there, exactly when the 32 bits of the room that is left are enough for
each character that is not ASCII and the length of the UTF-8 itself takes no more than 32 bits. -/
theorem utf8_conversion_iff (bytes : List UInt8) (cs : List Char) (max : ℕ) (hmax : 0 < max)
    (hle : (utf8 cs).length ≤ max) : (∃ ds, IsLongest bytes ds ∧
      (FromExact bytes ds ↔ (bytes.drop (utf8 ds).length).head? ≠ some 0xA9)) ∧
    (ToExact cs max ↔ (utf8 cs).length < 2 ^ 32 ∧ RoomLeft max 0 cs) := by
  constructor
  · obtain ⟨ds, hds⟩ := exists_isLongest bytes
    exact ⟨ds, hds, fromExact_iff hds⟩
  · rw [ToExact, toUTF8_eq_iff hmax hle, toUTF8Len_eq, mod_eq_iff_lt (by decide)]
    exact ⟨fun ⟨hroom, hlen, _⟩ => ⟨hlen, hroom⟩,
      fun ⟨hlen, hroom⟩ => ⟨hroom, hlen, fromExact_utf8 cs⟩⟩

/-- A letter of two bytes, one of three and one of four, in a buffer of the nine bytes they take. -/
theorem utf8_conversion_letters : ToExact ['é', '€', '𝄞'] 9 :=
  (utf8_conversion_iff [] ['é', '€', '𝄞'] 9 (by decide) (by decide)).2.mpr
    ⟨by decide, by simp only [RoomLeft]; decide⟩

theorem isLongest_copyright : IsLongest [0xA9] [] := by
  refine ⟨List.nil_prefix, fun cs hcs => ?_⟩
  match cs, hcs with
  | [], _ => exact le_refl _
  | c :: cs, hcs =>
    have hreads := readsAs_encode c
    have hpos := len8_pos c
    have hlen := hcs.length_le
    rw [len8] at hpos
    rw [utf8_cons, length_append, length_singleton] at hlen
    have hfirst : String.utf8EncodeChar c <+: [0xA9] := (prefix_append _ _).trans hcs
    have hbyte := hreads.legal
    rw [hfirst.eq_of_length (by rw [length_singleton]; omega)] at hbyte
    exact absurd hbyte (by decide)

theorem length_utf8_replicate (n : ℕ) : (utf8 (List.replicate n 'a')).length = n := by
  induction n with
  | zero => rfl
  | succ n ih =>
    rw [replicate_succ, utf8_cons, length_append, ih]
    exact add_comm 1 n

/-- A byte `0xA9` is not UTF-8 but is taken and replaced; a letter is not written into a buffer of
`2 ^ 32` bytes; and the UTF-8 of `2 ^ 32` letters is said to have no bytes at all. -/
theorem utf8_conversion_fails : (IsLongest [0xA9] [] ∧ fromUTF8 8 [0xA9] = ⟨[], [0xFFFD], 1⟩) ∧
      toUTF8 (2 ^ 32) (utf16Text ['é']) = ⟨utf16Text ['é'], [], 0⟩ ∧
      (utf8 (List.replicate (2 ^ 32) 'a')).length = 2 ^ 32 ∧
      toUTF8Len (utf16Text (List.replicate (2 ^ 32) 'a')) = 0 := by
  refine ⟨⟨isLongest_copyright, by decide⟩, by decide, length_utf8_replicate _, ?_⟩
  rw [toUTF8Len_eq, length_utf8_replicate, mod_self]

/-! ## In chunks -/

/-- What is left of `bytes`, and what came out, after `n` calls of `__CFFromUTF8` on what the call
before left, with buffers of the given sizes. -/
def fromUTF8Calls (sizes : ℕ → ℕ) (bytes : List UInt8) : ℕ → List UInt8 × List ℕ
  | 0 => (bytes, [])
  | n + 1 =>
    let (source, characters) := fromUTF8Calls sizes bytes n
    let call := fromUTF8 (sizes n) source
    (call.rest, characters ++ call.output)

/-- The bytes that a call with a buffer of `max` units takes are those of the characters it puts
out. -/
def CallExact (max : ℕ) (source : List UInt8) : Prop :=
  ∃ ds, source = utf8 ds ++ (fromUTF8 max source).rest ∧
    (fromUTF8 max source).output = utf16Text ds ∧
    (fromUTF8 max source).used = (utf16Text ds).length

/-- Every call is exact, and some number of them gives the UTF-16 of the whole text. -/
def ChunksExact (sizes : ℕ → ℕ) (cs : List Char) : Prop :=
  (∀ n, CallExact (sizes n) (fromUTF8Calls sizes (utf8 cs) n).1) ∧
    ∃ n, fromUTF8Calls sizes (utf8 cs) n = ([], utf16Text cs)

/-- The first `n` buffers do not end between the two units of a character. -/
def EndsWhole (sizes : ℕ → ℕ) (cs : List Char) (n : ℕ) : Prop :=
  ∑ i ∈ Finset.range n, sizes i < (utf16Text cs).length →
    ∃ ds, ds <+: cs ∧ (utf16Text ds).length = ∑ i ∈ Finset.range n, sizes i

theorem utf16Text_append (cs ds : List Char) :
    utf16Text (cs ++ ds) = utf16Text cs ++ utf16Text ds := flatMap_append

/-- A character for which the buffer has no room: its bytes are taken all the same if there is
room for one unit of it. -/
theorem fromUTF8Loop_full {fuel used : ℕ} (rest : List UInt8) (hused : used ≤ max)
    (hmax : 0 < max) (hfull : max < used + (utf16Units c).length) :
    fromUTF8Loop max (fuel + 1) (String.utf8EncodeChar c ++ rest) used =
      ⟨if used = max then String.utf8EncodeChar c ++ rest else rest, [], used⟩ := by
  obtain ⟨byte, bytes, heq, hlen, hle, htake, hdrop⟩ := encode_append_eq c rest
  have hreads := readsAs_encode c
  have hrange := char_range c
  rw [heq, fromUTF8Loop]
  rw [htake, hdrop, hreads.legal, hreads.value]
  by_cases hend : used = max
  · rw [if_pos ⟨hmax.ne', hend.ge⟩, if_pos hend]
  · rw [utf16Units] at hfull
    split_ifs at hfull with hbmp
    · rw [length_singleton] at hfull
      omega
    · rw [length_cons, length_singleton] at hfull
      rw [if_neg (by omega), if_neg (by omega), if_neg (by simp; omega), if_neg (by omega),
        if_neg (by omega), if_pos (by omega), if_neg hend]

/-- The character that a buffer of `max` units has no room for. -/
theorem exists_full (h : max < (utf16Text cs).length) : ∃ ds c es, cs = ds ++ c :: es ∧
    (utf16Text ds).length ≤ max ∧ max < (utf16Text ds).length + (utf16Units c).length := by
  induction cs using reverseRecOn with
  | nil => exact absurd h (not_lt_zero _)
  | append_singleton ds c ih =>
    by_cases hds : max < (utf16Text ds).length
    · obtain ⟨ds', d, es, rfl, hle, hlt⟩ := ih hds
      exact ⟨ds', d, es ++ [c], by simp, hle, hlt⟩
    · exact ⟨ds, c, [], rfl, not_lt.mp hds, by simpa [utf16Text_append] using h⟩

/-- A call on a text for which the buffer has room. -/
theorem fromUTF8_fits (hmax : 0 < max) (hroom : (utf16Text cs).length ≤ max) :
    fromUTF8 max (utf8 cs) = ⟨[], utf16Text cs, (utf16Text cs).length⟩ := by
  rw [(fromExact_utf8 cs).1 max hmax hroom, drop_length]

variable {ds : List Char} {c : Char}

/-- A call on a text for which the buffer has no room. -/
theorem fromUTF8_full (es : List Char) (hmax : 0 < max) (hle : (utf16Text ds).length ≤ max)
    (hlt : max < (utf16Text ds).length + (utf16Units c).length) :
    fromUTF8 max (utf8 (ds ++ c :: es)) =
      ⟨if (utf16Text ds).length = max then utf8 (c :: es) else utf8 es, utf16Text ds,
        (utf16Text ds).length⟩ := by
  obtain ⟨fuel, hfuel, hrest⟩ := exists_fuel (utf8_append ds (c :: es)).symm
  have hpos := len8_pos c
  rw [utf8_cons, length_append, ← len8] at hrest
  obtain ⟨fuel, rfl⟩ := exists_eq_succ_of_ne_zero (show fuel ≠ 0 by omega)
  rw [fromUTF8, hfuel, utf8_append, utf8_cons, fromUTF8Loop_text _ (by omega), zero_add,
    fromUTF8Loop_full c _ hle hmax hlt, Conversion.emit, if_neg hmax.ne', append_nil]

theorem length_utf16Text_le (h : ds <+: cs) : (utf16Text ds).length ≤ (utf16Text cs).length := by
  obtain ⟨es, rfl⟩ := h
  rw [utf16Text_append, length_append]
  omega

/-- No text ends inside the units of `c`. -/
theorem not_endsWhole {es : List Char} {n : ℕ} (hlt : (utf16Text ds).length < n)
    (hn : n < (utf16Text ds).length + (utf16Units c).length) :
    ¬ (n < (utf16Text (ds ++ c :: es)).length →
      ∃ as, as <+: ds ++ c :: es ∧ (utf16Text as).length = n) := by
  intro h
  have htext : (utf16Text (ds ++ [c])).length =
      (utf16Text ds).length + (utf16Units c).length := by simp [utf16Text_append]
  have hprefix : ds ++ [c] <+: ds ++ c :: es := ⟨es, (append_cons ds c es).symm⟩
  have hle := length_utf16Text_le hprefix
  obtain ⟨as, has, hlen⟩ := h (by omega)
  rcases prefix_or_prefix_of_prefix has hprefix with hbefore | hafter
  · rcases prefix_concat_iff.mp hbefore with rfl | hbefore
    · omega
    · have := length_utf16Text_le hbefore
      omega
  · have := length_utf16Text_le hafter
    omega

/-- After `n` calls on the text `cs`, the characters `ds` have come out and `es` are left. -/
structure Decoded (sizes : ℕ → ℕ) (cs : List Char) (n : ℕ) (ds es : List Char) : Prop where
  text : cs = ds ++ es
  calls : fromUTF8Calls sizes (utf8 cs) n = (utf8 es, utf16Text ds)
  filled : (utf16Text ds).length = ∑ i ∈ Finset.range n, sizes i ∨
    es = [] ∧ (utf16Text ds).length ≤ ∑ i ∈ Finset.range n, sizes i

namespace Decoded

variable {sizes : ℕ → ℕ} {n : ℕ} {ds es : List Char}

theorem endsWhole (h : Decoded sizes cs n ds es) : EndsWhole sizes cs n := by
  intro hlt
  rcases h.filled with heq | ⟨rfl, hle⟩
  · exact ⟨ds, ⟨es, h.text.symm⟩, heq⟩
  · rw [h.text, append_nil] at hlt
    omega

/-- A call either is exact, and goes on to where the buffer ends, or loses the character that the
buffer cuts. -/
theorem call (hsizes : ∀ n, 2 ≤ sizes n) (h : Decoded sizes cs n ds es) :
    (CallExact (sizes n) (utf8 es) ∧ ∃ ds es, Decoded sizes cs (n + 1) ds es) ∨
      ¬ CallExact (sizes n) (utf8 es) ∧ ¬ EndsWhole sizes cs (n + 1) := by
  have hmax : 0 < sizes n := by have := hsizes n; omega
  by_cases hroom : (utf16Text es).length ≤ sizes n
  · have hcall := fromUTF8_fits hmax hroom
    refine .inl ⟨⟨es, ?_⟩, cs, [], (append_nil cs).symm, ?_, .inr ⟨rfl, ?_⟩⟩
    · rw [hcall, append_nil]
      exact ⟨rfl, rfl, rfl⟩
    · rw [fromUTF8Calls, h.calls]
      simp only [hcall, h.text, utf16Text_append, utf8_nil]
    · rw [h.text, utf16Text_append, length_append, Finset.sum_range_succ]
      rcases h.filled with heq | ⟨rfl, hle⟩
      · omega
      · rw [utf16Text_nil, length_nil]
        omega
  · obtain ⟨as, c, bs, rfl, hle, hlt⟩ := exists_full (not_le.mp hroom)
    have hcall := fromUTF8_full bs hmax hle hlt
    have hsum : (utf16Text ds).length = ∑ i ∈ Finset.range n, sizes i := by
      simpa using h.filled
    by_cases hend : (utf16Text as).length = sizes n
    · rw [if_pos hend] at hcall
      refine .inl ⟨⟨as, ?_⟩, ds ++ as, c :: bs, ?_, ?_, .inl ?_⟩
      · rw [hcall]
        exact ⟨utf8_append _ _, rfl, rfl⟩
      · rw [h.text, append_assoc]
      · rw [fromUTF8Calls, h.calls]
        simp only [hcall, utf16Text_append]
      · rw [utf16Text_append, length_append, Finset.sum_range_succ, hsum, hend]
    · rw [if_neg hend] at hcall
      refine .inr ⟨?_, ?_⟩
      · rintro ⟨as', htaken, hout, -⟩
        rw [hcall, append_cons, utf8_append, append_cancel_right_eq] at htaken
        rw [← prefixCode_utf8.flatMap_injective htaken, hcall, utf16Text_append] at hout
        simp [utf16Units_ne_nil] at hout
      · rw [EndsWhole, Finset.sum_range_succ, h.text, ← append_assoc]
        exact not_endsWhole (by rw [utf16Text_append, length_append]; omega)
          (by rw [utf16Text_append, length_append]; omega)

end Decoded

/-- A run in which no call loses a character. -/
theorem exists_decoded {sizes : ℕ → ℕ} (hsizes : ∀ n, 2 ≤ sizes n)
    (hcalls : ∀ n, CallExact (sizes n) (fromUTF8Calls sizes (utf8 cs) n).1 ∨
      EndsWhole sizes cs (n + 1)) (n : ℕ) : ∃ ds es, Decoded sizes cs n ds es := by
  induction n with
  | zero => exact ⟨[], cs, rfl, rfl, .inl rfl⟩
  | succ n ih =>
    obtain ⟨ds, es, h⟩ := ih
    have hcall := hcalls n
    rw [h.calls] at hcall
    rcases h.call hsizes with ⟨-, hnext⟩ | ⟨hexact, hwhole⟩
    · exact hnext
    · exact absurd hcall (not_or.mpr ⟨hexact, hwhole⟩)

/-- **Decoding in chunks.** With buffers of at least two units, every call of `__CFFromUTF8` puts
out the characters whose bytes it takes, and the calls together put out the whole text, exactly
when no buffer before the end of the text ends between the two units of a character. -/
theorem chunksExact_iff (sizes : ℕ → ℕ) (hsizes : ∀ n, 2 ≤ sizes n) (cs : List Char) :
    ChunksExact sizes cs ↔ ∀ n, EndsWhole sizes cs n := by
  constructor
  · rintro ⟨hcalls, -⟩ n
    obtain ⟨ds, es, h⟩ := exists_decoded hsizes (fun n => .inl (hcalls n)) n
    exact h.endsWhole
  · intro hwhole
    have hdecoded := exists_decoded hsizes fun n => .inr (hwhole (n + 1))
    constructor
    · intro n
      obtain ⟨ds, es, h⟩ := hdecoded n
      rw [h.calls]
      rcases h.call hsizes with ⟨hcall, -⟩ | ⟨-, hnot⟩
      · exact hcall
      · exact absurd (hwhole _) hnot
    · obtain ⟨ds, es, h⟩ := hdecoded (utf16Text cs).length
      have hsum : (utf16Text cs).length * 2 ≤
          ∑ i ∈ Finset.range (utf16Text cs).length, sizes i := by
        simpa using Finset.card_nsmul_le_sum (Finset.range (utf16Text cs).length) sizes 2
          fun n _ => hsizes n
      obtain rfl : es = [] := by
        rcases h.filled with heq | ⟨hnil, -⟩
        · have hlen := length_le_utf16Text es
          rw [h.text] at heq hsum
          rw [utf16Text_append, length_append] at heq hsum
          exact length_eq_zero_iff.mp (by omega)
        · exact hnil
      refine ⟨(utf16Text cs).length, ?_⟩
      rw [h.calls, h.text, append_nil, utf8_nil]

/-- Two letters fill the first buffer, a character of two units the second. -/
theorem chunksExact_letters : ChunksExact (fun _ => 2) ['a', 'b', '𝄞'] := by
  refine (chunksExact_iff _ (fun _ => le_refl 2) _).mpr fun n hlt => ?_
  have hlen : (utf16Text ['a', 'b', '𝄞']).length = 4 := by decide
  rw [Finset.sum_const, Finset.card_range, smul_eq_mul] at hlt ⊢
  match n with
  | 0 => exact ⟨[], nil_prefix, rfl⟩
  | 1 => exact ⟨['a', 'b'], ⟨['𝄞'], rfl⟩, by decide⟩
  | n + 2 => omega

/-- The character that the first buffer has one unit for is lost. -/
theorem chunksExact_fails : fromUTF8 2 (utf8 ['a', '𝄞']) = ⟨[], [0x61], 1⟩ ∧
    ¬ ChunksExact (fun _ => 2) ['a', '𝄞'] := by
  have hcall : fromUTF8 2 (utf8 ['a', '𝄞']) = ⟨[], [0x61], 1⟩ := by decide
  refine ⟨hcall, fun ⟨hcalls, _⟩ => ?_⟩
  obtain ⟨ds, htaken, hout, -⟩ := hcalls 0
  rw [fromUTF8Calls, hcall, append_nil] at htaken
  rw [fromUTF8Calls, ← prefixCode_utf8.flatMap_injective htaken] at hout
  exact absurd hout (by decide)

end Apple.CF.Utf8
