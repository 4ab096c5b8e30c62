import Apple.Dispatch.UtfTo

/-!
# `_dispatch_transform_from_utf16` on a text in several regions

A unit that is not inside its region is read ahead from an offset that ignores the bytes
skipped at the start of the region. What is read there need not be a character of the text,
and nothing can be said about the regions after it. But the result only grows: once a character
other than that of the text is written, the result is wrong.

Results:
* `fromUtf16Loop_ok`, `fromUtf16Loop_inv`: what a region writes, and what follows if it is not
  wrong.
* `transformFromUtf16_iff`: the transform gives the text exactly if the first buffer is not too
  large, the text does not start with U+FFFE, and every region is harmless (`FromOk`).
-/

namespace Apple.Dispatch.Utf

open Lib List Option

/-! ## Units -/

/-- The unit at a position, in host order. -/
def unitAt (order : ByteOrder) (text : Bytes) (pos : ℕ) : Option ℕ :=
  (loadU16 (text.drop pos)).map (swapToHost order)

variable {k u t ch i : ℕ} {text rest out : Bytes} {c : Char} {b : Buffer} {cs : List Char}
  {st st' : UtfState}

theorem loadU16_take (hk : 2 ≤ k) (bytes : Bytes) : loadU16 (bytes.take k) = loadU16 bytes := by
  obtain ⟨k, rfl⟩ : ∃ j, k = j + 2 := ⟨k - 2, by omega⟩
  match bytes with
  | [] => rfl
  | [_] => rfl
  | _ :: _ :: _ => rfl

theorem loadU16_of_length {bytes : Bytes} (h : bytes.length < 2) : loadU16 bytes = none := by
  match bytes with
  | [] => rfl
  | [_] => rfl
  | _ :: _ :: _ => simp at h

theorem mappedUnit_eq (order : ByteOrder) (data : DispatchData) (pos : ℕ) :
    mappedUnit order data pos = unitAt order data.bytes pos := by
  unfold mappedUnit DispatchData.subrangeMap DispatchData.createSubrange unitAt
  by_cases h : ((data.bytes.drop pos).take 2).length = 2
  · simp only [if_pos h, bind_eq_bind, bind_some, loadU16_take le_rfl]
  · rw [length_take] at h
    simp only [length_take, if_neg h, bind_eq_bind, bind_none]
    rw [loadU16_of_length (by omega), map_none]

/-- A unit of a region, in terms of the text. -/
theorem srcUnit_eq (order : ByteOrder) (text : Bytes) (first stop i : ℕ) :
    srcUnit order ((text.drop first).take (stop - first)) i =
      if first + 2 * i + 2 ≤ stop then unitAt order text (first + 2 * i) else none := by
  rw [srcUnit, drop_take, drop_drop]
  split_ifs with h
  · rw [loadU16_take (by omega), unitAt]
  · rw [loadU16_of_length (by rw [length_take]; omega), map_none]

variable {order : ByteOrder} {max : ℕ}

theorem unitBytes_of_unitAt {pos : ℕ} (h : unitAt order text pos = some u) :
    u < 0x10000 ∧ (text.drop pos).take 2 = unitBytes order u := by
  rw [unitAt] at h
  generalize text.drop pos = bytes at *
  match bytes with
  | [] => cases h
  | [_] => cases h
  | a :: b :: rest =>
    have ha := a.toNat_lt
    have hb := b.toNat_lt
    have h1 : (a.toNat + 256 * b.toNat) % 256 = a.toNat := by omega
    have h2 : (a.toNat + 256 * b.toNat) / 256 = b.toNat := by omega
    cases order with
    | little =>
      obtain rfl : a.toNat + 256 * b.toNat = u := some.inj h
      refine ⟨by omega, ?_⟩
      rw [unitBytes, h1, h2, UInt8.ofNat_toNat, UInt8.ofNat_toNat]
      rfl
    | big =>
      obtain rfl : swapInt16 (a.toNat + 256 * b.toNat) = u := some.inj h
      rw [swapInt16, h1, h2]
      refine ⟨by omega, ?_⟩
      rw [unitBytes, show (a.toNat * 256 + b.toNat) / 256 = a.toNat by omega,
        show (a.toNat * 256 + b.toNat) % 256 = b.toNat by omega, UInt8.ofNat_toNat,
        UInt8.ofNat_toNat]
      rfl

/-- Equal bytes at two positions are equal units. -/
theorem unitAt_congr (order : ByteOrder) {p q : ℕ}
    (h : (text.drop p).take 2 = (text.drop q).take 2) :
    unitAt order text p = unitAt order text q := by
  rw [unitAt, ← loadU16_take le_rfl, h, loadU16_take le_rfl, unitAt]

/-- The units of the character at the start of a text. -/
theorem unitAt_text
    (ht : text.drop t = utf16EncodeChar order c ++ rest) (hk : (utf16Units c)[k]? = some u) :
    unitAt order text (t + 2 * k) = some u := by
  have hdrop : text.drop (t + 2 * k) = (utf16EncodeChar order c ++ rest).drop (2 * k) := by
    rw [← drop_drop, ht]
  rw [unitAt, hdrop]
  show srcUnit order (utf16EncodeChar order c ++ rest) k = some u
  rcases utf16Units_cases c with ⟨hlt, -, h⟩ | ⟨hi, lo, h, h1, h2, h3, h4, -⟩
  · rw [h] at hk
    obtain ⟨rfl, rfl⟩ : k = 0 ∧ c.toNat = u := by
      rcases k with _ | k
      · exact ⟨rfl, some.inj hk⟩
      · simp at hk
    rw [utf16EncodeChar, h, flatMap_singleton, srcUnit_zero order hlt]
  · rw [h] at hk
    rw [utf16EncodeChar, h, flatMap_cons, flatMap_singleton, append_assoc]
    rcases k with _ | _ | k
    · obtain rfl : hi = u := some.inj hk
      rw [srcUnit_zero order (by omega)]
    · obtain rfl : lo = u := some.inj hk
      rw [srcUnit_succ, srcUnit_zero order (by omega)]
    · simp at hk

/-! ## Reading a character -/

theorem exists_char {n : ℕ} (h : n < 0xd800 ∨ 0xdfff < n ∧ n < 0x110000) :
    ∃ c : Char, c.toNat = n :=
  ⟨Char.ofNatAux n h, rfl⟩

theorem utf16Units_ne_surrogate (h : utf16Units c = [ch]) :
    ch = c.toNat ∧ ¬ (0xd800 ≤ ch ∧ ch ≤ 0xdfff) := by
  rcases utf16Units_cases c with ⟨-, hsur, hc⟩ | ⟨hi, lo, hc, -⟩
  · rw [h, singleton_inj] at hc
    rw [hc]
    exact ⟨rfl, hsur⟩
  · rw [h] at hc
    cases hc

theorem utf16Units_pair {hi lo : ℕ} (h : utf16Units c = [hi, lo]) :
    0xd800 ≤ hi ∧ hi ≤ 0xdbff ∧ 0xdc00 ≤ lo ∧ lo ≤ 0xdfff ∧
      c.toNat = (hi - 0xd800) * 0x400 + (lo - 0xdc00) + 0x10000 := by
  rcases utf16Units_cases c with ⟨-, -, hc⟩ | ⟨hi', lo', hc, hrest⟩
  · rw [h] at hc
    cases hc
  · rw [h] at hc
    obtain ⟨rfl, rfl⟩ : hi = hi' ∧ lo = lo' := by simpa using hc
    exact hrest

section ReadCodePoint

variable {order : ByteOrder} {data : DispatchData} {offset max : ℕ} {src : Bytes}

theorem readCodePoint_one (h : utf16Units c = [ch]) (i skip : ℕ) :
    readCodePoint order data offset max src ch i skip = some (c.toNat, i, skip) := by
  obtain ⟨rfl, hsur⟩ := utf16Units_ne_surrogate h
  rw [readCodePoint, if_neg (by omega), if_neg (by omega)]

variable {skip : ℕ}

theorem readCodePoint_two {ch' skip' : ℕ} (h : utf16Units c = [ch, ch'])
    (hlow : readLowUnit order data offset max src (i + 1) skip = some (ch', skip')) :
    readCodePoint order data offset max src ch i skip = some (c.toNat, i + 1, skip') := by
  obtain ⟨h1, h2, h3, h4, hc⟩ := utf16Units_pair h
  rw [readCodePoint, if_pos ⟨h1, h2⟩, hlow]
  simp only [bind_eq_bind, bind_some]
  rw [if_neg (by omega), pair_codePoint ch h3 h4, hc]

/-- What is read as a code point is a character, made of the units that are read. -/
theorem readCodePoint_some {r : ℕ × ℕ × ℕ} (hch : ch < 0x10000)
    (h : readCodePoint order data offset max src ch i skip = some r) :
    ∃ x : Char, r.1 = x.toNat ∧ ((utf16Units x = [ch] ∧ r.2 = (i, skip)) ∨
      ∃ ch' skip', utf16Units x = [ch, ch'] ∧
        readLowUnit order data offset max src (i + 1) skip = some (ch', skip') ∧
        r.2 = (i + 1, skip')) := by
  rw [readCodePoint] at h
  split_ifs at h with hhigh hlow
  · obtain ⟨⟨ch', skip'⟩, hread, h⟩ := bind_eq_some_iff.mp h
    simp only at h
    split_ifs at h with hlo
    obtain rfl := some.inj h
    rw [pair_codePoint ch hlo.1 hlo.2]
    obtain ⟨x, hx⟩ := exists_char
      (n := (ch - 0xd800) * 0x400 + (ch' - 0xdc00) + 0x10000) (by omega)
    refine ⟨x, hx.symm, Or.inr ⟨ch', skip', ?_, hread, rfl⟩⟩
    rw [utf16Units, if_neg (by omega), hx, show 0xd800 + ((ch - 0xd800) * 0x400 + (ch' - 0xdc00) +
      0x10000 - 0x10000) / 0x400 = ch by omega, show 0xdc00 + ((ch - 0xd800) * 0x400 +
      (ch' - 0xdc00) + 0x10000 - 0x10000) % 0x400 = ch' by omega]
  · obtain rfl := some.inj h
    obtain ⟨x, hx⟩ := exists_char (n := ch) (by omega)
    exact ⟨x, hx.symm, Or.inl ⟨by rw [utf16Units, if_pos (by omega), hx], rfl⟩⟩

end ReadCodePoint

/-! ## Reading in a region -/

/-- The units of the character at `t` that are not inside the region are read at an offset where
the text has the same bytes. A unit half of which is inside is only read ahead if it is the
first one of its character. -/
def CutOk (order : ByteOrder) (all : List Char) (stop skip t : ℕ) (c : Char) : Prop :=
  stop ≠ t + 3 ∧ ∀ k < (utf16Units c).length, stop < t + 2 * k + 2 →
    ((utf16 order all).drop (t + 2 * k - skip)).take 2 =
      ((utf16 order all).drop (t + 2 * k)).take 2

theorem len16_cases (c : Char) :
    (∃ ch, utf16Units c = [ch] ∧ len16 c = 2) ∨ ∃ hi lo, utf16Units c = [hi, lo] ∧ len16 c = 4 := by
  rcases utf16Units_cases c with ⟨-, -, h⟩ | ⟨hi, lo, h, -⟩
  · exact Or.inl ⟨_, h, by rw [len16, h]; rfl⟩
  · exact Or.inr ⟨hi, lo, h, by rw [len16, h]; rfl⟩

section Region

variable {order : ByteOrder} {data : DispatchData} {all : List Char} {start skip stop : ℕ}

/-- The part of a region that is not skipped. -/
def regionSrc (order : ByteOrder) (all : List Char) (first stop : ℕ) : Bytes :=
  ((utf16 order all).drop first).take (stop - first)

/-- The unit at an index of a region of the text. -/
abbrev regionUnit (order : ByteOrder) (data : DispatchData) (all : List Char)
    (start skip stop : ℕ) : ℕ → ℕ → Option (ℕ × ℕ) :=
  readUnit order data start (stop - start - skip) (howmany (stop - start - skip) 2)
    (regionSrc order all (start + skip) stop)

section

variable (hdata : data.bytes = utf16 order all)
include hdata

theorem regionUnit_eq (ht : t = start + skip + 2 * i) (hlt : t < stop) (k : ℕ) :
    regionUnit order data all start skip stop i k =
      if t + 2 ≤ stop then (unitAt order (utf16 order all) t).map (·, k)
      else (unitAt order (utf16 order all) (t - skip)).map (·, k + 1) := by
  rw [regionUnit, readUnit, regionSrc, srcUnit_eq, mappedUnit_eq, hdata, ← ht, howmany,
    show start + i * 2 = t - skip by omega]
  by_cases h : t + 2 ≤ stop
  · rw [if_neg (by omega), if_pos h, if_pos h]
  · rw [if_pos (by omega), if_neg h]

theorem regionUnit_lt (ht : t = start + skip + 2 * i) (hlt : t < stop)
    (hunit : regionUnit order data all start skip stop i 0 = some (ch, k)) : ch < 0x10000 := by
  rw [regionUnit_eq hdata ht hlt] at hunit
  split_ifs at hunit <;>
    (obtain ⟨u, hu, he⟩ := map_eq_some_iff.mp hunit
     cases he
     exact (unitBytes_of_unitAt hu).1)

theorem readLowUnit_eq (ht : t = start + skip + 2 * i) (hlt : t < stop) (k : ℕ) :
    readLowUnit order data start (howmany (stop - start - skip) 2)
        (regionSrc order all (start + skip) stop) (i + 1) k =
      if stop ≤ t + 2 then (unitAt order (utf16 order all) (t + 2 - skip)).map (·, k + 2)
      else if t + 4 ≤ stop then (unitAt order (utf16 order all) (t + 2)).map (·, k) else none := by
  rw [readLowUnit, regionSrc, srcUnit_eq, mappedUnit_eq, hdata, howmany,
    show start + (i + 1) * 2 = t + 2 - skip by omega,
    show start + skip + 2 * (i + 1) = t + 2 by omega]
  by_cases h : stop ≤ t + 2
  · rw [if_pos (by omega), if_pos h]
  · rw [if_neg (by omega), if_neg h]
    by_cases h4 : t + 4 ≤ stop
    · rw [if_pos (by omega), if_pos h4]
    · rw [if_neg (by omega), if_neg h4, map_none]

/-- A character that is inside the region, or cut without harm, is read. -/
theorem readChar_ok (hc : (utf16 order all).drop t = utf16EncodeChar order c ++ rest)
    (ht : t = start + skip + 2 * i) (hlt : t < stop)
    (hok : stop < t + len16 c → CutOk order all stop skip t c) :
    ∃ ch k, (utf16Units c)[0]? = some ch ∧
      regionUnit order data all start skip stop i 0 = some (ch, k) ∧ k = t + 2 - stop ∧
      readCodePoint order data start (howmany (stop - start - skip) 2)
        (regionSrc order all (start + skip) stop) ch i k =
          some (c.toNat, i + (utf16Units c).length - 1, t + len16 c - stop) := by
  -- the bytes at the offset of a unit that is read ahead are those of the unit
  have hahead : ∀ {k u : ℕ}, (utf16Units c)[k]? = some u → stop < t + 2 * k + 2 →
      stop < t + len16 c → unitAt order (utf16 order all) (t + 2 * k - skip) = some u := by
    intro k u hk hstop hcut
    have hlen : k < (utf16Units c).length := (List.getElem?_eq_some_iff.mp hk).1
    rw [unitAt_congr order ((hok hcut).2 k hlen hstop), unitAt_text hc hk]
  have hfirst : ∀ {ch : ℕ}, (utf16Units c)[0]? = some ch → 2 ≤ len16 c →
      regionUnit order data all start skip stop i 0 = some (ch, t + 2 - stop) := by
    intro ch hch hlen
    rw [regionUnit_eq hdata ht hlt]
    split_ifs with h
    · rw [show t = t + 2 * 0 by rfl, unitAt_text hc hch, Nat.sub_eq_zero_of_le h]
      rfl
    · rw [show t - skip = t + 2 * 0 - skip by rfl, hahead hch (by omega) (by omega),
        show t + 2 - stop = 0 + 1 by omega]
      rfl
  rcases len16_cases c with ⟨ch, hunits, hlen⟩ | ⟨hi, lo, hunits, hlen⟩
  · have hch : (utf16Units c)[0]? = some ch := by rw [hunits]; rfl
    refine ⟨ch, _, hch, hfirst hch (by omega), rfl, ?_⟩
    rw [readCodePoint_one hunits, hunits, hlen]
    rfl
  · have hch : (utf16Units c)[0]? = some hi := by rw [hunits]; rfl
    have hlo : (utf16Units c)[1]? = some lo := by rw [hunits]; rfl
    refine ⟨hi, _, hch, hfirst hch (by omega), rfl, ?_⟩
    have hlow : readLowUnit order data start (howmany (stop - start - skip) 2)
        (regionSrc order all (start + skip) stop) (i + 1) (t + 2 - stop) =
          some (lo, t + len16 c - stop) := by
      rw [readLowUnit_eq hdata ht hlt]
      split_ifs with h h4
      · rw [hahead hlo (by omega) (by omega),
          show t + len16 c - stop = t + 2 - stop + 2 by omega]
        rfl
      · rw [unitAt_text hc hlo,
          show t + len16 c - stop = t + 2 * 1 - stop by omega]
        rfl
      · exact absurd (by omega) (hok (by omega)).1
    rw [readCodePoint_two hunits hlow, hunits]
    rfl

/-- If a character that the end of the region cuts is read, it is cut without harm. -/
theorem cutOk_of_read (hc : (utf16 order all).drop t = utf16EncodeChar order c ++ rest)
    (ht : t = start + skip + 2 * i) (hlt : t < stop) (hcut : stop < t + len16 c) {r : ℕ × ℕ × ℕ}
    (hunit : regionUnit order data all start skip stop i 0 = some (ch, k))
    (hread : readCodePoint order data start (howmany (stop - start - skip) 2)
      (regionSrc order all (start + skip) stop) ch i k = some r) (hr : r.1 = c.toNat) :
    CutOk order all stop skip t c := by
  have hch := regionUnit_lt hdata ht hlt hunit
  rw [regionUnit_eq hdata ht hlt] at hunit
  -- the bytes of a unit that was read ahead
  have hslice : ∀ {k u : ℕ}, (utf16Units c)[k]? = some u →
      unitAt order (utf16 order all) (t + 2 * k - skip) = some u →
      ((utf16 order all).drop (t + 2 * k - skip)).take 2 =
        ((utf16 order all).drop (t + 2 * k)).take 2 := by
    intro k u hk hu
    rw [(unitBytes_of_unitAt hu).2, (unitBytes_of_unitAt (unitAt_text hc hk)).2]
  have hzero : (utf16Units c)[0]? = some ch → stop < t + 2 →
      ((utf16 order all).drop (t + 2 * 0 - skip)).take 2 =
        ((utf16 order all).drop (t + 2 * 0)).take 2 := by
    intro hk hstop
    rw [if_neg (by omega)] at hunit
    obtain ⟨u, hu, he⟩ := map_eq_some_iff.mp hunit
    cases he
    exact hslice hk hu
  obtain ⟨x, hx, hunits⟩ := readCodePoint_some hch hread
  obtain rfl : x = c := Char.toNat_inj.mp (hx.symm.trans hr)
  rcases hunits with ⟨hunits, -⟩ | ⟨lo, k', hunits, hlow, -⟩
  · have hlen : len16 x = 2 := by rw [len16, hunits]; rfl
    refine ⟨by omega, fun j hj hstop => ?_⟩
    rw [hunits, length_singleton] at hj
    obtain rfl : j = 0 := by omega
    exact hzero (by rw [hunits]; rfl) hstop
  · have hlen : len16 x = 4 := by rw [len16, hunits]; rfl
    rw [readLowUnit_eq hdata ht hlt] at hlow
    have hle : stop ≤ t + 2 := by
      by_contra h
      rw [if_neg h, if_neg (by omega)] at hlow
      cases hlow
    rw [if_pos hle] at hlow
    refine ⟨by omega, fun j hj hstop => ?_⟩
    rw [hunits] at hj
    rcases j with _ | _ | j
    · exact hzero (by rw [hunits]; rfl) hstop
    · obtain ⟨u, hu, he⟩ := map_eq_some_iff.mp hlow
      cases he
      exact hslice (by rw [hunits]; rfl) hu
    · simp at hj

end

end Region

/-! ## Room for the characters of a region -/

/-- The bytes that the first character of a region needs, besides two for each unit of the region. A
surrogate pair uses the two bytes of its first unit. -/
def firstSize (c : Char) : ℕ := if c.toNat < 0x10000 then len8 c else 2

theorem firstSize_cases (c : Char) :
    ((utf16Units c).length = 1 ∧ 1 ≤ len8 c ∧ len8 c ≤ 3 ∧ firstSize c = len8 c) ∨
      ((utf16Units c).length = 2 ∧ len8 c = 4 ∧ firstSize c = 2) := by
  have hpos := len8_pos c
  by_cases h : c.toNat < 0x10000
  · refine Or.inl ⟨by rw [utf16Units, if_pos h]; rfl, hpos, ?_, if_pos h⟩
    by_cases h1 : c.toNat < 0x80
    · obtain ⟨b, he, -⟩ := utf8_one h1
      rw [len8, he]
      simp
    by_cases h2 : c.toNat < 0x800
    · obtain ⟨b, b₁, he, -⟩ := utf8_two (not_lt.mp h1) h2
      rw [len8, he]
      simp
    · obtain ⟨b, b₁, b₂, he, -⟩ := utf8_three (not_lt.mp h2) h
      rw [len8, he]
      simp
  · obtain ⟨b, b₁, b₂, b₃, he, -⟩ := utf8_four (not_lt.mp h)
    exact Or.inr ⟨by rw [utf16Units, if_neg h]; rfl, by rw [len8, he]; rfl, if_neg h⟩

/-- The next character of a region with `max` units can be written from the unit `i` on: a new
buffer is not too large, or the buffer is still the first one, of which at most three bytes
per unit are used. -/
def Room (max : ℕ) (b : Buffer) (i : ℕ) (cs : List Char) : Prop :=
  (∀ c cs', cs = c :: cs' → firstSize c + 2 * (max - i) ≤ bufferMallocMax) ∨
    ∃ size, 2 * max ≤ size + 1 ∧ howmany size 3 * 2 ≤ bufferMallocMax ∧
      b.size = howmany size 3 * 2 ∧ b.written.length ≤ 3 * i

theorem Room.emit (h : Room max b i (c :: cs)) (hi : i < max) :
    (max - (i + (utf16Units c).length - 1)) * 2 ≤ sizeTMax ∧
    ∃ b', emit b (String.utf8EncodeChar c) ((max - (i + (utf16Units c).length - 1)) * 2) = some b' ∧
      Room max b' (i + (utf16Units c).length) cs := by
  have hunits := firstSize_cases c
  have hmax : sizeTMax = 18446744073709551615 ∧ bufferMallocMax = 104857600 := ⟨rfl, rfl⟩
  have hnext {d : Char} {ds : List Char} (_ : cs = d :: ds) : firstSize d ≤ 3 := by
    have := firstSize_cases d
    omega
  rcases h with h | ⟨size, h1, h2, h3, h4⟩
  · have hfirst := h c cs rfl
    refine ⟨by omega, ?_⟩
    obtain ⟨b', hb'⟩ := emit_isSome b ((max - (i + (utf16Units c).length - 1)) * 2)
      (String.utf8EncodeChar_ne_nil (c := c)) (by rw [← len8]; omega)
    exact ⟨b', hb', Or.inl fun d ds hd => by have := hnext hd; omega⟩
  · rw [howmany] at h2 h3
    refine ⟨by omega, ?_⟩
    by_cases hroom : len8 c ≤ b.size - b.written.length
    · refine ⟨_, emit_room String.utf8EncodeChar_ne_nil hroom _, Or.inr ⟨size, h1, h2, h3, ?_⟩⟩
      rw [length_append, ← len8]
      omega
    · refine ⟨_, emit_new (not_le.mp hroom) (by rw [← len8]; omega), Or.inl ?_⟩
      intro d ds hd
      have := hnext hd
      omega

theorem Room.skip (h : Room max b i (c :: cs)) (hi : i < max) : Room max b (i + 1) cs := by
  have hc := firstSize_cases c
  rcases h with h | ⟨size, h1, h2, h3, h4⟩
  · have hfirst := h c cs rfl
    refine Or.inl fun d ds _ => ?_
    have hd := firstSize_cases d
    omega
  · exact Or.inr ⟨size, h1, h2, h3, by omega⟩

/-! ## The loop -/

/-- The byte order mark in the other byte order. -/
def swappedBom : Char := '\uFFFE'

theorem firstUnit_eq_iff {d : Char} (hch : (utf16Units c)[0]? = some ch)
    (hd : 0xdfff < d.toNat) (hd' : d.toNat < 0x10000) : ch = d.toNat ↔ c = d := by
  rcases utf16Units_cases c with ⟨-, -, h⟩ | ⟨hi, lo, h, h1, h2, -, -, hc⟩
  · rw [h] at hch
    obtain rfl : c.toNat = ch := some.inj hch
    exact Char.toNat_inj
  · rw [h] at hch
    obtain rfl : hi = ch := some.inj hch
    refine ⟨fun he => by omega, ?_⟩
    rintro rfl
    omega

section Loop

variable {order : ByteOrder} {data : DispatchData} {all : List Char} {start skip stop : ℕ}

/-- The loop over a region of the text. -/
abbrev regionLoop (order : ByteOrder) (data : DispatchData) (all : List Char)
    (start skip stop : ℕ) : ℕ → ℕ → UtfState → Option UtfState :=
  fromUtf16Loop order data start (stop - start - skip) (howmany (stop - start - skip) 2)
    (regionSrc order all (start + skip) stop)

variable {fuel : ℕ} {b' : Buffer}

/-- One character of the loop. -/
theorem regionLoop_step {i' k' : ℕ}
    (hzero : start = 0 → skip = 0) (ht : t = start + skip + 2 * i) (hlt : t < stop)
    (hch : (utf16Units c)[0]? = some ch)
    (hunit : regionUnit order data all start skip stop i 0 = some (ch, k))
    (hread : readCodePoint order data start (howmany (stop - start - skip) 2)
      (regionSrc order all (start + skip) stop) ch i k = some (c.toNat, i', k')) :
    regionLoop order data all start skip stop (fuel + 1) i ⟨0, b⟩ =
      if c = swappedBom ∧ t = 0 then none
      else if c = bom ∧ t = 0 then regionLoop order data all start skip stop fuel (i + 1) ⟨k, b⟩
      else if sizeTMax < (howmany (stop - start - skip) 2 - i') * 2 then none
      else (emit b (String.utf8EncodeChar c) ((howmany (stop - start - skip) 2 - i') * 2)).bind
        fun b' => regionLoop order data all start skip stop fuel (i' + 1) ⟨k', b'⟩ := by
  have hi : i < howmany (stop - start - skip) 2 := by
    rw [howmany]
    omega
  have hfirst : start = 0 ∧ i = 0 ↔ t = 0 := by omega
  have hbom : ch = 0xfeff ↔ c = bom := firstUnit_eq_iff (d := bom) hch (by decide) (by decide)
  have hswapped : ch = 0xfffe ↔ c = swappedBom :=
    firstUnit_eq_iff (d := swappedBom) hch (by decide) (by decide)
  rw [regionLoop, fromUtf16Loop, if_pos hi]
  simp [hunit, hread, hfirst, hbom, hswapped, emitUtf8_eq]

theorem regionLoop_end (ht : t = start + skip + 2 * i) (hle : stop ≤ t)
    (st : UtfState) : regionLoop order data all start skip stop (fuel + 1) i st = some st := by
  rw [regionLoop, fromUtf16Loop, if_neg]
  rw [howmany]
  omega

theorem dropAt_of_ne (h : ¬ (c = bom ∧ t = 0)) (cs : List Char) : dropAt t (c :: cs) = c :: cs := by
  rw [dropAt_cons, if_neg h]

theorem drop_next (h : (utf16 order all).drop t = utf16 order (c :: cs)) :
    (utf16 order all).drop (t + len16 c) = utf16 order cs := by
  rw [← drop_drop, h, utf16_cons, ← length_utf16EncodeChar order, drop_left]

/-- **A region without a harmful cut.** The loop writes the characters that start in it. -/
theorem fromUtf16Loop_ok (hdata : data.bytes = utf16 order all) (hzero : start = 0 → skip = 0)
    (hcs : (utf16 order all).drop t = utf16 order cs)
    (hsize : stop ≤ t + size len16 cs) (ht : t = start + skip + 2 * i)
    (hroom : Room (howmany (stop - start - skip) 2) b i cs)
    (hswapped : t = 0 → cs.head? ≠ some swappedBom)
    (hcut : ∀ u d, cutAt len16 stop t cs = some (u, d) → CutOk order all stop skip u d)
    (hfuel : howmany (stop - start - skip) 2 - i < fuel) :
    ∃ b', regionLoop order data all start skip stop fuel i ⟨t - stop, b⟩ =
        some ⟨(restFrom len16 stop t cs).1 - stop, b'⟩ ∧
      b'.contents = b.contents ++ utf8 (dropAt t (startingBefore len16 stop t cs)) := by
  obtain ⟨fuel, rfl⟩ : ∃ f, fuel = f + 1 := ⟨fuel - 1, by omega⟩
  induction cs generalizing t i fuel b with
  | nil =>
    have hle : stop ≤ t := by simpa using hsize
    exact ⟨b, regionLoop_end ht hle _, by rw [startingBefore_of_le hle]; simp [dropAt_nil]⟩
  | cons c cs ih =>
    by_cases hlt : stop ≤ t
    · refine ⟨b, ?_, ?_⟩
      · rw [regionLoop_end ht hlt, restFrom_of_le hlt]
      · rw [startingBefore_of_le hlt, dropAt_nil, utf8_nil, append_nil]
    have hi : i < howmany (stop - start - skip) 2 := by
      rw [howmany]
      omega
    obtain ⟨fuel, rfl⟩ : ∃ f, fuel = f + 1 := ⟨fuel - 1, by omega⟩
    obtain ⟨ch, k, hch, hunit, rfl, hread⟩ :=
      readChar_ok hdata (by rw [hcs, utf16_cons]) ht (not_le.mp hlt)
        (fun h => hcut t c (by rw [cutAt, if_neg hlt, if_pos h]))
    have hlen : len16 c = 2 * (utf16Units c).length := rfl
    have hpos := (firstSize_cases c)
    rw [size_cons, ← add_assoc] at hsize
    have hcut' : ∀ u d, cutAt len16 stop (t + len16 c) cs = some (u, d) →
        CutOk order all stop skip u d := fun u d h => by
      by_cases hin : stop < t + len16 c
      · rw [cutAt_of_le hin.le] at h
        cases h
      · exact hcut u d (by rw [cutAt, if_neg hlt, if_neg hin, h])
    rw [Nat.sub_eq_zero_of_le (not_le.mp hlt).le,
      regionLoop_step hzero ht (not_le.mp hlt) hch hunit hread, restFrom, if_neg hlt,
      startingBefore, if_neg hlt, if_neg (fun h => hswapped h.2 (by rw [h.1]; rfl))]
    by_cases hbom : c = bom ∧ t = 0
    · have h2 : len16 c = 2 := by rw [hbom.1]; decide
      rw [if_pos hbom, dropAt_cons, if_pos hbom, ← h2]
      have hrest := ih (drop_next hcs) hsize
        (by omega) (hroom.skip hi) (by omega) hcut'
        fuel (by omega)
      rwa [dropAt_pos (by omega)] at hrest
    · obtain ⟨hnext, b', hb', hroom'⟩ := hroom.emit hi
      rw [if_neg hbom, if_neg (not_lt.mpr hnext), hb', show i + (utf16Units c).length - 1 + 1 = i + (utf16Units c).length by omega,
        dropAt_of_ne hbom]
      obtain ⟨b'', hloop, hcontents⟩ := ih (drop_next hcs) hsize (by omega) hroom' (by omega) hcut'
        fuel (by omega)
      refine ⟨b'', hloop, ?_⟩
      rw [hcontents, dropAt_pos (by omega), emit_contents String.utf8EncodeChar_ne_nil hb',
        utf8_cons, append_assoc]

/-! ### What is written stays -/

theorem bufferNew_contents {required size : ℕ}
    (h : bufferNew b required size = some b') : b'.contents = b.contents := by
  simp only [bufferNew] at h
  split_ifs at h
  · obtain rfl := some.inj h
    simp [Buffer.contents]
  · obtain rfl := some.inj h
    rfl

theorem write_contents {bytes : Bytes} (h : write b bytes = some b') :
    b'.contents = b.contents ++ bytes := by
  rw [write] at h
  split_ifs at h
  obtain rfl := some.inj h
  exact (append_assoc _ _ _).symm

theorem emitUtf8_grows {wch next : ℕ} (h : emitUtf8 b wch next = some b') :
    b.contents <+: b'.contents := by
  have hwrite : ∀ {required size : ℕ} {bytes : Bytes},
      (bufferNew b required size).bind (write · bytes) = some b' → b.contents <+: b'.contents := by
    intro required size bytes h
    obtain ⟨b₁, hnew, h⟩ := bind_eq_some_iff.mp h
    rw [write_contents h, bufferNew_contents hnew]
    exact prefix_append _ _
  rw [emitUtf8] at h
  split_ifs at h
  · exact hwrite h
  · exact hwrite h
  · exact hwrite h
  · exact hwrite h
  · obtain rfl := some.inj h
    exact prefix_rfl

theorem fromUtf16Loop_grows {offset size max : ℕ} {src : Bytes}
    (h : fromUtf16Loop order data offset size max src fuel i st = some st') :
    st.buffer.contents <+: st'.buffer.contents := by
  induction fuel generalizing i st with
  | zero => cases h
  | succ fuel ih =>
    rw [fromUtf16Loop] at h
    split_ifs at h with hi
    · obtain ⟨⟨ch, k⟩, -, h⟩ := bind_eq_some_iff.mp h
      simp only at h
      split_ifs at h with h1 h2
      · have hrest := ih h
        exact hrest
      · obtain ⟨⟨wch, i', k'⟩, -, h⟩ := bind_eq_some_iff.mp h
        split_ifs at h
        obtain ⟨b', hb', h⟩ := bind_eq_some_iff.mp h
        exact (emitUtf8_grows hb').trans (ih h)
    · obtain rfl := some.inj h
      exact prefix_rfl

/-- A character that is written in the place of another one is that character. -/
theorem eq_of_written {tail : Bytes} {x : Char}
    (h : out ++ String.utf8EncodeChar x <+: out ++ (String.utf8EncodeChar c ++ tail)) : x = c := by
  obtain ⟨y, hy⟩ := (prefix_append_right_inj out).mp h
  exact prefixCode_utf8.eq_of_append hy

section

variable (hdata : data.bytes = utf16 order all)
include hdata

/-- If the loop does not write anything wrong at a cut, the cut is harmless. -/
theorem cutOk_of_loop (hzero : start = 0 → skip = 0)
    (hcs : (utf16 order all).drop t = utf16 order (c :: cs)) (ht : t = start + skip + 2 * i)
    (hlt : t < stop) (hcut : stop < t + len16 c)
    (h : regionLoop order data all start skip stop fuel i ⟨0, b⟩ = some st')
    (hpre : st'.buffer.contents <+: b.contents ++ utf8 (dropAt t (c :: cs))) :
    CutOk order all stop skip t c := by
  cases fuel with
  | zero => cases h
  | succ fuel =>
  have hi : i < howmany (stop - start - skip) 2 := by
    rw [howmany]
    omega
  rw [regionLoop, fromUtf16Loop, if_pos hi] at h
  obtain ⟨⟨ch, k⟩, hunit, h⟩ := bind_eq_some_iff.mp h
  simp only at h
  -- in the first region the unit is the right one
  have hright : skip = 0 → (utf16Units c)[0]? = some ch := by
    rintro rfl
    obtain ⟨u, hu⟩ : ∃ u, (utf16Units c)[0]? = some u := by
      rcases len16_cases c with ⟨_, hc, -⟩ | ⟨_, _, hc, -⟩ <;> exact ⟨_, by rw [hc]; rfl⟩
    have hat : unitAt order (utf16 order all) t = some u := unitAt_text hcs hu
    have hunit' : regionUnit order data all start 0 stop i 0 = some (ch, k) := hunit
    rw [regionUnit_eq hdata ht hlt, Nat.sub_zero, hat] at hunit'
    rw [hu]
    split_ifs at hunit' <;> exact congrArg (Option.map Prod.fst) hunit'
  split_ifs at h with h1 h2
  · obtain ⟨rfl, hs, rfl⟩ := h2
    obtain rfl : c = bom :=
      (firstUnit_eq_iff (hright (hzero hs)) (by decide) (by decide)).mp rfl
    have h2 : len16 bom = 2 := by decide
    exact ⟨by omega, fun _ _ _ => by rw [hzero hs, Nat.sub_zero]⟩
  · obtain ⟨⟨wch, i', k'⟩, hread, h⟩ := bind_eq_some_iff.mp h
    split_ifs at h
    obtain ⟨b', hb', h⟩ := bind_eq_some_iff.mp h
    obtain ⟨x, hx, -⟩ := readCodePoint_some (regionUnit_lt hdata ht hlt hunit) hread
    rw [show wch = x.toNat from hx, emitUtf8_eq] at hb'
    have hbom : ¬ (c = bom ∧ t = 0) := by
      rintro ⟨hc, h0⟩
      have hunit' := hright (by omega)
      exact h2 ⟨(firstUnit_eq_iff hunit' (by decide) (by decide)).mpr hc,
        by omega, by omega⟩
    have hwritten := (fromUtf16Loop_grows h).trans hpre
    rw [show Buffer.contents _ = _ from emit_contents String.utf8EncodeChar_ne_nil hb',
      dropAt_of_ne hbom] at hwritten
    exact cutOk_of_read hdata hcs ht hlt hcut hunit hread (by rw [hx, eq_of_written hwritten])

/-- **If the loop writes nothing wrong, no cut is harmful.** -/
theorem fromUtf16Loop_inv (hzero : start = 0 → skip = 0)
    (hcs : (utf16 order all).drop t = utf16 order cs) (ht : t = start + skip + 2 * i)
    (h : regionLoop order data all start skip stop fuel i ⟨t - stop, b⟩ = some st')
    (hpre : st'.buffer.contents <+: b.contents ++ utf8 (dropAt t cs)) {d : Char}
    (hcut : cutAt len16 stop t cs = some (u, d)) : CutOk order all stop skip u d := by
  induction cs generalizing t i fuel b with
  | nil => cases hcut
  | cons c cs ih =>
    rw [cutAt] at hcut
    by_cases hlt : stop ≤ t
    · rw [if_pos hlt] at hcut
      cases hcut
    have ht0 : t - stop = 0 := by omega
    rw [ht0] at h
    split_ifs at hcut with hin
    · obtain ⟨rfl, rfl⟩ := Prod.mk.inj (some.inj hcut)
      exact cutOk_of_loop hdata hzero hcs ht (not_le.mp hlt) hin h hpre
    cases fuel with
    | zero => cases h
    | succ fuel =>
    obtain ⟨ch, k, hch, hunit, rfl, hread⟩ :=
      readChar_ok hdata (by rw [hcs, utf16_cons]) ht (not_le.mp hlt) (fun h => absurd h hin)
    rw [regionLoop_step hzero ht (not_le.mp hlt) hch hunit hread] at h
    have hlen : len16 c = 2 * (utf16Units c).length := rfl
    have hpos := firstSize_cases c
    split_ifs at h with h1 h2 h3
    · have hl2 : len16 c = 2 := by rw [h2.1]; decide
      rw [← hl2] at h
      rw [dropAt_cons, if_pos h2] at hpre
      exact ih (drop_next hcs) (by omega) h (by rwa [dropAt_pos (by omega)]) hcut
    · obtain ⟨b', hb', h⟩ := bind_eq_some_iff.mp h
      refine ih (drop_next hcs) (by omega) h ?_ hcut
      rwa [dropAt_pos (by omega), emit_contents String.utf8EncodeChar_ne_nil hb',
        append_assoc, ← utf8_cons, ← dropAt_of_ne h2]

/-- A later region whose first character is written has room for it. -/
theorem firstSize_of_loop (hstart : start ≠ 0)
    (hcs : (utf16 order all).drop (start + skip) = utf16 order (c :: cs))
    (hlt : start + skip < stop)
    (h : regionLoop order data all start skip stop fuel 0 ⟨0, .flushed out⟩ = some st') :
    firstSize c + 2 * howmany (stop - start - skip) 2 ≤ bufferMallocMax := by
  have hmax : bufferMallocMax = 104857600 := rfl
  have hc := firstSize_cases c
  have hlen : len16 c = 2 * (utf16Units c).length := rfl
  by_cases hin : stop < start + skip + len16 c
  · rw [howmany]
    omega
  by_contra hbig
  cases fuel with
  | zero => cases h
  | succ fuel =>
  have ht : start + skip = start + skip + 2 * 0 := rfl
  obtain ⟨ch, k, hch, hunit, rfl, hread⟩ :=
    readChar_ok hdata (by rw [hcs, utf16_cons]) ht hlt (fun h => absurd h hin)
  rw [regionLoop_step (fun h => absurd h hstart) ht hlt hch hunit hread, if_neg (by omega),
    if_neg (by omega)] at h
  split_ifs at h
  rw [emit_none] at h
  · cases h
  · exact len8_pos c
  · rw [← len8]
    omega

/-- A text that starts with U+FFFE is rejected. -/
theorem regionLoop_swapped
    (hcs : utf16 order all = utf16 order (swappedBom :: cs)) (hlt : 0 < stop) :
    regionLoop order data all 0 0 stop fuel 0 ⟨0, b⟩ = none := by
  cases fuel with
  | zero => rfl
  | succ fuel =>
    have h2 : len16 swappedBom = 2 := by decide
    have ht : 0 = 0 + 0 + 2 * 0 := rfl
    have hdrop : (utf16 order all).drop 0 = utf16EncodeChar order swappedBom ++ utf16 order cs := by
      rw [drop_zero, hcs, utf16_cons]
    obtain ⟨ch, k, hch, hunit, rfl, hread⟩ :=
      readChar_ok hdata hdrop ht hlt (fun h => ⟨by omega, fun _ _ _ => rfl⟩)
    rw [regionLoop_step (fun _ => rfl) ht hlt hch hunit hread, if_pos ⟨rfl, rfl⟩]

end

end Loop

/-! ## The regions -/

/-- A region does no harm: it has room for its first character, and its cut is harmless. -/
def FromOk (order : ByteOrder) (all : List Char) (v : Visit Char) : Prop :=
  (v.start ≠ 0 →
    firstSize v.first + 2 * howmany (v.stop - v.start - v.skip) 2 ≤ bufferMallocMax) ∧
  ∀ t c, v.cut = some (t, c) → CutOk order all v.stop v.skip t c

section Regions

variable {order : ByteOrder} {data : DispatchData} {all : List Char}

variable {r : Bytes} {start : ℕ}

/-- What a region does if its bytes are not all skipped. -/
theorem fromUtf16Region_eq {skip : ℕ} (out : Bytes) (hskip : skip < r.length)
    (hr : r.drop skip = regionSrc order all (start + skip) (start + r.length)) :
    fromUtf16Region order data start r ⟨skip, .flushed out⟩ =
      if start = 0 ∧ bufferMallocMax < howmany r.length 3 * 2 then none
      else (regionLoop order data all start skip (start + r.length)
        (howmany (start + r.length - start - skip) 2 + 1) 0
        ⟨0, if start = 0 then ⟨out, [], howmany r.length 3 * 2⟩ else .flushed out⟩).map
          fun st => ⟨st.skip, .flushed st.buffer.contents⟩ := by
  have hcount (size : ℕ) : (if size % 2 ≠ 0 then size / 2 + 1 else size / 2) = howmany size 2 := by
    rw [howmany]
    split_ifs <;> omega
  have hpos : 0 < howmany r.length 3 * 2 := by
    rw [howmany]
    omega
  have hsize : start + r.length - start - skip = r.length - skip := by omega
  by_cases h0 : start = 0
  · by_cases hbig : bufferMallocMax < howmany r.length 3 * 2
    · have hnew : bufferNew (.flushed out) (howmany r.length 3 * 2) 0 = none := by
        rw [bufferNew, if_pos (Or.inr (by simpa [Buffer.flushed] using hpos)), add_zero,
          if_pos hbig]
      rw [if_pos ⟨h0, hbig⟩, fromUtf16Region, if_pos h0, hnew]
      rfl
    · have hnew := bufferNew_flushed out (by omega : howmany r.length 3 * 2 + 0 ≤ _)
      rw [if_neg (fun h => hbig h.2), fromUtf16Region, if_pos h0, hnew, if_pos h0]
      simp only [bind_eq_bind, bind_some, if_neg (not_le.mpr hskip), hcount, hr,
        bufferNew_zero, map_eq_bind, Function.comp_def, add_zero, regionLoop, hsize]
  · rw [if_neg (fun h => h0 h.1), fromUtf16Region, if_neg h0, if_neg h0]
    simp only [bind_eq_bind, bind_some, if_neg (not_le.mpr hskip), hcount, hr,
      bufferNew_zero, map_eq_bind, Function.comp_def, regionLoop, hsize]

theorem regionSrc_eq (hr : (utf16 order all).drop start = r ++ rest) (hst : start ≤ t) :
    r.drop (t - start) = regionSrc order all (start + (t - start)) (start + r.length) := by
  rw [region_drop hr rfl hst, regionSrc, Nat.add_sub_of_le hst]

theorem length_region (hr : (utf16 order all).drop start = r ++ rest) (hne : r ≠ []) :
    start + r.length ≤ size len16 all := by
  have hlen := congrArg List.length hr
  have hpos := length_pos_iff.mpr hne
  rw [length_drop, length_utf16, length_append] at hlen
  omega

variable (hdata : data.bytes = utf16 order all)

include hdata in
/-- The block on a region that does no harm. -/
theorem fromUtf16Region_ok (out : Bytes) (hr : (utf16 order all).drop start = r ++ rest)
    (hcs : (utf16 order all).drop t = utf16 order cs) (ht : t + size len16 cs = size len16 all)
    (hst : start ≤ t) (hzero : start = 0 → t = 0) (hne : r ≠ [])
    (hfirst : start = 0 → howmany r.length 3 * 2 ≤ bufferMallocMax)
    (hswapped : t = 0 → cs.head? ≠ some swappedBom)
    (hok : ∀ c cs', cs = c :: cs' → t < start + r.length → FromOk order all
      ⟨start, start + r.length, t - start, c, cutAt len16 (start + r.length) t cs⟩) :
    fromUtf16Region order data start r ⟨t - start, .flushed out⟩ =
      some ⟨(restFrom len16 (start + r.length) t cs).1 - (start + r.length),
        .flushed (out ++ utf8 (dropAt t (startingBefore len16 (start + r.length) t cs)))⟩ := by
  have hpos := length_pos_iff.mpr hne
  have hlen := length_region hr hne
  by_cases hskip : r.length ≤ t - start
  · rw [restFrom_of_le (by omega), startingBefore_of_le (by omega), dropAt_nil, fromUtf16Region, if_neg (by omega)]
    simp [if_pos hskip, show t - start - r.length = t - (start + r.length) by omega]
  have hbuffer : ∃ b : Buffer, b.contents = out ∧
      b = (if start = 0 then ⟨out, [], howmany r.length 3 * 2⟩ else .flushed out) ∧
      Room (howmany (start + r.length - start - (t - start)) 2) b 0 cs := by
    by_cases h0 : start = 0
    · refine ⟨_, ?_, (if_pos h0).symm, Or.inr ⟨r.length, ?_, hfirst h0, rfl, le_rfl⟩⟩
      · simp [Buffer.contents]
      · rw [howmany]
        omega
    · refine ⟨_, ?_, (if_neg h0).symm, Or.inl fun c cs' hc => ?_⟩
      · simp [Buffer.contents, Buffer.flushed]
      · exact (hok c cs' hc (by omega)).1 h0
  obtain ⟨b, hcontents, hb, hroom⟩ := hbuffer
  have hcut : ∀ u d, cutAt len16 (start + r.length) t cs = some (u, d) →
      CutOk order all (start + r.length) (t - start) u d := fun u d hud => by
    obtain ⟨c, cs', rfl⟩ : ∃ c cs', cs = c :: cs' := by
      cases cs with
      | nil => cases hud
      | cons c cs => exact ⟨c, cs, rfl⟩
    exact (hok c cs' rfl (by omega)).2 u d hud
  obtain ⟨b', hloop, hb'⟩ := fromUtf16Loop_ok hdata (by omega) hcs
    (by omega) (by omega) hroom hswapped hcut
    (Nat.lt_succ_self (howmany (start + r.length - start - (t - start)) 2))
  have h0 : t - (start + r.length) = 0 := by omega
  rw [h0] at hloop
  rw [fromUtf16Region_eq out (not_le.mp hskip) (regionSrc_eq hr hst), if_neg, ← hb, hloop,
    map_some, hb', hcontents]
  rintro ⟨h0, hbig⟩
  exact absurd (hfirst h0) (not_le.mpr hbig)

include hdata in
/-- If the block writes nothing wrong, the region does no harm. -/
theorem fromUtf16Region_inv (hr : (utf16 order all).drop start = r ++ rest)
    (hcs : (utf16 order all).drop t = utf16 order (c :: cs)) (hst : start ≤ t)
    (hzero : start = 0 → t = 0) (hlt : t < start + r.length)
    (h : fromUtf16Region order data start r ⟨t - start, .flushed out⟩ = some st)
    (hpre : st.buffer.data <+: out ++ utf8 (dropAt t (c :: cs))) :
    FromOk order all ⟨start, start + r.length, t - start, c,
      cutAt len16 (start + r.length) t (c :: cs)⟩ := by
  rw [fromUtf16Region_eq out (by omega) (regionSrc_eq hr hst)] at h
  by_cases hbig : start = 0 ∧ bufferMallocMax < howmany r.length 3 * 2
  · rw [if_pos hbig] at h
    cases h
  rw [if_neg hbig] at h
  obtain ⟨st', hst', rfl⟩ := map_eq_some_iff.mp h
  have hzero' : start = 0 → t - start = 0 := by omega
  have ht0 : t - (start + r.length) = 0 := by omega
  have hfirst : start + (t - start) = t := by omega
  refine ⟨fun h0 => ?_, fun u d hud => ?_⟩
  · rw [if_neg h0] at hst'
    exact firstSize_of_loop hdata h0 (by rw [hfirst, hcs])
      (show start + (t - start) < start + r.length by omega) hst'
  · generalize hb : (if start = 0 then (⟨out, [], howmany r.length 3 * 2⟩ : Buffer)
      else .flushed out) = b at hst'
    have hcontents : b.contents = out := by
      rw [← hb]
      split_ifs <;> simp [Buffer.contents, Buffer.flushed]
    refine fromUtf16Loop_inv (i := 0) hdata hzero' hcs (by omega) (by rw [ht0]; exact hst')
      ?_ hud
    rw [hcontents]
    exact hpre

include hdata in
/-- What the first region is rejected for. -/
theorem fromUtf16Region_first (hr : (utf16 order all).drop 0 = r ++ rest) (hne : r ≠ [])
    (h : fromUtf16Region order data 0 r ⟨0, .flushed out⟩ = some st) :
    howmany r.length 3 * 2 ≤ bufferMallocMax ∧ all.head? ≠ some swappedBom := by
  have hpos := length_pos_iff.mpr hne
  rw [fromUtf16Region_eq out hpos (regionSrc_eq hr le_rfl)] at h
  by_cases hbig : 0 = 0 ∧ bufferMallocMax < howmany r.length 3 * 2
  · rw [if_pos hbig] at h
    cases h
  · rw [if_neg hbig] at h
    refine ⟨not_lt.mp fun hb => hbig ⟨rfl, hb⟩, fun hhead => ?_⟩
    obtain ⟨cs, hcs⟩ := head?_eq_some_iff.mp hhead
    rw [regionLoop_swapped hdata (by rw [hcs]) (by omega)] at h
    cases h

theorem fromUtf16Region_grows (hstart : start ≠ 0)
    (h : fromUtf16Region order data start r st = some st') :
    st.buffer.data <+: st'.buffer.data := by
  rw [fromUtf16Region, if_neg hstart] at h
  simp only [bind_eq_bind, bind_some] at h
  by_cases hskip : r.length ≤ st.skip
  · rw [if_pos hskip, some.injEq] at h
    rw [← h]
  · rw [if_neg hskip] at h
    obtain ⟨st₁, hloop, h⟩ := bind_eq_some_iff.mp h
    have hcontents := fromUtf16Loop_grows hloop
    rw [← some.inj h]
    exact (prefix_append _ _).trans hcontents

variable {rs : List Bytes}

theorem applyRegions_grows (hstart : start ≠ 0)
    (h : applyRegions (fromUtf16Region order data) start rs st = some st') :
    st.buffer.data <+: st'.buffer.data := by
  induction rs generalizing start st with
  | nil =>
    rw [applyRegions, some.injEq] at h
    rw [h]
  | cons r rs ih =>
    obtain ⟨st₁, hr, h⟩ := bind_eq_some_iff.mp h
    exact (fromUtf16Region_grows hstart hr).trans (ih (by omega) h)

include hdata in
/-- The regions from one on; what the first one is rejected for is said if it is among them. -/
theorem applyRegions_fromUtf16_iff
    (out : Bytes) (hne : ∀ r ∈ rs, r ≠ []) (hrs : (utf16 order all).drop start = rs.flatten)
    (hcs : (utf16 order all).drop t = utf16 order cs)
    (ht : t + size len16 cs = size len16 all) (hst : start ≤ t)
    (hzero : start = 0 → t = 0 ∧ cs = all) :
    (applyRegions (fromUtf16Region order data) start rs ⟨t - start, .flushed out⟩).map
        (·.buffer.data) = some (out ++ utf8 (dropAt t cs)) ↔
      (start = 0 → (∀ r ∈ rs.head?, howmany r.length 3 * 2 ≤ bufferMallocMax) ∧
        all.head? ≠ some swappedBom) ∧
      ∀ v ∈ visits len16 start (rs.map List.length) t cs, FromOk order all v := by
  induction rs generalizing start t cs out with
  | nil =>
    have hlen := congrArg List.length hrs
    rw [length_drop, length_utf16, flatten_nil, length_nil] at hlen
    have hpos (c : Char) : 0 < len16 c := by
      have := firstSize_cases c
      rw [len16]
      omega
    obtain rfl : cs = [] := eq_nil_of_size hpos (by omega)
    have hall : start = 0 → all.head? ≠ some swappedBom := fun h0 => by
      rw [← (hzero h0).2]
      exact (some_ne_none _).symm
    simpa [applyRegions, visits, Buffer.flushed, dropAt_nil] using hall
  | cons r rs ih =>
    have hr : r ≠ [] := hne r (by simp)
    have hpos := length_pos_iff.mpr hr
    rw [flatten_cons] at hrs
    have hlen := length_region hrs hr
    have hstop : start + r.length ≤ (restFrom len16 (start + r.length) t cs).1 :=
      le_restFrom (by omega)
    have hdrop : (utf16 order all).drop (start + r.length) = rs.flatten := by
      rw [← drop_drop, hrs, drop_left]
    have hrest := ih (out ++ utf8 (dropAt t (startingBefore len16 (start + r.length) t cs)))
      (fun r' hr' => hne r' (by simp [hr'])) hdrop
      (drop_restFrom (length_utf16EncodeChar order) _ hcs) (by rw [restFrom_size, ht]) hstop (by omega)
    rw [dropAt_pos (Nat.ne_of_gt (hstop.trans_lt' (by omega))), append_assoc,
      ← utf8_append, dropAt_split _ (by omega), and_iff_right (by omega)] at hrest
    have hregion := fun hfirst => fromUtf16Region_ok hdata out hrs hcs ht hst
      (fun h0 => (hzero h0).1) hr hfirst
    rw [map_cons, forall_visits_cons, ← hrest, applyRegions]
    constructor
    · intro hall
      obtain ⟨st', hbind, hst'⟩ := map_eq_some_iff.mp hall
      obtain ⟨st₁, h₁, h⟩ := bind_eq_some_iff.mp hbind
      have hok : ∀ c cs', cs = c :: cs' → t < start + r.length → FromOk order all
          ⟨start, start + r.length, t - start, c, cutAt len16 (start + r.length) t cs⟩ := by
        rintro c cs' rfl hlt
        have hpre := applyRegions_grows (by omega) h
        rw [hst'] at hpre
        exact fromUtf16Region_inv hdata hrs hcs hst (fun h0 => (hzero h0).1) hlt h₁ hpre
      have hfirst : start = 0 → howmany r.length 3 * 2 ≤ bufferMallocMax ∧
          all.head? ≠ some swappedBom := by
        rintro rfl
        rw [(hzero rfl).1] at h₁
        exact fromUtf16Region_first hdata hrs hr h₁
      refine ⟨fun h0 => ⟨by simpa using (hfirst h0).1, (hfirst h0).2⟩, hok, ?_⟩
      rw [hregion (fun h0 => (hfirst h0).1) ?_ hok, some.injEq] at h₁
      · rw [h₁, h, map_some, hst']
      · intro h0
        rw [(hzero (by omega)).2]
        exact (hfirst (by omega)).2
    · rintro ⟨hfirst, hok, h⟩
      rw [hregion (fun h0 => (hfirst h0).1 r rfl) ?_ hok, bind_some, h]
      intro h0
      rw [(hzero (by omega)).2]
      exact (hfirst (by omega)).2

include hdata in
/-- **From UTF-16.** The transform gives the text, without a leading byte order mark, exactly if the
first buffer is not too large, the text does not start with U+FFFE, and no region does harm. -/
theorem transformFromUtf16_iff : transformFromUtf16 order data = some (utf8 (dropBom all)) ↔
      (∀ r ∈ data.regions.head?, howmany r.length 3 * 2 ≤ bufferMallocMax) ∧
      all.head? ≠ some swappedBom ∧
      ∀ v ∈ visits len16 0 (data.regions.map List.length) 0 all, FromOk order all v := by
  have hflat : (utf16 order all).drop 0 = data.regions.flatten := hdata.symm
  have h := applyRegions_fromUtf16_iff hdata [] data.regions_ne_nil hflat drop_zero
    (zero_add _) le_rfl (fun _ => ⟨rfl, rfl⟩)
  rw [forall_prop_of_true rfl, and_assoc] at h
  exact h

end Regions

end Apple.Dispatch.Utf
