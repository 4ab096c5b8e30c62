import Apple.Dispatch.BaseDecode

/-!
# Decoding base 32 and base 64 text in several regions

The decoders trim the bytes of every region by an amount that depends on the pad
characters seen so far (`transform.c`, lines 627–643 and 868–872), not on those of the
region. `trims` lists these amounts.

Results:
* `decodeRegions_spec`: what the decoder makes of a list of regions.
* `fromBase_fragments_iff`: a valid text in several regions decodes as in one region
  exactly if nothing is trimmed from a region before the last.
* `fromBase_bounded_iff`: when the trimming underflows.
-/

namespace Apple.Dispatch

open List
open Option hiding or_assoc

/-! ## Valid text -/

/-- The characters that the decoders skip: `'\n'`, `'\t'` and `' '`. -/
def isBlank (b : UInt8) : Bool := b = 0x0a || b = 0x09 || b = 0x20

/-- The number of characters that are not skipped. -/
def symCount (text : Bytes) : ℕ := text.countP fun b => !isBlank b

/-- The number of pad characters. -/
def padCount (text : Bytes) : ℕ := text.count padChar

/-- Between and after blanks, characters of the alphabet and then pad characters, as many as
one of `pads`, in full groups of `chars`. -/
structure ValidText (alphabet : Bytes) (chars : ℕ) (pads : List ℕ) (text : Bytes) : Prop where
  symbols : ∃ digits, text.filter (fun b => !isBlank b) =
    digits ++ List.replicate (padCount text) padChar ∧ ∀ b ∈ digits, b ∈ alphabet
  full : symCount text % chars = 0
  pads : padCount text ∈ pads

/-- Base 64 text (RFC 4648, section 4). -/
def ValidBase64 (text : Bytes) : Prop := ValidText base64EncodeTable 4 [0, 1, 2] text

/-- Base 32 text (RFC 4648, section 6). -/
def ValidBase32 (text : Bytes) : Prop := ValidText base32EncodeTable 8 [0, 1, 3, 4, 6] text

/-- A character of a text. -/
def IsSym (alphabet : Bytes) (b : UInt8) : Prop := isBlank b = true ∨ b ∈ alphabet ∨ b = padChar

theorem ValidText.isSym {alphabet text : Bytes} {chars : ℕ} {pads : List ℕ}
    (h : ValidText alphabet chars pads text) : ∀ b ∈ text, IsSym alphabet b := by
  intro b hb
  by_cases hblank : isBlank b = true
  · exact .inl hblank
  · obtain ⟨digits, heq, hdigits⟩ := h.symbols
    have hmem : b ∈ text.filter fun b => !isBlank b := by
      simp [hb, hblank]
    rw [heq, mem_append, mem_replicate] at hmem
    rcases hmem with hmem | ⟨-, hpad⟩
    · exact .inr (.inl (hdigits b hmem))
    · exact .inr (.inr hpad)

theorem symCount_append (p q : Bytes) : symCount (p ++ q) = symCount p + symCount q :=
  countP_append

theorem padCount_append (p q : Bytes) : padCount (p ++ q) = padCount p + padCount q :=
  count_append

theorem padCount_le_symCount (text : Bytes) : padCount text ≤ symCount text := by
  apply countP_mono_left
  intro b _ hb
  rw [beq_iff_eq.mp hb]
  decide

/-! ## One region -/

/-- What the decoders have in common: full groups are whole bytes, and at most one group is
trimmed. -/
structure Decodes (d : BaseDecoder) (alphabet : Bytes) (pads : List ℕ) : Prop
    extends Inverts d alphabet where
  chars_pow : ∃ k, d.chars = 2 ^ k
  complete : ∀ b ∈ alphabet, ∃ v < 2 ^ d.bits, tableAt alphabet v = b
  out_length : ∀ x, (d.out x).length = d.group
  group_le : d.group ≤ d.chars
  group_lt : d.group < 2 ^ 64
  trim_zero : d.trim 0 = 0
  trim_le : ∀ p ∈ pads, ∀ q ≤ p, d.trim q ≤ d.group

theorem decodes_base64 : Decodes base64Decoder base64EncodeTable [0, 1, 2] where
  toInverts := inverts_base64
  chars_pow := ⟨2, rfl⟩
  complete := by decide +kernel
  out_length _ := rfl
  group_le := by decide
  group_lt := by decide
  trim_zero := rfl
  trim_le := by decide

theorem decodes_base32 : Decodes (base32Decoder base32DecodeTable base32DecodeTable.length)
    base32EncodeTable [0, 1, 3, 4, 6] where
  toInverts := inverts_base32
  chars_pow := ⟨3, rfl⟩
  complete := by decide +kernel
  out_length _ := rfl
  group_le := by decide
  group_lt := by decide
  trim_zero := rfl
  trim_le := by decide

section Regions

variable {d : BaseDecoder} {alphabet : Bytes} {pads : List ℕ}

/-- The number of bytes written for `n` characters. -/
def BaseDecoder.written (d : BaseDecoder) (n : ℕ) : ℕ := d.group * (n / d.chars)

variable (h : Decodes d alphabet pads)

include h in
/-- **One character**: `count` and `pad` go up, and a full group writes its bytes behind what is
there. -/
theorem decodeByte_isSym {b : UInt8} (hb : IsSym alphabet b)
    (x count pad : ℕ) : ∃ x' out, (∀ dest, decodeByte d b ⟨x, count, pad, dest⟩ =
        some ⟨x', count + symCount [b], pad + padCount [b], dest ++ out⟩) ∧
      d.written count + out.length = d.written (count + symCount [b]) := by
  obtain ⟨k, hk⟩ := h.chars_pow
  by_cases hblank : isBlank b = true
  · have hpad : padCount [b] = 0 := by
      have := padCount_le_symCount [b]
      simp only [symCount, countP_singleton, hblank] at this
      simpa using this
    refine ⟨x, [], fun dest => ?_, ?_⟩
    · have hcond : b = 0x0a ∨ b = 0x09 ∨ b = 0x20 := by simpa [isBlank, or_assoc] using hblank
      simp [decodeByte, hcond, symCount, hblank, hpad]
    · simp [symCount, hblank]
  · have hsym : symCount [b] = 1 := by simp [symCount, hblank]
    obtain ⟨s, hs, rfl⟩ : ∃ s : Option ℕ, (∀ v ∈ s, v < 2 ^ d.bits) ∧ symChar alphabet s = b := by
      rcases hb with hb | hb | rfl
      · exact absurd hb hblank
      · obtain ⟨v, hv, rfl⟩ := h.complete b hb
        exact ⟨some v, by simpa using hv, rfl⟩
      · exact ⟨none, by simp, rfl⟩
    have hpad : padCount [symChar alphabet s] = if s = none then 1 else 0 := by
      cases s with
      | none => simp [padCount, symChar]
      | some v =>
        have hne : tableAt alphabet v ≠ padChar := by
          intro heq
          have hval := h.value v (hs v rfl)
          rw [heq, h.pad_value] at hval
          omega
        simp [padCount, symChar, hne]
    by_cases hfull : (count + 1) % d.chars = 0
    · refine ⟨shiftIn d.bits x s, d.out (shiftIn d.bits x s), fun dest => ?_, ?_⟩
      · rw [decodeByte_sym h.toInverts hk s hs, if_pos hfull, hpad, hsym]
        cases s <;> simp
      · rw [hsym, h.out_length, BaseDecoder.written, BaseDecoder.written,
          Nat.succ_div_of_dvd (Nat.dvd_of_mod_eq_zero hfull), Nat.mul_succ]
    · refine ⟨shiftIn d.bits x s, [], fun dest => ?_, ?_⟩
      · rw [decodeByte_sym h.toInverts hk s hs, if_neg hfull, hpad, hsym]
        cases s <;> simp
      · rw [hsym, length_nil, BaseDecoder.written, BaseDecoder.written,
          Nat.succ_div_of_not_dvd fun hdvd => hfull (Nat.mod_eq_zero_of_dvd hdvd), add_zero]

include h in
/-- **The loop over a region** writes the bytes of the groups that end in it. -/
theorem decodeBytes_isSym (text : Bytes) (x count pad : ℕ) (hsym : ∀ b ∈ text, IsSym alphabet b) :
    ∃ x' out, (∀ dest, decodeBytes d text ⟨x, count, pad, dest⟩ =
        some ⟨x', count + symCount text, pad + padCount text, dest ++ out⟩) ∧
      d.written count + out.length = d.written (count + symCount text) := by
  induction text generalizing x count pad with
  | nil => exact ⟨x, [], by simp [decodeBytes, symCount, padCount], by simp [symCount]⟩
  | cons b text ih =>
    obtain ⟨x₁, out₁, hbyte, hlen₁⟩ := decodeByte_isSym h (hsym b (by simp)) x count pad
    obtain ⟨x₂, out₂, hrest, hlen₂⟩ := ih x₁ (count + symCount [b]) (pad + padCount [b])
      fun b' hb' => hsym b' (by simp [hb'])
    have hs : symCount (b :: text) = symCount [b] + symCount text := symCount_append [b] text
    have hp : padCount (b :: text) = padCount [b] + padCount text := padCount_append [b] text
    refine ⟨x₂, out₁ ++ out₂, fun dest => ?_, ?_⟩
    · rw [decodeBytes, hbyte, bind_some, hrest, hs, hp, append_assoc, add_assoc,
        add_assoc]
    · rw [hs, length_append, ← add_assoc, ← add_assoc, hlen₁]
      exact hlen₂

/-! ## All regions -/

variable (d) in
/-- How much of each region is trimmed; `pad` counts the pad characters before. -/
def trims : ℕ → List Bytes → List ℕ
  | _, [] => []
  | pad, r :: rest => d.trim (pad + padCount r) :: trims (pad + padCount r) rest

/-- The region has `final` less than what was written by `t`, as a `size_t`. -/
def TrimmedBy (r : DecodedRegion) (t : ℕ) : Prop :=
  r.final = (r.dest.length + 2 ^ 64 - t) % 2 ^ 64

theorem TrimmedBy.contents?_eq {r : DecodedRegion} {t : ℕ} (h : TrimmedBy r t)
    (hlen : r.dest.length < 2 ^ 64) (ht : t < 2 ^ 64) :
    r.contents? = if t ≤ r.dest.length then some (r.dest.take (r.dest.length - t)) else none := by
  unfold TrimmedBy at h
  unfold DecodedRegion.contents?
  by_cases hle : t ≤ r.dest.length
  · have hfinal : r.final = r.dest.length - t := by omega
    rw [if_pos hle, hfinal, if_pos (Nat.sub_le _ _)]
  · rw [if_neg hle, if_neg (by omega)]

include h in
/-- What the block makes of the regions `rest`, and what one region with all their bytes
would give. -/
theorem decodeRegions_spec (rest : List Bytes) (offset : ℕ)
    (st : DecodeState) (rv : List DecodedRegion) (hsym : ∀ b ∈ rest.flatten, IsSym alphabet b) :
    ∃ st' L, applyRegions (decodeRegion d) offset rest (st, rv) = some (st', rv ++ L) ∧
      st'.count = st.count + symCount rest.flatten ∧ st'.pad = st.pad + padCount rest.flatten ∧
      List.Forall₂ TrimmedBy L (trims d st.pad rest) ∧
      d.written st.count + (L.map DecodedRegion.dest).flatten.length =
        d.written (st.count + symCount rest.flatten) ∧
      ∀ dest, decodeBytes d rest.flatten { st with dest := dest } =
        some { st' with dest := dest ++ (L.map DecodedRegion.dest).flatten } := by
  induction rest generalizing offset st rv with
  | nil =>
    refine ⟨st, [], by simp [applyRegions], by simp [symCount], by simp [padCount],
      List.Forall₂.nil, by simp [symCount], by simp [decodeBytes]⟩
  | cons r rest ih =>
    obtain ⟨x, out, hbytes, hlen⟩ := decodeBytes_isSym h r st.x st.count st.pad
      fun b hb => hsym b (mem_append_left _ hb)
    -- the state in which the region ends
    obtain ⟨st', L, hrun, hcount, hpad, htrims, hlen', hall⟩ :=
      ih (offset + r.length) ⟨x, st.count + symCount r, st.pad + padCount r, out⟩
        (rv ++ [⟨out, howmany r.length d.chars * d.group,
          (out.length + 2 ^ 64 - d.trim (st.pad + padCount r)) % 2 ^ 64⟩])
        fun b hb => hsym b (mem_append_right _ hb)
    refine ⟨st', ⟨out, howmany r.length d.chars * d.group,
        (out.length + 2 ^ 64 - d.trim (st.pad + padCount r)) % 2 ^ 64⟩ :: L, ?_, ?_, ?_, ?_, ?_,
      fun dest => ?_⟩
    · rw [applyRegions, decodeRegion, hbytes []]
      simpa using hrun
    · rw [hcount, flatten_cons, symCount_append, add_assoc]
    · rw [hpad, flatten_cons, padCount_append, add_assoc]
    · exact List.Forall₂.cons rfl htrims
    · rw [flatten_cons, symCount_append, map_cons, flatten_cons, length_append,
        ← add_assoc, ← add_assoc, hlen]
      exact hlen'
    · rw [flatten_cons, decodeBytes_append, hbytes dest, bind_some, hall]
      simp

theorem decodedBytes_cons (r : DecodedRegion) (L : List DecodedRegion) :
    decodedBytes (r :: L) = r.contents?.bind fun c => (decodedBytes L).map (c ++ ·) := by
  unfold decodedBytes
  rw [mapM_cons]
  rcases r.contents? with _ | c
  · rfl
  · rcases L.mapM DecodedRegion.contents? with _ | cs <;> rfl

variable {L : List DecodedRegion} {ts : List ℕ} {r : Bytes}

/-- The bytes that are there and the bytes that are trimmed are the bytes written. -/
theorem decodedBytes_length
    (h : List.Forall₂ TrimmedBy L ts) (hlen : ∀ r ∈ L, r.dest.length < 2 ^ 64)
    (ht : ∀ t ∈ ts, t < 2 ^ 64) {b : Bytes} (hb : decodedBytes L = some b) :
    b.length + ts.sum = (L.map DecodedRegion.dest).flatten.length := by
  induction h generalizing b with
  | nil =>
    cases hb
    rfl
  | @cons r t L ts hr _ ih =>
    rw [decodedBytes_cons, hr.contents?_eq (hlen r (by simp)) (ht t (by simp))] at hb
    split_ifs at hb with hle
    · rw [bind_some, map_eq_some_iff] at hb
      obtain ⟨c, hc, rfl⟩ := hb
      have := ih (fun r' hr' => hlen r' (by simp [hr'])) (fun t' ht' => ht t' (by simp [ht'])) hc
      rw [map_cons, flatten_cons, length_append, length_append, sum_cons,
        length_take]
      omega
    · cases hb

/-- If only the last region is trimmed, the bytes are those written, trimmed at the end. -/
theorem decodedBytes_last {r : DecodedRegion} {t : ℕ}
    (h : List.Forall₂ TrimmedBy L ts) (hlen : ∀ r ∈ L, r.dest.length < 2 ^ 64)
    (hts : ∀ t ∈ ts, t = 0) (hr : TrimmedBy r t) (hrlen : r.dest.length < 2 ^ 64)
    (ht : t < 2 ^ 64) (hle : t ≤ r.dest.length) :
    decodedBytes (L ++ [r]) = some (((L ++ [r]).map DecodedRegion.dest).flatten.take
      (((L ++ [r]).map DecodedRegion.dest).flatten.length - t)) := by
  induction h with
  | nil =>
    rw [nil_append, decodedBytes_cons, hr.contents?_eq hrlen ht, if_pos hle]
    simp [decodedBytes]
  | @cons r' t' L ts hr' _ ih =>
    have hzero : t' = 0 := hts t' (by simp)
    subst hzero
    rw [cons_append, decodedBytes_cons,
      hr'.contents?_eq (hlen r' (by simp)) (by norm_num), if_pos zero_le, bind_some,
      ih (fun r hr => hlen r (by simp [hr])) fun t ht => hts t (by simp [ht])]
    have hrest : t ≤ ((L ++ [r]).map DecodedRegion.dest).flatten.length := by
      simp
      omega
    rw [map_some, Nat.sub_zero, take_length, map_cons, flatten_cons,
      take_append, length_append]
    congr 2
    · rw [take_of_length_le]
      omega
    · congr 1
      omega

theorem mem_trims {t pad : ℕ} {rest : List Bytes} : t ∈ trims d pad rest ↔
      ∃ p q, rest = p ++ q ∧ p ≠ [] ∧ t = d.trim (pad + padCount p.flatten) := by
  induction rest generalizing pad with
  | nil => simp [trims]
  | cons r rest ih =>
    rw [trims, mem_cons, ih]
    constructor
    · rintro (rfl | ⟨p, q, rfl, hp, rfl⟩)
      · exact ⟨[r], rest, rfl, by simp, by simp⟩
      · exact ⟨r :: p, q, rfl, by simp, by rw [flatten_cons, padCount_append, add_assoc]⟩
    · rintro ⟨p, q, hpq, hp, rfl⟩
      obtain ⟨r', p, rfl⟩ := exists_cons_of_ne_nil hp
      obtain ⟨rfl, rfl⟩ := hpq
      rcases eq_nil_or_concat p with rfl | hp'
      · exact .inl (by simp)
      · refine .inr ⟨p, q, rfl, ?_, by rw [flatten_cons, padCount_append, add_assoc]⟩
        rintro rfl
        obtain ⟨_, _, hnil⟩ := hp'
        simp at hnil

theorem applyRegions_append {σ : Type} (f : ℕ → Bytes → σ → Option σ) (p q : List Bytes) :
    ∀ offset st, applyRegions f offset (p ++ q) st =
      (applyRegions f offset p st).bind (applyRegions f (offset + p.flatten.length) q) := by
  induction p with
  | nil => simp [applyRegions]
  | cons r p ih =>
    intro offset st
    rw [cons_append, applyRegions, applyRegions, bind_assoc]
    congr 1
    funext st'
    rw [ih, flatten_cons, length_append, add_assoc]

include h in
/-- The last region has the bytes to trim, if nothing is to be trimmed before it: it ends the
last group. -/
theorem trim_add_written_le {text i : Bytes}
    (hvalid : ValidText alphabet d.chars pads text) (htext : text = i ++ r)
    (hi : d.trim (padCount i) = 0) :
    d.written (symCount i) + d.trim (padCount text) ≤ d.written (symCount text) := by
  have hadd : padCount text = padCount i + padCount r := by rw [htext, padCount_append]
  have hsym : symCount text = symCount i + symCount r := by rw [htext, symCount_append]
  by_cases hzero : d.trim (padCount text) = 0
  · have : symCount i / d.chars ≤ symCount text / d.chars := Nat.div_le_div_right (by omega)
    rw [hzero]
    exact Nat.mul_le_mul_left _ this
  have hpad : padCount r ≠ 0 := by
    intro hr
    rw [hadd, hr] at hzero
    exact hzero hi
  have hr := padCount_le_symCount r
  have hlt : symCount i / d.chars < symCount text / d.chars := by
    apply Nat.div_lt_of_lt_mul
    rw [Nat.mul_div_cancel' (Nat.dvd_of_mod_eq_zero hvalid.full)]
    omega
  calc d.written (symCount i) + d.trim (padCount text)
      ≤ d.group * (symCount i / d.chars) + d.group :=
        Nat.add_le_add_left (h.trim_le _ hvalid.pads _ le_rfl) _
    _ = d.group * (symCount i / d.chars + 1) := (Nat.mul_succ ..).symm
    _ ≤ d.written (symCount text) := Nat.mul_le_mul_left _ hlt

include h in
theorem written_le (text : Bytes) : d.written (symCount text) ≤ text.length :=
  calc d.group * (symCount text / d.chars)
      ≤ d.chars * (symCount text / d.chars) := Nat.mul_le_mul_right _ h.group_le
    _ ≤ symCount text := Nat.mul_div_le _ _
    _ ≤ text.length := countP_le_length

variable (d) in
/-- The bytes written for a text, without trimming. -/
def decodeDest (text : Bytes) : Bytes :=
  ((decodeBytes d text ⟨0, 0, 0, []⟩).map DecodeState.dest).getD []

include h in
/-- The decoder on regions of which `r` is the last. -/
theorem transformFromBase_concat {data : DispatchData}
    {init : List Bytes} (hregions : data.regions = init ++ [r])
    (hsym : ∀ b ∈ data.bytes, IsSym alphabet b) :
    ∃ L y, transformFromBase d data = some (L ++ [y]) ∧
      List.Forall₂ TrimmedBy L (trims d 0 init) ∧ TrimmedBy y (d.trim (padCount data.bytes)) ∧
      ((L ++ [y]).map DecodedRegion.dest).flatten = decodeDest d data.bytes ∧
      d.written (symCount init.flatten) + y.dest.length = d.written (symCount data.bytes) ∧
      (decodeDest d data.bytes).length = d.written (symCount data.bytes) := by
  have hbytes : data.bytes = init.flatten ++ r := by
    rw [DispatchData.bytes, hregions]
    simp
  rw [hbytes] at hsym ⊢
  obtain ⟨st, L, hrun, hcount, hpad, htrims, hlen, hall⟩ :=
    decodeRegions_spec h init 0 ⟨0, 0, 0, []⟩ [] fun b hb => hsym b (mem_append_left _ hb)
  obtain ⟨st', L', hrun', hcount', hpad', htrims', hlen', hall'⟩ :=
    decodeRegions_spec h [r] (0 + init.flatten.length) st L
      fun b hb => hsym b (mem_append_right _ (by simpa using hb))
  simp only [flatten_cons, flatten_nil, append_nil, zero_add,
    nil_append] at *
  obtain ⟨y, L'', hy, hnil, rfl⟩ := forall₂_cons_right_iff.mp htrims'
  cases forall₂_nil_right_iff.mp hnil
  have hdest : decodeDest d (init.flatten ++ r) =
      (L.map DecodedRegion.dest).flatten ++ y.dest := by
    rw [decodeDest, decodeBytes_append, hall [], bind_some, hall']
    simp
  have hzero : d.written 0 = 0 := by simp [BaseDecoder.written]
  rw [hzero, zero_add] at hlen
  rw [map_singleton, flatten_singleton, hcount] at hlen'
  refine ⟨L, y, ?_, htrims, ?_, ?_, ?_, ?_⟩
  · rw [transformFromBase, dispatchDataApply, hregions, applyRegions_append, hrun,
      bind_some, zero_add, hrun', map_some]
  · rw [padCount_append, ← hpad]
    exact hy
  · rw [hdest, map_append, flatten_append, map_singleton, flatten_singleton]
  · rw [symCount_append]
    exact hlen'
  · rw [hdest, length_append, hlen, symCount_append]
    exact hlen'

include h in
/-- **Regions.** A valid text in one region decodes to some bytes; in several regions it decodes
to the same bytes exactly if nothing is trimmed before the last region. -/
theorem transformFromBase_iff (data : DispatchData)
    (hvalid : ValidText alphabet d.chars pads data.bytes) (hsize : data.getSize < 2 ^ 64) :
    ∃ b, (transformFromBase d (DispatchData.contiguous data.bytes)).bind decodedBytes = some b ∧
      ((transformFromBase d data).bind decodedBytes = some b ↔
        ∀ p q, data.regions = p ++ q → q ≠ [] → d.trim (padCount p.flatten) = 0) := by
  rcases eq_nil_or_concat' data.regions with hnil | ⟨init, r, hregions⟩
  · -- no bytes at all
    have hbytes : data.bytes = [] := by rw [DispatchData.bytes, hnil, flatten_nil]
    refine ⟨[], by simp [hbytes, transformFromBase, dispatchDataApply, DispatchData.contiguous,
      applyRegions, decodedBytes], ?_⟩
    constructor
    · intro _ p q hpq hq
      rw [hnil] at hpq
      exact absurd (append_eq_nil_iff.mp hpq.symm).2 hq
    · simp [transformFromBase, dispatchDataApply, hnil, applyRegions, decodedBytes]
  have hne : data.bytes ≠ [] := by
    have hr : r ≠ [] := data.regions_ne_nil r (by simp [hregions])
    rw [DispatchData.bytes, hregions]
    simp [hr]
  have hcontiguous := DispatchData.contiguous_bytes data.bytes
  have hone : (DispatchData.contiguous data.bytes).regions = [] ++ [data.bytes] := by
    simp [DispatchData.contiguous, hne]
  obtain ⟨M, z, hz, hM, hztrim, hzdest, hzlen, hlen⟩ := transformFromBase_concat h hone
    (by rw [hcontiguous]; exact hvalid.isSym)
  cases forall₂_nil_right_iff.mp hM
  rw [hcontiguous] at hztrim hzdest hzlen hlen
  obtain ⟨L, y, hy, hL, hytrim, hydest, hylen, -⟩ :=
    transformFromBase_concat h hregions hvalid.isSym
  have hbytes : data.bytes = init.flatten ++ r := by
    rw [DispatchData.bytes, hregions]
    simp
  -- the sizes fit into a `size_t`
  have hbound : d.written (symCount data.bytes) < 2 ^ 64 :=
    (written_le h data.bytes).trans_lt hsize
  have htrim : ∀ q ≤ padCount data.bytes, d.trim q < 2 ^ 64 := fun q hq =>
    (h.trim_le _ hvalid.pads q hq).trans_lt h.group_lt
  have hL64 : ∀ x ∈ L ++ [y], x.dest.length < 2 ^ 64 := by
    intro x hx
    refine lt_of_le_of_lt ?_ hbound
    rw [← hlen, ← hydest]
    exact (sublist_flatten_of_mem (List.mem_map_of_mem hx)).length_le
  -- one region
  have hle : d.trim (padCount data.bytes) ≤ z.dest.length := by
    have := trim_add_written_le h hvalid (nil_append data.bytes).symm h.trim_zero
    have hzero : symCount ([] : List Bytes).flatten = symCount [] := rfl
    rw [hzero] at hzlen
    omega
  have hz64 : z.dest.length < 2 ^ 64 := by omega
  have hb := decodedBytes_last (.nil : List.Forall₂ TrimmedBy [] []) (by simp) (by simp) hztrim
    hz64 (htrim _ le_rfl) hle
  rw [hzdest] at hb
  refine ⟨_, by rw [hz, bind_some, hb], ?_⟩
  rw [hy, bind_some]
  constructor
  · intro hdecode p q hpq hq
    rcases eq_or_ne p [] with rfl | hp
    · exact h.trim_zero
    have hts : ∀ t ∈ trims d 0 init ++ [d.trim (padCount data.bytes)], t < 2 ^ 64 := by
      refine forall_mem_append.mpr ⟨fun t ht => ?_, forall_mem_singleton.mpr (htrim _ le_rfl)⟩
      obtain ⟨p, q, rfl, -, rfl⟩ := mem_trims.mp ht
      apply htrim
      rw [hbytes, flatten_append, padCount_append, padCount_append]
      omega
    have hsum := decodedBytes_length (rel_append hL (.cons hytrim .nil)) hL64 hts hdecode
    rw [hydest, length_take, sum_append, sum_singleton] at hsum
    have hzero : (trims d 0 init).sum = 0 := by omega
    -- the boundary is one before the last region
    obtain ⟨q', r', rfl⟩ := eq_nil_or_concat' q |>.resolve_left hq
    rw [hregions, ← append_assoc, append_singleton_inj] at hpq
    have hmem : d.trim (padCount p.flatten) ∈ trims d 0 init :=
      mem_trims.mpr ⟨p, q', hpq.1, hp, by rw [zero_add]⟩
    exact sum_eq_zero_iff.mp hzero _ hmem
  · intro hcond
    rw [decodedBytes_last hL (fun x hx => hL64 x (by simp [hx])) ?_ hytrim (hL64 y (by simp))
      (htrim _ le_rfl) ?_, hydest, hlen]
    · intro t ht
      obtain ⟨p, q, rfl, -, rfl⟩ := mem_trims.mp ht
      rw [zero_add]
      exact hcond p (q ++ [r]) (by rw [hregions, append_assoc]) (by simp)
    · have := trim_add_written_le h hvalid hbytes (hcond init [r] hregions (by simp))
      omega

end Regions

/-! ## Both decoders -/

/-- **Base 64 and base 32 text in regions.** A valid text, with blanks anywhere, decodes to some
bytes when it is one region. Cut into regions it decodes to the same bytes if and only
if, for base 64, every pad character is in the last region, and for base 32, no region
but the last ends with 1, 3, 4 or 6 pad characters read so far. -/
theorem fromBase_fragments_iff (data : DispatchData) (hsize : data.getSize < 2 ^ 64) :
    (ValidBase64 data.bytes → ∃ b,
      (dispatchTransformFromBase64 (DispatchData.contiguous data.bytes)).bind decodedBytes =
        some b ∧ ((dispatchTransformFromBase64 data).bind decodedBytes = some b ↔
        ∀ p q, data.regions = p ++ q → q ≠ [] → padCount p.flatten = 0)) ∧
    (ValidBase32 data.bytes → ∃ b,
      (dispatchTransformFromBase32 (DispatchData.contiguous data.bytes)).bind decodedBytes =
        some b ∧ ((dispatchTransformFromBase32 data).bind decodedBytes = some b ↔
        ∀ p q, data.regions = p ++ q → q ≠ [] → padCount p.flatten ∉ [1, 3, 4, 6])) := by
  constructor
  · intro hvalid
    exact transformFromBase_iff decodes_base64 data hvalid hsize
  · intro hvalid
    obtain ⟨b, hb, hiff⟩ := transformFromBase_iff decodes_base32 data hvalid hsize
    refine ⟨b, hb, hiff.trans ?_⟩
    have htrim : ∀ n, (base32Decoder base32DecodeTable base32DecodeTable.length).trim n = 0 ↔
        n ∉ [1, 3, 4, 6] := by
      intro n
      simp only [base32Decoder]
      split <;> simp_all
    simp only [htrim]

/-- `"Zg="`, `"="`: the text of one byte, cut inside its padding. -/
def cutPadding : DispatchData where
  regions := [ascii "Zg=", ascii "="]
  regions_ne_nil := by decide

theorem fromBase_fragments_cutPadding : ValidBase64 cutPadding.bytes ∧ ∃ b,
      (dispatchTransformFromBase64 (DispatchData.contiguous cutPadding.bytes)).bind decodedBytes =
        some b ∧ ((dispatchTransformFromBase64 cutPadding).bind decodedBytes = some b ↔
        ∀ p q, cutPadding.regions = p ++ q → q ≠ [] → padCount p.flatten = 0) := by
  have hvalid : ValidBase64 cutPadding.bytes :=
    ⟨⟨ascii "Zg", by decide +kernel, by decide +kernel⟩, by decide +kernel, by decide +kernel⟩
  exact ⟨hvalid, (fromBase_fragments_iff cutPadding (by decide)).1 hvalid⟩

/-- In one region the text gives the byte `"f"`. In two, the first region has written nothing when
one byte is trimmed from it: its size is `2 ^ 64 - 1`. -/
theorem fromBase64_cutPadding : ValidBase64 cutPadding.bytes ∧
    (dispatchTransformFromBase64 (DispatchData.contiguous cutPadding.bytes)).bind decodedBytes =
      some (ascii "f") ∧
    (dispatchTransformFromBase64 cutPadding).map (fun rv => rv.map DecodedRegion.final) =
      some [2 ^ 64 - 1, 1] ∧ (dispatchTransformFromBase64 cutPadding).bind decodedBytes = none := by
  refine ⟨⟨⟨ascii "Zg", by decide +kernel, by decide +kernel⟩, by decide +kernel,
    by decide +kernel⟩, by decide +kernel, by decide +kernel, by decide +kernel⟩

/-! ## Too many pad characters -/

section Hostile

variable {d : BaseDecoder} {alphabet : Bytes} {pads : List ℕ}

variable (d alphabet) in
/-- The table has no other characters than those of the alphabet and the pad character. -/
def Rejects : Prop := ∀ n < d.tableSize, d.table.getD n (-1) ≠ -1 →
  UInt8.ofNat n ∈ alphabet ∨ UInt8.ofNat n = padChar

theorem isSym_of_decodeByte (hreject : Rejects d alphabet) {b : UInt8} {st st' : DecodeState}
    (h : decodeByte d b st = some st') : IsSym alphabet b := by
  by_cases hblank : b = 0x0a ∨ b = 0x09 ∨ b = 0x20
  · exact .inl (by simpa [isBlank, or_assoc] using hblank)
  · rw [decodeByte, if_neg hblank] at h
    obtain ⟨hout, -⟩ := Option.ite_none_left_eq_some.mp h
    obtain ⟨hlt, hvalue⟩ := not_or.mp hout
    have := hreject b.toNat (not_le.mp hlt) hvalue
    rw [UInt8.ofNat_toNat] at this
    exact .inr this

variable {text : Bytes}

theorem isSym_of_decodeBytes (hreject : Rejects d alphabet) {st st' : DecodeState}
    (h : decodeBytes d text st = some st') : ∀ b ∈ text, IsSym alphabet b := by
  induction text generalizing st with
  | nil => simp
  | cons c text ih =>
    obtain ⟨st₁, hbyte, hrest⟩ := bind_eq_some_iff.mp h
    exact forall_mem_cons.mpr ⟨isSym_of_decodeByte hreject hbyte, ih hrest⟩

/-- The length of the data made from one region stays within what was written exactly if the
text is not accepted or no more is trimmed than was written. -/
theorem final_le_iff (h : Decodes d alphabet pads) (hreject : Rejects d alphabet)
    (htrim : ∀ p, d.trim p ≤ p) (hsize : text.length < 2 ^ 64) :
    (∀ rv, transformFromBase d (DispatchData.contiguous text) = some rv →
      ∀ r ∈ rv, r.final ≤ r.dest.length) ↔
    ((∀ b ∈ text, IsSym alphabet b) → d.trim (padCount text) ≤ d.written (symCount text)) := by
  rcases eq_or_ne text [] with rfl | hne
  · simp [transformFromBase, dispatchDataApply, DispatchData.contiguous, applyRegions, padCount,
      h.trim_zero]
  have hbytes := DispatchData.contiguous_bytes text
  have hone : (DispatchData.contiguous text).regions = [] ++ [text] := by
    simp [DispatchData.contiguous, hne]
  by_cases hsym : ∀ b ∈ text, IsSym alphabet b
  · obtain ⟨L, y, hy, hL, hytrim, -, hylen, -⟩ := transformFromBase_concat h hone (by rwa [hbytes])
    cases forall₂_nil_right_iff.mp hL
    rw [hbytes] at hytrim hylen
    have hlen : y.dest.length = d.written (symCount text) := by
      simpa [BaseDecoder.written, symCount] using hylen
    have hpad : d.trim (padCount text) ≤ text.length := (htrim _).trans count_le_length
    unfold TrimmedBy at hytrim
    rw [hy]
    constructor
    · intro hfinal _
      have := hfinal _ rfl y (by simp)
      omega
    · intro hle rv hrv r hr
      cases hrv
      have := hle hsym
      rw [mem_singleton.mp hr]
      omega
  · refine iff_of_true (fun rv hrv => absurd ?_ hsym) (absurd · hsym)
    simp only [transformFromBase, dispatchDataApply, hone, nil_append, applyRegions, decodeRegion,
      map_eq_some_iff, bind_eq_some_iff] at hrv
    obtain ⟨_, ⟨_, ⟨_, hrun, _⟩, _⟩, _⟩ := hrv
    exact isSym_of_decodeBytes hreject hrun

end Hostile

/-- **Pad characters in one region.** For a text the decoders accept, blanks and characters of
the alphabet anywhere, the length of the result is within the bytes written if and only if,
for base 64, there are at most as many pad characters as bytes in full groups, and for base 32,
the trimming for the pad characters is at most that many bytes. -/
theorem fromBase_bounded_iff (text : Bytes) (hsize : text.length < 2 ^ 64) :
    ((∀ rv, dispatchTransformFromBase64 (DispatchData.contiguous text) = some rv →
        ∀ r ∈ rv, r.final ≤ r.dest.length) ∧
      ∀ rv, dispatchTransformFromBase32 (DispatchData.contiguous text) = some rv →
        ∀ r ∈ rv, r.final ≤ r.dest.length) ↔
    ((∀ b ∈ text, IsSym base64EncodeTable b) → padCount text ≤ 3 * (symCount text / 4)) ∧
      ((∀ b ∈ text, IsSym base32EncodeTable b) →
        (base32Decoder [] 0).trim (padCount text) ≤ 5 * (symCount text / 8)) := by
  refine and_congr (final_le_iff decodes_base64 ?_ (fun p => le_rfl) hsize)
    (final_le_iff decodes_base32 ?_ (fun p => ?_) hsize)
  · unfold Rejects
    decide +kernel
  · unfold Rejects
    decide +kernel
  · simp only [base32Decoder]
    split <;> omega

theorem fromBase_bounded_iff_quantum :
    (∀ rv, dispatchTransformFromBase64 (DispatchData.contiguous (ascii "QQ==")) = some rv →
        ∀ r ∈ rv, r.final ≤ r.dest.length) ∧
      ∀ rv, dispatchTransformFromBase32 (DispatchData.contiguous (ascii "QQ==")) = some rv →
        ∀ r ∈ rv, r.final ≤ r.dest.length :=
  (fromBase_bounded_iff (ascii "QQ==") (by decide)).mpr
    (by unfold IsSym; decide +kernel)

/-- Four pad characters write three zero bytes and make data of `2 ^ 64 - 1` bytes. -/
theorem fromBase64_pads : (dispatchTransformFromBase64 (DispatchData.contiguous (ascii "===="))).map
      (map fun r => (r.dest, r.final)) = some [([0, 0, 0], 2 ^ 64 - 1)] ∧
    (dispatchTransformFromBase32 (DispatchData.contiguous (ascii "="))).map
      (map fun r => (r.dest, r.final)) = some [([], 2 ^ 64 - 1)] := by
  decide +kernel

end Apple.Dispatch
