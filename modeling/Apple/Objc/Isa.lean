import Apple.Lib.BitField

/-!
# The `isa` word

`objc4-750/runtime/isa.h` and `objc-private.h` (`union isa_t`). A non-pointer `isa`
packs the class, five flags and the inline retain count `extra_rc` into one word; the
layout depends on the architecture, and `extra_rc` is always the most significant
field. A raw `isa` is the class pointer.

`Isa` has the fields as a record, with their widths in the types. `bits` is the word,
and the record is a faithful picture of it (`isa_word`): distinct records are distinct
words, so that a compare-and-swap of words is one of records, and
`addc(bits, n * RC_ONE)`, `subc(bits, RC_ONE)` change `extra_rc` only, with a carry
exactly when it overflows or underflows.
-/

namespace Apple.Objc

open Apple.Lib

/-- The architectures with a non-pointer `isa`: packed on arm64 and x86_64, indexed on
armv7k and arm64_32. -/
inductive Arch where
  | arm64
  | x86_64
  | armv7k
deriving DecidableEq, Repr

namespace Arch

/-- `WORD_BITS`. -/
def wordBits : Arch → ℕ
  | arm64 => 64
  | x86_64 => 64
  | armv7k => 32

/-- The width of `extra_rc`. -/
def rcBits : Arch → ℕ
  | arm64 => 19
  | x86_64 => 8
  | armv7k => 7

/-- The width of `shiftcls` or `indexcls`. -/
def clsBits : Arch → ℕ
  | arm64 => 33
  | x86_64 => 44
  | armv7k => 15

/-- `RC_ONE`. -/
def rcOne : Arch → ℕ
  | arm64 => 1 <<< 45
  | x86_64 => 1 <<< 56
  | armv7k => 1 <<< 25

/-- `RC_HALF`. -/
def rcHalf : Arch → ℕ
  | arm64 => 1 <<< 18
  | x86_64 => 1 <<< 7
  | armv7k => 1 <<< 6

theorem two_mul_rcHalf (A : Arch) : 2 * A.rcHalf = 2 ^ A.rcBits := by
  cases A <;> decide

theorem rcHalf_pos (A : Arch) : 0 < A.rcHalf := by
  cases A <;> decide

theorem rcHalf_lt (A : Arch) : A.rcHalf < 2 ^ A.rcBits := by
  cases A <;> decide

end Arch

/-- The fields of a non-pointer `isa`, other than `nonpointer` and `magic`, which are
constant. `cls` is `shiftcls` or `indexcls`. -/
structure IsaBits (A : Arch) where
  hasAssoc : Bool
  hasCxxDtor : Bool
  cls : Fin (2 ^ A.clsBits)
  weaklyReferenced : Bool
  deallocating : Bool
  hasSidetableRc : Bool
  extraRc : Fin (2 ^ A.rcBits)
deriving DecidableEq, Repr

/-- A class pointer: not nil, and aligned, so that bit 0 of a raw `isa` is clear. -/
structure ClassPtr where
  addr : ℕ
  ne_zero : addr ≠ 0
  aligned : addr % 8 = 0
deriving DecidableEq, Repr

/-- `isa_t`: not yet set, a class pointer, or packed fields. -/
inductive Isa (A : Arch) where
  | zero
  | raw (cls : ClassPtr)
  | nonpointer (f : IsaBits A)
deriving DecidableEq, Repr

namespace IsaBits

variable {A : Arch}

/-- The fields below `extra_rc`, in the order of `ISA_BITFIELD`. -/
def lowFields (f : IsaBits A) : List (ℕ × ℕ) :=
  match A with
  | .arm64 =>
    [(1, 1), (1, f.hasAssoc.toNat), (1, f.hasCxxDtor.toNat), (Arch.arm64.clsBits, f.cls.val),
      (6, 0x1a), (1, f.weaklyReferenced.toNat), (1, f.deallocating.toNat),
      (1, f.hasSidetableRc.toNat)]
  | .x86_64 =>
    [(1, 1), (1, f.hasAssoc.toNat), (1, f.hasCxxDtor.toNat), (Arch.x86_64.clsBits, f.cls.val),
      (6, 0x3b), (1, f.weaklyReferenced.toNat), (1, f.deallocating.toNat),
      (1, f.hasSidetableRc.toNat)]
  | .armv7k =>
    [(1, 1), (1, f.hasAssoc.toNat), (Arch.armv7k.clsBits, f.cls.val), (4, 0xe),
      (1, f.hasCxxDtor.toNat), (1, f.weaklyReferenced.toNat), (1, f.deallocating.toNat),
      (1, f.hasSidetableRc.toNat)]

/-- All fields. -/
def fields (f : IsaBits A) : List (ℕ × ℕ) := f.lowFields ++ [(A.rcBits, f.extraRc.val)]

/-- `isa.bits`. -/
def bits (f : IsaBits A) : ℕ := pack f.fields

/-- `newisa.extra_rc = n`, truncated to the field. -/
def setRc (f : IsaBits A) (n : ℕ) : IsaBits A :=
  { f with extraRc := ⟨n % 2 ^ A.rcBits, Nat.mod_lt _ (Nat.two_pow_pos _)⟩ }

/-- `addc(newisa.bits, RC_ONE * n, 0, &carry)`; `none` on carry. -/
def addRc (f : IsaBits A) (n : ℕ) : Option (IsaBits A) :=
  if f.extraRc + n < 2 ^ A.rcBits then some (f.setRc (f.extraRc + n)) else none

/-- `subc(newisa.bits, RC_ONE, 0, &carry)`; `none` on carry. -/
def subRc (f : IsaBits A) : Option (IsaBits A) :=
  if 0 < f.extraRc.val then some (f.setRc (f.extraRc - 1)) else none

variable (f : IsaBits A)

@[simp] theorem setRc_extraRc (n : ℕ) : (f.setRc n).extraRc.val = n % 2 ^ A.rcBits := rfl

@[simp] theorem setRc_deallocating (n : ℕ) : (f.setRc n).deallocating = f.deallocating := rfl

@[simp] theorem setRc_hasSidetableRc (n : ℕ) : (f.setRc n).hasSidetableRc = f.hasSidetableRc := rfl

variable {n : ℕ}

/-- What `addc` does to the fields. -/
theorem addRc_eq_some {f g : IsaBits A} (h : f.addRc n = some g) :
    g.extraRc.val = f.extraRc + n ∧ g.deallocating = f.deallocating ∧
      g.hasSidetableRc = f.hasSidetableRc ∧ g.weaklyReferenced = f.weaklyReferenced := by
  rw [addRc] at h
  split_ifs at h with hlt
  cases h
  exact ⟨Nat.mod_eq_of_lt hlt, rfl, rfl, rfl⟩

theorem addRc_eq_none {f : IsaBits A} : f.addRc n = none ↔ 2 ^ A.rcBits ≤ f.extraRc + n := by
  rw [addRc]
  split_ifs with h
  · simp only [false_iff]
    omega
  · simp only [true_iff]
    omega

/-- What `subc` does to the fields. -/
theorem subRc_eq_some {f g : IsaBits A} (h : f.subRc = some g) :
    g.extraRc.val + 1 = f.extraRc ∧ g.deallocating = f.deallocating ∧
      g.hasSidetableRc = f.hasSidetableRc ∧ g.weaklyReferenced = f.weaklyReferenced := by
  rw [subRc] at h
  split_ifs at h with hpos
  cases h
  refine ⟨?_, rfl, rfl, rfl⟩
  rw [setRc_extraRc, Nat.mod_eq_of_lt (by omega)]
  omega

theorem subRc_eq_none {f : IsaBits A} : f.subRc = none ↔ f.extraRc.val = 0 := by
  rw [subRc]
  split_ifs with h
  · simp only [false_iff]
    omega
  · simp only [true_iff]
    omega

/-! ### The record and the word -/

theorem packFits_lowFields : PackFits f.lowFields := by
  have hb : ∀ b : Bool, b.toNat ≤ 1 := by decide
  cases A <;> simp [PackFits, lowFields, hb]

theorem packWidth_lowFields : 2 ^ packWidth f.lowFields = A.rcOne := by
  cases A <;> simp [packWidth, lowFields, Arch.rcOne, Arch.clsBits]

theorem packWidth_add_rcBits : packWidth f.lowFields + A.rcBits = A.wordBits := by
  cases A <;> simp [packWidth, lowFields, Arch.wordBits, Arch.clsBits, Arch.rcBits]

theorem packFits_fields : PackFits f.fields := by
  rw [PackFits, fields, List.forall_mem_append, List.forall_mem_singleton]
  exact ⟨packFits_lowFields f, f.extraRc.isLt⟩

theorem bits_injective {f g : IsaBits A} (h : f.bits = g.bits) : f = g := by
  have hwidth : f.fields.map Prod.fst = g.fields.map Prod.fst := by cases A <;> rfl
  have hfields := pack_injective (packFits_fields f) (packFits_fields g) hwidth h
  have hbool : ∀ a b : Bool, a.toNat = b.toNat ↔ a = b := by decide
  rw [mk.injEq]
  cases A <;> simp [fields, lowFields, hbool, Fin.val_inj] at hfields <;> simp [hfields]

/-- Bit 0 of a packed `isa` is `nonpointer`. -/
theorem bits_odd : f.bits % 2 = 1 := by
  cases A <;> simp [bits, fields, lowFields, pack]

/-- **`addc(bits, RC_ONE * n)`** adds `n` to `extra_rc`, with a carry out of the word exactly
when the field overflows. -/
theorem addRc_bits (n : ℕ) : (f.addRc n = none ↔ 2 ^ A.wordBits ≤ f.bits + A.rcOne * n) ∧
      ∀ g, f.addRc n = some g → g.bits = f.bits + A.rcOne * n := by
  have hsum := pack_concat_add f.lowFields A.rcBits f.extraRc n
  rw [packWidth_lowFields] at hsum
  constructor
  · rw [addRc_eq_none, bits, fields, ← hsum, ← packWidth_add_rcBits f, ← not_lt,
      ← not_lt, pack_concat_lt_iff (packFits_lowFields f)]
  · intro g hg
    rw [addRc] at hg
    split_ifs at hg with hlt
    cases hg
    have hlow : (f.setRc (f.extraRc + n)).lowFields = f.lowFields := by cases A <;> rfl
    rw [bits, bits, fields, fields, hlow, setRc_extraRc, Nat.mod_eq_of_lt hlt, hsum]

/-- **`subc(bits, RC_ONE)`** subtracts one from `extra_rc`, with a borrow exactly when it is
zero. -/
theorem subRc_bits :
    (f.subRc = none ↔ f.bits < A.rcOne) ∧ ∀ g, f.subRc = some g → f.bits = g.bits + A.rcOne := by
  have hlow := pack_lt (packFits_lowFields f)
  have hword : f.bits = pack f.lowFields + A.rcOne * f.extraRc := by
    rw [bits, fields, pack_concat, packWidth_lowFields]
  rw [packWidth_lowFields] at hlow
  constructor
  · rw [subRc_eq_none, hword]
    constructor
    · intro h
      simpa [h] using hlow
    · intro h
      by_contra hne
      have := Nat.le_mul_of_pos_right A.rcOne (Nat.pos_of_ne_zero hne)
      omega
  · intro g hg
    have hadd : g.addRc 1 = some f := by
      rw [subRc] at hg
      split_ifs at hg with hpos
      cases hg
      have hmod : (f.extraRc.val - 1) % 2 ^ A.rcBits + 1 = f.extraRc := by
        rw [Nat.mod_eq_of_lt (by omega)]
        omega
      rw [addRc, setRc_extraRc, hmod]
      simp [setRc, Nat.mod_eq_of_lt f.extraRc.isLt]
    simpa using (addRc_bits g 1).2 f hadd

end IsaBits

namespace Isa

variable {A : Arch}

/-- `isa.bits`. -/
def bits : Isa A → ℕ
  | zero => 0
  | raw cls => cls.addr
  | nonpointer f => f.bits

/-- `isa.nonpointer`: bit 0 of the word. -/
theorem nonpointer_iff_odd (i : Isa A) : i.bits % 2 = 1 ↔ ∃ f, i = nonpointer f := by
  cases i with
  | zero => simp [bits]
  | raw cls =>
    have := cls.aligned
    simp only [bits, reduceCtorEq, exists_false, iff_false]
    omega
  | nonpointer f => simp [bits, f.bits_odd]

/-- **Comparing words compares records.** -/
theorem bits_injective {i j : Isa A} (h : i.bits = j.bits) : i = j := by
  have hij : (∃ f, i = nonpointer f) ↔ ∃ f, j = nonpointer f := by
    rw [← nonpointer_iff_odd, ← nonpointer_iff_odd, h]
  cases i with
  | nonpointer f =>
    obtain ⟨g, rfl⟩ := hij.mp ⟨f, rfl⟩
    rw [IsaBits.bits_injective h]
  | zero =>
    cases j with
    | zero => rfl
    | raw cls => exact absurd h.symm cls.ne_zero
    | nonpointer g => simp at hij
  | raw cls =>
    cases j with
    | zero => exact absurd h cls.ne_zero
    | raw cls' =>
      obtain ⟨addr', _, _⟩ := cls'
      subst h
      rfl
    | nonpointer g => simp at hij

/-- **The record and the word agree**, for compare-and-swap, `addc` and `subc`. -/
theorem isa_word (i j : Isa A) (f : IsaBits A) (n : ℕ) :
    (i.bits = j.bits ↔ i = j) ∧
      ((f.addRc n = none ↔ 2 ^ A.wordBits ≤ f.bits + A.rcOne * n) ∧
        ∀ g, f.addRc n = some g → g.bits = f.bits + A.rcOne * n) ∧
      (f.subRc = none ↔ f.bits < A.rcOne) ∧
      ∀ g, f.subRc = some g → f.bits = g.bits + A.rcOne :=
  ⟨⟨bits_injective, congrArg bits⟩, f.addRc_bits n, f.subRc_bits⟩

end Isa

end Apple.Objc
