import Mathlib.Algebra.Order.Ring.Nat
import Mathlib.Data.List.Induction
import Mathlib.Tactic.Ring

/-!
# Big-endian integers

The value of a byte string with its most significant byte first, and the `w` low bytes of a number
in that order.

Results: `ofBigEndian_append`, `ofBigEndian_toBigEndian`.
-/

namespace Apple.Lib

/-- The value of a big-endian byte string. -/
def ofBigEndian (bytes : List UInt8) : ℕ := bytes.foldl (fun v b => v * 256 + b.toNat) 0

/-- The `w` low bytes of `v`, most significant first. -/
def toBigEndian : ℕ → ℕ → List UInt8
  | 0, _ => []
  | w + 1, v => UInt8.ofNat (v / 256 ^ w) :: toBigEndian w v

@[simp] theorem ofBigEndian_nil : ofBigEndian [] = 0 := rfl

@[simp] theorem ofBigEndian_concat (bytes : List UInt8) (b : UInt8) :
    ofBigEndian (bytes ++ [b]) = ofBigEndian bytes * 256 + b.toNat := by
  simp [ofBigEndian]

theorem ofBigEndian_append (a b : List UInt8) :
    ofBigEndian (a ++ b) = ofBigEndian a * 256 ^ b.length + ofBigEndian b := by
  induction b using List.reverseRecOn with
  | nil => simp
  | append_singleton b x ih =>
    rw [← List.append_assoc, ofBigEndian_concat, ofBigEndian_concat, ih, List.length_append,
      List.length_singleton]
    ring

theorem ofBigEndian_cons (b : UInt8) (bytes : List UInt8) :
    ofBigEndian (b :: bytes) = b.toNat * 256 ^ bytes.length + ofBigEndian bytes := by
  rw [← List.singleton_append, ofBigEndian_append]
  simp [ofBigEndian]

@[simp] theorem length_toBigEndian (w v : ℕ) : (toBigEndian w v).length = w := by
  induction w with
  | zero => rfl
  | succ w ih => simp [toBigEndian, ih]

/-- Writing the low `w` bytes and reading them back reduces modulo `256 ^ w`. -/
theorem ofBigEndian_toBigEndian (w v : ℕ) : ofBigEndian (toBigEndian w v) = v % 256 ^ w := by
  induction w with
  | zero => simp [toBigEndian, Nat.mod_one]
  | succ w ih =>
    have hsplit : v % (256 ^ w * 256) = v % 256 ^ w + 256 ^ w * (v / 256 ^ w % 256) := Nat.mod_mul
    rw [toBigEndian, ofBigEndian_cons, ih, length_toBigEndian, UInt8.toNat_ofNat',
      pow_succ 256 w, hsplit]
    ring

end Apple.Lib
