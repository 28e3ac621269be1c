import Mathlib.Tactic.Common
import Mathlib.Tactic.Ring

/-!
# Little-endian numbers

Numbers of a fixed width as bytes, the least significant one first, and the
two's complement of signed numbers.
-/

namespace HiveDb.Lib

/-- The lowest `width` bytes of a number. -/
def bytesOf : Nat → Nat → List UInt8
  | 0, _ => []
  | width + 1, n => UInt8.ofNat n :: bytesOf width (n / 256)

/-- The number that the bytes stand for. -/
def numberOf : List UInt8 → Nat
  | [] => 0
  | first :: rest => first.toNat + 256 * numberOf rest

@[simp] theorem length_bytesOf (width n : Nat) : (bytesOf width n).length = width := by
  induction width generalizing n with
  | zero => rfl
  | succ width ih => exact congrArg Nat.succ (ih (n / 256))

/-- A number that fits the width is read back. -/
theorem numberOf_bytesOf {width n : Nat} (h : n < 256 ^ width) :
    numberOf (bytesOf width n) = n := by
  induction width generalizing n with
  | zero =>
      rw [Nat.pow_zero] at h
      exact (Nat.lt_one_iff.mp h).symm
  | succ width ih =>
      have hrest : n / 256 < 256 ^ width := by
        rw [Nat.pow_succ] at h
        exact Nat.div_lt_of_lt_mul (by rwa [Nat.mul_comm] at h)
      have hfirst : (UInt8.ofNat n).toNat = n % 256 := by simp
      show (UInt8.ofNat n).toNat + 256 * numberOf (bytesOf width (n / 256)) = n
      rw [ih hrest, hfirst]
      exact Nat.mod_add_div n 256

/-- The pattern of a signed number of 32 bits. -/
def patternOf (n : Int) : Nat := (n % 4294967296).toNat

/-- The signed number of a pattern of 32 bits. -/
def signedOf (pattern : Nat) : Int :=
  if pattern < 2147483648 then pattern else pattern - 4294967296

theorem patternOf_lt (n : Int) : patternOf n < 256 ^ 4 := by
  unfold patternOf
  omega

theorem signedOf_patternOf {n : Int} (hlow : -2147483648 ≤ n) (hhigh : n ≤ 2147483647) :
    signedOf (patternOf n) = n := by
  unfold signedOf patternOf
  split <;> omega

end HiveDb.Lib
