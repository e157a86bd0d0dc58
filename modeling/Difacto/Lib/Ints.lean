import Mathlib.Algebra.Group.Int.Defs
import Mathlib.Algebra.Group.Nat.Defs
import Mathlib.Data.Int.Init
import Mathlib.Order.Lattice

/-!
# Conversions between machine integers

Values of `int` are integers, values of `unsigned int` and `size_t` are natural numbers. A
conversion keeps the value modulo the size of the type.

## Main definitions

* `toInt`, `toSizeT`, `toUnsigned` — the conversions.
-/

namespace Difacto.Lib

/-- The conversion of a `size_t` to `int`. -/
def toInt (n : ℕ) : ℤ := (n : ℤ).bmod (2 ^ 32)

/-- The conversion of an `int` to `size_t`. -/
def toSizeT (z : ℤ) : ℕ := (z % 2 ^ 64).toNat

/-- The conversion of a `size_t` to `unsigned int`. -/
def toUnsigned (n : ℕ) : ℕ := n % 2 ^ 32

theorem toUnsigned_toSizeT_toInt (n : ℕ) : toUnsigned (toSizeT (toInt n)) = toUnsigned n := by
  have hmod : toInt n % 2 ^ 32 = n % 2 ^ 32 := Int.bmod_emod ..
  rw [toUnsigned, toUnsigned, toSizeT]
  omega

theorem toInt_lower (n : ℕ) : -(2 ^ 31) ≤ toInt n := by
  have hlo : -(2 ^ 32 / 2) ≤ toInt n := Int.le_bmod (by decide)
  omega

theorem toInt_upper (n : ℕ) : toInt n < 2 ^ 31 := by
  have hhi : toInt n < (2 ^ 32 + 1) / 2 := Int.bmod_lt (by decide)
  omega

theorem toInt_of_lt {n : ℕ} (h : n < 2 ^ 31) : toInt n = n := by
  have hmod : toInt n % 2 ^ 32 = n % 2 ^ 32 := Int.bmod_emod ..
  have hlo := toInt_lower n
  have hhi := toInt_upper n
  omega

theorem toSizeT_natCast {n : ℕ} (h : n < 2 ^ 64) : toSizeT n = n := by
  rw [toSizeT]
  omega

theorem toSizeT_toInt {n : ℕ} (h : n < 2 ^ 31) : toSizeT (toInt n) = n := by
  rw [toInt_of_lt h, toSizeT_natCast (by omega)]

/-- A number that `int` cannot hold becomes negative, and then very large. -/
theorem le_toSizeT_toInt {n : ℕ} (h : 2 ^ 31 ≤ n) (hn : n < 2 ^ 32) :
    2 ^ 32 ≤ toSizeT (toInt n) := by
  have hmod : toInt n % 2 ^ 32 = n % 2 ^ 32 := Int.bmod_emod ..
  have hlo := toInt_lower n
  have hhi := toInt_upper n
  rw [toSizeT]
  omega

end Difacto.Lib
