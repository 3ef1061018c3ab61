import Mathlib.Tactic.Ring

/-!
# Conversions between machine integers

An expression of C converts an integer by reducing it modulo the width of the
target type. Each function takes the value before and gives the value after.
-/

set_option autoImplicit false

namespace MachineIntegers

/-- Conversion to `int`. -/
def toInt (n : ℤ) : ℤ := (n+2^31)%2^32-2^31

/-- Conversion to `uint32_t`. -/
def toUint32 (n : ℤ) : ℕ := (n%2^32).toNat

/-- Conversion to `size_t`. -/
def toSizeT (n : ℤ) : ℕ := (n%2^64).toNat

theorem toInt_of_mem (n : ℤ) (hlo : -2^31 ≤ n) (hhi : n < 2^31) : toInt n = n := by
  unfold toInt
  omega

theorem toInt_natCast (n : ℕ) (hn : n < 2^31) : toInt n = n :=
  toInt_of_mem n (by omega) (by omega)

theorem toUint32_of_nonneg (n : ℤ) (hlo : 0 ≤ n) (hhi : n < 2^32) : toUint32 n = n.toNat := by
  unfold toUint32
  omega

theorem le_toUint32_of_neg (n : ℤ) (hlo : -2^31 ≤ n) (hhi : n < 0) : 2^31 ≤ toUint32 n := by
  unfold toUint32
  omega

theorem toSizeT_of_nonneg (n : ℤ) (hlo : 0 ≤ n) (hhi : n < 2^64) : toSizeT n = n.toNat := by
  unfold toSizeT
  omega

/-- A positive `int` that was a `uint32_t` is the same as a `size_t`. -/
theorem toSizeT_toInt (n : ℕ) (hn : n < 2^32) (hpos : 0 < toInt n) : toSizeT (toInt n) = n := by
  unfold toInt at hpos ⊢
  unfold toSizeT
  omega

end MachineIntegers
