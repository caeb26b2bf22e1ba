import Mathlib

/-!
# Conversions between C integer types

The conversions that a C program makes without saying so: a value stored in a
64-bit unsigned, a 32-bit unsigned or a 32-bit signed object.  On the machines
in question the last one is also a reduction modulo `2 ^ 32`.
-/

namespace SystemsProjects
namespace Lib

/-- Conversion to `unsigned long` or `size_t`. -/
def toUInt64 (z : ℤ) : ℤ := z % 2 ^ 64

/-- Conversion to `long` or `intptr_t`. -/
def toInt64 (z : ℤ) : ℤ := Int.bmod z (2 ^ 64)

/-- Conversion to `int`. -/
def toInt32 (z : ℤ) : ℤ := Int.bmod z (2 ^ 32)

theorem toUInt64_of_range {z : ℤ} (h₀ : 0 ≤ z) (h₁ : z < 2 ^ 64) : toUInt64 z = z :=
  Int.emod_eq_of_lt h₀ h₁

theorem toInt64_of_range {z : ℤ} (h₀ : -2 ^ 63 ≤ z) (h₁ : z < 2 ^ 63) : toInt64 z = z :=
  Int.bmod_eq_of_le (by omega) (by omega)

theorem toInt32_of_range {z : ℤ} (h₀ : -2 ^ 31 ≤ z) (h₁ : z < 2 ^ 31) : toInt32 z = z :=
  Int.bmod_eq_of_le (by omega) (by omega)

end Lib
end SystemsProjects
