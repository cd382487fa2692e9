import Mathlib.Data.Int.Basic

/-!
# Signed 32-bit integers

The value of a C `int` as an integer: results of additions are reduced to the range of the type.
-/

namespace SystemsProjects.MachineInt

def INT_MAX : ℤ := 2147483647

def INT_MIN : ℤ := -2147483648

/-- The value an `int` holds after an addition, with two's-complement wrap-around. -/
def toInt32 (x : ℤ) : ℤ := x.bmod 4294967296

theorem toInt32_eq_self {x : ℤ} (h0 : 0 ≤ x) (h1 : x ≤ INT_MAX) : toInt32 x = x := by
  unfold toInt32 INT_MAX at *
  rw [Int.bmod_eq_of_le] <;> omega

theorem toInt32_le (x : ℤ) : toInt32 x ≤ INT_MAX := by
  have := Int.bmod_lt (x := x) (m := 4294967296) (by decide)
  unfold toInt32 INT_MAX
  omega

/-- Only the sum modulo 2^32 counts. -/
theorem toInt32_toInt32_add (x y : ℤ) : toInt32 (toInt32 x + y) = toInt32 (x + y) := Int.bmod_add_bmod

end SystemsProjects.MachineInt
