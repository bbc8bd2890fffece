import Mathlib

/-!
# The integers of C

A conversion to an integer type keeps the low bits of a number (`signed`, `unsigned`), and a number
of the type is left as it is. An `int` operation whose result does not fit has no value (`addInt`).
-/

namespace Reconverse.Lib.CInt

variable {bits : Nat} {n : Int}

/-- A number converted to a signed type of `bits` bits. -/
def signed (bits : Nat) (n : Int) : Int := n.bmod (2 ^ bits)

/-- A number converted to an unsigned type of `bits` bits. -/
def unsigned (bits : Nat) (n : Int) : Int := n % 2 ^ bits

/-- A number as an `int`. -/
def int (n : Int) : Int := signed 32 n

/-- A number as a `size_t`. -/
def sizeT (n : Int) : Int := unsigned 64 n

/-- `INT_MAX`. -/
def intMax : Int := 2 ^ 31 - 1

/-- The number fits an `int`. -/
def Fits (n : Int) : Prop := -2 ^ 31 ≤ n ∧ n ≤ intMax

instance (n : Int) : Decidable (Fits n) := inferInstanceAs (Decidable (_ ∧ _))

/-- An addition of `int`s, with no result where it overflows. -/
def addInt (a b : Int) : Option Int := if Fits (a + b) then some (a + b) else none

theorem signed_of_lt (hlo : -2 ^ bits ≤ 2 * n) (hhi : 2 * n < 2 ^ bits) : signed bits n = n := by
  rw [signed, Int.bmod_eq_of_le] <;> push_cast <;> omega

/-- A conversion can be left to the end of a sum. -/
theorem int_int_add (a b : Int) : int (int a + b) = int (a + b) := Int.bmod_add_bmod

/-- The form for linear arithmetic. -/
theorem int_eq (n : Int) : int n = (n + 2 ^ 31) % 2 ^ 32 - 2 ^ 31 := by
  rw [int, signed, Int.bmod_def]
  split <;> omega

/-- A number in the range of `int` is left as it is. -/
theorem int_of_fits (h : Fits n) : int n = n := by
  unfold Fits intMax at h
  rw [int_eq]
  omega

theorem int_natCast_of_lt {n : Nat} (h : n < 2 ^ 31) : int n = n :=
  int_of_fits ⟨by omega, by unfold intMax; omega⟩

/-- The result is in the range of `int`. -/
theorem fits_int (n : Int) : Fits (int n) := by
  unfold Fits intMax
  rw [int_eq]
  omega

end Reconverse.Lib.CInt
