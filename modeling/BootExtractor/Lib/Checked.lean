import Mathlib.Algebra.Order.Group.Nat

/-!
# Checked machine arithmetic

The operations on unsigned integers of a width that stop on overflow. A shift overflows
if its amount is not below the width; bits that it moves out are lost. Where nothing
overflows, an operation is the one on natural numbers.
-/

namespace Checked

variable {w a b : Nat}

/-- Addition of `w` bits. -/
def add (w a b : Nat) : Option Nat := if a + b < 2 ^ w then some (a + b) else none

/-- Subtraction, which fails below zero. -/
def sub (a b : Nat) : Option Nat := if b ≤ a then some (a - b) else none

/-- Multiplication of `w` bits. -/
def mul (w a b : Nat) : Option Nat := if a * b < 2 ^ w then some (a * b) else none

/-- A shift to the left by fewer than `w` bits, without the bits that fall out. -/
def shl (w a b : Nat) : Option Nat := if b < w then some ((a <<< b) % 2 ^ w) else none

/-- A shift to the right by fewer than `w` bits. -/
def shr (w a b : Nat) : Option Nat := if b < w then some (a >>> b) else none

/-- A sum that fits is the sum. -/
theorem add_eq (h : a + b < 2 ^ w) : add w a b = some (a + b) := if_pos h

/-- A difference that is not negative is the difference. -/
theorem sub_eq (h : b ≤ a) : sub a b = some (a - b) := if_pos h

/-- A product that fits is the product. -/
theorem mul_eq (h : a * b < 2 ^ w) : mul w a b = some (a * b) := if_pos h

/-- A shift by fewer bits than there are is the shift. -/
theorem shr_eq (h : b < w) : shr w a b = some (a >>> b) := if_pos h

/-- A shift whose result fits loses nothing. -/
theorem shl_eq (h : b < w) (hfit : a <<< b < 2 ^ w) : shl w a b = some (a <<< b) := by
  rw [shl, if_pos h, Nat.mod_eq_of_lt hfit]

/-- A single bit is not lost. -/
theorem shl_one (h : b < w) : shl w 1 b = some (1 <<< b) := by
  refine shl_eq h ?_
  rw [Nat.one_shiftLeft]
  exact Nat.pow_lt_pow_right (by decide) h

end Checked
