import Mathlib.Algebra.Order.Group.Nat

/-!
# Bit fields of natural numbers

A mask of neighbouring ones cuts a field out of a number. What the mask leaves is
the field in its place, so masks and shifts turn into division and remainder.
-/

namespace Bits

/-- The field of `width` bits from bit `low` on. -/
def field (n low width : Nat) : Nat := n / 2 ^ low % 2 ^ width

/-- A mask of `width` ones above `low` zeroes leaves the field in its place. -/
theorem land_mask (n low width : Nat) :
    n &&& ((2 ^ width - 1) * 2 ^ low) = field n low width * 2 ^ low := by
  apply Nat.eq_of_testBit_eq
  intro i
  simp only [field, Nat.testBit_and, Nat.testBit_mul_two_pow, Nat.testBit_two_pow_sub_one,
    Nat.testBit_mod_two_pow, Nat.testBit_div_two_pow]
  by_cases h : low ≤ i
  · have hi : i - low + low = i := by omega
    rw [hi, Bool.and_comm, Bool.and_assoc]
  · simp [h]

/-- A single bit is a field. -/
theorem land_bit (n i : Nat) : n &&& (1 <<< i) ≠ 0 ↔ field n i 1 = 1 := by
  have h := land_mask n i 1
  rw [Nat.one_shiftLeft]
  have hone : (2 ^ 1 - 1) * 2 ^ i = 2 ^ i := by omega
  rw [hone] at h
  rw [h]
  have hp : 0 < 2 ^ i := Nat.two_pow_pos i
  have hlt : field n i 1 < 2 := Nat.mod_lt _ (by decide)
  constructor
  · intro hne
    have : field n i 1 ≠ 0 := fun h0 => hne (by rw [h0, Nat.zero_mul])
    omega
  · intro h1
    rw [h1]
    omega

/-- The upper part of a field is the field above it. -/
theorem field_div (n low width k : Nat) (h : k ≤ width) :
    field n low width / 2 ^ k = field n (low + k) (width - k) := by
  unfold field
  obtain ⟨r, rfl⟩ := Nat.exists_eq_add_of_le h
  rw [Nat.pow_add, Nat.mod_mul_right_div_self, Nat.div_div_eq_div_mul, ← Nat.pow_add,
    Nat.add_sub_cancel_left]

/-- The lower part of a field is the narrower field. -/
theorem field_mod (n low width k : Nat) (h : k ≤ width) :
    field n low width % 2 ^ k = field n low k := by
  unfold field
  exact Nat.mod_mod_of_dvd _ (Nat.pow_dvd_pow 2 h)

/-- A field of some bits is a number of so many bits. -/
theorem field_lt (n low width : Nat) : field n low width < 2 ^ width :=
  Nat.mod_lt _ (Nat.two_pow_pos width)

/-- What was packed below other fields is read back. -/
theorem field_low {w low : Nat} (h : low < 2 ^ w) (high : Nat) :
    field (high * 2 ^ w + low) 0 w = low := by
  rw [field, Nat.pow_zero, Nat.div_one, Nat.add_comm, Nat.add_mul_mod_self_right,
    Nat.mod_eq_of_lt h]

/-- The fields above it are those of the upper part. -/
theorem field_high {w low : Nat} (h : low < 2 ^ w) (high a b : Nat) :
    field (high * 2 ^ w + low) (w + a) b = field high a b := by
  have hdiv : (high * 2 ^ w + low) / 2 ^ w = high := by
    rw [Nat.add_comm, Nat.add_mul_div_right _ _ (Nat.two_pow_pos w), Nat.div_eq_of_lt h,
      Nat.zero_add]
  rw [field, Nat.pow_add, ← Nat.div_div_eq_div_mul, hdiv, field]

end Bits
