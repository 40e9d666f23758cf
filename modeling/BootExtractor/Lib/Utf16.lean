import BootExtractor.Lib.Str

/-!
# Lossy decoding of UTF-16

Code units pair up to characters; a surrogate without its partner becomes the
replacement character.
-/

namespace Utf16

/-- The first half of a surrogate pair. -/
def isHigh (u : Nat) : Bool := 0xd800 ≤ u && u < 0xdc00

/-- The second half of a surrogate pair. -/
def isLow (u : Nat) : Bool := 0xdc00 ≤ u && u < 0xe000

/-- `String::from_utf16_lossy`. -/
def fromLossy : List Nat → Str
  | [] => []
  | [u] => [if isHigh u || isLow u then '\uFFFD' else Char.ofNat u]
  | u :: v :: rest =>
    if isHigh u && isLow v then
      Char.ofNat (0x10000 + (u - 0xd800) * 0x400 + (v - 0xdc00)) :: fromLossy rest
    else
      (if isHigh u || isLow u then '\uFFFD' else Char.ofNat u) :: fromLossy (v :: rest)

/-- The code units of a text. -/
def encode : Str → List Nat
  | [] => []
  | c :: rest =>
    if c.toNat < 0x10000 then c.toNat :: encode rest
    else
      (0xd800 + (c.toNat - 0x10000) / 0x400) :: (0xdc00 + (c.toNat - 0x10000) % 0x400) ::
        encode rest

/-- A text that is not empty has units. -/
theorem encode_ne_nil {s : Str} (h : s ≠ []) : encode s ≠ [] := by
  cases s with
  | nil => exact absurd rfl h
  | cons c rest =>
    rw [encode]
    split <;> exact List.cons_ne_nil _ _

/-- A character is no surrogate. -/
theorem not_surrogate {c : Char} : isHigh c.toNat = false ∧ isLow c.toNat = false := by
  have hvalid : c.toNat < 0xd800 ∨ 0xdfff < c.toNat ∧ c.toNat < 0x110000 := c.valid
  simp only [isHigh, isLow, Bool.and_eq_false_iff, decide_eq_false_iff_not]
  omega

/-- A unit that is no surrogate is a character of its own. -/
theorem fromLossy_cons (c : Char) (rest : List Nat) :
    fromLossy (c.toNat :: rest) = c :: fromLossy rest := by
  obtain ⟨hhigh, hlow⟩ := not_surrogate (c := c)
  cases rest with
  | nil => simp [fromLossy, hhigh, hlow]
  | cons v rest => simp [fromLossy, hhigh, hlow]

/-- The units of a text decode to the text. -/
theorem fromLossy_encode (s : Str) : fromLossy (encode s) = s := by
  induction s with
  | nil => rfl
  | cons c rest ih =>
    rw [encode]
    by_cases hc : c.toNat < 0x10000
    · rw [if_pos hc, fromLossy_cons, ih]
    · have hvalid : c.toNat < 0xd800 ∨ 0xdfff < c.toNat ∧ c.toNat < 0x110000 := c.valid
      -- twenty bits, ten in each half of the pair
      have hpair : (isHigh (0xd800 + (c.toNat - 0x10000) / 0x400) &&
          isLow (0xdc00 + (c.toNat - 0x10000) % 0x400)) = true := by
        simp only [isHigh, isLow, Bool.and_eq_true, decide_eq_true_eq]
        omega
      have hvalue : 0x10000 + (0xd800 + (c.toNat - 0x10000) / 0x400 - 0xd800) * 0x400 +
          (0xdc00 + (c.toNat - 0x10000) % 0x400 - 0xdc00) = c.toNat := by
        omega
      rw [if_neg hc, fromLossy, if_pos hpair, hvalue, Char.ofNat_toNat, ih]

end Utf16
