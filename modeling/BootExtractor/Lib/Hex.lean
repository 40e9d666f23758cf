import BootExtractor.Lib.Str

/-!
# Hexadecimal numbers

Numbers of 64 bits as the standard library parses them, and the ways to spell them.
-/

namespace Str

/-- The value of a hexadecimal digit. -/
def hexDigit? (c : Char) : Option Nat :=
  if '0' ≤ c ∧ c ≤ '9' then some (c.toNat - 48)
  else if 'a' ≤ c ∧ c ≤ 'f' then some (c.toNat - 87)
  else if 'A' ≤ c ∧ c ≤ 'F' then some (c.toNat - 55)
  else none

/-- The number with these digits, the most significant one first. -/
def hexValue (digits : List Nat) : Nat := digits.foldl (fun n d => 16 * n + d) 0

/-- The digits of an unsigned number, which may have a sign. -/
def unsigned : Str → Str
  | '+' :: rest => rest
  | s => s

/-- `u64::from_str_radix(.., 16)`: an optional `+` and at least one digit. -/
def parseHex (s : Str) : Option Nat :=
  match (unsigned s).mapM hexDigit? with
  | none => none
  | some [] => none
  | some (d :: ds) =>
    if hexValue (d :: ds) < 2 ^ 64 then some (hexValue (d :: ds)) else none

/-- A digit, in the case it is written in. -/
structure HexDigit where
  value : Fin 16
  upper : Bool
  deriving DecidableEq, Repr

/-- The digit's character. -/
def HexDigit.char (d : HexDigit) : Char :=
  if d.value.val < 10 then Char.ofNat (48 + d.value.val)
  else if d.upper then Char.ofNat (55 + d.value.val)
  else Char.ofNat (87 + d.value.val)

/-- A digit is read back. -/
private theorem hexDigit?_char (d : HexDigit) : hexDigit? d.char = some d.value.val := by
  obtain ⟨value, upper⟩ := d
  revert value upper
  decide

/-- Digits are read back one by one. -/
private theorem mapM_hexDigit? (ds : List HexDigit) :
    (ds.map HexDigit.char).mapM hexDigit? = some (ds.map fun d => d.value.val) := by
  induction ds with
  | nil => rfl
  | cons d ds ih =>
    rw [List.map_cons, List.mapM_cons, hexDigit?_char, ih]
    rfl

/-- Every spelling of a number is parsed as that number. -/
theorem parseHex_chars (d : HexDigit) (ds : List HexDigit)
    (h : hexValue ((d :: ds).map fun d => d.value.val) < 2 ^ 64) :
    parseHex ((d :: ds).map HexDigit.char) =
      some (hexValue ((d :: ds).map fun d => d.value.val)) := by
  have hplus : d.char ≠ '+' := by
    intro he
    have hdigit := hexDigit?_char d
    rw [he] at hdigit
    cases hdigit
  have hdigits : unsigned ((d :: ds).map HexDigit.char) = (d :: ds).map HexDigit.char := by
    rw [List.map_cons, unsigned]
    rintro rest he
    exact hplus (List.cons.inj he).1
  rw [parseHex, hdigits, mapM_hexDigit?, List.map_cons]
  exact if_pos h

/-- The last digit of a padded number stands behind those of the rest of it. -/
theorem hex_succ {width : Nat} (hwidth : 0 < width) (n : Nat) :
    hex (width + 1) n = hex width (n / 16) ++ [(n % 16).digitChar] := by
  simp only [hex]
  by_cases hn : n < 16
  · have hdiv : n / 16 = 0 := Nat.div_eq_of_lt hn
    have hpad : List.replicate (width + 1 - 1) '0' = List.replicate (width - 1) '0' ++ ['0'] := by
      rw [← List.replicate_succ']
      congr 1
      omega
    rw [Nat.toDigits_of_lt_base hn, hdiv, Nat.toDigits_zero, Nat.mod_eq_of_lt hn,
      List.length_singleton, List.length_singleton, hpad]
  · rw [Nat.toDigits_of_base_le (by decide) (Nat.not_lt.mp hn), List.length_append,
      List.length_singleton, Nat.add_sub_add_right, List.append_assoc]

/-- The same for the last byte. -/
theorem hex_byte {width : Nat} (hwidth : 0 < width) (m : Nat) {x : Nat} (hx : x < 256) :
    hex (width + 2) (x + 256 * m) = hex width m ++ hex 2 x := by
  have hlow : (x + 256 * m) % 16 = x % 16 := by omega
  have hhigh : (x + 256 * m) / 16 % 16 = x / 16 := by omega
  have hrest : (x + 256 * m) / 16 / 16 = m := by omega
  have hone : hex 1 (x / 16) = [(x / 16).digitChar] := by
    rw [hex, Nat.toDigits_of_lt_base (by omega)]
    rfl
  rw [hex_succ (Nat.succ_pos width), hex_succ hwidth, hex_succ (by decide), hone, hlow, hhigh,
    hrest, List.append_assoc]

end Str
