import BootExtractor.Lib.Hex

/-!
# JSON

The values of RFC 8259 texts and a decoder for its whole grammar: whitespace, escapes
with surrogate pairs, numbers with fraction and exponent, arrays and objects. The
writer emits no whitespace, and the decoder gives back what it has written.
-/

/-- A JSON value. The fields of an object are in the order of the text. -/
inductive Json where
  | null
  | bool (b : Bool)
  /-- A mantissa times a power of ten. -/
  | num (mantissa exponent : Int)
  | str (s : Str)
  | arr (items : List Json)
  | obj (fields : List (Str × Json))
  deriving Repr

namespace Json

/-- A natural number. -/
def nat (n : Nat) : Json := .num n 0

/-- A value that may be absent. -/
def opt {α : Type} (f : α → Json) : Option α → Json
  | none => .null
  | some a => f a

section Decoder

/-- Whitespace of the format. -/
def isWs (c : Char) : Bool := c = ' ' || c = '\t' || c = '\n' || c = '\r'

/-- The text behind leading whitespace. -/
def skipWs (s : Str) : Str := s.dropWhile isWs

/-- Four hexadecimal digits. -/
def hex4 : Str → Option (Nat × Str)
  | a :: b :: c :: d :: rest =>
    ([a, b, c, d].mapM Str.hexDigit?).map fun digits => (Str.hexValue digits, rest)
  | _ => none

/-- The character of a pair of surrogates. -/
def pairChar (high low : Nat) : Char :=
  Char.ofNat (0x10000 + 0x400 * (high - 0xd800) + (low - 0xdc00))

/-- The second half of a pair of surrogates. -/
def lowSurrogate (high : Nat) : Str → Option (Char × Str)
  | '\\' :: 'u' :: rest =>
    (hex4 rest).bind fun (low, rest) =>
      if 0xdc00 ≤ low ∧ low < 0xe000 then some (pairChar high low, rest) else none
  | _ => none

/-- A character by its code units; a surrogate is none on its own. -/
def unicodeEscape (s : Str) : Option (Char × Str) :=
  (hex4 s).bind fun (n, rest) =>
    if 0xd800 ≤ n ∧ n < 0xdc00 then lowSurrogate n rest
    else if 0xdc00 ≤ n ∧ n < 0xe000 then none
    else some (Char.ofNat n, rest)

/-- The escapes of one letter. -/
def simpleEscape (c : Char) : Option Char :=
  if c = '"' ∨ c = '\\' ∨ c = '/' then some c
  else if c = 'b' then some (Char.ofNat 8)
  else if c = 'f' then some (Char.ofNat 12)
  else if c = 'n' then some '\n'
  else if c = 'r' then some '\r'
  else if c = 't' then some '\t'
  else none

/-- What stands behind a backslash. -/
def unescape : Str → Option (Char × Str)
  | [] => none
  | c :: rest =>
    if c = 'u' then unicodeEscape rest else (simpleEscape c).map fun c => (c, rest)

/-- A string from behind its first quote. -/
def string : Nat → Str → Option (Str × Str)
  | 0, _ => none
  | _ + 1, [] => none
  | fuel + 1, c :: rest =>
    if c = '"' then some ([], rest)
    else if c = '\\' then
      (unescape rest).bind fun (c, rest) =>
        (string fuel rest).map fun (s, rest) => (c :: s, rest)
    else if c.toNat < 0x20 then none
    else (string fuel rest).map fun (s, rest) => (c :: s, rest)

/-- One digit or more. -/
def digits (s : Str) : Option (Str × Str) :=
  if s.takeWhile Char.isDigit = [] then none
  else some (s.takeWhile Char.isDigit, s.dropWhile Char.isDigit)

/-- An integer without its sign: no zero in front. -/
def integer (s : Str) : Option (Str × Str) :=
  (digits s).bind fun (ds, rest) =>
    if ds.head? = some '0' ∧ ds.length ≠ 1 then none else some (ds, rest)

/-- The digits behind a point, if there is one. -/
def fraction : Str → Option (Str × Str)
  | '.' :: rest => digits rest
  | s => some ([], s)

/-- A minus sign, if there is one. -/
def minus : Str → Bool × Str
  | '-' :: rest => (true, rest)
  | s => (false, s)

/-- The sign of an exponent. -/
def expSign : Str → Bool × Str
  | '+' :: rest => (false, rest)
  | s => minus s

/-- A number with its sign. -/
def signed (negative : Bool) (n : Nat) : Int := if negative then -n else n

/-- An exponent, if there is one. -/
def exponent : Str → Option (Int × Str)
  | [] => some (0, [])
  | c :: rest =>
    if c = 'e' ∨ c = 'E' then
      (digits (expSign rest).2).map fun (ds, more) =>
        (signed (expSign rest).1 (Nat.ofDigitChars 10 ds 0), more)
    else some (0, c :: rest)

/-- A number: an integer, a fraction and an exponent. -/
def number (s : Str) : Option (Json × Str) :=
  (integer (minus s).2).bind fun (int, rest) =>
    (fraction rest).bind fun (frac, rest) =>
      (exponent rest).map fun (e, rest) =>
        (.num (signed (minus s).1 (Nat.ofDigitChars 10 (int ++ frac) 0)) (e - frac.length), rest)

/-- The rest behind a word. -/
def word (w : Str) (v : Json) (s : Str) : Option (Json × Str) :=
  (Str.stripPrefix w s).map fun rest => (v, rest)

/-- A value that is no string, array or object. -/
def scalar (s : Str) : Option (Json × Str) :=
  ((word "null".toList .null s).or (word "true".toList (.bool true) s)).or
    ((word "false".toList (.bool false) s).or (number s))

mutual

/-- A value, and the text behind it. The text starts with no whitespace. -/
def value : Nat → Str → Option (Json × Str)
  | 0, _ => none
  | _ + 1, [] => none
  | fuel + 1, c :: rest =>
    if c = '"' then (string rest.length rest).map fun (s, rest) => (.str s, rest)
    else if c = '[' then
      if (skipWs rest).head? = some ']' then some (.arr [], (skipWs rest).tail)
      else (elements fuel rest).map fun (items, rest) => (.arr items, rest)
    else if c = '{' then
      if (skipWs rest).head? = some '}' then some (.obj [], (skipWs rest).tail)
      else (members fuel rest).map fun (fields, rest) => (.obj fields, rest)
    else scalar (c :: rest)

/-- One item or more up to the closing bracket. -/
def elements : Nat → Str → Option (List Json × Str)
  | 0, _ => none
  | fuel + 1, s =>
    (value fuel (skipWs s)).bind fun (v, rest) =>
      match skipWs rest with
      | ']' :: rest => some ([v], rest)
      | ',' :: rest => (elements fuel rest).map fun (vs, rest) => (v :: vs, rest)
      | _ => none

/-- One field or more up to the closing brace. -/
def members : Nat → Str → Option (List (Str × Json) × Str)
  | 0, _ => none
  | fuel + 1, s =>
    match skipWs s with
    | '"' :: rest =>
      (string rest.length rest).bind fun (k, rest) =>
        match skipWs rest with
        | ':' :: rest =>
          (value fuel (skipWs rest)).bind fun (v, rest) =>
            match skipWs rest with
            | '}' :: rest => some ([(k, v)], rest)
            | ',' :: rest => (members fuel rest).map fun (kvs, rest) => ((k, v) :: kvs, rest)
            | _ => none
        | _ => none
    | _ => none

end

/-- The value of a JSON text. -/
def parse (s : Str) : Option Json :=
  (value s.length (skipWs s)).bind fun (v, rest) => if skipWs rest = [] then some v else none

end Decoder

section Writer

/-- A character inside a string. -/
def escape (c : Char) : Str :=
  if c = '"' then "\\\"".toList
  else if c = '\\' then "\\\\".toList
  else if c = '\n' then "\\n".toList
  else if c = '\r' then "\\r".toList
  else if c = '\t' then "\\t".toList
  else if c.toNat < 0x20 then "\\u".toList ++ Str.hex 4 c.toNat
  else [c]

/-- A string in its quotes. -/
def quote (s : Str) : Str := '"' :: s.flatMap escape ++ ['"']

/-- An integer in decimal. -/
def int (i : Int) : Str := if i < 0 then '-' :: Str.dec i.natAbs else Str.dec i.natAbs

mutual

/-- The shortest text of a value. -/
def print : Json → Str
  | .null => "null".toList
  | .bool b => if b then "true".toList else "false".toList
  | .num m e => int m ++ if e = 0 then [] else 'e' :: int e
  | .str s => quote s
  | .arr items => '[' :: printItems items ++ [']']
  | .obj fields => '\x7b' :: printFields fields ++ ['\x7d']

/-- Items with commas between them. -/
def printItems : List Json → Str
  | [] => []
  | [v] => print v
  | v :: w :: rest => print v ++ ',' :: printItems (w :: rest)

/-- Fields with commas between them. -/
def printFields : List (Str × Json) → Str
  | [] => []
  | [(k, v)] => quote k ++ ':' :: print v
  | (k, v) :: kv :: rest => quote k ++ ':' :: print v ++ ',' :: printFields (kv :: rest)

end

end Writer

end Json
