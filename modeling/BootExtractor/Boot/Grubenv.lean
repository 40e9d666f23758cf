import BootExtractor.Fsys.FileSystem
import BootExtractor.Lib.Utf8

/-!
# The GRUB environment

A block of `key=value` lines, and the expansion of the variables it defines. A
missing block is an empty environment.
-/

namespace BootExtractor.Boot

/-- A map from variable names to values. -/
abbrev Env := Str → Option Str

namespace Grubenv

/-- The places where the block is looked for, best first. -/
def candidates : List Str :=
  ["/grub2/grubenv".toList, "/grub/grubenv".toList, "/boot/grub2/grubenv".toList,
    "/boot/grub/grubenv".toList]

/-- One line of the block; a later value replaces an earlier one. -/
def addLine (env : Env) (line : Str) : Env :=
  if Str.startsWith line "#".toList then env
  else
    match Str.splitOnce (· == '=') line with
    | none => env
    | some (key, value) =>
      Function.update env (Str.trim key) (some (Str.trim (value.rdropWhile (· == '#'))))

/-- `grubenv::parse`. -/
def parse (text : Str) : Env := (Str.lines text).foldl addLine fun _ => none

/-- `grubenv::load`: the first block that can be read. -/
def load (fs : FileSystem) : Env := go candidates
where
  /-- The candidates left. -/
  go : List Str → Env
    | [] => fun _ => none
    | path :: rest =>
      match fs.readFile path with
      | .ok data => parse (Utf8.fromLossy data)
      | .error _ => go rest

end Grubenv

/-- A character of a bare variable name. -/
def isNameChar (c : Char) : Bool := c.isAlphanum || c == '_'

/-- The name after a `$` and what follows it. -/
def splitName : Str → Str × Str
  | '{' :: rest => (rest.takeWhile (· ≠ '}'), (rest.dropWhile (· ≠ '}')).drop 1)
  | rest => (rest.takeWhile isNameChar, rest.dropWhile isNameChar)

/-- What stands for a variable; a `$` without a name stays. -/
def valueOf (env : Env) (name : Str) : Str :=
  if name = [] then ['$'] else (env name).getD []

/-- `expand`: variables are replaced once, from left to right. -/
def expand (s : Str) (env : Env) : Str := go s.length s
where
  /-- At most `fuel` passes; each takes at least one character. -/
  go : Nat → Str → Str
    | 0, _ => []
    | _, [] => []
    | fuel + 1, c :: rest =>
      if c = '$' then valueOf env (splitName rest).1 ++ go fuel (splitName rest).2
      else c :: go fuel rest

end BootExtractor.Boot
