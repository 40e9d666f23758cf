import BootExtractor.Error

/-!
# Naming files in an image

A file is named by `pN:/path`, or by a path alone. What is not of the first form is
a path as it stands.
-/

namespace BootExtractor.Cli

/-- `uri`. -/
def uri (part : Nat) (path : Str) : Str := 'p' :: Str.dec part ++ ':' :: path

/-- The number and the path of a text of the form `pN:path`. -/
def uriParts (s : Str) : Option (Nat × Str) :=
  (Str.stripPrefix "p".toList s).bind fun rest =>
    (Str.splitOnce (· == ':') rest).bind fun (num, path) =>
      (Str.parseUsize num).map fun n => (n, path)

/-- `parse_uri`. -/
def parseUri (s : Str) : Option Nat × Str :=
  match uriParts s with
  | some (n, path) => (some n, if Str.startsWith path "/".toList then path else '/' :: path)
  | none => (none, s)

/-- A file of a partition is found under its name. -/
theorem parseUri_uri {part : Nat} {path : Str} (hpart : part < 2 ^ 64)
    (hpath : Str.startsWith path "/".toList) : parseUri (uri part path) = (some part, path) := by
  have hsplit : Str.splitOnce (· == ':') (Str.dec part ++ ':' :: path) =
      some (Str.dec part, path) :=
    Str.splitOnce_dec rfl part path
  have hstrip : Str.stripPrefix "p".toList (uri part path) =
      some (Str.dec part ++ ':' :: path) := by
    have hprefix : "p".toList <+: uri part path := ⟨Str.dec part ++ ':' :: path, rfl⟩
    rw [Str.stripPrefix, if_pos hprefix]
    rfl
  simp only [parseUri, uriParts, hstrip, Option.bind_some, hsplit, Str.parseUsize_dec hpart,
    Option.map_some, hpath, if_true]

/-- What `parse::<usize>` finds wrong with digits, first fault first. -/
def digitFault : Nat → Str → Option Str
  | _, [] => none
  | n, c :: rest =>
    if !c.isDigit then some "invalid digit found in string".toList
    else
      let n := 10 * n + (c.toNat - '0'.toNat)
      if n < 2 ^ 64 then digitFault n rest
      else some "number too large to fit in target type".toList

/-- `parse::<usize>`, with the text of its error. -/
def parseIndex (s : Str) : Except Str Nat :=
  match Str.parseUsize s with
  | some n => .ok n
  | none =>
    if s = [] then .error "cannot parse integer from empty string".toList
    else
      let digits := if Str.startsWith s "+".toList then s.drop 1 else s
      .error ((digitFault 0 digits).getD "invalid digit found in string".toList)

end BootExtractor.Cli
