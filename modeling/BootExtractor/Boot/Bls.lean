import BootExtractor.Boot.Entry
import BootExtractor.Boot.Grubenv
import BootExtractor.Boot.Vercmp

/-!
# Boot Loader Specification entries

One entry per file of a directory, newest first, with the default that the GRUB
environment or loader.conf names.
-/

namespace BootExtractor.Boot.Bls

/-- Entries, newest first, and the default among them. -/
structure BlsScan where
  entries : List BootEntry
  default : Option Nat
  deriving DecidableEq, Repr

/-- `absolute`: a path that is counted from the root of the partition. -/
def absolute (p : Str) : Str := if Str.startsWith p "/".toList then p else '/' :: p

/-- `strip_boot_counter`: the stem without `+TRIES`. -/
def stripBootCounter (stem : Str) : Str := stem.takeWhile (· ≠ '+')

/-- The recursion of `glob_match`, on bytes. -/
def globRec : Bytes → Bytes → Bool
  | [], s => s.isEmpty
  | c :: p, s =>
    if c = 0x2a then
      globRec p s ||
        match s with
        | [] => false
        | _ :: rest => globRec (c :: p) rest
    else if c = 0x3f then
      match s with
      | [] => false
      | _ :: rest => globRec p rest
    else
      match s with
      | [] => false
      | b :: rest => b == c && globRec p rest
termination_by p s => p.length + s.length

/-- `glob_match`. -/
def globMatch (pattern s : Str) : Bool := globRec (Utf8.encode pattern) (Utf8.encode s)

/-- An entry file so far: the entry and the values of its `options` lines. -/
abbrev Parsed := BootEntry × List Str

/-- One line of an entry file. -/
def parseLine (env : Env) (acc : Parsed) (rawLine : Str) : Parsed :=
  let line := Str.trim rawLine
  if line = [] ∨ Str.startsWith line "#".toList then acc
  else
    match Str.splitOnce Str.isWhitespace line with
    | none => acc
    | some (key, rest) =>
      let value := Str.trim rest
      if key = "title".toList then ({ acc.1 with title := some value }, acc.2)
      else if key = "version".toList then ({ acc.1 with version := some value }, acc.2)
      else if key = "linux".toList then ({ acc.1 with kernel := some (absolute value) }, acc.2)
      else if key = "initrd".toList then
        ({ acc.1 with initrd := acc.1.initrd ++ (Str.splitWhitespace value).map absolute }, acc.2)
      else if key = "options".toList then (acc.1, acc.2 ++ [expand value env])
      else acc

/-- One entry file. -/
def parseEntry (env : Env) (stem text : Str) : BootEntry :=
  let acc := (Str.lines text).foldl (parseLine env) ({ id := some stem, source := .bls }, [])
  let cmdline := Str.trim (Str.join " ".toList acc.2)
  if cmdline = [] then acc.1 else { acc.1 with cmdline := some cmdline }

/-- An entry with the stem of its file. -/
abbrev Item := Str × BootEntry

/-- The file of a directory item, if it is an entry file that can be read. -/
def readItem (fs : FileSystem) (entriesDir : Str) (env : Env) (f : DirEntry) :
    Option (Str × Item) :=
  if f.kind = .dir ∨ !Str.endsWith f.name ".conf".toList then none
  else
    let path := entriesDir ++ '/' :: f.name
    match fs.readFile path with
    | .error _ => none
    | .ok data =>
      let stem := Str.trimEndMatches ".conf".toList f.name
      some (path, stem, parseEntry env stem (Utf8.fromLossy data))

/-- What an entry sorts by. -/
def sortKey (item : Item) : Str := item.2.version.getD item.1

/-- Does the environment's saved entry name this item? -/
def isSaved (env : Env) (item : Item) : Bool :=
  match env "saved_entry".toList with
  | some s => s == item.1 || s == stripBootCounter item.1
  | none => false

/-- Does the pattern of loader.conf match this item? -/
def isMatched (pat : Str) (item : Item) : Bool :=
  globMatch pat item.1 || globMatch pat (item.1 ++ ".conf".toList) ||
    globMatch pat (stripBootCounter item.1)

/-- The default among the sorted items. -/
def findDefault (env : Env) (sdDefault : Option Str) (items : List Item) : Option Nat :=
  (items.findIdx? (isSaved env)).or (sdDefault.bind fun pat => items.findIdx? (isMatched pat))

/-- `bls::parse_dir`, with the files it has read. -/
def parseDir (fs : FileSystem) (entriesDir : Str) (env : Env) (sdDefault : Option Str) :
    Except Error (BlsScan × List Str) :=
  match fs.readDir entriesDir with
  | .error e => .error e
  | .ok listing =>
    let read := listing.filterMap (readItem fs entriesDir env)
    let items := sortNewestFirst sortKey (read.map Prod.snd)
    let entries := items.map Prod.snd
    .ok (⟨entries, orFirst (findDefault env sdDefault items) entries⟩, read.map Prod.fst)

end BootExtractor.Boot.Bls
