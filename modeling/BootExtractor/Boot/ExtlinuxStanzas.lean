import BootExtractor.Boot.Extlinux
import BootExtractor.Lib.Alternation

/-!
# Stanzas

A config as a boot loader expects it: stanzas with a label, a kernel, ramdisks and a
command line, and the label of the default. Its text may have the lines of a stanza in
any order, keywords in any letter case, and other lines anywhere.
-/

namespace BootExtractor.Boot.Extlinux

/-- A path as it stands in a list of paths. -/
structure IsPath (s : Str) : Prop where
  ne_nil : s ≠ []
  clean : ∀ c ∈ s, Str.isWhitespace c = false ∧ c ≠ ','

/-- A word of a command line that is for the kernel. -/
structure IsPlain (s : Str) : Prop where
  ne_nil : s ≠ []
  clean : ∀ c ∈ s, Str.isWhitespace c = false
  not_initrd : ¬ "initrd=".toList <+: s

/-- What a label line names. -/
structure IsLabel (s : Str) : Prop where
  ne_nil : s ≠ []
  trimmed : Str.trim s = s
  oneLine : '\n' ∉ s

/-- A path of a stanza. -/
abbrev Path := { s : Str // IsPath s }

/-- A label of a stanza. -/
abbrev Label := { s : Str // IsLabel s }

/-- A word of an `append` line. -/
inductive Word where
  | plain (s : { s : Str // IsPlain s })
  | initrd (first : Path) (rest : List Path)

/-- A line of a stanza, apart from its label. -/
inductive Line where
  | kernel (path : Path)
  | initrd (first : Path) (rest : List Path)
  | append (words : List Word)

section Meaning

/-- Paths with commas between them. -/
def pathsText (first : Path) (rest : List Path) : Str :=
  Str.join ",".toList ((first :: rest).map Subtype.val)

/-- The text of a word. -/
def Word.text : Word → Str
  | plain s => s.val
  | initrd first rest => "initrd=".toList ++ pathsText first rest

/-- The ramdisks that a word names. -/
def Word.initrds : Word → List Path
  | plain _ => []
  | initrd first rest => first :: rest

/-- The words that a word leaves for the kernel. -/
def Word.remaining : Word → List Str
  | plain s => [s.val]
  | initrd .. => []

/-- The kernels that a line names. -/
def Line.kernels : Line → List Path
  | kernel path => [path]
  | initrd .. => []
  | append _ => []

/-- The ramdisks that a line names. -/
def Line.initrds : Line → List Path
  | kernel _ => []
  | initrd first rest => first :: rest
  | append words => words.flatMap Word.initrds

/-- The command lines of a line. -/
def Line.appends : Line → List (List Word)
  | kernel _ => []
  | initrd .. => []
  | append words => [words]

/-- A stanza: one kernel line, at most one command line, in any order. -/
structure Stanza where
  label : Label
  kernel : Path
  words : List Word
  body : List Line
  kernel_once : body.flatMap Line.kernels = [kernel]
  words_once : body.flatMap Line.appends = [words] ∨ words = [] ∧ body.flatMap Line.appends = []

/-- The words that a stanza leaves for the kernel. -/
def Stanza.remaining (s : Stanza) : List Str := s.words.flatMap Word.remaining

/-- The file that a path names: a relative one is below the directory of the config. -/
def located (baseDir : Str) (p : Path) : Str :=
  if p.val.head? = some '/' then p.val else baseDir ++ "/".toList ++ p.val

/-- The entry of a stanza. Its ramdisks are in the order of the lines. -/
def Stanza.parsed (baseDir : Str) (s : Stanza) : BootEntry where
  title := some s.label.val
  id := some s.label.val
  kernel := some (located baseDir s.kernel)
  initrd := (s.body.flatMap Line.initrds).map (located baseDir)
  cmdline := if s.remaining = [] then none else some (Str.join " ".toList s.remaining)
  source := .extlinux

/-- The first stanza with the label, or else the first one. -/
def defaultOf (stanzas : List Stanza) (default : Option Label) : Option Nat :=
  (default.bind fun d => stanzas.findIdx? fun s => s.label.val == d.val).or
    (if stanzas.isEmpty then none else some 0)

end Meaning

section Text

/-- A line that says something. -/
inductive Token where
  | default (d : Label)
  | label (l : Label)
  | line (l : Line)

/-- The label that a default line names. -/
def Token.defaults : Token → List Label
  | default d => [d]
  | label _ => []
  | line _ => []

/-- A line of a stanza. -/
def Token.ofStanza : Token → Bool
  | default _ => false
  | label _ => true
  | line _ => true

/-- What a stanza says, line by line. -/
def Stanza.tokens (s : Stanza) : List Token := .label s.label :: s.body.map .line

/-- The lines of the stanzas in their order, with the default line anywhere. -/
structure Arranged (stanzas : List Stanza) (default : Option Label) (tokens : List Token) :
    Prop where
  stanzas_eq : tokens.filter Token.ofStanza = stanzas.flatMap Stanza.tokens
  default_eq : tokens.flatMap Token.defaults = default.toList

/-- Whitespace inside a line. -/
def Blank (s : Str) : Prop := ∀ c ∈ s, Str.isWhitespace c = true ∧ c ≠ '\n'

/-- A row with this keyword, in any letter case, and this argument. -/
inductive Framed (name arg : Str) : Str → Prop where
  | mk {before kw gap after : Str} (hbefore : Blank before) (hkw : Str.toAsciiLowercase kw = name)
      (hgap : Blank gap) (harg : arg ≠ [] → gap ≠ []) (hafter : Blank after) :
      Framed name arg (before ++ kw ++ gap ++ arg ++ after)

/-- The keywords that mean something. -/
def knownKeywords : List Str :=
  ["default".toList, "label".toList, "kernel".toList, "linux".toList, "initrd".toList,
    "append".toList]

/-- A row that says nothing about stanzas. -/
inductive Noise : Str → Prop where
  | blank {row : Str} (h : Blank row) : Noise row
  | comment {before text : Str} (hbefore : Blank before) (htext : '\n' ∉ text) :
      Noise (before ++ '#' :: text)
  | unrelated {before kw tail : Str} (hbefore : Blank before) (hne : kw ≠ [])
      (hkw : ∀ c ∈ kw, Str.isWhitespace c = false)
      (hunknown : Str.toAsciiLowercase kw ∉ knownKeywords)
      (hline : '\n' ∉ tail) (htail : ∀ c ∈ tail.head?, Str.isWhitespace c = true) :
      Noise (before ++ kw ++ tail)

/-- A row that says this. -/
inductive RowOf : Token → Str → Prop where
  | default {d : Label} {row : Str} (h : Framed "default".toList d.val row) :
      RowOf (.default d) row
  | label {l : Label} {row : Str} (h : Framed "label".toList l.val row) : RowOf (.label l) row
  | kernel {p : Path} {row : Str}
      (h : Framed "kernel".toList p.val row ∨ Framed "linux".toList p.val row) :
      RowOf (.line (.kernel p)) row
  | initrd {first : Path} {rest : List Path} {row : Str}
      (h : Framed "initrd".toList (pathsText first rest) row) :
      RowOf (.line (.initrd first rest)) row
  | append {words : List Word} {parts : Parts Char} {row : Str}
      (hparts : parts.Valid Str.isWhitespace) (hwords : parts.map Prod.fst = words.map Word.text)
      (hline : '\n' ∉ Parts.text parts) (h : Framed "append".toList (Parts.text parts) row) :
      RowOf (.line (.append words)) row

/-- The rows of a text that says this, line by line. -/
inductive Renders : List Token → List Str → Prop where
  | nil : Renders [] []
  | noise {tokens : List Token} {row : Str} {rows : List Str} (h : Noise row)
      (hrest : Renders tokens rows) : Renders tokens (row :: rows)
  | token {token : Token} {tokens : List Token} {row : Str} {rows : List Str} (h : RowOf token row)
      (hrest : Renders tokens rows) : Renders (token :: tokens) (row :: rows)

end Text

end BootExtractor.Boot.Extlinux
