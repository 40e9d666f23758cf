import BootExtractor.Boot.Entry
import BootExtractor.Boot.Grubenv

/-!
# grub.cfg

The structure that grub-mkconfig writes: menu entries, submenus, the default and the
`blscfg` marker. A line-based machine follows the braces and collects the entries
with their places in the menu; the default is resolved among these places.
-/

namespace BootExtractor.Boot.Grub

/-- What a grub.cfg yields. -/
structure GrubScan where
  entries : List BootEntry
  default : Option Nat
  /-- The real entries are in BLS files. -/
  usesBls : Bool
  deriving DecidableEq, Repr

/-- An entry with its place in the menu. -/
structure RawEntry where
  entry : BootEntry
  /-- Position among the items of the top level; a submenu is one item. -/
  top : Nat
  /-- Position inside its submenu. -/
  sub : Option Nat
  deriving DecidableEq, Repr

/-- A submenu, so that a default can name it. -/
structure RawSubmenu where
  top : Nat
  id : Option Str
  title : Option Str
  deriving DecidableEq, Repr

/-- `split_words`: words between whitespace; quotes group and are dropped. `word` is the
word at hand. -/
def splitWordsFrom (inSingle inDouble : Bool) (word : Str) : Str → List Str
  | [] => if word = [] then [] else [word]
  | c :: rest =>
    if c = '\'' ∧ !inDouble then splitWordsFrom (!inSingle) inDouble word rest
    else if c = '"' ∧ !inSingle then splitWordsFrom inSingle (!inDouble) word rest
    else if Str.isWhitespace c ∧ !inSingle ∧ !inDouble then
      (if word = [] then [] else [word]) ++ splitWordsFrom inSingle inDouble [] rest
    else splitWordsFrom inSingle inDouble (word ++ [c]) rest

/-- `split_words`. -/
def splitWords (line : Str) : List Str := splitWordsFrom false false [] line

/-- `clean_path`: no device prefix, and absolute. -/
def cleanPath (p : Str) : Str :=
  let p := match Str.stripPrefix "(".toList p with
    | some rest => ((Str.splitOnce (· == ')') rest).map Prod.snd).getD rest
    | none => p
  if Str.startsWith p "/".toList then p else '/' :: p

/-- The machine of `parse_str` between two lines. -/
structure State where
  raw : List RawEntry := []
  submenus : List RawSubmenu := []
  defaultSpec : Option Str := none
  usesBls : Bool := false
  depth : Int := 0
  topCount : Nat := 0
  /-- The open submenu: where it was opened, its position, its next child. -/
  submenu : Option (Int × Nat × Nat) := none
  /-- The open menu entry: where it was opened, and the entry so far. -/
  current : Option (Int × RawEntry) := none
  deriving DecidableEq, Repr

/-- The argument after `$menuentry_id_option`. -/
def idOption (words : List Str) : Option Str :=
  (words.findIdx? (· == "$menuentry_id_option".toList)).bind fun i => words[i + 1]?

/-- The target of a `chainloader` line: its first argument that is no option. -/
def chainTarget (args : List Str) : Option Str :=
  (args.find? fun w => !Str.startsWith w "-".toList).map fun w =>
    if Str.startsWith w "+".toList then w else cleanPath w

/-- The commands that load a kernel. -/
def linuxKeywords : List Str := ["linux".toList, "linux16".toList, "linuxefi".toList]

/-- The commands that load ramdisks. -/
def initrdKeywords : List Str := ["initrd".toList, "initrd16".toList, "initrdefi".toList]

/-- A line in the body of a menu entry. -/
def bodyLine (env : Env) (kw : Str) (words : List Str) (e : BootEntry) : BootEntry :=
  if kw ∈ linuxKeywords ∧ words.length ≥ 2 then
    let cmdline := Str.trim (expand (Str.join " ".toList (words.drop 2)) env)
    { e with
      kernel := words[1]?.map cleanPath
      cmdline := if cmdline = [] then e.cmdline else some cmdline }
  else if kw ∈ initrdKeywords then { e with initrd := (words.drop 1).map cleanPath }
  else if kw = "chainloader".toList then { e with chainloader := chainTarget (words.drop 1) }
  else e

/-- A `menuentry` line that opens a block: the next child of the open submenu, or the
next item of the top level. -/
def openEntry (words : List Str) (st : State) : State :=
  let entry : BootEntry := { title := words[1]?, id := idOption words, source := .grub }
  match st.submenu with
  | some (d, top, next) =>
    { st with
      submenu := some (d, top, next + 1)
      current := some (st.depth, ⟨entry, top, some next⟩) }
  | none =>
    { st with
      topCount := st.topCount + 1
      current := some (st.depth, ⟨entry, st.topCount, none⟩) }

/-- A `submenu` line that opens a block. -/
def openSubmenu (words : List Str) (st : State) : State :=
  { st with
    submenus := st.submenus ++ [⟨st.topCount, idOption words, words[1]?⟩]
    submenu := some (st.depth, st.topCount, 0)
    topCount := st.topCount + 1 }

/-- A `set` line. -/
def setVariable (env : Env) (words : List Str) (st : State) : State :=
  match words[1]?.bind (Str.stripPrefix "default=".toList) with
  | some value => { st with defaultSpec := some (expand value env) }
  | none => st

/-- A line outside of menu entries. -/
def outerLine (env : Env) (kw : Str) (words : List Str) (opensBlock : Bool) (st : State) : State :=
  let st :=
    if kw = "menuentry".toList ∧ opensBlock then openEntry words st
    else if kw = "submenu".toList ∧ opensBlock then openSubmenu words st
    else if kw = "set".toList then setVariable env words st
    else st
  if "blscfg".toList ∈ words then { st with usesBls := true } else st

/-- The submenu ends if it was opened at this depth. -/
def closeSubmenu (st : State) : State :=
  match st.submenu with
  | some (d, _, _) => if st.depth = d then { st with submenu := none } else st
  | none => st

/-- A lone `}`: it ends the menu entry or else the submenu that was opened at this depth. -/
def closeBlock (st : State) : State :=
  let st := { st with depth := st.depth - 1 }
  match st.current with
  | some (d, e) =>
    if st.depth = d then { st with raw := st.raw ++ [e], current := none } else closeSubmenu st
  | none => closeSubmenu st

/-- The braces of a line. -/
def braces (line : Str) (opensBlock : Bool) (st : State) : State :=
  if opensBlock then { st with depth := st.depth + 1 }
  else if line = "\x7d".toList then closeBlock st
  else st

/-- The keyword of a line and what it means where the machine is. -/
def keywordLine (env : Env) (words : List Str) (opensBlock : Bool) (st : State) : State :=
  let kw := words.headD []
  match st.current with
  | some (d, cur) =>
    { st with current := some (d, { cur with entry := bodyLine env kw words cur.entry }) }
  | none => outerLine env kw words opensBlock st

/-- One line. -/
def step (env : Env) (st : State) (rawLine : Str) : State :=
  let line := Str.trim rawLine
  if line = [] ∨ Str.startsWith line "#".toList then st
  else
    let words := splitWords line
    if words = [] then st
    else
      let opensBlock := Str.endsWith line "\x7b".toList
      braces line opensBlock (keywordLine env words opensBlock st)

/-- All entries, with one whose block was never closed. -/
def State.salvaged (st : State) : List RawEntry :=
  st.raw ++ (st.current.map Prod.snd).toList

/-- Does an entry have this id or title? -/
def RawEntry.named (e : RawEntry) (name : Str) : Bool :=
  e.entry.id == some name || e.entry.title == some name

/-- Does a submenu have this id or title? -/
def RawSubmenu.named (s : RawSubmenu) (name : Str) : Bool :=
  s.id == some name || s.title == some name

/-- An entry at any level, by id and then by title. -/
def flat (entries : List RawEntry) (name : Str) : Option Nat :=
  (entries.findIdx? fun e => e.entry.id == some name).or
    (entries.findIdx? fun e => e.entry.title == some name)

/-- The first entry of an item of the top level. -/
def firstOfTop (entries : List RawEntry) (top : Nat) : Option Nat :=
  (entries.findIdx? fun e => e.top == top && e.sub.isNone).or
    (entries.findIdx? fun e => e.top == top)

/-- A default of one component. -/
def resolveSingle (entries : List RawEntry) (submenus : List RawSubmenu) (head : Str) :
    Option Nat :=
  match Str.parseUsize head with
  | some top => firstOfTop entries top
  | none =>
    (flat entries head).or ((submenus.find? (·.named head)).bind fun s => firstOfTop entries s.top)

/-- The item of the top level that the first component of a path names. -/
def resolveHead (entries : List RawEntry) (submenus : List RawSubmenu) (head : Str) :
    Option Nat :=
  match Str.parseUsize head with
  | some top => some top
  | none =>
    ((entries.find? fun e => e.sub.isNone && e.named head).map (·.top)).or
      ((submenus.find? (·.named head)).map (·.top))

/-- The child that the second component of a path names. -/
def resolveChild (entries : List RawEntry) (top : Nat) (child : Str) : Option Nat :=
  match Str.parseUsize child with
  | some sub => entries.findIdx? fun e => e.top == top && e.sub == some sub
  | none => entries.findIdx? fun e => e.top == top && e.sub.isSome && e.named child

/-- A default by its components. -/
def resolvePath (entries : List RawEntry) (submenus : List RawSubmenu) : List Str → Option Nat
  | [] => none
  | [head] => resolveSingle entries submenus head
  | head :: child :: more =>
    match resolveHead entries submenus head with
    | none => flat entries ((child :: more).getLastD child)
    | some top => (resolveChild entries top child).or (firstOfTop entries top)

/-- `resolve_default`. -/
def resolveDefault (entries : List RawEntry) (submenus : List RawSubmenu) (spec : Str) :
    Option Nat :=
  if entries.isEmpty then none
  else
    let spec := if spec = [] then "0".toList else spec
    let comps := (Str.split '>' spec).map Str.trim
    (resolvePath entries submenus comps).or (some 0)

/-- The state after all lines. -/
def run (env : Env) (lines : List Str) : State := lines.foldl (step env) {}

/-- `parse_str`. -/
def parseStr (text : Str) (env : Env) : GrubScan :=
  let st := run env (Str.lines text)
  let raw := st.salvaged
  ⟨raw.map (·.entry),
    resolveDefault raw st.submenus (st.defaultSpec.getD "0".toList), st.usesBls⟩

/-- `grub::parse`. -/
def parse (fs : FileSystem) (cfgPath : Str) (env : Env) : Except Error GrubScan :=
  (fs.readFile cfgPath).map fun data => parseStr (Utf8.fromLossy data) env

end BootExtractor.Boot.Grub
