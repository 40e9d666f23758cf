import BootExtractor.Boot.Entry
import BootExtractor.Lib.Utf8

/-!
# extlinux and syslinux configs

Line-oriented stanzas with keywords in any letter case. Paths are relative to the
directory of the config file.
-/

namespace BootExtractor.Boot.Extlinux

/-- What a config yields. -/
structure ExtlinuxScan where
  entries : List BootEntry
  default : Option Nat
  deriving DecidableEq, Repr

/-- `resolve`. -/
def resolve (baseDir p : Str) : Str :=
  if Str.startsWith p "/".toList then p else baseDir ++ '/' :: p

/-- `split_keyword`. -/
def splitKeyword (line : Str) : Option (Str × Str) :=
  (Str.splitOnce Str.isWhitespace line).map fun (kw, rest) => (kw, Str.trim rest)

/-- The stanzas read so far and the one at hand. -/
structure State where
  entries : List BootEntry := []
  defaultLabel : Option Str := none
  current : Option BootEntry := none
  deriving DecidableEq, Repr

/-- A line of a stanza; it is lost outside of one. -/
def State.modifyCurrent (st : State) (f : BootEntry → BootEntry) : State :=
  { st with current := st.current.map f }

/-- All stanzas, with the one at hand. -/
def State.finished (st : State) : List BootEntry := st.entries ++ st.current.toList

/-- One word of an `append` line: `initrd=` is lifted out of the command line. -/
def appendWord (baseDir : Str) (acc : List Str × List Str) (word : Str) : List Str × List Str :=
  match Str.stripPrefix "initrd=".toList word with
  | some paths => (acc.1 ++ (Str.split ',' paths).map (resolve baseDir), acc.2)
  | none => (acc.1, acc.2 ++ [word])

/-- An `append` line. -/
def appendLine (baseDir rest : Str) (e : BootEntry) : BootEntry :=
  let acc := (Str.splitWhitespace rest).foldl (appendWord baseDir) (e.initrd, [])
  { e with
    initrd := acc.1
    cmdline := if acc.2 = [] then e.cmdline else some (Str.join " ".toList acc.2) }

/-- A keyword with its argument. -/
def keyword (baseDir : Str) (st : State) (kw rest : Str) : State :=
  let kw := Str.toAsciiLowercase kw
  if kw = "default".toList then { st with defaultLabel := some rest }
  else if kw = "label".toList then
    { st with
      entries := st.finished
      current := some { title := some rest, id := some rest, source := .extlinux } }
  else if kw = "kernel".toList ∨ kw = "linux".toList then
    st.modifyCurrent fun e => { e with kernel := some (resolve baseDir rest) }
  else if kw = "initrd".toList then
    st.modifyCurrent fun e =>
      { e with
        initrd := e.initrd ++ (Str.split ',' rest).map fun p => resolve baseDir (Str.trim p) }
  else if kw = "append".toList then st.modifyCurrent (appendLine baseDir rest)
  else st

/-- One line. -/
def step (baseDir : Str) (st : State) (rawLine : Str) : State :=
  let line := Str.trim rawLine
  if line = [] ∨ Str.startsWith line "#".toList then st
  else
    match splitKeyword line with
    | none => st
    | some (kw, rest) => keyword baseDir st kw rest

/-- The stanza that the `default` line names. -/
def findDefault (defaultLabel : Option Str) (entries : List BootEntry) : Option Nat :=
  defaultLabel.bind fun d => entries.findIdx? fun e => e.id == some d

/-- `extlinux::parse_str`. -/
def parseStr (text baseDir : Str) : ExtlinuxScan :=
  let st := (Str.lines text).foldl (step baseDir) {}
  ⟨st.finished, orFirst (findDefault st.defaultLabel st.finished) st.finished⟩

/-- `extlinux::parse`. -/
def parse (fs : FileSystem) (cfgPath : Str) : Except Error ExtlinuxScan :=
  (fs.readFile cfgPath).map fun data =>
    parseStr (Utf8.fromLossy data) (((Str.rsplitOnce '/' cfgPath).map Prod.fst).getD [])

end BootExtractor.Boot.Extlinux
