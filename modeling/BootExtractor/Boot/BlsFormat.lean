import BootExtractor.Boot.BlsOrder
import BootExtractor.Boot.ExtlinuxRun
import BootExtractor.Lib.Alternation

/-!
# Entry files and their text

An entry file is a list of fields, one a line, with any whitespace around keys and values,
among comments, blank lines, keys without a value and keys that nobody asks for. Reading a
directory of such files gives the entries that the fields describe, newest first.
-/

namespace BootExtractor.Boot.Bls

open Extlinux (Blank)

section Format

/-- A value: one line of text with no blanks at its ends. -/
structure IsValue (s : Str) : Prop where
  ne_nil : s ≠ []
  trimmed : Str.trim s = s
  oneLine : '\n' ∉ s

/-- The value of a field. -/
abbrev Value := { s : Str // IsValue s }

/-- A line of an entry file that says something. -/
inductive Field where
  | title (v : Value)
  | version (v : Value)
  | linux (v : Value)
  | initrd (words : List Str)
  | options (v : Value)

namespace Field

/-- The title that a field gives. -/
def title? : Field → Option Str
  | title v => some v.val
  | _ => none

/-- The version that a field gives. -/
def version? : Field → Option Str
  | version v => some v.val
  | _ => none

/-- The kernel that a field gives. -/
def linux? : Field → Option Str
  | linux v => some v.val
  | _ => none

/-- The ramdisks that a field gives. -/
def initrds : Field → List Str
  | initrd words => words
  | _ => []

/-- The options that a field gives. -/
def options? : Field → Option Str
  | options v => some v.val
  | _ => none

end Field

/-- The kernel command line of options, if there is anything in it. -/
def commandLine (options : List Str) : Option Str :=
  if Str.trim (Str.join " ".toList options) = [] then none
  else some (Str.trim (Str.join " ".toList options))

/-- The entry that fields describe: the last title, version and kernel, and all initial RAM
disks and options in their order. -/
def entryOf (env : Env) (stem : Str) (fields : List Field) : BootEntry where
  id := some stem
  source := .bls
  title := (fields.filterMap Field.title?).getLast?
  version := (fields.filterMap Field.version?).getLast?
  kernel := (fields.filterMap Field.linux?).getLast?.map absolute
  initrd := (fields.flatMap Field.initrds).map absolute
  cmdline := commandLine ((fields.filterMap Field.options?).map (expand · env))

/-- The keys that mean something. -/
def knownKeys : List Str :=
  ["title".toList, "version".toList, "linux".toList, "initrd".toList, "options".toList]

/-- A row with a key and something behind it. -/
inductive Framed (key arg : Str) : Str → Prop where
  | mk {before gap : Str} (hbefore : Blank before) (hgap : Blank gap) (hne : gap ≠ []) :
      Framed key arg (before ++ key ++ gap ++ arg)

/-- A row that says nothing. -/
inductive Noise : Str → Prop where
  | blank {row : Str} (h : Blank row) : Noise row
  | comment {before text : Str} (hbefore : Blank before) (htext : '\n' ∉ text) :
      Noise (before ++ '#' :: text)
  /-- A key without a value, known or not. -/
  | lone {before key after : Str} (hbefore : Blank before)
      (hkey : ∀ c ∈ key, Str.isWhitespace c = false) (hafter : Blank after) :
      Noise (before ++ key ++ after)
  | unrelated {key arg row : Str} (hne : key ≠ []) (hkey : ∀ c ∈ key, Str.isWhitespace c = false)
      (hcomment : key.head? ≠ some '#') (hunknown : key ∉ knownKeys) (harg : Str.trim arg ≠ [])
      (hline : '\n' ∉ arg) (h : Framed key arg row) : Noise row

/-- A row that says this. -/
inductive RowOf : Field → Str → Prop where
  | title {v : Value} {after row : Str} (hafter : Blank after)
      (h : Framed "title".toList (v.val ++ after) row) : RowOf (.title v) row
  | version {v : Value} {after row : Str} (hafter : Blank after)
      (h : Framed "version".toList (v.val ++ after) row) : RowOf (.version v) row
  | linux {v : Value} {after row : Str} (hafter : Blank after)
      (h : Framed "linux".toList (v.val ++ after) row) : RowOf (.linux v) row
  | initrd {words : List Str} {parts : Parts Char} {row : Str}
      (hparts : parts.Valid Str.isWhitespace)
      (hwords : parts.map Prod.fst = words) (hne : words ≠ []) (hline : '\n' ∉ Parts.text parts)
      (h : Framed "initrd".toList (Parts.text parts) row) : RowOf (.initrd words) row
  | options {v : Value} {after row : Str} (hafter : Blank after)
      (h : Framed "options".toList (v.val ++ after) row) : RowOf (.options v) row

/-- Rows with these fields in this order. -/
inductive Renders : List Field → List Str → Prop where
  | nil : Renders [] []
  | noise {fields : List Field} {row : Str} {rows : List Str} (h : Noise row)
      (hrest : Renders fields rows) : Renders fields (row :: rows)
  | field {f : Field} {fields : List Field} {row : Str} {rows : List Str} (h : RowOf f row)
      (hrest : Renders fields rows) : Renders (f :: fields) (row :: rows)

end Format

section Rows

variable {env : Env} {acc : Parsed}

/-- A key without whitespace is told from its value. -/
theorem splitOnce_framed {key arg row : Str} (hne : key ≠ [])
    (hkey : ∀ c ∈ key, Str.isWhitespace c = false) (harg : Str.trim arg ≠ [])
    (h : Framed key arg row) :
    ∃ rest, Str.trim row = key ++ rest ∧
      ∃ value, Str.splitOnce Str.isWhitespace (Str.trim row) = some (key, value) ∧
        Str.trim value = Str.trim arg := by
  cases h with
  | @mk before gap hbefore hgap hgapne =>
    have hnone : ∀ c ∈ ([] : Str), Str.isWhitespace c = true := fun _ h => absurd h List.not_mem_nil
    have htrim : Str.trim (before ++ key ++ gap ++ arg) = key ++ Str.trimEnd (gap ++ arg) := by
      have hstart : Str.trimStart (key ++ (gap ++ arg)) = key ++ (gap ++ arg) := by
        obtain ⟨c, key, rfl⟩ := List.exists_cons_of_ne_nil hne
        exact List.dropWhile_cons_of_neg (Bool.eq_false_iff.mp (hkey c List.mem_cons_self))
      have hblanks := @Str.trim_blanks before (key ++ (gap ++ arg)) [] hbefore.space hnone
      rw [List.append_nil, ← List.append_assoc, ← List.append_assoc] at hblanks
      rw [hblanks, Str.trim, hstart]
      exact Str.trimEnd_append_text fun c hc => hkey c (List.mem_of_mem_getLast? hc)
    have htail : Str.trim (gap ++ arg) = Str.trim arg := by
      have hblanks := @Str.trim_blanks gap arg [] hgap.space hnone
      rwa [List.append_nil] at hblanks
    obtain ⟨c, gap, rfl⟩ := List.exists_cons_of_ne_nil hgapne
    have hc : Str.isWhitespace c = true := hgap.space c List.mem_cons_self
    obtain ⟨more, hmore⟩ := List.rdropWhile_prefix Str.isWhitespace (c :: gap ++ arg)
    change Str.trimEnd (c :: gap ++ arg) ++ more = c :: gap ++ arg at hmore
    cases hend : Str.trimEnd (c :: gap ++ arg) with
    | nil =>
      have hblank := List.rdropWhile_eq_nil_iff.mp hend
      exact absurd (htail.symm.trans (Str.trim_eq_nil_iff.mpr hblank)) harg
    | cons d value =>
      rw [hend] at hmore
      obtain rfl : d = c := (List.cons.inj hmore).1
      have hvalue : Str.trim value = Str.trim arg := by
        have hblanks := @Str.trim_blanks [d] value [] (List.forall_mem_singleton.mpr hc) hnone
        rw [List.append_nil] at hblanks
        rw [← htail, ← Str.trim_trimEnd (d :: gap ++ arg), hend]
        exact hblanks.symm
      rw [htrim, hend]
      exact ⟨d :: value, rfl, value, Str.splitOnce_append hkey hc, hvalue⟩

/-- What a key with its value does to an entry file so far. -/
def keyEffect (env : Env) (acc : Parsed) (key value : Str) : Parsed :=
  if key = "title".toList then ({ acc.1 with title := some value }, acc.2)
  else if key = "version".toList then ({ acc.1 with version := some value }, acc.2)
  else if key = "linux".toList then ({ acc.1 with kernel := some (absolute value) }, acc.2)
  else if key = "initrd".toList then
    ({ acc.1 with initrd := acc.1.initrd ++ (Str.splitWhitespace value).map absolute }, acc.2)
  else if key = "options".toList then (acc.1, acc.2 ++ [expand value env])
  else acc

/-- A row with a key and a value is what the key says. -/
theorem parseLine_framed {key arg row : Str} (hne : key ≠ [])
    (hkey : ∀ c ∈ key, Str.isWhitespace c = false) (hcomment : key.head? ≠ some '#')
    (harg : Str.trim arg ≠ []) (h : Framed key arg row) :
    parseLine env acc row = keyEffect env acc key (Str.trim arg) := by
  obtain ⟨rest, hrow, value, hsplit, hvalue⟩ := splitOnce_framed hne hkey harg h
  have hskip : ¬(Str.trim row = [] ∨ Str.startsWith (Str.trim row) "#".toList = true) := by
    obtain ⟨c, key, rfl⟩ := List.exists_cons_of_ne_nil hne
    rw [hrow]
    rintro (h | h)
    · exact List.cons_ne_nil _ _ h
    · obtain ⟨t, ht⟩ := Str.startsWith_iff.mp h
      have hc : '#' = c := (List.cons.inj ht).1
      exact hcomment (by rw [hc]; rfl)
  rw [parseLine]
  simp only [if_neg hskip, hsplit, hvalue]
  rfl

/-- What a field does to an entry file so far. -/
def Field.apply (env : Env) (acc : Parsed) : Field → Parsed
  | .title v => ({ acc.1 with title := some v.val }, acc.2)
  | .version v => ({ acc.1 with version := some v.val }, acc.2)
  | .linux v => ({ acc.1 with kernel := some (absolute v.val) }, acc.2)
  | .initrd words => ({ acc.1 with initrd := acc.1.initrd ++ words.map absolute }, acc.2)
  | .options v => (acc.1, acc.2 ++ [expand v.val env])

/-- The keys that mean something are words and no comments. -/
private theorem known_clean {key : Str} (h : key ∈ knownKeys) :
    key ≠ [] ∧ (∀ c ∈ key, Str.isWhitespace c = false) ∧ key.head? ≠ some '#' := by
  have hknown : ∀ key ∈ knownKeys, key ≠ [] ∧
      (key.all fun c => decide (Str.isWhitespace c = false)) = true ∧ key.head? ≠ some '#' := by
    decide +kernel
  obtain ⟨hne, hall, hhead⟩ := hknown key h
  exact ⟨hne, Str.forall_of_all hall, hhead⟩

/-- Blanks behind a value are no part of it. -/
theorem Value.trim_append (v : Value) {after : Str} (hafter : Blank after) :
    Str.trim (v.val ++ after) = v.val := by
  have hnone : ∀ c ∈ ([] : Str), Str.isWhitespace c = true := fun _ h => absurd h List.not_mem_nil
  have hblanks := @Str.trim_blanks [] v.val after hnone hafter.space
  rw [List.nil_append, v.property.trimmed] at hblanks
  exact hblanks

/-- A value with blanks behind it is not empty when they are off. -/
theorem Value.trim_append_ne (v : Value) {after : Str} (hafter : Blank after) :
    Str.trim (v.val ++ after) ≠ [] := by
  rw [v.trim_append hafter]
  exact v.property.ne_nil

/-- A row of a known key. -/
theorem parseLine_known {key arg row : Str} (hkey : key ∈ knownKeys) (harg : Str.trim arg ≠ [])
    (h : Framed key arg row) :
    parseLine env acc row = keyEffect env acc key (Str.trim arg) := by
  obtain ⟨hne, hspace, hcomment⟩ := known_clean hkey
  exact parseLine_framed hne hspace hcomment harg h

/-- A row has the effect of what it says. -/
theorem parseLine_row {f : Field} {row : Str} (h : RowOf f row) :
    parseLine env acc row = f.apply env acc := by
  cases h with
  | @title v after _ hafter h =>
    have htrim := v.trim_append hafter
    rw [parseLine_known (by simp [knownKeys]) (v.trim_append_ne hafter) h, htrim, keyEffect,
      if_pos rfl]
    rfl
  | @version v after _ hafter h =>
    have htrim := v.trim_append hafter
    rw [parseLine_known (by simp [knownKeys]) (v.trim_append_ne hafter) h, htrim, keyEffect,
      if_neg (by decide), if_pos rfl]
    rfl
  | @linux v after _ hafter h =>
    have htrim := v.trim_append hafter
    rw [parseLine_known (by simp [knownKeys]) (v.trim_append_ne hafter) h, htrim, keyEffect,
      if_neg (by decide), if_neg (by decide), if_pos rfl]
    rfl
  | @initrd words parts _ hparts hwords hne hline h =>
    have hsplit : Str.splitWhitespace (Str.trim (Parts.text parts)) = words := by
      rw [Str.splitWhitespace_trim, Str.splitWhitespace_parts hparts, hwords]
    have harg : Str.trim (Parts.text parts) ≠ [] := by
      intro hnil
      rw [hnil] at hsplit
      exact hne hsplit.symm
    rw [parseLine_known (by simp [knownKeys]) harg h, keyEffect, hsplit, if_neg (by decide),
      if_neg (by decide), if_neg (by decide), if_pos rfl]
    rfl
  | @options v after _ hafter h =>
    have htrim := v.trim_append hafter
    rw [parseLine_known (by simp [knownKeys]) (v.trim_append_ne hafter) h, htrim, keyEffect,
      if_neg (by decide), if_neg (by decide), if_neg (by decide), if_neg (by decide), if_pos rfl]
    rfl

/-- A row that starts with `#` is a comment. -/
theorem parseLine_comment {row : Str} (h : (Str.trim row).head? = some '#') :
    parseLine env acc row = acc := by
  obtain ⟨rest, hrest⟩ : ∃ rest, Str.trim row = '#' :: rest := by
    cases hrow : Str.trim row with
    | nil =>
      rw [hrow] at h
      cases h
    | cons c rest =>
      rw [hrow] at h
      exact ⟨rest, by rw [Option.some.inj h]⟩
  rw [parseLine, hrest]
  exact if_pos (Or.inr rfl)

/-- A row that says nothing changes nothing. -/
theorem parseLine_noise {row : Str} (h : Noise row) : parseLine env acc row = acc := by
  have hnone : ∀ c ∈ ([] : Str), Str.isWhitespace c = true := fun _ h => absurd h List.not_mem_nil
  cases h with
  | blank h =>
    have htrim : Str.trim row = [] := Str.trim_eq_nil_iff.mpr h.space
    rw [parseLine, htrim]
    exact if_pos (Or.inl rfl)
  | @comment before text hbefore htext =>
    refine parseLine_comment ?_
    have hblanks := @Str.trim_blanks before ('#' :: text) [] hbefore.space hnone
    rw [List.append_nil] at hblanks
    rw [hblanks]
    have hstart : Str.trimStart ('#' :: text) = '#' :: text := rfl
    have hfront : Str.trimEnd (['#'] ++ text) = ['#'] ++ Str.trimEnd text :=
      Str.trimEnd_append_text fun c hc => by cases hc; rfl
    rw [Str.trim, hstart]
    exact congrArg List.head? hfront
  | @lone before key after hbefore hkey hafter =>
    have htrim : Str.trim (before ++ key ++ after) = key :=
      Str.trim_between hbefore.space hkey hafter.space
    rw [parseLine, htrim, Str.splitOnce_eq_none.mpr hkey]
    exact ite_self acc
  | @unrelated key arg _ hne hkey hcomment hunknown harg hline h =>
    simp only [knownKeys, List.mem_cons, List.not_mem_nil, or_false, not_or] at hunknown
    obtain ⟨htitle, hversion, hlinux, hinitrd, hoptions⟩ := hunknown
    rw [parseLine_framed hne hkey hcomment harg h, keyEffect, if_neg htitle, if_neg hversion,
      if_neg hlinux, if_neg hinitrd, if_neg hoptions]

/-- Rows have the effect of their fields, by induction on the rows. -/
theorem Renders.foldl_parseLine {fields : List Field} {rows : List Str} (h : Renders fields rows)
    (acc : Parsed) :
    rows.foldl (parseLine env) acc = fields.foldl (Field.apply env) acc := by
  induction h generalizing acc with
  | nil => rfl
  | noise h hrest ih => rw [List.foldl_cons, parseLine_noise h, ih]
  | field h hrest ih => rw [List.foldl_cons, List.foldl_cons, parseLine_row h, ih]

/-- A row with a key is one line. -/
theorem Framed.oneLine {key arg row : Str} (hkey : ∀ c ∈ key, Str.isWhitespace c = false)
    (harg : '\n' ∉ arg) (h : Framed key arg row) : '\n' ∉ row := by
  cases h with
  | mk hbefore hgap hne =>
    simp only [List.mem_append, not_or]
    refine ⟨⟨⟨hbefore.oneLine, ?_⟩, hgap.oneLine⟩, harg⟩
    intro hmem
    exact absurd (hkey _ hmem) (by decide)

/-- A row that says nothing is one line. -/
theorem Noise.oneLine {row : Str} (h : Noise row) : '\n' ∉ row := by
  cases h with
  | blank h => exact h.oneLine
  | comment hbefore htext =>
    rw [List.mem_append, List.mem_cons, not_or, not_or]
    exact ⟨hbefore.oneLine, by decide, htext⟩
  | lone hbefore hkey hafter =>
    rw [List.mem_append, List.mem_append, not_or, not_or]
    exact ⟨⟨hbefore.oneLine, fun hmem => absurd (hkey _ hmem) (by decide)⟩, hafter.oneLine⟩
  | unrelated _ hkey _ _ _ hline h => exact h.oneLine hkey hline

/-- The row of a field is one line. -/
theorem RowOf.oneLine {f : Field} {row : Str} (h : RowOf f row) : '\n' ∉ row := by
  have hvalue (v : Value) {after : Str} (hafter : Blank after) : '\n' ∉ v.val ++ after := by
    rw [List.mem_append, not_or]
    exact ⟨v.property.oneLine, hafter.oneLine⟩
  cases h with
  | title hafter h => exact h.oneLine (known_clean (by simp [knownKeys])).2.1 (hvalue _ hafter)
  | version hafter h => exact h.oneLine (known_clean (by simp [knownKeys])).2.1 (hvalue _ hafter)
  | linux hafter h => exact h.oneLine (known_clean (by simp [knownKeys])).2.1 (hvalue _ hafter)
  | initrd _ _ _ hline h => exact h.oneLine (known_clean (by simp [knownKeys])).2.1 hline
  | options hafter h => exact h.oneLine (known_clean (by simp [knownKeys])).2.1 (hvalue _ hafter)

/-- All rows of a text are one line each. -/
theorem Renders.oneLine {fields : List Field} {rows : List Str} (h : Renders fields rows) :
    ∀ row ∈ rows, '\n' ∉ row := by
  induction h with
  | nil => exact fun _ hrow => absurd hrow List.not_mem_nil
  | noise hnoise _ ih => exact List.forall_mem_cons.mpr ⟨hnoise.oneLine, ih⟩
  | field hfield _ ih => exact List.forall_mem_cons.mpr ⟨hfield.oneLine, ih⟩

end Rows

section Files

variable {env : Env} {stem : Str}

/-- What fields do one after the other is what they describe together, by induction on the
fields from the last one on. -/
theorem foldl_apply (env : Env) (stem : Str) (fields : List Field) :
    fields.foldl (Field.apply env) ({ id := some stem, source := .bls }, []) =
      ({ entryOf env stem fields with cmdline := none },
        (fields.filterMap Field.options?).map (expand · env)) := by
  induction fields using List.reverseRecOn with
  | nil => rfl
  | append_singleton fields f ih =>
    rw [List.foldl_append, ih, List.foldl_cons, List.foldl_nil]
    cases f <;>
      simp [Field.apply, entryOf, Field.title?, Field.version?, Field.linux?, Field.initrds,
        Field.options?, List.filterMap_append]

/-- The text of a file is read as the entry that its fields describe. -/
theorem parseEntry_renders {fields : List Field} {rows : List Str} (h : Renders fields rows)
    (env : Env) (stem : Str) :
    parseEntry env stem (Str.join ['\n'] rows) = entryOf env stem fields := by
  have htrim (acc : Parsed) (row : Str) :
      parseLine env acc row = parseLine env acc (Str.trim row) := by
    rw [parseLine, parseLine, Str.trim_trim]
  have hnil (acc : Parsed) : parseLine env acc [] = acc := by
    rw [parseLine]
    exact if_pos (Or.inl rfl)
  have hlines := @Str.foldl_lines_join _ (parseLine env) htrim hnil _ h.oneLine
    ({ id := some stem, source := .bls }, [])
  rw [parseEntry, hlines, h.foldl_parseLine, foldl_apply]
  simp only [entryOf, commandLine]
  split <;> rfl

/-- A file with an entry in it. -/
structure EntryFile where
  stem : Str
  fields : List Field
  rows : List Str
  renders : Renders fields rows
  /-- All of the extension is taken off a name, however often it stands there. -/
  stem_ends : ¬".conf".toList <:+ stem

namespace EntryFile

/-- The file name of an entry file. -/
def name (w : EntryFile) : Str := w.stem ++ ".conf".toList

/-- The bytes of an entry file. -/
def content (w : EntryFile) : Bytes := Utf8.encode (Str.join ['\n'] w.rows)

/-- The entry that the file describes, with its stem. -/
def item (env : Env) (w : EntryFile) : Item := (w.stem, entryOf env w.stem w.fields)

/-- The stem of the name is found again. -/
private theorem stem_name (w : EntryFile) : Str.trimEndMatches ".conf".toList w.name = w.stem := by
  refine (Str.trimEndMatches_eq_iff (by decide)).mpr ⟨⟨1, ?_⟩, w.stem_ends⟩
  rw [List.replicate_one, List.flatten_singleton]
  rfl

end EntryFile

/-- The entry files among what a directory lists; the rest are directories, have other
names or cannot be read. -/
inductive Lists (fs : FileSystem) (dir : Str) : List DirEntry → List EntryFile → Prop where
  | nil : Lists fs dir [] []
  | other {f : DirEntry} {listing : List DirEntry} {files : List EntryFile}
      (h : f.kind = .dir ∨ Str.endsWith f.name ".conf".toList = false ∨
        ∃ e, fs.readFile (dir ++ '/' :: f.name) = .error e)
      (hrest : Lists fs dir listing files) : Lists fs dir (f :: listing) files
  | file {f : DirEntry} {w : EntryFile} {listing : List DirEntry} {files : List EntryFile}
      (hkind : f.kind ≠ .dir) (hname : f.name = w.name)
      (hread : fs.readFile (dir ++ '/' :: w.name) = .ok w.content)
      (hrest : Lists fs dir listing files) : Lists fs dir (f :: listing) (w :: files)

/-- The files that are read from a directory are its entry files. -/
theorem filterMap_readItem {fs : FileSystem} {dir : Str} {listing : List DirEntry}
    {files : List EntryFile} (h : Lists fs dir listing files) (env : Env) :
    listing.filterMap (readItem fs dir env) =
      files.map fun w => (dir ++ '/' :: w.name, w.item env) := by
  induction h with
  | nil => rfl
  | @other f listing files h hrest ih =>
    have hnone : readItem fs dir env f = none := by
      rw [readItem]
      split
      · rfl
      · rename_i hkeep
        rw [not_or] at hkeep
        rcases h with h | h | ⟨e, h⟩
        · exact absurd h hkeep.1
        · rw [h] at hkeep
          exact absurd rfl hkeep.2
        · simp only [h]
    rw [List.filterMap_cons, hnone]
    exact ih
  | @file f w listing files hkind hname hread hrest ih =>
    have hends : Str.endsWith w.name ".conf".toList = true :=
      List.isSuffixOf_iff_suffix.mpr ⟨w.stem, rfl⟩
    have hsome : readItem fs dir env f = some (dir ++ '/' :: w.name, w.item env) := by
      have hkeep : ¬(f.kind = .dir ∨ (!Str.endsWith f.name ".conf".toList) = true) := by
        rw [hname, hends, not_or]
        exact ⟨hkind, Bool.false_ne_true⟩
      rw [readItem, if_neg hkeep]
      simp only [hname, hread, w.stem_name, EntryFile.content, Utf8.fromLossy_encode,
        parseEntry_renders w.renders]
      rfl
    rw [List.filterMap_cons, hsome, ih]
    rfl

/-- A directory of entry files is read as the entries that the files describe, newest first,
with the default that the environment or the pattern names among them. -/
theorem parseDir_renders {fs : FileSystem} {dir : Str} {listing : List DirEntry}
    {files : List EntryFile} (hlist : fs.readDir dir = .ok listing)
    (h : Lists fs dir listing files) (env : Env) (sdDefault : Option Str) :
    parseDir fs dir env sdDefault =
      .ok (scanOf env sdDefault (files.map (EntryFile.item env)),
        files.map fun w => dir ++ '/' :: w.name) := by
  have hread := filterMap_readItem h env
  have hitems : readable fs dir env listing = files.map (EntryFile.item env) := by
    rw [readable, hread, List.map_map]
    rfl
  rw [parseDir_eq hlist, hitems, hread, List.map_map]
  rfl

section Sample

/-- An entry file with its fields in another order, a comment and an unknown key. -/
def fedoraRows : List Str :=
  ["# entry".toList, "title\tFedora 40 ".toList, "sort-key fedora".toList,
    "linux vmlinuz\r".toList, "options root=$root ro".toList, "initrd /a.img  /b.img".toList]

/-- The title in it. -/
def fedoraTitle : Value := ⟨"Fedora 40".toList, by decide, by decide, by decide⟩

/-- The kernel in it, with a relative path. -/
def fedoraKernel : Value := ⟨"vmlinuz".toList, by decide, by decide, by decide⟩

/-- The options in it, with a variable. -/
def fedoraOptions : Value := ⟨"root=$root ro".toList, by decide, by decide, by decide⟩

/-- What the file says. -/
def fedoraFields : List Field :=
  [.title fedoraTitle, .linux fedoraKernel, .options fedoraOptions,
    .initrd ["/a.img".toList, "/b.img".toList]]

/-- A row by the parts that it is put together of. -/
private theorem framed_of_eq {key arg row : Str} (before gap : Str) (hbefore : Blank before)
    (hgap : Blank gap) (hne : gap ≠ []) (h : row = before ++ key ++ gap ++ arg) :
    Framed key arg row := by
  rw [h]
  exact .mk hbefore hgap hne

/-- The rows say this. -/
private theorem fedoraRows_renders : Renders fedoraFields fedoraRows := by
  have hnone : Blank [] := Str.forall_of_all rfl
  have hblank : Blank " ".toList := Str.forall_of_all rfl
  have htab : Blank "\t".toList := Str.forall_of_all rfl
  have hreturn : Blank "\r".toList := Str.forall_of_all rfl
  have hkey : ∀ c ∈ "sort-key".toList, Str.isWhitespace c = false := Str.forall_of_all rfl
  have htitle : Framed "title".toList (fedoraTitle.val ++ " ".toList) "title\tFedora 40 ".toList :=
    framed_of_eq [] "\t".toList hnone htab (by decide) (by decide)
  have hsort : Framed "sort-key".toList "fedora".toList "sort-key fedora".toList :=
    framed_of_eq [] " ".toList hnone hblank (by decide) (by decide)
  have hlinux : Framed "linux".toList (fedoraKernel.val ++ "\r".toList) "linux vmlinuz\r".toList :=
    framed_of_eq [] " ".toList hnone hblank (by decide) (by decide)
  have hoptions :
      Framed "options".toList (fedoraOptions.val ++ []) "options root=$root ro".toList :=
    framed_of_eq [] " ".toList hnone hblank (by decide) (by decide)
  have hparts : Parts.Valid Str.isWhitespace
      [("/a.img".toList, "  ".toList), ("/b.img".toList, [])] :=
    ⟨by decide, Str.forall_of_all rfl, Str.forall_of_all rfl, Or.inr (by decide), by decide,
      Str.forall_of_all rfl, fun _ hc => absurd hc List.not_mem_nil, Or.inl rfl, trivial⟩
  have hinitrd : Framed "initrd".toList
      (Parts.text [("/a.img".toList, "  ".toList), ("/b.img".toList, [])])
      "initrd /a.img  /b.img".toList :=
    framed_of_eq [] " ".toList hnone hblank (by decide) (by decide)
  have hcomment : Noise "# entry".toList := @Noise.comment [] " entry".toList hnone (by decide)
  exact .noise hcomment (.field (.title hblank htitle)
    (.noise (.unrelated (by decide) hkey (by decide) (by decide) (by decide) (by decide) hsort)
      (.field (.linux hreturn hlinux) (.field (.options hnone hoptions)
        (.field (.initrd hparts rfl (by decide) (by decide) hinitrd) .nil)))))

/-- The entry file. -/
def fedoraFile : EntryFile where
  stem := "fedora".toList
  fields := fedoraFields
  rows := fedoraRows
  renders := fedoraRows_renders
  stem_ends := by decide

/-- A directory with the file and one more that is no entry file. -/
def fedoraDirectory : FileSystem where
  readDir _ := .ok [⟨"README".toList, .file⟩, ⟨"fedora.conf".toList, .file⟩]
  readFile _ := .ok fedoraFile.content
  «exists» _ := true
  readPrefix path _ := .error (.notFound path)
  fileSize path := .error (.notFound path)
  readLink _ := none

/-- An environment with a root device. -/
def rootEnv : Env := fun name => if name = "root".toList then some "/dev/sda1".toList else none

/-- The entry that it describes. -/
def fedoraEntry : BootEntry where
  id := some "fedora".toList
  title := some "Fedora 40".toList
  kernel := some "/vmlinuz".toList
  initrd := ["/a.img".toList, "/b.img".toList]
  cmdline := some "root=/dev/sda1 ro".toList
  source := .bls

/-- The directory is read back as this entry. -/
theorem parseDir_renders_fedora :
    parseDir fedoraDirectory "e".toList rootEnv none =
      .ok (⟨[fedoraEntry], some 0⟩, ["e/fedora.conf".toList]) := by
  have hlists : Lists fedoraDirectory "e".toList
      [⟨"README".toList, .file⟩, ⟨"fedora.conf".toList, .file⟩] [fedoraFile] :=
    .other (Or.inr (Or.inl (by decide))) (.file (by decide) rfl rfl .nil)
  rw [parseDir_renders rfl hlists rootEnv none]
  decide +kernel

end Sample

end Files

end BootExtractor.Boot.Bls
