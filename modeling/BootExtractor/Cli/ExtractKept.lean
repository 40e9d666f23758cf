import BootExtractor.Cli.Extract
import BootExtractor.Guest.Kinds
import BootExtractor.Lib.Writes

/-!
# What extracting leaves in the output directory

All files go to one directory under their base names. So each of them is there with
its bytes exactly if no two of them have one name and different bytes.
-/

namespace BootExtractor.Cli

open Effect Fsys Guest Kernel

/-- The files that `extract` writes, by base name. -/
inductive Copies (c : Codecs) (opts : Options) (job : Job) : Str → Bytes → Prop where
  | kernel {data bytes : Bytes} (hread : job.fs.readFile job.kernel = .ok data)
      (hdata : kernelData c opts.decompress data = .ok bytes) :
      Copies c opts job (Str.afterLast '/' job.kernel) bytes
  | initrd {path : Str} {bytes : Bytes} (hpath : path ∈ job.entry.initrd)
      (hread : job.fs.readFile path = .ok bytes) : Copies c opts job (Str.afterLast '/' path) bytes
  | config {path : Str} {bytes : Bytes} (hpath : path ∈ job.configs)
      (hread : job.fs.readFile path = .ok bytes) : Copies c opts job (Str.afterLast '/' path) bytes
  | cmdline {text : Str} (htext : job.cmdline opts = some text) :
      Copies c opts job "cmdline".toList (Utf8.encode text)

private theorem not_mem_afterLast (c : Char) (s : Str) : c ∉ Str.afterLast c s := by
  unfold Str.afterLast
  split
  · rename_i h
    exact (Str.rsplitOnce_eq_some h).2
  · rename_i h
    exact Str.rsplitOnce_eq_none.mp h

private theorem not_mem_of_copies {c : Codecs} {opts : Options} {job : Job} {name : Str}
    {bytes : Bytes}
    (h : Copies c opts job name bytes) : '/' ∉ name := by
  cases h with
  | kernel => exact not_mem_afterLast '/' _
  | initrd => exact not_mem_afterLast '/' _
  | config => exact not_mem_afterLast '/' _
  | cmdline => decide

/-- Different names are different files of a directory. -/
theorem joinPath_inj {dir a b : Str} (ha : '/' ∉ a) (hb : '/' ∉ b)
    (h : joinPath dir a = joinPath dir b) : a = b := by
  have hrel : ∀ {name : Str}, '/' ∉ name → Str.startsWith name "/".toList = false := by
    intro name hname
    rw [Bool.eq_false_iff, ne_eq, Str.startsWith_iff]
    intro hstart
    exact hname (hstart.subset (List.mem_singleton_self '/'))
  simp only [joinPath, hrel ha, hrel hb, Bool.false_eq_true, if_false] at h
  split at h
  · exact List.append_cancel_left h
  · exact (List.cons.inj (List.append_cancel_left h)).2

/-- Setting a path is a pointwise update. -/
theorem Files.set_eq_update (files : Files) (path : Str) (node : Node) :
    files.set path node = Function.update files path (some node) := by
  funext p
  by_cases h : p = path
  · rw [h, files.set_same, Function.update_self]
  · rw [Files.set_other h, Function.update_of_ne h]

/-- A file of the output directory as a write. -/
def place (output : Str) (w : Str × Bytes) : Str × Node := (joinPath output w.1, .file w.2)

/-- The directory is there, and what was written to it are the files with the property. -/
structure Wrote (output : Str) (P : Str → Bytes → Prop) (t : Files) : Prop where
  dir : t.isDir output
  writes : ∃ (base : Files) (ws : List (Str × Bytes)),
    (∀ name bytes, (name, bytes) ∈ ws ↔ P name bytes) ∧
      t = Writes.apply base (ws.map (place output))

section Steps

variable {refuses : Refusals} {output : Str} {P Q : Str → Bytes → Prop} {t : Files}

/-- What was written may be described another way. -/
theorem Wrote.congr (h : Wrote output P t) (hpq : ∀ name bytes, P name bytes ↔ Q name bytes) :
    Wrote output Q t := by
  obtain ⟨base, ws, hws, he⟩ := h.writes
  exact ⟨h.dir, base, ws, fun name bytes => (hws name bytes).trans (hpq name bytes), he⟩

/-- A host call fails with its message. -/
@[simp] theorem yields_hostly {α : Type} (x : EStateM Str Files α) {Q : α → Files → Prop}
    {E : Failure → Files → Prop} :
    Yields (hostly x) Q E t ↔ Yields x Q (fun e => E (.err e)) t := by
  simp only [Yields, hostly, EStateM.adaptExcept]
  cases x t <;> rfl

/-- A write that succeeds changes its path and was not to a directory. -/
theorem yields_write (path : Str) (data : Bytes) :
    Yields (write refuses path data)
      (fun _ t' => path ≠ [] ∧ t.isDir path = false ∧ t' = t.set path (.file data))
      (fun _ _ => True) t := by
  unfold Yields write
  split_ifs with hempty hdir
  · trivial
  · trivial
  · rw [Bool.or_eq_true, not_or] at hdir
    cases refuses path with
    | some r => trivial
    | none => exact ⟨hempty, Bool.eq_false_iff.mpr hdir.1, rfl⟩

private theorem isDir_set {path dir : Str} {data : Bytes} (hdir : t.isDir dir)
    (hpath : t.isDir path = false) : (t.set path (.file data)).isDir dir := by
  have hne : dir ≠ path := by
    rintro rfl
    rw [hdir] at hpath
    cases hpath
  simpa only [Files.isDir, Files.set_other hne] using hdir

/-- A write into the directory is one more of its files. -/
theorem Wrote.write (h : Wrote output P t) (name : Str) (data : Bytes) :
    Yields (write refuses (joinPath output name) data)
      (fun _ => Wrote output fun n b => P n b ∨ (n = name ∧ b = data)) (fun _ _ => True) t := by
  refine (yields_write _ data).mono ?_ fun _ _ _ => trivial
  rintro _ _ ⟨_, hpath, rfl⟩
  obtain ⟨base, ws, hws, he⟩ := h.writes
  refine ⟨isDir_set h.dir hpath, base, ws ++ [(name, data)], ?_, ?_⟩
  · intro n b
    rw [List.mem_append, List.mem_singleton, hws, Prod.mk.injEq]
  · rw [List.map_append, List.map_singleton, Writes.apply_concat, ← he, Files.set_eq_update]
    rfl

/-- Writing a file adds it to what was written. -/
theorem Wrote.writeDest (h : Wrote output P t) (path : Str) (data : Bytes) :
    Yields (writeDest refuses output path data)
      (fun _ => Wrote output fun n b => P n b ∨ (n = Str.afterLast '/' path ∧ b = data))
      (fun _ _ => True) t := by
  simp only [Cli.writeDest, yields_bind, yields_get, yields_mapError, h.dir, if_true]
  exact h.write _ data

variable (c : Codecs) (opts : Options) (job : Job)

/-- Copying a file adds it under its base name. -/
theorem Wrote.copy (h : Wrote opts.output P t) (path : Str) :
    Yields (copy refuses opts job path)
      (fun _ => Wrote opts.output fun n b =>
        P n b ∨ (n = Str.afterLast '/' path ∧ job.fs.readFile path = .ok b))
      (fun _ _ => True) t := by
  simp only [Cli.copy, readNamed, yields_bind, yields_ofExcept, yields_hostly]
  refine ⟨fun data hdata => ?_, fun _ _ => trivial⟩
  refine (h.writeDest path data).mono (fun _ t' ht => ?_) fun _ _ _ => trivial
  apply ht.congr
  intro n b
  rw [hdata, Except.ok.injEq]
  exact or_congr_right (and_congr_right fun _ => eq_comm)

/-- Copying a list adds each of its files. -/
theorem Wrote.copyAll (h : Wrote opts.output P t) (paths : List Str) :
    Yields (forM paths (Cli.copy refuses opts job))
      (fun _ => Wrote opts.output fun n b =>
        P n b ∨ ∃ path ∈ paths, n = Str.afterLast '/' path ∧ job.fs.readFile path = .ok b)
      (fun _ _ => True) t := by
  apply yields_forM (I := fun done => Wrote opts.output fun n b =>
    P n b ∨ ∃ path ∈ done, n = Str.afterLast '/' path ∧ job.fs.readFile path = .ok b)
  · intro done path rest s _ hs
    refine (hs.copy opts job path).mono (fun _ t' ht => ?_) fun _ _ _ => trivial
    apply ht.congr
    intro n b
    simp only [List.mem_append, List.mem_singleton, or_and_right, exists_or, exists_eq_left,
      or_assoc]
  · apply h.congr
    simp

/-- Copying the kernel adds it, unwrapped where that is asked for. -/
theorem Wrote.copyKernel (h : Wrote opts.output P t) :
    Yields (copyKernel c refuses opts job)
      (fun _ => Wrote opts.output fun n b => P n b ∨ (n = Str.afterLast '/' job.kernel ∧
        ∃ data, job.fs.readFile job.kernel = .ok data ∧ kernelData c opts.decompress data = .ok b))
      (fun _ _ => True) t := by
  simp only [Cli.copyKernel, readNamed, yields_bind, yields_ofExcept, yields_hostly]
  refine ⟨fun data hdata => ⟨fun bytes hbytes => ?_, fun _ _ => trivial⟩, fun _ _ => trivial⟩
  refine (h.writeDest job.kernel bytes).mono (fun _ t' ht => ?_) fun _ _ _ => trivial
  apply ht.congr
  intro n b
  simp only [hdata, Except.ok.injEq, exists_eq_left', hbytes]
  exact or_congr_right (and_congr_right fun _ => eq_comm)

/-- The command line is added under its own name. -/
theorem Wrote.writeCmdline (h : Wrote opts.output P t) :
    Yields (writeCmdline refuses opts job)
      (fun _ => Wrote opts.output fun n b => P n b ∨
        ∃ text, job.cmdline opts = some text ∧ n = "cmdline".toList ∧ b = Utf8.encode text)
      (fun _ _ => True) t := by
  unfold Cli.writeCmdline
  cases hcmd : job.cmdline opts with
  | none =>
    rw [yields_pure]
    apply h.congr
    simp
  | some text =>
    simp only [yields_hostly]
    refine (h.write "cmdline".toList (Utf8.encode text)).mono (fun _ t' ht => ?_) fun _ _ _ =>
      trivial
    apply ht.congr
    simp

/-- Making the output directory writes no file. -/
private theorem yields_createDirAll :
    Yields (createDirAll refuses output)
      (fun _ t' => output = [] ∨ Wrote output (fun _ _ => False) t') (fun _ _ => True) t := by
  have hwrote : ∀ t' : Files, t'.isDir output → Wrote output (fun _ _ => False) t' := fun t' h =>
    ⟨h, t', [], by simp, rfl⟩
  unfold Yields createDirAll
  split_ifs with hempty
  · exact Or.inl hempty
  · cases hnode : t output with
    | some node =>
      cases node with
      | dir => exact Or.inr (hwrote t (by simp [Files.isDir, hempty, hnode]))
      | file data => trivial
    | none =>
      cases refuses output with
      | some r => trivial
      | none => exact Or.inr (hwrote _ (by simp [Files.isDir, hempty]))

/-- Nothing is copied to a directory without a name. -/
theorem yields_copyKernel_nil (houtput : opts.output = []) :
    Yields (copyKernel c refuses opts job) (fun _ _ => False) (fun _ _ => True) t := by
  simp only [Cli.copyKernel, readNamed, yields_bind, yields_ofExcept, yields_hostly, houtput]
  refine ⟨fun data _ => ⟨fun bytes _ => ?_, fun _ _ => trivial⟩, fun _ _ => trivial⟩
  simp only [Cli.writeDest, yields_bind, yields_get, yields_mapError, Files.isDir]
  refine (yields_write _ _).mono ?_ fun _ _ _ => trivial
  rintro _ _ ⟨hne, _⟩
  exact hne rfl

/-- All files of a job are written, and no others. -/
theorem yields_extractJob :
    Yields (extractJob c refuses opts job) (fun _ => Wrote opts.output (Copies c opts job))
      (fun _ _ => True) t := by
  simp only [extractJob, yields_bind, yields_hostly]
  refine yields_createDirAll.mono ?_ fun _ _ _ => trivial
  rintro _ t₀ (hempty | h₀)
  · rw [yields_bind]
    exact (yields_copyKernel_nil c opts job hempty).mono (fun _ _ h => h.elim) fun _ _ _ => trivial
  rw [yields_bind]
  refine (h₀.copyKernel c opts job).mono (fun _ t₁ h₁ => ?_) fun _ _ _ => trivial
  rw [yields_bind]
  refine (h₁.copyAll opts job _).mono (fun _ t₂ h₂ => ?_) fun _ _ _ => trivial
  rw [yields_bind]
  refine (h₂.copyAll opts job _).mono (fun _ t₃ h₃ => ?_) fun _ _ _ => trivial
  refine (h₃.writeCmdline opts job).mono (fun _ t₄ h₄ => ?_) fun _ _ _ => trivial
  apply h₄.congr
  intro name bytes
  constructor
  · rintro ((((⟨⟨⟩⟩ | ⟨rfl, data, hread, hdata⟩) | ⟨path, hpath, rfl, hread⟩) |
      ⟨path, hpath, rfl, hread⟩) | ⟨text, htext, rfl, rfl⟩)
    · exact .kernel hread hdata
    · exact .initrd hpath hread
    · exact .config hpath hread
    · exact .cmdline htext
  · intro h
    cases h with
    | kernel hread hdata => exact Or.inl (Or.inl (Or.inl (Or.inr ⟨rfl, _, hread, hdata⟩)))
    | initrd hpath hread => exact Or.inl (Or.inl (Or.inr ⟨_, hpath, rfl, hread⟩))
    | config hpath hread => exact Or.inl (Or.inr ⟨_, hpath, rfl, hread⟩)
    | cmdline htext => exact Or.inr ⟨_, htext, rfl, rfl⟩

end Steps

/-- Every file of the job is in the output directory with exactly its bytes. -/
def Kept (c : Codecs) (opts : Options) (job : Job) (files : Files) : Prop :=
  ∀ name bytes, Copies c opts job name bytes →
    files (joinPath opts.output name) = some (.file bytes)

/-- Files of one name have the same bytes. -/
def Agree (c : Codecs) (opts : Options) (job : Job) : Prop :=
  ∀ name bytes bytes', Copies c opts job name bytes → Copies c opts job name bytes' →
    bytes = bytes'

/-- Where files were written as they stand, they are kept exactly if no two share a name and
differ. -/
theorem Wrote.kept_iff {c : Codecs} {opts : Options} {job : Job} {t : Files}
    (h : Wrote opts.output (Copies c opts job) t) : Kept c opts job t ↔ Agree c opts job := by
  obtain ⟨base, ws, hws, rfl⟩ := h.writes
  have hplaced : ∀ p node, (p, node) ∈ ws.map (place opts.output) ↔
      ∃ name bytes, Copies c opts job name bytes ∧ p = joinPath opts.output name ∧
        node = .file bytes := by
    intro p node
    simp only [List.mem_map, place, Prod.exists, Prod.mk.injEq, hws]
    constructor
    · rintro ⟨name, bytes, hcopy, rfl, rfl⟩
      exact ⟨name, bytes, hcopy, rfl, rfl⟩
    · rintro ⟨name, bytes, hcopy, rfl, rfl⟩
      exact ⟨name, bytes, hcopy, rfl, rfl⟩
  have hwrites := @Writes.apply_eq_iff _ _ _ base (ws.map (place opts.output))
  simp only [hplaced] at hwrites
  constructor
  · intro hkept
    have hagree := hwrites.mp (by
      rintro k v ⟨name, bytes, hcopy, rfl, rfl⟩
      exact hkept name bytes hcopy)
    intro name bytes bytes' hcopy hcopy'
    exact Node.file.inj
      (hagree _ _ _ ⟨name, bytes, hcopy, rfl, rfl⟩ ⟨name, bytes', hcopy', rfl, rfl⟩)
  · intro hagree name bytes hcopy
    refine hwrites.mpr ?_ _ _ ⟨name, bytes, hcopy, rfl, rfl⟩
    rintro k v v' ⟨n, b, hb, rfl, rfl⟩ ⟨n', b', hb', hn, rfl⟩
    obtain rfl := joinPath_inj (not_mem_of_copies hb) (not_mem_of_copies hb') hn
    rw [hagree n b b' hb hb']

/-- After a successful extraction every copied file is there with its own bytes exactly if no
two of them have the same base name and different bytes; the file of the command line counts
as one of them. -/
theorem extract_keeps_iff {readers : Readers} {c : Codecs} {refuses : Refusals} {disk : Device}
    {opts : Options} (hdry : opts.dryRun = false) {files files' : Files}
    (h : cmdExtract readers c refuses disk opts files = .ok ⟨⟩ files') :
    ∃ job, select readers disk opts.entry = .ok job ∧
      (Kept c opts job files' ↔ Agree c opts job) := by
  have hspec : Yields (cmdExtract readers c refuses disk opts)
      (fun _ t => ∃ job, select readers disk opts.entry = .ok job ∧
        Wrote opts.output (Copies c opts job) t) (fun _ _ => True) files := by
    simp only [cmdExtract, yields_bind, yields_ofExcept, hdry, Bool.false_eq_true, if_false]
    refine ⟨fun job hjob => ?_, fun _ _ => trivial⟩
    exact (yields_extractJob c opts job).mono (fun _ t ht => ⟨job, hjob, ht⟩) fun _ _ _ => trivial
  obtain ⟨job, hjob, hwrote⟩ := hspec.of_ok h
  exact ⟨job, hjob, hwrote.kept_iff⟩

/-- A menu, and the file that an upgrade of the boot loader leaves in its old place. -/
def menuConfig : Bytes := Utf8.encode "menuentry 'a' \x7b\nlinux /vmlinuz ro\n\x7d\n".toList

/-- A config of one comment. -/
def movedConfig : Bytes := Utf8.encode "# moved\n".toList

/-- A grub.cfg in each of two directories. -/
def twoConfigs : FileSystem where
  readDir p := .error (.notFound p)
  readFile p :=
    if p = "/boot/grub/grub.cfg".toList then .ok menuConfig
    else if p = "/boot/grub2/grub.cfg".toList then .ok movedConfig
    else if p = "/vmlinuz".toList then .ok [1]
    else .error (.notFound p)
  «exists» p :=
    p ∈ ["/boot/grub/grub.cfg".toList, "/boot/grub2/grub.cfg".toList, "/vmlinuz".toList]
  readPrefix p _ := .error (.notFound p)
  fileSize p := .error (.notFound p)
  readLink _ := none

/-- A disk that holds it. -/
def twoConfigsDisk : Device := (bareFat "TWO CONFIGS").device

/-- Readers that know this disk. -/
def twoConfigsReaders : Readers where
  ext4 _ := .error (.ext4 "bad superblock".toList)
  vfat dev :=
    if beginsWith dev (fatSector "TWO CONFIGS") then .ok twoConfigs
    else .error (.vfat "unknown volume".toList)

/-- Extraction into a directory of its own. -/
def toOut : Options := { output := "out".toList }

/-- Extracting on a machine that refuses nothing. -/
def extractTwo : EStateM Failure Files PUnit :=
  cmdExtract twoConfigsReaders noCodecs (fun _ => none) twoConfigsDisk toOut

private theorem extractTwo_ok : answer extractTwo (fun _ => none) = .ok ⟨⟩ := by decide +kernel

/-- What two configs of one name come down to. -/
theorem extract_keeps_two :
    ∃ job, select twoConfigsReaders twoConfigsDisk none = .ok job ∧
      (Kept noCodecs toOut job (after extractTwo fun _ => none) ↔ Agree noCodecs toOut job) := by
  have hdry : toOut.dryRun = false := rfl
  have h := eq_ok_of_answer extractTwo_ok
  exact extract_keeps_iff hdry h

/-- The configs that are copied, and their bytes. -/
theorem select_twoConfigs :
    (select twoConfigsReaders twoConfigsDisk none).map (fun job =>
      (job.configs, job.fs.readFile "/boot/grub/grub.cfg".toList,
        job.fs.readFile "/boot/grub2/grub.cfg".toList)) =
      .ok (["/boot/grub/grub.cfg".toList, "/boot/grub2/grub.cfg".toList],
        .ok menuConfig, .ok movedConfig) := by
  decide +kernel

/-- Both are called grub.cfg, and only one of them is left. -/
theorem configs_overwritten :
    ¬∀ files', extractTwo (fun _ => none) = .ok ⟨⟩ files' →
      ∀ job, select twoConfigsReaders twoConfigsDisk none = .ok job →
        Kept noCodecs toOut job files' := by
  intro h
  cases hselect : select twoConfigsReaders twoConfigsDisk none with
  | error f =>
    have hmap := select_twoConfigs
    rw [hselect] at hmap
    cases hmap
  | ok job =>
    have hmap := select_twoConfigs
    rw [hselect] at hmap
    simp only [Except.map, Except.ok.injEq, Prod.mk.injEq] at hmap
    obtain ⟨hconfigs, hfirst, hsecond⟩ := hmap
    have hkept := h _ (eq_ok_of_answer extractTwo_ok) job hselect
    have hfirst' := hkept _ _ (.config (by rw [hconfigs]; exact List.mem_cons_self) hfirst)
    have hsecond' := hkept _ _
      (.config (by rw [hconfigs]; exact List.mem_cons_of_mem _ List.mem_cons_self) hsecond)
    have hsame : Str.afterLast '/' "/boot/grub/grub.cfg".toList =
        Str.afterLast '/' "/boot/grub2/grub.cfg".toList := by decide +kernel
    rw [hsame, hsecond'] at hfirst'
    exact absurd (Node.file.inj (Option.some.inj hfirst')) (by decide +kernel)

end BootExtractor.Cli
