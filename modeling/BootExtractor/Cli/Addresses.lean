import BootExtractor.Boot.Absolute
import BootExtractor.Cli.Agreement
import BootExtractor.Cli.Files

/-!
# Addresses that can be used

The commands print where the files of an entry are as `pN:/path`. Such an address leads
back to the file it was printed for, whichever command it is given to, so copying the
files one by one does what extracting the entry does.
-/

namespace BootExtractor.Cli

open Boot Effect Fsys Guest Kernel BootExtractor.Part

/-- The paths that are printed with the number of the partition. -/
def addressed (pb : PartitionBoot) : List Str :=
  pb.scan.entries.flatMap BootEntry.paths ++ pb.scan.configs

/-- A partition whose filesystem is open, with paths of it that are absolute. -/
structure Reaches (readers : Readers) (disk : Device) (p : Partition) (fs : FileSystem) : Prop where
  exists_table : ∃ table, Part.scan disk = .ok table ∧ p ∈ table.partitions
  opens : Fsys.open readers (p.open disk) = .ok fs

section Listed

variable {readers : Readers} {disk : Device} {parts : List PartitionBoot} {pb : PartitionBoot}
  {fs : FileSystem}

private theorem open_of_readable {p : Partition} {t : FsType}
    (h : readable readers disk p = some (t, fs)) :
    Fsys.open readers (p.open disk) = .ok fs := by
  unfold readable at h
  split at h
  · obtain ⟨fs', hopen, heq⟩ := Option.map_eq_some_iff.mp h
    cases heq
    exact ok_of_toOption hopen
  · obtain ⟨fs', hopen, heq⟩ := Option.map_eq_some_iff.mp h
    cases heq
    exact ok_of_toOption hopen
  · cases h

/-- A listed partition with a filesystem is one that can be opened again, and what it names are
absolute paths. -/
theorem reaches_of_listed (h : bootable readers disk = .ok parts) (hpb : pb ∈ parts)
    (hfs : pb.fs = some fs) :
    Reaches readers disk pb.partition fs ∧ ∀ path ∈ addressed pb, Absolute path := by
  rcases bootable_cases readers disk with ⟨e, _, _, hboot⟩ | ⟨table, w, hscan, _, hsurveys, hboot⟩
  · rw [h] at hboot
    cases hboot
  rw [h] at hboot
  obtain rfl := Except.ok.inj hboot
  obtain ⟨pb₀, h₀, rfl, -⟩ := mem_listing.mp hpb
  obtain ⟨p, hp, hpart⟩ := (mem_parts hsurveys).mp h₀
  have hfs₀ : pb₀.fs = some fs := hfs
  unfold partOf at hpart
  split at hpart
  · cases hpart
    cases hfs₀
  obtain ⟨⟨t, fs'⟩, hr, rfl⟩ := Option.map_eq_some_iff.mp hpart
  obtain rfl := Option.some.inj hfs₀
  refine ⟨⟨⟨table, hscan, hp⟩, open_of_readable hr⟩, ?_⟩
  intro path hpath
  obtain ⟨hentries, hconfigs⟩ := absolute_scanned fs'
  rcases List.mem_append.mp hpath with hpath | hpath
  · obtain ⟨e, he, hpath⟩ := List.mem_flatMap.mp hpath
    rcases mem_finish.mp he with ⟨e₀, he₀, hsweep⟩ | hextra
    · have hrooted := hentries e₀ he₀
      rcases sweep_cases hsweep with ⟨_, rfl⟩ | ⟨_, _, _, _, _, _, rfl⟩
      · exact hrooted path hpath
      · exact hrooted path hpath
    · obtain ⟨_, win, firmware, _, _, rfl⟩ := detection_eq_some_iff.mp (mem_extra.mp hextra)
      cases hpath
  · exact hconfigs path hpath

/-- An address of a partition leads to the filesystem of the partition. -/
theorem Reaches.read {p : Partition} {path : Str} (h : Reaches readers disk p fs)
    (hpath : Absolute path) (part : Option Nat) :
    (parseUri (uri p.index path)).2 = path ∧
      readByUri readers disk (uri p.index path) part =
        match fs.readFile path with
        | .ok data => .ok data
        | .error _ => .error (path ++ ": not found on partition ".toList ++ Str.dec p.index) := by
  obtain ⟨table, hscan, hp⟩ := h.exists_table
  have hparse := parseUri_uri ((numbered_scan hscan).range p hp).2 hpath
  refine ⟨by rw [hparse], ?_⟩
  exact readByUri_named hscan hp h.opens (by rw [hparse]) (by rw [hparse]; rfl)

/-- What `boot-info`, `entries` and `extract` print as the address of a kernel, a ramdisk or a
config is read as that file of that filesystem, whatever partition is asked for besides; if
it cannot be read, the message names the path and the partition. -/
theorem readByUri_addressed (h : bootable readers disk = .ok parts) (hpb : pb ∈ parts)
    (hfs : pb.fs = some fs) {path : Str} (hpath : path ∈ addressed pb) (part : Option Nat) :
    readByUri readers disk (uri pb.partition.index path) part =
      match fs.readFile path with
      | .ok data => .ok data
      | .error _ =>
        .error (path ++ ": not found on partition ".toList ++ Str.dec pb.partition.index) := by
  obtain ⟨hreaches, habsolute⟩ := reaches_of_listed h hpb hfs
  exact (hreaches.read (habsolute path hpath) part).2

/-- What is taken from an entry that can be extracted. -/
theorem of_openEntry {index : Nat} {e : BootEntry} {job : Job}
    (h : openEntry disk pb index e = .ok job) :
    pb.fs = some job.fs ∧ job.entry = e ∧ e.kernel = some job.kernel ∧
      job.configs = pb.scan.configs := by
  cases hwindows : e.windows with
  | some w => simp [openEntry, hwindows] at h
  | none =>
    cases hfs : pb.fs with
    | none => simp [openEntry, hwindows, hfs] at h
    | some fs =>
      cases hkernel : e.kernel with
      | none => simp [openEntry, hwindows, hfs, hkernel] at h
      | some kernel =>
        simp only [openEntry, hwindows, hfs, hkernel] at h
        split at h
        · cases h
        split at h
        · cases h
        · cases h
          exact ⟨rfl, rfl, rfl, rfl⟩

/-- A path found by its parts is absolute. -/
private theorem absolute_findPath {parts : List Str} (hparts : parts ≠ []) {path : Str}
    (h : findPath fs parts = some path) : Absolute path := by
  -- every step puts a slash in front of the name it adds
  have hfold : ∀ (parts : List Str) (front : Str), (front = [] ∧ parts ≠ []) ∨ Absolute front →
      ∀ path, parts.foldlM (fun path part =>
        (findName fs (if path = [] then "/".toList else path) part).map fun name =>
          path ++ '/' :: name) front = some path → Absolute path := by
    intro parts
    induction parts with
    | nil =>
      rintro front (⟨_, hne⟩ | hfront) path h
      · exact absurd rfl hne
      · obtain rfl := Option.some.inj h
        exact hfront
    | cons part rest ih =>
      intro front hfront path h
      rw [List.foldlM_cons] at h
      obtain ⟨next, hnext, h⟩ := Option.bind_eq_some_iff.mp h
      obtain ⟨name, -, rfl⟩ := Option.map_eq_some_iff.mp hnext
      have hbelow : Absolute (front ++ '/' :: name) :=
        absolute_below (hfront.imp_left And.left) name
      exact ih _ (Or.inr hbelow) path h
  exact hfold parts [] (Or.inl ⟨rfl, hparts⟩) path h

/-- The loader of a Windows entry is the first boot manager on the disk. -/
theorem loader_of_listed {table : PartitionTable} {w : Walk}
    (h : Surveys readers disk true table w) (hpb : pb ∈ w.listing) {e : BootEntry}
    (he : e ∈ pb.scan.entries) {b : WindowsBoot} (hb : e.windows = some b) :
    b.loader = foundManager readers disk table := by
  obtain ⟨pb₀, h₀, rfl, -⟩ := mem_listing.mp hpb
  rw [← h.bootManager]
  rcases mem_finish.mp he with ⟨e₀, he₀, hsweep⟩ | hextra
  · obtain ⟨s, _, hfrom⟩ := from_of_mem_parts h h₀ he₀
    unfold Walk.sweep sweepEntry at hsweep
    split at hsweep
    · cases hsweep
      rw [hfrom.windows] at hb
      cases hb
    split at hsweep
    · cases hsweep
      cases hb
      rfl
    · cases hsweep
  · obtain ⟨_, win, firmware, ⟨hwin, _⟩, _, rfl⟩ := detection_eq_some_iff.mp (mem_extra.mp hextra)
    cases hb
    rw [hwin]
    rfl

/-- The loader that is printed for a Windows entry is the address of the boot manager that was
found, on whichever partition that is, and it is read from there. -/
theorem readByUri_loader (h : bootable readers disk = .ok parts) (hpb : pb ∈ parts) {e : BootEntry}
    (he : e ∈ pb.scan.entries) {b : WindowsBoot} (hb : e.windows = some b) {u : Str}
    (hu : b.loader = some u) (part : Option Nat) :
    ∃ (p : Partition) (fs : FileSystem) (path : Str), Reaches readers disk p fs ∧
      findPath fs bootManagerPath = some path ∧ u = uri p.index path ∧
      readByUri readers disk u part =
        match fs.readFile path with
        | .ok data => .ok data
        | .error _ => .error (path ++ ": not found on partition ".toList ++ Str.dec p.index) := by
  rcases bootable_cases readers disk with ⟨e, _, _, hboot⟩ | ⟨table, w, hscan, _, hsurveys, hboot⟩
  · rw [h] at hboot
    cases hboot
  rw [h] at hboot
  obtain rfl := Except.ok.inj hboot
  have hfound := loader_of_listed hsurveys hpb he hb
  rw [hu] at hfound
  obtain ⟨p, hp, hmanager⟩ := List.exists_of_findSome?_eq_some hfound.symm
  obtain ⟨⟨t, fs⟩, hr, hpath⟩ := Option.bind_eq_some_iff.mp hmanager
  obtain ⟨path, hfind, rfl⟩ := Option.map_eq_some_iff.mp hpath
  have hreaches : Reaches readers disk p fs := ⟨⟨table, hscan, hp⟩, open_of_readable hr⟩
  have hparts : bootManagerPath ≠ [] := List.cons_ne_nil _ _
  exact ⟨p, fs, path, hreaches, hfind, rfl,
    (hreaches.read (absolute_findPath hparts hfind) part).2⟩

/-- What `extract` works on is an entry of the best partition. -/
theorem exists_part_of_select {entryArg : Option Nat} {job : Job}
    (h : select readers disk entryArg = .ok job) :
    ∃ pb, bestBootScan readers disk = .ok (some pb) ∧ pb.fs = some job.fs ∧
      job.entry ∈ pb.scan.entries ∧ job.entry.kernel = some job.kernel ∧
      job.configs = pb.scan.configs := by
  obtain ⟨best, hbest, h⟩ := bind_eq_ok_iff.mp h
  have hscan : bestBootScan readers disk = .ok best := by
    unfold ofFault at hbest
    split at hbest
    · rename_i b hb
      rw [hb, Except.ok.inj hbest]
    · cases hbest
  cases best with
  | none => cases h
  | some pb =>
    obtain ⟨index, -, h⟩ := bind_eq_ok_iff.mp h
    cases he : pb.scan.entries[index]? with
    | none =>
      rw [he] at h
      cases h
    | some e =>
      rw [he] at h
      refine ⟨pb, hscan, ?_⟩
      obtain ⟨hfs, rfl, hkernel, hconfigs⟩ := of_openEntry h
      exact ⟨hfs, List.mem_of_getElem? he, hkernel, hconfigs⟩

/-- The paths of a selected job are addressed on its partition. -/
theorem job_addressed {job : Job} (he : job.entry ∈ pb.scan.entries)
    (hkernel : job.entry.kernel = some job.kernel) (hconfigs : job.configs = pb.scan.configs) :
    job.kernel ∈ addressed pb ∧ ∀ path ∈ job.entry.initrd ++ job.configs, path ∈ addressed pb := by
  have hentry : ∀ path ∈ job.entry.paths, path ∈ addressed pb := fun path hpath =>
    List.mem_append_left _ (List.mem_flatMap.mpr ⟨job.entry, he, hpath⟩)
  constructor
  · apply hentry
    simp [BootEntry.paths, hkernel]
  · intro path hpath
    rcases List.mem_append.mp hpath with hpath | hpath
    · exact hentry path (List.mem_append_right _ hpath)
    · rw [hconfigs] at hpath
      exact List.mem_append_right _ hpath

end Listed

/-- The kernel of a disk with one menu, read by its address. -/
theorem readByUri_addressed_two :
    readByUri twoConfigsReaders twoConfigsDisk (uri 1 "/vmlinuz".toList) (some 7) = .ok [1] := by
  have hlisted : (bootable twoConfigsReaders twoConfigsDisk).toOption.any (fun parts =>
      parts.any fun pb => decide (pb.partition.index = 1 ∧ "/vmlinuz".toList ∈ addressed pb) &&
        pb.fs.any fun fs => (fs.readFile "/vmlinuz".toList).toOption == some [1]) = true := by
    decide +kernel
  obtain ⟨parts, hparts, hany⟩ := (Option.any_eq_true _ _).mp hlisted
  obtain ⟨pb, hpb, hboth⟩ := List.any_eq_true.mp hany
  obtain ⟨hnamed, hfs⟩ := Bool.and_eq_true_iff.mp hboth
  obtain ⟨hindex, hpath⟩ := of_decide_eq_true hnamed
  obtain ⟨fs, hfs, hread⟩ := (Option.any_eq_true _ _).mp hfs
  have haddressed := readByUri_addressed (ok_of_toOption hparts) hpb hfs hpath (some 7)
  rwa [hindex, ok_of_toOption (beq_iff_eq.mp hread)] at haddressed

/-- The loader of a menu that starts Windows. -/
theorem readByUri_loader_mixed :
    ∃ (p : Partition) (fs : FileSystem) (path : Str), Reaches mixedReaders mixedDisk p fs ∧
      findPath fs bootManagerPath = some path ∧
      "p1:/EFI/Microsoft/Boot/bootmgfw.efi".toList = uri p.index path ∧
      readByUri mixedReaders mixedDisk "p1:/EFI/Microsoft/Boot/bootmgfw.efi".toList none =
        match fs.readFile path with
        | .ok data => .ok data
        | .error _ => .error (path ++ ": not found on partition ".toList ++ Str.dec p.index) := by
  have hlisted : (bootable mixedReaders mixedDisk).toOption.any (fun parts =>
      parts.any fun pb => pb.scan.entries.any fun e =>
        (e.windows.bind (·.loader)) ==
          some "p1:/EFI/Microsoft/Boot/bootmgfw.efi".toList) = true := by
    decide +kernel
  obtain ⟨parts, hparts, hany⟩ := (Option.any_eq_true _ _).mp hlisted
  obtain ⟨pb, hpb, hentries⟩ := List.any_eq_true.mp hany
  obtain ⟨e, he, hloader⟩ := List.any_eq_true.mp hentries
  obtain ⟨b, hb, hu⟩ := Option.bind_eq_some_iff.mp (beq_iff_eq.mp hloader)
  exact readByUri_loader (ok_of_toOption hparts) hpb he hb hu none

section Copying

variable {readers : Readers} {disk : Device} {fs : FileSystem} {p : Partition}

/-- A copy by address, with the file read where it is. -/
theorem quiet_cmdCp (h : Reaches readers disk p fs) {path : Str} (hpath : Absolute path)
    (c : Codecs) (refuses : Refusals) (dest : Str) (decompress : Bool) :
    quiet (cmdCp readers c refuses disk (uri p.index path) dest none decompress) =
      quiet (do
        let data ← readNamed fs path
        let data ← ofExcept (fun e => .err e.display) (kernelData c decompress data)
        let _ ← hostly (writeDest refuses dest path data)) := by
  obtain ⟨hparse, hread⟩ := h.read hpath none
  have hsame : quiet (ofExcept Failure.err (readByUri readers disk (uri p.index path) none) :
      EStateM Failure Files Bytes) = quiet (readNamed fs path) := by
    apply quiet_ofExcept
    rw [hread]
    cases fs.readFile path <;> rfl
  rw [cmdCp, hparse, quiet_bind, hsame, ← quiet_bind]

end Copying

/-- Extracting by hand: the kernel, the ramdisks and the configs are copied by their addresses
on a partition. -/
def copyOut (readers : Readers) (c : Codecs) (refuses : Refusals) (disk : Device) (opts : Options)
    (job : Job) (n : Nat) : EStateM Failure Files PUnit := do
  hostly (createDirAll refuses opts.output)
  cmdCp readers c refuses disk (uri n job.kernel) opts.output none opts.decompress
  forM (job.entry.initrd ++ job.configs) fun path =>
    cmdCp readers c refuses disk (uri n path) opts.output none false
  writeCmdline refuses opts job

/-- Copying the files of an entry by their addresses, one after the other, does what extracting
the entry does, on every machine: it ends at the same file, and leaves the same files. Only
the errors are worded differently. -/
theorem extract_eq_copies {readers : Readers} {disk : Device} {opts : Options} {job : Job}
    (hjob : select readers disk opts.entry = .ok job) (hdry : opts.dryRun = false) (c : Codecs)
    (refuses : Refusals) :
    ∃ pb, bestBootScan readers disk = .ok (some pb) ∧
      quiet (cmdExtract readers c refuses disk opts) =
        quiet (copyOut readers c refuses disk opts job pb.partition.index) := by
  obtain ⟨pb, hbest, hfs, he, hkernel, hconfigs⟩ := exists_part_of_select hjob
  obtain ⟨parts, hparts, hpb⟩ := mem_of_bestBootScan hbest
  obtain ⟨hreaches, habsolute⟩ := reaches_of_listed hparts hpb hfs
  obtain ⟨hkernelOf, hothers⟩ := job_addressed he hkernel hconfigs
  refine ⟨pb, hbest, ?_⟩
  have hkernelCp : quiet (copyKernel c refuses opts job) = quiet (cmdCp readers c refuses disk
      (uri pb.partition.index job.kernel) opts.output none opts.decompress) :=
    (quiet_cmdCp hreaches (habsolute _ hkernelOf) c refuses opts.output opts.decompress).symm
  have hcopies : ∀ paths : List Str, (∀ path ∈ paths, path ∈ addressed pb) →
      quiet (forM paths (copy refuses opts job)) = quiet (forM paths fun path =>
        cmdCp readers c refuses disk (uri pb.partition.index path) opts.output none false) := by
    intro paths hpaths
    apply quiet_forM
    intro path hpath
    rw [quiet_cmdCp hreaches (habsolute _ (hpaths path hpath)) c refuses opts.output false]
    rfl
  have hinitrd := hcopies job.entry.initrd fun path hpath =>
    hothers path (List.mem_append_left _ hpath)
  have hconfig := hcopies job.configs fun path hpath =>
    hothers path (List.mem_append_right _ hpath)
  have hextract : cmdExtract readers c refuses disk opts = extractJob c refuses opts job := by
    funext files
    rw [cmdExtract, hjob, hdry]
    rfl
  simp only [hextract, extractJob, copyOut, quiet_bind, hkernelCp, hinitrd, hconfig,
    List.forM_append, bind_assoc]

/-- Extracting from a disk with one menu. -/
theorem extract_eq_copies_two :
    ∃ job pb, select twoConfigsReaders twoConfigsDisk none = .ok job ∧
      bestBootScan twoConfigsReaders twoConfigsDisk = .ok (some pb) ∧
      quiet (cmdExtract twoConfigsReaders noCodecs (fun _ => none) twoConfigsDisk toOut) =
        quiet (copyOut twoConfigsReaders noCodecs (fun _ => none) twoConfigsDisk toOut job
          pb.partition.index) := by
  have hselect : (select twoConfigsReaders twoConfigsDisk none).toOption.isSome = true := by
    decide +kernel
  obtain ⟨job, hjob⟩ := Option.isSome_iff_exists.mp hselect
  obtain ⟨pb, hbest, heq⟩ :=
    @extract_eq_copies twoConfigsReaders twoConfigsDisk toOut job (ok_of_toOption hjob) rfl noCodecs
      fun _ => none
  exact ⟨job, pb, ok_of_toOption hjob, hbest, heq⟩

end BootExtractor.Cli
