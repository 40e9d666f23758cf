import BootExtractor.Cli.Extract
import BootExtractor.Cli.Shell
import BootExtractor.Part.Indices

/-!
# Reading files of an image

The commands that read a file find it by its address: on the partition that the
address names, or else on the first partition that has it.
-/

namespace BootExtractor.Cli

open Effect Fsys Kernel BootExtractor.Part

/-- Is a partition passed over? The one that is asked for is opened whatever its type. -/
def passedOver (onlyPart : Option Nat) (p : Partition) : Bool :=
  match onlyPart with
  | some idx => p.index != idx
  | none => !p.probeWorthy

/-- The loop of `open_filesystems`. What does not open is passed over, unless it is the
partition that is asked for. -/
def openParts (readers : Readers) (disk : Device) (onlyPart : Option Nat) :
    List Partition → Except Error (List Volume)
  | [] => .ok []
  | p :: rest =>
    if passedOver onlyPart p then openParts readers disk onlyPart rest
    else
      match Fsys.open readers (p.open disk) with
      | .ok fs => (openParts readers disk onlyPart rest).map ((p, fs) :: ·)
      | .error e => if onlyPart.isSome then .error e else openParts readers disk onlyPart rest

/-- `open_filesystems`. -/
def openFilesystems (readers : Readers) (disk : Device) (onlyPart : Option Nat) :
    Except Error (List Volume) := do
  let table ← Part.scan disk
  openParts readers disk onlyPart table.partitions

/-- The partition that was asked for, as the messages name it. -/
def onPartition (part : Option Nat) (otherwise : Str) : Str :=
  (part.map fun i => " on partition ".toList ++ Str.dec i).getD otherwise

/-- `require_filesystems`. -/
def requireFilesystems (readers : Readers) (disk : Device) (onlyPart : Option Nat) :
    Except Str (List Volume) :=
  match openFilesystems readers disk onlyPart with
  | .error e => .error e.display
  | .ok [] => .error ("no readable filesystem found".toList ++ onPartition onlyPart [])
  | .ok (v :: more) => .ok (v :: more)

/-- The first of the filesystems that has the file. -/
def firstFile (volumes : List Volume) (path : Str) : Option Bytes :=
  volumes.findSome? fun v => (v.2.readFile path).toOption

/-- `read_by_uri`. The partition of an address goes before the one that is asked for. -/
def readByUri (readers : Readers) (disk : Device) (address : Str) (part : Option Nat) :
    Except Str Bytes :=
  let path := (parseUri address).2
  let part := (parseUri address).1.or part
  match requireFilesystems readers disk part with
  | .error e => .error e
  | .ok volumes =>
    match firstFile volumes path with
    | some data => .ok data
    | none =>
      .error (path ++ ": not found".toList ++
        onPartition part " on any readable partition".toList)

/-- The directories that `cmd_ls` shows, with the numbers of their partitions: the first one
there is, or the one on the partition that is named. -/
def cmdLs (readers : Readers) (disk : Device) (address : Str) (part : Option Nat) :
    Except Str (List (Nat × List DirEntry)) :=
  let path := (parseUri address).2
  let part := (parseUri address).1.or part
  match requireFilesystems readers disk part with
  | .error e => .error e
  | .ok volumes =>
    let shown := volumes.filterMap fun v =>
      (v.2.readDir path).toOption.map fun listing => (v.1.index, listing)
    .ok (if part.isNone then shown.take 1 else shown)

/-- `cmd_cat`: the bytes it writes out. -/
def cmdCat (readers : Readers) (disk : Device) (path : Str) (part : Option Nat) :
    Except Str Bytes :=
  readByUri readers disk path part

/-- `cmd_cp`. -/
def cmdCp (readers : Readers) (c : Codecs) (refuses : Refusals) (disk : Device)
    (source dest : Str) (part : Option Nat) (decompress : Bool) : EStateM Failure Files PUnit := do
  let data ← ofExcept Failure.err (readByUri readers disk source part)
  let data ← ofExcept (fun e => .err e.display) (kernelData c decompress data)
  let _ ← hostly (writeDest refuses dest (parseUri source).2 data)

/-- `cmd_md5`: the line it prints. -/
def cmdMd5 (md5 : Bytes → Str) (readers : Readers) (c : Codecs) (disk : Device) (path : Str)
    (part : Option Nat) (decompress : Bool) : Except Str Str := do
  let data ← readByUri readers disk path part
  match kernelData c decompress data with
  | .error e => .error e.display
  | .ok data => .ok (md5 data ++ "  ".toList ++ path ++ ['\n'])

/-- `cmd_shell`: the passes of the loop on everything that can be read. -/
def cmdShell (readers : Readers) (disk : Device) (files : Files) (inputs : List Input) :
    Except Str (List Pass) :=
  (requireFilesystems readers disk none).map fun volumes => run volumes (start files) inputs

section Opening

variable {readers : Readers} {disk : Device}

/-- What is opened for reading are partitions of the table, in its order. -/
theorem openParts_all {ps : List Partition} {fss : List Volume}
    (h : openParts readers disk none ps = .ok fss) :
    (fss.map (·.1)).Sublist ps ∧ ∀ v ∈ fss, Fsys.open readers (v.1.open disk) = .ok v.2 := by
  induction ps generalizing fss with
  | nil =>
    cases h
    exact ⟨List.Sublist.refl _, fun _ hv => absurd hv List.not_mem_nil⟩
  | cons p rest ih =>
    rw [openParts] at h
    split at h
    · obtain ⟨hsub, hopen⟩ := ih h
      exact ⟨hsub.cons p, hopen⟩
    · split at h
      · rename_i fs hfs
        obtain ⟨more, hmore, rfl⟩ := map_eq_ok_iff.mp h
        obtain ⟨hsub, hopen⟩ := ih hmore
        refine ⟨hsub.cons_cons p, ?_⟩
        intro v hv
        rcases List.mem_cons.mp hv with rfl | hv
        · exact hfs
        · exact hopen v hv
      · obtain ⟨hsub, hopen⟩ := ih h
        exact ⟨hsub.cons p, hopen⟩

private theorem openParts_elsewhere {n : Nat} {ps : List Partition} (h : ∀ p ∈ ps, p.index ≠ n) :
    openParts readers disk (some n) ps = .ok [] := by
  induction ps with
  | nil => rfl
  | cons p rest ih =>
    have hp : passedOver (some n) p = true := bne_iff_ne.mpr (h p List.mem_cons_self)
    rw [openParts, if_pos hp]
    exact ih fun q hq => h q (List.mem_cons_of_mem _ hq)

/-- Numbers tell partitions apart, so the one that is asked for is opened and no other. -/
theorem openParts_named {ps : List Partition} (h : ps.Pairwise fun p q => p.index < q.index)
    {p : Partition} (hp : p ∈ ps) :
    openParts readers disk (some p.index) ps =
      (Fsys.open readers (p.open disk)).map fun fs => [(p, fs)] := by
  induction ps with
  | nil => cases hp
  | cons q rest ih =>
    obtain ⟨hfirst, hrest⟩ := List.pairwise_cons.mp h
    rw [openParts]
    rcases List.mem_cons.mp hp with rfl | hp
    · have hnot : ¬passedOver (some p.index) p = true := by simp [passedOver]
      rw [if_neg hnot, openParts_elsewhere fun q hq => Nat.ne_of_gt (hfirst q hq)]
      cases Fsys.open readers (p.open disk) <;> rfl
    · have hpass : passedOver (some p.index) q = true :=
        bne_iff_ne.mpr (Nat.ne_of_lt (hfirst p hp))
      rw [if_pos hpass]
      exact ih hrest hp

/-- A file on a partition that is named: it is read there, or it is said to be missing there. -/
theorem readByUri_named {table : PartitionTable} (hscan : Part.scan disk = .ok table)
    {p : Partition} (hp : p ∈ table.partitions) {fs : FileSystem}
    (hopen : Fsys.open readers (p.open disk) = .ok fs) {address path : Str} {part : Option Nat}
    (hpath : (parseUri address).2 = path) (hpart : (parseUri address).1.or part = some p.index) :
    readByUri readers disk address part =
      match fs.readFile path with
      | .ok data => .ok data
      | .error _ => .error (path ++ ": not found on partition ".toList ++ Str.dec p.index) := by
  have hnamed :=
    @openParts_named readers disk _ (numbered_scan hscan).increasing p hp
  have hfs : openFilesystems readers disk (some p.index) = .ok [(p, fs)] := by
    rw [openFilesystems, hscan]
    exact hnamed.trans (by rw [hopen]; rfl)
  simp only [readByUri, hpath, hpart, requireFilesystems, hfs]
  cases hread : fs.readFile path with
  | ok data => simp [firstFile, hread, Except.toOption]
  | error e => simp [firstFile, hread, Except.toOption, onPartition]

end Opening

end BootExtractor.Cli
