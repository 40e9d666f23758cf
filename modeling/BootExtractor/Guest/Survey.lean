import BootExtractor.Boot.Origin
import BootExtractor.Guest.Walk
import BootExtractor.Part.Indices

/-!
# What a walk sees

A walk looks at each partition on its own. Its parts are one part for each partition
that has a filesystem, and its verdict comes from the first boot manager and the first
NTFS loader in the order of the table.
-/

namespace BootExtractor.Guest

open Boot Fsys BootExtractor.Part

section Partitions

variable (readers : Readers) (disk : Device)

/-- The NTFS or ReFS volume on a partition. -/
def volume (p : Partition) : Option FsType :=
  match detected (p.open disk) with
  | some .ntfs => some .ntfs
  | some .refs => some .refs
  | _ => none

/-- The filesystem on a partition, if it can be read. -/
def readable (p : Partition) : Option (FsType × FileSystem) :=
  match detected (p.open disk) with
  | some .ext4 => (Fsys.open readers (p.open disk)).toOption.map fun fs => (.ext4, fs)
  | some .vfat => (Fsys.open readers (p.open disk)).toOption.map fun fs => (.vfat, fs)
  | _ => none

/-- The part that a partition adds. -/
def partOf (wantEntries : Bool) (p : Partition) : Option PartitionBoot :=
  match volume disk p with
  | some t => some ⟨p, t, none, {}⟩
  | none => (readable readers disk p).map fun (t, fs) =>
    ⟨p, t, some fs, if wantEntries then scanned fs else {}⟩

/-- The URI of the boot manager on a partition. -/
def managerOf (p : Partition) : Option Str :=
  (readable readers disk p).bind fun (_, fs) => (findPath fs bootManagerPath).map (uri p.index)

/-- The number of a partition whose boot code chains to a Windows loader. -/
def loaderOf (p : Partition) : Option Nat :=
  (volume disk p).bind fun _ => (vbrLoader (p.open disk)).map fun _ => p.index

/-- The first boot manager on the disk. -/
def foundManager (table : PartitionTable) : Option Str :=
  table.partitions.findSome? (managerOf readers disk)

/-- The system volume of a BIOS install. -/
def biosVolume (table : PartitionTable) : Option Nat :=
  if mbrBootstrap disk table then table.partitions.findSome? (loaderOf disk) else none

/-- The findings are what the partitions seen so far have to show. -/
structure Sees (wantEntries : Bool) (seen : List Partition) (f : Findings) : Prop where
  parts : f.parts = seen.filterMap (partOf readers disk wantEntries)
  bootManager : f.bootManager = seen.findSome? (managerOf readers disk)
  ntfsLoader : f.ntfsLoader = seen.findSome? (loaderOf disk)

/-- The walk is what the partitions of the table have to show. -/
structure Surveys (wantEntries : Bool) (table : PartitionTable) (w : Walk) : Prop where
  parts : w.parts = table.partitions.filterMap (partOf readers disk wantEntries)
  biosPart : w.biosPart = biosVolume disk table
  bootManager : w.windows.bind (·.bootManager) = foundManager readers disk table
  firmware : w.windows.bind (·.firmware) =
    firmwareOf (foundManager readers disk table).isSome (biosVolume disk table).isSome

end Partitions

variable {readers : Readers} {disk : Device} {wantEntries : Bool}

private theorem scanEntries_eq (wantEntries : Bool) (fs : FileSystem) :
    scanEntries wantEntries fs = .ok (if wantEntries then scanned fs else {}) := by
  unfold scanEntries
  cases wantEntries with
  | false => rfl
  | true =>
    rw [if_pos rfl, scan_eq]
    rfl

/-- The type of a partition adds no part. -/
@[simp] theorem parts_noteType (p : Partition) (f : Findings) :
    (noteType p f).parts = f.parts := by
  unfold noteType
  split <;> rfl

/-- The type of a partition names no boot manager. -/
@[simp] theorem bootManager_noteType (p : Partition) (f : Findings) :
    (noteType p f).bootManager = f.bootManager := by
  unfold noteType
  split <;> rfl

/-- The type of a partition names no loader. -/
@[simp] theorem ntfsLoader_noteType (p : Partition) (f : Findings) :
    (noteType p f).ntfsLoader = f.ntfsLoader := by
  unfold noteType
  split <;> rfl

/-- A boot manager adds no part. -/
@[simp] theorem parts_noteBootManager (p : Partition) (fs : FileSystem) (f : Findings) :
    (noteBootManager p fs f).parts = f.parts := by
  unfold noteBootManager
  split <;> rfl

/-- The first boot manager found is kept. -/
@[simp] theorem bootManager_noteBootManager (p : Partition) (fs : FileSystem) (f : Findings) :
    (noteBootManager p fs f).bootManager =
      f.bootManager.or ((findPath fs bootManagerPath).map (uri p.index)) := by
  unfold noteBootManager
  split
  · rename_i h
    rw [h, Option.map_none, Option.or_none]
  · rename_i path h
    rw [h]
    rfl

/-- A boot manager is no loader. -/
@[simp] theorem ntfsLoader_noteBootManager (p : Partition) (fs : FileSystem) (f : Findings) :
    (noteBootManager p fs f).ntfsLoader = f.ntfsLoader := by
  unfold noteBootManager
  split <;> rfl

/-- A boot store adds no part. -/
@[simp] theorem parts_noteBcd (p : Partition) (fs : FileSystem) (f : Findings) :
    (noteBcd p fs f).parts = f.parts := by
  unfold noteBcd
  split <;> rfl

/-- A boot store is no boot manager. -/
@[simp] theorem bootManager_noteBcd (p : Partition) (fs : FileSystem) (f : Findings) :
    (noteBcd p fs f).bootManager = f.bootManager := by
  unfold noteBcd
  split <;> rfl

/-- A boot store names no loader. -/
@[simp] theorem ntfsLoader_noteBcd (p : Partition) (fs : FileSystem) (f : Findings) :
    (noteBcd p fs f).ntfsLoader = f.ntfsLoader := by
  unfold noteBcd
  split <;> rfl

section Visit

variable {seen : List Partition} {p : Partition} {f : Findings}

/-- Findings that grow by what a partition has to show. -/
theorem Sees.extend {f' : Findings} (h : Sees readers disk wantEntries seen f)
    (hparts : f'.parts = f.parts ++ (partOf readers disk wantEntries p).toList)
    (hmanager : f'.bootManager = f.bootManager.or (managerOf readers disk p))
    (hloader : f'.ntfsLoader = f.ntfsLoader.or (loaderOf disk p)) :
    Sees readers disk wantEntries (seen ++ [p]) f' := by
  have hone : ∀ {α : Type} (g : Partition → Option α), [p].filterMap g = (g p).toList := by
    intro α g
    cases hg : g p with
    | none => simp [hg]
    | some a => simp [hg]
  have hfirst : ∀ {α : Type} (g : Partition → Option α), [p].findSome? g = g p := by
    intro α g
    cases hg : g p with
    | none => simp [hg]
    | some a => simp [hg]
  constructor
  · rw [hparts, h.parts, List.filterMap_append, hone]
  · rw [hmanager, h.bootManager, List.findSome?_append, hfirst]
  · rw [hloader, h.ntfsLoader, List.findSome?_append, hfirst]

/-- A partition on which there is nothing to see. -/
theorem Sees.skip (h : Sees readers disk wantEntries seen f) (hvolume : volume disk p = none)
    (hreadable : readable readers disk p = none) :
    Sees readers disk wantEntries (seen ++ [p]) (noteType p f) := by
  apply h.extend
  · simp [partOf, hvolume, hreadable]
  · simp [managerOf, hreadable]
  · simp [loaderOf, hvolume]

/-- A volume that cannot be read is noted by its type. -/
theorem Sees.noteVolume {t : FsType} (h : Sees readers disk wantEntries seen f)
    (hvolume : volume disk p = some t) (hreadable : readable readers disk p = none) :
    Sees readers disk wantEntries (seen ++ [p]) (noteVolume p (p.open disk) t (noteType p f)) := by
  apply h.extend
  · simp [Guest.noteVolume, partOf, hvolume]
  · simp [Guest.noteVolume, managerOf, hreadable]
  · cases hloader : vbrLoader (p.open disk) with
    | none => simp [Guest.noteVolume, loaderOf, hvolume, hloader]
    | some l => simp [Guest.noteVolume, loaderOf, hvolume, hloader]

/-- A filesystem that opens is visited. -/
theorem Sees.visitFs {t : FsType} (h : Sees readers disk wantEntries seen f)
    (hvolume : volume disk p = none)
    (hreadable : readable readers disk p =
      (Fsys.open readers (p.open disk)).toOption.map fun fs => (t, fs)) :
    ∃ f', visitFs readers wantEntries p (p.open disk) t (noteType p f) = .ok f' ∧
      Sees readers disk wantEntries (seen ++ [p]) f' := by
  unfold Guest.visitFs
  cases hopen : Fsys.open readers (p.open disk) with
  | error e =>
    rw [hopen] at hreadable
    exact ⟨_, rfl, h.skip hvolume hreadable⟩
  | ok fs =>
    rw [hopen] at hreadable
    have hfs : readable readers disk p = some (t, fs) := hreadable
    simp only [noteFs, scanEntries_eq]
    refine ⟨_, rfl, h.extend ?_ ?_ ?_⟩
    · simp [partOf, hvolume, hfs]
    · simp [managerOf, hfs]
    · simp [loaderOf, hvolume]

/-- One partition: a visit never fails, and sees what the partition has to show. -/
theorem visit_sees (p : Partition) (h : Sees readers disk wantEntries seen f) :
    ∃ f', visit readers disk wantEntries f p = .ok f' ∧
      Sees readers disk wantEntries (seen ++ [p]) f' := by
  simp only [visit]
  cases ht : detected (p.open disk) with
  | none => exact ⟨_, rfl, h.skip (by simp [volume, ht]) (by simp [readable, ht])⟩
  | some t =>
    cases t with
    | ntfs => exact ⟨_, rfl, h.noteVolume (by simp [volume, ht]) (by simp [readable, ht])⟩
    | refs => exact ⟨_, rfl, h.noteVolume (by simp [volume, ht]) (by simp [readable, ht])⟩
    | ext4 => exact h.visitFs (by simp [volume, ht]) (by simp [readable, ht])
    | vfat => exact h.visitFs (by simp [volume, ht]) (by simp [readable, ht])
    | xfs => exact ⟨_, rfl, h.skip (by simp [volume, ht]) (by simp [readable, ht])⟩
    | squashfs => exact ⟨_, rfl, h.skip (by simp [volume, ht]) (by simp [readable, ht])⟩
    | btrfs => exact ⟨_, rfl, h.skip (by simp [volume, ht]) (by simp [readable, ht])⟩
    | exfat => exact ⟨_, rfl, h.skip (by simp [volume, ht]) (by simp [readable, ht])⟩

/-- The pass over the partitions, from what has been seen before. -/
theorem foldlM_visit_sees (ps : List Partition) (h : Sees readers disk wantEntries seen f) :
    ∃ f', ps.foldlM (visit readers disk wantEntries) f = .ok f' ∧
      Sees readers disk wantEntries (seen ++ ps) f' := by
  induction ps generalizing seen f with
  | nil => exact ⟨f, rfl, by rwa [List.append_nil]⟩
  | cons p rest ih =>
    obtain ⟨f₁, hvisit, h₁⟩ := visit_sees p h
    obtain ⟨f', hrest, h'⟩ := ih h₁
    refine ⟨f', ?_, ?_⟩
    · rw [List.foldlM_cons, hvisit]
      exact hrest
    · rwa [List.append_assoc] at h'

end Visit

/-- A field of a record that is there whenever the field is. -/
theorem bind_guarded {α β : Type} {c : Bool} {x : α} {g : α → Option β}
    (h : (g x).isSome = true → c = true) : (if c then some x else none).bind g = g x := by
  cases c with
  | true => rfl
  | false =>
    cases hg : g x with
    | none => rfl
    | some y => exact absurd (h (by rw [hg]; rfl)) (by decide)

/-- The verdict on what has been seen. -/
theorem surveys_conclude {table : PartitionTable} {f : Findings}
    (h : Sees readers disk wantEntries table.partitions f) :
    Surveys readers disk wantEntries table (conclude (mbrBootstrap disk table) f) := by
  have hbios : (if mbrBootstrap disk table then f.ntfsLoader else none) =
      biosVolume disk table := by
    rw [h.ntfsLoader]
    rfl
  constructor
  · exact h.parts
  · exact hbios
  · rw [foundManager, ← h.bootManager]
    apply bind_guarded
    intro hmanager
    have hfirmware : ∀ bios, (firmwareOf f.bootManager.isSome bios).isSome = true := by
      intro bios
      cases bios <;> rw [hmanager] <;> rfl
    simp [hfirmware]
  · rw [foundManager, ← h.bootManager, ← hbios]
    apply bind_guarded
    intro hfirmware
    simp only at hfirmware
    simp [hfirmware]

/-- A walk fails only if the partition table cannot be read. -/
theorem walk_cases (readers : Readers) (disk : Device) (wantEntries : Bool) :
    (∃ e, Part.scan disk = .error e ∧ walk readers disk wantEntries = .error (.err e)) ∨
    ∃ table w, Part.scan disk = .ok table ∧ walk readers disk wantEntries = .ok w ∧
      Surveys readers disk wantEntries table w := by
  unfold walk
  cases hscan : Part.scan disk with
  | error e => exact Or.inl ⟨e, rfl, rfl⟩
  | ok table =>
    have hstart : ∀ evidence, Sees readers disk wantEntries [] { evidence := evidence } :=
      fun _ => ⟨rfl, rfl, rfl⟩
    obtain ⟨f, hfold, hsees⟩ := foldlM_visit_sees table.partitions (hstart
      (if mbrBootstrap disk table then ["mbr: Windows bootstrap code".toList] else []))
    refine Or.inr ⟨table, _, rfl, ?_, surveys_conclude hsees⟩
    simp only [liftError, bind, Except.bind]
    rw [hfold]

end BootExtractor.Guest
