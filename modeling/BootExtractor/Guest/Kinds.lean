import BootExtractor.Boot.Authority
import BootExtractor.Guest.Detection
import BootExtractor.Part.Geometry

/-!
# The two kinds of listed entries

An entry is to start a kernel that is there, or Windows with no kernel at all. The
sweeps look at the chainloader of an entry and never at its kernel next to it, so an
entry that has both is listed with both.
-/

namespace BootExtractor.Guest

open Boot Bytes Fsys BootExtractor.Part

/-- An entry starts a kernel that is on the filesystem, or else it starts Windows and names
neither a kernel nor a ramdisk. -/
def OfKind (fs : Option FileSystem) (e : BootEntry) : Prop :=
  (e.windows = none ∧ e.chainloader = none ∧
    ∃ kernel, e.kernel = some kernel ∧ ∃ fs', fs = some fs' ∧ fs'.exists kernel = true) ∨
  (e.windows ≠ none ∧ e.kernel = none ∧ e.initrd = [])

/-- Everything that the listing returns is of one of the two kinds. -/
def AllOfKind (readers : Readers) (disk : Device) : Prop :=
  ∀ parts, bootable readers disk = .ok parts →
    ∀ pb ∈ parts, ∀ e ∈ pb.scan.entries, OfKind pb.fs e

/-- The source that precedence picks on some filesystem has an entry that starts the boot
manager of the disk and names a kernel or a ramdisk as well. -/
def Mixed (readers : Readers) (disk : Device) : Prop :=
  ∃ table, Part.scan disk = .ok table ∧ ∃ u, foundManager readers disk table = some u ∧
    ∃ p ∈ table.partitions, ∃ t fs, readable readers disk p = some (t, fs) ∧
      ∃ picked, Picked fs picked ∧ ∃ e ∈ picked, ∃ target, e.chainloader = some target ∧
        sameFile target (pathOf u) = true ∧ (e.kernel ≠ none ∨ e.initrd ≠ [])

section Surveyed

variable {readers : Readers} {disk : Device} {table : PartitionTable} {w : Walk}

/-- The entries of a part are those of the scan of a filesystem that is read. -/
theorem exists_fs_of_entry (h : Surveys readers disk true table w) {pb : PartitionBoot}
    (hpb : pb ∈ w.parts) {e : BootEntry} (he : e ∈ pb.scan.entries) :
    ∃ p ∈ table.partitions, ∃ t fs, readable readers disk p = some (t, fs) ∧ pb.fs = some fs ∧
      e ∈ (scanned fs).entries := by
  obtain ⟨p, hp, hpart⟩ := (mem_parts h).mp hpb
  unfold partOf at hpart
  split at hpart
  · cases hpart
    cases he
  · obtain ⟨⟨t, fs⟩, hr, rfl⟩ := Option.map_eq_some_iff.mp hpart
    exact ⟨p, hp, t, fs, hr, rfl, he⟩

/-- What a scan leaves starts another boot manager or a kernel that is there. -/
theorem live_of_mem_scanned {fs : FileSystem} {e : BootEntry} (h : e ∈ (scanned fs).entries)
    (hchain : e.chainloader = none) :
    ∃ kernel, e.kernel = some kernel ∧ fs.exists kernel = true := by
  have hsurvives := (mem_scanned.mp h).2
  rw [survives, hchain] at hsurvives
  cases hk : e.kernel with
  | none =>
    rw [hk] at hsurvives
    cases hsurvives
  | some kernel =>
    rw [hk] at hsurvives
    exact ⟨kernel, rfl, hsurvives⟩

/-- An entry with a chainloader next to a kernel or a ramdisk is the only way to break the
two kinds. -/
theorem ofKind_of_not_mixed (hscan : Part.scan disk = .ok table)
    (h : Surveys readers disk true table w) (hmixed : ¬Mixed readers disk) {pb : PartitionBoot}
    (hpb : pb ∈ w.listing) {e : BootEntry} (he : e ∈ pb.scan.entries) : OfKind pb.fs e := by
  obtain ⟨pb₀, h₀, rfl, _⟩ := mem_listing.mp hpb
  rcases mem_finish.mp he with ⟨e₀, he₀, hsweep⟩ | hextra
  · obtain ⟨p, hp, t, fs, hr, hfs, hscanned⟩ := exists_fs_of_entry h h₀ he₀
    rcases sweep_cases hsweep with ⟨hchain, rfl⟩ | ⟨u, target, b, hu, htarget, hsame, rfl⟩
    · obtain ⟨s, _, hfrom⟩ := from_of_mem_parts h h₀ he₀
      obtain ⟨kernel, hkernel, hexists⟩ := live_of_mem_scanned hscanned hchain
      exact Or.inl ⟨hfrom.windows, hchain, kernel, hkernel, fs, hfs, hexists⟩
    · right
      rw [h.bootManager] at hu
      have hpicked : Picked fs (choose fs (consult fs)).1 := (picked_iff fs _).mpr rfl
      have hnone : ¬(e₀.kernel ≠ none ∨ e₀.initrd ≠ []) := fun hboth =>
        hmixed ⟨table, hscan, u, hu, p, hp, t, fs, hr, _, hpicked, e₀, (mem_scanned.mp hscanned).1,
          target, htarget, hsame, hboth⟩
      rw [not_or, not_not, not_not] at hnone
      exact ⟨by simp, hnone.1, hnone.2⟩
  · obtain ⟨_, win, firmware, _, _, rfl⟩ := detection_eq_some_iff.mp (mem_extra.mp hextra)
    exact Or.inr ⟨by simp [detectionEntry], rfl, rfl⟩

/-- Such an entry passes both sweeps with what it names. -/
theorem mixed_listed (hscan : Part.scan disk = .ok table) (h : Surveys readers disk true table w)
    (hmixed : Mixed readers disk) :
    ∃ pb ∈ w.listing, ∃ e ∈ pb.scan.entries, ¬OfKind pb.fs e := by
  obtain ⟨table', hscan', u, hu, p, hp, t, fs, hr, picked, hpicked, e, he, target, htarget, hsame,
    hboth⟩ := hmixed
  rw [hscan] at hscan'
  cases hscan'
  have hvolume : volume disk p = none := by
    unfold readable at hr
    unfold volume
    split at hr
    · rename_i ht
      rw [ht]
    · rename_i ht
      rw [ht]
    · cases hr
  have hpart : partOf readers disk true p = some ⟨p, t, some fs, scanned fs⟩ := by
    simp [partOf, hvolume, hr]
  have hmem : (⟨p, t, some fs, scanned fs⟩ : PartitionBoot) ∈ w.parts :=
    (mem_parts h).mpr ⟨p, hp, hpart⟩
  have hscanned : e ∈ (scanned fs).entries := by
    rw [(picked_iff fs picked).mp hpicked] at he
    exact mem_scanned.mpr ⟨he, by simp [survives, htarget]⟩
  obtain ⟨b, hsweep⟩ := sweep_declaring (h.bootManager.trans hu) htarget hsame
  have hfinish : _ ∈ (w.finish ⟨p, t, some fs, scanned fs⟩).scan.entries :=
    mem_finish.mpr (Or.inl ⟨e, hscanned, hsweep⟩)
  refine ⟨_, mem_listing.mpr ⟨_, hmem, rfl, List.ne_nil_of_mem hfinish⟩, _, hfinish, ?_⟩
  rintro (⟨hnone, _⟩ | ⟨_, hkernel, hinitrd⟩)
  · cases hnone
  · rcases hboth with hk | hi
    · exact hk hkernel
    · exact hi hinitrd

end Surveyed

/-- The listing keeps to the two kinds exactly if no entry that starts the boot manager of the
disk names a kernel or a ramdisk as well. -/
theorem all_of_kind_iff (readers : Readers) (disk : Device) :
    AllOfKind readers disk ↔ ¬Mixed readers disk := by
  rcases bootable_cases readers disk with
    ⟨e, hscan, _, hboot⟩ | ⟨table, w, hscan, _, hsurveys, hboot⟩
  · constructor
    · rintro _ ⟨table, htable, _⟩
      rw [hscan] at htable
      cases htable
    · intro _ parts hparts
      rw [hboot] at hparts
      cases hparts
  · constructor
    · intro hall hmixed
      obtain ⟨pb, hpb, e, he, hnot⟩ := mixed_listed hscan hsurveys hmixed
      exact hnot (hall _ hboot pb hpb e he)
    · intro hmixed parts hparts pb hpb e he
      rw [hboot] at hparts
      cases hparts
      exact ofKind_of_not_mixed hscan hsurveys hmixed hpb he

/-- The boot sector of a FAT filesystem with this volume label. -/
def fatSector (label : String) : Bytes :=
  0xeb :: List.replicate 42 0 ++ (ascii label).take 11 ++ ascii "FAT" ++ List.replicate 455 0

private theorem length_fatSector_le (label : String) : (fatSector label).length ≤ 512 := by
  have hlabel := List.length_take_le 11 (ascii label)
  have hname : (ascii "FAT").length = 3 := rfl
  simp only [fatSector, List.cons_append, List.length_cons, List.length_append,
    List.length_replicate, hname]
  omega

/-- A FAT filesystem without a partition table around it. -/
def bareFat (label : String) : Disk where
  content := fatSector label
  length_lt := Nat.lt_of_le_of_lt (length_fatSector_le label) (by decide)

/-- The device begins with these bytes. -/
def beginsWith (dev : Device) (start : Bytes) : Bool :=
  (dev.readAt 0 start.length).toOption == some start

/-- An EFI system partition with a grub.cfg whose item for Windows loads a kernel as well. -/
def mixedMenu : FileSystem where
  readDir p :=
    if p = "/".toList then .ok [⟨"EFI".toList, .dir⟩, ⟨"grub".toList, .dir⟩]
    else if p = "/EFI".toList then .ok [⟨"Microsoft".toList, .dir⟩]
    else if p = "/EFI/Microsoft".toList then .ok [⟨"Boot".toList, .dir⟩]
    else if p = "/EFI/Microsoft/Boot".toList then .ok [⟨"bootmgfw.efi".toList, .file⟩]
    else if p = "/grub".toList then .ok [⟨"grub.cfg".toList, .file⟩]
    else .error (.notFound p)
  readFile p :=
    if p = "/grub/grub.cfg".toList then
      .ok (Utf8.encode ("menuentry 'Windows' \x7b\nlinux /vmlinuz\n".toList ++
        "chainloader /EFI/Microsoft/Boot/bootmgfw.efi\n\x7d\n".toList))
    else .error (.notFound p)
  «exists» p := p = "/grub/grub.cfg".toList
  readPrefix p _ := .error (.notFound p)
  fileSize p := .error (.notFound p)
  readLink _ := none

/-- A disk that holds it. -/
def mixedDisk : Device := (bareFat "MIXED ITEMS").device

/-- Readers that know this disk. -/
def mixedReaders : Readers where
  ext4 _ := .error (.ext4 "bad superblock".toList)
  vfat dev :=
    if beginsWith dev (fatSector "MIXED ITEMS") then .ok mixedMenu
    else .error (.vfat "unknown volume".toList)

/-- The entry that is listed for it. -/
def mixedEntry : BootEntry where
  title := some "Windows".toList
  kernel := some "/vmlinuz".toList
  source := .grub
  windows := some ⟨.uefi, none, some "p1:/EFI/Microsoft/Boot/bootmgfw.efi".toList⟩
  chainloader := some "/EFI/Microsoft/Boot/bootmgfw.efi".toList

/-- The item is listed as a Windows entry with a kernel. -/
theorem mixed_entry_listed : ¬AllOfKind mixedReaders mixedDisk := by
  have hentries : (bootable mixedReaders mixedDisk).map
      (fun parts => parts.map fun pb => pb.scan.entries) = .ok [[mixedEntry]] := by decide +kernel
  intro hall
  cases hboot : bootable mixedReaders mixedDisk with
  | error f =>
    rw [hboot] at hentries
    cases hentries
  | ok parts =>
    rw [hboot] at hentries
    obtain ⟨pb, rest, rfl⟩ : ∃ pb rest, parts = pb :: rest := by
      cases parts with
      | nil => cases hentries
      | cons pb rest => exact ⟨pb, rest, rfl⟩
    have hpb : pb.scan.entries = [mixedEntry] := by
      simp only [Except.map, List.map_cons, Except.ok.injEq, List.cons.injEq] at hentries
      exact hentries.1
    rcases hall _ hboot pb (List.mem_cons_self ..) mixedEntry (by rw [hpb]; simp) with
      ⟨hnone, _⟩ | ⟨_, hkernel, _⟩
    · cases hnone
    · cases hkernel

end BootExtractor.Guest
