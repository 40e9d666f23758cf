import BootExtractor.Cli.Select
import BootExtractor.Guest.Kinds

/-!
# The partition that a command works on

A command works on the first partition with an entry of a config, so it is told: the
search takes every entry for one of a config that is not a fallback pairing. A Windows
that was only detected then stands for a config, and can hide one.
-/

namespace BootExtractor.Cli

open Boot Bytes Fsys Guest BootExtractor.Part

/-- An entry that a config declares. -/
def declaredBy (s : Source) : Bool := s = .grub || s = .bls || s = .extlinux

/-- Does a config of the partition declare an entry? -/
def declared (pb : PartitionBoot) : Bool := pb.scan.entries.any fun e => declaredBy e.source

/-- Is the partition without an entry of a config, but with a Windows that was detected? -/
def detectedOnly (pb : PartitionBoot) : Bool :=
  !declared pb && pb.scan.entries.any fun e => e.source = .windows

/-- The first partition with an entry of a config, or else the first one. -/
def preferred (parts : List PartitionBoot) : Option PartitionBoot :=
  (parts.find? declared).or parts.head?

/-- No detected Windows stands before the first entry of a config, and without such an entry
one on a later partition comes with one on the first. -/
structure Undisturbed (parts : List PartitionBoot) : Prop where
  before : ∀ front pb back, parts = front ++ pb :: back → declared pb = true →
    (∀ q ∈ front, declared q = false) → ∀ q ∈ front, detectedOnly q = false
  first : (∀ pb ∈ parts, declared pb = false) → ∀ q ∈ parts, detectedOnly q = true →
    ∃ pb, parts.head? = some pb ∧ detectedOnly pb = true

/-- What the search takes for a partition with an entry of a config. -/
def configured (pb : PartitionBoot) : Bool := hasConfig pb.scan

/-- A part is taken for configured also if only Windows was detected on it. -/
private theorem configured_eq (pb : PartitionBoot) :
    configured pb = (declared pb || detectedOnly pb) := by
  have hsource : ∀ s : Source,
      decide (s ≠ .fallback) = (declaredBy s || decide (s = .windows)) := by
    intro s
    cases s <;> rfl
  have hany : configured pb =
      (declared pb || pb.scan.entries.any fun e => decide (e.source = .windows)) := by
    simp only [configured, hasConfig, declared, hsource]
    induction pb.scan.entries with
    | nil => rfl
    | cons e entries ih =>
      simp only [List.any_cons, ih]
      cases declaredBy e.source <;> simp [Bool.or_left_comm]
  rw [hany, detectedOnly]
  cases declared pb <;> rfl

/-- The best candidate is the first configured one, else the one at hand. -/
private theorem foldl_betterBoot (parts : List PartitionBoot) (b : PartitionBoot) :
    parts.foldl betterBoot (some b) =
      if configured b then some b else (parts.find? configured).or (some b) := by
  induction parts generalizing b with
  | nil => cases configured b <;> rfl
  | cons pb parts ih =>
    have hstep : betterBoot (some b) pb =
        if configured pb && !configured b then some pb else some b :=
      rfl
    rw [List.foldl_cons, hstep]
    cases hb : configured b with
    | true =>
      rw [Bool.not_true, Bool.and_false, if_neg Bool.false_ne_true, ih, hb, if_pos rfl, if_pos rfl]
    | false =>
      rw [Bool.not_false, Bool.and_true]
      cases hpb : configured pb with
      | true =>
        rw [if_pos rfl, ih, hpb, List.find?_cons_of_pos hpb]
        rfl
      | false =>
        rw [if_neg Bool.false_ne_true, ih, hb, List.find?_cons_of_neg (by rw [hpb]; decide)]

/-- The search takes the first partition with any entry but fallback pairings. -/
theorem foldl_betterBoot_none (parts : List PartitionBoot) :
    parts.foldl betterBoot none = (parts.find? configured).or parts.head? := by
  cases parts with
  | nil => rfl
  | cons pb parts =>
    rw [List.foldl_cons, betterBoot, foldl_betterBoot]
    cases hpb : configured pb with
    | true =>
      rw [List.find?_cons_of_pos hpb]
      rfl
    | false =>
      rw [List.find?_cons_of_neg (by rw [hpb]; decide)]
      rfl

/-- A detected Windows ends the search where it stands, or before. -/
theorem exists_find?_of_detectedOnly {parts : List PartitionBoot} {q : PartitionBoot}
    (hq : q ∈ parts) (h : detectedOnly q = true) :
    ∃ pb ∈ parts, parts.find? configured = some pb ∧ configured pb = true := by
  cases hfind : parts.find? configured with
  | none =>
    have hnot := List.find?_eq_none.mp hfind q hq
    rw [configured_eq, h, Bool.or_true] at hnot
    exact absurd rfl hnot
  | some pb => exact ⟨pb, List.mem_of_find?_eq_some hfind, rfl, List.find?_some hfind⟩

/-- Where a detected Windows is in the way, the search takes its partition or an earlier one. -/
theorem undisturbed_of_find? {parts : List PartitionBoot}
    (h : (parts.find? configured).or parts.head? = preferred parts) : Undisturbed parts := by
  rw [preferred] at h
  constructor
  · intro front pb back hparts hpb hfront q hq
    by_contra hdetected
    have hdetected : detectedOnly q = true := Bool.not_eq_false _ ▸ hdetected
    have hdeclared : parts.find? declared = some pb :=
      List.find?_eq_some_iff_append.mpr ⟨hpb, front, back, hparts, fun x hx => by
        rw [hfront x hx]
        rfl⟩
    obtain ⟨r, hr, hfind, -⟩ := exists_find?_of_detectedOnly hq hdetected
    rw [hdeclared, hparts, List.find?_append, hfind] at h
    obtain rfl : r = pb := Option.some.inj h
    rw [hfront r hr] at hpb
    cases hpb
  · intro hnone q hq hdetected
    have hdeclared : parts.find? declared = none :=
      List.find?_eq_none.mpr fun pb hpb => by
        rw [hnone pb hpb]
        exact Bool.false_ne_true
    obtain ⟨r, hr, hfind, hconfigured⟩ := exists_find?_of_detectedOnly hq hdetected
    rw [hdeclared, hfind] at h
    rw [configured_eq, hnone r hr] at hconfigured
    exact ⟨r, h.symm, hconfigured⟩

/-- Before the first partition with an entry of a config nothing else counts as one. -/
theorem Undisturbed.find?_declared {parts : List PartitionBoot} (h : Undisturbed parts)
    {pb : PartitionBoot} (hdeclared : parts.find? declared = some pb) :
    parts.find? configured = some pb := by
  obtain ⟨hpb, front, back, hparts, hfront⟩ := List.find?_eq_some_iff_append.mp hdeclared
  have hfront' : ∀ q ∈ front, declared q = false := fun q hq => by
    simpa using hfront q hq
  refine List.find?_eq_some_iff_append.mpr ⟨?_, front, back, hparts, ?_⟩
  · rw [configured_eq, hpb, Bool.true_or]
  · intro q hq
    rw [configured_eq, hfront' q hq, h.before front pb back hparts hpb hfront' q hq]
    rfl

/-- Without any entry of a config only the first partition counts as one with such an entry. -/
theorem Undisturbed.find?_none {parts : List PartitionBoot} (h : Undisturbed parts)
    (hdeclared : parts.find? declared = none) {r : PartitionBoot}
    (hfind : parts.find? configured = some r) : parts.head? = some r := by
  have hnone : ∀ pb ∈ parts, declared pb = false := fun pb hpb =>
    Bool.eq_false_iff.mpr (List.find?_eq_none.mp hdeclared pb hpb)
  have hr := List.mem_of_find?_eq_some hfind
  have hdetected : detectedOnly r = true := by
    have hconfigured := List.find?_some hfind
    rwa [configured_eq, hnone r hr, Bool.false_or] at hconfigured
  obtain ⟨first, hfirst, hdet⟩ := h.first hnone r hr hdetected
  obtain ⟨rest, rfl⟩ := List.head?_eq_some_iff.mp hfirst
  have hpos : configured first = true := by rw [configured_eq, hdet, Bool.or_true]
  rw [List.find?_cons_of_pos hpos] at hfind
  exact hfirst.trans hfind

/-- The search takes the partition it is told to exactly if no detected Windows gets in
its way. -/
theorem foldl_preferred_iff (parts : List PartitionBoot) :
    parts.foldl betterBoot none = preferred parts ↔ Undisturbed parts := by
  rw [foldl_betterBoot_none]
  constructor
  · exact undisturbed_of_find?
  · intro h
    rw [preferred]
    cases hdeclared : parts.find? declared with
    | some pb => rw [h.find?_declared hdeclared]
    | none =>
      cases hfind : parts.find? configured with
      | none => rfl
      | some r =>
        rw [h.find?_none hdeclared hfind]
        rfl

private theorem bestBootScan_eq (readers : Readers) (disk : Device) :
    bestBootScan readers disk = (bootable readers disk).map (·.foldl betterBoot none) := by
  rw [bestBootScan]
  cases bootable readers disk <;> rfl

/-- A command works on what the search finds among the partitions that boot, and for every
list of them that is the first one with an entry of a config, or else the first one, exactly
if no detected Windows disturbs it. -/
theorem bestBootScan_preferred_iff (readers : Readers) (disk : Device)
    (parts : List PartitionBoot) :
    bestBootScan readers disk = (bootable readers disk).map (·.foldl betterBoot none) ∧
      (parts.foldl betterBoot none = preferred parts ↔ Undisturbed parts) :=
  ⟨bestBootScan_eq readers disk, foldl_preferred_iff parts⟩

section Sample

/-- An MBR with an EFI system partition of one sector and a Linux partition behind it. -/
def dualMbr : Bytes :=
  List.replicate 446 0 ++
    [0, 0, 0, 0, 0xef, 0, 0, 0, 1, 0, 0, 0, 1, 0, 0, 0] ++
    [0, 0, 0, 0, 0x83, 0, 0, 0, 2, 0, 0, 0, 4, 0, 0, 0] ++
    List.replicate 32 0 ++ [0x55, 0xaa]

/-- The start of an ext4 filesystem. -/
def ext4Start : Bytes := List.replicate 1080 0 ++ [0x53, 0xef] ++ List.replicate 966 0

/-- A disk with both. -/
def dualDisk : Device :=
  Disk.device ⟨dualMbr ++ fatSector "WINDOWS ESP" ++ ext4Start, by decide +kernel⟩

/-- A system partition with the Windows boot manager only. -/
def windowsEsp : FileSystem where
  readDir p :=
    if p = "/".toList then .ok [⟨"EFI".toList, .dir⟩]
    else if p = "/EFI".toList then .ok [⟨"Microsoft".toList, .dir⟩]
    else if p = "/EFI/Microsoft".toList then .ok [⟨"Boot".toList, .dir⟩]
    else if p = "/EFI/Microsoft/Boot".toList then .ok [⟨"bootmgfw.efi".toList, .file⟩]
    else .error (.notFound p)
  readFile p := .error (.notFound p)
  «exists» _ := false
  readPrefix p _ := .error (.notFound p)
  fileSize p := .error (.notFound p)
  readLink _ := none

/-- A Linux with a menu that does not mention Windows. -/
def linuxRoot : FileSystem where
  readDir p := .error (.notFound p)
  readFile p :=
    if p = "/boot/grub/grub.cfg".toList then
      .ok (Utf8.encode "menuentry 'Linux' \x7b\nlinux /vmlinuz\n\x7d\n".toList)
    else .error (.notFound p)
  «exists» p := p = "/boot/grub/grub.cfg".toList || p = "/vmlinuz".toList
  readPrefix p _ := .error (.notFound p)
  fileSize p := .error (.notFound p)
  readLink _ := none

/-- Readers that know the two filesystems by how they begin. -/
def dualReaders : Readers where
  ext4 dev :=
    if beginsWith dev ext4Start then .ok linuxRoot
    else .error (.ext4 "bad superblock".toList)
  vfat dev :=
    if beginsWith dev (fatSector "WINDOWS ESP") then .ok windowsEsp
    else .error (.vfat "unknown volume".toList)

/-- The detected Windows hides the menu of the second partition. -/
theorem bestBootScan_detected :
    (bootable dualReaders dualDisk).map (fun parts =>
        (parts.map fun pb => (pb.partition.index, pb.scan.entries.map (·.source)),
          (preferred parts).map (·.partition.index))) =
      .ok ([(1, [.windows]), (2, [.grub])], some 2) ∧
    (bestBootScan dualReaders dualDisk).map (Option.map (·.partition.index)) = .ok (some 1) := by
  have hrun : (bootable dualReaders dualDisk).map (fun parts =>
      ((parts.map fun pb => (pb.partition.index, pb.scan.entries.map (·.source)),
        (preferred parts).map (·.partition.index)),
        (parts.foldl betterBoot none).map (·.partition.index))) =
      .ok (([(1, [.windows]), (2, [.grub])], some 2), some 1) := by decide +kernel
  rw [bestBootScan_eq]
  cases hboot : bootable dualReaders dualDisk with
  | error f =>
    rw [hboot] at hrun
    cases hrun
  | ok parts =>
    rw [hboot] at hrun
    obtain ⟨hparts, hbest⟩ := Prod.mk.inj (Except.ok.inj hrun)
    exact ⟨congrArg Except.ok hparts, congrArg Except.ok hbest⟩

end Sample

end BootExtractor.Cli
