import BootExtractor.Boot.Scan
import BootExtractor.Fsys.Detect
import BootExtractor.Part.Scan

/-!
# Walking a disk

One pass over the partitions: what each of them is, what its configs declare, and
everything that tells of a Windows install, with the evidence for it.
-/

namespace BootExtractor.Guest

open Boot Bytes Fsys BootExtractor.Part

/-- A Windows install, as seen from outside its filesystems. -/
structure Windows where
  /-- None when there are Windows volumes but no boot path. -/
  firmware : Option Firmware
  /-- URI of the UEFI boot manager. -/
  bootManager : Option Str
  /-- URI of the boot configuration store. -/
  bcd : Option Str
  arch : Option Str
  evidence : List Str
  deriving DecidableEq, Repr

/-- One partition that holds a filesystem, with what its configs declare. -/
structure PartitionBoot where
  partition : Partition
  fsType : FsType
  /-- None for a filesystem that is only sniffed. -/
  fs : Option FileSystem
  scan : BootScan

/-- Partition types that only Windows creates. -/
def windowsTypes : List Str :=
  [Gpt.msReserved, Gpt.windowsRecovery, Gpt.msLdmMetadata, Gpt.msLdmData, Gpt.msStorageSpaces,
    "0x27".toList]

/-- Where an ESP keeps the boot manager of Windows. -/
def bootManagerPath : List Str :=
  ["EFI".toList, "Microsoft".toList, "Boot".toList, "bootmgfw.efi".toList]

/-- Where an ESP keeps the boot store of Windows. -/
def bcdPath : List Str := ["EFI".toList, "Microsoft".toList, "Boot".toList, "BCD".toList]

/-- Length of an NTFS volume boot record. -/
def vbrLen : Nat := 16 * 512

/-- `contains` on bytes. -/
def containsBytes (haystack needle : Bytes) : Bool := haystack.tails.any needle.isPrefixOf

/-- The messages in the boot code of a Windows MBR. -/
def mbrStrings : List Bytes :=
  [ascii "Invalid partition table", ascii "Error loading operating system",
    ascii "Missing operating system"]

/-- `is_windows_bootstrap`: two of the three messages in the bootstrap area. -/
def isWindowsBootstrap (sec : Bytes) : Bool :=
  decide (2 ≤ mbrStrings.countP (containsBytes (sec.take 446)))

/-- `vbr_loader`. -/
def vbrLoader (dev : Device) : Option Str :=
  match dev.readAt 0 (min dev.size vbrLen) with
  | .error _ => none
  | .ok buf =>
    if containsBytes buf (ascii "BOOTMGR") then some "bootmgr".toList
    else if containsBytes buf (ascii "NTLDR") then some "ntldr".toList
    else none

/-- The architecture of a machine field. -/
def machineArch (machine : Nat) : Option Str :=
  if machine = 0x014c then some "i386".toList
  else if machine = 0x8664 then some "x86_64".toList
  else if machine = 0xaa64 then some "aarch64".toList
  else if machine = 0x01c4 then some "arm".toList
  else none

/-- `pe_arch`. -/
def peArch (data : Bytes) : Option Str :=
  if get? data 0 2 ≠ some (ascii "MZ") then none
  else do
    let pe ← leAt data 0x3c 4
    if get? data pe 4 ≠ some (ascii "PE" ++ [0, 0]) then none
    else
      let machine ← leAt data (pe + 4) 2
      machineArch machine

/-- The item of a directory with this name, whatever the case. -/
def findName (fs : FileSystem) (dir name : Str) : Option Str :=
  match fs.readDir dir with
  | .error _ => none
  | .ok listing => (listing.find? fun e => Str.eqIgnoreAsciiCase e.name name).map (·.name)

/-- `find_path`: the path as it is spelled on the disk. -/
def findPath (fs : FileSystem) (parts : List Str) : Option Str :=
  parts.foldlM (fun path part =>
    (findName fs (if path = [] then "/".toList else path) part).map fun name =>
      path ++ '/' :: name) []

/-- `uri`. -/
def uri (part : Nat) (path : Str) : Str := 'p' :: Str.dec part ++ ':' :: path

/-- `uri_partition`. -/
def uriPartition (u : Str) : Option Nat :=
  (Str.stripPrefix "p".toList u).bind fun rest =>
    (Str.splitOnce (· == ':') rest).bind fun parts => Str.parseUsize parts.1

/-- `path_of`. -/
def pathOf (u : Str) : Str := ((Str.splitOnce (· == ':') u).map Prod.snd).getD u

/-- A path in lower case, with slashes only and none in front. -/
def normPath (s : Str) : Str :=
  Str.toAsciiLowercase ((s.map fun c => if c = '\\' then '/' else c).dropWhile (· == '/'))

/-- `same_file`: the same path, or the same base name. -/
def sameFile (a b : Str) : Bool :=
  normPath a == normPath b ||
    Str.afterLast '/' (normPath a) == Str.afterLast '/' (normPath b)

/-- What the pass has found so far. -/
structure Findings where
  parts : List PartitionBoot := []
  evidence : List Str := []
  bootManager : Option Str := none
  bcd : Option Str := none
  arch : Option Str := none
  /-- The first NTFS volume whose boot code chains to a Windows loader. -/
  ntfsLoader : Option Nat := none
  volumes : Bool := false
  winType : Bool := false

/-- A line of evidence about a partition. -/
def evidenceLine (p : Partition) (text : Str) : Str := 'p' :: Str.dec p.index ++ ": ".toList ++ text

/-- The part of the pass that looks at the type of a partition. -/
def noteType (p : Partition) (f : Findings) : Findings :=
  if p.typeId ∈ windowsTypes then
    { f with
      winType := true
      evidence := f.evidence ++ [evidenceLine p (p.kind ++ " partition".toList)] }
  else f

/-- An NTFS or ReFS volume. -/
def noteVolume (p : Partition) (dev : Device) (fsType : FsType) (f : Findings) : Findings :=
  let loader := vbrLoader dev
  let text := match loader with
    | some l => fsType.name ++ " volume, VBR chains to ".toList ++ l
    | none => fsType.name ++ " volume".toList
  { f with
    volumes := true
    ntfsLoader := if loader.isSome then f.ntfsLoader.or (some p.index) else f.ntfsLoader
    evidence := f.evidence ++ [evidenceLine p text]
    parts := f.parts ++ [⟨p, fsType, none, {}⟩] }

/-- The Windows boot manager on a readable filesystem. -/
def noteBootManager (p : Partition) (fs : FileSystem) (f : Findings) : Findings :=
  match findPath fs bootManagerPath with
  | none => f
  | some path =>
    { f with
      evidence := f.evidence ++ [evidenceLine p ("Windows boot manager ".toList ++ path)]
      arch := f.arch.or ((fs.readPrefix path 4096).toOption.bind peArch)
      bootManager := f.bootManager.or (some (uri p.index path)) }

/-- The boot configuration store on a readable filesystem. -/
def noteBcd (p : Partition) (fs : FileSystem) (f : Findings) : Findings :=
  match findPath fs bcdPath with
  | none => f
  | some path =>
    { f with
      evidence := f.evidence ++ [evidenceLine p ("boot configuration store ".toList ++ path)]
      bcd := f.bcd.or (some (uri p.index path)) }

/-- `boot::scan(..).unwrap_or_default()`, where entries are wanted. -/
def scanEntries (wantEntries : Bool) (fs : FileSystem) : Except Fault BootScan :=
  if wantEntries then
    match Boot.scan fs with
    | .ok found => .ok found
    | .error (.err _) => .ok {}
    | .error f => .error f
  else .ok {}

/-- A filesystem that can be read. -/
def noteFs (wantEntries : Bool) (p : Partition) (fsType : FsType) (fs : FileSystem)
    (f : Findings) : Except Fault Findings :=
  match scanEntries wantEntries fs with
  | .error e => .error e
  | .ok found =>
    let f := noteBcd p fs (noteBootManager p fs f)
    .ok { f with parts := f.parts ++ [⟨p, fsType, some fs, found⟩] }

/-- The type of the filesystem on a partition; a failing read is no filesystem. -/
def detected (dev : Device) : Option FsType := ((detect dev).toOption).join

/-- A filesystem that there is a reader for; one that does not open is passed over. -/
def visitFs (readers : Readers) (wantEntries : Bool) (p : Partition) (dev : Device)
    (fsType : FsType) (f : Findings) : Except Fault Findings :=
  match Fsys.open readers dev with
  | .error _ => .ok f
  | .ok fs => noteFs wantEntries p fsType fs f

/-- One partition. -/
def visit (readers : Readers) (disk : Device) (wantEntries : Bool) (f : Findings)
    (p : Partition) : Except Fault Findings :=
  let f := noteType p f
  let dev := p.open disk
  match detected dev with
  | none => .ok f
  | some fsType =>
    match fsType with
    | .ntfs | .refs => .ok (noteVolume p dev fsType f)
    | .ext4 | .vfat => visitFs readers wantEntries p dev fsType f
    | .xfs | .squashfs | .btrfs | .exfat => .ok f

/-- Does the MBR hold Windows' own bootstrap code? -/
def mbrBootstrap (disk : Device) (table : PartitionTable) : Bool :=
  match table.kind with
  | .mbr =>
    disk.inBounds 0 512 &&
      match disk.readAt 0 512 with
      | .ok sec => isWindowsBootstrap sec
      | .error _ => false
  | .gpt => false
  | .none => false

/-- What the pass yields. -/
structure Walk where
  parts : List PartitionBoot
  windows : Option Windows
  /-- Partition of the system volume of a BIOS install. -/
  biosPart : Option Nat

/-- The firmware that a Windows install boots from, by the boot paths it has. -/
def firmwareOf (bootManager biosPart : Bool) : Option Firmware :=
  match bootManager, biosPart with
  | true, true => some .both
  | true, false => some .uefi
  | false, true => some .bios
  | false, false => none

/-- The verdict over all partitions. -/
def conclude (bootstrap : Bool) (f : Findings) : Walk :=
  let biosPart := if bootstrap then f.ntfsLoader else none
  let firmware := firmwareOf f.bootManager.isSome biosPart.isSome
  let isWindows := firmware.isSome || f.winType || f.bcd.isSome || f.volumes
  ⟨f.parts, if isWindows then some ⟨firmware, f.bootManager, f.bcd, f.arch, f.evidence⟩ else none,
    biosPart⟩

/-- `walk`. -/
def walk (readers : Readers) (disk : Device) (wantEntries : Bool) : Except Fault Walk := do
  let table ← liftError (Part.scan disk)
  let bootstrap := mbrBootstrap disk table
  let start : Findings :=
    { evidence := if bootstrap then ["mbr: Windows bootstrap code".toList] else [] }
  let f ← table.partitions.foldlM (visit readers disk wantEntries) start
  .ok (conclude bootstrap f)

/-- `windows`: the evidence on its own. -/
def windows (readers : Readers) (disk : Device) : Except Fault (Option Windows) :=
  (walk readers disk false).map (·.windows)

end BootExtractor.Guest
