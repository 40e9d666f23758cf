import BootExtractor.BlockDev
import BootExtractor.Fsys.FileSystem
import BootExtractor.Lib.Utf8

/-!
# Filesystem detection

The type of a filesystem by its magic bytes, and the opening of the types that can be
read. The readers themselves are other people's libraries.
-/

namespace BootExtractor.Fsys

open Bytes

/-- The filesystem types that are told apart. -/
inductive FsType where
  | ext4
  | xfs
  | squashfs
  | btrfs
  | ntfs
  | exfat
  | refs
  | vfat
  deriving DecidableEq, Repr

/-- The name of a type. -/
def FsType.name : FsType → Str
  | .ext4 => "ext4".toList
  | .xfs => "xfs".toList
  | .squashfs => "squashfs".toList
  | .btrfs => "btrfs".toList
  | .ntfs => "ntfs".toList
  | .exfat => "exfat".toList
  | .refs => "refs".toList
  | .vfat => "vfat".toList

/-- A byte string literal. -/
def ascii (s : String) : Bytes := Utf8.encode s.toList

/-- The bytes at a place inside the device; none when the device is too short. -/
def probe (dev : Device) (offset len : Nat) : Except Error (Option Bytes) :=
  if dev.inBounds offset len then (dev.readAt offset len).map some else .ok none

/-- The types that live in the boot sector. The FAT check comes last, as it is the loosest. -/
def bootSectorType (sector : Bytes) : Option FsType :=
  let name := slice sector 3 8
  if name = ascii "NTFS    " then some .ntfs
  else if name = ascii "EXFAT   " then some .exfat
  else if name = ascii "ReFS" ++ [0, 0, 0, 0] then some .refs
  else
    let jumpOk := sector.head? == some 0xeb || sector.head? == some 0xe9
    let fat32 := slice sector 82 8 == ascii "FAT32   "
    let fat16 := slice sector 54 3 == ascii "FAT"
    if jumpOk && (fat32 || fat16) then some .vfat else none

/-- `fsys::detect`. -/
def detect (dev : Device) : Except Error (Option FsType) := do
  let superblock ← probe dev (1024 + 56) 2
  if superblock.map le = some 0xef53 then .ok (some .ext4)
  else
    let start ← probe dev 0 4
    if start = some (ascii "XFSB") then .ok (some .xfs)
    else if start = some (ascii "hsqs") then .ok (some .squashfs)
    else
      let btrfs ← probe dev 0x10040 8
      if btrfs = some (ascii "_BHRfS_M") then .ok (some .btrfs)
      else
        let sector ← probe dev 0 512
        .ok (sector.bind bootSectorType)

/-- The filesystem readers. -/
structure Readers where
  ext4 : Device → Except Error FileSystem
  vfat : Device → Except Error FileSystem

/-- `fsys::open`. -/
def «open» (readers : Readers) (dev : Device) : Except Error FileSystem := do
  match ← detect dev with
  | some .ext4 => readers.ext4 dev
  | some .vfat => readers.vfat dev
  | some other => .error (.unknownFilesystem (some other.name))
  | none => .error (.unknownFilesystem none)

end BootExtractor.Fsys
