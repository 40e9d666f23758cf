import BootExtractor.Lib.Utf16
import BootExtractor.Part.Table

/-!
# GPT

The header at the second sector and the array of entries it describes. An entry with
a type and a range that is not empty is a partition, addressed by its slot.
-/

namespace BootExtractor.Part.Gpt

open Bytes

/-- `EFI PART` -/
def signature : Bytes := [0x45, 0x46, 0x49, 0x20, 0x50, 0x41, 0x52, 0x54]

/-- The type of Microsoft's reserved partition. -/
def msReserved : Str := "e3c9e316-0b5c-4db8-817d-f92df00215ae".toList
/-- The type of a Windows data partition. -/
def msBasicData : Str := "ebd0a0a2-b9e5-4433-87c0-68b6b72699c7".toList
/-- The type of the Windows recovery partition. -/
def windowsRecovery : Str := "de94bba4-06d1-4d40-a16a-bfd50179d6ac".toList
/-- The type of the metadata of dynamic disks. -/
def msLdmMetadata : Str := "5808c8aa-7e8f-42e0-85d2-e1e90434cfb3".toList
/-- The type of the data of dynamic disks. -/
def msLdmData : Str := "af9b60a0-1431-4f62-bc68-3311714a69ad".toList
/-- The type of a storage space. -/
def msStorageSpaces : Str := "e75caf8f-f680-4cee-afa3-b001e56efc2d".toList

/-- The types with a name: GUID, name, worth probing for boot files. -/
def typeNames : List (Str × Str × Bool) :=
  [("c12a7328-f81f-11d2-ba4b-00a0c93ec93b".toList, "EFI System".toList, true),
    ("0fc63daf-8483-4772-8e79-3d69d8477de4".toList, "Linux filesystem".toList, true),
    ("bc13c2ff-59e6-4262-a352-b275fd6f7172".toList, "Linux extended boot".toList, true),
    ("4f68bce3-e8cd-4db1-96e7-fbcaf984b709".toList, "Linux root (x86-64)".toList, true),
    ("b921b045-1df0-41c3-af44-4c6f280d3fae".toList, "Linux root (ARM64)".toList, true),
    (msBasicData, "Microsoft basic data".toList, true),
    (msReserved, "Microsoft reserved".toList, false),
    (windowsRecovery, "Windows recovery".toList, false),
    (msLdmMetadata, "Microsoft LDM metadata".toList, false),
    (msLdmData, "Microsoft LDM data".toList, false),
    (msStorageSpaces, "Microsoft Storage Spaces".toList, false),
    ("e6d6d379-f507-44c2-a23c-238f2a3df928".toList, "Linux LVM".toList, false),
    ("0657fd6d-a4ab-43c4-84e5-0933c84b4f4f".toList, "Linux swap".toList, false),
    ("21686148-6449-6e6f-744e-656564454649".toList, "BIOS boot".toList, false)]

/-- `type_name`; a type without a name goes by its GUID. -/
def typeName (guid : Str) : Str × Bool := (typeNames.lookup guid).getD (guid, false)

/-- The bytes of a GUID in two-digit hexadecimal. -/
def hexBytes (b : Bytes) : Str := b.flatMap fun x => Str.hex 2 x.toNat

/-- `format_guid`: the first three fields are stored little-endian. -/
def formatGuid (g : Bytes) : Str :=
  hexBytes (slice g 0 4).reverse ++ '-' :: hexBytes (slice g 4 2).reverse ++
    '-' :: hexBytes (slice g 6 2).reverse ++ '-' :: hexBytes (slice g 8 2) ++
    '-' :: hexBytes (slice g 10 6)

/-- The 16-bit units of the name field, up to the first zero. -/
def nameUnits (e : Bytes) : List Nat :=
  ((List.range 36).map fun i => le (slice e (56 + 2 * i) 2)).takeWhile (· ≠ 0)

/-- One entry of the array, if it is a partition. -/
def partitionOf (e : Bytes) (i : Nat) : Option Partition :=
  let typeGuid := slice e 0 16
  if typeGuid.all (· == 0) then none
  else
    let firstLba := le64 e 32
    let lastLba := le64 e 40
    if lastLba < firstLba then none
    else
      let units := nameUnits e
      let guid := formatGuid typeGuid
      let uniqueGuid := slice e 16 16
      some
        { index := i + 1
          startByte := wrappingMul firstLba sector
          sizeBytes := wrappingMul (wrappingAdd (lastLba - firstLba) 1) sector
          kind := (typeName guid).1
          typeId := guid
          name := if units = [] then none else some (Utf16.fromLossy units)
          probeWorthy := (typeName guid).2
          partUuid := if uniqueGuid.all (· == 0) then none else some (formatGuid uniqueGuid)
          sizeBytes_lt := wrappingMul_lt _ _ }

/-- `gpt::scan`; none when there is no GPT. -/
def scan (disk : Device) : Except Error (Option PartitionTable) :=
  if disk.size < 2 * sector + 92 then .ok none
  else do
    let header ← disk.readAt sector 92
    if header.take 8 ≠ signature then .ok none
    else
      let entriesLba := le64 header 72
      let numEntries := le32 header 80
      let entrySize := le32 header 84
      if entrySize < 128 ∨ 4096 < entrySize ∨ 4096 < numEntries then
        .error (.gpt ("implausible GPT: ".toList ++ Str.dec numEntries ++ " entries of ".toList ++
          Str.dec entrySize ++ " bytes".toList))
      else do
        let table ← disk.readAt (wrappingMul entriesLba sector) (numEntries * entrySize)
        .ok (some ⟨.gpt, (List.range numEntries).filterMap fun i =>
          partitionOf (slice table (i * entrySize) entrySize) i⟩)

end BootExtractor.Part.Gpt
