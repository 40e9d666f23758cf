import BootExtractor.Part.Table

/-!
# MBR

Four primary entries, and the chain of extended boot records that an extended entry
points at. Logical partitions are numbered from five.
-/

namespace BootExtractor.Part.Mbr

open Bytes

/-- An unused slot. -/
def typeEmpty : Nat := 0x00
/-- An extended partition. -/
def typeExtendedChs : Nat := 0x05
/-- An extended partition, addressed by block. -/
def typeExtendedLba : Nat := 0x0f
/-- The slot that protects a GPT disk. -/
def typeGptProtective : Nat := 0xee

/-- `type_id`. -/
def typeId (t : Nat) : Str := "0x".toList ++ Str.hex 2 t

/-- The types with a name: type byte, name, worth probing for boot files. -/
def typeNames : List (Nat × Str × Bool) :=
  [(0x07, "NTFS/exFAT".toList, false), (0x0b, "FAT32".toList, true),
    (0x0c, "FAT32".toList, true), (0x0e, "FAT16 LBA".toList, true),
    (0x27, "Windows recovery".toList, false), (0x82, "Linux swap".toList, false),
    (0x83, "Linux".toList, true), (0x8e, "Linux LVM".toList, false),
    (0xef, "EFI System".toList, true)]

/-- `type_name`; a type without a name goes by its number. -/
def typeName (t : Nat) : Str × Bool := (typeNames.lookup t).getD (typeId t, false)

/-- What is read of a slot. -/
structure RawEntry where
  typeByte : Nat
  startLba : Nat
  sectors : Nat
  deriving DecidableEq, Repr

/-- The entry of a slot. -/
def rawEntry (sec : Bytes) (i : Nat) : RawEntry :=
  let e := slice sec (446 + i * 16) 16
  ⟨le (slice e 4 1), le32 e 8, le32 e 12⟩

/-- `parse_entries`. -/
def parseEntries (sec : Bytes) : Option (List RawEntry) :=
  if slice sec 510 2 ≠ [0x55, 0xaa] then none else some ((List.range 4).map (rawEntry sec))

/-- `is_extended` -/
def RawEntry.isExtended (e : RawEntry) : Bool :=
  e.typeByte == typeExtendedChs || e.typeByte == typeExtendedLba

/-- The PARTUUID of a partition; a disk signature of zero is none. -/
def partUuid (disksig index : Nat) : Option Str :=
  if disksig ≠ 0 then some (Str.hex 8 disksig ++ '-' :: Str.hex 2 index) else none

/-- The partition of an entry that is relative to the byte offset `base`. -/
def partition (disksig index base : Nat) (e : RawEntry) : Partition where
  index := index
  startByte := wrappingAdd base (wrappingMul e.startLba sector)
  sizeBytes := wrappingMul e.sectors sector
  kind := (typeName e.typeByte).1
  typeId := typeId e.typeByte
  name := none
  probeWorthy := (typeName e.typeByte).2
  partUuid := partUuid disksig index
  sizeBytes_lt := wrappingMul_lt _ _

/-- A primary slot, if it holds a partition of its own. -/
def primary (disksig : Nat) (slot : Nat × RawEntry) : Option Partition :=
  let e := slot.2
  if e.typeByte = typeEmpty ∨ e.sectors = 0 then none
  else if e.typeByte = typeGptProtective then none
  else if e.isExtended then none
  else some (partition disksig (slot.1 + 1) 0 e)

/-- Does a primary slot hold the extended partition? -/
def isExtendedSlot (e : RawEntry) : Bool :=
  !(e.typeByte == typeEmpty || e.sectors == 0) && e.typeByte != typeGptProtective && e.isExtended

/-- The logical partition of an extended boot record, if its first slot is used. -/
def logical (disksig index ebrOffset : Nat) (data : RawEntry) : Option Partition :=
  if data.typeByte ≠ typeEmpty ∧ data.sectors ≠ 0 then
    some (partition disksig index ebrOffset data)
  else none

/-- The walk along the chain, at most `fuel` records; a hard cap against loops. -/
def walkEbr (disk : Device) (disksig extBase : Nat) :
    Nat → Nat → Nat → Except Error (List Partition)
  | 0, _, _ => .ok []
  | fuel + 1, ebrOffset, index =>
    if !disk.inBounds ebrOffset 512 then .ok []
    else
      match disk.readAt ebrOffset 512 with
      | .error e => .error e
      | .ok ebr =>
        match parseEntries ebr with
        | some (data :: link :: _) =>
          let found := (logical disksig index ebrOffset data).toList
          if link.isExtended then do
            let rest ← walkEbr disk disksig extBase fuel
              (wrappingAdd extBase (wrappingMul link.startLba sector)) (index + found.length)
            .ok (found ++ rest)
          else .ok found
        | _ => .ok []

/-- The logical partitions, if there is an extended one; the last extended slot counts. -/
def logicals (disk : Device) (disksig : Nat) (entries : List RawEntry) :
    Except Error (List Partition) :=
  match (entries.filter isExtendedSlot).getLast? with
  | none => .ok []
  | some e =>
    let extBase := wrappingMul e.startLba sector
    walkEbr disk disksig extBase 128 extBase 5

/-- Is this an entry that tells an MBR from a boot sector? -/
def isPlausible (e : RawEntry) : Bool :=
  e.typeByte != typeEmpty && decide (e.startLba > 0) && decide (e.sectors > 0)

/-- `mbr::scan`; none when there is no MBR. -/
def scan (disk : Device) : Except Error (Option PartitionTable) :=
  if disk.size < sector then .ok none
  else do
    let sec ← disk.readAt 0 512
    match parseEntries sec with
    | none => .ok none
    | some entries =>
      if !entries.any isPlausible then .ok none
      else do
        let disksig := le32 sec 440
        let primaries := entries.zipIdx.filterMap fun (e, i) => primary disksig (i, e)
        let rest ← logicals disk disksig entries
        let partitions := primaries ++ rest
        if partitions.isEmpty then .ok none else .ok (some ⟨.mbr, partitions⟩)

end BootExtractor.Part.Mbr
