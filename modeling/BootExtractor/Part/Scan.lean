import BootExtractor.Part.Gpt
import BootExtractor.Part.Mbr

/-!
# The partition table of a disk

GPT first, then MBR; a disk without a table is one partition.
-/

namespace BootExtractor.Part

/-- The whole disk as a partition. -/
def wholeDisk (disk : Device) : Partition where
  index := 1
  startByte := 0
  sizeBytes := disk.size
  kind := "whole disk".toList
  typeId := []
  name := none
  probeWorthy := true
  partUuid := none
  sizeBytes_lt := disk.size_lt

/-- `part::scan`. -/
def scan (disk : Device) : Except Error PartitionTable := do
  match ← Gpt.scan disk with
  | some table => .ok table
  | none =>
    match ← Mbr.scan disk with
    | some table => .ok table
    | none => .ok ⟨.none, [wholeDisk disk]⟩

end BootExtractor.Part
