import BootExtractor.BlockDev
import BootExtractor.Lib.Bytes

/-!
# Partitions

What the table scanners yield: partitions with their places on the disk and their
types, and the window that a partition is.
-/

namespace BootExtractor.Part

/-- The bytes of a block. -/
def sector : Nat := 512

/-- The kind of a partition table. -/
inductive TableKind where
  | gpt
  | mbr
  /-- No table; the whole disk is one partition. -/
  | none
  deriving DecidableEq, Repr

/-- One partition. Its numbers are machine integers. -/
structure Partition where
  /-- 1-based, as a user addresses it. -/
  index : Nat
  startByte : Nat
  sizeBytes : Nat
  /-- The type for a reader. -/
  kind : Str
  /-- The type as the table stores it. -/
  typeId : Str
  name : Option Str
  probeWorthy : Bool
  partUuid : Option Str
  sizeBytes_lt : sizeBytes < 2 ^ 64

/-- What a scan of the disk finds. -/
structure PartitionTable where
  kind : TableKind
  partitions : List Partition

/-- `Partition::open`. -/
def Partition.open (p : Partition) (disk : Device) : Device :=
  disk.slice p.startByte p.sizeBytes p.sizeBytes_lt

/-- A 32-bit field. -/
def le32 (b : Bytes) (off : Nat) : Nat := Bytes.le (Bytes.slice b off 4)

/-- A 64-bit field. -/
def le64 (b : Bytes) (off : Nat) : Nat := Bytes.le (Bytes.slice b off 8)

/-- A wrapping product fits. -/
theorem wrappingMul_lt (a b : Nat) : wrappingMul a b < 2 ^ 64 :=
  Nat.mod_lt _ (by decide)

end BootExtractor.Part
