import BootExtractor.Guest.Walk

/-!
# Everything that boots

The entries that the configs declare, without those that start an unknown boot
manager, and the Windows install as an entry of its own when no config declares it.
-/

namespace BootExtractor.Guest

open Boot

/-- Does an entry start the boot manager at this path? -/
def declares (bmPath : Option Str) (e : BootEntry) : Bool :=
  match e.chainloader, bmPath with
  | some target, some bm => sameFile target bm
  | _, _ => false

/-- What becomes of an entry: a `chainloader` entry is kept only if it starts the boot
manager found, and then it is a Windows entry. -/
def sweepEntry (win : Option Windows) (bmPath : Option Str) (e : BootEntry) : Option BootEntry :=
  if e.chainloader.isNone then some e
  else if declares bmPath e then
    some { e with
      windows := some ⟨.uefi, win.bind (·.arch), win.bind (·.bootManager)⟩ }
  else none

/-- The sweep of one partition. -/
def sweepPart (win : Option Windows) (bmPath : Option Str) (pb : PartitionBoot) :
    Except Fault PartitionBoot :=
  let f := sweepEntry win bmPath
  match retain (pb.scan.entries.map fun e => (f e).getD e) pb.scan.default
      (pb.scan.entries.map fun e => (f e).isSome) with
  | .error e => .error e
  | .ok (entries, default) =>
    .ok { pb with scan := { pb.scan with entries := entries, default := default } }

/-- The entry of a detected install. -/
def detectionEntry (win : Windows) (firmware : Firmware) : BootEntry :=
  { title := some "Windows Boot Manager".toList
    id := some "windows".toList
    source := .windows
    windows := some ⟨firmware, win.arch, win.bootManager⟩ }

/-- The partition with an entry more; the entry is the default if there is no other. -/
def addEntry (e : BootEntry) (pb : PartitionBoot) : PartitionBoot :=
  { pb with
    scan := { pb.scan with
      entries := pb.scan.entries ++ [e]
      default := pb.scan.default.or (some pb.scan.entries.length) } }

/-- The first partition of an index is changed. -/
def modifyPart (index : Nat) (f : PartitionBoot → PartitionBoot) :
    List PartitionBoot → List PartitionBoot
  | [] => []
  | pb :: rest => if pb.partition.index = index then f pb :: rest else pb :: modifyPart index f rest

/-- The partition that hosts the entry of a detected install. -/
def hostPart (win : Windows) (biosPart : Option Nat) : Option Nat :=
  (win.bootManager.bind uriPartition).or biosPart

/-- The parts with the entry of an install that no config declares. -/
def addDetected (win : Option Windows) (biosPart : Option Nat) (declared : Bool)
    (parts : List PartitionBoot) : List PartitionBoot :=
  if declared then parts
  else
    match win with
    | none => parts
    | some w =>
      match w.firmware, hostPart w biosPart with
      | some firmware, some index => modifyPart index (addEntry (detectionEntry w firmware)) parts
      | _, _ => parts

/-- `bootable`. -/
def bootable (readers : Fsys.Readers) (disk : Device) : Except Fault (List PartitionBoot) := do
  let w ← walk readers disk true
  let bmPath := (w.windows.bind (·.bootManager)).map pathOf
  let declared := w.parts.any fun pb => pb.scan.entries.any (declares bmPath)
  let swept ← w.parts.mapM (sweepPart w.windows bmPath)
  let parts := addDetected w.windows w.biosPart declared swept
  .ok (parts.filter fun pb => !pb.scan.entries.isEmpty)

end BootExtractor.Guest
