import BootExtractor.Boot.Kconfig
import BootExtractor.Cli.Select
import BootExtractor.Kernel.Sniff

/-!
# Entries as JSON

The text that the commands print for other programs. It is glued together from the
raw texts of the fields.
-/

namespace BootExtractor.Cli

open Boot Fsys Guest Kernel BootExtractor.Part

/-- A character in `jstr`. -/
def jchar (c : Char) : Str :=
  if c = '"' then "\\\"".toList
  else if c = '\\' then "\\\\".toList
  else if c = '\n' then "\\n".toList
  else if c = '\r' then "\\r".toList
  else if c = '\t' then "\\t".toList
  else if c.toNat < 0x20 then "\\u".toList ++ Str.hex 4 c.toNat
  else [c]

/-- `jstr`. -/
def jstr (s : Str) : Str := '"' :: s.flatMap jchar ++ ['"']

/-- The value `null`. -/
def jnull : Str := "null".toList

/-- `jopt`. -/
def jopt (s : Option Str) : Str := (s.map jstr).getD jnull

/-- `jsize`. -/
def jsize (n : Option Nat) : Str := (n.map Str.dec).getD jnull

/-- A truth value as `format!` writes it. -/
def jbool (b : Bool) : Str := if b then "true".toList else "false".toList

/-- An array of raw texts. -/
def brackets (texts : List Str) : Str := '[' :: Str.join ",".toList texts ++ [']']

/-- The format string of an object, with the raw texts in it. -/
def braces (fields : List (Str × Str)) : Str :=
  '\x7b' :: Str.join ",".toList (fields.map fun f => '"' :: f.1 ++ "\":".toList ++ f.2) ++ ['\x7d']

/-- What `entry_json` is given. -/
structure Item where
  part : Nat
  isDefault : Bool
  entry : BootEntry
  fixed : Option Str
  /-- None for a partition that is only sniffed. -/
  fs : Option FileSystem
  dma : Option Bool

section Fields

variable (c : Codecs) (i : Item) (quick : Bool)

/-- The filesystem for probing files; `quick` probes none. -/
def Item.probed : Option FileSystem := if quick then none else i.fs

/-- The kernel's size, where it is probed for. -/
def Item.kernelSize : Str :=
  match i.probed quick with
  | some fs => jsize (i.entry.kernel.bind fun k => (fs.fileSize k).toOption)
  | none => jnull

/-- The size of every initrd, where they are probed for. -/
def Item.initrdSize : List Str :=
  match i.probed quick with
  | some fs => i.entry.initrd.map fun path => jsize (fs.fileSize path).toOption
  | none => i.entry.initrd.map fun _ => jnull

/-- The kernel's wrapping, where it is probed for. -/
def Item.compression : Str :=
  match i.probed quick with
  | some fs => ((kernelCompression c fs i.entry).map fun w => jstr w.label).getD jnull
  | none => jnull

/-- The firmware, the architecture and the loader of a Windows entry. -/
def Item.windows : Str × Str × Str :=
  match i.entry.windows with
  | some w => (jstr w.firmware.display, jopt w.arch, jopt w.loader)
  | none => (jnull, jnull, jnull)

/-- `entry_json`. -/
def entryJson : Str :=
  braces [
    ("partition".toList, Str.dec i.part),
    ("default".toList, jbool i.isDefault),
    ("type".toList, jstr i.entry.kind.display),
    ("source".toList, jstr i.entry.source.display),
    ("title".toList, jopt i.entry.title),
    ("version".toList, jopt i.entry.version),
    ("id".toList, jopt i.entry.id),
    ("kernel".toList, (i.entry.kernel.map fun k => jstr (uri i.part k)).getD jnull),
    ("kernel_size".toList, i.kernelSize quick),
    ("initrd".toList, brackets (i.entry.initrd.map fun path => jstr (uri i.part path))),
    ("initrd_size".toList, brackets (i.initrdSize quick)),
    ("cmdline".toList, jopt i.entry.cmdline),
    ("cmdline_fixed".toList, jopt i.fixed),
    ("dma_restricted_pool".toList, (i.dma.map jbool).getD jnull),
    ("kernel_compression".toList, i.compression c quick),
    ("firmware".toList, i.windows.1),
    ("arch".toList, i.windows.2.1),
    ("loader".toList, i.windows.2.2)]

end Fields

/-- The line that `entries --json` prints. -/
def entriesLine (c : Codecs) (quick : Bool) (items : List Item) : Str :=
  brackets (items.map fun i => entryJson c i quick) ++ ['\n']

/-- `boot_info_json`. -/
def bootInfoJson (c : Codecs) (part : Nat) (e : BootEntry) (fixed : Option Str)
    (configs : List Str) (fs : Option FileSystem) : Str :=
  let dma := fs.bind fun fs => dmaRestrictedPool fs e
  braces [
    ("entry".toList, entryJson c ⟨part, true, e, fixed, fs, dma⟩ false),
    ("configs".toList, brackets (configs.map fun path => jstr (uri part path)))]

/-- What is known of the kernels of a partition, by their paths. -/
abbrev DmaCache := List (Str × Option Bool)

/-- `dma_cached`. -/
def dmaCached (cache : DmaCache) (fs : FileSystem) (e : BootEntry) : Option Bool × DmaCache :=
  let key := e.kernel.getD []
  match cache.lookup key with
  | some dma => (dma, cache)
  | none => (dmaRestrictedPool fs e, (key, dmaRestrictedPool fs e) :: cache)

/-- The cache is asked where there is a filesystem. -/
def itemDma (cache : DmaCache) (pb : PartitionBoot) (e : BootEntry) : Option Bool × DmaCache :=
  match pb.fs with
  | some fs => dmaCached cache fs e
  | none => (none, cache)

/-- The entries of one partition, from the one at `i`. -/
def partItems (table : PartitionTable) (pb : PartitionBoot) :
    DmaCache → Nat → List BootEntry → Except Fault (List Item)
  | _, _, [] => .ok []
  | cache, i, e :: rest => do
    let fixed ← fixedCmdline e table
    let (dma, cache) := itemDma cache pb e
    let items ← partItems table pb cache (i + 1) rest
    .ok (⟨pb.partition.index, some i == pb.scan.default, e, fixed, pb.fs, dma⟩ :: items)

/-- The entries of all partitions. -/
def allItems (table : PartitionTable) : List PartitionBoot → Except Fault (List Item)
  | [] => .ok []
  | pb :: rest => do
    let items ← partItems table pb [] 0 pb.scan.entries
    let more ← allItems table rest
    .ok (items ++ more)

/-- `cmd_entries` with `--json`: the text it prints. -/
def cmdEntriesJson (readers : Readers) (c : Codecs) (disk : Device) (quick : Bool) :
    Except Fault Str := do
  let table ← liftError (Part.scan disk)
  let parts ← bootable readers disk
  let items ← allItems table parts
  .ok (entriesLine c quick items)

/-- The entry that `boot-info` reports. -/
def bootInfoOf (c : Codecs) (disk : Device) (pb : PartitionBoot) : Except Failure Str :=
  match pb.scan.entries[pb.scan.default.getD 0]? with
  | none => .error .panic
  | some e =>
    match Part.scan disk with
    | .error err => .error (.err err.display)
    | .ok table =>
      match fixedCmdline e table with
      | .error f => .error (Failure.ofFault f)
      | .ok fixed =>
        .ok (bootInfoJson c pb.partition.index e fixed pb.scan.configs pb.fs ++ ['\n'])

/-- `cmd_boot_info` with `--json`: the text it prints. -/
def cmdBootInfoJson (readers : Readers) (c : Codecs) (disk : Device) : Except Failure Str := do
  match ← ofFault (bestBootScan readers disk) with
  | none => .error (noBootArtifacts readers disk)
  | some pb => bootInfoOf c disk pb

end BootExtractor.Cli
