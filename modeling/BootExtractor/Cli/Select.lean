import BootExtractor.Cli.Host
import BootExtractor.Cli.Uri
import BootExtractor.Guest.Bootable
import BootExtractor.Vdafix

/-!
# What a command works on

The partition whose entries are trusted most, one of its entries, and the command
line of that entry with device names rewritten.
-/

namespace BootExtractor.Cli

open Boot Fsys Guest BootExtractor.Part

/-- A library call, as a command passes its failure on. -/
def ofFault {α : Type} : Except Fault α → Except Failure α
  | .ok a => .ok a
  | .error f => .error (Failure.ofFault f)

/-- Does some entry come from a config? -/
def hasConfig (s : BootScan) : Bool := s.entries.any fun e => e.source ≠ .fallback

/-- The better of two partitions; the first stays unless only the second has a config. -/
def betterBoot (best : Option PartitionBoot) (pb : PartitionBoot) : Option PartitionBoot :=
  match best with
  | none => some pb
  | some b => if hasConfig pb.scan && !hasConfig b.scan then some pb else some b

/-- `best_boot_scan`. -/
def bestBootScan (readers : Readers) (disk : Device) : Except Fault (Option PartitionBoot) :=
  match bootable readers disk with
  | .error f => .error f
  | .ok parts => .ok (parts.foldl betterBoot none)

/-- `Windows::summary`. -/
def summary (w : Windows) : Str :=
  let firmware := match w.firmware with
    | some f => f.display
    | none => "no boot manager found".toList
  match w.arch with
  | some arch => firmware ++ ", ".toList ++ arch
  | none => firmware

/-- What the guest is run under. -/
def firmwareAdvice (firmware : Firmware) : Str :=
  if firmware = .bios then "legacy BIOS".toList else "UEFI".toList

/-- `no_boot_artifacts`. -/
def noBootArtifacts (readers : Readers) (disk : Device) : Failure :=
  match windows readers disk with
  | .error .panic => .panic
  | .error .spin => .spin
  | .error (.err _) | .ok none =>
    .err "no boot artifacts (kernel/initramfs) found in any partition".toList
  | .ok (some w) =>
    let evidence := Str.join "; ".toList w.evidence
    match w.firmware with
    | none =>
      .err ("nothing to boot: Windows volumes but no boot manager, so this ".toList ++
        "looks like a data disk rather than a bootable image (".toList ++ evidence ++ ")".toList)
    | some f =>
      .err ("nothing to direct-kernel boot: this is a Windows guest (".toList ++ summary w ++
        ") — run the image under ".toList ++ firmwareAdvice f ++
        " firmware with the disk attached as-is (".toList ++ evidence ++ ")".toList)

/-- `fixed_cmdline`. -/
def fixedCmdline (e : BootEntry) (table : PartitionTable) : Except Fault (Option Str) :=
  match e.cmdline with
  | none => .ok none
  | some cmdline => Vdafix.fixCmdline cmdline table

/-- What `extract` takes files from. -/
structure Job where
  fs : FileSystem
  entry : BootEntry
  kernel : Str
  configs : List Str
  /-- The command line with device names rewritten. -/
  fixed : Option Str

/-- The entry that the user asks for, by its number from 1, or the default. -/
def entryIndex (entryArg : Option Nat) (s : BootScan) : Except Failure Nat :=
  match entryArg with
  | some n =>
    if 1 ≤ n ∧ n ≤ s.entries.length then .ok (n - 1)
    else
      .error (.err ("entry ".toList ++ Str.dec n ++ " out of range (1..=".toList ++
        Str.dec s.entries.length ++ ")".toList))
  | none => .ok (s.default.getD 0)

/-- The refusal of an entry that boots Windows. -/
def windowsRefusal (index : Nat) (w : WindowsBoot) : Str :=
  "entry ".toList ++ Str.dec (index + 1) ++ " is a Windows install (".toList ++
    w.firmware.display ++ "), not a kernel — there is nothing to extract; ".toList ++
    "run the image under firmware, or pick a Linux entry with --entry N ".toList ++
    "(`lbx entries` lists them)".toList

/-- The part of `cmd_extract` that looks at the chosen entry. -/
def openEntry (disk : Device) (pb : PartitionBoot) (index : Nat) (e : BootEntry) :
    Except Failure Job :=
  match e.windows, pb.fs, e.kernel with
  | some w, _, _ => .error (.err (windowsRefusal index w))
  | none, none, _ =>
    .error (.err ("partition ".toList ++ Str.dec pb.partition.index ++
      " has no readable filesystem".toList))
  | none, some _, none => .error (.err "selected entry has no kernel path".toList)
  | none, some fs, some kernel =>
    match Part.scan disk with
    | .error err => .error (.err err.display)
    | .ok table =>
      match fixedCmdline e table with
      | .error f => .error (Failure.ofFault f)
      | .ok fixed => .ok ⟨fs, e, kernel, pb.scan.configs, fixed⟩

/-- The part of `cmd_extract` that decides what to extract. -/
def select (readers : Readers) (disk : Device) (entryArg : Option Nat) : Except Failure Job := do
  match ← ofFault (bestBootScan readers disk) with
  | none => .error (noBootArtifacts readers disk)
  | some pb =>
    let index ← entryIndex entryArg pb.scan
    match pb.scan.entries[index]? with
    | none => .error .panic
    | some e => openEntry disk pb index e

end BootExtractor.Cli
