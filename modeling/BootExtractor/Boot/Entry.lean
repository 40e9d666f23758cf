import BootExtractor.Fsys.FileSystem
import BootExtractor.Lib.Renumber

/-!
# Boot entries

What a scan finds on a filesystem: entries, the position of the one that the boot
loader would start, and the config files they come from.
-/

namespace BootExtractor.Boot

/-- Where an entry was learned about. -/
inductive Source where
  | grub
  | bls
  | extlinux
  | fallback
  | windows
  deriving DecidableEq, Repr

/-- `Display` for a source. -/
def Source.display : Source → Str
  | .grub => "grub".toList
  | .bls => "bls".toList
  | .extlinux => "extlinux".toList
  | .fallback => "fallback".toList
  | .windows => "windows".toList

/-- What a VMM has to do to start an entry. -/
inductive EntryKind where
  | linux
  | windows
  deriving DecidableEq, Repr

/-- `Display` for a kind of entry. -/
def EntryKind.display : EntryKind → Str
  | .linux => "linux".toList
  | .windows => "windows".toList

/-- The firmware that an entry starts from. -/
inductive Firmware where
  | uefi
  | bios
  | both
  deriving DecidableEq, Repr

/-- `Display` for a firmware. -/
def Firmware.display : Firmware → Str
  | .uefi => "uefi".toList
  | .bios => "bios".toList
  | .both => "uefi+bios".toList

/-- What starting a Windows entry takes. -/
structure WindowsBoot where
  firmware : Firmware
  arch : Option Str
  /-- The boot manager, as a `pN:/path` URI. -/
  loader : Option Str
  deriving DecidableEq, Repr

/-- One bootable configuration. -/
structure BootEntry where
  title : Option Str := none
  id : Option Str := none
  kernel : Option Str := none
  initrd : List Str := []
  cmdline : Option Str := none
  version : Option Str := none
  source : Source := .fallback
  /-- Set when the entry boots Windows rather than a kernel. -/
  windows : Option WindowsBoot := none
  /-- The target of a `chainloader` line, verbatim. -/
  chainloader : Option Str := none
  deriving DecidableEq, Repr

/-- `BootEntry::kind`. -/
def BootEntry.kind (e : BootEntry) : EntryKind :=
  match e.windows with
  | some _ => .windows
  | none => .linux

/-- Everything found on one filesystem. -/
structure BootScan where
  entries : List BootEntry := []
  /-- Position of the entry that the boot loader would start. -/
  default : Option Nat := none
  configs : List Str := []
  deriving DecidableEq, Repr

/-- Entries with the position of their default, as a source yields them. -/
abbrev Found := List BootEntry × Option Nat

/-- The default of a source is none exactly when it has no entries, and otherwise the
position of one of them. -/
def Found.Valid (found : Found) : Prop := Renumber.Points found.1.length found.2

/-- The first entry, where nothing else is known. -/
def orFirst (default : Option Nat) (entries : List BootEntry) : Option Nat :=
  default.or (if entries.isEmpty then none else some 0)

/-- A position found by searching the entries, or the first one, is a valid default. -/
theorem points_orFirst {entries : List BootEntry} {default : Option Nat}
    (h : ∀ i, default = some i → i < entries.length) :
    Renumber.Points entries.length (orFirst default entries) := by
  cases default with
  | some i => exact h i rfl
  | none =>
    cases entries with
    | nil => rfl
    | cons e rest => exact Nat.zero_lt_succ _

end BootExtractor.Boot
