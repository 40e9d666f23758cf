import BootExtractor.Part.Table

/-!
# Device names in a kernel command line

A `root=` or `resume=` that names a partition by its device is rewritten to name it
by its PARTUUID. The number of the partition is read off the end of the device name,
and everything else in the command line stays as it is.
-/

namespace BootExtractor.Vdafix

open BootExtractor.Part

/-- The kernel parameters whose value names a device. -/
def params : List Str := ["root".toList, "resume".toList]

/-- The name of a disk in front of a partition number. A trailing `p` is taken for a
separator, whatever stands in front of it. -/
def validStem (stem : Str) : Bool :=
  if Str.endsWith stem "p".toList then
    let base := stem.dropLast
    Str.startsWith base "nvme".toList || Str.startsWith base "mmcblk".toList
  else
    ["sd".toList, "vd".toList, "hd".toList, "xvd".toList].any fun pre =>
      (Str.stripPrefix pre stem).any fun l => l ≠ [] && l.all Char.isLower

/-- `partition_number`. The name is cut one byte behind the start of its last character
that is no digit; behind a longer character that is no place to cut at. -/
def partitionNumber (dev : Str) : Except Fault (Option Nat) :=
  match Str.stripPrefix "/dev/".toList dev with
  | none => .ok none
  | some name =>
    let stem := name.rdropWhile Char.isDigit
    let digits := name.rtakeWhile Char.isDigit
    match stem.getLast? with
    | none => .ok none
    | some c =>
      if c.utf8Size ≠ 1 then .error .panic
      else
        match Str.parseUsize digits with
        | none => .ok none
        | some n => .ok (if validStem stem then some n else none)

/-- `fix_token`, over a way to read the number of a partition off the name of a device. -/
def fixTokenBy (partitionNumber : Str → Except Fault (Option Nat)) (token : Str)
    (table : PartitionTable) : Except Fault (Option Str) :=
  match Str.splitOnce (· == '=') token with
  | none => .ok none
  | some (key, value) =>
    if key ∉ params then .ok none
    else
      match partitionNumber value with
      | .error f => .error f
      | .ok number =>
        .ok do
          let n ← number
          let part ← table.partitions.find? (·.index == n)
          let uuid ← part.partUuid
          some (key ++ "=PARTUUID=".toList ++ uuid)

/-- `fix_token`. -/
def fixToken (token : Str) (table : PartitionTable) : Except Fault (Option Str) :=
  fixTokenBy partitionNumber token table

/-- The loop of `fix_cmdline` over the rest of the command line; every pass takes a token
or whitespace off, and `fuel` counts the passes. -/
def fixLoop (table : PartitionTable) : Nat → Str → Bool → Str → Except Fault (Option Str)
  | 0, out, changed, _ => .ok (if changed then some out else none)
  | fuel + 1, out, changed, rest =>
    if rest = [] then .ok (if changed then some out else none)
    else
      let token := rest.takeWhile fun c => !Str.isWhitespace c
      let tail := rest.dropWhile fun c => !Str.isWhitespace c
      match fixToken token table with
      | .error f => .error f
      | .ok fixed =>
        fixLoop table fuel (out ++ fixed.getD token ++ tail.takeWhile Str.isWhitespace)
          (changed || fixed.isSome) (tail.dropWhile Str.isWhitespace)

/-- `fix_cmdline`. -/
def fixCmdline (cmdline : Str) (table : PartitionTable) : Except Fault (Option Str) :=
  fixLoop table cmdline.length [] false cmdline

end BootExtractor.Vdafix
