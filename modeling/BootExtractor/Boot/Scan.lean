import BootExtractor.Boot.Bls
import BootExtractor.Boot.Extlinux
import BootExtractor.Boot.Grub

/-!
# Scanning one filesystem

All sources of boot entries are consulted, one of them is taken at its word, and the
entries that it names without a kernel on this filesystem are dropped.
-/

namespace BootExtractor.Boot

/-- Where the boot directory may stand. -/
def bootPrefixes : List Str := [[], "/boot".toList]

/-- The kernel version in a file name. -/
def kernelVersion (name : Str) : Option Str :=
  (Str.stripPrefix "vmlinuz-".toList name).or (Str.stripPrefix "Image-".toList name)

/-- The version in the name of an initial ramdisk. -/
def initrdVersion (name : Str) : Option Str :=
  (((Str.stripPrefix "initramfs-".toList name).map (Str.trimEndMatches ".img".toList)).or
    (Str.stripPrefix "initrd.img-".toList name)).or
    ((Str.stripPrefix "initrd-".toList name).map (Str.trimEndMatches ".img".toList))

/-- The kernels and the ramdisks of a directory, by version. -/
structure Images where
  kernels : List (Str × Str) := []
  initrds : List (Str × Str) := []
  deriving DecidableEq, Repr

/-- One item of a listing. Rescue and kdump images are no boot candidates. -/
def Images.add (bootPrefix : Str) (images : Images) (e : DirEntry) : Images :=
  if e.kind = .dir then images
  else
    let path := bootPrefix ++ '/' :: e.name
    match kernelVersion e.name with
    | some v =>
      if !Str.contains v "rescue".toList && !Str.contains v "kdump".toList then
        { images with kernels := images.kernels ++ [(v, path)] }
      else images
    | none =>
      match initrdVersion e.name with
      | some v => { images with initrds := images.initrds ++ [(v, path)] }
      | none => images

/-- The entry of a kernel, with the first ramdisk of its version. -/
def Images.pair (images : Images) (kernel : Str × Str) : BootEntry :=
  { kernel := some kernel.2
    initrd := ((images.initrds.find? (·.1 == kernel.1)).map Prod.snd).toList
    version := some kernel.1
    source := .fallback }

/-- The entries of one directory. -/
def fallbackDir (fs : FileSystem) (bootPrefix : Str) : List BootEntry :=
  match fs.readDir (if bootPrefix = [] then "/".toList else bootPrefix) with
  | .error _ => []
  | .ok listing =>
    let images := listing.foldl (Images.add bootPrefix) {}
    images.kernels.map images.pair

/-- The entry whose kernel a link points at, by base name. -/
def linkedEntry (fs : FileSystem) (entries : List BootEntry) (link : Str) : Option Nat :=
  (fs.readLink link).bind fun target =>
    entries.findIdx? fun e => e.kernel.map (Str.afterLast '/') == some (Str.afterLast '/' target)

/-- `fallback_scan`; it never fails. -/
def fallbackScan (fs : FileSystem) : Found :=
  let entries :=
    sortNewestFirst (fun e => e.version.getD []) (bootPrefixes.flatMap (fallbackDir fs))
  let linked := ["/vmlinuz".toList, "/boot/vmlinuz".toList].findSome? (linkedEntry fs entries)
  (entries, orFirst linked entries)

/-- A line of loader.conf that sets the default. -/
def defaultLine (rawLine : Str) : Option Str :=
  (Str.stripPrefix "default".toList (Str.trim rawLine)).bind fun rest =>
    let v := Str.trim rest
    if v = [] then none else some (Str.trimEndMatches ".conf".toList v)

/-- `loader_conf_default`, with the files it has read. -/
def loaderConfDefault (fs : FileSystem) : Option Str × List Str := go bootPrefixes
where
  /-- The prefixes left. -/
  go : List Str → Option Str × List Str
    | [] => (none, [])
    | bootPrefix :: rest =>
      let path := bootPrefix ++ "/loader/loader.conf".toList
      match fs.readFile path with
      | .error _ => go rest
      | .ok data =>
        match (Str.lines (Utf8.fromLossy data)).findSome? defaultLine with
        | some pat => (some pat, [path])
        | none => ((go rest).1, path :: (go rest).2)

/-- The vendor directories of an EFI system partition; one spelling is enough. -/
def efiDirs (fs : FileSystem) : List Str :=
  match fs.readDir "/EFI".toList with
  | .ok dirs => vendors "/EFI".toList dirs
  | .error _ =>
    match fs.readDir "/efi".toList with
    | .ok dirs => vendors "/efi".toList dirs
    | .error _ => []
where
  /-- The subdirectories. -/
  vendors (efi : Str) (dirs : List DirEntry) : List Str :=
    (dirs.filter (·.kind = .dir)).map fun d => efi ++ '/' :: d.name

/-- All places of a grub.cfg. -/
def grubPaths (fs : FileSystem) : List Str :=
  (bootPrefixes.flatMap fun p =>
    [p ++ "/grub/grub.cfg".toList, p ++ "/grub2/grub.cfg".toList]) ++
  (efiDirs fs).map (· ++ "/grub.cfg".toList)

/-- All places of an extlinux or syslinux config. -/
def extlinuxPaths : List Str :=
  bootPrefixes.flatMap fun p =>
    [p ++ "/extlinux/extlinux.conf".toList, p ++ "/extlinux.conf".toList,
      p ++ "/syslinux/syslinux.cfg".toList, p ++ "/syslinux/extlinux.conf".toList]

/-- The grub.cfg files that exist and can be read, in order. -/
def grubScans (fs : FileSystem) : List Grub.GrubScan :=
  ((grubPaths fs).filter fs.exists).filterMap fun path =>
    (Grub.parse fs path (Grubenv.load fs)).toOption

/-- The BLS directories that exist and can be read, with their files, in order. -/
def blsScans (fs : FileSystem) : List (Bls.BlsScan × List Str) :=
  (bootPrefixes.map (· ++ "/loader/entries".toList) |>.filter fs.exists).filterMap fun dir =>
    (Bls.parseDir fs dir (Grubenv.load fs) (loaderConfDefault fs).1).toOption

/-- The extlinux configs that exist and can be read, in order. -/
def extlinuxScans (fs : FileSystem) : List Extlinux.ExtlinuxScan :=
  (extlinuxPaths.filter fs.exists).filterMap fun path => (Extlinux.parse fs path).toOption

/-- The first items of a list up to and including the first with the property. -/
def upTo {α : Type} (p : α → Bool) : List α → List α
  | [] => []
  | x :: rest => if p x then [x] else x :: upTo p rest

/-- What the sources of a filesystem yield: of every kind the first scan with entries. -/
structure Sources where
  usesBls : Bool
  grub : Option Grub.GrubScan
  bls : Option Bls.BlsScan
  extlinux : Option Extlinux.ExtlinuxScan
  deriving DecidableEq, Repr

/-- The part of `scan` that consults the sources. A later BLS directory is not read once
one has entries; of the other kinds, every config is at least listed. -/
def consult (fs : FileSystem) : Sources where
  usesBls := (grubScans fs).any (·.usesBls)
  grub := (grubScans fs).find? (!·.entries.isEmpty)
  bls := ((blsScans fs).find? (!·.1.entries.isEmpty)).map Prod.fst
  extlinux := (extlinuxScans fs).find? (!·.entries.isEmpty)

/-- The config files that `scan` has found, in order. -/
def configsOf (fs : FileSystem) : List Str :=
  (grubPaths fs).filter fs.exists ++ (loaderConfDefault fs).2 ++
    (upTo (!·.1.entries.isEmpty) (blsScans fs)).flatMap Prod.snd ++
    extlinuxPaths.filter fs.exists

/-- The authoritative source. A `blscfg` marker makes the GRUB entries leftovers. -/
def choose (fs : FileSystem) (sources : Sources) : Found :=
  match if sources.usesBls then sources.bls else none with
  | some b => (b.entries, b.default)
  | none =>
    match sources.grub with
    | some g => (g.entries, g.default)
    | none =>
      match sources.bls with
      | some b => (b.entries, b.default)
      | none =>
        match sources.extlinux with
        | some e => (e.entries, e.default)
        | none => fallbackScan fs

/-- The entries that a mask keeps. -/
def kept (entries : List BootEntry) (keep : List Bool) : List BootEntry :=
  (entries.zip keep).filterMap fun (e, k) => if k then some e else none

/-- Where the default goes: `keep[..d]` is counted, then `keep[d]` is looked at. -/
def newDefault (default : Option Nat) (keep : List Bool) : Except Fault (Option Nat) :=
  match default with
  | none => .ok none
  | some d =>
    if keep.length < d then .error .panic
    else
      match keep[d]? with
      | none => .error .panic
      | some k => .ok (if k then some ((keep.take d).countP id) else none)

/-- `retain`: keep the entries that `keep` marks and renumber the default. -/
def retain (entries : List BootEntry) (default : Option Nat) (keep : List Bool) :
    Except Fault Found :=
  match newDefault default keep with
  | .error f => .error f
  | .ok d =>
    let kept := kept entries keep
    .ok (kept, if kept.isEmpty then none else d.or (some 0))

/-- An entry that survives the sweep: it starts another boot manager, or its kernel is there. -/
def survives (fs : FileSystem) (e : BootEntry) : Bool :=
  e.chainloader.isSome || e.kernel.any fs.exists

/-- `drop_stale_entries`. -/
def dropStaleEntries (fs : FileSystem) (found : Found) : Except Fault Found :=
  retain found.1 found.2 (found.1.map (survives fs))

/-- `scan`. -/
def scan (fs : FileSystem) : Except Fault BootScan :=
  match dropStaleEntries fs (choose fs (consult fs)) with
  | .error f => .error f
  | .ok (entries, default) => .ok ⟨entries, default, configsOf fs⟩

end BootExtractor.Boot
