import BootExtractor.Lib.Memo
import BootExtractor.Cli.EntryJson

/-!
# The memo of the kernel options

The entries of a partition are asked for the option of their kernels through a table
under the path of the kernel. The answer of an entry also depends on its version, so
the table may answer with the option of another kernel.
-/

namespace BootExtractor.Cli

open Boot Guest BootExtractor.Part

/-- The option in the config of a release. -/
def configOption (fs : FileSystem) (rel : Str) : Option Bool :=
  bootPrefixes.findSome? fun bootPrefix =>
    match fs.readFile (bootPrefix ++ "/config-".toList ++ rel) with
    | .ok data => some (kconfigEnabled data "CONFIG_DMA_RESTRICTED_POOL".toList)
    | .error _ => none

/-- What an entry is remembered under. -/
def dmaKey (e : BootEntry) : Str := e.kernel.getD []

/-- The option by the file name of the kernel. -/
def namedOption (fs : FileSystem) (e : BootEntry) : Option Bool :=
  (e.kernel.bind kernelRelease).bind (configOption fs)

/-- The option by the version of the entry. -/
def versionOption (fs : FileSystem) (e : BootEntry) : Option Bool :=
  e.version.bind (configOption fs)

/-- There is a config for the file name of the kernel, or else the configs of the two
versions tell the same. -/
def SameConfig (fs : FileSystem) (e e' : BootEntry) : Prop :=
  (namedOption fs e).isSome ∨ versionOption fs e = versionOption fs e'

/-- The answers of `dma_cached` to the entries of a scan in order. -/
def cachedRun (fs : FileSystem) : DmaCache → List BootEntry → List (Option Bool)
  | _, [] => []
  | cache, e :: rest =>
    (dmaCached cache fs e).1 :: cachedRun fs (dmaCached cache fs e).2 rest

/-- The file name goes first, then the version. -/
theorem dmaRestrictedPool_eq (fs : FileSystem) (e : BootEntry) :
    dmaRestrictedPool fs e = (namedOption fs e).or (versionOption fs e) := by
  have hall : dmaRestrictedPool fs e = (entryKernelReleases e).findSome? (configOption fs) := rfl
  rw [hall, entryKernelReleases, namedOption, versionOption]
  cases hnamed : e.kernel.bind kernelRelease with
  | none =>
    cases e.version with
    | none => rfl
    | some v => simp
  | some rel =>
    cases e.version with
    | none => simp
    | some v =>
      by_cases hv : v = rel
      · subst hv
        simp
      · simp [hv, List.findSome?_cons]
        cases configOption fs rel <;> cases configOption fs v <;> rfl

/-- Entries under one key have one file name. -/
theorem namedOption_eq {fs : FileSystem} {e e' : BootEntry} (h : dmaKey e = dmaKey e') :
    namedOption fs e = namedOption fs e' := by
  have hempty : kernelRelease [] = none := by decide
  have hkey : ∀ e : BootEntry, e.kernel.bind kernelRelease = kernelRelease (dmaKey e) := by
    intro e
    rw [dmaKey]
    cases e.kernel with
    | none => exact hempty.symm
    | some k => rfl
  rw [namedOption, namedOption, hkey, hkey, h]

private theorem sameConfig_iff {fs : FileSystem} {e e' : BootEntry} (h : dmaKey e = dmaKey e') :
    dmaRestrictedPool fs e = dmaRestrictedPool fs e' ↔ SameConfig fs e e' := by
  rw [dmaRestrictedPool_eq, dmaRestrictedPool_eq, ← namedOption_eq h, SameConfig]
  cases namedOption fs e <;> simp

/-- The cached run is the memo of the query. -/
private theorem cachedRun_eq (fs : FileSystem) (cache : DmaCache) (es : List BootEntry) :
    cachedRun fs cache es = Memo.run dmaKey (dmaRestrictedPool fs) cache es := by
  induction es generalizing cache with
  | nil => rfl
  | cons e rest ih =>
    have hask : dmaCached cache fs e = Memo.ask dmaKey (dmaRestrictedPool fs) cache e := by
      simp only [dmaCached, Memo.ask, dmaKey]
      cases List.lookup (e.kernel.getD []) cache <;> rfl
    rw [cachedRun, Memo.run, hask, ih]

/-- The items of `entries --json` carry the answers of the table. -/
theorem dma_partItems {table : PartitionTable} {pb : PartitionBoot} {fs : FileSystem}
    (hfs : pb.fs = some fs) {cache : DmaCache} {i : Nat} {es : List BootEntry} {items : List Item}
    (h : partItems table pb cache i es = .ok items) :
    items.map (·.dma) = cachedRun fs cache es := by
  induction es generalizing cache i items with
  | nil =>
    cases h
    rfl
  | cons e rest ih =>
    have hdma : itemDma cache pb e = dmaCached cache fs e := by rw [itemDma, hfs]
    rw [partItems] at h
    obtain ⟨fixed, -, h⟩ := Effect.bind_eq_ok_iff.mp h
    rw [hdma] at h
    obtain ⟨more, hmore, h⟩ := Effect.bind_eq_ok_iff.mp h
    cases h
    rw [List.map_cons, ih hmore, cachedRun]
    rfl

/-- The table is transparent exactly for the scans whose entries under one kernel path have
the same config, and `entries --json` then reports what `boot-info --json` reports. -/
theorem dma_cached_iff (fs : FileSystem) (es : List BootEntry) :
    (cachedRun fs [] es = es.map (dmaRestrictedPool fs) ↔
      es.Pairwise fun e e' => dmaKey e = dmaKey e' → SameConfig fs e e') ∧
    ∀ table pb items, pb.fs = some fs → partItems table pb [] 0 es = .ok items →
      items.map (·.dma) = cachedRun fs [] es := by
  constructor
  · rw [cachedRun_eq, Memo.run_eq_map_iff, and_iff_right (Memo.sound_nil es), Memo.Agree]
    constructor
    · exact fun h => h.imp fun hagree hkey => (sameConfig_iff hkey).mp (hagree hkey)
    · exact fun h => h.imp fun hsame hkey => (sameConfig_iff hkey).mpr (hsame hkey)
  · exact fun table pb items hfs h => dma_partItems hfs h

/-- Two kernels that were installed under one path, the older one with the option. -/
def sharedPathFs : FileSystem where
  readDir p :=
    if p = "/loader/entries".toList then .ok [⟨"a.conf".toList, .file⟩, ⟨"b.conf".toList, .file⟩]
    else .error (.notFound p)
  readFile p :=
    if p = "/loader/entries/a.conf".toList then
      .ok (Utf8.encode "version 1\nlinux /vmlinuz\n".toList)
    else if p = "/loader/entries/b.conf".toList then
      .ok (Utf8.encode "version 2\nlinux /vmlinuz\n".toList)
    else if p = "/config-1".toList then .ok (Utf8.encode "CONFIG_DMA_RESTRICTED_POOL=y\n".toList)
    else if p = "/config-2".toList then .ok (Utf8.encode "# no restricted pool\n".toList)
    else .error (.notFound p)
  «exists» p := p = "/loader/entries".toList ∨ p = "/vmlinuz".toList
  readPrefix p _ := .error (.notFound p)
  fileSize p := .error (.notFound p)
  readLink _ := none

/-- The table reports the option of the newer kernel for the older one. -/
theorem sharedPathFs_confused :
    ¬∀ fs scan, Boot.scan fs = .ok scan →
      cachedRun fs [] scan.entries = scan.entries.map (dmaRestrictedPool fs) := by
  intro h
  have hruns : (Boot.scan sharedPathFs).map (fun scan =>
      (cachedRun sharedPathFs [] scan.entries,
        scan.entries.map (dmaRestrictedPool sharedPathFs))) =
      .ok ([some false, some false], [some false, some true]) := by
    decide +kernel
  cases hscan : Boot.scan sharedPathFs with
  | error f =>
    rw [hscan] at hruns
    cases hruns
  | ok scan =>
    rw [hscan] at hruns
    obtain ⟨hcached, hdirect⟩ := Prod.mk.inj (Except.ok.inj hruns)
    have heq := h _ _ hscan
    rw [hcached, hdirect] at heq
    exact absurd heq (by decide)

end BootExtractor.Cli
