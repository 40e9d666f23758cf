import BootExtractor.Cli.Addresses
import BootExtractor.Fsys.Backends

/-!
# What the listings report

The listings look at the start of a kernel only, but what they report is said of the file
that the other commands read at its address.
-/

namespace BootExtractor.Cli

open Boot Effect Fsys Guest Kernel BootExtractor.Part

/-- The compression that is reported for the kernel of an entry is that of the file that `cat`
writes out at the address of the kernel, exactly if this is no unified kernel image with its
`.linux` header behind the start; and then `cp`, `md5` and `extract` unwrap what was reported
when they are asked to. -/
theorem reported_compression {libs : Libraries} (hlibs : libs.ReadWhole) {disk : Device}
    {parts : List PartitionBoot} (h : bootable (backends libs) disk = .ok parts)
    {pb : PartitionBoot} (hpb : pb ∈ parts) {fs : FileSystem} (hfs : pb.fs = some fs)
    {e : BootEntry} (he : e ∈ pb.scan.entries) {kernel : Str} (hkernel : e.kernel = some kernel)
    {part : Option Nat} {data : Bytes}
    (hcat : cmdCat (backends libs) disk (uri pb.partition.index kernel) part = .ok data)
    {c : Codecs} (hc : c.HeadFits) :
    (kernelCompression c fs e = compression c data ↔ ¬LateLinux data) ∧
      (¬LateLinux data → kernelData c true data =
        match kernelCompression c fs e with
        | none => .ok data
        | some wrapper => attempt c data wrapper) := by
  obtain ⟨hreaches, habsolute⟩ := reaches_of_listed h hpb hfs
  have hpaths : kernel ∈ e.paths := List.mem_append_left _ (Option.mem_toList.mpr hkernel)
  have haddressed : kernel ∈ addressed pb :=
    List.mem_append_left _ (List.mem_flatMap.mpr ⟨e, he, hpaths⟩)
  have hread := (hreaches.read (habsolute kernel haddressed) part).2
  rw [cmdCat, hread] at hcat
  have hfile : fs.readFile kernel = .ok data := by
    cases hfile : fs.readFile kernel with
    | error err =>
      rw [hfile] at hcat
      cases hcat
    | ok found =>
      rw [hfile] at hcat
      cases hcat
      rfl
  have hreport := (coherent_open hlibs hreaches.opens).kernelCompression c hkernel hfile
  have hsame : kernelCompression c fs e = compression c data ↔ ¬LateLinux data := by
    rw [hreport]
    exact compression_sniff_eq_iff hc
  refine ⟨hsame, fun hlate => ?_⟩
  rw [hsame.mpr hlate]
  change toBootable c data = _
  cases hcompression : compression c data with
  | none => exact toBootable_raw hcompression
  | some wrapper => exact toBootable_eq_attempt hcompression

/-- The packed kernel as it is read, in three pieces. -/
def piecedGzip : Remote.Stream :=
  [.piece 0x1f [0x8b], .piece 0x4d [0x5a], .piece 0 (smallImage.drop 3)]

/-- A FAT filesystem with one kernel, which comes in pieces. -/
def piecedFat : FatView where
  rootDir := [.ok ⟨".".toList, true⟩, .ok ⟨"vmlinuz-6.1".toList, false⟩]
  openDir _ := .error "not a directory".toList
  openFile path :=
    if path = "vmlinuz-6.1".toList then .ok ⟨piecedGzip, .ok storedGzip.length⟩
    else .error "not found".toList

/-- A disk that holds it. -/
def piecedDisk : Device := (bareFat "PIECED FILE").device

/-- Libraries that know this disk. -/
def piecedLibraries : Libraries where
  ext4 _ := .error "bad superblock".toList
  fat dev :=
    if beginsWith dev (fatSector "PIECED FILE") then .ok piecedFat
    else .error "unknown volume".toList

/-- A packed kernel is reported as such, and unwrapped when it is copied. -/
theorem reported_compression_pieced :
    ∃ (fs : FileSystem) (e : BootEntry), e.kernel = some "/vmlinuz-6.1".toList ∧
      cmdCat (backends piecedLibraries) piecedDisk "p1:/vmlinuz-6.1".toList none =
        .ok storedGzip ∧
      compression storedCodecs storedGzip = some .gzip ∧ ¬LateLinux storedGzip ∧
      (kernelCompression storedCodecs fs e = compression storedCodecs storedGzip ↔
        ¬LateLinux storedGzip) ∧
      (¬LateLinux storedGzip → kernelData storedCodecs true storedGzip =
        match kernelCompression storedCodecs fs e with
        | none => .ok storedGzip
        | some wrapper => attempt storedCodecs storedGzip wrapper) := by
  have hlibs : piecedLibraries.ReadWhole := fun _ _ hv => by cases hv
  have hlisted : (bootable (backends piecedLibraries) piecedDisk).toOption.any (fun parts =>
      parts.any fun pb => pb.partition.index == 1 && pb.fs.isSome &&
        pb.scan.entries.any fun e => e.kernel == some "/vmlinuz-6.1".toList) = true := by
    decide +kernel
  have hcat : (cmdCat (backends piecedLibraries) piecedDisk (uri 1 "/vmlinuz-6.1".toList)
      none).toOption = some storedGzip := by
    decide +kernel
  have hgzip : compression storedCodecs storedGzip = some .gzip := by decide +kernel
  have hlate : ¬LateLinux storedGzip := by
    rw [← compression_sniff_eq_iff storedCodecs_headFits]
    decide +kernel
  obtain ⟨parts, hparts, hany⟩ := (Option.any_eq_true _ _).mp hlisted
  obtain ⟨pb, hpb, hall⟩ := List.any_eq_true.mp hany
  obtain ⟨hnamed, hentries⟩ := Bool.and_eq_true_iff.mp hall
  obtain ⟨hindex, hfs⟩ := Bool.and_eq_true_iff.mp hnamed
  obtain ⟨fs, hfs⟩ := Option.isSome_iff_exists.mp hfs
  obtain ⟨e, he, hkernel⟩ := List.any_eq_true.mp hentries
  have hread := ok_of_toOption hcat
  rw [← beq_iff_eq.mp hindex] at hread
  exact ⟨fs, e, beq_iff_eq.mp hkernel, ok_of_toOption hcat, hgzip, hlate,
    reported_compression hlibs (ok_of_toOption hparts) hpb hfs he (beq_iff_eq.mp hkernel) hread
      storedCodecs_headFits⟩

end BootExtractor.Cli
