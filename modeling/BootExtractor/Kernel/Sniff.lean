import BootExtractor.Boot.Entry
import BootExtractor.Kernel.FixedPoint

/-!
# Classifying a file by its start

A listing reads the first bytes of a kernel and reports how it is wrapped. The start
tells what the whole file tells, but for a unified kernel image with the header of its
`.linux` section further back.
-/

namespace BootExtractor.Kernel

open Boot Bytes

/-- `SNIFF_LEN`. -/
def sniffLen : Nat := 8192

/-- `kernel_compression`, as the listings report it. -/
def kernelCompression (c : Codecs) (fs : FileSystem) (e : BootEntry) : Option Compression :=
  e.kernel.bind fun kernel => (fs.readPrefix kernel sniffLen).toOption.bind (compression c)

/-- The unwrapping that a wrapper asks for. -/
def attempt (c : Codecs) (data : Bytes) : Compression → Except Error Bytes
  | .gzip => gunzip c data
  | .zboot codec => unzboot c data codec
  | .uki =>
    match ukiLinux data with
    | .error e => .error e
    | .ok inner => toBootableInner c inner 1

/-- What is reported from the start of a file is what unwrapping does with all of it. -/
def SniffAgrees (c : Codecs) (data : Bytes) : Prop :=
  compression c (data.take sniffLen) = compression c data ∧
  ∀ fs e kernel, e.kernel = some kernel →
    fs.readPrefix kernel sniffLen = .ok (data.take sniffLen) →
      (kernelCompression c fs e = none → toBootable c data = .ok data) ∧
      ∀ wrapper, kernelCompression c fs e = some wrapper →
        toBootable c data = attempt c data wrapper

/-- The streaming decoder goes by the start of its input, and a start of this length is
enough for it. -/
structure Codecs.HeadFits (c : Codecs) : Prop where
  mono : ∀ start file head, start <+: file → c.gunzipHead start = some head →
    c.gunzipHead file = some head
  fits : ∀ file head, c.gunzipHead file = some head → c.gunzipHead (file.take sniffLen) = some head

/-- The first `.linux` section among `remaining` sections from the `i`-th on has its header,
up to the place of its data, at this offset. -/
inductive LinuxAt (data : Bytes) (table : Nat) : Nat → Nat → Nat → Prop where
  | here {remaining i : Nat}
      (hname : get? data (table + i * sectionHeaderSize) 8 = some ukiLinuxSection)
      (hlen : table + i * sectionHeaderSize + 24 ≤ data.length) :
      LinuxAt data table (remaining + 1) i (table + i * sectionHeaderSize)
  | next {remaining i header : Nat} {name : Bytes}
      (hname : get? data (table + i * sectionHeaderSize) 8 = some name)
      (hother : name ≠ ukiLinuxSection) (hrest : LinuxAt data table remaining (i + 1) header) :
      LinuxAt data table (remaining + 1) i header

/-- A PE file with a `.linux` section whose header is at this offset. -/
structure LinuxHeader (data : Bytes) (header : Nat) : Prop where
  mz : get? data 0 2 = some mz
  linux : ∃ peOff sections optSize, u32Le data peHeaderOffsetAt = some peOff ∧
    get? data peOff 4 = some peSignature ∧
    u16Le data (peOff + 4 + coffNumSectionsAt) = some sections ∧
    u16Le data (peOff + 4 + coffOptHeaderSizeAt) = some optSize ∧
    LinuxAt data (peOff + 4 + coffSize + optSize) sections 0 header

/-- A unified kernel image, in no other way a kernel, whose `.linux` header is not all among
the first bytes. -/
def LateLinux (data : Bytes) : Prop :=
  isArm64Image data = false ∧ isZboot data = false ∧
    ∃ header, LinuxHeader data header ∧ sniffLen < header + 24

section Sections

variable {data : Bytes} {table remaining i header n : Nat}

private theorem leAt_isSome_iff (data : Bytes) (off len : Nat) :
    (leAt data off len).isSome ↔ off + len ≤ data.length := by
  unfold leAt get?
  split <;> simp_all

private theorem leAt_take (data : Bytes) (n off len : Nat) :
    leAt (data.take n) off len = if off + len ≤ n then leAt data off len else none := by
  unfold leAt
  rw [get?_take]
  split <;> rfl

/-- The place and the size stand in the header up to its byte 24. -/
theorem placed_isSome_iff (data : Bytes) (header : Nat) :
    (do
      let size ← u32Le data (header + sectionRawSizeAt)
      let ptr ← u32Le data (header + sectionRawPtrAt)
      some (ptr, size)).isSome ↔ header + 24 ≤ data.length := by
  have hsize := leAt_isSome_iff data (header + sectionRawSizeAt) 4
  have hptr := leAt_isSome_iff data (header + sectionRawPtrAt) 4
  have h16 : sectionRawSizeAt = 16 := rfl
  have h20 : sectionRawPtrAt = 20 := rfl
  unfold u32Le
  cases hs : leAt data (header + sectionRawSizeAt) 4 with
  | none =>
    rw [hs] at hsize
    simp at hsize ⊢
    omega
  | some size =>
    cases hp : leAt data (header + sectionRawPtrAt) 4 with
    | none =>
      rw [hp] at hptr
      simp at hptr ⊢
      omega
    | some ptr =>
      rw [hp] at hptr
      simp at hptr ⊢
      omega

private theorem not_linuxAt_of_name (hname : get? data (table + i * sectionHeaderSize) 8 = none) :
    ¬ LinuxAt data table remaining i header := by
  intro h
  cases h with
  | here h => cases hname.symm.trans h
  | next h => cases hname.symm.trans h

/-- A section of that name is found if its header is whole. -/
private theorem linuxAt_here_iff
    (hname : get? data (table + i * sectionHeaderSize) 8 = some ukiLinuxSection) :
    (∃ header, LinuxAt data table (remaining + 1) i header) ↔
      table + i * sectionHeaderSize + 24 ≤ data.length := by
  constructor
  · rintro ⟨_, h⟩
    cases h with
    | here _ hlen => exact hlen
    | next h hother =>
      cases hname.symm.trans h
      exact absurd rfl hother
  · intro hlen
    exact ⟨_, .here hname hlen⟩

/-- A section of another name is passed over. -/
private theorem linuxAt_next_iff {name : Bytes}
    (hname : get? data (table + i * sectionHeaderSize) 8 = some name)
    (hother : name ≠ ukiLinuxSection) :
    LinuxAt data table (remaining + 1) i header ↔ LinuxAt data table remaining (i + 1) header := by
  constructor
  · intro h
    cases h with
    | here h =>
      cases hname.symm.trans h
      exact absurd rfl hother
    | next _ _ h => exact h
  · exact .next hname hother

/-- The search of the table finds a section exactly if there is a header of one. -/
private theorem linuxSection_isSome_iff : (linuxSection data table remaining i).isSome ↔
    ∃ header, LinuxAt data table remaining i header := by
  induction remaining generalizing i with
  | zero =>
    constructor
    · intro h
      cases h
    · rintro ⟨_, ⟨⟩⟩
  | succ remaining ih =>
    rw [linuxSection]
    cases hname : get? data (table + i * sectionHeaderSize) 8 with
    | none =>
      constructor
      · intro h
        cases h
      · rintro ⟨_, h⟩
        exact absurd h (not_linuxAt_of_name hname)
    | some name =>
      simp only
      by_cases hlinux : name = ukiLinuxSection
      · subst hlinux
        rw [if_pos rfl, placed_isSome_iff, linuxAt_here_iff hname]
      · rw [if_neg hlinux, ih]
        exact exists_congr fun header => (linuxAt_next_iff hname hlinux).symm

/-- The search finds a section exactly if there is a header of one. -/
private theorem peLinuxSection_isSome_iff :
    (peLinuxSection data).isSome ↔ ∃ header, LinuxHeader data header := by
  unfold peLinuxSection
  by_cases hmz : get? data 0 2 = some mz
  · rw [if_neg (not_not.mpr hmz)]
    constructor
    · intro h
      obtain ⟨r, h⟩ := Option.isSome_iff_exists.mp h
      obtain ⟨peOff, hpe, h⟩ := Option.bind_eq_some_iff.mp h
      split at h
      · cases h
      · rename_i hsig
        obtain ⟨sections, hsections, h⟩ := Option.bind_eq_some_iff.mp h
        obtain ⟨optSize, hopt, h⟩ := Option.bind_eq_some_iff.mp h
        obtain ⟨header, hlinux⟩ := linuxSection_isSome_iff.mp (Option.isSome_iff_exists.mpr ⟨r, h⟩)
        exact ⟨header, hmz, peOff, sections, optSize, hpe, not_not.mp hsig, hsections, hopt, hlinux⟩
    · rintro ⟨header, _, peOff, sections, optSize, hpe, hsig, hsections, hopt, hlinux⟩
      simp only [hpe, hsig, hsections, hopt, ne_eq, not_true_eq_false, if_false,
        Option.bind_eq_bind, Option.bind_some]
      exact linuxSection_isSome_iff.mpr ⟨header, hlinux⟩
  · rw [if_pos hmz]
    constructor
    · intro h
      cases h
    · rintro ⟨header, h⟩
      exact absurd h.mz hmz

/-- The header that is found lies in the table. -/
theorem LinuxAt.table_le (h : LinuxAt data table remaining i header) :
    table + i * sectionHeaderSize ≤ header := by
  induction h with
  | here => exact Nat.le_refl _
  | @next remaining i header name _ _ _ ih =>
    have hnext : (i + 1) * sectionHeaderSize = i * sectionHeaderSize + sectionHeaderSize :=
      Nat.succ_mul i sectionHeaderSize
    omega

/-- In a prefix the section is found as long as its header is all there. -/
theorem linuxAt_take_iff : LinuxAt (data.take n) table remaining i header ↔
    LinuxAt data table remaining i header ∧ header + 24 ≤ n := by
  constructor
  · intro h
    induction h with
    | here hname hlen =>
      rw [get?_take] at hname
      rw [List.length_take] at hlen
      split at hname
      · exact ⟨.here hname (by omega), by omega⟩
      · cases hname
    | next hname hother _ ih =>
      rw [get?_take] at hname
      split at hname
      · exact ⟨.next hname hother ih.1, ih.2⟩
      · cases hname
  · rintro ⟨h, hle⟩
    induction h with
    | here hname hlen =>
      refine .here ?_ ?_
      · rw [get?_take, if_pos (by omega)]
        exact hname
      · rw [List.length_take]
        omega
    | @next remaining i header name hname hother hrest ih =>
      have htable := hrest.table_le
      have hnext : (i + 1) * sectionHeaderSize = i * sectionHeaderSize + sectionHeaderSize :=
        Nat.succ_mul i sectionHeaderSize
      have h40 : sectionHeaderSize = 40 := rfl
      refine .next ?_ hother (ih hle)
      rw [get?_take, if_pos (by omega)]
      exact hname

/-- A front of the file shows the header exactly if it holds its first 24 bytes. -/
private theorem linuxHeader_take_iff (hn : 64 ≤ n) : LinuxHeader (data.take n) header ↔
    LinuxHeader data header ∧ header + 24 ≤ n := by
  have hpeOff : u32Le (data.take n) peHeaderOffsetAt = u32Le data peHeaderOffsetAt := by
    unfold u32Le
    rw [leAt_take, if_pos (show peHeaderOffsetAt + 4 ≤ n from hn)]
  have hmz : get? (data.take n) 0 2 = get? data 0 2 := by
    rw [get?_take, if_pos (by omega)]
  have h2 : coffNumSectionsAt = 2 := rfl
  have h16 : coffOptHeaderSizeAt = 16 := rfl
  have h20 : coffSize = 20 := rfl
  constructor
  · rintro ⟨hmagic, peOff, sections, optSize, hpe, hsig, hsections, hopt, hlinux⟩
    rw [hmz] at hmagic
    rw [hpeOff] at hpe
    rw [linuxAt_take_iff] at hlinux
    have htable := hlinux.1.table_le
    unfold u16Le at hsections hopt
    rw [get?_take, if_pos (by omega)] at hsig
    rw [leAt_take, if_pos (by omega)] at hsections hopt
    exact ⟨⟨hmagic, peOff, sections, optSize, hpe, hsig, hsections, hopt, hlinux.1⟩, hlinux.2⟩
  · rintro ⟨⟨hmagic, peOff, sections, optSize, hpe, hsig, hsections, hopt, hlinux⟩, hle⟩
    have htable := hlinux.table_le
    unfold u16Le at hsections hopt
    refine ⟨hmz.trans hmagic, peOff, sections, optSize, hpeOff.trans hpe, ?_, ?_, ?_,
      linuxAt_take_iff.mpr ⟨hlinux, hle⟩⟩
    · rw [get?_take, if_pos (by omega)]
      exact hsig
    · unfold u16Le
      rw [leAt_take, if_pos (by omega)]
      exact hsections
    · unfold u16Le
      rw [leAt_take, if_pos (by omega)]
      exact hopt

/-- A PE file is not a gzip file. -/
theorem LinuxHeader.not_isGzip (h : LinuxHeader data header) : isGzip data = false := by
  have hmz := (get?_eq_some_iff.mp h.mz).2
  cases data with
  | nil => rfl
  | cons b rest =>
    have hb : b = 0x4d := by
      have := congrArg List.head? hmz
      simpa [Kernel.mz, slice] using this
    subst hb
    rfl

/-- There is one such section at most. -/
theorem LinuxAt.unique {header' : Nat} (h : LinuxAt data table remaining i header)
    (h' : LinuxAt data table remaining i header') : header = header' := by
  induction h with
  | here hname =>
    cases h' with
    | here => rfl
    | next hname' hother =>
      rw [hname] at hname'
      cases hname'
      exact absurd rfl hother
  | next hname hother _ ih =>
    cases h' with
    | here hname' =>
      rw [hname] at hname'
      cases hname'
      exact absurd rfl hother
    | next _ _ hrest => exact ih hrest

/-- The search stops at one header. -/
theorem LinuxHeader.unique {header' : Nat} (h : LinuxHeader data header)
    (h' : LinuxHeader data header') : header = header' := by
  obtain ⟨_, peOff, sections, optSize, hpe, _, hsections, hopt, hlinux⟩ := h
  obtain ⟨_, peOff', sections', optSize', hpe', _, hsections', hopt', hlinux'⟩ := h'
  rw [hpe] at hpe'
  cases hpe'
  rw [hsections] at hsections'
  cases hsections'
  rw [hopt] at hopt'
  cases hopt'
  exact hlinux.unique hlinux'

end Sections

section Sniffing

variable {c : Codecs} {data : Bytes}

private theorem isArm64Image_sniff : isArm64Image (data.take sniffLen) = isArm64Image data := by
  unfold isArm64Image
  rw [get?_take, if_pos (by decide)]

private theorem isZboot_sniff : isZboot (data.take sniffLen) = isZboot data := by
  unfold isZboot
  rw [get?_take, if_pos (by decide)]

private theorem zbootCompName_sniff : zbootCompName (data.take sniffLen) = zbootCompName data := by
  unfold zbootCompName
  rw [get?_take, if_pos (by decide)]

private theorem isGzip_sniff : isGzip (data.take sniffLen) = isGzip data := by
  unfold isGzip
  rw [Bool.eq_iff_iff, List.isPrefixOf_iff_prefix, List.isPrefixOf_iff_prefix,
    List.prefix_take_iff]
  exact and_iff_left (by decide)

/-- The decoder of the front sees the same first bytes. -/
private theorem gunzipHead_sniff (hc : c.HeadFits) :
    c.gunzipHead (data.take sniffLen) = c.gunzipHead data := by
  cases hwhole : c.gunzipHead data with
  | some head => exact hc.fits data head hwhole
  | none =>
    cases hstart : c.gunzipHead (data.take sniffLen) with
    | none => rfl
    | some head =>
      rw [hc.mono _ data head (List.take_prefix _ _) hstart] at hwhole
      cases hwhole

/-- The last form that the classifier tries is the only one that can be missed. -/
theorem compression_sniff (hc : c.HeadFits) : compression c (data.take sniffLen) =
    if isArm64Image data then none
    else if isZboot data then some (.zboot ((zbootCompName data).getD "unknown".toList))
    else if isGzip data && gunzipIsArm64 c data then some .gzip
    else if (peLinuxSection (data.take sniffLen)).isSome then some .uki
    else none := by
  rw [compression, isArm64Image_sniff, isZboot_sniff, zbootCompName_sniff, isGzip_sniff,
    gunzipIsArm64, gunzipHead_sniff hc]
  rfl

/-- The start of a file is classified like the file unless it is a late unified kernel image. -/
theorem compression_sniff_eq_iff (hc : c.HeadFits) :
    compression c (data.take sniffLen) = compression c data ↔ ¬LateLinux data := by
  rw [compression_sniff hc, compression, LateLinux]
  by_cases harm : isArm64Image data = true
  · simp [harm]
  rw [if_neg harm, if_neg harm]
  by_cases hzboot : isZboot data = true
  · simp [hzboot]
  rw [if_neg hzboot, if_neg hzboot]
  have harm' : isArm64Image data = false := by simpa using harm
  have hzboot' : isZboot data = false := by simpa using hzboot
  by_cases hgzip : (isGzip data && gunzipIsArm64 c data) = true
  · rw [if_pos hgzip, if_pos hgzip]
    refine iff_of_true rfl ?_
    rintro ⟨_, _, header, hheader, _⟩
    rw [hheader.not_isGzip] at hgzip
    cases hgzip
  rw [if_neg hgzip, if_neg hgzip]
  by_cases hwhole : (peLinuxSection data).isSome
  · obtain ⟨header, hheader⟩ := peLinuxSection_isSome_iff.mp hwhole
    rw [if_pos hwhole]
    by_cases hlate : header + 24 ≤ sniffLen
    · have hstart : (peLinuxSection (data.take sniffLen)).isSome :=
        peLinuxSection_isSome_iff.mpr
          ⟨header, (linuxHeader_take_iff (by decide)).mpr ⟨hheader, hlate⟩⟩
      rw [if_pos hstart]
      refine iff_of_true rfl ?_
      rintro ⟨_, _, header', hheader', hlt⟩
      rw [hheader'.unique hheader] at hlt
      omega
    · have hstart : ¬(peLinuxSection (data.take sniffLen)).isSome := by
        intro h
        obtain ⟨header', hheader'⟩ := peLinuxSection_isSome_iff.mp h
        obtain ⟨hdata, hle⟩ := (linuxHeader_take_iff (by decide)).mp hheader'
        rw [hdata.unique hheader] at hle
        exact hlate hle
      rw [if_neg hstart]
      refine iff_of_false (by simp) ?_
      rw [not_not]
      exact ⟨harm', hzboot', header, hheader, by omega⟩
  · have hstart : ¬(peLinuxSection (data.take sniffLen)).isSome := by
      intro h
      obtain ⟨header, hheader⟩ := peLinuxSection_isSome_iff.mp h
      exact hwhole (peLinuxSection_isSome_iff.mpr
        ⟨header, ((linuxHeader_take_iff (by decide)).mp hheader).1⟩)
    rw [if_neg hwhole, if_neg hstart]
    refine iff_of_true rfl ?_
    rintro ⟨_, _, header, hheader, _⟩
    exact hwhole (peLinuxSection_isSome_iff.mpr ⟨header, hheader⟩)

/-- Unwrapping does what the classification of the whole file asks for. -/
theorem toBootable_eq_attempt {wrapper : Compression} (h : compression c data = some wrapper) :
    toBootable c data = attempt c data wrapper := by
  rw [toBootable, toBootableInner, dif_neg (by decide), h]
  cases wrapper <;> rfl

/-- What a listing reports from the start of a kernel is what unwrapping does, exactly if the
file is no unified kernel image with its `.linux` header behind the start. -/
theorem sniffAgrees_iff (hc : c.HeadFits) (data : Bytes) :
    SniffAgrees c data ↔ ¬LateLinux data := by
  rw [← compression_sniff_eq_iff hc]
  constructor
  · exact fun h => h.1
  · intro hsame
    refine ⟨hsame, fun fs e kernel hkernel hread => ?_⟩
    have hreport : kernelCompression c fs e = compression c data := by
      rw [kernelCompression, hkernel, Option.bind_some, hread]
      exact hsame
    rw [hreport]
    exact ⟨toBootable_raw, fun wrapper => toBootable_eq_attempt⟩

end Sniffing

/-- The example decoders fit. -/
theorem storedCodecs_headFits : storedCodecs.HeadFits where
  mono start file head := by
    rintro ⟨rest, rfl⟩ h
    simp only [storedCodecs] at h ⊢
    split at h
    · rename_i hstart
      obtain ⟨hmagic, hlength⟩ := hstart
      have hmagic' : (start ++ rest).take 2 = [0x1f, 0x8b] := by
        rw [List.take_append_of_le_length (by omega), hmagic]
      have hlength' : 62 ≤ (start ++ rest).length := by
        rw [List.length_append]
        omega
      rw [if_pos ⟨hmagic', hlength'⟩, List.drop_append_of_le_length (by omega),
        List.take_append_of_le_length (by rw [List.length_drop]; omega), h]
    · cases h
  fits file head h := by
    simp only [storedCodecs] at h ⊢
    split at h
    · rename_i hfile
      have hmagic : (file.take sniffLen).take 2 = [0x1f, 0x8b] := by
        rw [List.take_take, Nat.min_eq_left (by decide), hfile.1]
      have hlength : 62 ≤ (file.take sniffLen).length := by
        rw [List.length_take]
        exact Nat.le_min.mpr ⟨by decide, hfile.2⟩
      rw [if_pos ⟨hmagic, hlength⟩, List.drop_take, List.take_take,
        Nat.min_eq_left (by decide), h]
    · cases h

/-- A gzip file that goes on behind what a listing reads. -/
def longGzip : Bytes := storedGzip ++ List.replicate 8200 0

private theorem longGzip_isGzip : isGzip longGzip = true := by decide +kernel

/-- The start of the file tells that it is a gzip file of a kernel. -/
theorem sniffAgrees_longGzip : sniffLen < longGzip.length ∧
    compression storedCodecs (longGzip.take sniffLen) = some .gzip ∧
    SniffAgrees storedCodecs longGzip := by
  refine ⟨by decide +kernel, by decide +kernel, ?_⟩
  apply (sniffAgrees_iff storedCodecs_headFits longGzip).mpr
  rintro ⟨_, _, header, hheader, _⟩
  have hgzip := longGzip_isGzip
  rw [hheader.not_isGzip] at hgzip
  cases hgzip

private theorem noCodecs_headFits : noCodecs.HeadFits :=
  ⟨fun _ _ _ _ h => h, fun _ _ h => h⟩

/-- A PE file with an optional header of 8200 bytes and a `.linux` section without data. -/
def lateUki : Bytes :=
  mz ++ List.replicate 58 0 ++ toLe 4 64 ++ peSignature ++ [0x64, 0xaa] ++ toLe 2 1 ++
    List.replicate 12 0 ++ toLe 2 8200 ++ [0, 0] ++ List.replicate 8200 0 ++ ukiLinuxSection ++
    List.replicate 32 0

/-- Its start tells nothing. -/
theorem late_uki_not_sniffed : noCodecs.HeadFits ∧ ¬SniffAgrees noCodecs lateUki := by
  refine ⟨noCodecs_headFits, fun hagrees => ?_⟩
  have hstart : compression noCodecs (lateUki.take sniffLen) = none := by decide +kernel
  have hwhole : compression noCodecs lateUki = some .uki := by decide +kernel
  rw [hagrees.1, hwhole] at hstart
  cases hstart

end BootExtractor.Kernel
