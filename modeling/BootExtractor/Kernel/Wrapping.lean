import BootExtractor.Kernel.Unwrap

/-!
# Unwrapping undoes wrapping

What a gzip file, a zboot file and a unified kernel image of something are, as
layouts with free offsets. The classifier recognises each of them unless an earlier
form matches too, and unwrapping a nest of them gives back the image inside, as far
as the depth cap lets it.
-/

namespace BootExtractor.Kernel

open Bytes

/-- The encoders, as relations between contents and files. -/
structure Encoders where
  gzip : Bytes → Bytes → Prop
  zstd : Bytes → Bytes → Prop

/-- The decoders undo the encoders, and the streaming gzip decoder agrees with the full one. -/
structure Codecs.Inverts (c : Codecs) (e : Encoders) : Prop where
  gunzip : ∀ content file, e.gzip content file → c.gunzip file = .ok content
  unzstd : ∀ content file, e.zstd content file → c.unzstd file = .ok content
  /-- A gzip file starts with the magic of the format. -/
  gzip_magic : ∀ content file, e.gzip content file → [0x1f, 0x8b] <+: file
  head : ∀ file content, c.gunzip file = .ok content → 60 ≤ content.length →
    c.gunzipHead file = some (content.take 60)

/-- A zboot file: somewhere the payload, in the header its place and the name of its codec. -/
structure ZbootFile (codec : Str) (payload data : Bytes) (payloadOff : Nat) : Prop where
  magic : At data 4 zimgMagic
  offset : At data 8 (toLe 4 payloadOff)
  offset_lt : payloadOff < 2 ^ 32
  size : At data 12 (toLe 4 payload.length)
  size_lt : payload.length < 2 ^ 32
  name : At data 24 (Utf8.encode codec)
  name_free : ∀ b ∈ Utf8.encode codec, b ≠ 0
  /-- The name ends with a NUL or fills its field, which is all there. -/
  name_end : (Utf8.encode codec).length < 32 ∧ At data (24 + (Utf8.encode codec).length) [0] ∨
    (Utf8.encode codec).length = 32
  header : 56 ≤ data.length
  payload : At data payloadOff payload

/-- Place and numbers of the headers of a unified kernel image. -/
structure UkiNumbers where
  peOff : Nat
  optSize : Nat
  sections : Nat
  /-- Sections in front of the kernel's. -/
  before : Nat
  ptr : Nat

/-- Offset of the section table. -/
def UkiNumbers.table (n : UkiNumbers) : Nat := n.peOff + 24 + n.optSize

/-- A unified kernel image: a PE file with a `.linux` section after sections of other names. -/
structure UkiFile (inner data : Bytes) (n : UkiNumbers) : Prop where
  mz : At data 0 mz
  peOff : At data 0x3c (toLe 4 n.peOff)
  peOff_lt : n.peOff < 2 ^ 32
  signature : At data n.peOff peSignature
  sections : At data (n.peOff + 6) (toLe 2 n.sections)
  sections_lt : n.sections < 2 ^ 16
  optSize : At data (n.peOff + 20) (toLe 2 n.optSize)
  optSize_lt : n.optSize < 2 ^ 16
  before_lt : n.before < n.sections
  others : ∀ i < n.before, ∃ name : Bytes, name.length = 8 ∧ name ≠ ukiLinuxSection ∧
    At data (n.table + i * 40) name
  linux : At data (n.table + n.before * 40) ukiLinuxSection
  size : At data (n.table + n.before * 40 + 16) (toLe 4 inner.length)
  size_lt : inner.length < 2 ^ 32
  ptr : At data (n.table + n.before * 40 + 20) (toLe 4 n.ptr)
  ptr_lt : n.ptr < 2 ^ 32
  inner : At data n.ptr inner

/-- A file that unwraps to an image, with the number of unified kernel images around it.
No file of the nest matches a form that the classifier tries before its own. -/
inductive Wrapping (e : Encoders) (img : Bytes) : Nat → Bytes → Prop where
  | image : Wrapping e img 0 img
  | gzip {file : Bytes} (hgz : e.gzip img file) (harm : isArm64Image file = false)
      (hzboot : isZboot file = false) : Wrapping e img 0 file
  | zboot {codec : Str} {payload file : Bytes} {off : Nat}
      (hfile : ZbootFile codec payload file off)
      (hcodec : "gzip".toList <+: codec ∧ e.gzip img payload ∨
        "zstd".toList <+: codec ∧ e.zstd img payload)
      (harm : isArm64Image file = false) : Wrapping e img 0 file
  | uki {inner file : Bytes} {layers : Nat} {n : UkiNumbers} (hfile : UkiFile inner file n)
      (harm : isArm64Image file = false) (hzboot : isZboot file = false)
      (hinner : Wrapping e img layers inner) : Wrapping e img (layers + 1) file

section Zboot

variable {codec : Str} {payload data : Bytes} {off : Nat}

/-- A zboot file is known by its magic. -/
theorem ZbootFile.isZboot (h : ZbootFile codec payload data off) : isZboot data = true := by
  rw [Kernel.isZboot, beq_iff_eq]
  exact h.magic

/-- The bytes of the name field up to the first NUL are the name. -/
theorem ZbootFile.name_field (h : ZbootFile codec payload data off) :
    (slice data 24 32).takeWhile (· ≠ 0) = Utf8.encode codec := by
  have hfree : ∀ b ∈ Utf8.encode codec, (decide (b ≠ 0)) = true :=
    fun b hb => decide_eq_true (h.name_free b hb)
  rcases h.name_end with ⟨hlt, hnul⟩ | hfull
  · have hsplit : slice data 24 32 = Utf8.encode codec ++
        (0 :: slice data (24 + (Utf8.encode codec).length + 1)
          (31 - (Utf8.encode codec).length)) := by
      have hlen : 32 = (Utf8.encode codec).length + (1 + (31 - (Utf8.encode codec).length)) := by
        omega
      rw [hlen, slice_add, slice_add, h.name.slice, show slice data _ 1 = [0] from hnul.slice,
        List.singleton_append]
    rw [hsplit, List.takeWhile_append_of_pos hfree]
    simp
  · have hall : slice data 24 32 = Utf8.encode codec := by
      rw [← hfull]
      exact h.name.slice
    rw [hall, List.takeWhile_eq_self_iff]
    exact hfree

/-- A zboot file names its compression. -/
theorem ZbootFile.zbootCompName (h : ZbootFile codec payload data off) (hne : codec ≠ []) :
    zbootCompName data = some codec := by
  have hget : get? data zbootCompType zbootCompTypeLen = some (slice data 24 32) :=
    if_pos h.header
  have hdecode : Utf8.decode? ((slice data 24 32).takeWhile (· ≠ 0)) = some codec := by
    rw [h.name_field, Utf8.decode?_encode]
  simp only [Kernel.zbootCompName, hget, Option.bind_eq_bind, Option.bind_some, hdecode, if_neg hne]

/-- The sum of two 32-bit numbers does not overflow. -/
theorem part_ok {what overflow : Str} {b : Bytes} (hoff : off < 2 ^ 32)
    (hsize : b.length < 2 ^ 32) (h : At data off b) :
    part what overflow data off b.length = .ok b := by
  have hadd : checkedAdd off b.length = some (off + b.length) := if_pos (by omega)
  simp only [part, hadd, show get? data off b.length = some b from h]

/-- A zboot file hands its payload to the decoder it names. -/
theorem ZbootFile.unzboot (h : ZbootFile codec payload data off) (c : Codecs) :
    unzboot c data codec =
      if Str.startsWith codec "gzip".toList then Kernel.gunzip c payload
      else if Str.startsWith codec "zstd".toList then Kernel.unzstd c payload
      else .error (.kernelDecompress
        ("unsupported zboot kernel compression: ".toList ++ codec)) := by
  have hoff : readU32Le data zbootPayloadOffset = .ok off := by
    rw [readU32Le, u32Le, zbootPayloadOffset, h.offset.leAt h.offset_lt]
  have hsize : readU32Le data zbootPayloadSize = .ok payload.length := by
    rw [readU32Le, u32Le, zbootPayloadSize, h.size.leAt h.size_lt]
  rw [Kernel.unzboot, hoff]
  simp only [bind, Except.bind, hsize, part_ok h.offset_lt h.size_lt h.payload]

end Zboot

section Uki

variable {inner data : Bytes} {n : UkiNumbers}

/-- Sections of other names are passed over. -/
theorem UkiFile.linuxSection (h : UkiFile inner data n) {remaining i : Nat}
    (hi : i ≤ n.before) (hrem : remaining + i = n.sections) :
    linuxSection data n.table remaining i = some (n.ptr, inner.length) := by
  have hlt := h.before_lt
  induction remaining generalizing i with
  | zero => omega
  | succ remaining ih =>
    by_cases heq : i = n.before
    · subst heq
      have hname : get? data (n.table + n.before * 40) 8 = some ukiLinuxSection := h.linux
      have hsize : u32Le data (n.table + n.before * 40 + 16) = some inner.length :=
        h.size.leAt h.size_lt
      have hptr : u32Le data (n.table + n.before * 40 + 20) = some n.ptr := h.ptr.leAt h.ptr_lt
      simp only [Kernel.linuxSection, sectionHeaderSize, sectionRawSizeAt, sectionRawPtrAt, hname,
        hsize, hptr, if_true, Option.bind_eq_bind, Option.bind_some]
    · obtain ⟨name, hlen, hne, hat⟩ := h.others i (by omega)
      have hname : get? data (n.table + i * 40) 8 = some name := hlen ▸ hat
      simp only [Kernel.linuxSection, sectionHeaderSize, hname, if_neg hne]
      exact ih (by omega) (by omega)

/-- The section of a unified kernel image is found. -/
theorem UkiFile.peLinuxSection (h : UkiFile inner data n) :
    peLinuxSection data = some (n.ptr, inner.length) := by
  have hmz : get? data 0 2 = some Kernel.mz := h.mz
  have hpe : u32Le data peHeaderOffsetAt = some n.peOff := h.peOff.leAt h.peOff_lt
  have hsig : get? data n.peOff 4 = some peSignature := h.signature
  have hnum : u16Le data (n.peOff + 4 + coffNumSectionsAt) = some n.sections :=
    h.sections.leAt h.sections_lt
  have hopt : u16Le data (n.peOff + 4 + coffOptHeaderSizeAt) = some n.optSize :=
    h.optSize.leAt h.optSize_lt
  have htable : n.peOff + 4 + coffSize + n.optSize = n.table := rfl
  simp only [Kernel.peLinuxSection, hmz, hpe, hsig, hnum, hopt, htable, ne_eq, not_true_eq_false,
    if_false, Option.bind_eq_bind, Option.bind_some]
  exact h.linuxSection (Nat.zero_le _) rfl

/-- A PE file is no gzip file. -/
theorem UkiFile.not_isGzip (h : UkiFile inner data n) : isGzip data = false := by
  have hmz : data.take 2 = Kernel.mz := h.mz.slice
  cases data with
  | nil => rfl
  | cons b rest =>
    have hb : b = 0x4d := by
      have := congrArg List.head? hmz
      simpa [Kernel.mz] using this
    subst hb
    rfl

/-- A unified kernel image hands out the kernel in its section. -/
theorem UkiFile.ukiLinux (h : UkiFile inner data n) : ukiLinux data = .ok inner := by
  simp only [Kernel.ukiLinux, h.peLinuxSection, part_ok h.ptr_lt h.size_lt h.inner]

end Uki

section Classification

variable {c : Codecs} {e : Encoders} {img file : Bytes}

/-- A raw Image is known by its magic. -/
theorem isArm64Image_iff {data : Bytes} : isArm64Image data = true ↔ At data 56 arm64Magic := by
  rw [isArm64Image, beq_iff_eq]
  exact Iff.rfl

/-- The header alone decides whether a file is an arm64 image. -/
theorem isArm64Image_take {data : Bytes} (h : isArm64Image data) :
    60 ≤ data.length ∧ isArm64Image (data.take 60) := by
  have hat := isArm64Image_iff.mp h
  have hlen : 56 + 4 ≤ data.length := hat.le_length
  refine ⟨hlen, isArm64Image_iff.mpr ?_⟩
  rw [At, get?_eq_some_iff]
  constructor
  · rw [List.length_take]
    exact Nat.le_min.mpr ⟨Nat.le_refl _, hlen⟩
  · have hpart : slice (slice data 0 60) 56 4 = slice data (0 + 56) 4 := slice_slice (by decide)
    rw [slice_zero_offset, Nat.zero_add] at hpart
    exact hpart.trans hat.slice

/-- A raw Image is not wrapped. -/
theorem compression_image (himg : isArm64Image img) : compression c img = none := by
  rw [compression, if_pos himg]

private theorem compression_gzip (hc : c.Inverts e) (himg : isArm64Image img)
    (hgz : e.gzip img file)
    (harm : isArm64Image file = false) (hzboot : isZboot file = false) :
    compression c file = some .gzip := by
  obtain ⟨hlen, htake⟩ := isArm64Image_take himg
  have hmagic : isGzip file = true := List.isPrefixOf_iff_prefix.mpr (hc.gzip_magic img file hgz)
  have hhead : gunzipIsArm64 c file = true := by
    rw [gunzipIsArm64, hc.head file img (hc.gunzip img file hgz) hlen]
    exact htake
  simp [compression, harm, hzboot, hmagic, hhead]

private theorem compression_zboot {codec : Str} {payload : Bytes} {off : Nat}
    (hfile : ZbootFile codec payload file off) (hne : codec ≠ [])
    (harm : isArm64Image file = false) : compression c file = some (.zboot codec) := by
  simp [compression, harm, hfile.isZboot, hfile.zbootCompName hne]

private theorem compression_uki {inner : Bytes} {n : UkiNumbers} (hfile : UkiFile inner file n)
    (harm : isArm64Image file = false) (hzboot : isZboot file = false) :
    compression c file = some .uki := by
  simp [compression, harm, hzboot, hfile.not_isGzip, hfile.peLinuxSection]

end Classification

section Unwrapping

variable {c : Codecs} {e : Encoders} {img data : Bytes}

private theorem gunzip_encoded (hc : c.Inverts e) (h : e.gzip img data) :
    gunzip c data = .ok img := by
  rw [gunzip, hc.gunzip img data h]
  rfl

private theorem unzstd_encoded (hc : c.Inverts e) (h : e.zstd img data) :
    unzstd c data = .ok img := by
  rw [unzstd, hc.unzstd img data h]
  rfl

/-- A supported codec name is not empty, and the two families of names exclude each other. -/
theorem unzboot_encoded {codec : Str} {payload : Bytes} {off : Nat} (hc : c.Inverts e)
    (hfile : ZbootFile codec payload data off)
    (hcodec : "gzip".toList <+: codec ∧ e.gzip img payload ∨
      "zstd".toList <+: codec ∧ e.zstd img payload) :
    codec ≠ [] ∧ unzboot c data codec = .ok img := by
  rw [hfile.unzboot c]
  rcases hcodec with ⟨hname, hgz⟩ | ⟨hname, hzs⟩
  · refine ⟨?_, ?_⟩
    · rintro rfl
      simp at hname
    · rw [if_pos (Str.startsWith_iff.mpr hname), gunzip_encoded hc hgz]
  · obtain ⟨rest, rfl⟩ := hname
    refine ⟨by simp, ?_⟩
    have hgzip : Str.startsWith ("zstd".toList ++ rest) "gzip".toList = false := rfl
    have hzstd : Str.startsWith ("zstd".toList ++ rest) "zstd".toList = true := by
      rw [Str.startsWith_iff]
      exact List.prefix_append _ _
    rw [hgzip, hzstd, if_neg (by decide), if_pos rfl, unzstd_encoded hc hzs]

/-- Unwrapping from any depth on, by induction on the nest. -/
theorem toBootableInner_wrapping (hc : c.Inverts e) (himg : isArm64Image img) {layers : Nat}
    (h : Wrapping e img layers data) (depth : Nat) :
    toBootableInner c data depth =
      if layers + depth < maxDepth then .ok img
      else .error (.kernelDecompress "kernel wrappers nested too deep".toList) := by
  -- the cap is tested before a file is classified, so it decides the innermost file
  by_cases hdepth : depth ≥ maxDepth
  · rw [toBootableInner, dif_pos hdepth, if_neg (by omega)]
  · induction h generalizing depth with
    | image =>
      rw [toBootableInner, dif_neg hdepth, compression_image himg, if_pos (by omega)]
    | gzip hgz harm hzboot =>
      rw [toBootableInner, dif_neg hdepth, compression_gzip hc himg hgz harm hzboot,
        if_pos (by omega)]
      exact gunzip_encoded hc hgz
    | zboot hfile hcodec harm =>
      obtain ⟨hne, hun⟩ := unzboot_encoded hc hfile hcodec
      rw [toBootableInner, dif_neg hdepth, compression_zboot hfile hne harm, if_pos (by omega)]
      exact hun
    | @uki inner file layers n hfile harm hzboot hinner ih =>
      rw [toBootableInner, dif_neg hdepth, compression_uki hfile harm hzboot]
      simp only [hfile.ukiLinux]
      have hsum : layers + 1 + depth = layers + (depth + 1) := by omega
      rw [hsum]
      by_cases hnext : depth + 1 ≥ maxDepth
      · rw [toBootableInner, dif_pos hnext, if_neg (by omega)]
      · exact ih (depth + 1) hnext

/-- Unwrapping undoes wrapping with at most two unified kernel images; with three or more
it is an error. -/
theorem toBootable_unwraps (hc : c.Inverts e) (himg : isArm64Image img) {layers : Nat}
    (h : Wrapping e img layers data) :
    (layers ≤ 2 → toBootable c data = .ok img) ∧
      (3 ≤ layers → ∃ err, toBootable c data = .error err) := by
  have hmax : maxDepth = 3 := rfl
  have hinner := toBootableInner_wrapping hc himg h 0
  constructor
  · intro hlayers
    rwa [if_pos (by omega)] at hinner
  · intro hlayers
    rw [if_neg (by omega)] at hinner
    exact ⟨_, hinner⟩

/-- The shortest arm64 image. -/
def smallImage : Bytes := mz ++ List.replicate 54 0 ++ arm64Magic

/-- A gzip file of it, with the image in one stored block. -/
def smallGzip : Bytes :=
  [0x1f, 0x8b, 8, 0, 0, 0, 0, 0, 0, 3, 1, 60, 0, 0xc3, 0xff] ++ smallImage ++
    [0x8e, 0x22, 0xe9, 0x19, 0x3c, 0x00, 0x00, 0x00]

/-- Decoders that know this file alone. -/
def smallCodecs : Codecs where
  gunzip file := if file = smallGzip then .ok smallImage else .error "invalid gzip header".toList
  gunzipHead file := if file = smallGzip then some (smallImage.take 60) else none
  unzstd _ := .error "invalid frame header".toList

/-- A unified kernel image of a file, with a `.text` section in front. -/
def ukiOf (linux : Bytes) : Bytes :=
  mz ++ List.replicate 58 0 ++ toLe 4 64 ++ peSignature ++ [0x64, 0xaa] ++ toLe 2 2 ++
    List.replicate 12 0 ++ toLe 2 0 ++ [0, 0] ++ [0x2e, 0x74, 0x65, 0x78, 0x74, 0, 0, 0] ++
    List.replicate 32 0 ++ ukiLinuxSection ++ List.replicate 8 0 ++ toLe 4 linux.length ++
    toLe 4 168 ++ List.replicate 16 0 ++ linux

/-- That of the gzip file. -/
def smallUki : Bytes := ukiOf smallGzip

set_option maxRecDepth 4000 in
/-- A unified kernel image around a gzip file around a raw Image. -/
theorem toBootable_unwraps_small : toBootable smallCodecs smallUki = .ok smallImage := by
  let e : Encoders :=
    ⟨fun content file => content = smallImage ∧ file = smallGzip, fun _ _ => False⟩
  have hc : smallCodecs.Inverts e := by
    refine ⟨?_, fun _ _ h => h.elim, ?_, ?_⟩
    · rintro _ _ ⟨rfl, rfl⟩
      rfl
    · rintro _ _ ⟨rfl, rfl⟩
      decide
    · intro file content h _
      unfold smallCodecs at h ⊢
      simp only at h ⊢
      split at h
      · rename_i hfile
        cases h
        rw [if_pos hfile]
      · cases h
  have hfile : UkiFile smallGzip smallUki ⟨64, 0, 2, 1, 168⟩ :=
    ⟨by decide, by decide, by decide, by decide, by decide, by decide, by decide, by decide,
      by decide, fun i hi => ⟨[0x2e, 0x74, 0x65, 0x78, 0x74, 0, 0, 0], rfl, by decide, by
        obtain rfl : i = 0 := Nat.lt_one_iff.mp hi
        decide⟩, by decide, by decide, by decide, by decide, by decide, by decide⟩
  have hgz : Wrapping e smallImage 0 smallGzip := .gzip ⟨rfl, rfl⟩ (by decide) (by decide)
  have huki : Wrapping e smallImage 1 smallUki := .uki hfile (by decide) (by decide) hgz
  exact (toBootable_unwraps hc (by decide) huki).1 (by decide)

end Unwrapping

end BootExtractor.Kernel
