import BootExtractor.BlockDev
import BootExtractor.Lib.Utf8

/-!
# Unwrapping a kernel image

A kernel file is a raw arm64 image, a gzip file of one, a zboot shell around a
compressed one, or a unified kernel image with any of these in a section. The
classifier names the outermost wrapper and the unwrapper removes wrappers until the
raw image is left.
-/

namespace BootExtractor.Kernel

open Bytes

/-- The decoders. `gunzipHead` is the streaming gzip decoder asked for the length of an
arm64 header; it may answer although the rest of the file is broken. -/
structure Codecs where
  gunzip : Bytes → Except Str Bytes
  gunzipHead : Bytes → Option Bytes
  unzstd : Bytes → Except Str Bytes

/-- Decoders that decode nothing. -/
def noCodecs : Codecs where
  gunzip _ := .error "invalid gzip header".toList
  gunzipHead _ := none
  unzstd _ := .error "invalid frame header".toList

/-- Where a raw Image keeps its magic. -/
def arm64MagicOffset : Nat := 56
/-- `ARM\x64`. -/
def arm64Magic : Bytes := [0x41, 0x52, 0x4d, 0x64]

/-- Where a zboot file keeps its magic. -/
def zimgMagicOffset : Nat := 4
/-- `zimg`. -/
def zimgMagic : Bytes := [0x7a, 0x69, 0x6d, 0x67]
/-- Where a zboot header keeps the payload's offset. -/
def zbootPayloadOffset : Nat := 8
/-- Where a zboot header keeps the payload's size. -/
def zbootPayloadSize : Nat := 12
/-- Where a zboot header keeps the name of its compression. -/
def zbootCompType : Nat := 24
/-- The room for that name. -/
def zbootCompTypeLen : Nat := 32

/-- The first bytes of a PE file. -/
def mz : Bytes := [0x4d, 0x5a]
/-- The signature of the PE header. -/
def peSignature : Bytes := [0x50, 0x45, 0, 0]
/-- Where the file keeps the offset of its PE header. -/
def peHeaderOffsetAt : Nat := 0x3c
/-- Where the COFF header keeps the number of sections. -/
def coffNumSectionsAt : Nat := 2
/-- Where the COFF header keeps the size of the optional header. -/
def coffOptHeaderSizeAt : Nat := 16
/-- The size of the COFF header. -/
def coffSize : Nat := 20
/-- The size of a section header. -/
def sectionHeaderSize : Nat := 40
/-- Where a section header keeps the size of the data. -/
def sectionRawSizeAt : Nat := 16
/-- Where a section header keeps the offset of the data. -/
def sectionRawPtrAt : Nat := 20

/-- `.linux`, padded to the length of a section name. -/
def ukiLinuxSection : Bytes := [0x2e, 0x6c, 0x69, 0x6e, 0x75, 0x78, 0, 0]

/-- How a kernel is wrapped. -/
inductive Compression where
  | gzip
  /-- The codec name is the one that the header declares. -/
  | zboot (codec : Str)
  | uki
  deriving DecidableEq, Repr

/-- `Compression::label`. -/
def Compression.label : Compression → Str
  | .gzip => "gzip".toList
  | .zboot codec => "zboot+".toList ++ codec
  | .uki => "uki".toList

/-- `is_arm64_image` -/
def isArm64Image (data : Bytes) : Bool :=
  get? data arm64MagicOffset arm64Magic.length == some arm64Magic

/-- `is_gzip` -/
def isGzip (data : Bytes) : Bool := [0x1f, 0x8b].isPrefixOf data

/-- `is_zboot` -/
def isZboot (data : Bytes) : Bool :=
  get? data zimgMagicOffset zimgMagic.length == some zimgMagic

/-- `u16_le` -/
def u16Le (data : Bytes) (at_ : Nat) : Option Nat := leAt data at_ 2

/-- `u32_le` -/
def u32Le (data : Bytes) (at_ : Nat) : Option Nat := leAt data at_ 4

/-- The section loop of `pe_linux_section`: offset and length of the data of the first
`.linux` section among `remaining` sections from the `i`-th on. -/
def linuxSection (data : Bytes) (table : Nat) : Nat → Nat → Option (Nat × Nat)
  | 0, _ => none
  | remaining + 1, i =>
    let header := table + i * sectionHeaderSize
    match get? data header 8 with
    | none => none
    | some name =>
      if name = ukiLinuxSection then do
        let size ← u32Le data (header + sectionRawSizeAt)
        let ptr ← u32Le data (header + sectionRawPtrAt)
        some (ptr, size)
      else linuxSection data table remaining (i + 1)

/-- `pe_linux_section`. -/
def peLinuxSection (data : Bytes) : Option (Nat × Nat) :=
  if get? data 0 2 ≠ some mz then none
  else do
    let peOff ← u32Le data peHeaderOffsetAt
    if get? data peOff 4 ≠ some peSignature then none
    else
      let coff := peOff + 4
      let numSections ← u16Le data (coff + coffNumSectionsAt)
      let optSize ← u16Le data (coff + coffOptHeaderSizeAt)
      linuxSection data (coff + coffSize + optSize) numSections 0

/-- The NUL-terminated codec name of a zboot header. -/
def zbootCompName (data : Bytes) : Option Str := do
  let raw ← get? data zbootCompType zbootCompTypeLen
  let name ← Utf8.decode? (raw.takeWhile (· ≠ 0))
  if name = [] then none else some name

/-- Do the first bytes of a gzip file inflate to an arm64 image? -/
def gunzipIsArm64 (c : Codecs) (gz : Bytes) : Bool := (c.gunzipHead gz).any isArm64Image

/-- `compression`: the outermost wrapper of a kernel, if it has one. -/
def compression (c : Codecs) (head : Bytes) : Option Compression :=
  if isArm64Image head then none
  else if isZboot head then some (.zboot ((zbootCompName head).getD "unknown".toList))
  else if isGzip head && gunzipIsArm64 c head then some .gzip
  else if (peLinuxSection head).isSome then some .uki
  else none

/-- `gunzip` -/
def gunzip (c : Codecs) (gz : Bytes) : Except Error Bytes :=
  (c.gunzip gz).mapError fun e => .kernelDecompress ("gzip: ".toList ++ e)

/-- `unzstd` -/
def unzstd (c : Codecs) (payload : Bytes) : Except Error Bytes :=
  (c.unzstd payload).mapError fun e => .kernelDecompress ("zstd: ".toList ++ e)

/-- `read_u32_le` -/
def readU32Le (data : Bytes) (at_ : Nat) : Except Error Nat :=
  match u32Le data at_ with
  | some n => .ok n
  | none => .error (.kernelDecompress ("truncated zboot header at ".toList ++ Str.dec at_))

/-- `data[off..off + size]`, or the error that names the part. -/
def part (what : Str) (overflow : Str) (data : Bytes) (off size : Nat) : Except Error Bytes :=
  match checkedAdd off size with
  | none => .error (.kernelDecompress overflow)
  | some end_ =>
    match get? data off size with
    | some b => .ok b
    | none =>
      .error (.kernelDecompress (what ++ " [".toList ++ Str.dec off ++ "..".toList ++
        Str.dec end_ ++ "] out of range (file is ".toList ++ Str.dec data.length ++
        " bytes)".toList))

/-- `unzboot`. -/
def unzboot (c : Codecs) (data : Bytes) (codec : Str) : Except Error Bytes := do
  let off ← readU32Le data zbootPayloadOffset
  let size ← readU32Le data zbootPayloadSize
  let payload ← part "zboot payload".toList "zboot payload size overflows".toList data off size
  if Str.startsWith codec "gzip".toList then gunzip c payload
  else if Str.startsWith codec "zstd".toList then unzstd c payload
  else .error (.kernelDecompress ("unsupported zboot kernel compression: ".toList ++ codec))

/-- How many layers are taken off at most. -/
def maxDepth : Nat := 3

/-- The kernel inside a unified kernel image. -/
def ukiLinux (data : Bytes) : Except Error Bytes :=
  match peLinuxSection data with
  | none => .error (.kernelDecompress "UKI .linux section not found".toList)
  | some (off, size) =>
    part "UKI .linux".toList "UKI .linux size overflows".toList data off size

/-- `to_bootable_inner`: every unified kernel image is one level deeper. -/
def toBootableInner (c : Codecs) (data : Bytes) (depth : Nat) : Except Error Bytes :=
  if _ : depth ≥ maxDepth then
    .error (.kernelDecompress "kernel wrappers nested too deep".toList)
  else
    match compression c data with
    | none => .ok data
    | some .gzip => gunzip c data
    | some (.zboot codec) => unzboot c data codec
    | some .uki =>
      match ukiLinux data with
      | .error e => .error e
      | .ok inner => toBootableInner c inner (depth + 1)
termination_by maxDepth - depth

/-- `to_bootable`. -/
def toBootable (c : Codecs) (data : Bytes) : Except Error Bytes := toBootableInner c data 0

end BootExtractor.Kernel
