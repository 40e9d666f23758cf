import BootExtractor.BlockDev
import BootExtractor.Lib.Effect
import BootExtractor.Lib.Utf8

/-!
# The qcow2 reader

Header, two-level cluster tables, compressed clusters and the backing file of one
image. The host file is a byte string whose reads may fail at any time. The session
keeps the cluster cache of every layer of a chain, with a log of what was asked of
the hosts, of the decoder and of the opener.
-/

namespace BootExtractor.Disk

open Effect Bytes

/-- A byte source: what it holds, and the error a read meets at a point of time. -/
structure Host where
  content : Bytes
  fault : Nat → Nat → Nat → Option Error

/-- `ReadAt::size`. -/
def Host.size (h : Host) : Nat := h.content.length

/-- Something asked of the outside, with whether it succeeded. Layer 0 of a chain is
its top. -/
inductive Event where
  | opened (locator : Str) (ok : Bool)
  | read (layer offset len : Nat) (ok : Bool)
  | inflate (layer offset : Nat) (ok : Bool)
  deriving DecidableEq, Repr

/-- A host read or a decoding that failed. -/
def Event.failed : Event → Bool
  | .opened _ _ => false
  | .read _ _ _ ok => !ok
  | .inflate _ _ ok => !ok

/-- Inflated clusters by host offset, oldest first. -/
abbrev Cache := List (Nat × Bytes)

/-- The cluster cache of each layer and everything asked so far. -/
structure Session where
  caches : Nat → Cache
  log : List Event

/-- Nothing read yet. -/
def Session.fresh : Session := ⟨fun _ => [], []⟩

/-- A computation of the reader. -/
abbrev DiskM := EStateM Fault Session

/-- The session with one more event. -/
def Session.noted (s : Session) (e : Event) : Session := { s with log := s.log ++ [e] }

/-- Record an event. -/
def note (e : Event) : DiskM Unit := modify (·.noted e)

/-- Hand on a result from the outside and record it; `f` says which fault an error is. -/
def report {ε α : Type} (event : Bool → Event) (f : ε → Fault) (result : Except ε α) : DiskM α := do
  note (event result.isOk)
  ofExcept f result

/-- What a host answers at a point of time. An empty read needs nothing. -/
def Host.answer (h : Host) (time offset len : Nat) : Except Error Bytes :=
  match h.fault time offset len with
  | some e => .error e
  | none =>
    if len = 0 ∨ offset + len ≤ h.size then .ok (slice h.content offset len)
    else .error (.io "failed to fill whole buffer".toList)

/-- `ReadAt::read_at` of the host of a layer. -/
def Host.readAt (h : Host) (layer offset len : Nat) : DiskM Bytes := do
  let s ← get
  report (.read layer offset len) .err (h.answer s.log.length offset len)

/-- How a call of the decoder ended. -/
inductive Status where
  | ok
  | bufError
  | streamEnd
  deriving DecidableEq, Repr

/-- What one call of the decoder did. -/
structure Inflated (σ : Type) where
  state : σ
  consumed : Nat
  produced : Bytes
  status : Status

/-- The raw-deflate decoder: from its state, the input left and the room left in the
output it moves on or fails, within that input and that room. -/
structure Inflater where
  State : Type
  init : State
  decompress : State → Bytes → Nat → Except Str (Inflated State)
  consumed_le : ∀ st input room r, decompress st input room = .ok r → r.consumed ≤ input.length
  produced_le : ∀ st input room r, decompress st input room = .ok r → r.produced.length ≤ room

/-- The decoding loop of `decompress_cluster`. `out` is what was written to the
output, its length is `total_out`. -/
def Inflater.run (z : Inflater) (comp : Bytes) (clusterSize : Nat) :
    Nat → z.State → Nat → Bytes → Except Fault Bytes
  | fuel, st, inPos, out =>
    if out.length < clusterSize then
      match fuel with
      | 0 => .error .spin
      | fuel + 1 =>
        match z.decompress st (comp.drop inPos) (clusterSize - out.length) with
        | .error e => .error (.err (.qcow2 ("cluster decompression failed: ".toList ++ e)))
        | .ok r =>
          if r.status = .streamEnd ∨ (r.consumed = 0 ∧ r.produced = []) then
            .ok (out ++ r.produced)
          else z.run comp clusterSize fuel r.state (inPos + r.consumed) (out ++ r.produced)
    else .ok out

/-- The decoding part of `decompress_cluster`: a whole cluster or an error. Every pass
that goes on consumes or produces something, which bounds their number. -/
def Inflater.cluster (z : Inflater) (clusterSize offset : Nat) (comp : Bytes) :
    Except Fault Bytes :=
  match z.run comp clusterSize (comp.length + clusterSize + 1) z.init 0 [] with
  | .error f => .error f
  | .ok out =>
    if out.length ≠ clusterSize then
      .error (.err (.qcow2 ("compressed cluster at 0x".toList ++ Str.hex 0 offset ++
        " inflated to ".toList ++ Str.dec out.length ++ " bytes, expected ".toList ++
        Str.dec clusterSize)))
    else .ok out

/-- The first four bytes of a qcow2 file. -/
def magic : Bytes := [0x51, 0x46, 0x49, 0xfb]

/-- The image was not closed properly. -/
def incompatDirty : Nat := 1 <<< 0
/-- The image is damaged. -/
def incompatCorrupt : Nat := 1 <<< 1
/-- The data lies in a file of its own. -/
def incompatExternalData : Nat := 1 <<< 2
/-- The compression is not the usual one. -/
def incompatCompressionType : Nat := 1 <<< 3
/-- The L2 entries are twice as wide. -/
def incompatExtendedL2 : Nat := 1 <<< 4

/-- Where an L1 entry keeps the offset. -/
def l1OffsetMask : Nat := 0x00fffffffffffe00
/-- Where an L2 entry keeps the offset. -/
def l2OffsetMask : Nat := 0x00fffffffffffe00
/-- The flag of a compressed cluster. -/
def l2Compressed : Nat := 1 <<< 62
/-- The flag of a cluster that reads as zeroes. -/
def l2ZeroFlag : Nat := 1

/-- `!x` on `u64`. -/
def u64Not (x : Nat) : Nat := 2 ^ 64 - 1 - x

/-- Size of the cache of inflated clusters. -/
def cacheClusters : Nat := 32

/-- An opened image. Its numbers are machine integers and `open` has checked the
cluster size. -/
structure Qcow2 where
  host : Host
  virtualSize : Nat
  clusterBits : Nat
  l1 : List Nat
  backingName : Option Str
  virtualSize_lt : virtualSize < 2 ^ 64
  clusterBits_ge : 9 ≤ clusterBits
  clusterBits_le : clusterBits ≤ 21

/-- Where the bytes of a guest cluster are. -/
inductive Mapping where
  /-- At this offset of the host file. -/
  | data (offset : Nat)
  /-- Zeroes, whatever the backing file has. -/
  | zero
  /-- In the backing file. -/
  | unallocated
  /-- Compressed, in `csize` bytes at this offset of the host file. -/
  | compressed (offset csize : Nat)
  deriving DecidableEq, Repr

/-- The refusals of `open` that rest on header fields alone, in their order. -/
def checkHeader (cryptMethod incompatible clusterBits : Nat) : Except Error Unit :=
  if cryptMethod ≠ 0 then .error (.qcow2Unsupported "encryption".toList)
  else if incompatible &&& incompatCorrupt ≠ 0 then
    .error (.qcow2 "image is marked corrupt".toList)
  else if incompatible &&& incompatExternalData ≠ 0 then
    .error (.qcow2Unsupported "external data file".toList)
  else if incompatible &&& incompatCompressionType ≠ 0 then
    .error (.qcow2Unsupported "compression type other than zlib (likely zstd)".toList)
  else if incompatible &&& incompatExtendedL2 ≠ 0 then
    .error (.qcow2Unsupported "extended L2 entries".toList)
  else if incompatible &&& u64Not incompatDirty ≠ 0 then
    .error (.qcow2Unsupported
      ("unknown incompatible features 0x".toList ++ Str.hex 0 incompatible))
  else if clusterBits < 9 ∨ 21 < clusterBits then
    .error (.qcow2 ("implausible cluster_bits ".toList ++ Str.dec clusterBits))
  else .ok ()

/-- A header field of `len` bytes. -/
def field (hdr : Bytes) (off len : Nat) : Nat := be (slice hdr off len)

/-- The version field, once the magic is there. -/
def checkVersion (hdr : Bytes) : Except Error Nat :=
  if hdr.take 4 ≠ magic then .error (.qcow2 "bad magic".toList)
  else
    let version := field hdr 4 4
    if version ≠ 2 ∧ version ≠ 3 then
      .error (.qcow2 ("unsupported version ".toList ++ Str.dec version))
    else .ok version

/-- The incompatible feature bits; only version 3 has them. -/
def readIncompatible (host : Host) (layer version : Nat) : DiskM Nat :=
  if version = 3 then be <$> host.readAt layer 72 8 else pure 0

/-- The backing file name, if the header refers to one. -/
def readBackingName (host : Host) (layer offset size : Nat) : DiskM (Option Str) :=
  if offset ≠ 0 ∧ size > 0 then
    if size > 1023 then throw (.err (.qcow2 "implausible backing file name length".toList))
    else (fun name => some (Utf8.fromLossy name)) <$> host.readAt layer offset size
  else pure none

/-- The whole 8-byte big-endian numbers of a byte string (`chunks_exact(8)`). -/
def be64s (raw : Bytes) : List Nat :=
  (List.range (raw.length / 8)).map fun i => be (slice raw (i * 8) 8)

/-- `Qcow2::open`. The checks have put `cluster_bits` in range, and eight bytes hold
less than `2 ^ 64`. -/
def Qcow2.open (host : Host) (layer : Nat) : DiskM Qcow2 := do
  let hdr ← host.readAt layer 0 72
  let version ← ofExcept .err (checkVersion hdr)
  let incompatible ← readIncompatible host layer version
  ofExcept .err (checkHeader (field hdr 32 4) incompatible (field hdr 20 4))
  let backingName ← readBackingName host layer (field hdr 8 8) (field hdr 16 4)
  let l1Raw ← host.readAt layer (field hdr 40 8) (field hdr 36 4 * 8)
  if h : field hdr 24 8 < 2 ^ 64 ∧ 9 ≤ field hdr 20 4 ∧ field hdr 20 4 ≤ 21 then
    pure ⟨host, field hdr 24 8, field hdr 20 4, be64s l1Raw, backingName, h.1, h.2.1, h.2.2⟩
  else throw .panic

namespace Qcow2

/-- The bytes of a cluster. -/
def clusterSize (q : Qcow2) : Nat := 1 <<< q.clusterBits

/-- The meaning of an L2 entry. -/
def decodeEntry (q : Qcow2) (entry : Nat) : Mapping :=
  if entry &&& l2Compressed ≠ 0 then
    let x := 62 - (q.clusterBits - 8)
    let desc := entry &&& u64Not (3 <<< 62)
    let offset := desc &&& ((1 <<< x) - 1)
    let sectors := (desc >>> x) + 1
    .compressed offset (sectors * 512 - (offset &&& 511))
  else if entry &&& l2ZeroFlag ≠ 0 then .zero
  else
    let hostOffset := entry &&& l2OffsetMask
    if hostOffset = 0 then .unallocated else .data hostOffset

/-- `Qcow2::map_cluster`. -/
def mapCluster (q : Qcow2) (layer guestOffset : Nat) : DiskM Mapping :=
  let l2Entries := q.clusterSize / 8
  let clusterIndex := guestOffset >>> q.clusterBits
  let l1Index := clusterIndex / l2Entries
  let l2Index := clusterIndex % l2Entries
  let l2Table := q.l1[l1Index]?.getD 0 &&& l1OffsetMask
  if l2Table = 0 then pure .unallocated
  else (fun buf => q.decodeEntry (be buf)) <$> q.host.readAt layer (l2Table + l2Index * 8) 8

/-- `cache.push_back`, after dropping the oldest entry of a full cache. -/
def push (cache : Cache) (entry : Nat × Bytes) : Cache :=
  (if cache.length ≥ cacheClusters then cache.tail else cache) ++ [entry]

/-- Remember an inflated cluster. -/
def remember (layer offset : Nat) (data : Bytes) : DiskM Unit :=
  modify fun s =>
    { s with caches := Function.update s.caches layer (push (s.caches layer) (offset, data)) }

/-- Inflate a cluster that is not in the cache. The compressed size is rounded up to
sectors and may reach past the end of the file. -/
def inflateCluster (q : Qcow2) (z : Inflater) (layer offset csize : Nat) : DiskM Bytes := do
  let avail := q.host.size - offset
  let comp ← q.host.readAt layer offset (min csize avail)
  let data ← report (.inflate layer offset) id (z.cluster q.clusterSize offset comp)
  remember layer offset data
  pure data

/-- `Qcow2::decompress_cluster`. -/
def decompressCluster (q : Qcow2) (z : Inflater) (layer offset csize : Nat) : DiskM Bytes := do
  let s ← get
  match (s.caches layer).find? (fun entry => entry.1 == offset) with
  | some (_, data) => pure data
  | none => q.inflateCluster z layer offset csize

end Qcow2

/-- A reader as the layer above it sees it (`dyn ReadAt`). -/
structure Reader where
  size : Nat
  readAt : Nat → Nat → DiskM Bytes

/-- `buf.fill(0)`. -/
def zeroes (n : Nat) : Bytes := List.replicate n 0

namespace Qcow2

/-- `Qcow2::read_backing`: the backing file, and zeroes past its end. -/
def readBacking (backing : Option Reader) (offset len : Nat) : DiskM Bytes :=
  match backing with
  | none => pure (zeroes len)
  | some b =>
    let avail := b.size - offset
    let n := min len avail
    if n > 0 then (· ++ zeroes (len - n)) <$> b.readAt offset n else pure (zeroes (len - n))

/-- `&data[start..start + len]`. -/
def sub (data : Bytes) (start len : Nat) : Except Fault Bytes :=
  if start + len ≤ data.length then .ok (slice data start len) else .error .panic

/-- The part of a request that lies in one cluster: `chunk` bytes from `pos` on, which is
`within` bytes into it. -/
def readChunk (q : Qcow2) (z : Inflater) (layer : Nat) (backing : Option Reader)
    (pos within chunk : Nat) : DiskM Bytes := do
  match ← q.mapCluster layer (pos - within) with
  | .data hostCluster => q.host.readAt layer (hostCluster + within) chunk
  | .zero => pure (zeroes chunk)
  | .unallocated => readBacking backing pos chunk
  | .compressed offset csize =>
    let data ← q.decompressCluster z layer offset csize
    ofExcept id (sub data within chunk)

/-- The loop of `read_at`: `len` bytes from `pos` on, cluster by cluster. Every pass
reads at least one byte, which bounds their number. -/
def readLoop (q : Qcow2) (z : Inflater) (layer : Nat) (backing : Option Reader) :
    Nat → Nat → Nat → DiskM Bytes
  | _, _, 0 => pure []
  | 0, _, _ + 1 => throw .spin
  | fuel + 1, pos, len + 1 => do
    let within := pos % q.clusterSize
    let chunk := min (q.clusterSize - within) (len + 1)
    let head ← q.readChunk z layer backing pos within chunk
    let tail ← q.readLoop z layer backing fuel (pos + chunk) (len + 1 - chunk)
    pure (head ++ tail)

/-- `ReadAt::read_at` of an image: what the buffer of `len` bytes holds afterwards. -/
def readAt (q : Qcow2) (z : Inflater) (layer : Nat) (backing : Option Reader)
    (offset len : Nat) : DiskM Bytes := do
  ofExcept .err (checkBounds q.virtualSize offset len)
  q.readLoop z layer backing len offset len

end Qcow2

/-- A flat view of a guest disk: a raw file, or a qcow2 image alone or on its backing
file. -/
inductive DiskImage where
  | raw (host : Host)
  | qcow2 (q : Qcow2)
  | overlay (q : Qcow2) (backing : DiskImage)

namespace DiskImage

/-- `ReadAt::size`. -/
def size : DiskImage → Nat
  | raw h => h.size
  | qcow2 q => q.virtualSize
  | overlay q _ => q.virtualSize

/-- `ReadAt::read_at` of the image at a layer of a chain. -/
def readAt (z : Inflater) : DiskImage → Nat → Nat → Nat → DiskM Bytes
  | raw h, layer, offset, len => h.readAt layer offset len
  | qcow2 q, layer, offset, len => q.readAt z layer none offset len
  | overlay q backing, layer, offset, len =>
    q.readAt z layer (some ⟨backing.size, backing.readAt z (layer + 1)⟩) offset len

end DiskImage

end BootExtractor.Disk
