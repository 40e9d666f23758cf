import BootExtractor.Disk.Descriptor
import BootExtractor.Disk.Open
import BootExtractor.Disk.Readable

/-!
# Written images

The format from the side of a writer: a header, an L1 table, L2 tables anywhere in the
file, and for every guest cluster an entry that leaves it open, clears it, points at its
bytes or at a compressed form of them. Opening such an image, over the image or file that
it names as its backing file if it names one, and reading it gives back the guest disk.
-/

namespace BootExtractor.Disk

open Effect Bytes DiskImage

/-- What the header of an image says, and its L1 table. -/
structure Layout where
  clusterBits : Nat
  size : Nat
  l1Offset : Nat
  l1 : List Nat
  /-- Where the name of the backing file is, and the name. -/
  backing : Option (Nat × Bytes)
  clusterBits_ge : 9 ≤ clusterBits
  clusterBits_le : clusterBits ≤ 21
  size_lt : size < 2 ^ 64

namespace Layout

/-- The image that `open` makes of it. -/
def image (f : Layout) (host : Host) : Qcow2 :=
  ⟨host, f.size, f.clusterBits, f.l1, f.backing.map fun b => Utf8.fromLossy b.2, f.size_lt,
    f.clusterBits_ge, f.clusterBits_le⟩

/-- The header refers to this backing file, or to none. -/
def BackingAt (content : Bytes) : Option (Nat × Bytes) → Prop
  | none => At content 8 (toBe 8 0)
  | some (off, name) =>
    At content 8 (toBe 8 off) ∧ At content 16 (toBe 4 name.length) ∧ At content off name ∧
      0 < off ∧ off < 2 ^ 64 ∧ 0 < name.length ∧ name.length ≤ 1023

/-- The version, and that no feature is in use that changes how clusters are read. -/
inductive VersionAt (content : Bytes) : Prop where
  | two (hversion : At content 4 (toBe 4 2))
  | three (hversion : At content 4 (toBe 4 3)) (dirty : Bool)
      (hfeatures : At content 72 (toBe 8 dirty.toNat))

/-- The header and the L1 table are in a file. -/
structure Stored (f : Layout) (content : Bytes) : Prop where
  header : 72 ≤ content.length
  magic : At content 0 Disk.magic
  version : VersionAt content
  backing : BackingAt content f.backing
  clusterBits : At content 20 (toBe 4 f.clusterBits)
  size : At content 24 (toBe 8 f.size)
  crypt : At content 32 (toBe 4 0)
  l1Size : At content 36 (toBe 4 f.l1.length)
  l1Offset : At content 40 (toBe 8 f.l1Offset)
  l1 : At content f.l1Offset (f.l1.flatMap (toBe 8))
  l1Size_lt : f.l1.length < 2 ^ 32
  l1Offset_lt : f.l1Offset < 2 ^ 64
  l1_lt : ∀ e ∈ f.l1, e < 2 ^ 64

end Layout

section Opening

/-- Nothing is in any cache. -/
def Untouched (s : Session) : Prop := ∀ layer, s.caches layer = []

/-- An honest host hands out the bytes in range and changes nothing. -/
theorem Host.readAt_gives {h : Host} (hh : h.Honest) {layer offset len : Nat}
    (hrange : len = 0 ∨ offset + len ≤ h.size) :
    Settles Untouched (h.readAt layer offset len) (.ok (slice h.content offset len)) := by
  intro s hs
  have hanswer : h.answer s.log.length offset len = .ok (slice h.content offset len) := by
    rw [Host.answer, hh]
    exact if_pos hrange
  have hrun : h.readAt layer offset len s =
      report (.read layer offset len) .err (h.answer s.log.length offset len) s := rfl
  rw [hanswer] at hrun
  unfold Effect.answer after
  rw [hrun]
  exact ⟨rfl, hs⟩

private theorem settles_report {event : Bool → Event} {f : Error → Fault} {α : Type} (a : α) :
    Settles Untouched (report event f (.ok a)) (.ok a) := fun _ hs => ⟨rfl, hs⟩

/-- A sequence whose first half returns. -/
theorem settles_bind {α β : Type} {x : DiskM α} {f : α → DiskM β} {a : α} {r : Except Fault β}
    (h : Settles Untouched x (.ok a)) (hf : Settles Untouched (f a) r) :
    Settles Untouched (x >>= f) r :=
  Settles.bind (g := fun _ => r) h fun _ hb => Except.ok.inj hb ▸ hf

private theorem settles_map {α β : Type} {x : DiskM α} {a : α} (h : Settles Untouched x (.ok a))
    (g : α → β) : Settles Untouched (g <$> x) (.ok (g a)) := by
  rw [map_eq_pure_bind]
  exact settles_bind h (.pure _)

private theorem settles_mapError {α : Type} {x : DiskM α} {a : α} (h : Settles Untouched x (.ok a))
    (f : Fault → Fault) : Settles Untouched (mapError f x) (.ok a) := by
  intro s hs
  obtain ⟨hanswer, hafter⟩ := h s hs
  have hx := eq_ok_of_answer hanswer
  unfold answer after mapError
  rw [hx]
  exact ⟨rfl, hafter⟩

/-- A number of the header is read back. -/
theorem field_of_at {content : Bytes} {off len n : Nat} (h : At content off (toBe len n))
    (hn : n < 256 ^ len) : field content off len = n := by
  have hslice := h.slice
  rw [length_toBe] at hslice
  rw [field, hslice, be_toBe hn]

/-- The numbers of a table are read back. -/
theorem be64s_flatMap {numbers : List Nat} (h : ∀ n ∈ numbers, n < 2 ^ 64) :
    be64s (numbers.flatMap (toBe 8)) = numbers := by
  have hlength : (numbers.flatMap (toBe 8)).length = numbers.length * 8 :=
    length_flatMap_const (length_toBe 8) numbers
  apply List.ext_getElem
  · rw [be64s, List.length_map, List.length_range, hlength, Nat.mul_div_cancel _ (by decide)]
  · intro i _ hi
    have hlt : numbers[i] < 256 ^ 8 := h _ (List.getElem_mem hi)
    simp only [be64s, List.getElem_map, List.getElem_range]
    rw [slice_flatMap (length_toBe 8) hi, be_toBe hlt]

namespace Layout

variable {f : Layout} {host : Host} {layer : Nat}

/-- The stored version passes its check. -/
theorem Stored.checkVersion (h : f.Stored host.content) {version : Nat}
    (hv : At host.content 4 (toBe 4 version)) (h23 : version = 2 ∨ version = 3) :
    Disk.checkVersion (slice host.content 0 72) = .ok version := by
  have hmagic : (slice host.content 0 72).take 4 = Disk.magic := by
    have hslice := h.magic.slice
    rw [slice_zero_offset, List.take_take]
    exact hslice
  have hfield : field (slice host.content 0 72) 4 4 = version := by
    rw [field_take (by decide)]
    rcases h23 with rfl | rfl <;> exact field_of_at hv (by decide)
  rw [Disk.checkVersion, hmagic, if_neg fun hne => hne rfl, hfield]
  rcases h23 with rfl | rfl <;> rfl

/-- The stored header passes its check. -/
theorem Stored.checkHeader (h : f.Stored host.content) (dirty : Bool) :
    Disk.checkHeader (field (slice host.content 0 72) 32 4) dirty.toNat
      (field (slice host.content 0 72) 20 4) = .ok () := by
  have hbits : field host.content 20 4 = f.clusterBits :=
    field_of_at h.clusterBits (Nat.lt_of_le_of_lt f.clusterBits_le (by decide))
  have hcrypt : field host.content 32 4 = 0 := field_of_at h.crypt (by decide)
  have hrange : ¬(f.clusterBits < 9 ∨ 21 < f.clusterBits) := by
    have hge := f.clusterBits_ge
    have hle := f.clusterBits_le
    omega
  rw [field_take (by decide), field_take (by decide), hbits, hcrypt, Disk.checkHeader]
  cases dirty <;> exact if_neg hrange

/-- The stored name of the backing file is read back. -/
theorem Stored.readBackingName (h : f.Stored host.content) (hh : host.Honest) :
    Settles Untouched (Disk.readBackingName host layer (field (slice host.content 0 72) 8 8)
      (field (slice host.content 0 72) 16 4))
        (.ok (f.backing.map fun b => Utf8.fromLossy b.2)) := by
  have hstored := h.backing
  rw [field_take (by decide), field_take (by decide)]
  cases hbacking : f.backing with
  | none =>
    rw [hbacking] at hstored
    have hzero : field host.content 8 8 = 0 := field_of_at hstored (by decide)
    rw [hzero, Disk.readBackingName, if_neg fun hne => hne.1 rfl]
    exact .pure _
  | some b =>
    obtain ⟨off, name⟩ := b
    rw [hbacking] at hstored
    obtain ⟨hoff, hsize, hname, hpos, hlt, hne, hle⟩ := hstored
    have hoffset : field host.content 8 8 = off := field_of_at hoff hlt
    have hlength : field host.content 16 4 = name.length :=
      field_of_at hsize (Nat.lt_of_le_of_lt hle (by decide))
    have hread := @Host.readAt_gives _ hh layer _ _ (Or.inr hname.le_length)
    rw [hname.slice] at hread
    rw [hoffset, hlength, Disk.readBackingName, if_pos ⟨by omega, hne⟩, if_neg (by omega)]
    exact settles_map hread _

/-- A stored image is opened. -/
theorem Stored.open_gives (h : f.Stored host.content) (hh : host.Honest) :
    Settles Untouched (Qcow2.open host layer) (.ok (f.image host)) := by
  have hheader : Settles Untouched (host.readAt layer 0 72) _ :=
    Host.readAt_gives hh (Or.inr h.header)
  refine settles_bind hheader ?_
  have hl1Size : field (slice host.content 0 72) 36 4 = f.l1.length := by
    rw [field_take (by decide)]
    exact field_of_at h.l1Size h.l1Size_lt
  have hl1Offset : field (slice host.content 0 72) 40 8 = f.l1Offset := by
    rw [field_take (by decide)]
    exact field_of_at h.l1Offset h.l1Offset_lt
  have hsize : field (slice host.content 0 72) 24 8 = f.size := by
    rw [field_take (by decide)]
    exact field_of_at h.size f.size_lt
  have hbits : field (slice host.content 0 72) 20 4 = f.clusterBits := by
    rw [field_take (by decide)]
    exact field_of_at h.clusterBits (Nat.lt_of_le_of_lt f.clusterBits_le (by decide))
  have htable : Settles Untouched (host.readAt layer f.l1Offset (f.l1.length * 8))
      (.ok (f.l1.flatMap (toBe 8))) := by
    have hlength : (f.l1.flatMap (toBe 8)).length = f.l1.length * 8 :=
      length_flatMap_const (length_toBe 8) f.l1
    have hread := @Host.readAt_gives _ hh layer _ _ (Or.inr h.l1.le_length)
    rwa [h.l1.slice, hlength] at hread
  -- what is left once the version and the features are known
  have hrest (dirty : Bool) : Settles Untouched (do
      ofExcept .err (Disk.checkHeader (field (slice host.content 0 72) 32 4) dirty.toNat
        (field (slice host.content 0 72) 20 4))
      let backingName ← Disk.readBackingName host layer (field (slice host.content 0 72) 8 8)
        (field (slice host.content 0 72) 16 4)
      let l1Raw ← host.readAt layer (field (slice host.content 0 72) 40 8)
        (field (slice host.content 0 72) 36 4 * 8)
      if hok : field (slice host.content 0 72) 24 8 < 2 ^ 64 ∧
          9 ≤ field (slice host.content 0 72) 20 4 ∧
          field (slice host.content 0 72) 20 4 ≤ 21 then
        pure (⟨host, field (slice host.content 0 72) 24 8, field (slice host.content 0 72) 20 4,
          be64s l1Raw, backingName, hok.1, hok.2.1, hok.2.2⟩ : Qcow2)
      else throw .panic) (.ok (f.image host)) := by
    rw [h.checkHeader dirty]
    refine settles_bind (.pure ()) (settles_bind (h.readBackingName hh) ?_)
    rw [hl1Offset, hl1Size]
    refine settles_bind htable ?_
    simp only [hsize, hbits, be64s_flatMap h.l1_lt]
    rw [dif_pos ⟨f.size_lt, f.clusterBits_ge, f.clusterBits_le⟩]
    exact .pure _
  cases h.version with
  | two hversion =>
    rw [h.checkVersion hversion (Or.inl rfl)]
    exact settles_bind (.pure 2) (settles_bind (.pure 0) (hrest false))
  | three hversion dirty hfeatures =>
    rw [h.checkVersion hversion (Or.inr rfl)]
    refine settles_bind (.pure 3) (settles_bind ?_ (hrest dirty))
    have hread := @Host.readAt_gives _ hh layer _ _ (Or.inr hfeatures.le_length)
    have hsmall : dirty.toNat < 256 ^ 8 :=
      Nat.lt_of_le_of_lt (Bool.toNat_le dirty) (by decide)
    have hflags := settles_map hread be
    rw [hfeatures.slice, be_toBe hsmall, length_toBe] at hflags
    exact hflags

end Layout

end Opening

section Clusters

/-- An entry for a place that is a multiple of 512, with its flags. -/
def placed (copied : Bool) (sector : Nat) (flags : Bool) : Nat :=
  copied.toNat * 2 ^ 63 + sector * 512 + flags.toNat

private theorem field_placed {copied flags : Bool} {sector : Nat} (h : sector < 2 ^ 47) :
    Bits.field (placed copied sector flags) 9 47 = sector ∧
      Bits.field (placed copied sector flags) 62 1 = 0 ∧
      Bits.field (placed copied sector flags) 0 1 = flags.toNat := by
  have hcopied := Bool.toNat_le copied
  have hflags := Bool.toNat_le flags
  simp only [Bits.field, placed]
  omega

/-- What such an entry says. -/
theorem meaning_placed (q : Qcow2) {copied flags : Bool} {sector : Nat} (h : sector < 2 ^ 47) :
    q.meaning (placed copied sector flags) =
      if flags then .zero else if sector = 0 then .unallocated else .data (sector * 512) := by
  obtain ⟨hsector, hcompressed, hflags⟩ := @field_placed copied flags sector h
  have hzero : sector * 512 = 0 ↔ sector = 0 := by omega
  rw [Qcow2.meaning, hcompressed, hflags, hsector, if_neg Nat.zero_ne_one]
  cases flags with
  | true => rfl
  | false =>
    simp only [Bool.toNat_false, Nat.zero_ne_one, if_false, Nat.reducePow, hzero,
      Bool.false_eq_true]

namespace Layout

/-- The L2 entry of a guest cluster. -/
inductive EntryAt (f : Layout) (content : Bytes) (c : Nat) : Nat → Prop where
  /-- Its part of the disk has no L2 table. -/
  | missing (htable : f.l1[c / (2 ^ f.clusterBits / 8)]?.getD 0 = 0) : f.EntryAt content c 0
  | present {copied : Bool} {sector entry : Nat}
      (htable : f.l1[c / (2 ^ f.clusterBits / 8)]? = some (placed copied sector false))
      (hpos : 0 < sector) (hlt : sector < 2 ^ 47)
      (hentry : At content (sector * 512 + c % (2 ^ f.clusterBits / 8) * 8) (toBe 8 entry))
      (hentry_lt : entry < 2 ^ 64) : f.EntryAt content c entry

/-- An L2 entry stands for the bytes of a guest cluster; `below` is the disk that it leaves
open to. -/
inductive Means (f : Layout) (z : Inflater) (content : Bytes) (below : Option Bytes) (c : Nat)
    (data : Bytes) : Nat → Prop where
  | unallocated (copied : Bool)
      (hdata : ∀ i < data.length, data[i]? =
        some ((below.bind (·[c * 2 ^ f.clusterBits + i]?)).getD 0)) :
      f.Means z content below c data (placed copied 0 false)
  | zero (copied : Bool) {sector : Nat} (hlt : sector < 2 ^ 47)
      (hdata : ∀ i < data.length, data[i]? = some 0) :
      f.Means z content below c data (placed copied sector true)
  | plain (copied : Bool) {sector : Nat} (hpos : 0 < sector) (hlt : sector < 2 ^ 47)
      (hdata : At content (sector * 512) data) :
      f.Means z content below c data (placed copied sector false)
  | compressed (copied : Bool) {offset extra : Nat} {inflated : Bytes}
      (hoffset : offset < 2 ^ (62 - (f.clusterBits - 8)))
      (hextra : extra < 2 ^ (f.clusterBits - 8))
      (hinflated : z.cluster (2 ^ f.clusterBits) offset
        (slice content offset (min ((extra + 1) * 512 - offset % 512) (content.length - offset))) =
          .ok inflated)
      (hdata : data = inflated.take data.length) :
      f.Means z content below c data
        (copied.toNat * 2 ^ 63 + 2 ^ 62 + extra * 2 ^ (62 - (f.clusterBits - 8)) + offset)

/-- A file holds a guest disk: every cluster of it has an entry that stands for its bytes. -/
structure Images (f : Layout) (z : Inflater) (content : Bytes) (below : Option Bytes)
    (guest : Bytes) : Prop where
  length : guest.length = f.size
  clusters : ∀ c, c * 2 ^ f.clusterBits < f.size → ∃ entry, f.EntryAt content c entry ∧
    f.Means z content below c (slice guest (c * 2 ^ f.clusterBits) (2 ^ f.clusterBits)) entry

variable {f : Layout} {z : Inflater} {host : Host} {below : Option Bytes} {guest : Bytes}
  {c entry : Nat}

/-- The stored entry of a cluster is found through both tables. -/
theorem EntryAt.descriptor (h : f.EntryAt host.content c entry) :
    (f.image host).descriptor c = some entry := by
  cases h with
  | missing htable =>
    have hzero : (f.image host).table c = 0 := by
      have hfield : Bits.field (f.l1[c / (2 ^ f.clusterBits / 8)]?.getD 0) 9 47 = 0 := by
        rw [htable]
        rfl
      exact (congrArg (· * 2 ^ 9) hfield).trans (Nat.zero_mul _)
    rw [Qcow2.descriptor, if_pos hzero]
  | @present copied sector _ htable hpos hlt hentry hentry_lt =>
    have hplace : (f.image host).table c = sector * 512 := by
      have hfield : Bits.field (f.l1[c / (2 ^ f.clusterBits / 8)]?.getD 0) 9 47 = sector := by
        rw [htable, Option.getD_some]
        exact (field_placed hlt).1
      exact congrArg (· * 2 ^ 9) hfield
    have hread : get? host.content (sector * 512 + c % (2 ^ f.clusterBits / 8) * 8) 8 =
        some (toBe 8 entry) := by
      have hat := hentry
      rwa [At, length_toBe] at hat
    rw [Qcow2.descriptor, hplace, if_neg (by omega)]
    exact (congrArg (Option.map be) hread).trans (congrArg some (be_toBe hentry_lt))

/-- The disk that a guest disk is for the layer above. -/
def viewOf (guest : Bytes) : View := ⟨guest.length, (guest[·]?)⟩

/-- An entry that stands for the bytes of a cluster is read as these bytes. -/
theorem Means.byte {data : Bytes} (h : f.Means z host.content below c data entry)
    (hentry : (f.image host).descriptor c = some entry) {i : Nat} (hi : i < data.length)
    (hwidth : i < 2 ^ f.clusterBits) :
    (f.image host).byte z (below.map viewOf) (c * 2 ^ f.clusterBits + i) = data[i]? := by
  have hpos : 0 < 2 ^ f.clusterBits := Nat.two_pow_pos _
  have hdiv : (c * 2 ^ f.clusterBits + i) / (f.image host).width = c := by
    rw [Qcow2.width, image, Nat.mul_comm, Nat.mul_add_div hpos, Nat.div_eq_of_lt hwidth,
      Nat.add_zero]
  have hmod : (c * 2 ^ f.clusterBits + i) % (f.image host).width = i := by
    rw [Qcow2.width, image, Nat.mul_comm, Nat.mul_add_mod, Nat.mod_eq_of_lt hwidth]
  rw [Qcow2.byte, hdiv, hmod, Qcow2.mapping, hentry, Option.map_some]
  cases h with
  | unallocated copied hdata =>
    rw [meaning_placed _ (by decide), hdata i hi]
    cases below with
    | none => rfl
    | some base =>
      simp only [Bool.false_eq_true, if_false, if_true, Option.map_some, View.below, viewOf,
        Option.bind_some]
      split
      · rename_i hlt
        rw [List.getElem?_eq_getElem hlt]
        rfl
      · rename_i hge
        rw [List.getElem?_eq_none (Nat.le_of_not_lt hge)]
        rfl
  | zero copied hlt hdata =>
    rw [meaning_placed _ hlt, hdata i hi]
    rfl
  | plain copied hsector hlt hdata =>
    rw [meaning_placed _ hlt, if_neg Bool.false_ne_true, if_neg (Nat.ne_of_gt hsector)]
    have hslice := congrArg (·[i]?) hdata.slice
    simp only [getElem?_slice, if_pos hi] at hslice
    exact hslice
  | @compressed copied offset extra inflated hoffset hextra hinflated hdata =>
    have hmeaning := @Qcow2.decodeEntry_compressed (f.image host) copied offset extra hoffset hextra
    rw [Qcow2.decodeEntry_eq] at hmeaning
    have hcluster : (f.image host).inflated z offset ((extra + 1) * 512 - offset % 512) =
        some inflated := by
      have hsize : (f.image host).clusterSize = 2 ^ f.clusterBits := Qcow2.clusterSize_eq _
      rw [Qcow2.inflated, hsize]
      exact congrArg Except.toOption hinflated
    have hbyte : data[i]? = inflated[i]? := by
      rw [hdata, List.getElem?_take, if_pos hi]
    have hsame : copied.toNat * 2 ^ 63 + 2 ^ 62 + extra * 2 ^ (62 - (f.clusterBits - 8)) + offset =
        (f.image host).compressedEntry copied offset extra := by
      rw [Qcow2.compressedEntry, Qcow2.offsetBits, image]
    rw [hsame, hmeaning]
    simp only [hcluster, Option.bind_some, hbyte]

/-- The bytes of the guest disk are those of the image. -/
theorem Images.byte (h : f.Images z host.content below guest) {p : Nat} (hp : p < guest.length) :
    (f.image host).byte z (below.map viewOf) p = guest[p]? := by
  have hpos : 0 < 2 ^ f.clusterBits := Nat.two_pow_pos _
  have hsplit : p / 2 ^ f.clusterBits * 2 ^ f.clusterBits + p % 2 ^ f.clusterBits = p :=
    Nat.div_add_mod' p _
  have hlt := Nat.mod_lt p hpos
  obtain ⟨entry, hentry, hmeans⟩ := h.clusters (p / 2 ^ f.clusterBits) (by rw [← h.length]; omega)
  have hlength : p % 2 ^ f.clusterBits <
      (slice guest (p / 2 ^ f.clusterBits * 2 ^ f.clusterBits) (2 ^ f.clusterBits)).length := by
    rw [length_slice]
    omega
  have hbyte := hmeans.byte hentry.descriptor hlength hlt
  rw [hsplit, getElem?_slice, if_pos hlt, hsplit] at hbyte
  exact hbyte

end Layout

end Clusters

section Chains

/-- A locator carries a guest disk: a file that is no image is the disk itself, and an image
holds the clusters of it, over what its backing file carries. The number counts backing
files. As the reader tells compressed clusters apart by their offsets alone, a layer has no
two of them at one offset with different lengths. -/
inductive Carries (w : World) (z : Inflater) : Str → Bytes → Nat → Prop where
  | file {locator : Str} {h : Host} (hopen : w.source locator = .ok h) (hh : h.Honest)
      (hraw : h.size < 4 ∨ h.content.take 4 ≠ magic) : Carries w z locator h.content 0
  | image {locator : Str} {h : Host} {f : Layout} {guest : Bytes}
      (hopen : w.source locator = .ok h) (hh : h.Honest) (hstored : f.Stored h.content)
      (hbacking : f.backing = none) (himages : f.Images z h.content none guest)
      (hu : (f.image h).Unambiguous) : Carries w z locator guest 0
  | overlay {locator : Str} {h : Host} {f : Layout} {off : Nat} {name base guest : Bytes} {n : Nat}
      (hopen : w.source locator = .ok h) (hh : h.Honest) (hstored : f.Stored h.content)
      (hbacking : f.backing = some (off, name))
      (hbase : Carries w z (resolveRelative locator (Utf8.fromLossy name)) base n)
      (himages : f.Images z h.content (some base) guest) (hu : (f.image h).Unambiguous) :
      Carries w z locator guest (n + 1)

variable {w : World} {z : Inflater} {locator : Str} {guest : Bytes} {n : Nat}

/-- An image shows a guest disk, and can show all of it at any time. -/
structure ShowsAll (z : Inflater) (img : DiskImage) (guest : Bytes) : Prop where
  size : img.size = guest.length
  byte : ∀ p < guest.length, (img.view z).byte p = guest[p]?
  unambiguous : img.Unambiguous
  honest : img.Honest

/-- What is open in a layer is all that the layer below matters for. -/
theorem Qcow2.byte_congr (q : Qcow2) (z : Inflater) {below below' : Option View}
    (h : ∀ p, View.below below p = View.below below' p) (p : Nat) :
    q.byte z below p = q.byte z below' p := by
  unfold byte
  cases q.mapping (p / q.width) with
  | none => rfl
  | some m =>
    cases m with
    | unallocated => exact h p
    | data | zero | compressed => rfl

private theorem sniff_gives {h : Host} (hh : h.Honest) (depth : Nat) :
    Settles Untouched (sniff h depth)
      (.ok (if h.size ≥ 4 then h.content.take 4 else zeroes 4)) := by
  unfold sniff
  split
  · rename_i hsize
    exact Host.readAt_gives hh (Or.inr hsize)
  · exact .pure _

/-- The magic of a stored image is seen. -/
theorem Layout.Stored.sniff_gives {f : Layout} {h : Host} (hs : f.Stored h.content)
    (hh : h.Honest) (depth : Nat) : Settles Untouched (sniff h depth) (.ok Disk.magic) := by
  have hsize : h.size ≥ 4 := Nat.le_trans (by decide) hs.header
  have hmagic : h.content.take 4 = Disk.magic := hs.magic.slice
  have hsniff := Disk.sniff_gives hh depth
  rwa [if_pos hsize, hmagic] at hsniff

/-- What a locator carries is opened and shown, by induction on the chain. -/
theorem Carries.open_gives (h : Carries w z locator guest n) {depth : Nat}
    (hdepth : depth + n ≤ maxBackingDepth) :
    ∃ img, Settles Untouched (DiskImage.openAtDepth w locator depth) (.ok img) ∧
      ShowsAll z img guest := by
  induction h generalizing depth with
  | @file locator h hopen hh hraw =>
    refine ⟨.raw h, ?_, rfl, fun _ _ => rfl, trivial, hh⟩
    have hnot : (if h.size ≥ 4 then h.content.take 4 else zeroes 4) ≠ magic := by
      split
      · rename_i hsize
        exact hraw.resolve_left (Nat.not_lt.mpr hsize)
      · decide
    rw [DiskImage.openAtDepth, dif_neg (by omega), hopen]
    refine settles_bind (settles_report h) (settles_bind (sniff_gives hh depth) ?_)
    rw [if_pos hnot]
    exact .pure _
  | @image locator h f guest hopen hh hstored hbacking himages hu =>
    refine ⟨.qcow2 (f.image h), ?_, himages.length.symm, fun p hp => ?_, hu, hh⟩
    · have hname : (f.image h).backingName = none := by rw [Layout.image, hbacking]; rfl
      rw [DiskImage.openAtDepth, dif_neg (by omega), hopen]
      refine settles_bind (settles_report h) (settles_bind (hstored.sniff_gives hh depth) ?_)
      rw [if_neg fun hne => hne rfl]
      refine settles_bind (hstored.open_gives hh) ?_
      rw [hname]
      exact .pure _
    · exact himages.byte hp
  | @overlay locator h f off name base guest n hopen hh hstored hbacking hbase himages hu ih =>
    obtain ⟨backing, hsettles, hshows⟩ := @ih (depth + 1) (by omega)
    refine ⟨.overlay (f.image h) backing, ?_, himages.length.symm, fun p hp => ?_,
      ⟨hu, hshows.unambiguous⟩, ⟨hh, hshows.honest⟩⟩
    · have hname : (f.image h).backingName = some (Utf8.fromLossy name) := by
        rw [Layout.image, hbacking]
        rfl
      rw [DiskImage.openAtDepth, dif_neg (by omega), hopen]
      refine settles_bind (settles_report h) (settles_bind (hstored.sniff_gives hh depth) ?_)
      rw [if_neg fun hne => hne rfl]
      refine settles_bind (hstored.open_gives hh) ?_
      rw [hname]
      exact settles_bind (settles_mapError hsettles _) (.pure _)
    · have hbelow : ∀ q, View.below (some (backing.view z)) q =
          View.below (some (Layout.viewOf base)) q := by
        intro q
        have hsize : (backing.view z).size = base.length :=
          (DiskImage.view_size z backing).trans hshows.size
        by_cases hq : q < base.length
        · rw [View.below, View.below, hsize, if_pos hq]
          exact (hshows.byte q hq).trans (if_pos hq).symm
        · rw [View.below, View.below, hsize, if_neg hq]
          exact (if_neg hq).symm
      exact ((f.image h).byte_congr z hbelow p).trans (himages.byte hp)

end Chains

namespace DiskImage

variable {z : Inflater}

private theorem run_cachesTrue {img : DiskImage} (hu : img.Unambiguous) {s : Session}
    (hs : img.CachesTrue z 0 s) (history : List (Nat × Nat)) :
    img.CachesTrue z 0 (Runs.final (img.step z) s history) := by
  apply Runs.final_of_step (I := img.CachesTrue z 0) (G := fun _ _ => True)
  · intro s r hs _
    exact step_cachesTrue hu hs r
  · exact hs
  · exact fun _ _ => trivial

private theorem cachesTrue_untouched (img : DiskImage) {s : Session} (hs : Untouched s)
    (layer : Nat) :
    img.CachesTrue z layer s :=
  cachesTrue_local img layer .fresh s (fun k _ => hs k) (cachesTrue_fresh img layer)

end DiskImage

/-- What a locator carries, over at most eight backing files, is opened, and after any
history of requests on it a request is answered with a part of the guest disk exactly if
this is the part that it asks for. -/
theorem carried_reads_back (w : World) (z : Inflater) {locator : Str} {guest : Bytes} {n : Nat}
    (h : Carries w z locator guest n) (hn : n ≤ 8) :
    ∃ img s, DiskImage.open w locator .fresh = .ok img s ∧ img.size = guest.length ∧
      ∀ (history : List (Nat × Nat)) (offset len : Nat) (buf : Bytes), 0 < len →
        ((img.step z (Runs.final (img.step z) s history) (offset, len)).1 = .ok buf ↔
          offset + len ≤ guest.length ∧ buf = slice guest offset len) := by
  have hdepth : 0 + n ≤ maxBackingDepth := by
    rw [maxBackingDepth]
    omega
  obtain ⟨img, hsettles, hshows⟩ := h.open_gives hdepth
  have hfresh : Untouched .fresh := fun _ => rfl
  obtain ⟨hanswer, huntouched⟩ := hsettles .fresh hfresh
  refine ⟨img, _, eq_ok_of_answer hanswer, hshows.size, ?_⟩
  intro history offset len buf hpos
  have hs := img.run_cachesTrue (z := z) hshows.unambiguous
    (img.cachesTrue_untouched huntouched 0) history
  have hslice (hlen : offset + len ≤ guest.length) :
      Shows (img.view z).byte offset len (slice guest offset len) :=
    .slice hlen fun i hi => hshows.byte _ (by omega)
  constructor
  · intro hbuf
    have hlen : offset + len ≤ guest.length := hshows.size ▸ DiskImage.size_of_ok hs hpos hbuf
    exact ⟨hlen, (DiskImage.shows_of_ok hshows.unambiguous hs hbuf).unique (hslice hlen)⟩
  · rintro ⟨hlen, rfl⟩
    have hsize : offset + len ≤ img.size := hshows.size.symm ▸ hlen
    obtain ⟨buf, hbuf⟩ := (DiskImage.readAt_answers hshows.unambiguous hshows.honest hsize
      (Whole.of_shows (hslice hlen))).answers hs
    have hshown := DiskImage.shows_of_ok hshows.unambiguous hs hbuf
    rw [← hshown.unique (hslice hlen)]
    exact hbuf

section Sample

/-- The layout of the image with all kinds of clusters. -/
def mixedLayout : Layout where
  clusterBits := 9
  size := 2560
  l1Offset := 80
  l1 := [placed true 1 false]
  backing := some (72, [0x62, 0x61, 0x73, 0x65, 0x2e, 0x69, 0x6d, 0x67])
  clusterBits_ge := Nat.le_refl 9
  clusterBits_le := Nat.le_of_ble_eq_true rfl
  size_lt := Nat.le_of_ble_eq_true rfl

/-- The disk that it holds over its backing file. -/
def mixedGuest : Bytes :=
  List.flatten [[5, 6], zeroes 510, List.replicate 512 7, zeroes 512, List.replicate 1024 9]

/-- The image under any name but that of its backing file. -/
def mixedWorld : World where
  file path := .ok (if path = "base.img".toList then mixedBase else mixedImage.host)
  remote url := .error (.io ("no network: ".toList ++ url))

/-- The example file stores the example layout. -/
private theorem stored_mixed : mixedLayout.Stored mixedFile where
  header := by decide +kernel
  magic := by decide +kernel
  version := .two (by decide +kernel)
  backing := (by decide +kernel :
    At mixedFile 8 (toBe 8 72) ∧ At mixedFile 16 (toBe 4 8) ∧
      At mixedFile 72 [0x62, 0x61, 0x73, 0x65, 0x2e, 0x69, 0x6d, 0x67] ∧
      0 < 72 ∧ 72 < 2 ^ 64 ∧ 0 < 8 ∧ 8 ≤ 1023)
  clusterBits := by decide +kernel
  size := by decide +kernel
  crypt := by decide +kernel
  l1Size := by decide +kernel
  l1Offset := by decide +kernel
  l1 := by decide +kernel
  l1Size_lt := by decide +kernel
  l1Offset_lt := by decide +kernel
  l1_lt := by decide +kernel

/-- The entry of a cluster of the disk. -/
theorem entryAt_mixed {c entry : Nat} (hc : c < 5) (hentry : mixedEntries[c]? = some entry) :
    mixedLayout.EntryAt mixedFile c entry := by
  have hall : ∀ c < 5, ∀ e ∈ mixedEntries[c]?,
      At mixedFile (512 + c * 8) (toBe 8 e) ∧ e < 2 ^ 64 := by
    decide +kernel
  obtain ⟨hat, hlt⟩ := hall c hc entry hentry
  have hmod : c % 64 = c := Nat.mod_eq_of_lt (by omega)
  have hdiv : c / 64 = 0 := Nat.div_eq_of_lt (by omega)
  have htable : mixedLayout.l1[c / (2 ^ 9 / 8)]? = some (placed true 1 false) := by
    change mixedLayout.l1[c / 64]? = _
    rw [hdiv]
    rfl
  have hplace : At mixedFile (1 * 512 + c % (2 ^ 9 / 8) * 8) (toBe 8 entry) := by
    change At mixedFile (1 * 512 + c % 64 * 8) _
    rw [hmod]
    exact hat
  exact .present htable (by decide) (by decide) hplace hlt

/-- The three bytes at the end of the file stand for a cluster of nines. -/
theorem compressed_mixed {below : Option Bytes} {c : Nat} {data : Bytes}
    (hdata : data = (List.replicate 512 9).take data.length) :
    mixedLayout.Means repeatInflater mixedFile below c data (2 ^ 62 + 1536) := by
  have hinflated : repeatInflater.cluster (2 ^ 9) 1536
      (slice mixedFile 1536 (min ((0 + 1) * 512 - 1536 % 512) (mixedFile.length - 1536))) =
        .ok (List.replicate 512 9) := by
    decide +kernel
  have hoffset : 1536 < 2 ^ (62 - (9 - 8)) := by decide
  have hmeans : mixedLayout.Means repeatInflater mixedFile below c data
      (false.toNat * 2 ^ 63 + 2 ^ 62 + 0 * 2 ^ (62 - (9 - 8)) + 1536) :=
    @Layout.Means.compressed mixedLayout _ _ _ _ _ false 1536 0 _ hoffset (by decide) hinflated
      hdata
  exact hmeans

private theorem getElem?_zeroes {n i : Nat} (hi : i < (zeroes n).length) :
    (zeroes n)[i]? = some 0 := by
  rw [zeroes, List.length_replicate] at hi
  rw [zeroes, List.getElem?_replicate, if_pos hi]

/-- The first cluster has what the backing file has and zeroes behind it. -/
theorem open_mixed : ∀ i < (slice mixedGuest 0 512).length,
    (slice mixedGuest 0 512)[i]? = some ((mixedBase.content[0 + i]?).getD 0) := by
  have hguest : slice mixedGuest 0 512 = 5 :: 6 :: zeroes 510 := by decide +kernel
  intro i hi
  rw [hguest] at hi ⊢
  rcases i with - | - | i
  · rfl
  · rfl
  · rw [List.length_cons, List.length_cons] at hi
    have hrest : (0 + (i + 1 + 1)) = i + 2 := by omega
    rw [hrest]
    exact getElem?_zeroes (by omega)

/-- The example layout images the example guest. -/
private theorem images_mixed :
    mixedLayout.Images repeatInflater mixedFile (some mixedBase.content) mixedGuest where
  length := by decide +kernel
  clusters c hc := by
    have hlt : c * 512 < 2560 := hc
    have hfive : c < 5 := by omega
    have hentry (entry : Nat) (h : mixedEntries[c]? = some entry) :
        mixedLayout.EntryAt mixedFile c entry := entryAt_mixed hfive h
    obtain rfl | rfl | rfl | rfl | rfl : c = 0 ∨ c = 1 ∨ c = 2 ∨ c = 3 ∨ c = 4 := by omega
    · exact ⟨_, hentry (placed false 0 false) (by decide), .unallocated false open_mixed⟩
    · have hat : At mixedFile 1024 (slice mixedGuest 512 512) := by decide +kernel
      exact ⟨_, hentry (placed true 2 false) (by decide), .plain true (by decide) (by decide) hat⟩
    · have hguest : slice mixedGuest 1024 512 = zeroes 512 := by decide +kernel
      have hzero : ∀ i < (slice mixedGuest 1024 512).length,
          (slice mixedGuest 1024 512)[i]? = some 0 := by
        rw [hguest]
        exact fun i => getElem?_zeroes
      exact ⟨_, hentry (placed true 0 true) (by decide), .zero true (by decide) hzero⟩
    · have hdata : slice mixedGuest 1536 512 =
          (List.replicate 512 9).take (slice mixedGuest 1536 512).length := by
        decide +kernel
      exact ⟨2 ^ 62 + 1536, hentry _ (by decide), compressed_mixed hdata⟩
    · have hdata : slice mixedGuest 2048 512 =
          (List.replicate 512 9).take (slice mixedGuest 2048 512).length := by
        decide +kernel
      exact ⟨2 ^ 62 + 1536, hentry _ (by decide), compressed_mixed hdata⟩

/-- A read over all kinds of clusters of an image and over its backing file, after one that has
filled the cache. -/
theorem carried_reads_back_mixed :
    ∃ img s, DiskImage.open mixedWorld "disk.qcow2".toList .fresh = .ok img s ∧
      (img.step DiskImage.repeatInflater
        (Runs.final (img.step DiskImage.repeatInflater) s [(2048, 1)]) (1, 1537)).1 =
          .ok (slice mixedGuest 1 1537) := by
  have hname : resolveRelative "disk.qcow2".toList
      (Utf8.fromLossy [0x62, 0x61, 0x73, 0x65, 0x2e, 0x69, 0x6d, 0x67]) = "base.img".toList := by
    decide +kernel
  have hbase : Carries mixedWorld repeatInflater (resolveRelative "disk.qcow2".toList
      (Utf8.fromLossy [0x62, 0x61, 0x73, 0x65, 0x2e, 0x69, 0x6d, 0x67])) mixedBase.content 0 := by
    rw [hname]
    exact .file (h := mixedBase) rfl (fun _ _ _ => rfl) (by decide +kernel)
  have hcarries : Carries mixedWorld repeatInflater "disk.qcow2".toList mixedGuest 1 :=
    .overlay (h := mixedImage.host) rfl (fun _ _ _ => rfl) stored_mixed rfl hbase images_mixed
      mixedImage_unambiguous
  obtain ⟨img, s, hopen, hsize, hreads⟩ :=
    carried_reads_back mixedWorld repeatInflater hcarries (by decide)
  have hlength : mixedGuest.length = 2560 := images_mixed.length
  refine ⟨img, s, hopen, (hreads [(2048, 1)] 1 1537 _ (by decide)).mpr ⟨?_, rfl⟩⟩
  rw [hlength]
  decide

end Sample

end BootExtractor.Disk
