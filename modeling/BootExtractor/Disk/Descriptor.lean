import BootExtractor.Disk.Compressed
import BootExtractor.Lib.Checked

/-!
# Compressed cluster descriptors

A compressed L2 entry packs the host offset of a cluster and the number of its further
sectors into 62 bits, split where the cluster size says. Mapping reads both back, whatever
the copied flag is, and none of its arithmetic leaves the 64 bits of the machine.
-/

namespace BootExtractor.Disk

open Effect Bytes

namespace Qcow2

/-- The compressed L2 entry of a host offset and a number of further sectors. -/
def compressedEntry (q : Qcow2) (copied : Bool) (offset extra : Nat) : Nat :=
  copied.toNat * 2 ^ 63 + 2 ^ 62 + extra * 2 ^ q.offsetBits + offset

/-- A result that overflow would turn into a panic. -/
def checked {α : Type} : Option α → DiskM α
  | some a => pure a
  | none => throw .panic

/-- A sum that does not overflow is that sum. -/
@[simp] theorem checked_some {α : Type} (a : α) : checked (some a) = pure a := rfl

/-- The meaning of an L2 entry, by arithmetic that stops on overflow. -/
def decodeChecked (q : Qcow2) (entry : Nat) : Option Mapping :=
  if entry &&& l2Compressed ≠ 0 then do
    let x ← Checked.sub 62 (← Checked.sub q.clusterBits 8)
    let desc := entry &&& u64Not (← Checked.shl 64 3 62)
    let offset := desc &&& (← Checked.sub (← Checked.shl 64 1 x) 1)
    let sectors ← Checked.add 64 (← Checked.shr 64 desc x) 1
    let csize ← Checked.sub (← Checked.mul 64 sectors 512) (offset &&& 511)
    some (.compressed offset csize)
  else if entry &&& l2ZeroFlag ≠ 0 then some .zero
  else
    let hostOffset := entry &&& l2OffsetMask
    some (if hostOffset = 0 then .unallocated else .data hostOffset)

/-- `map_cluster`, by arithmetic that stops on overflow. -/
def mapClusterChecked (q : Qcow2) (layer guestOffset : Nat) : DiskM Mapping := do
  let l2Entries := (← checked (Checked.shl 64 1 q.clusterBits)) / 8
  let clusterIndex ← checked (Checked.shr 64 guestOffset q.clusterBits)
  let l1Index := clusterIndex / l2Entries
  let l2Index := clusterIndex % l2Entries
  let l2Table := q.l1[l1Index]?.getD 0 &&& l1OffsetMask
  if l2Table = 0 then pure .unallocated
  else
    let place ← checked (Checked.add 64 l2Table (← checked (Checked.mul 64 l2Index 8)))
    let buf ← q.host.readAt layer place 8
    checked (q.decodeChecked (be buf))

section Arithmetic

variable (q : Qcow2)

private theorem extra_lt (entry : Nat) :
    Bits.field entry q.offsetBits (q.clusterBits - 8) < 2 ^ 13 := by
  have hle := q.clusterBits_le
  exact Nat.lt_of_lt_of_le (Bits.field_lt _ _ _) (Nat.pow_le_pow_right (by decide) (by omega))

/-- Whatever the entry, its fields are read without overflow. -/
theorem decodeChecked_eq (entry : Nat) : q.decodeChecked entry = some (q.decodeEntry entry) := by
  unfold decodeChecked decodeEntry
  split
  · have hge := q.clusterBits_ge
    have hle := q.clusterBits_le
    have hoff := q.offsetBits_le
    have hextra := q.extra_lt entry
    have hone : 1 ≤ 1 <<< q.offsetBits := by
      rw [Nat.one_shiftLeft]
      exact Nat.two_pow_pos _
    have hlow : (entry &&& u64Not (3 <<< 62)) &&& ((1 <<< q.offsetBits) - 1) &&& 511 ≤ 511 :=
      Nat.and_le_right
    have hsplit : Checked.sub q.clusterBits 8 = some (q.clusterBits - 8) :=
      Checked.sub_eq (by omega)
    have hx : Checked.sub 62 (q.clusterBits - 8) = some q.offsetBits := Checked.sub_eq (by omega)
    have hflags : Checked.shl 64 3 62 = some (3 <<< 62) := rfl
    have hbit := @Checked.shl_one 64 q.offsetBits (by omega)
    have hshift := @Checked.shr_eq 64 (entry &&& u64Not (3 <<< 62)) q.offsetBits (by omega)
    rw [q.extra_field] at hshift
    have hsectors := @Checked.add_eq 64 (Bits.field entry q.offsetBits (q.clusterBits - 8)) 1
      (by omega)
    have hbytes := @Checked.mul_eq 64
      (Bits.field entry q.offsetBits (q.clusterBits - 8) + 1) 512 (by omega)
    simp only [hsplit, hx, hflags, hbit, Checked.sub_eq hone, hshift, hsectors, hbytes,
      Option.bind_eq_bind, Option.bind_some]
    rw [Checked.sub_eq (by omega), Option.bind_some, ← q.extra_field]
    rfl
  · split
    · rfl
    · rfl

/-- The place of an L2 entry is far below the end of the 64 bits. -/
theorem place_lt {index : Nat} (hindex : index < q.fanout) (l1Entry : Nat) :
    (l1Entry &&& l1OffsetMask) + index * 8 < 2 ^ 64 := by
  have hmask : l1Entry &&& l1OffsetMask ≤ l1OffsetMask := Nat.and_le_right
  have htable : l1OffsetMask < 2 ^ 56 := by decide
  have hwidth : q.width ≤ 2 ^ 21 := Nat.pow_le_pow_right (by decide) q.clusterBits_le
  have hfanout : q.fanout * 8 ≤ q.width := Nat.div_mul_le_self _ _
  omega

/-- Mapping any guest offset does not overflow. -/
theorem mapClusterChecked_eq (layer guestOffset : Nat) :
    q.mapClusterChecked layer guestOffset = q.mapCluster layer guestOffset := by
  have hbits : q.clusterBits < 64 := Nat.lt_of_le_of_lt q.clusterBits_le (by decide)
  have hindex : (guestOffset >>> q.clusterBits) % (1 <<< q.clusterBits / 8) < q.fanout :=
    Nat.one_shiftLeft q.clusterBits ▸ Nat.mod_lt _ q.fanout_pos
  have hplace := q.place_lt hindex
    (q.l1[guestOffset >>> q.clusterBits / (1 <<< q.clusterBits / 8)]?.getD 0)
  have hskip := @Checked.mul_eq 64
    ((guestOffset >>> q.clusterBits) % (1 <<< q.clusterBits / 8)) 8 (by omega)
  unfold mapClusterChecked mapCluster clusterSize
  simp only [Checked.shl_one hbits, Checked.shr_eq hbits, hskip, checked_some, pure_bind]
  split
  · rfl
  · rw [Checked.add_eq hplace, checked_some, pure_bind]
    simp only [decodeChecked_eq, checked_some, bind_pure_comp]

end Arithmetic

section Packing

variable {q : Qcow2} {copied copied' : Bool} {offset offset' extra extra' : Nat}

/-- Sectors and offset share 62 bits. -/
theorem two_pow_extra_mul (q : Qcow2) : 2 ^ (q.clusterBits - 8) * 2 ^ q.offsetBits = 2 ^ 62 := by
  rw [← Nat.pow_add, Nat.add_comm, q.offsetBits_add]

/-- An entry is its flags above the sectors above the offset. -/
theorem compressedEntry_eq (q : Qcow2) (copied : Bool) (offset extra : Nat) :
    q.compressedEntry copied offset extra =
      ((copied.toNat * 2 + 1) * 2 ^ (q.clusterBits - 8) + extra) * 2 ^ q.offsetBits + offset := by
  rw [compressedEntry, Nat.add_mul, Nat.mul_assoc, q.two_pow_extra_mul]
  omega

/-- A written descriptor fits into an entry. -/
private theorem compressedEntry_lt (hoffset : offset < 2 ^ q.offsetBits)
    (hextra : extra < 2 ^ (q.clusterBits - 8)) :
    q.compressedEntry copied offset extra < 2 ^ 64 := by
  have hsectors : (extra + 1) * 2 ^ q.offsetBits ≤ 2 ^ (q.clusterBits - 8) * 2 ^ q.offsetBits :=
    Nat.mul_le_mul_right _ hextra
  have hflag : copied.toNat ≤ 1 := Bool.toNat_le copied
  rw [Nat.succ_mul, q.two_pow_extra_mul] at hsectors
  rw [compressedEntry]
  omega

/-- The fields of an entry are what was packed into it. -/
theorem field_offset (hoffset : offset < 2 ^ q.offsetBits) :
    Bits.field (q.compressedEntry copied offset extra) 0 q.offsetBits = offset := by
  rw [compressedEntry_eq, Bits.field_low hoffset]

private theorem field_extra (hoffset : offset < 2 ^ q.offsetBits)
    (hextra : extra < 2 ^ (q.clusterBits - 8)) :
    Bits.field (q.compressedEntry copied offset extra) q.offsetBits (q.clusterBits - 8) =
      extra := by
  have hhigh := Bits.field_high hoffset
    ((copied.toNat * 2 + 1) * 2 ^ (q.clusterBits - 8) + extra) 0 (q.clusterBits - 8)
  rw [compressedEntry_eq]
  exact hhigh.trans (Bits.field_low hextra _)

private theorem field_flag (hoffset : offset < 2 ^ q.offsetBits)
    (hextra : extra < 2 ^ (q.clusterBits - 8)) (i : Nat) :
    Bits.field (q.compressedEntry copied offset extra) (62 + i) 1 =
      Bits.field (copied.toNat * 2 + 1) i 1 := by
  rw [compressedEntry_eq, ← q.offsetBits_add, Nat.add_assoc, Bits.field_high hoffset,
    Bits.field_high hextra]

private theorem field_compressed (hoffset : offset < 2 ^ q.offsetBits)
    (hextra : extra < 2 ^ (q.clusterBits - 8)) :
    Bits.field (q.compressedEntry copied offset extra) 62 1 = 1 := by
  refine (field_flag hoffset hextra 0).trans ?_
  cases copied <;> rfl

private theorem field_copied (hoffset : offset < 2 ^ q.offsetBits)
    (hextra : extra < 2 ^ (q.clusterBits - 8)) :
    Bits.field (q.compressedEntry copied offset extra) 63 1 = copied.toNat := by
  refine (field_flag hoffset hextra 1).trans ?_
  cases copied <;> rfl

/-- Different flags, offsets or sectors make different entries. -/
theorem compressedEntry_injective (hoffset : offset < 2 ^ q.offsetBits)
    (hextra : extra < 2 ^ (q.clusterBits - 8)) (hoffset' : offset' < 2 ^ q.offsetBits)
    (hextra' : extra' < 2 ^ (q.clusterBits - 8))
    (h : q.compressedEntry copied offset extra = q.compressedEntry copied' offset' extra') :
    copied = copied' ∧ offset = offset' ∧ extra = extra' := by
  refine ⟨?_, ?_, ?_⟩
  · have hflags : copied.toNat = copied'.toNat := by
      rw [← @field_copied q copied offset extra hoffset hextra, h, field_copied hoffset' hextra']
    revert hflags
    cases copied <;> cases copied' <;> decide
  · rw [← @field_offset q copied offset extra hoffset, h, field_offset hoffset']
  · rw [← @field_extra q copied offset extra hoffset hextra, h, field_extra hoffset' hextra']

/-- A compressed cluster ends with the last of its sectors. -/
theorem end_of_sectors (offset extra : Nat) :
    offset + ((extra + 1) * 512 - offset % 512) = (offset / 512 + extra + 1) * 512 := by
  omega

/-- Its size is between one byte and two clusters. -/
theorem csize_bounds (hextra : extra < 2 ^ (q.clusterBits - 8)) :
    1 ≤ (extra + 1) * 512 - offset % 512 ∧
      (extra + 1) * 512 - offset % 512 ≤ 2 * q.clusterSize := by
  have hge := q.clusterBits_ge
  have hsplit : 2 * q.clusterSize = 2 ^ (q.clusterBits - 8) * 512 := by
    have hbits : q.clusterBits = q.clusterBits - 8 + 8 := by omega
    rw [clusterSize_eq, width, hbits, Nat.pow_add, Nat.add_sub_cancel]
    omega
  omega

/-- An entry written as a descriptor decodes to it. -/
theorem decodeEntry_compressed (hoffset : offset < 2 ^ q.offsetBits)
    (hextra : extra < 2 ^ (q.clusterBits - 8)) :
    q.decodeEntry (q.compressedEntry copied offset extra) =
      .compressed offset ((extra + 1) * 512 - offset % 512) := by
  rw [decodeEntry_eq, meaning, if_pos (field_compressed hoffset hextra)]
  simp only [field_offset hoffset, field_extra hoffset hextra]

/-- Mapping is the meaning of the L2 entry that it reads. -/
theorem mapCluster_of_read {layer guestOffset : Nat} {s t : Session} {buf : Bytes}
    (htable : q.table (guestOffset / q.width) ≠ 0)
    (hread : q.host.readAt layer
      (q.table (guestOffset / q.width) + guestOffset / q.width % q.fanout * 8) 8 s = .ok buf t) :
    q.mapCluster layer guestOffset s = .ok (q.decodeEntry (be buf)) t := by
  have hindex : (guestOffset >>> q.clusterBits) % (q.clusterSize / 8) =
      guestOffset / q.width % q.fanout := by
    rw [clusterSize_eq, Nat.shiftRight_eq_div_pow]
    rfl
  rw [mapCluster, table_eq, hindex, if_neg htable]
  simp only [Functor.map, EStateM.map, hread]

end Packing

/-- An L2 entry with the flag of compressed clusters, of whatever offset, sectors and copied
flag, is mapped to that offset and a size that ends with the last sector; different ones are
different entries; and no entry and no guest offset makes the arithmetic of mapping overflow. -/
theorem mapCluster_descriptors (q : Qcow2) :
    (∀ copied offset extra, offset < 2 ^ q.offsetBits → extra < 2 ^ (q.clusterBits - 8) →
      ∀ layer guestOffset s t, q.table (guestOffset / q.width) ≠ 0 →
      q.host.readAt layer
          (q.table (guestOffset / q.width) + guestOffset / q.width % q.fanout * 8) 8 s =
        .ok (toBe 8 (q.compressedEntry copied offset extra)) t →
      ∃ csize, q.mapCluster layer guestOffset s = .ok (.compressed offset csize) t ∧
        offset + csize = (offset / 512 + extra + 1) * 512 ∧
        1 ≤ csize ∧ csize ≤ 2 * q.clusterSize) ∧
    (∀ copied copied' offset offset' extra extra',
      offset < 2 ^ q.offsetBits → extra < 2 ^ (q.clusterBits - 8) →
      offset' < 2 ^ q.offsetBits → extra' < 2 ^ (q.clusterBits - 8) →
      q.compressedEntry copied offset extra = q.compressedEntry copied' offset' extra' →
      copied = copied' ∧ offset = offset' ∧ extra = extra') ∧
    ∀ layer guestOffset,
      q.mapClusterChecked layer guestOffset = q.mapCluster layer guestOffset := by
  refine ⟨?_, ?_, q.mapClusterChecked_eq⟩
  · intro copied offset extra hoffset hextra layer guestOffset s t htable hread
    have hmap := mapCluster_of_read htable hread
    have hbe : be (toBe 8 (q.compressedEntry copied offset extra)) =
        q.compressedEntry copied offset extra :=
      be_toBe (compressedEntry_lt hoffset hextra)
    rw [hbe, decodeEntry_compressed hoffset hextra] at hmap
    exact ⟨_, hmap, end_of_sectors offset extra, csize_bounds hextra⟩
  · intro copied copied' offset offset' extra extra' hoffset hextra hoffset' hextra'
    exact compressedEntry_injective hoffset hextra hoffset' hextra'

/-- The descriptor of the second cluster is found again. -/
theorem mapCluster_descriptors_second :
    ∃ csize t, DiskImage.secondCompressed.mapCluster 0 512 .fresh = .ok (.compressed 1024 csize) t ∧
      1024 + csize = 1536 := by
  have hentry : slice DiskImage.secondCompressed.host.content 520 8 =
      toBe 8 (DiskImage.secondCompressed.compressedEntry false 1024 0) := by decide +kernel
  have hrange : 520 + 8 ≤ DiskImage.secondCompressed.host.size := by decide +kernel
  obtain ⟨t, ht⟩ := @readAt_returns 0 DiskImage.secondCompressed.host 520 8 .fresh rfl hrange
  rw [hentry] at ht
  obtain ⟨csize, hmap, hend, -⟩ :=
    (mapCluster_descriptors DiskImage.secondCompressed).1 false 1024 0
      (by decide) (by decide) 0 512 .fresh t (by decide) ht
  exact ⟨csize, t, hmap, hend⟩

end Qcow2

end BootExtractor.Disk
