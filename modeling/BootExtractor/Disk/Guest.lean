import BootExtractor.Disk.Qcow2
import BootExtractor.Lib.Bits

/-!
# What a chain of images holds

The guest disk as a partial function from positions to bytes, with no reads, no
cache and no masks: tables are indexed by division and remainder, descriptors are
bit fields, and an overlay shows its own clusters over those of its backing file.
-/

namespace BootExtractor.Disk

open Effect Bytes

section Reporting

variable {F : Frame Fault Session} {I : Session → Prop}

/-- A reported result is used where its event may be recorded. -/
theorem report_ensures {ε α : Type} {event : Bool → Event} {f : ε → Fault} {result : Except ε α}
    (hok : ∀ s, I s → F.step s (s.noted (event true)) ∧ I (s.noted (event true)))
    (hfail : ∀ s e, result = .error e → I s →
      F.fails (f e) s (s.noted (event false)) ∧ I (s.noted (event false))) :
    Ensures F I (report event f result) fun a => result = .ok a := by
  intro s hs
  rw [report, yields_bind, note, yields_modify, yields_ofExcept]
  constructor
  · rintro a rfl
    exact ⟨(hok s hs).1, (hok s hs).2, rfl⟩
  · rintro e rfl
    exact hfail s e rfl hs

/-- A host answers with the bytes it has there. -/
theorem Host.answer_ok {h : Host} {time offset len : Nat} {buf : Bytes}
    (hb : h.answer time offset len = .ok buf) :
    (len = 0 ∨ offset + len ≤ h.size) ∧ buf = slice h.content offset len := by
  unfold Host.answer at hb
  split at hb
  · cases hb
  · split at hb
    · cases hb
      exact ⟨‹_›, rfl⟩
    · cases hb

/-- A host read is used where its event may be recorded. -/
theorem Host.readAt_ensures {layer offset len : Nat} (h : Host)
    (hok : ∀ s, I s → F.step s (s.noted (.read layer offset len true)) ∧
      I (s.noted (.read layer offset len true)))
    (hfail : ∀ s e, I s → F.fails (.err e) s (s.noted (.read layer offset len false)) ∧
      I (s.noted (.read layer offset len false))) :
    Ensures F I (h.readAt layer offset len) fun buf =>
      (len = 0 ∨ offset + len ≤ h.size) ∧ buf = slice h.content offset len := by
  intro s hs
  rw [Host.readAt, yields_bind, yields_get]
  have hread : Ensures F I
      (report (.read layer offset len) .err (h.answer s.log.length offset len)) _ :=
    report_ensures hok fun s e _ => hfail s e
  exact (hread.mono fun _ hb => Host.answer_ok hb) s hs

end Reporting

/-- A disk as its contents: a size, and the byte at each position that has one. -/
structure View where
  size : Nat
  byte : Nat → Option UInt8

/-- A position that an overlay leaves to the disk below; past its end there are zeroes. -/
def View.below (below : Option View) (p : Nat) : Option UInt8 :=
  match below with
  | none => some 0
  | some v => if p < v.size then v.byte p else some 0

namespace Qcow2

/-- Bytes of a cluster. -/
def width (q : Qcow2) : Nat := 2 ^ q.clusterBits

/-- Entries of an L2 table, which is one cluster of 8-byte entries. -/
def fanout (q : Qcow2) : Nat := q.width / 8

/-- Offset of the L2 table that maps cluster `c`; none past the L1 table. -/
def table (q : Qcow2) (c : Nat) : Nat := Bits.field (q.l1[c / q.fanout]?.getD 0) 9 47 * 2 ^ 9

/-- The L2 entry of a cluster, if it can be read at all; a missing table is one of
zero entries. -/
def descriptor (q : Qcow2) (c : Nat) : Option Nat :=
  if q.table c = 0 then some 0
  else (get? q.host.content (q.table c + c % q.fanout * 8) 8).map be

/-- Number of low bits of a compressed descriptor that hold the host offset. -/
def offsetBits (q : Qcow2) : Nat := 62 - (q.clusterBits - 8)

/-- The meaning of a descriptor, by its bit fields. A compressed cluster ends with the
last of the sectors that its descriptor counts beyond the first. -/
def meaning (q : Qcow2) (d : Nat) : Mapping :=
  if Bits.field d 62 1 = 1 then
    let offset := Bits.field d 0 q.offsetBits
    let extra := Bits.field d q.offsetBits (q.clusterBits - 8)
    .compressed offset ((extra + 1) * 512 - offset % 512)
  else if Bits.field d 0 1 = 1 then .zero
  else
    let offset := Bits.field d 9 47 * 2 ^ 9
    if offset = 0 then .unallocated else .data offset

/-- Where the bytes of cluster `c` are, if its descriptor can be read. -/
def mapping (q : Qcow2) (c : Nat) : Option Mapping := (q.descriptor c).map q.meaning

/-- The bytes of a compressed cluster, if they decode to a whole one. -/
def inflated (q : Qcow2) (z : Inflater) (offset csize : Nat) : Option Bytes :=
  (z.cluster q.clusterSize offset
    (slice q.host.content offset (min csize (q.host.size - offset)))).toOption

/-- The guest byte at a position of an image over a disk. -/
def byte (q : Qcow2) (z : Inflater) (below : Option View) (p : Nat) : Option UInt8 :=
  match q.mapping (p / q.width) with
  | none => none
  | some (.data offset) => q.host.content[offset + p % q.width]?
  | some .zero => some 0
  | some .unallocated => View.below below p
  | some (.compressed offset csize) => (q.inflated z offset csize).bind (·[p % q.width]?)

/-- No two compressed descriptors share a host offset with different lengths. -/
def Unambiguous (q : Qcow2) : Prop :=
  ∀ c c' offset csize csize', q.mapping c = some (.compressed offset csize) →
    q.mapping c' = some (.compressed offset csize') → csize = csize'

end Qcow2

namespace DiskImage

/-- The guest disk of a chain. -/
def view (z : Inflater) : DiskImage → View
  | raw h => ⟨h.size, (h.content[·]?)⟩
  | qcow2 q => ⟨q.virtualSize, q.byte z none⟩
  | overlay q backing => ⟨q.virtualSize, q.byte z (some (backing.view z))⟩

/-- The view is as long as the image. -/
@[simp] theorem view_size (z : Inflater) (img : DiskImage) : (img.view z).size = img.size := by
  cases img <;> rfl

/-- Every layer is unambiguous. -/
def Unambiguous : DiskImage → Prop
  | raw _ => True
  | qcow2 q => q.Unambiguous
  | overlay q backing => q.Unambiguous ∧ backing.Unambiguous

end DiskImage

namespace Qcow2

variable (q : Qcow2)

/-- The code's cluster size is the width. -/
@[simp] theorem clusterSize_eq : q.clusterSize = q.width := Nat.one_shiftLeft _

/-- A cluster is not empty. -/
theorem width_pos : 0 < q.width := Nat.two_pow_pos _

/-- An L2 table is not empty. -/
theorem fanout_pos : 0 < q.fanout := by
  have h : 2 ^ 9 ≤ q.width := Nat.pow_le_pow_right (by decide) q.clusterBits_ge
  exact Nat.div_pos (by omega) (by decide)

/-- The two fields of a descriptor take 62 bits. -/
theorem offsetBits_add : q.offsetBits + (q.clusterBits - 8) = 62 := by
  have hle := q.clusterBits_le
  rw [offsetBits]
  omega

/-- The offset field lies below the flags. -/
theorem offsetBits_le : q.offsetBits ≤ 62 := Nat.sub_le _ _

private theorem descriptor_bits (d : Nat) : d &&& u64Not (3 <<< 62) = Bits.field d 0 62 := by
  have h := Bits.land_mask d 0 62
  rwa [Nat.pow_zero, Nat.mul_one, Nat.mul_one] at h

private theorem offset_field (d : Nat) :
    (d &&& u64Not (3 <<< 62)) &&& ((1 <<< q.offsetBits) - 1) = Bits.field d 0 q.offsetBits := by
  rw [descriptor_bits, Nat.one_shiftLeft, Nat.and_two_pow_sub_one_eq_mod,
    Bits.field_mod _ _ _ _ q.offsetBits_le]

/-- The sector count as a bit field. -/
theorem extra_field (d : Nat) :
    (d &&& u64Not (3 <<< 62)) >>> q.offsetBits =
      Bits.field d q.offsetBits (q.clusterBits - 8) := by
  have hwidth : 62 - q.offsetBits = q.clusterBits - 8 := by
    have hsum := q.offsetBits_add
    omega
  rw [descriptor_bits, Nat.shiftRight_eq_div_pow, Bits.field_div _ _ _ _ q.offsetBits_le,
    Nat.zero_add, hwidth]

/-- Masks and shifts read the fields of a descriptor. -/
theorem decodeEntry_eq (d : Nat) : q.decodeEntry d = q.meaning d := by
  have hlow (n : Nat) : n &&& 511 = n % 512 := Nat.and_two_pow_sub_one_eq_mod n 9
  have hhost : d &&& l2OffsetMask = Bits.field d 9 47 * 2 ^ 9 := Bits.land_mask d 9 47
  have hcomp : d &&& l2Compressed ≠ 0 ↔ Bits.field d 62 1 = 1 := Bits.land_bit d 62
  have hzero : d &&& l2ZeroFlag ≠ 0 ↔ Bits.field d 0 1 = 1 := Bits.land_bit d 0
  have hbits : 62 - (q.clusterBits - 8) = q.offsetBits := rfl
  unfold decodeEntry meaning
  simp only [hcomp, hzero, hbits, offset_field, extra_field, hlow, hhost]

/-- In an image with one L2 table at most, what holds of the clusters of that table and of an
open one holds of all. -/
theorem mapping_of_one_table {P : Option Mapping → Prop} (hl1 : q.l1.length ≤ 1)
    (htable : ∀ c < q.fanout, P (q.mapping c)) (hopen : P (some (q.meaning 0))) (c : Nat) :
    P (q.mapping c) := by
  rcases Nat.lt_or_ge c q.fanout with hc | hc
  · exact htable c hc
  · have hpast : q.l1[c / q.fanout]? = none :=
      List.getElem?_eq_none (Nat.le_trans hl1 (Nat.div_pos hc q.fanout_pos))
    have hmissing : q.table c = 0 := by
      rw [table, hpast]
      rfl
    rw [mapping, descriptor, if_pos hmissing]
    exact hopen

/-- The L2 table that `map_cluster` looks up. -/
theorem table_eq (p : Nat) :
    q.l1[(p >>> q.clusterBits) / (q.clusterSize / 8)]?.getD 0 &&& l1OffsetMask =
      q.table (p / q.width) := by
  rw [clusterSize_eq, Nat.shiftRight_eq_div_pow]
  exact Bits.land_mask _ 9 47

end Qcow2

end BootExtractor.Disk
