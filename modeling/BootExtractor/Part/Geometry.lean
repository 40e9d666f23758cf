import BootExtractor.Lib.Effect
import BootExtractor.Part.Indices

/-!
# Where partitions are

The numbers in the tables are sectors, and the scanners count in bytes of 64 bits. An
MBR stays far below that limit. A GPT can name sectors beyond it, and then a partition
is shown in another place.
-/

namespace BootExtractor.Part

open Bytes

/-- A disk by its bytes. -/
structure Disk where
  content : Bytes
  length_lt : content.length < 2 ^ 64

/-- The disk as a device. -/
def Disk.device (d : Disk) : Device where
  size := d.content.length
  readAt off len :=
    if off + len ≤ d.content.length then .ok (slice d.content off len)
    else .error (.outOfBounds off len d.content.length)
  size_lt := d.length_lt
  length_readAt := by
    intro off len b h
    split at h
    · rename_i hle
      cases h
      exact length_slice_of_le hle
    · cases h

namespace Gpt

/-- The header that the scanner accepts: `count` entries of `size` bytes each. -/
structure Header (disk : Device) (entriesLba count size : Nat) : Prop where
  large : 2 * sector + 92 ≤ disk.size
  header : ∃ header, disk.readAt sector 92 = .ok header ∧ header.take 8 = signature ∧
    le64 header 72 = entriesLba ∧ le32 header 80 = count ∧ le32 header 84 = size
  size_ge : 128 ≤ size
  size_le : size ≤ 4096
  count_le : count ≤ 4096

/-- The array of entries that the scanner reads. -/
structure Reads (disk : Device) (entriesLba count size : Nat) (table : Bytes) : Prop where
  header : Header disk entriesLba count size
  table : disk.readAt (wrappingMul entriesLba sector) (count * size) = .ok table

/-- The first sector of an entry. -/
def first (e : Bytes) : Nat := le64 e 32

/-- The last sector of an entry. -/
def last (e : Bytes) : Nat := le64 e 40

/-- The entry has a type and a range that is not empty. -/
def Used (e : Bytes) : Prop := (slice e 0 16).all (· == 0) = false ∧ first e ≤ last e

/-- The entry of a slot. -/
def entry (table : Bytes) (size i : Nat) : Bytes := slice table (i * size) size

end Gpt

namespace Mbr

/-- The records of the chain of an extended partition, each at its place relative to the
start of the extended partition. -/
inductive Chain (disk : Device) : Nat → Nat → Prop where
  | first {sec : Bytes} {i : Nat} (hsec : disk.readAt 0 512 = .ok sec) (hi : i < 4)
      (hext : isExtendedSlot (rawEntry sec i) = true) :
      Chain disk (512 * (rawEntry sec i).startLba) (512 * (rawEntry sec i).startLba)
  | next {base off : Nat} {ebr : Bytes} (hchain : Chain disk base off)
      (hread : disk.readAt off 512 = .ok ebr) (hlink : (rawEntry ebr 1).isExtended = true) :
      Chain disk base (base + 512 * (rawEntry ebr 1).startLba)

end Mbr

/-- The partition is where the table of its kind has it, in natural numbers. -/
inductive Geometry (disk : Device) : TableKind → Partition → Prop where
  | gpt {p : Partition} {entriesLba count size i : Nat} {table : Bytes}
      (hreads : Gpt.Reads disk entriesLba count size table) (hi : i < count)
      (hused : Gpt.Used (Gpt.entry table size i)) (hindex : p.index = i + 1)
      (hstart : p.startByte = 512 * Gpt.first (Gpt.entry table size i))
      (hsize : p.sizeBytes =
        512 * (Gpt.last (Gpt.entry table size i) - Gpt.first (Gpt.entry table size i) + 1)) :
      Geometry disk .gpt p
  | primary {p : Partition} {sec : Bytes} {i : Nat} (hsec : disk.readAt 0 512 = .ok sec)
      (hi : i < 4) (hindex : p.index = i + 1)
      (hstart : p.startByte = 512 * (Mbr.rawEntry sec i).startLba)
      (hsize : p.sizeBytes = 512 * (Mbr.rawEntry sec i).sectors) : Geometry disk .mbr p
  | logical {p : Partition} {base off : Nat} {ebr : Bytes} (hchain : Mbr.Chain disk base off)
      (hread : disk.readAt off 512 = .ok ebr) (hindex : 5 ≤ p.index)
      (hstart : p.startByte = off + 512 * (Mbr.rawEntry ebr 0).startLba)
      (hsize : p.sizeBytes = 512 * (Mbr.rawEntry ebr 0).sectors) : Geometry disk .mbr p
  | whole {p : Partition} (hindex : p.index = 1) (hstart : p.startByte = 0)
      (hsize : p.sizeBytes = disk.size) : Geometry disk .none p

/-- Nothing that the scanners compute from the tables exceeds 64 bits. -/
structure NoWrap (disk : Device) : Prop where
  header : ∀ entriesLba count size, Gpt.Header disk entriesLba count size →
    entriesLba * sector < 2 ^ 64
  entries : ∀ entriesLba count size table, Gpt.Reads disk entriesLba count size table →
    ∀ i < count, Gpt.Used (Gpt.entry table size i) →
      Gpt.first (Gpt.entry table size i) * sector < 2 ^ 64 ∧
      (Gpt.last (Gpt.entry table size i) - Gpt.first (Gpt.entry table size i) + 1) * sector < 2 ^ 64
  primary : ∀ sec, disk.readAt 0 512 = .ok sec → ∀ i < 4,
    (Mbr.rawEntry sec i).startLba * sector < 2 ^ 64 ∧ (Mbr.rawEntry sec i).sectors * sector < 2 ^ 64
  logical : ∀ base off, Mbr.Chain disk base off → ∀ ebr, disk.readAt off 512 = .ok ebr →
    off + (Mbr.rawEntry ebr 0).startLba * sector < 2 ^ 64 ∧
    (Mbr.rawEntry ebr 0).sectors * sector < 2 ^ 64 ∧
    base + (Mbr.rawEntry ebr 1).startLba * sector < 2 ^ 64

/-- A read through the partition gives the bytes of the disk at its place, or fails. -/
def ReadsExact (d : Disk) (p : Partition) : Prop :=
  ∀ offset len b, (p.open d.device).readAt offset len = .ok b →
    offset + len ≤ p.sizeBytes ∧ b.length = len ∧
      ∀ i < len, b[i]? = d.content[p.startByte + offset + i]?

/-- The geometry of the disk is exact. -/
def Exact (d : Disk) : Prop :=
  NoWrap d.device ∧ ∀ table, scan d.device = .ok table → ∀ p ∈ table.partitions,
    Geometry d.device table.kind p ∧ ReadsExact d p

/-- If there is a GPT, its array and its partitions lie below the limit of 64-bit byte
offsets. -/
structure InRange (disk : Device) : Prop where
  header : ∀ entriesLba count size, Gpt.Header disk entriesLba count size →
    entriesLba * sector < 2 ^ 64
  entries : ∀ entriesLba count size table, Gpt.Reads disk entriesLba count size table →
    ∀ i < count, Gpt.Used (Gpt.entry table size i) →
      (Gpt.last (Gpt.entry table size i) + 1) * sector ≤ 2 ^ 64 ∧
      (Gpt.last (Gpt.entry table size i) - Gpt.first (Gpt.entry table size i) + 1) * sector < 2 ^ 64

/-- A product that fits does not wrap. -/
theorem wrappingMul_eq {a b : Nat} (h : a * b < 2 ^ 64) : wrappingMul a b = a * b :=
  Nat.mod_eq_of_lt h

/-- A sum that fits does not wrap. -/
theorem wrappingAdd_eq {a b : Nat} (h : a + b < 2 ^ 64) : wrappingAdd a b = a + b :=
  Nat.mod_eq_of_lt h

private theorem le_slice_lt (b : Bytes) (off len : Nat) : le (slice b off len) < 256 ^ len := by
  have hlen : (slice b off len).length ≤ len := by
    rw [slice, List.length_take]
    exact Nat.min_le_left _ _
  exact Nat.lt_of_lt_of_le (le_lt _) (Nat.pow_le_pow_right (by decide) hlen)

/-- The numbers of an MBR entry have 32 bits. -/
theorem Mbr.rawEntry_lt (sec : Bytes) (i : Nat) :
    (rawEntry sec i).startLba < 2 ^ 32 ∧ (rawEntry sec i).sectors < 2 ^ 32 :=
  ⟨le_slice_lt _ _ 4, le_slice_lt _ _ 4⟩

section Reading

variable {d : Disk} {p : Partition}

/-- A read that succeeds lies inside of the disk. -/
theorem Disk.readAt_ok {offset len : Nat} {b : Bytes} (h : d.device.readAt offset len = .ok b) :
    offset + len ≤ d.content.length ∧ b = slice d.content offset len := by
  simp only [Disk.device] at h
  split at h
  · rename_i hle
    cases h
    exact ⟨hle, rfl⟩
  · cases h

/-- A read inside of the disk succeeds. -/
theorem Disk.readAt_of_le {offset len : Nat} (h : offset + len ≤ d.content.length) :
    d.device.readAt offset len = .ok (slice d.content offset len) :=
  if_pos h

/-- A partition that ends below the limit is read in its place. -/
theorem readsExact_of_le (h : p.startByte + p.sizeBytes ≤ 2 ^ 64) : ReadsExact d p := by
  intro offset len b hread
  have hlen := (p.open d.device).length_readAt _ _ _ hread
  change d.device.sliceRead p.startByte p.sizeBytes offset len = .ok b at hread
  unfold Device.sliceRead at hread
  split at hread
  · cases hread
  · rename_i hcheck
    have hin := checkBounds_ok hcheck
    refine ⟨hin, hlen, fun i hi => ?_⟩
    rw [wrappingAdd_eq (by omega)] at hread
    obtain ⟨_, rfl⟩ := Disk.readAt_ok hread
    rw [getElem?_slice, if_pos hi, Nat.add_assoc]

/-- A partition that reaches beyond the limit shows the start of the disk there. -/
theorem le_of_readsExact (hdisk : 0 < d.content.length) (hstart : p.startByte < 2 ^ 64)
    (h : ReadsExact d p) : p.startByte + p.sizeBytes ≤ 2 ^ 64 := by
  by_contra hgt
  have hcheck : checkBounds p.sizeBytes (2 ^ 64 - p.startByte) 1 = .ok () := by
    rw [checkBounds_eq p.sizeBytes_lt, if_pos (by omega)]
  have hwrap : wrappingAdd p.startByte (2 ^ 64 - p.startByte) = 0 := by
    rw [wrappingAdd, Nat.add_sub_cancel' (Nat.le_of_lt hstart)]
    exact Nat.mod_self _
  have hread : (p.open d.device).readAt (2 ^ 64 - p.startByte) 1 = .ok (slice d.content 0 1) := by
    change d.device.sliceRead p.startByte p.sizeBytes (2 ^ 64 - p.startByte) 1 = _
    simp only [Device.sliceRead, hcheck, hwrap]
    exact if_pos (by omega)
  obtain ⟨_, _, hbytes⟩ := h _ _ _ hread
  have hbyte := hbytes 0 (by decide)
  rw [getElem?_slice, if_pos (by decide), Nat.add_zero, Nat.add_sub_cancel' (Nat.le_of_lt hstart)]
    at hbyte
  have hnone : d.content[2 ^ 64 + 0]? = none :=
    List.getElem?_eq_none (Nat.le_of_lt d.length_lt)
  rw [hnone, List.getElem?_eq_none_iff] at hbyte
  omega

end Reading

namespace Gpt

variable {disk : Device}

/-- What the scanner yields is one partition for each entry in use. -/
theorem scan_eq_some_iff {t : PartitionTable} : scan disk = .ok (some t) ↔
    ∃ entriesLba count size table, Reads disk entriesLba count size table ∧
      t = ⟨.gpt, (List.range count).filterMap fun i => partitionOf (entry table size i) i⟩ := by
  constructor
  · intro h
    unfold scan at h
    split at h
    · cases h
    rename_i hlarge
    obtain ⟨header, hheader, h⟩ := Effect.bind_eq_ok_iff.mp h
    split at h
    · cases h
    rename_i hsignature
    simp only at h
    split at h
    · cases h
    rename_i hplausible
    obtain ⟨table, htable, h⟩ := Effect.bind_eq_ok_iff.mp h
    cases h
    exact ⟨_, _, _, table,
      ⟨⟨by omega, ⟨header, hheader, not_not.mp hsignature, rfl, rfl, rfl⟩, by omega, by omega,
        by omega⟩, htable⟩, rfl⟩
  · rintro ⟨_, _, _, table, ⟨⟨hlarge, ⟨header, hheader, hsignature, rfl, rfl, rfl⟩, hge, hle,
      hcount⟩, htable⟩, rfl⟩
    unfold scan
    rw [if_neg (by omega), hheader]
    simp only [bind, Except.bind]
    rw [if_neg (not_not.mpr hsignature), if_neg (by omega), htable]
    rfl

/-- An entry in use is a partition, with the numbers that 64 bits leave of its own. -/
theorem partitionOf_eq_some_iff {e : Bytes} {i : Nat} :
    (∃ p, partitionOf e i = some p) ↔ Used e := by
  unfold partitionOf Used first last
  by_cases htype : (slice e 0 16).all (· == 0) = true
  · rw [if_pos htype]
    simp only [htype]
    simp
  · simp only [Bool.eq_false_iff.mpr htype]
    by_cases hrange : le64 e 40 < le64 e 32
    · simp [hrange]
    · simp [hrange, Nat.le_of_not_lt hrange]

/-- The numbers of a GPT entry in use. -/
private theorem partitionOf_numbers {e : Bytes} {i : Nat} {p : Partition}
    (h : partitionOf e i = some p) :
    Used e ∧ p.startByte = wrappingMul (first e) sector ∧
      p.sizeBytes = wrappingMul (wrappingAdd (last e - first e) 1) sector := by
  have hused := partitionOf_eq_some_iff.mp ⟨p, h⟩
  simp only [partitionOf] at h
  split at h
  · cases h
  · split at h
    · cases h
    · cases h
      exact ⟨hused, rfl, rfl⟩

private theorem lt_of_mul_sector {n : Nat} (h : n * sector < 2 ^ 64) : n < 2 ^ 64 := by
  have hsector : sector = 512 := rfl
  rw [hsector] at h
  omega

/-- The first byte of a partition is below its end. -/
theorem first_lt {m n : Nat} (hle : m ≤ n) (hend : (n + 1) * sector ≤ 2 ^ 64) :
    m * sector < 2 ^ 64 := by
  have hsector : sector = 512 := rfl
  rw [hsector] at hend ⊢
  omega

/-- In range the numbers of a partition are those of its entry, and it ends below the limit. -/
theorem numbers_of_inRange {e : Bytes} {i : Nat} {p : Partition} (h : partitionOf e i = some p)
    (hend : (last e + 1) * sector ≤ 2 ^ 64) (hsize : (last e - first e + 1) * sector < 2 ^ 64) :
    p.startByte = 512 * first e ∧ p.sizeBytes = 512 * (last e - first e + 1) ∧
      p.startByte + p.sizeBytes ≤ 2 ^ 64 := by
  obtain ⟨hused, hp, hq⟩ := partitionOf_numbers h
  have hrange := hused.2
  have hsector : sector = 512 := rfl
  rw [wrappingMul_eq (first_lt hrange hend)] at hp
  rw [wrappingAdd_eq (lt_of_mul_sector hsize), wrappingMul_eq hsize] at hq
  rw [hsector] at hp hq hend hsize
  refine ⟨by omega, by omega, by omega⟩

end Gpt

namespace Mbr

variable {disk : Device}

/-- The numbers of a partition of an MBR are those of its entry. -/
theorem partition_numbers (disksig index : Nat) (sec : Bytes) (i : Nat) {base : Nat}
    (hbase : base < 2 ^ 43) :
    (partition disksig index base (rawEntry sec i)).startByte =
        base + 512 * (rawEntry sec i).startLba ∧
      (partition disksig index base (rawEntry sec i)).sizeBytes =
        512 * (rawEntry sec i).sectors := by
  obtain ⟨hstart, hsectors⟩ := rawEntry_lt sec i
  have hsector : sector = 512 := rfl
  have hmul : (rawEntry sec i).startLba * sector < 2 ^ 64 := by
    rw [hsector]
    omega
  have hsize : (rawEntry sec i).sectors * sector < 2 ^ 64 := by
    rw [hsector]
    omega
  simp only [partition]
  rw [wrappingMul_eq hmul, wrappingMul_eq hsize, wrappingAdd_eq (by rw [hsector]; omega), hsector]
  exact ⟨by omega, by omega⟩

/-- The chain stays below this offset. -/
theorem Chain.lt {base off : Nat} (h : Chain disk base off) : base < 2 ^ 41 ∧ off < 2 ^ 42 := by
  induction h with
  | @first sec i _ _ _ =>
    have := (rawEntry_lt sec i).1
    constructor <;> omega
  | @next base off ebr _ _ _ ih =>
    have := (rawEntry_lt ebr 1).1
    exact ⟨ih.1, by omega⟩

/-- The entries are those of the four slots. -/
theorem parseEntries_eq_some {sec : Bytes} {entries : List RawEntry}
    (h : parseEntries sec = some entries) : entries = (List.range 4).map (rawEntry sec) := by
  unfold parseEntries at h
  split at h
  · cases h
  · cases h
    rfl

/-- A primary partition is at the place that its slot has. -/
theorem geometry_primary {sec : Bytes} {disksig i : Nat} {p : Partition}
    (hsec : disk.readAt 0 512 = .ok sec) (hi : i < 4)
    (h : primary disksig (i, rawEntry sec i) = some p) : Geometry disk .mbr p := by
  have hindex := index_primary h
  simp only [primary] at h
  split at h
  · cases h
  split at h
  · cases h
  split at h
  · cases h
  · cases h
    have hbase : 0 < 2 ^ 43 := by decide
    obtain ⟨hstart, hsize⟩ := partition_numbers disksig (i + 1) sec i hbase
    exact .primary hsec hi hindex (hstart.trans (Nat.zero_add _)) hsize

/-- A logical partition is at the place that its record has, relative to the record. -/
theorem geometry_walkEbr {disksig base fuel off index : Nat} {ps : List Partition}
    (hchain : Chain disk base off) (hindex : 5 ≤ index)
    (h : walkEbr disk disksig base fuel off index = .ok ps) {p : Partition} (hp : p ∈ ps) :
    Geometry disk .mbr p := by
  induction fuel generalizing off index ps with
  | zero =>
    cases h
    cases hp
  | succ fuel ih =>
    rw [walkEbr] at h
    split at h
    · cases h
      cases hp
    split at h
    · cases h
    rename_i ebr hread
    split at h
    · rename_i data link more hentries
      have hslots : data :: link :: more =
          [rawEntry ebr 0, rawEntry ebr 1, rawEntry ebr 2, rawEntry ebr 3] :=
        parseEntries_eq_some hentries
      obtain ⟨hdata, hlinks⟩ := List.cons.inj hslots
      have hlink := (List.cons.inj hlinks).1
      subst hdata hlink
      have hoff := hchain.lt
      have hlogical : ∀ p ∈ (logical disksig index off (rawEntry ebr 0)).toList,
          Geometry disk .mbr p := by
        intro p hp
        unfold logical at hp
        split at hp
        · rw [Option.mem_toList, Option.some.injEq] at hp
          subst hp
          have hbase : off < 2 ^ 43 := by omega
          obtain ⟨hstart, hsize⟩ := partition_numbers disksig index ebr 0 hbase
          exact .logical hchain hread hindex hstart hsize
        · cases hp
      simp only at h
      split at h
      · rename_i hext
        obtain ⟨rest, hrest, h⟩ := Effect.bind_eq_ok_iff.mp h
        cases h
        rcases List.mem_append.mp hp with hp | hp
        · exact hlogical p hp
        · have hstart := (rawEntry_lt ebr 1).1
          have hsector : sector = 512 := rfl
          have hnext : wrappingAdd base (wrappingMul (rawEntry ebr 1).startLba sector) =
              base + 512 * (rawEntry ebr 1).startLba := by
            rw [wrappingMul_eq (by rw [hsector]; omega), wrappingAdd_eq (by rw [hsector]; omega),
              hsector, Nat.mul_comm]
          rw [hnext] at hrest
          exact ih (.next hchain hread hext) (by omega) hrest hp
      · cases h
        exact hlogical p hp
    · cases h
      cases hp

/-- The partitions of an MBR disk have the geometry of their entries. -/
private theorem geometry_scan {t : PartitionTable} (h : scan disk = .ok (some t)) :
    t.kind = .mbr ∧ ∀ p ∈ t.partitions, Geometry disk .mbr p := by
  unfold scan at h
  split at h
  · cases h
  obtain ⟨sec, hsec, h⟩ := Effect.bind_eq_ok_iff.mp h
  split at h
  · cases h
  rename_i entries hentries
  have hslots := parseEntries_eq_some hentries
  split at h
  · cases h
  obtain ⟨rest, hrest, h⟩ := Effect.bind_eq_ok_iff.mp h
  simp only at h
  split at h
  · cases h
  cases h
  refine ⟨rfl, fun p hp => ?_⟩
  rcases List.mem_append.mp hp with hp | hp
  · obtain ⟨⟨e, i⟩, hmem, hprimary⟩ := List.mem_filterMap.mp hp
    have hget := List.mk_mem_zipIdx_iff_getElem?.mp hmem
    rw [hslots, List.getElem?_map] at hget
    obtain ⟨j, hj, rfl⟩ := Option.map_eq_some_iff.mp hget
    obtain ⟨hi, rfl⟩ := List.getElem?_eq_some_iff.mp hj
    rw [List.getElem_range] at hprimary
    exact geometry_primary hsec (by simpa using hi) hprimary
  · unfold logicals at hrest
    split at hrest
    · cases hrest
      cases hp
    · rename_i e he
      have hmem := List.mem_of_getLast? he
      obtain ⟨hmem, hext⟩ := List.mem_filter.mp hmem
      rw [hslots] at hmem
      obtain ⟨i, hi, rfl⟩ := List.mem_map.mp hmem
      have hstart := (rawEntry_lt sec i).1
      have hsector : sector = 512 := rfl
      have hbase : wrappingMul (rawEntry sec i).startLba sector =
          512 * (rawEntry sec i).startLba := by
        rw [wrappingMul_eq (by rw [hsector]; omega), hsector, Nat.mul_comm]
      simp only [hbase] at hrest
      exact geometry_walkEbr (.first hsec (List.mem_range.mp hi) hext) (Nat.le_refl _) hrest hp

end Mbr

/-- Everything that the tables of an MBR name ends far below the limit. -/
theorem Geometry.le_of_mbr {disk : Device} {p : Partition} (h : Geometry disk .mbr p) :
    p.startByte + p.sizeBytes ≤ 2 ^ 64 := by
  cases h with
  | @primary _ sec i _ _ _ hstart hsize =>
    obtain ⟨h₁, h₂⟩ := Mbr.rawEntry_lt sec i
    omega
  | @logical _ base off ebr hchain _ _ hstart hsize =>
    have hoff := hchain.lt
    obtain ⟨h₁, h₂⟩ := Mbr.rawEntry_lt ebr 0
    omega

/-- Which scanner a table comes from. -/
theorem scan_cases {disk : Device} {table : PartitionTable} (h : scan disk = .ok table) :
    Gpt.scan disk = .ok (some table) ∨ Mbr.scan disk = .ok (some table) ∨
      table = ⟨.none, [wholeDisk disk]⟩ := by
  unfold scan at h
  obtain ⟨gpt, hgpt, h⟩ := Effect.bind_eq_ok_iff.mp h
  cases gpt with
  | some t =>
    cases h
    exact Or.inl hgpt
  | none =>
    obtain ⟨mbr, hmbr, h⟩ := Effect.bind_eq_ok_iff.mp h
    cases mbr with
    | some t =>
      cases h
      exact Or.inr (Or.inl hmbr)
    | none =>
      cases h
      exact Or.inr (Or.inr rfl)

/-- MBR numbers are too small to wrap. -/
private theorem noWrap_mbr (disk : Device) :
    (∀ sec, disk.readAt 0 512 = .ok sec → ∀ i < 4,
      (Mbr.rawEntry sec i).startLba * sector < 2 ^ 64 ∧
      (Mbr.rawEntry sec i).sectors * sector < 2 ^ 64) ∧
    ∀ base off, Mbr.Chain disk base off → ∀ ebr, disk.readAt off 512 = .ok ebr →
      off + (Mbr.rawEntry ebr 0).startLba * sector < 2 ^ 64 ∧
      (Mbr.rawEntry ebr 0).sectors * sector < 2 ^ 64 ∧
      base + (Mbr.rawEntry ebr 1).startLba * sector < 2 ^ 64 := by
  have hsector : sector = 512 := rfl
  rw [hsector]
  constructor
  · intro sec _ i _
    obtain ⟨h₁, h₂⟩ := Mbr.rawEntry_lt sec i
    constructor <;> omega
  · intro base off hchain ebr _
    have hoff := hchain.lt
    obtain ⟨h₁, h₂⟩ := Mbr.rawEntry_lt ebr 0
    obtain ⟨h₃, _⟩ := Mbr.rawEntry_lt ebr 1
    refine ⟨?_, ?_, ?_⟩ <;> omega

private theorem scan_of_reads {disk : Device} {entriesLba count size : Nat} {table : Bytes}
    (h : Gpt.Reads disk entriesLba count size table) : scan disk = .ok
      ⟨.gpt, (List.range count).filterMap fun i =>
        Gpt.partitionOf (Gpt.entry table size i) i⟩ := by
  unfold scan
  rw [Gpt.scan_eq_some_iff.mpr ⟨entriesLba, count, size, table, h, rfl⟩]
  rfl

/-- Exact geometry of a GPT means that it is in range. -/
theorem inRange_of_exact {d : Disk} (h : Exact d) : InRange d.device := by
  obtain ⟨hwrap, hparts⟩ := h
  constructor
  · exact hwrap.header
  intro entriesLba count size table hreads i hi hused
  obtain ⟨hfirst, hsize⟩ := hwrap.entries _ _ _ _ hreads i hi hused
  refine ⟨?_, hsize⟩
  obtain ⟨p, hp⟩ := (Gpt.partitionOf_eq_some_iff (i := i)).mpr hused
  have hscan := scan_of_reads hreads
  have hmem : p ∈ (List.range count).filterMap fun i =>
      Gpt.partitionOf (Gpt.entry table size i) i :=
    List.mem_filterMap.mpr ⟨i, List.mem_range.mpr hi, hp⟩
  obtain ⟨_, hstart, hbytes⟩ := Gpt.partitionOf_numbers hp
  rw [wrappingMul_eq hfirst] at hstart
  rw [wrappingAdd_eq (Gpt.lt_of_mul_sector hsize), wrappingMul_eq hsize] at hbytes
  have hlarge : 2 * sector + 92 ≤ d.content.length := hreads.header.large
  have hdisk : 0 < d.content.length := by omega
  have hstartLt : p.startByte < 2 ^ 64 := by
    rw [hstart]
    exact hfirst
  have hle := le_of_readsExact hdisk hstartLt (hparts _ hscan p hmem).2
  have hrange := hused.2
  have hsector : sector = 512 := rfl
  rw [hstart, hbytes, hsector] at hle
  rw [hsector]
  omega

/-- The geometry of a disk is exact exactly if its GPT, if it has one, is in range. -/
theorem geometry_exact_iff (d : Disk) : Exact d ↔ InRange d.device := by
  constructor
  · exact inRange_of_exact
  · intro hrange
    obtain ⟨hprimary, hlogical⟩ := noWrap_mbr d.device
    refine ⟨⟨hrange.header, ?_, hprimary, hlogical⟩, ?_⟩
    · intro entriesLba count size table hreads i hi hused
      obtain ⟨hend, hsize⟩ := hrange.entries _ _ _ _ hreads i hi hused
      exact ⟨Gpt.first_lt hused.2 hend, hsize⟩
    · intro table hscan p hp
      rcases scan_cases hscan with hgpt | hmbr | rfl
      · obtain ⟨entriesLba, count, size, entries, hreads, rfl⟩ := Gpt.scan_eq_some_iff.mp hgpt
        obtain ⟨i, hi, hpart⟩ := List.mem_filterMap.mp hp
        have hused := (Gpt.partitionOf_numbers hpart).1
        obtain ⟨hend, hsize⟩ := hrange.entries _ _ _ _ hreads i (List.mem_range.mp hi) hused
        obtain ⟨hstart, hbytes, hle⟩ := Gpt.numbers_of_inRange hpart hend hsize
        exact ⟨.gpt hreads (List.mem_range.mp hi) hused (Gpt.index_partitionOf hpart) hstart hbytes,
          readsExact_of_le hle⟩
      · obtain ⟨hkind, hgeometry⟩ := Mbr.geometry_scan hmbr
        rw [hkind]
        exact ⟨hgeometry p hp, readsExact_of_le (hgeometry p hp).le_of_mbr⟩
      · rw [List.mem_singleton.mp hp]
        have hwhole : (wholeDisk d.device).startByte + (wholeDisk d.device).sizeBytes ≤ 2 ^ 64 :=
          (Nat.zero_add d.content.length).symm ▸ Nat.le_of_lt d.length_lt
        exact ⟨.whole rfl rfl rfl, readsExact_of_le hwhole⟩

/-- A disk whose one partition is at sector `2 ^ 55`, beyond 64-bit byte offsets. -/
def farDisk : Disk where
  content := List.replicate 512 0 ++ Gpt.signature ++ List.replicate 64 0 ++
    [2, 0, 0, 0, 0, 0, 0, 0] ++ [1, 0, 0, 0] ++ [128, 0, 0, 0] ++ List.replicate 424 0 ++
    List.replicate 16 1 ++ List.replicate 16 0 ++ [0, 0, 0, 0, 0, 0, 128, 0] ++
    [0, 0, 0, 0, 0, 0, 128, 0] ++ List.replicate 80 0
  length_lt := by decide +kernel

private theorem farDisk_length : farDisk.content.length = 1152 := by decide +kernel

private theorem farDisk_header : Gpt.Header farDisk.device 2 1 128 where
  large := by decide +kernel
  header := ⟨slice farDisk.content 512 92,
    Disk.readAt_of_le (by rw [farDisk_length]; decide), by decide +kernel⟩
  size_ge := by decide
  size_le := by decide
  count_le := by decide

private theorem farDisk_reads :
    Gpt.Reads farDisk.device 2 1 128 (slice farDisk.content 1024 128) where
  header := farDisk_header
  table := Disk.readAt_of_le (by rw [farDisk_length]; decide)

/-- The partition of `farDisk` starts at byte zero. -/
theorem farDisk_moved :
    (∃ table, scan farDisk.device = .ok table ∧
      table.partitions.map (fun p => (p.startByte, p.sizeBytes)) = [(0, 512)]) ∧
    ¬Exact farDisk := by
  constructor
  · exact ⟨_, scan_of_reads farDisk_reads, by decide +kernel⟩
  · intro h
    have hused : Gpt.Used (Gpt.entry (slice farDisk.content 1024 128) 128 0) := by
      unfold Gpt.Used
      decide +kernel
    have hrange := (inRange_of_exact h).entries _ _ _ _ farDisk_reads 0 (by decide) hused
    revert hrange
    decide +kernel

end BootExtractor.Part
