import Mathlib.Data.List.Forall2
import BootExtractor.Part.Geometry

/-!
# The chain of extended boot records

Every record holds a logical partition, or none, and may link to the next record relative
to the start of the extended partition. A well-formed chain is decoded completely and in
order. A chain that links back to one of its records is followed again, and what ends the
walk then is only its bound.
-/

namespace BootExtractor.Part.Mbr

open Bytes

variable {disk : Device}

section Records

/-- The entry describes a partition. -/
def RawEntry.isUsed (e : RawEntry) : Bool := e.typeByte != typeEmpty && e.sectors != 0

/-- A record with its first two slots. -/
structure Record (disk : Device) (off : Nat) (data link : RawEntry) : Prop where
  inRange : off + 512 ≤ disk.size
  read : ∃ ebr, disk.readAt off 512 = .ok ebr ∧ slice ebr 510 2 = [0x55, 0xaa] ∧
    rawEntry ebr 0 = data ∧ rawEntry ebr 1 = link

/-- A sector holds one record. -/
theorem Record.unique {off : Nat} {data data' link link' : RawEntry}
    (h : Record disk off data link) (h' : Record disk off data' link') :
    data = data' ∧ link = link' := by
  obtain ⟨ebr, hread, -, rfl, rfl⟩ := h.read
  obtain ⟨ebr', hread', -, rfl, rfl⟩ := h'.read
  rw [hread] at hread'
  cases hread'
  exact ⟨rfl, rfl⟩

/-- The place of the next record. -/
def target (base : Nat) (link : RawEntry) : Nat := base + 512 * link.startLba

/-- The chain from a record on: the places and the first slots of its records, up to one
that links to none. -/
inductive Chained (disk : Device) (base : Nat) : Nat → List (Nat × RawEntry) → Prop where
  | last {off : Nat} {data link : RawEntry} (hrec : Record disk off data link)
      (hlink : link.isExtended = false) : Chained disk base off [(off, data)]
  | next {off : Nat} {data link : RawEntry} {records : List (Nat × RawEntry)}
      (hrec : Record disk off data link) (hlink : link.isExtended = true)
      (hrest : Chained disk base (target base link) records) :
      Chained disk base off ((off, data) :: records)

/-- What a walk of at most `fuel` records visits. -/
inductive Visits (disk : Device) (base : Nat) : Nat → Nat → List (Nat × RawEntry) → Prop where
  | spent {off : Nat} : Visits disk base 0 off []
  | stop {fuel off : Nat} (hno : ∀ data link, ¬Record disk off data link) :
      Visits disk base (fuel + 1) off []
  | last {fuel off : Nat} {data link : RawEntry} (hrec : Record disk off data link)
      (hlink : link.isExtended = false) : Visits disk base (fuel + 1) off [(off, data)]
  | next {fuel off : Nat} {data link : RawEntry} {records : List (Nat × RawEntry)}
      (hrec : Record disk off data link) (hlink : link.isExtended = true)
      (hrest : Visits disk base fuel (target base link) records) :
      Visits disk base (fuel + 1) off ((off, data) :: records)

/-- The place that the chain reaches after some links. -/
inductive Reached (disk : Device) (base : Nat) : Nat → Nat → Nat → Prop where
  | here {off : Nat} : Reached disk base off 0 off
  | next {start n off : Nat} {data link : RawEntry} (hrec : Record disk start data link)
      (hlink : link.isExtended = true) (hrest : Reached disk base (target base link) n off) :
      Reached disk base start (n + 1) off

/-- The used records, numbered from `index` on. -/
def numbered (index : Nat) (records : List (Nat × RawEntry)) : List ((Nat × RawEntry) × Nat) :=
  (records.filter fun r => r.2.isUsed).zipIdx index

/-- The records that logical partitions come from. -/
def origins (records : List (Nat × RawEntry)) : List Nat :=
  (records.filter fun r => r.2.isUsed).map Prod.fst

end Records

section Walk

variable {base : Nat}

private theorem inBounds_iff {off len : Nat} :
    disk.inBounds off len = true ↔ off + len ≤ disk.size := by
  rw [Device.inBounds, checkBounds_eq disk.size_lt]
  by_cases h : off + len ≤ disk.size <;> simp [h]

private theorem isExtended_target (hbase : base < 2 ^ 41) {off : Nat} {data link : RawEntry}
    (hrec : Record disk off data link) :
    wrappingAdd base (wrappingMul link.startLba sector) = target base link := by
  obtain ⟨ebr, -, -, -, rfl⟩ := hrec.read
  have hstart := (rawEntry_lt ebr 1).1
  have hsector : sector = 512 := rfl
  rw [wrappingMul_eq (by rw [hsector]; omega), wrappingAdd_eq (by rw [hsector]; omega), hsector,
    Nat.mul_comm, target]

private theorem logical_eq (disksig index off : Nat) (data : RawEntry) :
    (logical disksig index off data).toList =
      if data.isUsed then [partition disksig index off data] else [] := by
  unfold logical RawEntry.isUsed
  by_cases ht : data.typeByte = typeEmpty <;> by_cases hs : data.sectors = 0 <;> simp [ht, hs]

/-- The partitions of the used records. -/
def found (disksig index : Nat) (records : List (Nat × RawEntry)) : List Partition :=
  (numbered index records).map fun r => partition disksig r.2 r.1.1 r.1.2

private theorem found_cons (disksig index off : Nat) (data : RawEntry)
    (records : List (Nat × RawEntry)) :
    found disksig index ((off, data) :: records) =
      (logical disksig index off data).toList ++
        found disksig (index + (logical disksig index off data).toList.length) records := by
  rw [logical_eq, found, numbered]
  simp only [List.filter_cons]
  by_cases hused : data.isUsed = true
  · rw [if_pos hused, if_pos hused]
    rfl
  · rw [if_neg hused, if_neg hused]
    rfl

/-- A step of the walk at a record. -/
theorem walkEbr_record (hbase : base < 2 ^ 41) {off : Nat} {data link : RawEntry}
    (hrec : Record disk off data link) (disksig fuel index : Nat) :
    walkEbr disk disksig base (fuel + 1) off index =
      if link.isExtended then
        (walkEbr disk disksig base fuel (target base link)
          (index + (logical disksig index off data).toList.length)).map
            ((logical disksig index off data).toList ++ ·)
      else .ok (logical disksig index off data).toList := by
  have htarget := isExtended_target hbase hrec
  obtain ⟨ebr, hread, hsig, rfl, rfl⟩ := hrec.read
  have hbounds := inBounds_iff.mpr hrec.inRange
  have hentries : parseEntries ebr =
      some [rawEntry ebr 0, rawEntry ebr 1, rawEntry ebr 2, rawEntry ebr 3] :=
    if_neg (not_not_intro hsig)
  rw [walkEbr]
  simp only [hbounds, hread, hentries, htarget, Bool.not_true, Bool.false_eq_true, if_false]
  split
  · cases walkEbr disk disksig base fuel (target base (rawEntry ebr 1))
      (index + (logical disksig index off (rawEntry ebr 0)).toList.length) <;> rfl
  · rfl

/-- A step of the walk where there is no record. -/
theorem walkEbr_stop {off : Nat} (hno : ∀ data link, ¬Record disk off data link)
    {disksig fuel index : Nat} {ps : List Partition}
    (h : walkEbr disk disksig base (fuel + 1) off index = .ok ps) : ps = [] := by
  rw [walkEbr] at h
  split at h
  · cases h
    rfl
  rename_i hbounds
  split at h
  · cases h
  rename_i ebr hread
  split at h
  · rename_i data link more hentries
    have hin : off + 512 ≤ disk.size := inBounds_iff.mp (by simpa using hbounds)
    have hsig : slice ebr 510 2 = [0x55, 0xaa] := by
      by_contra hne
      rw [parseEntries, if_pos hne] at hentries
      cases hentries
    exact absurd ⟨hin, ebr, hread, hsig, rfl, rfl⟩ (hno _ _)
  · cases h
    rfl

/-- A chain within the bound is decoded completely. -/
theorem walkEbr_chained (hbase : base < 2 ^ 41) {off : Nat} {records : List (Nat × RawEntry)}
    (h : Chained disk base off records) {disksig fuel index : Nat}
    (hfuel : records.length ≤ fuel) :
    walkEbr disk disksig base fuel off index = .ok (found disksig index records) := by
  induction h generalizing fuel index with
  | @last off data link hrec hlink =>
    obtain ⟨fuel, rfl⟩ := Nat.exists_eq_add_of_le' hfuel
    rw [List.length_singleton, walkEbr_record hbase hrec, hlink, found_cons]
    exact congrArg Except.ok (List.append_nil _).symm
  | @next off data link records hrec hlink _ ih =>
    rw [List.length_cons] at hfuel
    obtain ⟨fuel, rfl⟩ : ∃ k, fuel = k + 1 := ⟨fuel - 1, by omega⟩
    rw [walkEbr_record hbase hrec, if_pos hlink, ih (by omega), found_cons]
    rfl

/-- What the walk yields comes from the records it visits. -/
theorem visits_of_walkEbr (hbase : base < 2 ^ 41) {disksig fuel off index : Nat}
    {ps : List Partition} (h : walkEbr disk disksig base fuel off index = .ok ps) :
    ∃ records, Visits disk base fuel off records ∧ ps = found disksig index records := by
  induction fuel generalizing off index ps with
  | zero =>
    cases h
    exact ⟨[], .spent, rfl⟩
  | succ fuel ih =>
    by_cases hrec : ∃ data link, Record disk off data link
    · obtain ⟨data, link, hrec⟩ := hrec
      rw [walkEbr_record hbase hrec] at h
      split at h
      · rename_i hlink
        cases hrest : walkEbr disk disksig base fuel (target base link)
            (index + (logical disksig index off data).toList.length) with
        | error e =>
          rw [hrest] at h
          cases h
        | ok rest =>
          rw [hrest] at h
          obtain ⟨records, hvisits, rfl⟩ := ih hrest
          refine ⟨_, .next hrec hlink hvisits, ?_⟩
          rw [found_cons]
          exact (Except.ok.inj h).symm
      · rename_i hlink
        refine ⟨_, .last hrec (Bool.eq_false_iff.mpr hlink), ?_⟩
        rw [found_cons, ← Except.ok.inj h]
        exact (List.append_nil _).symm
    · have hno : ∀ data link, ¬Record disk off data link := fun data link hr =>
        hrec ⟨data, link, hr⟩
      exact ⟨[], .stop hno, walkEbr_stop hno h⟩

end Walk

section Scan

/-- A primary slot with a partition of its own. -/
def RawEntry.isPrimary (e : RawEntry) : Bool :=
  e.isUsed && e.typeByte != typeGptProtective && !e.isExtended

/-- The slots of the first sector. -/
def slots (sec : Bytes) : List RawEntry := (List.range 4).map (rawEntry sec)

/-- The slot that the chain starts from. -/
def extendedSlot (sec : Bytes) : Option RawEntry := ((slots sec).filter isExtendedSlot).getLast?

/-- What a sector and a chain of records describe: number, base and entry of each partition. -/
def described (sec : Bytes) (records : List (Nat × RawEntry)) : List (Nat × Nat × RawEntry) :=
  ((List.range 4).filter fun i => (rawEntry sec i).isPrimary).map
      (fun i => (i + 1, 0, rawEntry sec i)) ++
    (numbered 5 records).map fun r => (r.2, r.1.1, r.1.2)

/-- The partition is the one that an entry describes. -/
structure IsPartition (disksig number base : Nat) (e : RawEntry) (p : Partition) : Prop where
  index : p.index = number
  start : p.startByte = base + 512 * e.startLba
  size : p.sizeBytes = 512 * e.sectors
  typeId : p.typeId = "0x".toList ++ Str.hex 2 e.typeByte
  partUuid : p.partUuid =
    if disksig = 0 then none else some (Str.hex 8 disksig ++ '-' :: Str.hex 2 number)

/-- A disk with one extended partition and a chain that ends within the bound. -/
structure Carries (disk : Device) (sec : Bytes) (records : List (Nat × RawEntry)) : Prop where
  large : 512 ≤ disk.size
  read : disk.readAt 0 512 = .ok sec
  signature : slice sec 510 2 = [0x55, 0xaa]
  extended : ∃ k < 4, (rawEntry sec k).isExtended = true ∧ (rawEntry sec k).startLba ≠ 0 ∧
    (rawEntry sec k).sectors ≠ 0 ∧ (∀ i < 4, i ≠ k → isExtendedSlot (rawEntry sec i) = false) ∧
    Chained disk (512 * (rawEntry sec k).startLba) (512 * (rawEntry sec k).startLba) records
  length_le : records.length ≤ 128
  described : described sec records ≠ []

/-- The partitions of the primary slots. -/
def primaries (disksig : Nat) (sec : Bytes) : List Partition :=
  ((List.range 4).filter fun i => (rawEntry sec i).isPrimary).map
    fun i => partition disksig (i + 1) 0 (rawEntry sec i)

private theorem primary_eq (disksig i : Nat) (e : RawEntry) :
    primary disksig (i, e) =
      if e.isPrimary then some (partition disksig (i + 1) 0 e) else none := by
  unfold primary RawEntry.isPrimary RawEntry.isUsed
  by_cases ht : e.typeByte = typeEmpty <;> by_cases hs : e.sectors = 0 <;>
    by_cases hp : e.typeByte = typeGptProtective <;> by_cases hx : e.isExtended = true <;>
    simp [ht, hs, hp, hx]

private theorem primaries_eq (disksig : Nat) (sec : Bytes) :
    (slots sec).zipIdx.filterMap (fun (e, i) => primary disksig (i, e)) =
      primaries disksig sec := by
  have hzip : (slots sec).zipIdx = (List.range 4).map fun i => (rawEntry sec i, i) := rfl
  rw [hzip, List.filterMap_map, primaries, ← List.filterMap_eq_map, List.filterMap_filter]
  refine List.filterMap_congr fun i _ => ?_
  exact primary_eq disksig i (rawEntry sec i)

/-- The logicals are those of the first extended slot's chain. -/
private theorem logicals_eq (disksig : Nat) (sec : Bytes) :
    logicals disk disksig (slots sec) =
      match extendedSlot sec with
      | none => .ok []
      | some e => walkEbr disk disksig (512 * e.startLba) 128 (512 * e.startLba) 5 := by
  have hsector : sector = 512 := rfl
  unfold logicals extendedSlot
  cases hlast : ((slots sec).filter isExtendedSlot).getLast? with
  | none => rfl
  | some e =>
    obtain ⟨i, -, rfl⟩ := List.mem_map.mp (List.mem_filter.mp (List.mem_of_getLast? hlast)).1
    have hstart := (rawEntry_lt sec i).1
    have hbase : wrappingMul (rawEntry sec i).startLba sector =
        512 * (rawEntry sec i).startLba := by
      rw [wrappingMul_eq (by rw [hsector]; omega), hsector, Nat.mul_comm]
    simp only [hbase]

private theorem extendedSlot_lt {sec : Bytes} {e : RawEntry} (h : extendedSlot sec = some e) :
    512 * e.startLba < 2 ^ 41 := by
  obtain ⟨i, -, rfl⟩ := List.mem_map.mp (List.mem_filter.mp (List.mem_of_getLast? h)).1
  have hstart := (rawEntry_lt sec i).1
  omega

/-- What the scanner yields: the primary slots and what the walk finds. -/
theorem scan_eq_some {t : PartitionTable} (h : scan disk = .ok (some t)) :
    ∃ sec rest, disk.readAt 0 512 = .ok sec ∧
      logicals disk (le32 sec 440) (slots sec) = .ok rest ∧
      t = ⟨.mbr, primaries (le32 sec 440) sec ++ rest⟩ := by
  unfold scan at h
  split at h
  · cases h
  obtain ⟨sec, hsec, h⟩ := Effect.bind_eq_ok_iff.mp h
  split at h
  · cases h
  rename_i entries hentries
  obtain rfl : entries = slots sec := parseEntries_eq_some hentries
  split at h
  · cases h
  obtain ⟨rest, hrest, h⟩ := Effect.bind_eq_ok_iff.mp h
  simp only at h
  split at h
  · cases h
  cases h
  exact ⟨sec, rest, hsec, hrest, by rw [primaries_eq]⟩

/-- A disk with an MBR scans to its primaries and logicals. -/
private theorem scan_of_logicals {sec : Bytes} {rest : List Partition} (hlarge : 512 ≤ disk.size)
    (hsec : disk.readAt 0 512 = .ok sec) (hsig : slice sec 510 2 = [0x55, 0xaa])
    (hslots : (slots sec).any isPlausible = true)
    (hrest : logicals disk (le32 sec 440) (slots sec) = .ok rest)
    (hne : primaries (le32 sec 440) sec ++ rest ≠ []) :
    scan disk = .ok (some ⟨.mbr, primaries (le32 sec 440) sec ++ rest⟩) := by
  have hentries : parseEntries sec = some (slots sec) := if_neg (not_not_intro hsig)
  have hempty : (primaries (le32 sec 440) sec ++ rest).isEmpty = false :=
    Bool.eq_false_iff.mpr fun h => hne (List.isEmpty_iff.mp h)
  have hsmall : ¬disk.size < sector := Nat.not_lt.mpr hlarge
  unfold scan
  rw [if_neg hsmall, hsec]
  simp only [bind, Except.bind, hentries, hslots, hrest, primaries_eq, hempty, Bool.not_true,
    Bool.false_eq_true, if_false]

/-- A record's place and first slot have the widths that keep the arithmetic exact. -/
theorem Chained.mem {base off : Nat} {records : List (Nat × RawEntry)}
    (h : Chained disk base off records) (hbase : base < 2 ^ 41) (hoff : off < 2 ^ 42)
    {r : Nat × RawEntry} (hr : r ∈ records) : r.1 < 2 ^ 42 ∧ ∃ ebr, rawEntry ebr 0 = r.2 := by
  induction h with
  | @last off data link hrec _ =>
    obtain ⟨ebr, -, -, hdata, -⟩ := hrec.read
    obtain rfl := List.mem_singleton.mp hr
    exact ⟨hoff, ebr, hdata⟩
  | @next off data link records hrec _ _ ih =>
    obtain ⟨ebr, -, -, hdata, hlink⟩ := hrec.read
    rcases List.mem_cons.mp hr with rfl | hr
    · exact ⟨hoff, ebr, hdata⟩
    · have hstart := (rawEntry_lt ebr 1).1
      rw [hlink] at hstart
      exact ih (by unfold target; omega) hr

private theorem isPartition_partition (disksig index : Nat) {base : Nat} (hbase : base < 2 ^ 43)
    (sec : Bytes) (i : Nat) :
    IsPartition disksig index base (rawEntry sec i)
      (partition disksig index base (rawEntry sec i)) := by
  obtain ⟨hstart, hsize⟩ := partition_numbers disksig index sec i hbase
  refine ⟨rfl, hstart, hsize, rfl, ?_⟩
  by_cases hsig : disksig = 0 <;> simp [partition, partUuid, hsig]

/-- The scanner finds what the disk describes, in order and numbered without gaps. -/
theorem scan_chain {sec : Bytes} {records : List (Nat × RawEntry)}
    (h : Carries disk sec records) :
    ∃ t, scan disk = .ok (some t) ∧ t.kind = .mbr ∧
      List.Forall₂ (fun d p => IsPartition (le32 sec 440) d.1 d.2.1 d.2.2 p)
        (described sec records) t.partitions ∧
      (t.partitions.map (·.index)).Pairwise (· < ·) := by
  obtain ⟨k, hk, hext, hstart, hsectors, hothers, hchain⟩ := h.extended
  have hextslot : isExtendedSlot (rawEntry sec k) = true := by
    simp only [RawEntry.isExtended, Bool.or_eq_true, beq_iff_eq] at hext
    have hs : ((rawEntry sec k).sectors == 0) = false := beq_eq_false_iff_ne.mpr hsectors
    simp only [isExtendedSlot, RawEntry.isExtended, hs]
    rcases hext with hext | hext <;> rw [hext] <;> decide
  have hslot : extendedSlot sec = some (rawEntry sec k) := by
    have hiff : ∀ i ∈ List.range 4, isExtendedSlot (rawEntry sec i) = (i == k) := by
      intro i hi
      by_cases hik : i = k
      · rw [hik, hextslot, beq_self_eq_true]
      · rw [hothers i (List.mem_range.mp hi) hik, beq_eq_false_iff_ne.mpr hik]
    have hone : ∀ k < 4, (List.range 4).filter (· == k) = [k] := by decide
    rw [extendedSlot, slots, List.filter_map]
    have hfilter : (List.range 4).filter (isExtendedSlot ∘ rawEntry sec) = [k] :=
      (List.filter_congr hiff).trans (hone k hk)
    rw [hfilter]
    rfl
  have hbase := extendedSlot_lt hslot
  have hrest : logicals disk (le32 sec 440) (slots sec) = .ok (found (le32 sec 440) 5 records) := by
    rw [logicals_eq, hslot]
    exact walkEbr_chained hbase hchain h.length_le
  have hslots : (slots sec).any isPlausible = true := by
    refine List.any_eq_true.mpr
      ⟨rawEntry sec k, List.mem_map_of_mem (List.mem_range.mpr hk), ?_⟩
    simp only [RawEntry.isExtended, Bool.or_eq_true, beq_iff_eq] at hext
    simp only [isPlausible, Bool.and_eq_true, bne_iff_ne, ne_eq, decide_eq_true_eq]
    refine ⟨⟨?_, Nat.pos_of_ne_zero hstart⟩, Nat.pos_of_ne_zero hsectors⟩
    rcases hext with hext | hext <;> rw [hext] <;> decide
  have hpartitions : List.Forall₂ (fun d p => IsPartition (le32 sec 440) d.1 d.2.1 d.2.2 p)
      (described sec records) (primaries (le32 sec 440) sec ++ found (le32 sec 440) 5 records) := by
    refine List.rel_append ?_ ?_
    · rw [primaries, List.forall₂_map_left_iff, List.forall₂_map_right_iff, List.forall₂_same]
      have hzero : 0 < 2 ^ 43 := by decide
      exact fun i _ => isPartition_partition _ _ hzero sec i
    · rw [found, List.forall₂_map_left_iff, List.forall₂_map_right_iff, List.forall₂_same]
      intro r hr
      have hmem : r.1 ∈ records :=
        (List.mem_filter.mp (List.fst_mem_of_mem_zipIdx hr)).1
      obtain ⟨hoff, ebr, hdata⟩ := hchain.mem hbase (by omega) hmem
      have hpart := isPartition_partition (le32 sec 440) r.2
        (show r.1.1 < 2 ^ 43 by omega) ebr 0
      rwa [hdata] at hpart
  have hne : primaries (le32 sec 440) sec ++ found (le32 sec 440) 5 records ≠ [] := by
    intro hnil
    rw [hnil] at hpartitions
    exact h.described (List.eq_nil_of_length_eq_zero hpartitions.length_eq)
  have hscan := scan_of_logicals h.large h.read h.signature hslots hrest hne
  exact ⟨_, hscan, rfl, hpartitions, List.pairwise_map.mpr (numbered_scan hscan).1⟩

end Scan

section Revisits

variable {base : Nat}

/-- The records that the scan of a disk visits. -/
def Visited (disk : Device) (records : List (Nat × RawEntry)) : Prop :=
  ∃ sec, disk.readAt 0 512 = .ok sec ∧
    match extendedSlot sec with
    | none => records = []
    | some e => Visits disk (512 * e.startLba) 128 (512 * e.startLba) records

/-- Within the bound of the walk the chain comes back to a record that is in use. -/
def Revisits (disk : Device) : Prop :=
  ∃ sec e, disk.readAt 0 512 = .ok sec ∧ extendedSlot sec = some e ∧
    ∃ m n off data link, m < n ∧ n < 128 ∧
      Reached disk (512 * e.startLba) (512 * e.startLba) m off ∧
      Reached disk (512 * e.startLba) (512 * e.startLba) n off ∧
      Record disk off data link ∧ data.isUsed = true

/-- A walk is no longer than its bound. -/
theorem Visits.length_le {fuel off : Nat} {records : List (Nat × RawEntry)}
    (h : Visits disk base fuel off records) : records.length ≤ fuel := by
  induction h with
  | spent => exact Nat.le_refl _
  | stop => exact Nat.zero_le _
  | last => exact Nat.succ_le_succ (Nat.zero_le _)
  | next _ _ _ ih => exact Nat.succ_le_succ ih

private theorem reached_zero {start off : Nat} (h : Reached disk base start 0 off) :
    off = start := by
  cases h
  rfl

private theorem reached_succ {start n off : Nat} {data link : RawEntry}
    (hrec : Record disk start data link) :
    Reached disk base start (n + 1) off ↔
      link.isExtended = true ∧ Reached disk base (target base link) n off := by
  constructor
  · rintro (_ | ⟨hrec', hlink, hrest⟩)
    obtain ⟨-, rfl⟩ := hrec.unique hrec'
    exact ⟨hlink, hrest⟩
  · rintro ⟨hlink, hrest⟩
    exact .next hrec hlink hrest

/-- The walk visits the records that the chain reaches within the bound. -/
theorem Visits.getElem?_iff {fuel start : Nat} {records : List (Nat × RawEntry)}
    (h : Visits disk base fuel start records) {n off : Nat} {data : RawEntry} :
    records[n]? = some (off, data) ↔
      n < fuel ∧ Reached disk base start n off ∧ ∃ link, Record disk off data link := by
  induction h generalizing n with
  | spent =>
    simp
  | @stop fuel start hno =>
    constructor
    · intro h
      cases h
    · rintro ⟨-, hreached, link, hrec⟩
      cases hreached with
      | here => exact absurd hrec (hno _ _)
      | next hrec' => exact absurd hrec' (hno _ _)
  | @last fuel start d l hrec hlink =>
    cases n with
    | zero =>
      constructor
      · intro h
        obtain ⟨rfl, rfl⟩ := Prod.mk.inj (Option.some.inj h)
        exact ⟨Nat.succ_pos _, .here, l, hrec⟩
      · rintro ⟨-, hreached, link, hrec'⟩
        obtain rfl := reached_zero hreached
        obtain ⟨rfl, -⟩ := hrec.unique hrec'
        rfl
    | succ n =>
      rw [reached_succ hrec, hlink]
      simp
  | @next fuel start d l records hrec hlink _ ih =>
    cases n with
    | zero =>
      constructor
      · intro h
        obtain ⟨rfl, rfl⟩ := Prod.mk.inj (Option.some.inj h)
        exact ⟨Nat.succ_pos _, .here, l, hrec⟩
      · rintro ⟨-, hreached, link, hrec'⟩
        obtain rfl := reached_zero hreached
        obtain ⟨rfl, -⟩ := hrec.unique hrec'
        rfl
    | succ n =>
      rw [List.getElem?_cons_succ, ih, reached_succ hrec, hlink, Nat.succ_lt_succ_iff]
      simp

/-- The origins are distinct unless the chain comes back to one of them. -/
theorem Visits.nodup_iff {start : Nat} {records : List (Nat × RawEntry)}
    (h : Visits disk base 128 start records) :
    (origins records).Nodup ↔
      ¬∃ m n off data link, m < n ∧ n < 128 ∧ Reached disk base start m off ∧
        Reached disk base start n off ∧ Record disk off data link ∧ data.isUsed = true := by
  rw [origins, List.Nodup, List.pairwise_map, List.pairwise_filter, List.pairwise_iff_getElem]
  constructor
  · rintro hall ⟨m, n, off, data, link, hmn, hn, hm, hn', hrec, hused⟩
    have hgetm := h.getElem?_iff.mpr ⟨Nat.lt_trans hmn hn, hm, link, hrec⟩
    have hgetn := h.getElem?_iff.mpr ⟨hn, hn', link, hrec⟩
    obtain ⟨hm, hgetm⟩ := List.getElem?_eq_some_iff.mp hgetm
    obtain ⟨hn, hgetn⟩ := List.getElem?_eq_some_iff.mp hgetn
    refine hall m n hm hn hmn ?_ ?_ ?_
    · rw [hgetm]
      exact hused
    · rw [hgetn]
      exact hused
    · rw [hgetm, hgetn]
  · intro hno m n hm hn hmn hused _ hoff
    have hgetm : records[m]? = some (records[m].1, records[m].2) := List.getElem?_eq_getElem hm
    have hgetn : records[n]? = some (records[n].1, records[n].2) := List.getElem?_eq_getElem hn
    obtain ⟨hm', hreachm, link, hrec⟩ := h.getElem?_iff.mp hgetm
    obtain ⟨hn', hreachn, -⟩ := h.getElem?_iff.mp hgetn
    rw [← hoff] at hreachn
    exact hno ⟨m, n, _, _, link, hmn, hn', hreachm, hreachn, hrec, hused⟩

/-- A walk that comes back to no sector is one without a loop. -/
theorem Visited.nodup_iff {records : List (Nat × RawEntry)} (h : Visited disk records) :
    (origins records).Nodup ↔ ¬Revisits disk := by
  obtain ⟨sec, hsec, hvisits⟩ := h
  cases hslot : extendedSlot sec with
  | none =>
    rw [hslot] at hvisits
    obtain rfl := hvisits
    refine iff_of_true List.nodup_nil ?_
    rintro ⟨sec', e, hsec', hslot', -⟩
    rw [hsec] at hsec'
    cases hsec'
    rw [hslot] at hslot'
    cases hslot'
  | some e =>
    rw [hslot] at hvisits
    rw [Visits.nodup_iff hvisits, not_iff_not]
    constructor
    · exact fun hre => ⟨sec, e, hsec, hslot, hre⟩
    · rintro ⟨sec', e', hsec', hslot', hre⟩
      rw [hsec] at hsec'
      cases hsec'
      rw [hslot] at hslot'
      cases hslot'
      exact hre

/-- At most 128 sectors are visited. -/
theorem Visited.length_le {records : List (Nat × RawEntry)} (h : Visited disk records) :
    records.length ≤ 128 := by
  obtain ⟨sec, hsec, hvisits⟩ := h
  cases hslot : extendedSlot sec with
  | none =>
    rw [hslot] at hvisits
    rw [hvisits]
    exact Nat.zero_le _
  | some e =>
    rw [hslot] at hvisits
    exact Visits.length_le hvisits

/-- What the scanner yields: the primary slots, and the used ones of the records it visits. -/
theorem visited_of_scan {t : PartitionTable} (h : scan disk = .ok (some t)) :
    ∃ sec records, disk.readAt 0 512 = .ok sec ∧ Visited disk records ∧
      t.partitions = primaries (le32 sec 440) sec ++ found (le32 sec 440) 5 records := by
  obtain ⟨sec, rest, hsec, hrest, rfl⟩ := scan_eq_some h
  rw [logicals_eq] at hrest
  cases hslot : extendedSlot sec with
  | none =>
    rw [hslot] at hrest
    cases hrest
    exact ⟨sec, [], hsec, ⟨sec, hsec, by rw [hslot]⟩, rfl⟩
  | some e =>
    rw [hslot] at hrest
    obtain ⟨records, hvisits, rfl⟩ := visits_of_walkEbr (extendedSlot_lt hslot) hrest
    exact ⟨sec, records, hsec, ⟨sec, hsec, by rw [hslot]; exact hvisits⟩, rfl⟩

/-- The logical partitions come from different records exactly when the chain does not come
back to one of them within the bound, and in any case from no more than the bound. -/
theorem scan_origins {t : PartitionTable} (h : scan disk = .ok (some t)) :
    ∃ sec records, disk.readAt 0 512 = .ok sec ∧ Visited disk records ∧
      t.partitions = primaries (le32 sec 440) sec ++ found (le32 sec 440) 5 records ∧
      records.length ≤ 128 ∧ ((origins records).Nodup ↔ ¬Revisits disk) := by
  obtain ⟨sec, records, hsec, hvisited, hparts⟩ := visited_of_scan h
  exact ⟨sec, records, hsec, hvisited, hparts, hvisited.length_le, hvisited.nodup_iff⟩

end Revisits

section Disks

/-- A slot on a disk. -/
def slotBytes (type start sectors : Nat) : Bytes :=
  [0, 0, 0, 0, UInt8.ofNat type, 0, 0, 0] ++ toLe 4 start ++ toLe 4 sectors

/-- A sector with two slots. -/
def sectorBytes (first second : Bytes) : Bytes :=
  List.replicate 446 0 ++ first ++ second ++ List.replicate 32 0 ++ [0x55, 0xaa]

/-- A disk with a chain of two records, the first of which is empty. -/
def chainDisk : Disk where
  content := sectorBytes (slotBytes 0x83 2 1) (slotBytes 5 1 2) ++
    sectorBytes (slotBytes 0 0 0) (slotBytes 5 1 1) ++
    sectorBytes (slotBytes 0x83 0 1) (slotBytes 0 0 0)
  length_lt := by decide +kernel

/-- A disk whose chain links back to its first record. -/
def loopDisk : Disk where
  content := sectorBytes (slotBytes 5 1 1) (slotBytes 0 0 0) ++
    sectorBytes (slotBytes 0x83 0 1) (slotBytes 5 0 1)
  length_lt := by decide +kernel

private theorem chainDisk_length : chainDisk.content.length = 1536 := by decide +kernel

private theorem loopDisk_length : loopDisk.content.length = 1024 := by decide +kernel

/-- That disk carries a chain of two records. -/
private theorem chainDisk_carries :
    Carries chainDisk.device (slice chainDisk.content 0 512)
      [(512, ⟨0, 0, 0⟩), (1024, ⟨0x83, 0, 1⟩)] where
  large := by
    rw [show chainDisk.device.size = 1536 from chainDisk_length]
    decide
  read := Disk.readAt_of_le (by rw [chainDisk_length]; decide)
  signature := by decide +kernel
  extended := by
    refine ⟨1, by decide, by decide +kernel, by decide +kernel, by decide +kernel,
      by decide +kernel, ?_⟩
    have hbase : 512 * (rawEntry (slice chainDisk.content 0 512) 1).startLba = 512 := by
      decide +kernel
    rw [hbase]
    refine @Chained.next _ _ _ _ ⟨5, 1, 1⟩ _ ⟨by decide +kernel, slice chainDisk.content 512 512,
      Disk.readAt_of_le (by rw [chainDisk_length]; decide), by decide +kernel⟩ (by decide) ?_
    exact @Chained.last _ _ _ _ ⟨0, 0, 0⟩ ⟨by decide +kernel, slice chainDisk.content 1024 512,
      Disk.readAt_of_le (by rw [chainDisk_length]; decide), by decide +kernel⟩ (by decide)
  length_le := by decide
  described := by decide +kernel

private theorem loopDisk_scan : ∃ t, scan loopDisk.device = .ok (some t) := by
  have hsome : (scan loopDisk.device).toOption.join.isSome = true := by decide +kernel
  cases hscan : scan loopDisk.device with
  | error e =>
    rw [hscan] at hsome
    cases hsome
  | ok t =>
    rw [hscan] at hsome
    cases t with
    | none => cases hsome
    | some t => exact ⟨t, rfl⟩

/-- A chain of two records, the first of them empty. -/
theorem scan_chainDisk :
    ∃ t, scan chainDisk.device = .ok (some t) ∧ t.kind = .mbr ∧
      List.Forall₂
        (fun d p => IsPartition (le32 (slice chainDisk.content 0 512) 440) d.1 d.2.1 d.2.2 p)
        (described (slice chainDisk.content 0 512) [(512, ⟨0, 0, 0⟩), (1024, ⟨0x83, 0, 1⟩)])
        t.partitions ∧
      (t.partitions.map (·.index)).Pairwise (· < ·) :=
  scan_chain chainDisk_carries

/-- A chain that loops is walked up to its bound. -/
theorem scan_origins_loopDisk :
    ∃ (t : PartitionTable) (sec : Bytes) (records : List (Nat × RawEntry)),
      loopDisk.device.readAt 0 512 = .ok sec ∧ Visited loopDisk.device records ∧
      t.partitions = primaries (le32 sec 440) sec ++ found (le32 sec 440) 5 records ∧
      records.length ≤ 128 ∧ ((origins records).Nodup ↔ ¬Revisits loopDisk.device) := by
  obtain ⟨t, hscan⟩ := loopDisk_scan
  exact ⟨t, scan_origins hscan⟩

/-- The first record of `loopDisk` is reached again. -/
theorem loopDisk_revisits : Revisits loopDisk.device := by
  have hrec : Record loopDisk.device 512 ⟨0x83, 0, 1⟩ ⟨5, 0, 1⟩ :=
    ⟨by decide +kernel, slice loopDisk.content 512 512,
      Disk.readAt_of_le (by rw [loopDisk_length]), by decide +kernel⟩
  refine ⟨slice loopDisk.content 0 512, ⟨5, 1, 1⟩,
    Disk.readAt_of_le (by rw [loopDisk_length]; decide), by decide +kernel, 0, 1, 512,
    ⟨0x83, 0, 1⟩, ⟨5, 0, 1⟩, by decide, by decide, .here, ?_, hrec, by decide⟩
  exact .next hrec (by decide) .here

/-- The logical partitions of a corrupt chain need not come from different records. -/
theorem loopDisk_repeats :
    ¬∀ disk t records, scan disk = .ok (some t) → Visited disk records →
      (origins records).Nodup := by
  intro h
  obtain ⟨t, hscan⟩ := loopDisk_scan
  obtain ⟨sec, records, -, hvisited, -⟩ := visited_of_scan hscan
  exact hvisited.nodup_iff.mp (h _ t records hscan hvisited) loopDisk_revisits

end Disks

end BootExtractor.Part.Mbr
