import BootExtractor.Guest.Bootable
import BootExtractor.Guest.Survey

/-!
# What is listed

The listing never fails once the table is read. Each of its parts is the part of one
partition: what the sweeps leave of the authoritative source, and at most one entry more.
-/

namespace BootExtractor.Guest

open Boot Fsys BootExtractor.Part Renumber

/-- The entries of a part with the default among them. -/
def PartitionBoot.found (pb : PartitionBoot) : Found := (pb.scan.entries, pb.scan.default)

/-- The path of the boot manager found. -/
def Walk.managerPath (w : Walk) : Option Str := (w.windows.bind (·.bootManager)).map pathOf

/-- Does some entry start the boot manager found? -/
def Walk.declared (w : Walk) : Bool :=
  w.parts.any fun pb => pb.scan.entries.any (declares w.managerPath)

/-- The sweep of an entry. -/
def Walk.sweep (w : Walk) : BootEntry → Option BootEntry := sweepEntry w.windows w.managerPath

/-- A part after the sweep. -/
def Walk.swept (w : Walk) (pb : PartitionBoot) : PartitionBoot :=
  let found := renumber w.sweep pb.found
  { pb with scan := { pb.scan with entries := found.1, default := found.2 } }

/-- The entry of an install that no config declares, with the partition that hosts it. -/
def Walk.detection (w : Walk) : Option (Nat × BootEntry) :=
  if w.declared then none
  else
    w.windows.bind fun win =>
      win.firmware.bind fun firmware =>
        (hostPart win w.biosPart).map fun index => (index, detectionEntry win firmware)

/-- What is added to a part. -/
def Walk.extra (w : Walk) (pb : PartitionBoot) : List BootEntry :=
  ((w.detection.filter fun d => pb.partition.index == d.1).map Prod.snd).toList

/-- A part with entries more; the first of them is the default if there is no other. -/
def append (extra : List BootEntry) (pb : PartitionBoot) : PartitionBoot :=
  { pb with
    scan := { pb.scan with
      entries := pb.scan.entries ++ extra
      default := pb.scan.default.or (if extra = [] then none else some pb.scan.entries.length) } }

/-- What becomes of a part. -/
def Walk.finish (w : Walk) (pb : PartitionBoot) : PartitionBoot := append (w.extra pb) (w.swept pb)

/-- The listing of a walk. -/
def Walk.listing (w : Walk) : List PartitionBoot :=
  (w.parts.map w.finish).filter fun pb => !pb.scan.entries.isEmpty

/-- With a valid default the sweep does not fail. -/
theorem sweepPart_eq {w : Walk} {pb : PartitionBoot} (h : pb.found.Valid) :
    sweepPart w.windows w.managerPath pb = .ok (w.swept pb) := by
  have hretain := retain_eq (sweepEntry w.windows w.managerPath) h
  simp only [PartitionBoot.found] at hretain
  rw [sweepPart]
  simp only [hretain]
  rfl

/-- Sweeping the parts never fails. -/
private theorem mapM_sweepPart {w : Walk} {parts : List PartitionBoot}
    (h : ∀ pb ∈ parts, pb.found.Valid) :
    parts.mapM (sweepPart w.windows w.managerPath) = .ok (parts.map w.swept) := by
  induction parts with
  | nil => rfl
  | cons pb rest ih =>
    have hrest := ih fun pb' h' => h pb' (List.mem_cons_of_mem _ h')
    rw [List.mapM_cons, sweepPart_eq (h pb (List.mem_cons_self ..)), hrest]
    rfl

/-- Where no two partitions share a number, the first of a number is the only one. -/
theorem modifyPart_eq_map {index : Nat} {f : PartitionBoot → PartitionBoot}
    {parts : List PartitionBoot}
    (h : parts.Pairwise fun a b => a.partition.index < b.partition.index) :
    modifyPart index f parts =
      parts.map fun pb => if pb.partition.index = index then f pb else pb := by
  induction parts with
  | nil => rfl
  | cons pb rest ih =>
    obtain ⟨hfirst, hrest⟩ := List.pairwise_cons.mp h
    rw [modifyPart, List.map_cons]
    split
    · rename_i hpb
      have hsame : rest.map (fun pb => if pb.partition.index = index then f pb else pb) = rest := by
        rw [List.map_congr_left (g := id), List.map_id]
        intro pb' h'
        have := hfirst pb' h'
        rw [if_neg (by omega)]
        rfl
      rw [hsame]
    · rw [ih hrest]

/-- Adding the detected entry finishes every partition on its own. -/
private theorem addDetected_eq {w : Walk}
    (h : w.parts.Pairwise fun a b => a.partition.index < b.partition.index) :
    addDetected w.windows w.biosPart w.declared (w.parts.map w.swept) = w.parts.map w.finish := by
  have hnothing : w.detection = none → w.parts.map w.swept = w.parts.map w.finish := by
    intro hnone
    apply List.map_congr_left
    intro pb _
    simp [Walk.finish, Walk.extra, hnone, append]
  have hadd : ∀ index e, w.detection = some (index, e) →
      modifyPart index (addEntry e) (w.parts.map w.swept) = w.parts.map w.finish := by
    intro index e hsome
    have hswept : (w.parts.map w.swept).Pairwise fun a b =>
        a.partition.index < b.partition.index := List.pairwise_map.mpr h
    rw [modifyPart_eq_map hswept, List.map_map]
    apply List.map_congr_left
    intro pb _
    simp only [Function.comp_apply, Walk.finish, Walk.extra, hsome]
    have hindex : (w.swept pb).partition.index = pb.partition.index := rfl
    rw [hindex]
    by_cases heq : pb.partition.index = index
    · simp [heq, Option.filter, append, addEntry]
    · simp [heq, Option.filter, append]
  unfold addDetected
  split
  · rename_i hdeclared
    exact hnothing (by rw [Walk.detection, if_pos hdeclared])
  · rename_i hdeclared
    have hdetection : w.detection = w.windows.bind fun win => win.firmware.bind fun firmware =>
        (hostPart win w.biosPart).map fun index => (index, detectionEntry win firmware) := by
      rw [Walk.detection, if_neg hdeclared]
    split
    · rename_i hwin
      exact hnothing (by rw [hdetection, hwin]; rfl)
    · rename_i win hwin
      split
      · rename_i firmware index hfirmware hindex
        exact hadd _ _ (by rw [hdetection, hwin]; simp [hfirmware, hindex])
      · rename_i hnone
        apply hnothing
        rw [hdetection, hwin, Option.bind_some]
        cases hfirmware : win.firmware with
        | none => rfl
        | some firmware =>
          cases hindex : hostPart win w.biosPart with
          | none => rfl
          | some index => exact (hnone firmware index hfirmware hindex).elim

section Surveyed

variable {readers : Readers} {disk : Device} {table : PartitionTable} {w : Walk}

/-- The authoritative source of a part; a part that cannot be read has none. -/
def authority (fs : Option FileSystem) : Found :=
  fs.elim ([], none) fun fs => choose fs (consult fs)

/-- The sweep of stale entries on a part. -/
def stays (fs : Option FileSystem) : BootEntry → Option BootEntry := fs.elim some surviving

/-- A scanned partition keeps its table entry. -/
theorem partition_of_partOf {p : Partition} {pb : PartitionBoot}
    (h : partOf readers disk true p = some pb) : pb.partition = p := by
  unfold partOf at h
  split at h
  · cases h
    rfl
  · obtain ⟨r, _, rfl⟩ := Option.map_eq_some_iff.mp h
    rfl

/-- A part holds what is not stale of its authoritative source. -/
theorem found_of_partOf {p : Partition} {pb : PartitionBoot}
    (h : partOf readers disk true p = some pb) :
    pb.found = renumber (stays pb.fs) (authority pb.fs) := by
  unfold partOf at h
  split at h
  · cases h
    rfl
  · obtain ⟨r, _, rfl⟩ := Option.map_eq_some_iff.mp h
    rfl

/-- The parts of the walk are the partitions that can be scanned. -/
theorem mem_parts (h : Surveys readers disk true table w) {pb : PartitionBoot} :
    pb ∈ w.parts ↔ ∃ p ∈ table.partitions, partOf readers disk true p = some pb := by
  rw [h.parts, List.mem_filterMap]

/-- A part holds what the scan of its filesystem found. -/
theorem found_of_mem_parts (h : Surveys readers disk true table w) {pb : PartitionBoot}
    (hpb : pb ∈ w.parts) : pb.found = renumber (stays pb.fs) (authority pb.fs) := by
  obtain ⟨p, _, hp⟩ := (mem_parts h).mp hpb
  exact found_of_partOf hp

private theorem valid_of_mem_parts (h : Surveys readers disk true table w) {pb : PartitionBoot}
    (hpb : pb ∈ w.parts) : pb.found.Valid := by
  rw [found_of_mem_parts h hpb]
  exact points_move _ _ _

/-- The parts stand in the order of their numbers. -/
theorem parts_increasing (hscan : Part.scan disk = .ok table)
    (h : Surveys readers disk true table w) :
    w.parts.Pairwise fun a b => a.partition.index < b.partition.index := by
  rw [h.parts]
  apply List.Pairwise.filterMap _ _ (numbered_scan hscan).increasing
  intro p q hpq a ha b hb
  rw [partition_of_partOf ha, partition_of_partOf hb]
  exact hpq

/-- The listing fails only if the partition table cannot be read. -/
theorem bootable_cases (readers : Readers) (disk : Device) :
    (∃ e, Part.scan disk = .error e ∧ walk readers disk true = .error (.err e) ∧
      bootable readers disk = .error (.err e)) ∨
    ∃ table w, Part.scan disk = .ok table ∧ walk readers disk true = .ok w ∧
      Surveys readers disk true table w ∧ bootable readers disk = .ok w.listing := by
  rcases walk_cases readers disk true with ⟨e, hscan, hwalk⟩ | ⟨table, w, hscan, hwalk, hsurveys⟩
  · refine Or.inl ⟨e, hscan, hwalk, ?_⟩
    rw [bootable, hwalk]
    rfl
  · refine Or.inr ⟨table, w, hscan, hwalk, hsurveys, ?_⟩
    have hsweep := mapM_sweepPart (w := w) fun pb hpb => valid_of_mem_parts hsurveys hpb
    have hadd := addDetected_eq (parts_increasing hscan hsurveys)
    rw [bootable, hwalk]
    simp only [bind, Except.bind]
    rw [← Walk.managerPath, hsweep]
    simp only
    rw [← Walk.declared, hadd]
    rfl

/-- The listing is the finished parts that have entries. -/
theorem mem_listing {pb : PartitionBoot} :
    pb ∈ w.listing ↔ ∃ pb₀ ∈ w.parts, w.finish pb₀ = pb ∧ pb.scan.entries ≠ [] := by
  simp only [Walk.listing, List.mem_filter, List.mem_map, Bool.not_eq_true',
    List.isEmpty_eq_false_iff]
  constructor
  · rintro ⟨⟨pb₀, h₀, rfl⟩, hne⟩
    exact ⟨pb₀, h₀, rfl, hne⟩
  · rintro ⟨pb₀, h₀, rfl, hne⟩
    exact ⟨⟨pb₀, h₀, rfl⟩, hne⟩

/-- The entries of a part are the swept ones and what is added. -/
theorem mem_finish {pb : PartitionBoot} {e : BootEntry} :
    e ∈ (w.finish pb).scan.entries ↔
      (∃ e₀ ∈ pb.scan.entries, w.sweep e₀ = some e) ∨ e ∈ w.extra pb := by
  simp only [Walk.finish, append, Walk.swept, renumber, PartitionBoot.found, List.mem_append,
    List.mem_filterMap]

end Surveyed

end BootExtractor.Guest
