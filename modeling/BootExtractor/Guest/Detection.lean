import BootExtractor.Guest.Listing

/-!
# Windows is listed once

A listing has a Windows entry exactly if the walk found a boot path. The entry of a
detected install is added only when no config starts its boot manager, and then on the
partition that the boot path is on.
-/

namespace BootExtractor.Guest

open Boot Fsys BootExtractor.Part Renumber

/-- The partition of a URI is read back from it. -/
theorem uriPartition_uri {index : Nat} (h : index < 2 ^ 64) (path : Str) :
    uriPartition (uri index path) = some index := by
  have hprefix : Str.stripPrefix "p".toList (uri index path) =
      some (Str.dec index ++ ':' :: path) := by
    simp [Str.stripPrefix, uri]
  have hsplit : Str.splitOnce (· == ':') (Str.dec index ++ ':' :: path) =
      some (Str.dec index, path) := Str.splitOnce_dec rfl index path
  rw [uriPartition, hprefix, Option.bind_some, hsplit]
  exact Str.parseUsize_dec h

/-- The verdict is that Windows boots on this firmware. -/
def Walk.Boots (w : Walk) (win : Windows) (firmware : Firmware) : Prop :=
  w.windows = some win ∧ win.firmware = some firmware

/-- Some entry of a config starts the boot manager that was found. -/
def Walk.Declares (w : Walk) : Prop :=
  ∃ u, w.windows.bind (·.bootManager) = some u ∧ ∃ pb ∈ w.parts, ∃ e ∈ pb.scan.entries,
    ∃ target, e.chainloader = some target ∧ sameFile target (pathOf u) = true

/-- The partition that the URI of the boot manager names, or the BIOS system partition. -/
def Hosts (win : Windows) (biosPart : Option Nat) (index : Nat) : Prop :=
  match win.bootManager with
  | some u => index < 2 ^ 64 ∧ ∃ path, u = uri index path
  | none => biosPart = some index

/-- The detection entries of a listing, with the numbers of their partitions. -/
def detections (parts : List PartitionBoot) : List (Nat × BootEntry) :=
  parts.flatMap fun pb =>
    (pb.scan.entries.filter fun e => e.source = .windows).map fun e => (pb.partition.index, e)

section Surveyed

variable {readers : Readers} {disk : Device} {table : PartitionTable} {w : Walk}

private theorem mem_parts_of_readable (h : Surveys readers disk true table w) {p : Partition}
    (hp : p ∈ table.partitions) {r : FsType × FileSystem} (hr : readable readers disk p = some r) :
    ∃ pb ∈ w.parts, pb.partition = p := by
  have hpart : ∃ pb, partOf readers disk true p = some pb := by
    unfold partOf
    rw [hr]
    split
    · exact ⟨_, rfl⟩
    · exact ⟨_, rfl⟩
  obtain ⟨pb, hpb⟩ := hpart
  exact ⟨pb, (mem_parts h).mpr ⟨p, hp, hpb⟩, partition_of_partOf hpb⟩

private theorem mem_parts_of_volume (h : Surveys readers disk true table w) {p : Partition}
    (hp : p ∈ table.partitions) {t : FsType} (ht : volume disk p = some t) :
    ∃ pb ∈ w.parts, pb.partition = p := by
  have hpb : partOf readers disk true p = some ⟨p, t, none, {}⟩ := by
    unfold partOf
    rw [ht]
  exact ⟨_, (mem_parts h).mpr ⟨p, hp, hpb⟩, rfl⟩

/-- The entries of a scan know nothing of Windows. -/
theorem from_of_mem_parts (h : Surveys readers disk true table w) {pb : PartitionBoot}
    (hpb : pb ∈ w.parts) {e : BootEntry} (he : e ∈ pb.scan.entries) :
    ∃ s, s ≠ .windows ∧ e.From s := by
  obtain ⟨p, _, hp⟩ := (mem_parts h).mp hpb
  unfold partOf at hp
  split at hp
  · cases hp
    cases he
  · obtain ⟨r, _, rfl⟩ := Option.map_eq_some_iff.mp hp
    exact exists_from_choose (mem_scanned.mp he).1

/-- The sweep leaves the source of an entry, and makes it a Windows entry only if it starts
the boot manager. -/
theorem sweep_cases {e₀ e : BootEntry} (h : w.sweep e₀ = some e) :
    (e₀.chainloader = none ∧ e = e₀) ∨
    ∃ u target b, w.windows.bind (·.bootManager) = some u ∧ e₀.chainloader = some target ∧
      sameFile target (pathOf u) = true ∧ e = { e₀ with windows := some b } := by
  unfold Walk.sweep sweepEntry at h
  split at h
  · rename_i hnone
    cases h
    exact Or.inl ⟨Option.isNone_iff_eq_none.mp hnone, rfl⟩
  · split at h
    · rename_i hdeclares
      cases h
      unfold declares at hdeclares
      split at hdeclares
      · rename_i target bm htarget hbm
        obtain ⟨u, hu, rfl⟩ := Option.map_eq_some_iff.mp hbm
        exact Or.inr ⟨u, target, _, hu, htarget, hdeclares, rfl⟩
      · cases hdeclares
    · cases h

/-- An entry that starts the boot manager is kept, as a Windows entry. -/
theorem sweep_declaring {e : BootEntry} {u target : Str}
    (hu : w.windows.bind (·.bootManager) = some u) (htarget : e.chainloader = some target)
    (hsame : sameFile target (pathOf u) = true) :
    ∃ b, w.sweep e = some { e with windows := some b } := by
  have hdeclares : declares w.managerPath e = true := by
    simp [declares, Walk.managerPath, htarget, hu, hsame]
  refine ⟨⟨.uefi, w.windows.bind (·.arch), w.windows.bind (·.bootManager)⟩, ?_⟩
  simp [Walk.sweep, sweepEntry, htarget, hdeclares]

/-- The walk's flag is what it says. -/
private theorem declared_iff : w.declared = true ↔ w.Declares := by
  unfold Walk.declared Walk.Declares
  simp only [List.any_eq_true]
  constructor
  · rintro ⟨pb, hpb, e, he, hdeclares⟩
    unfold declares at hdeclares
    split at hdeclares
    · rename_i target bm htarget hbm
      obtain ⟨u, hu, rfl⟩ := Option.map_eq_some_iff.mp hbm
      exact ⟨u, hu, pb, hpb, e, he, target, htarget, hdeclares⟩
    · cases hdeclares
  · rintro ⟨u, hu, pb, hpb, e, he, target, htarget, hsame⟩
    exact ⟨pb, hpb, e, he, by simp [declares, Walk.managerPath, htarget, hu, hsame]⟩

/-- A boot path is on a partition of the walk. -/
theorem exists_host (hscan : Part.scan disk = .ok table) (h : Surveys readers disk true table w)
    {win : Windows} {firmware : Firmware} (hboots : w.Boots win firmware) :
    ∃ pb ∈ w.parts, hostPart win w.biosPart = some pb.partition.index ∧
      Hosts win w.biosPart pb.partition.index := by
  obtain ⟨hwin, hfirmware⟩ := hboots
  have hmanager : win.bootManager = foundManager readers disk table := by
    rw [← h.bootManager, hwin]
    rfl
  cases hm : win.bootManager with
  | some u =>
    rw [hm] at hmanager
    obtain ⟨p, hp, hu⟩ := List.exists_of_findSome?_eq_some hmanager.symm
    obtain ⟨r, hr, hpath⟩ := Option.bind_eq_some_iff.mp hu
    obtain ⟨path, _, rfl⟩ := Option.map_eq_some_iff.mp hpath
    obtain ⟨pb, hpb, rfl⟩ := mem_parts_of_readable h hp hr
    have hlt := ((numbered_scan hscan).range _ hp).2
    refine ⟨pb, hpb, ?_, ?_⟩
    · rw [hostPart, hm, Option.bind_some, uriPartition_uri hlt]
      rfl
    · rw [Hosts, hm]
      exact ⟨hlt, path, rfl⟩
  | none =>
    rw [hm] at hmanager
    have hbios : ∃ index, biosVolume disk table = some index := by
      have hverdict := h.firmware
      rw [hwin, Option.bind_some, hfirmware, ← hmanager] at hverdict
      cases hb : biosVolume disk table with
      | none =>
        rw [hb] at hverdict
        cases hverdict
      | some index => exact ⟨index, rfl⟩
    obtain ⟨index, hindex⟩ := hbios
    have hloader : table.partitions.findSome? (loaderOf disk) = some index := by
      unfold biosVolume at hindex
      split at hindex
      · exact hindex
      · cases hindex
    obtain ⟨p, hp, hl⟩ := List.exists_of_findSome?_eq_some hloader
    obtain ⟨t, ht, hl⟩ := Option.bind_eq_some_iff.mp hl
    obtain ⟨l, _, rfl⟩ := Option.map_eq_some_iff.mp hl
    obtain ⟨pb, hpb, rfl⟩ := mem_parts_of_volume h hp ht
    refine ⟨pb, hpb, ?_, ?_⟩
    · rw [hostPart, hm, Option.bind_none, Option.none_or, h.biosPart, hindex]
    · rw [Hosts, hm]
      exact h.biosPart.trans hindex

/-- Something is added exactly if Windows boots and no config says so. -/
theorem detection_eq_some_iff {index : Nat} {e : BootEntry} :
    w.detection = some (index, e) ↔ ¬w.Declares ∧ ∃ win firmware, w.Boots win firmware ∧
      hostPart win w.biosPart = some index ∧ e = detectionEntry win firmware := by
  rw [← declared_iff, Walk.detection]
  constructor
  · intro h
    split at h
    · cases h
    · rename_i hdeclared
      obtain ⟨win, hwin, h⟩ := Option.bind_eq_some_iff.mp h
      obtain ⟨firmware, hfirmware, h⟩ := Option.bind_eq_some_iff.mp h
      obtain ⟨i, hi, h⟩ := Option.map_eq_some_iff.mp h
      cases h
      exact ⟨hdeclared, win, firmware, ⟨hwin, hfirmware⟩, hi, rfl⟩
  · rintro ⟨hdeclared, win, firmware, ⟨hwin, hfirmware⟩, hhost, rfl⟩
    rw [if_neg hdeclared, hwin, Option.bind_some, hfirmware, Option.bind_some, hhost]
    rfl

/-- The detected entry is added to its own partition. -/
theorem mem_extra {pb : PartitionBoot} {e : BootEntry} :
    e ∈ w.extra pb ↔ w.detection = some (pb.partition.index, e) := by
  unfold Walk.extra
  cases w.detection with
  | none => simp
  | some d =>
    obtain ⟨i, e'⟩ := d
    by_cases hi : pb.partition.index = i
    · simp [Option.filter, hi, eq_comm]
    · simp [Option.filter, hi, Ne.symm hi]

/-- The detection entries of a listing are the entries that were added. -/
theorem detections_listing (h : Surveys readers disk true table w) :
    detections w.listing = w.parts.flatMap fun pb =>
      (w.extra pb).map fun e => (pb.partition.index, e) := by
  have hpart : ∀ pb ∈ w.parts, ((w.finish pb).scan.entries.filter fun e => e.source = .windows) =
      w.extra pb := by
    intro pb hpb
    have hswept : ∀ e ∈ (w.swept pb).scan.entries, ¬e.source = .windows := by
      intro e he
      obtain ⟨e₀, he₀, hsweep⟩ := List.mem_filterMap.mp he
      obtain ⟨s, hs, hfrom⟩ := from_of_mem_parts h hpb he₀
      rcases sweep_cases hsweep with ⟨_, rfl⟩ | ⟨_, _, b, _, _, _, rfl⟩
      · rw [hfrom.source]
        exact hs
      · change ¬e₀.source = .windows
        rw [hfrom.source]
        exact hs
    have hextra : ∀ e ∈ w.extra pb, e.source = .windows := by
      intro e he
      obtain ⟨_, win, firmware, _, _, rfl⟩ := detection_eq_some_iff.mp (mem_extra.mp he)
      rfl
    have happend : (w.finish pb).scan.entries = (w.swept pb).scan.entries ++ w.extra pb := rfl
    rw [happend, List.filter_append, List.filter_eq_nil_iff.mpr (by simpa using hswept),
      List.filter_eq_self.mpr (by simpa using hextra), List.nil_append]
  have hdrop : ∀ parts : List PartitionBoot,
      detections (parts.filter fun pb => !pb.scan.entries.isEmpty) = detections parts := by
    intro parts
    induction parts with
    | nil => rfl
    | cons pb rest ih =>
      cases hentries : pb.scan.entries with
      | nil =>
        rw [List.filter_cons_of_neg (by simp [hentries]), ih]
        simp [detections, hentries]
      | cons e es =>
        rw [List.filter_cons_of_pos (by simp [hentries])]
        simp only [detections] at ih
        simp only [detections, List.flatMap_cons, ih]
  rw [Walk.listing, hdrop, detections, List.flatMap_map]
  apply List.flatMap_congr
  intro pb hpb
  rw [hpart pb hpb]
  rfl

/-- Among partitions with distinct numbers, at most one has a given number. -/
theorem flatMap_index {parts : List PartitionBoot} {pb : PartitionBoot} {β : Type} {y : β}
    (h : parts.Pairwise fun a b => a.partition.index < b.partition.index) (hpb : pb ∈ parts)
    {g : PartitionBoot → List β} (hg : ∀ a ∈ parts, g a =
      if a.partition.index = pb.partition.index then [y] else []) :
    parts.flatMap g = [y] := by
  induction parts with
  | nil => cases hpb
  | cons a rest ih =>
    obtain ⟨hfirst, hrest⟩ := List.pairwise_cons.mp h
    rw [List.flatMap_cons, hg a (List.mem_cons_self ..)]
    rcases List.mem_cons.mp hpb with rfl | hmem
    · rw [if_pos rfl, List.flatMap_eq_nil_iff.mpr, List.append_nil]
      intro b hb
      have := hfirst b hb
      rw [hg b (List.mem_cons_of_mem _ hb), if_neg (by omega)]
    · have := hfirst pb hmem
      rw [if_neg (by omega), List.nil_append]
      exact ih hrest hmem fun b hb => hg b (List.mem_cons_of_mem _ hb)

/-- Windows is listed exactly if it boots. -/
theorem lists_windows_iff (hscan : Part.scan disk = .ok table)
    (h : Surveys readers disk true table w) :
    (∃ win firmware, w.Boots win firmware) ↔
      ∃ pb ∈ w.listing, ∃ e ∈ pb.scan.entries, e.windows ≠ none := by
  constructor
  · rintro ⟨win, firmware, hboots⟩
    have hlisted : ∃ pb₀ ∈ w.parts, ∃ e ∈ (w.finish pb₀).scan.entries, e.windows ≠ none := by
      by_cases hdeclares : w.Declares
      · obtain ⟨u, hu, pb, hpb, e, he, target, htarget, hsame⟩ := hdeclares
        obtain ⟨b, hb⟩ := sweep_declaring hu htarget hsame
        exact ⟨pb, hpb, _, mem_finish.mpr (Or.inl ⟨e, he, hb⟩), by simp⟩
      · obtain ⟨pb, hpb, hhost, _⟩ := exists_host hscan h hboots
        have hdetection := detection_eq_some_iff.mpr ⟨hdeclares, win, firmware, hboots, hhost, rfl⟩
        exact ⟨pb, hpb, _, mem_finish.mpr (Or.inr (mem_extra.mpr hdetection)), by
          simp [detectionEntry]⟩
    obtain ⟨pb₀, h₀, e, he, hwindows⟩ := hlisted
    exact ⟨_, mem_listing.mpr ⟨pb₀, h₀, rfl, List.ne_nil_of_mem he⟩, e, he, hwindows⟩
  · rintro ⟨pb, hpb, e, he, hwindows⟩
    obtain ⟨pb₀, h₀, rfl, _⟩ := mem_listing.mp hpb
    rcases mem_finish.mp he with ⟨e₀, he₀, hsweep⟩ | hextra
    · rcases sweep_cases hsweep with ⟨_, rfl⟩ | ⟨u, _, _, hu, _, _, rfl⟩
      · obtain ⟨s, _, hfrom⟩ := from_of_mem_parts h h₀ he₀
        exact absurd hfrom.windows hwindows
      · -- a boot manager was found, so the install boots on UEFI at least
        obtain ⟨win, hwin, hmanager⟩ := Option.bind_eq_some_iff.mp hu
        have hverdict := h.firmware
        rw [hwin, Option.bind_some, ← h.bootManager, hu] at hverdict
        cases hbios : biosVolume disk table with
        | none =>
          rw [hbios] at hverdict
          exact ⟨win, .uefi, hwin, hverdict⟩
        | some index =>
          rw [hbios] at hverdict
          exact ⟨win, .both, hwin, hverdict⟩
    · obtain ⟨_, win, firmware, hboots, _, _⟩ := detection_eq_some_iff.mp (mem_extra.mp hextra)
      exact ⟨win, firmware, hboots⟩

end Surveyed

/-- A detected Windows is neither lost nor invented nor doubled. It is listed exactly if it
boots; the entry of the detection is added only when no config starts the boot manager, and
then once, on the one partition that hosts it. -/
theorem windows_listed_once (readers : Readers) (disk : Device) :
    match walk readers disk true with
    | .error f => bootable readers disk = .error f
    | .ok w => ∃ parts, bootable readers disk = .ok parts ∧
        parts.Pairwise (fun a b => a.partition.index < b.partition.index) ∧
        ((∃ win firmware, w.Boots win firmware) ↔
          ∃ pb ∈ parts, ∃ e ∈ pb.scan.entries, e.windows ≠ none) ∧
        (w.Declares → detections parts = []) ∧
        (¬(∃ win firmware, w.Boots win firmware) → detections parts = []) ∧
        (¬w.Declares → ∀ win firmware, w.Boots win firmware →
          ∃ index, Hosts win w.biosPart index ∧
            detections parts = [(index, detectionEntry win firmware)]) := by
  rcases bootable_cases readers disk with
    ⟨e, _, hwalk, hboot⟩ | ⟨table, w, hscan, hwalk, hsurveys, hboot⟩
  · rw [hwalk]
    exact hboot
  have hincreasing := parts_increasing hscan hsurveys
  have hnothing : w.detection = none → detections w.listing = [] := by
    intro hnone
    rw [detections_listing hsurveys, List.flatMap_eq_nil_iff]
    intro pb _
    simp [Walk.extra, hnone]
  rw [hwalk]
  refine ⟨w.listing, hboot, ?_, lists_windows_iff hscan hsurveys, ?_, ?_, ?_⟩
  · exact List.Pairwise.filter _ (List.pairwise_map.mpr hincreasing)
  · intro hdeclares
    apply hnothing
    by_contra hsome
    obtain ⟨d, hd⟩ := Option.ne_none_iff_exists'.mp hsome
    exact (detection_eq_some_iff.mp hd).1 hdeclares
  · intro hnoboot
    apply hnothing
    by_contra hsome
    obtain ⟨d, hd⟩ := Option.ne_none_iff_exists'.mp hsome
    obtain ⟨_, win, firmware, hboots, _⟩ := detection_eq_some_iff.mp hd
    exact hnoboot ⟨win, firmware, hboots⟩
  · intro hdeclares win firmware hboots
    obtain ⟨pb, hpb, hhost, hhosts⟩ := exists_host hscan hsurveys hboots
    have hdetection := detection_eq_some_iff.mpr ⟨hdeclares, win, firmware, hboots, hhost, rfl⟩
    refine ⟨pb.partition.index, hhosts, ?_⟩
    rw [detections_listing hsurveys]
    apply flatMap_index hincreasing hpb
    intro a _
    simp only [Walk.extra, hdetection]
    by_cases ha : a.partition.index = pb.partition.index
    · simp [Option.filter, ha]
    · simp [Option.filter, ha]

end BootExtractor.Guest
