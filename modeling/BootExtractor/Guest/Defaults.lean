import BootExtractor.Guest.Listing

/-!
# The default through the pipeline

A scan and the sweep of the listing are two passes of the same kind over the entries
of the authoritative source. So they are one pass, and the default of the source goes
where its entry goes.
-/

namespace BootExtractor.Guest

open Boot Fsys Renumber

/-- What becomes of a part is one pass over its authoritative source. -/
theorem found_finish {w : Walk} {pb : PartitionBoot}
    (h : pb.found = renumber (stays pb.fs) (authority pb.fs)) :
    (w.finish pb).found =
      ((renumber (fun e => (stays pb.fs e).bind w.sweep) (authority pb.fs)).1 ++ w.extra pb,
        (renumber (fun e => (stays pb.fs e).bind w.sweep) (authority pb.fs)).2.or
          (if w.extra pb = [] then none
          else some
            (renumber (fun e => (stays pb.fs e).bind w.sweep) (authority pb.fs)).1.length)) := by
  rw [← renumber_renumber, ← h]
  rfl

/-- Nothing is added to a part, or the entry of an install that no config declares. -/
theorem extra_cases (w : Walk) (pb : PartitionBoot) :
    w.extra pb = [] ∨ ∃ win firmware, w.extra pb = [detectionEntry win firmware] := by
  unfold Walk.extra
  cases hd : w.detection.filter fun d => pb.partition.index == d.1 with
  | none => exact Or.inl rfl
  | some d =>
    have hdetection : w.detection = some d := (Option.filter_eq_some_iff.mp hd).1
    unfold Walk.detection at hdetection
    split at hdetection
    · cases hdetection
    · obtain ⟨win, _, hdetection⟩ := Option.bind_eq_some_iff.mp hdetection
      obtain ⟨firmware, _, hdetection⟩ := Option.bind_eq_some_iff.mp hdetection
      obtain ⟨index, _, rfl⟩ := Option.map_eq_some_iff.mp hdetection
      exact Or.inr ⟨win, firmware, rfl⟩

/-- The default is tracked through the whole pipeline: through the sweep of stale entries in
a scan, and through both sweeps and the added entry in a listing. No keep mask is too short,
as neither of them fails on that account. -/
theorem default_tracked (readers : Readers) (disk : Device) :
    (∀ fs, (choose fs (consult fs)).Valid ∧ ∃ s, Boot.scan fs = .ok s ∧
      Tracks (surviving fs) (choose fs (consult fs)) [] (s.entries, s.default)) ∧
    match walk readers disk true with
    | .error f => f.IsErr ∧ bootable readers disk = .error f
    | .ok w => ∃ parts, bootable readers disk = .ok parts ∧ ∀ pb ∈ parts,
        pb.scan.entries ≠ [] ∧ ∃ extra,
          (extra = [] ∨ ∃ win firmware, extra = [detectionEntry win firmware]) ∧
          Tracks (fun e => (stays pb.fs e).bind w.sweep) (authority pb.fs) extra
            (pb.scan.entries, pb.scan.default) := by
  constructor
  · intro fs
    exact ⟨choose_valid fs, scanned fs, scan_eq fs, tracks_renumber _ _⟩
  · rcases bootable_cases readers disk with
      ⟨e, _, hwalk, hboot⟩ | ⟨table, w, _, hwalk, hsurveys, hboot⟩
    · rw [hwalk]
      exact ⟨trivial, hboot⟩
    · rw [hwalk]
      refine ⟨w.listing, hboot, ?_⟩
      intro pb hpb
      obtain ⟨pb₀, h₀, rfl, hne⟩ := mem_listing.mp hpb
      refine ⟨hne, w.extra pb₀, extra_cases w pb₀, ?_⟩
      have hfound := found_finish (w := w) (found_of_mem_parts hsurveys h₀)
      simp only [PartitionBoot.found] at hfound
      rw [hfound]
      exact tracks_append _ _ _

end BootExtractor.Guest
