import BootExtractor.Part.Scan

/-!
# Partition numbers

The scanners number partitions by slot and along the chain of extended records, so
that the numbers on a disk increase and no two partitions share one.
-/

namespace BootExtractor.Part

/-- Partitions in order of their numbers, all of them from `lo` up to below `hi`. -/
structure Numbered (lo hi : Nat) (ps : List Partition) : Prop where
  increasing : ps.Pairwise fun p q => p.index < q.index
  range : ∀ p ∈ ps, lo ≤ p.index ∧ p.index < hi

namespace Numbered

variable {lo mid hi : Nat} {ps qs : List Partition}

/-- No partition at all is within any range. -/
theorem nil : Numbered lo hi [] := ⟨List.Pairwise.nil, by simp⟩

private theorem singleton {p : Partition} (hlo : lo ≤ p.index) (hhi : p.index < hi) :
    Numbered lo hi [p] := by
  constructor
  · exact List.pairwise_singleton _ _
  · intro q hq
    rw [List.mem_singleton.mp hq]
    exact ⟨hlo, hhi⟩

/-- Lists numbered within ranges that follow each other. -/
theorem append (hp : Numbered lo mid ps) (hq : Numbered mid hi qs) (hle : lo ≤ mid)
    (hmid : mid ≤ hi) : Numbered lo hi (ps ++ qs) := by
  constructor
  · rw [List.pairwise_append]
    refine ⟨hp.increasing, hq.increasing, fun p hpm q hqm => ?_⟩
    exact Nat.lt_of_lt_of_le (hp.range p hpm).2 (hq.range q hqm).1
  · intro p hpm
    rcases List.mem_append.mp hpm with h | h
    · have := hp.range p h
      omega
    · have := hq.range p h
      omega

/-- The range may be widened. -/
theorem mono {lo' hi' : Nat} (h : Numbered lo hi ps) (hlo : lo' ≤ lo) (hhi : hi ≤ hi') :
    Numbered lo' hi' ps := by
  refine ⟨h.increasing, fun p hp => ?_⟩
  have := h.range p hp
  omega

/-- Numbering by the position in a list. -/
theorem filterMap_range {f : Nat → Option Partition} {n : Nat}
    (hf : ∀ i p, f i = some p → p.index = i + 1) :
    Numbered 1 (n + 1) ((List.range n).filterMap f) := by
  constructor
  · apply List.Pairwise.filterMap f _ List.pairwise_lt_range
    intro i j hij p hp q hq
    rw [hf i p hp, hf j q hq]
    omega
  · intro p hp
    obtain ⟨i, hi, hfi⟩ := List.mem_filterMap.mp hp
    have := List.mem_range.mp hi
    rw [hf i p hfi]
    omega

end Numbered

/-- A GPT partition has the number of its slot. -/
theorem Gpt.index_partitionOf {e : Bytes} {i : Nat} {p : Partition}
    (h : Gpt.partitionOf e i = some p) : p.index = i + 1 := by
  simp only [Gpt.partitionOf] at h
  split at h
  · cases h
  · split at h
    · cases h
    · cases h
      rfl

/-- A GPT numbers its partitions by slot. -/
theorem Gpt.numbered_scan {disk : Device} {table : PartitionTable}
    (h : Gpt.scan disk = .ok (some table)) : Numbered 1 4097 table.partitions := by
  unfold Gpt.scan at h
  split at h
  · cases h
  cases hheader : disk.readAt sector 92 with
  | error e =>
    rw [hheader] at h
    cases h
  | ok header =>
    simp only [hheader, bind, Except.bind] at h
    split at h
    · cases h
    split at h
    · cases h
    rename_i hplausible
    split at h
    · cases h
    · cases h
      apply (Numbered.filterMap_range fun i p => Gpt.index_partitionOf).mono (Nat.le_refl _)
      omega

namespace Mbr

/-- A primary has the number of its slot. -/
theorem index_primary {disksig : Nat} {slot : Nat × RawEntry} {p : Partition}
    (h : primary disksig slot = some p) : p.index = slot.1 + 1 := by
  simp only [primary] at h
  split at h
  · cases h
  split at h
  · cases h
  split at h
  · cases h
  · cases h
    rfl

/-- Numbering a list is going through its positions. -/
theorem zipIdx_eq_map_range {α : Type} [Inhabited α] (xs : List α) :
    xs.zipIdx = (List.range xs.length).map fun i => (xs[i]!, i) := by
  apply List.ext_getElem
  · simp
  · intro i h1 h2
    have hi : i < xs.length := by simpa using h1
    simp [hi]

private theorem length_parseEntries {sec : Bytes} {entries : List RawEntry}
    (h : parseEntries sec = some entries) : entries.length = 4 := by
  unfold parseEntries at h
  split at h
  · cases h
  · cases h
    rfl

/-- The logical partition of a record takes one number, or none. -/
theorem numbered_logical (disksig index ebrOffset : Nat) (data : RawEntry) :
    Numbered index (index + (logical disksig index ebrOffset data).toList.length)
      (logical disksig index ebrOffset data).toList := by
  unfold logical
  split
  · exact .singleton (Nat.le_refl _) (Nat.lt_succ_self _)
  · exact .nil

private theorem length_logical_le (disksig index ebrOffset : Nat) (data : RawEntry) :
    (logical disksig index ebrOffset data).toList.length ≤ 1 := by
  unfold logical
  split
  · exact Nat.le_refl _
  · exact Nat.zero_le _

/-- The walk along the chain counts up from the number it is given. -/
theorem numbered_walkEbr {disk : Device} {disksig extBase fuel ebrOffset index : Nat}
    {ps : List Partition} (h : walkEbr disk disksig extBase fuel ebrOffset index = .ok ps) :
    Numbered index (index + fuel) ps := by
  induction fuel generalizing ebrOffset index ps with
  | zero =>
    cases h
    exact .nil
  | succ fuel ih =>
    rw [walkEbr] at h
    split at h
    · cases h
      exact .nil
    split at h
    · cases h
    split at h
    · rename_i data link more hentries
      have hlen := length_logical_le disksig index ebrOffset data
      have hfirst := numbered_logical disksig index ebrOffset data
      simp only at h
      split at h
      · cases hrest : walkEbr disk disksig extBase fuel
            (wrappingAdd extBase (wrappingMul link.startLba sector))
            (index + (logical disksig index ebrOffset data).toList.length) with
        | error e =>
          rw [hrest] at h
          cases h
        | ok rest =>
          rw [hrest] at h
          cases h
          apply (hfirst.append (ih hrest) (by omega) (by omega)).mono (Nat.le_refl _)
          omega
      · cases h
        apply hfirst.mono (Nat.le_refl _)
        omega
    · cases h
      exact .nil

/-- Logical partitions are numbered from 5 on. -/
private theorem numbered_logicals {disk : Device} {disksig : Nat} {entries : List RawEntry}
    {ps : List Partition} (h : logicals disk disksig entries = .ok ps) :
    Numbered 5 133 ps := by
  unfold logicals at h
  split at h
  · cases h
    exact .nil
  · exact numbered_walkEbr h

/-- Primaries are numbered from 1 to 4. -/
private theorem numbered_primaries (disksig : Nat) {entries : List RawEntry}
    (hlen : entries.length = 4) :
    Numbered 1 5 (entries.zipIdx.filterMap fun (e, i) => primary disksig (i, e)) := by
  have : Inhabited RawEntry := ⟨⟨0, 0, 0⟩⟩
  rw [zipIdx_eq_map_range, List.filterMap_map, hlen]
  exact .filterMap_range fun i p hp => index_primary hp

/-- An MBR numbers the primary slots from one and the logical partitions from five. -/
theorem numbered_scan {disk : Device} {table : PartitionTable}
    (h : Mbr.scan disk = .ok (some table)) : Numbered 1 133 table.partitions := by
  unfold Mbr.scan at h
  split at h
  · cases h
  cases hsec : disk.readAt 0 512 with
  | error e =>
    rw [hsec] at h
    cases h
  | ok sec =>
    simp only [hsec, bind, Except.bind] at h
    split at h
    · cases h
    rename_i entries hentries
    split at h
    · cases h
    split at h
    · cases h
    rename_i rest hrest
    split at h
    · cases h
    · cases h
      exact (numbered_primaries _ (length_parseEntries hentries)).append
        (numbered_logicals hrest) (by decide) (by decide)

end Mbr

/-- The numbers of the partitions of a disk increase, and each is a machine integer. -/
theorem numbered_scan {disk : Device} {table : PartitionTable} (h : scan disk = .ok table) :
    Numbered 1 (2 ^ 64) table.partitions := by
  unfold scan at h
  cases hgpt : Gpt.scan disk with
  | error e =>
    rw [hgpt] at h
    cases h
  | ok gpt =>
    cases gpt with
    | some t =>
      rw [hgpt] at h
      cases h
      exact (Gpt.numbered_scan hgpt).mono (Nat.le_refl _) (by decide)
    | none =>
      cases hmbr : Mbr.scan disk with
      | error e =>
        simp [hgpt, hmbr, bind, Except.bind] at h
      | ok mbr =>
        cases mbr with
        | some t =>
          simp only [hgpt, hmbr, bind, Except.bind] at h
          cases h
          exact (Mbr.numbered_scan hmbr).mono (Nat.le_refl _) (by decide)
        | none =>
          simp only [hgpt, hmbr, bind, Except.bind] at h
          cases h
          have hone : 1 < 2 ^ 64 := by decide
          exact .singleton (Nat.le_refl _) hone

end BootExtractor.Part
