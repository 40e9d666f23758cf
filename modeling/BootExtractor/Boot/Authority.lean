import BootExtractor.Boot.Tracking

/-!
# When a stale config hides a kernel

The authoritative source is chosen before its stale entries are dropped. If all of
its entries are stale the scan is empty, whatever the other sources have.
-/

namespace BootExtractor.Boot

/-- The kernel of the entry is on the filesystem. -/
def Live (fs : FileSystem) (e : BootEntry) : Prop := ∃ k, e.kernel = some k ∧ fs.exists k = true

/-- The entries of all sources: every readable grub.cfg, BLS directory and extlinux or
syslinux config, and the pairing of kernels by version. -/
def sourceEntries (fs : FileSystem) : List BootEntry :=
  (grubScans fs).flatMap (·.entries) ++ (blsScans fs).flatMap (·.1.entries) ++
    (extlinuxScans fs).flatMap (·.entries) ++ (fallbackScan fs).1

/-- Some source has an entry whose kernel is there. -/
def HasLive (fs : FileSystem) : Prop := ∃ e ∈ sourceEntries fs, Live fs e

/-- The entries of the source that precedence picks: BLS if a grub.cfg has the marker, then
GRUB, BLS and extlinux, and the pairing of kernels if none of them has entries. -/
inductive Picked (fs : FileSystem) : List BootEntry → Prop where
  | marked {b : Bls.BlsScan} (hmark : (consult fs).usesBls = true)
      (hbls : (consult fs).bls = some b) : Picked fs b.entries
  | grub {g : Grub.GrubScan} (hmark : (consult fs).usesBls = false ∨ (consult fs).bls = none)
      (hgrub : (consult fs).grub = some g) : Picked fs g.entries
  | bls {b : Bls.BlsScan} (hmark : (consult fs).usesBls = false)
      (hgrub : (consult fs).grub = none) (hbls : (consult fs).bls = some b) : Picked fs b.entries
  | extlinux {e : Extlinux.ExtlinuxScan} (hgrub : (consult fs).grub = none)
      (hbls : (consult fs).bls = none) (hext : (consult fs).extlinux = some e) :
      Picked fs e.entries
  | fallback (hgrub : (consult fs).grub = none) (hbls : (consult fs).bls = none)
      (hext : (consult fs).extlinux = none) : Picked fs (fallbackScan fs).1

/-- Some source has a live entry, but the source that precedence picks has none, and no
entry that starts another boot manager either. -/
def Hidden (fs : FileSystem) : Prop :=
  HasLive fs ∧ ∃ picked, Picked fs picked ∧ ∀ e ∈ picked, e.chainloader = none ∧ ¬Live fs e

/-- Precedence picks the entries that the scan chooses, and no others. -/
theorem picked_iff (fs : FileSystem) (picked : List BootEntry) :
    Picked fs picked ↔ picked = (choose fs (consult fs)).1 := by
  unfold choose
  constructor
  · rintro (⟨hmark, hbls⟩ | ⟨hmark, hgrub⟩ | ⟨hmark, hgrub, hbls⟩ | ⟨hgrub, hbls, hext⟩ |
      ⟨hgrub, hbls, hext⟩)
    · simp [hmark, hbls]
    · rcases hmark with hmark | hbls
      · simp [hmark, hgrub]
      · simp [hbls, hgrub]
    · simp [hmark, hgrub, hbls]
    · simp [hgrub, hbls, hext]
    · simp [hgrub, hbls, hext]
  · rintro rfl
    cases hmark : (consult fs).usesBls <;> cases hgrub : (consult fs).grub <;>
      cases hbls : (consult fs).bls <;> cases hext : (consult fs).extlinux <;>
      simp only [if_true, if_false, Bool.false_eq_true]
    all_goals first
      | exact .marked hmark hbls
      | exact .grub (Or.inl hmark) hgrub
      | exact .grub (Or.inr hbls) hgrub
      | exact .bls hmark hgrub hbls
      | exact .extlinux hgrub hbls hext
      | exact .fallback hgrub hbls hext

/-- The test for a kernel that is there. -/
private theorem live_iff {fs : FileSystem} {e : BootEntry} :
    Live fs e ↔ e.kernel.any fs.exists = true := by
  unfold Live
  cases e.kernel with
  | none => simp
  | some k => simp

/-- The filter drops an entry exactly if it has no chainloader and no kernel that is there. -/
theorem survives_iff {fs : FileSystem} {e : BootEntry} :
    survives fs e = true ↔ ¬(e.chainloader = none ∧ ¬Live fs e) := by
  rw [live_iff, survives, Bool.or_eq_true]
  cases e.chainloader with
  | none => simp
  | some t => simp

/-- A scan has an entry exactly if the authoritative source has a surviving one. -/
theorem scan_nonempty_iff (fs : FileSystem) :
    (∃ s, scan fs = .ok s ∧ s.entries ≠ []) ↔
      ∃ e ∈ (choose fs (consult fs)).1, survives fs e = true := by
  rw [scan_eq]
  constructor
  · rintro ⟨s, hs, hne⟩
    cases hs
    obtain ⟨e, he⟩ := List.exists_mem_of_ne_nil _ hne
    exact ⟨e, mem_scanned.mp he⟩
  · rintro ⟨e, he⟩
    exact ⟨_, rfl, List.ne_nil_of_mem (mem_scanned.mpr he)⟩

/-- A live entry of any source makes the scan return an entry, unless the source that
precedence picks is stale as a whole. -/
theorem scan_finds_live_iff (fs : FileSystem) :
    (HasLive fs → ∃ s, scan fs = .ok s ∧ s.entries ≠ []) ↔ ¬Hidden fs := by
  rw [scan_nonempty_iff, Hidden, not_and]
  constructor
  · rintro h hlive ⟨picked, hpicked, hdead⟩
    obtain ⟨e, he, hs⟩ := h hlive
    rw [← (picked_iff fs picked).mp hpicked] at he
    exact survives_iff.mp hs (hdead e he)
  · intro h hlive
    by_contra hno
    refine h hlive ⟨_, (picked_iff fs _).mpr rfl, fun e he => ?_⟩
    by_contra hlives
    exact hno ⟨e, he, survives_iff.mpr hlives⟩

/-- A grub.cfg whose only kernel was removed, next to a newer kernel. -/
def staleGrub : FileSystem where
  readDir p :=
    if p = "/boot".toList then .ok [⟨"vmlinuz-6.1".toList, .file⟩] else .error (.notFound p)
  readFile p :=
    if p = "/boot/grub/grub.cfg".toList then
      .ok (Utf8.encode "menuentry 'old' \x7b\nlinux /boot/vmlinuz-5.10\n\x7d\n".toList)
    else .error (.notFound p)
  «exists» p := p = "/boot/grub/grub.cfg".toList || p = "/boot/vmlinuz-6.1".toList
  readPrefix p _ := .error (.notFound p)
  fileSize p := .error (.notFound p)
  readLink _ := none

/-- The entry that the pairing finds. -/
def newerKernel : BootEntry where
  kernel := some "/boot/vmlinuz-6.1".toList
  version := some "6.1".toList

set_option maxRecDepth 4000 in
/-- The newer kernel is found by the pairing, and the scan is empty. -/
theorem stale_grub_hides_kernel :
    ¬(HasLive staleGrub → ∃ s, scan staleGrub = .ok s ∧ s.entries ≠ []) := by
  have hlive : HasLive staleGrub := by
    have hfallback : (fallbackScan staleGrub).1 = [newerKernel] := rfl
    have hmem : newerKernel ∈ (fallbackScan staleGrub).1 := by
      rw [hfallback]
      exact List.mem_singleton_self _
    exact ⟨newerKernel, List.mem_append_right _ hmem, "/boot/vmlinuz-6.1".toList, rfl, rfl⟩
  have hscan : scan staleGrub = .ok ⟨[], none, ["/boot/grub/grub.cfg".toList]⟩ := rfl
  intro h
  obtain ⟨s, hs, hne⟩ := h hlive
  rw [hscan] at hs
  cases hs
  exact hne rfl

end BootExtractor.Boot
