import BootExtractor.Boot.Scan
import BootExtractor.Boot.VercmpOrder
import BootExtractor.Lib.Positions

/-!
# Pairing kernels with ramdisks

Without a config the file names say what belongs together: every kernel image of a
directory is one entry, with the first ramdisk of its version in that directory, the
newest first, and the links that the distribution maintains name the default.
-/

namespace BootExtractor.Boot

/-- A kernel image and its version. -/
inductive KernelName : Str → Str → Prop where
  | vmlinuz (v : Str) : KernelName ("vmlinuz-".toList ++ v) v
  | image (v : Str) : KernelName ("Image-".toList ++ v) v

/-- A name in front of any number of `.img` endings. -/
def Stripped (name v : Str) : Prop :=
  (∃ k, name = v ++ (List.replicate k ".img".toList).flatten) ∧ ¬ ".img".toList <:+ v

/-- An initial ramdisk and its version. -/
inductive RamdiskName : Str → Str → Prop where
  | initramfs {rest v : Str} (h : Stripped rest v) : RamdiskName ("initramfs-".toList ++ rest) v
  | initrdImg (v : Str) : RamdiskName ("initrd.img-".toList ++ v) v
  | initrd {rest v : Str} (h : Stripped rest v) : RamdiskName ("initrd-".toList ++ rest) v

/-- What a directory lists; nothing if it cannot be read. -/
def listed (fs : FileSystem) (bootPrefix : Str) : List DirEntry :=
  match fs.readDir (if bootPrefix = [] then "/".toList else bootPrefix) with
  | .error _ => []
  | .ok listing => listing

/-- The version of a kernel image that is a boot candidate. -/
def CandidateOf (f : DirEntry) (v : Str) : Prop :=
  f.kind ≠ .dir ∧ KernelName f.name v ∧ ¬ "rescue".toList <:+: v ∧ ¬ "kdump".toList <:+: v

/-- A ramdisk of this version. -/
def RamdiskOf (f : DirEntry) (v : Str) : Prop := f.kind ≠ .dir ∧ RamdiskName f.name v

/-- The first ramdisk of this version among the files, or none. -/
inductive FirstRamdisk (bootPrefix v : Str) (files : List DirEntry) : List Str → Prop where
  | found {before after : List DirEntry} {f : DirEntry} (hfiles : files = before ++ f :: after)
      (hf : RamdiskOf f v) (hbefore : ∀ g ∈ before, ¬ RamdiskOf g v) :
      FirstRamdisk bootPrefix v files [bootPrefix ++ '/' :: f.name]
  | none (h : ∀ f ∈ files, ¬ RamdiskOf f v) : FirstRamdisk bootPrefix v files []

/-- The entry of a kernel image: its path and version, and the first ramdisk of its version
in the same directory. -/
def EntryOf (fs : FileSystem) (image : Str × DirEntry) (e : BootEntry) : Prop :=
  ∃ v initrd, CandidateOf image.2 v ∧ FirstRamdisk image.1 v (listed fs image.1) initrd ∧
    e = { kernel := some (image.1 ++ '/' :: image.2.name), initrd := initrd, version := some v,
          source := .fallback }

/-- A kernel image that is a boot candidate. -/
def Candidate (f : DirEntry) : Prop := ∃ v, CandidateOf f v

/-- The entry starts the kernel that a link with this target names, by base name. -/
def SameBase (e : BootEntry) (target : Str) : Prop :=
  ∃ kernel, e.kernel = some kernel ∧ Str.afterLast '/' kernel = Str.afterLast '/' target

/-- The link can be read, and this is the first entry with the base name of its target. -/
def LinkNames (fs : FileSystem) (entries : List BootEntry) (link : Str) (i : Nat) : Prop :=
  ∃ target e, fs.readLink link = some target ∧ entries[i]? = some e ∧ SameBase e target ∧
    ∀ j e', j < i → entries[j]? = some e' → ¬ SameBase e' target

/-- The default by the links, or else the first entry. -/
inductive FallbackDefault (fs : FileSystem) (entries : List BootEntry) : Option Nat → Prop where
  | root {i : Nat} (h : LinkNames fs entries "/vmlinuz".toList i) :
      FallbackDefault fs entries (some i)
  | boot {i : Nat} (hroot : ∀ j, ¬ LinkNames fs entries "/vmlinuz".toList j)
      (h : LinkNames fs entries "/boot/vmlinuz".toList i) : FallbackDefault fs entries (some i)
  | first (hroot : ∀ j, ¬ LinkNames fs entries "/vmlinuz".toList j)
      (hboot : ∀ j, ¬ LinkNames fs entries "/boot/vmlinuz".toList j) (hne : entries ≠ []) :
      FallbackDefault fs entries (some 0)
  | none (h : entries = []) : FallbackDefault fs entries none

/-- A prefix that differs from the text's own at some place is not there. -/
theorem stripPrefix_other {p q : Str} (i : Nat) (rest : Str) (hp : i < p.length)
    (hq : i < q.length) (h : p[i]? ≠ q[i]?) : Str.stripPrefix p (q ++ rest) = none := by
  refine if_neg ?_
  rintro ⟨t, ht⟩
  have hget := congrArg (·[i]?) ht
  simp only [List.getElem?_append_left hp, List.getElem?_append_left hq] at hget
  exact h hget

/-- The version that is read off is that of a kernel name. -/
theorem kernelVersion_eq_some {name v : Str} : kernelVersion name = some v ↔ KernelName name v := by
  unfold kernelVersion
  constructor
  · intro h
    rcases Option.or_eq_some_iff.mp h with h | ⟨-, h⟩
    · obtain rfl := Str.stripPrefix_eq_some.mp h
      exact KernelName.vmlinuz v
    · obtain rfl := Str.stripPrefix_eq_some.mp h
      exact KernelName.image v
  · intro h
    cases h with
    | vmlinuz =>
      rw [Str.stripPrefix_append]
      rfl
    | image =>
      rw [stripPrefix_other 0 v (by decide) (by decide) (by decide), Str.stripPrefix_append]
      rfl

/-- A ramdisk is no kernel. -/
private theorem kernelVersion_initr (rest : Str) :
    kernelVersion ("initr".toList ++ rest) = none := by
  rw [kernelVersion, stripPrefix_other 0 rest (by decide) (by decide) (by decide),
    stripPrefix_other 0 rest (by decide) (by decide) (by decide)]
  rfl

/-- Taking off all `.img` endings, by what is left. -/
theorem stripped_iff {name v : Str} :
    Str.trimEndMatches ".img".toList name = v ↔ Stripped name v :=
  Str.trimEndMatches_eq_iff (List.cons_ne_nil _ _)

/-- The version that is read off is that of a ramdisk name. -/
theorem initrdVersion_eq_some {name v : Str} :
    initrdVersion name = some v ↔ RamdiskName name v := by
  unfold initrdVersion
  constructor
  · intro h
    rcases Option.or_eq_some_iff.mp h with h | ⟨-, h⟩
    · rcases Option.or_eq_some_iff.mp h with h | ⟨-, h⟩
      · obtain ⟨rest, hrest, hv⟩ := Option.map_eq_some_iff.mp h
        obtain rfl := Str.stripPrefix_eq_some.mp hrest
        exact RamdiskName.initramfs (stripped_iff.mp hv)
      · obtain rfl := Str.stripPrefix_eq_some.mp h
        exact RamdiskName.initrdImg v
    · obtain ⟨rest, hrest, hv⟩ := Option.map_eq_some_iff.mp h
      obtain rfl := Str.stripPrefix_eq_some.mp hrest
      exact RamdiskName.initrd (stripped_iff.mp hv)
  · intro h
    cases h with
    | initramfs h =>
      rw [Str.stripPrefix_append, Option.map_some, stripped_iff.mpr h]
      rfl
    | initrdImg =>
      rw [stripPrefix_other 5 v (by decide) (by decide) (by decide), Str.stripPrefix_append]
      rfl
    | initrd h =>
      rw [stripPrefix_other 5 _ (by decide) (by decide) (by decide),
        stripPrefix_other 6 _ (by decide) (by decide) (by decide), Str.stripPrefix_append,
        Option.map_some, stripped_iff.mpr h]
      rfl

/-- No ramdisk has the name of a kernel image. -/
theorem kernelVersion_of_ramdisk {name v : Str} (h : RamdiskName name v) :
    kernelVersion name = none := by
  cases h with
  | initramfs => exact kernelVersion_initr ("amfs-".toList ++ _)
  | initrdImg => exact kernelVersion_initr ("d.img-".toList ++ _)
  | initrd => exact kernelVersion_initr ("d-".toList ++ _)

/-- The kernel image that an item is, with its version. -/
def kernelItem (bootPrefix : Str) (f : DirEntry) : Option (Str × Str) :=
  if f.kind = .dir then none
  else (kernelVersion f.name).bind fun v =>
    if !Str.contains v "rescue".toList && !Str.contains v "kdump".toList then
      some (v, bootPrefix ++ '/' :: f.name)
    else none

/-- The ramdisk that an item is, with its version. -/
def ramdiskItem (bootPrefix : Str) (f : DirEntry) : Option (Str × Str) :=
  if f.kind = .dir ∨ (kernelVersion f.name).isSome then none
  else (initrdVersion f.name).map fun v => (v, bootPrefix ++ '/' :: f.name)

/-- An item is added to the kernels or to the ramdisks. -/
theorem Images.add_eq (bootPrefix : Str) (images : Images) (f : DirEntry) :
    images.add bootPrefix f =
      ⟨images.kernels ++ (kernelItem bootPrefix f).toList,
        images.initrds ++ (ramdiskItem bootPrefix f).toList⟩ := by
  unfold Images.add kernelItem ramdiskItem
  by_cases hdir : f.kind = .dir
  · rw [if_pos hdir, if_pos hdir, if_pos (Or.inl hdir), Option.toList_none, List.append_nil,
      List.append_nil]
  · rw [if_neg hdir, if_neg hdir]
    cases hkernel : kernelVersion f.name with
    | some v =>
      have hyes : f.kind = .dir ∨ (some v).isSome = true := Or.inr rfl
      rw [if_pos hyes, Option.bind_some, Option.toList_none, List.append_nil]
      by_cases hv : (!Str.contains v "rescue".toList && !Str.contains v "kdump".toList) = true
      · change (if _ then _ else _) = _
        rw [if_pos hv, if_pos hv, Option.toList_some]
      · change (if _ then _ else _) = _
        rw [if_neg hv, if_neg hv, Option.toList_none, List.append_nil]
    | none =>
      have hno : ¬ (f.kind = .dir ∨ (none : Option Str).isSome = true) := by
        rintro (h | h)
        · exact hdir h
        · cases h
      rw [if_neg hno, Option.bind_none, Option.toList_none, List.append_nil]
      cases hramdisk : initrdVersion f.name with
      | some v => rfl
      | none =>
        rw [Option.map_none, Option.toList_none, List.append_nil]

/-- A listing is sorted into kernels and ramdisks, in its order. -/
theorem Images.foldl_add (bootPrefix : Str) (files : List DirEntry) (images : Images) :
    files.foldl (Images.add bootPrefix) images =
      ⟨images.kernels ++ files.filterMap (kernelItem bootPrefix),
        images.initrds ++ files.filterMap (ramdiskItem bootPrefix)⟩ := by
  induction files generalizing images with
  | nil => simp
  | cons f files ih =>
    rw [List.foldl_cons, ih, Images.add_eq]
    cases hk : kernelItem bootPrefix f <;> cases hr : ramdiskItem bootPrefix f <;>
      simp [hk, hr]

private theorem contains_iff {s p : Str} : Str.contains s p = true ↔ p <:+: s := by
  rw [Str.contains, List.any_eq_true]
  constructor
  · rintro ⟨t, ht, hpre⟩
    exact (List.isPrefixOf_iff_prefix.mp hpre).isInfix.trans ((List.mem_tails ..).mp ht).isInfix
  · intro h
    obtain ⟨t, hpre, hsuf⟩ := List.infix_iff_prefix_suffix.mp h
    exact ⟨t, (List.mem_tails ..).mpr hsuf, List.isPrefixOf_iff_prefix.mpr hpre⟩

/-- The item of a kernel is that of a candidate. -/
theorem kernelItem_eq_some {bootPrefix : Str} {f : DirEntry} {kernel : Str × Str} :
    kernelItem bootPrefix f = some kernel ↔
      CandidateOf f kernel.1 ∧ kernel.2 = bootPrefix ++ '/' :: f.name := by
  obtain ⟨v, path⟩ := kernel
  unfold kernelItem CandidateOf
  rw [← kernelVersion_eq_some, ← contains_iff, ← contains_iff]
  by_cases hdir : f.kind = .dir
  · simp [hdir]
  · rw [if_neg hdir, Option.bind_eq_some_iff]
    constructor
    · rintro ⟨w, hw, h⟩
      split at h
      · rename_i htest
        obtain ⟨rfl, rfl⟩ := Prod.mk.inj (Option.some.inj h)
        simp only [Bool.and_eq_true, Bool.not_eq_true'] at htest
        exact ⟨⟨hdir, hw, Bool.eq_false_iff.mp htest.1, Bool.eq_false_iff.mp htest.2⟩, rfl⟩
      · cases h
    · rintro ⟨⟨-, hv, hrescue, hkdump⟩, rfl⟩
      refine ⟨v, hv, if_pos ?_⟩
      rw [Bool.eq_false_iff.mpr hrescue, Bool.eq_false_iff.mpr hkdump]
      rfl

/-- The item of a ramdisk is that of its file. -/
theorem ramdiskItem_eq_some {bootPrefix : Str} {f : DirEntry} {ramdisk : Str × Str} :
    ramdiskItem bootPrefix f = some ramdisk ↔
      RamdiskOf f ramdisk.1 ∧ ramdisk.2 = bootPrefix ++ '/' :: f.name := by
  obtain ⟨v, path⟩ := ramdisk
  unfold ramdiskItem RamdiskOf
  constructor
  · intro h
    split at h
    · cases h
    · rename_i hno
      obtain ⟨w, hw, he⟩ := Option.map_eq_some_iff.mp h
      obtain ⟨rfl, rfl⟩ := Prod.mk.inj he
      exact ⟨⟨fun hdir => hno (Or.inl hdir), initrdVersion_eq_some.mp hw⟩, rfl⟩
  · rintro ⟨⟨hdir, hv⟩, rfl⟩
    have hkernel := kernelVersion_of_ramdisk hv
    rw [hkernel, initrdVersion_eq_some.mpr hv, if_neg (by simp [hdir])]
    rfl

/-- The search among the ramdisks finds the first one in the listing. -/
theorem firstRamdisk (bootPrefix v : Str) (files : List DirEntry) :
    FirstRamdisk bootPrefix v files
      (((files.filterMap (ramdiskItem bootPrefix)).find? (·.1 == v)).map Prod.snd).toList := by
  rw [List.find?_filterMap]
  have htest : ∀ f, ((ramdiskItem bootPrefix f).any (·.1 == v)) = true ↔ RamdiskOf f v := by
    intro f
    rw [Option.any_eq_true]
    constructor
    · rintro ⟨ramdisk, hr, hv⟩
      exact beq_iff_eq.mp hv ▸ (ramdiskItem_eq_some.mp hr).1
    · intro h
      exact ⟨(v, bootPrefix ++ '/' :: f.name), ramdiskItem_eq_some.mpr ⟨h, rfl⟩, beq_self_eq_true v⟩
  cases hfind : files.find? fun f => (ramdiskItem bootPrefix f).any (·.1 == v) with
  | none =>
    refine FirstRamdisk.none fun f hf h => ?_
    exact List.find?_eq_none.mp hfind f hf ((htest f).mpr h)
  | some f =>
    obtain ⟨hf, before, after, hfiles, hbefore⟩ := List.find?_eq_some_iff_append.mp hfind
    have hramdisk := (htest f).mp hf
    have hitem : ramdiskItem bootPrefix f = some (v, bootPrefix ++ '/' :: f.name) :=
      ramdiskItem_eq_some.mpr ⟨hramdisk, rfl⟩
    rw [Option.bind_some, hitem]
    refine FirstRamdisk.found hfiles hramdisk fun g hg h => ?_
    have hfalse := hbefore g hg
    rw [(htest g).mpr h] at hfalse
    cases hfalse

/-- Items that pass a test, beside what they give. -/
theorem forall₂_filterMap {α β : Type} {P : α → Prop} [DecidablePred P] {g : α → Option β}
    {R : α → β → Prop} (hP : ∀ a, P a ↔ (g a).isSome = true) (hR : ∀ a b, g a = some b → R a b)
    (l : List α) : List.Forall₂ R (l.filter (P ·)) (l.filterMap g) := by
  induction l with
  | nil => exact List.Forall₂.nil
  | cons a l ih =>
    cases hg : g a with
    | none =>
      have hnot : ¬ P a := fun h => by
        have hsome := (hP a).mp h
        rw [hg] at hsome
        cases hsome
      rw [List.filter_cons_of_neg (by simpa using hnot), List.filterMap_cons_none hg]
      exact ih
    | some b =>
      have hyes : P a := (hP a).mpr (by rw [hg]; rfl)
      rw [List.filter_cons_of_pos (by simpa using hyes), List.filterMap_cons_some hg]
      exact List.Forall₂.cons (hR a b hg) ih

/-- The candidates are the items with a kernel. -/
theorem candidate_iff (bootPrefix : Str) (f : DirEntry) :
    Candidate f ↔ (kernelItem bootPrefix f).isSome = true := by
  rw [Option.isSome_iff_exists]
  constructor
  · rintro ⟨v, h⟩
    exact ⟨(v, bootPrefix ++ '/' :: f.name), kernelItem_eq_some.mpr ⟨h, rfl⟩⟩
  · rintro ⟨kernel, h⟩
    exact ⟨kernel.1, (kernelItem_eq_some.mp h).1⟩

instance : DecidablePred Candidate := fun f => decidable_of_iff _ (candidate_iff [] f).symm

/-- The boot candidates of the directories, with the prefixes of their paths. -/
def candidates (fs : FileSystem) : List (Str × DirEntry) :=
  bootPrefixes.flatMap fun p => ((listed fs p).filter (Candidate ·)).map (p, ·)

/-- Every candidate of a directory gives its entry, in the order of the listing. -/
theorem forall₂_fallbackDir (fs : FileSystem) (bootPrefix : Str) :
    List.Forall₂ (EntryOf fs) (((listed fs bootPrefix).filter (Candidate ·)).map (bootPrefix, ·))
      (fallbackDir fs bootPrefix) := by
  have hdir : fallbackDir fs bootPrefix =
      ((listed fs bootPrefix).filterMap (kernelItem bootPrefix)).map
        (Images.pair ⟨[], (listed fs bootPrefix).filterMap (ramdiskItem bootPrefix)⟩) := by
    unfold fallbackDir listed
    cases fs.readDir (if bootPrefix = [] then "/".toList else bootPrefix) with
    | error e => rfl
    | ok files =>
      simp only [Images.foldl_add, List.nil_append]
      rfl
  rw [hdir, List.forall₂_map_left_iff, List.forall₂_map_right_iff]
  refine forall₂_filterMap (candidate_iff bootPrefix) ?_ _
  intro f kernel hf
  obtain ⟨hcandidate, hpath⟩ := kernelItem_eq_some.mp hf
  refine ⟨kernel.1, _, hcandidate, firstRamdisk bootPrefix kernel.1 _, ?_⟩
  rw [Images.pair, hpath]

/-- The directories give the entries of their candidates, one after the other. -/
theorem forall₂_fallbackDirs (fs : FileSystem) (prefixes : List Str) :
    List.Forall₂ (EntryOf fs)
      (prefixes.flatMap fun p => ((listed fs p).filter (Candidate ·)).map (p, ·))
      (prefixes.flatMap (fallbackDir fs)) := by
  induction prefixes with
  | nil => exact List.Forall₂.nil
  | cons p prefixes ih =>
    rw [List.flatMap_cons, List.flatMap_cons]
    exact List.rel_append (forall₂_fallbackDir fs p) ih

/-- A link names the entry that the search for its base name finds. -/
theorem linkedEntry_eq_some {fs : FileSystem} {entries : List BootEntry} {link : Str} {i : Nat} :
    linkedEntry fs entries link = some i ↔ LinkNames fs entries link i := by
  have htest : ∀ (target : Str) (e : BootEntry),
      (e.kernel.map (Str.afterLast '/') == some (Str.afterLast '/' target)) = true ↔
        SameBase e target := by
    intro target e
    rw [beq_iff_eq, Option.map_eq_some_iff, SameBase]
  unfold linkedEntry LinkNames
  rw [Option.bind_eq_some_iff]
  constructor
  · rintro ⟨target, htarget, hfind⟩
    obtain ⟨hi, hbase, hfirst⟩ := List.findIdx?_eq_some_iff_getElem.mp hfind
    refine ⟨target, entries[i], htarget, List.getElem?_eq_getElem hi,
      (htest target _).mp hbase, ?_⟩
    intro j e' hj he' hsame
    obtain ⟨hjlt, rfl⟩ := List.getElem?_eq_some_iff.mp he'
    exact hfirst j hj ((htest target _).mpr hsame)
  · rintro ⟨target, e, htarget, he, hbase, hfirst⟩
    refine ⟨target, htarget, Positions.findIdx?_eq_first he ((htest target e).mpr hbase) ?_⟩
    intro j e' he' hsame
    exact Nat.le_of_not_lt fun hlt => hfirst j e' hlt he' ((htest target e').mp hsame)

/-- The default is the entry that a link names, or else the first one. -/
theorem fallbackDefault (fs : FileSystem) (entries : List BootEntry) :
    FallbackDefault fs entries
      (orFirst (["/vmlinuz".toList, "/boot/vmlinuz".toList].findSome? (linkedEntry fs entries))
        entries) := by
  have hnone : ∀ {link : Str}, linkedEntry fs entries link = none →
      ∀ j, ¬ LinkNames fs entries link j := by
    intro link h j hj
    rw [linkedEntry_eq_some.mpr hj] at h
    cases h
  cases hroot : linkedEntry fs entries "/vmlinuz".toList with
  | some i =>
    rw [List.findSome?_cons_of_isSome (by rw [hroot]; rfl), hroot]
    exact FallbackDefault.root (linkedEntry_eq_some.mp hroot)
  | none =>
    rw [List.findSome?_cons_of_isNone (by rw [hroot]; rfl)]
    cases hboot : linkedEntry fs entries "/boot/vmlinuz".toList with
    | some i =>
      rw [List.findSome?_cons_of_isSome (by rw [hboot]; rfl), hboot]
      exact FallbackDefault.boot (hnone hroot) (linkedEntry_eq_some.mp hboot)
    | none =>
      rw [List.findSome?_cons_of_isNone (by rw [hboot]; rfl)]
      cases entries with
      | nil => exact FallbackDefault.none rfl
      | cons e entries =>
        exact FallbackDefault.first (hnone hroot) (hnone hboot) (List.cons_ne_nil _ _)

/-- Without a config the entries are those of the boot candidates, each with the first
ramdisk of its version in its own directory, the newest first, and the default is the one
that the links name. -/
theorem fallbackScan_exact (fs : FileSystem) :
    (∃ entries, List.Forall₂ (EntryOf fs) (candidates fs) entries ∧
      (fallbackScan fs).1.Perm entries) ∧
    ((fallbackScan fs).1.Pairwise fun a b =>
      vercmp (a.version.getD []) (b.version.getD []) ≠ .lt) ∧
    FallbackDefault fs (fallbackScan fs).1 (fallbackScan fs).2 := by
  refine ⟨⟨_, forall₂_fallbackDirs fs bootPrefixes, List.perm_insertionSort _ _⟩, ?_,
    fallbackDefault fs _⟩
  refine (List.pairwise_descends (bootPrefixes.flatMap (fallbackDir fs))).imp ?_
  intro a b hab hlt
  rw [Descends, @Std.OrientedCmp.eq_swap _ vercmp _ (b.version.getD []), hlt] at hab
  exact hab rfl

end BootExtractor.Boot
