import BootExtractor.Boot.Origin

/-!
# Absolute paths

Configs name their files in several ways: behind a device, below the directory of the
config, or with no slash in front. Every parser makes its paths absolute, so that
what a scan returns can be read as it stands.
-/

namespace BootExtractor.Boot

/-- A path from the root of a filesystem. -/
def Absolute (path : Str) : Prop := Str.startsWith path "/".toList = true

instance (path : Str) : Decidable (Absolute path) := inferInstanceAs (Decidable (_ = true))

private theorem absolute_cons (path : Str) : Absolute ('/' :: path) := rfl

/-- What begins with a slash still does with more behind it. -/
theorem Absolute.append {dir : Str} (h : Absolute dir) (rest : Str) : Absolute (dir ++ rest) := by
  obtain ⟨tail, rfl⟩ := Str.startsWith_iff.mp h
  rfl

/-- A file directly below a directory. -/
theorem absolute_below {dir : Str} (h : dir = [] ∨ Absolute dir) (name : Str) :
    Absolute (dir ++ '/' :: name) := by
  rcases h with rfl | h
  · exact absolute_cons name
  · exact h.append _

/-- The paths that an entry names. The target of a `chainloader` line can be a list of
sectors, and is no path of the entry. -/
def BootEntry.paths (e : BootEntry) : List Str := e.kernel.toList ++ e.initrd

/-- The entry can be started with what is on its filesystem. -/
def BootEntry.Rooted (e : BootEntry) : Prop := ∀ path ∈ e.paths, Absolute path

/-- The paths of an entry are absolute exactly if its kernel and its ramdisks are. -/
theorem BootEntry.rooted_iff {e : BootEntry} :
    e.Rooted ↔ (∀ k, e.kernel = some k → Absolute k) ∧ ∀ path ∈ e.initrd, Absolute path := by
  simp [BootEntry.Rooted, BootEntry.paths, or_imp, forall_and]

/-- Only the kernel and the ramdisks of an entry count. -/
theorem BootEntry.Rooted.of_eq {e e' : BootEntry} (h : e.Rooted) (hkernel : e'.kernel = e.kernel)
    (hinitrd : e'.initrd = e.initrd) : e'.Rooted := by
  rwa [Rooted, paths, hkernel, hinitrd]

private theorem absolute_map {f : Str → Str} (hf : ∀ p, Absolute (f p)) (ps : List Str) :
    ∀ path ∈ ps.map f, Absolute path := by
  intro path hpath
  obtain ⟨p, -, rfl⟩ := List.mem_map.mp hpath
  exact hf p

/-- A name below one of the boot directories is absolute. -/
theorem absolute_bootPrefix {dir : Str} (h : dir ∈ bootPrefixes) (name : Str) :
    Absolute (dir ++ '/' :: name) := by
  apply absolute_below
  rcases List.mem_cons.mp h with rfl | h
  · exact Or.inl rfl
  · rw [List.mem_singleton.mp h]
    exact Or.inr rfl

namespace Grub

/-- A GRUB path is absolute once the device is off. -/
theorem absolute_cleanPath (p : Str) : Absolute (cleanPath p) := by
  have hslash : ∀ q : Str, Absolute (if Str.startsWith q "/".toList then q else '/' :: q) := by
    intro q
    split
    · assumption
    · exact absolute_cons q
  exact hslash _

/-- A line in a menu entry names absolute paths. -/
theorem rooted_bodyLine (env : Env) (kw : Str) (words : List Str) {e : BootEntry}
    (h : e.Rooted) : (bodyLine env kw words e).Rooted := by
  unfold bodyLine
  split
  · rw [BootEntry.rooted_iff]
    constructor
    · intro k hk
      obtain ⟨w, -, rfl⟩ := Option.map_eq_some_iff.mp hk
      exact absolute_cleanPath w
    · exact (BootEntry.rooted_iff.mp h).2
  split
  · rw [BootEntry.rooted_iff]
    exact ⟨(BootEntry.rooted_iff.mp h).1, absolute_map absolute_cleanPath _⟩
  split
  · exact h.of_eq rfl rfl
  · exact h

/-- All entries that the machine holds are rooted. -/
structure State.Rooted (st : State) : Prop where
  raw : ∀ r ∈ st.raw, r.entry.Rooted
  current : ∀ c, st.current = some c → c.2.entry.Rooted

namespace State.Rooted

variable {st : State}

/-- Nothing but the entries counts. -/
theorem of_eq {st' : State} (h : st.Rooted) (hraw : st'.raw = st.raw)
    (hcurrent : st'.current = st.current) : st'.Rooted := by
  constructor
  · rw [hraw]
    exact h.raw
  · rw [hcurrent]
    exact h.current

/-- An entry is opened without paths. -/
theorem openEntry (h : st.Rooted) (words : List Str) : (openEntry words st).Rooted := by
  have hempty : ∀ title id, BootEntry.Rooted { title := title, id := id, source := .grub } := by
    intro title id path hpath
    exact absurd hpath List.not_mem_nil
  unfold Grub.openEntry
  split
  · refine ⟨h.raw, ?_⟩
    rintro c ⟨⟩
    exact hempty _ _
  · refine ⟨h.raw, ?_⟩
    rintro c ⟨⟩
    exact hempty _ _

/-- A line outside of an entry keeps the paths absolute. -/
theorem outerLine (h : st.Rooted) (env : Env) (kw : Str) (words : List Str) (opensBlock : Bool) :
    (outerLine env kw words opensBlock st).Rooted := by
  have hmarker : ∀ st' : State, st'.Rooted →
      (if "blscfg".toList ∈ words then { st' with usesBls := true } else st').Rooted := by
    intro st' h'
    split
    · exact h'.of_eq rfl rfl
    · exact h'
  apply hmarker
  split
  · exact h.openEntry words
  split
  · exact h.of_eq rfl rfl
  split
  · unfold setVariable
    split
    · exact h.of_eq rfl rfl
    · exact h
  · exact h

/-- A line with a keyword keeps the paths absolute. -/
theorem keywordLine (h : st.Rooted) (env : Env) (words : List Str) (opensBlock : Bool) :
    (keywordLine env words opensBlock st).Rooted := by
  simp only [Grub.keywordLine]
  split
  · rename_i d cur hcur
    refine ⟨h.raw, ?_⟩
    rintro c ⟨⟩
    exact rooted_bodyLine env _ words (h.current _ hcur)
  · exact h.outerLine env _ words opensBlock

/-- The end of a block ends the entry at hand, or it changes no entry. -/
theorem closeBlock (h : st.Rooted) : (closeBlock st).Rooted := by
  have hsubmenu : ∀ st' : State, st'.Rooted → (closeSubmenu st').Rooted := by
    intro st' h'
    unfold closeSubmenu
    repeat' split
    · exact h'.of_eq rfl rfl
    · exact h'
    · exact h'
  simp only [Grub.closeBlock]
  split
  · rename_i d r hcur
    split
    · constructor
      · intro r' hr
        rcases List.mem_append.mp hr with hr | hr
        · exact h.raw r' hr
        · rw [List.mem_singleton.mp hr]
          exact h.current _ hcur
      · rintro c ⟨⟩
    · apply hsubmenu
      exact h.of_eq rfl rfl
  · apply hsubmenu
    exact h.of_eq rfl rfl

/-- One line keeps all entries rooted. -/
theorem step (h : st.Rooted) (env : Env) (line : Str) : (step env st line).Rooted := by
  simp only [Grub.step]
  split
  · exact h
  split
  · exact h
  · have hline := h.keywordLine env (splitWords (Str.trim line))
      (Str.endsWith (Str.trim line) "\x7b".toList)
    unfold braces
    split
    · exact hline.of_eq rfl rfl
    split
    · exact hline.closeBlock
    · exact hline

end State.Rooted

/-- The entries of a GRUB config name absolute paths. -/
theorem rooted_parseStr {text : Str} {env : Env} {e : BootEntry}
    (h : e ∈ (parseStr text env).entries) : e.Rooted := by
  have hrun : (run env (Str.lines text)).Rooted :=
    foldl_keeps ⟨by simp, by simp⟩ fun st line hst => hst.step env line
  obtain ⟨r, hr, rfl⟩ := List.mem_map.mp h
  rcases List.mem_append.mp hr with hr | hr
  · exact hrun.raw r hr
  · obtain ⟨c, hc, rfl⟩ := Option.map_eq_some_iff.mp (Option.mem_toList.mp hr)
    exact hrun.current c hc

/-- The entries of a GRUB config file name absolute paths. -/
theorem rooted_parse {fs : FileSystem} {path : Str} {env : Env} {g : GrubScan}
    (h : parse fs path env = .ok g) {e : BootEntry} (he : e ∈ g.entries) : e.Rooted := by
  unfold parse at h
  cases hread : fs.readFile path with
  | error err =>
    rw [hread] at h
    cases h
  | ok data =>
    rw [hread] at h
    cases h
    exact rooted_parseStr he

end Grub

namespace Bls

private theorem absolute_absolute (p : Str) : Absolute (absolute p) := by
  unfold absolute
  split
  · assumption
  · exact absolute_cons p

/-- A line of an entry file names absolute paths. -/
theorem rooted_parseLine {env : Env} {acc : Parsed} {line : Str} (h : acc.1.Rooted) :
    (parseLine env acc line).1.Rooted := by
  obtain ⟨hkernel, hinitrd⟩ := BootEntry.rooted_iff.mp h
  simp only [parseLine]
  split
  · exact h
  split
  · exact h
  split
  · exact h.of_eq rfl rfl
  split
  · exact h.of_eq rfl rfl
  split
  · refine BootEntry.rooted_iff.mpr ⟨?_, hinitrd⟩
    rintro k ⟨⟩
    exact absolute_absolute _
  split
  · refine BootEntry.rooted_iff.mpr ⟨hkernel, ?_⟩
    intro path hpath
    rcases List.mem_append.mp hpath with hpath | hpath
    · exact hinitrd path hpath
    · exact absolute_map absolute_absolute _ path hpath
  split
  · exact h
  · exact h

/-- An entry file names absolute paths. -/
theorem rooted_parseEntry (env : Env) (stem text : Str) : (parseEntry env stem text).Rooted := by
  have hstart : BootEntry.Rooted { id := some stem, source := .bls } := by
    intro path hpath
    exact absurd hpath List.not_mem_nil
  have hfold : ((Str.lines text).foldl (parseLine env)
      ({ id := some stem, source := .bls }, [])).1.Rooted :=
    foldl_keeps (P := fun acc : Parsed => acc.1.Rooted) hstart
      fun acc line hacc => rooted_parseLine hacc
  simp only [parseEntry]
  split
  · exact hfold
  · exact hfold.of_eq rfl rfl

/-- The entries of a directory, and the files they are read from. -/
theorem rooted_parseDir {fs : FileSystem} {dir : Str} {env : Env} {sd : Option Str}
    {r : BlsScan × List Str} (hdir : Absolute dir) (h : parseDir fs dir env sd = .ok r) :
    (∀ e ∈ r.1.entries, e.Rooted) ∧ ∀ path ∈ r.2, Absolute path := by
  unfold parseDir at h
  cases hlist : fs.readDir dir with
  | error err =>
    rw [hlist] at h
    cases h
  | ok listing =>
    rw [hlist] at h
    cases h
    have hitem : ∀ read ∈ listing.filterMap (readItem fs dir env),
        read.2.2.Rooted ∧ Absolute read.1 := by
      intro read hread
      obtain ⟨f, -, hf⟩ := List.mem_filterMap.mp hread
      unfold readItem at hf
      split at hf
      · cases hf
      · simp only at hf
        split at hf
        · cases hf
        · cases hf
          exact ⟨rooted_parseEntry _ _ _, hdir.append _⟩
    constructor
    · intro e he
      obtain ⟨item, hsorted, rfl⟩ := List.mem_map.mp he
      obtain ⟨read, hread, rfl⟩ := List.mem_map.mp (mem_sortNewestFirst.mp hsorted)
      exact (hitem read hread).1
    · intro path hpath
      obtain ⟨read, hread, rfl⟩ := List.mem_map.mp hpath
      exact (hitem read hread).2

end Bls

namespace Extlinux

variable {baseDir : Str}

/-- A config stands in the root directory, or below it. -/
theorem absolute_resolve (h : baseDir = [] ∨ Absolute baseDir) (p : Str) :
    Absolute (resolve baseDir p) := by
  unfold resolve
  split
  · assumption
  · exact absolute_below h p

/-- The ramdisks of an append line are absolute if the directory is. -/
theorem rooted_appendLine (h : baseDir = [] ∨ Absolute baseDir) {rest : Str} {e : BootEntry}
    (he : e.Rooted) : (appendLine baseDir rest e).Rooted := by
  obtain ⟨hkernel, hinitrd⟩ := BootEntry.rooted_iff.mp he
  refine BootEntry.rooted_iff.mpr ⟨hkernel, ?_⟩
  refine foldl_keeps (P := fun acc : List Str × List Str => ∀ path ∈ acc.1, Absolute path) hinitrd
    ?_
  intro acc word hacc
  unfold appendWord
  split
  · intro path hpath
    rcases List.mem_append.mp hpath with hpath | hpath
    · exact hacc path hpath
    · exact absolute_map (absolute_resolve h) _ path hpath
  · exact hacc

/-- All stanzas are rooted. -/
def State.Rooted (st : State) : Prop := ∀ e ∈ st.finished, e.Rooted

/-- A change of the entry at hand that keeps its paths absolute keeps all of them so. -/
theorem State.Rooted.modifyCurrent {st : State} {f : BootEntry → BootEntry} (h : st.Rooted)
    (hf : ∀ e : BootEntry, e.Rooted → (f e).Rooted) : (st.modifyCurrent f).Rooted := by
  intro e he
  rcases List.mem_append.mp he with he | he
  · exact h e (List.mem_append_left _ he)
  · obtain ⟨c, hc, rfl⟩ := Option.map_eq_some_iff.mp (Option.mem_toList.mp he)
    exact hf c (h c (List.mem_append_right _ (Option.mem_toList.mpr hc)))

/-- A keyword names absolute paths if the directory is absolute. -/
theorem State.Rooted.keyword {kw rest : Str} {st : State} (hbase : baseDir = [] ∨ Absolute baseDir)
    (h : st.Rooted) : (keyword baseDir st kw rest).Rooted := by
  simp only [Extlinux.keyword]
  split
  · exact h
  split
  · intro e he
    rcases List.mem_append.mp he with he | he
    · exact h e he
    · obtain rfl := Option.some.inj (Option.mem_toList.mp he)
      intro path hpath
      exact absurd hpath List.not_mem_nil
  split
  · refine h.modifyCurrent fun e he => BootEntry.rooted_iff.mpr ⟨?_, (BootEntry.rooted_iff.mp he).2⟩
    rintro k ⟨⟩
    exact absolute_resolve hbase rest
  split
  · refine h.modifyCurrent fun e he => BootEntry.rooted_iff.mpr ⟨(BootEntry.rooted_iff.mp he).1, ?_⟩
    intro path hpath
    rcases List.mem_append.mp hpath with hpath | hpath
    · exact (BootEntry.rooted_iff.mp he).2 path hpath
    · exact absolute_map (fun p => absolute_resolve hbase _) _ path hpath
  split
  · exact h.modifyCurrent fun e he => rooted_appendLine hbase he
  · exact h

/-- A line names absolute paths if the directory is absolute. -/
theorem State.Rooted.step {line : Str} {st : State} (hbase : baseDir = [] ∨ Absolute baseDir)
    (h : st.Rooted) : (step baseDir st line).Rooted := by
  simp only [Extlinux.step]
  split
  · exact h
  split
  · exact h
  · exact h.keyword hbase

/-- The entries of an extlinux config name absolute paths. -/
theorem rooted_parse {fs : FileSystem} {path : Str} {x : ExtlinuxScan}
    (hpath : path ∈ extlinuxPaths)
    (h : parse fs path = .ok x) {e : BootEntry} (he : e ∈ x.entries) : e.Rooted := by
  have hbase : ∀ p ∈ extlinuxPaths, ((Str.rsplitOnce '/' p).map Prod.fst).getD [] = [] ∨
      Absolute (((Str.rsplitOnce '/' p).map Prod.fst).getD []) := by
    exact Str.forall_of_all rfl
  unfold parse at h
  cases hread : fs.readFile path with
  | error err =>
    rw [hread] at h
    cases h
  | ok data =>
    rw [hread] at h
    cases h
    exact foldl_keeps (P := State.Rooted) (by simp [State.Rooted, State.finished])
      (fun st line hst => hst.step (hbase path hpath)) e he

end Extlinux

/-- All images of a directory have absolute paths. -/
structure Images.Rooted (images : Images) : Prop where
  kernels : ∀ k ∈ images.kernels, Absolute k.2
  initrds : ∀ i ∈ images.initrds, Absolute i.2

/-- A file of a boot directory adds absolute paths only. -/
theorem Images.Rooted.add {images : Images} {dir : Str} (hdir : dir ∈ bootPrefixes)
    (h : images.Rooted) (f : DirEntry) : (images.add dir f).Rooted := by
  have hpath := absolute_bootPrefix hdir f.name
  simp only [Images.add]
  split
  · exact h
  split
  · split
    · refine ⟨?_, h.initrds⟩
      intro k hk
      rcases List.mem_append.mp hk with hk | hk
      · exact h.kernels k hk
      · rw [List.mem_singleton.mp hk]
        exact hpath
    · exact h
  split
  · refine ⟨h.kernels, ?_⟩
    intro i hi
    rcases List.mem_append.mp hi with hi | hi
    · exact h.initrds i hi
    · rw [List.mem_singleton.mp hi]
      exact hpath
  · exact h

/-- The paired entries name absolute paths. -/
theorem rooted_fallbackScan {fs : FileSystem} {e : BootEntry} (h : e ∈ (fallbackScan fs).1) :
    e.Rooted := by
  obtain ⟨dir, hdir, he⟩ := List.mem_flatMap.mp (mem_sortNewestFirst.mp h)
  unfold fallbackDir at he
  split at he
  · cases he
  · rename_i listing _
    obtain ⟨kernel, hkernel, rfl⟩ := List.mem_map.mp he
    have himages : (listing.foldl (Images.add dir) {}).Rooted :=
      foldl_keeps ⟨by simp, by simp⟩ fun images f h => h.add hdir f
    refine BootEntry.rooted_iff.mpr ⟨?_, ?_⟩
    · rintro k ⟨⟩
      exact himages.kernels kernel hkernel
    · intro path hpath
      obtain ⟨i, hi, rfl⟩ := Option.map_eq_some_iff.mp (Option.mem_toList.mp hpath)
      exact himages.initrds i (List.mem_of_find?_eq_some hi)

section Scans

variable {fs : FileSystem}

private theorem absolute_entriesDir {dir : Str}
    (h : dir ∈ bootPrefixes.map (· ++ "/loader/entries".toList)) :
    Absolute dir := by
  obtain ⟨p, hp, rfl⟩ := List.mem_map.mp h
  exact absolute_bootPrefix hp _

/-- A BLS directory that is read stands in one of the two places. -/
theorem exists_dir_of_mem_blsScans {b : Bls.BlsScan × List Str} (h : b ∈ blsScans fs) :
    ∃ dir, Absolute dir ∧
      Bls.parseDir fs dir (Grubenv.load fs) (loaderConfDefault fs).1 = .ok b := by
  obtain ⟨dir, hdir, hparse⟩ := List.mem_filterMap.mp h
  exact ⟨dir, absolute_entriesDir (List.mem_of_mem_filter hdir), ok_of_toOption hparse⟩

/-- The entries of whichever source is picked name absolute paths. -/
theorem rooted_choose {e : BootEntry} (h : e ∈ (choose fs (consult fs)).1) : e.Rooted := by
  rcases choose_cases fs with ⟨g, hg, heq⟩ | ⟨b, hb, heq⟩ | ⟨x, hx, heq⟩ | heq
  · rw [heq] at h
    obtain ⟨path, hpath⟩ := exists_of_mem_grubScans (List.mem_of_find?_eq_some hg)
    exact Grub.rooted_parse hpath h
  · rw [heq] at h
    obtain ⟨r, hr, rfl⟩ := Option.map_eq_some_iff.mp hb
    obtain ⟨dir, hdir, hparse⟩ := exists_dir_of_mem_blsScans (List.mem_of_find?_eq_some hr)
    exact (Bls.rooted_parseDir hdir hparse).1 e h
  · rw [heq] at h
    obtain ⟨path, hpath, hparse⟩ := List.mem_filterMap.mp (List.mem_of_find?_eq_some hx)
    exact Extlinux.rooted_parse (List.mem_of_mem_filter hpath) (ok_of_toOption hparse) h
  · rw [heq] at h
    exact rooted_fallbackScan h

/-- The paths of the GRUB configs are absolute. -/
theorem absolute_grubPaths {path : Str} (h : path ∈ grubPaths fs) : Absolute path := by
  rcases List.mem_append.mp h with h | h
  · obtain ⟨p, hp, h⟩ := List.mem_flatMap.mp h
    rcases List.mem_cons.mp h with rfl | h
    · exact absolute_bootPrefix hp _
    · rw [List.mem_singleton.mp h]
      exact absolute_bootPrefix hp _
  · obtain ⟨dir, hdir, rfl⟩ := List.mem_map.mp h
    have hvendor : ∀ efi dirs, Absolute efi → dir ∈ efiDirs.vendors efi dirs → Absolute dir := by
      intro efi dirs hefi hmem
      obtain ⟨d, -, rfl⟩ := List.mem_map.mp hmem
      exact hefi.append _
    apply Absolute.append
    unfold efiDirs at hdir
    repeat' split at hdir
    · exact hvendor _ _ (absolute_cons "EFI".toList) hdir
    · exact hvendor _ _ (absolute_cons "efi".toList) hdir
    · cases hdir

/-- The paths of the loader configs are absolute. -/
theorem absolute_loaderConf {prefixes : List Str} (hprefixes : ∀ p ∈ prefixes, p ∈ bootPrefixes)
    {path : Str} (h : path ∈ (loaderConfDefault.go fs prefixes).2) : Absolute path := by
  induction prefixes with
  | nil => cases h
  | cons p rest ih =>
    have hrest := ih fun q hq => hprefixes q (List.mem_cons_of_mem _ hq)
    have hpath := absolute_bootPrefix (hprefixes p List.mem_cons_self) "loader/loader.conf".toList
    simp only [loaderConfDefault.go] at h
    split at h
    · exact hrest h
    split at h
    · rw [List.mem_singleton.mp h]
      exact hpath
    · rcases List.mem_cons.mp h with rfl | h
      · exact hpath
      · exact hrest h

/-- What is kept of a list is of the list. -/
private theorem mem_of_mem_upTo {α : Type} {p : α → Bool} {xs : List α} {x : α}
    (h : x ∈ upTo p xs) :
    x ∈ xs := by
  induction xs with
  | nil => cases h
  | cons y rest ih =>
    rw [upTo] at h
    split at h
    · exact List.mem_cons.mpr (Or.inl (List.mem_singleton.mp h))
    · exact (List.mem_cons.mp h).elim (fun he => List.mem_cons.mpr (Or.inl he))
        fun hmem => List.mem_cons_of_mem _ (ih hmem)

/-- The paths of all configs that are listed are absolute. -/
theorem absolute_configsOf {path : Str} (h : path ∈ configsOf fs) : Absolute path := by
  rcases List.mem_append.mp h with h | h
  · rcases List.mem_append.mp h with h | h
    · rcases List.mem_append.mp h with h | h
      · exact absolute_grubPaths (List.mem_of_mem_filter h)
      · exact absolute_loaderConf (fun _ hp => hp) h
    · obtain ⟨b, hb, hpath⟩ := List.mem_flatMap.mp h
      obtain ⟨dir, hdir, hparse⟩ := exists_dir_of_mem_blsScans (mem_of_mem_upTo hb)
      exact (Bls.rooted_parseDir hdir hparse).2 path hpath
  · have hall : ∀ p ∈ extlinuxPaths, Absolute p := Str.forall_of_all rfl
    exact hall path (List.mem_of_mem_filter h)

/-- Every path that a scan returns is absolute. -/
theorem absolute_scanned (fs : FileSystem) :
    (∀ e ∈ (scanned fs).entries, e.Rooted) ∧ ∀ path ∈ (scanned fs).configs, Absolute path :=
  ⟨fun _ he => rooted_choose (mem_scanned.mp he).1, fun _ hpath => absolute_configsOf hpath⟩

end Scans

end BootExtractor.Boot
