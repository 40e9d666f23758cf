import BootExtractor.Boot.Bls
import BootExtractor.Boot.VercmpOrder
import BootExtractor.Lib.Positions

/-!
# The order of BLS entries

A directory lists its files in any order. If no two entry files have equal sort keys,
the entries and the default are those of the set of files: the entries descend by
version, and the default is the newest of those that the environment, or else
loader.conf, names.
-/

namespace BootExtractor.Boot.Bls

variable {fs fs' : FileSystem} {entriesDir : Str} {env : Env} {sdDefault : Option Str}

/-- What an entry of the result sorts by: its version, or the stem of its file. -/
def entryKey (e : BootEntry) : Str := e.version.getD (e.id.getD [])

/-- The environment's saved entry names this entry, with or without the boot counter. -/
def Saved (env : Env) (e : BootEntry) : Prop :=
  ∃ stem s, e.id = some stem ∧ env "saved_entry".toList = some s ∧
    (s = stem ∨ s = stripBootCounter stem)

/-- The pattern of loader.conf matches this entry's stem, its file name or the stem without
the boot counter. -/
def Matched (sdDefault : Option Str) (e : BootEntry) : Prop :=
  ∃ stem pat, e.id = some stem ∧ sdDefault = some pat ∧
    (globMatch pat stem = true ∨ globMatch pat (stem ++ ".conf".toList) = true ∨
      globMatch pat (stripBootCounter stem) = true)

/-- The entry at this position has the property, and every other one that has it is older. -/
def Newest (entries : List BootEntry) (P : BootEntry → Prop) (i : Nat) : Prop :=
  ∃ e, entries[i]? = some e ∧ P e ∧
    ∀ j e', entries[j]? = some e' → P e' → j ≠ i → vercmp (entryKey e) (entryKey e') = .gt

/-- The default that the environment, loader.conf and the versions ask for. -/
inductive Chosen (env : Env) (sdDefault : Option Str) (entries : List BootEntry) :
    Option Nat → Prop where
  | saved {i : Nat} (h : Newest entries (Saved env) i) : Chosen env sdDefault entries (some i)
  | matched {i : Nat} (hsaved : ∀ e ∈ entries, ¬ Saved env e)
      (h : Newest entries (Matched sdDefault) i) : Chosen env sdDefault entries (some i)
  | newest {i : Nat} (hsaved : ∀ e ∈ entries, ¬ Saved env e)
      (hmatched : ∀ e ∈ entries, ¬ Matched sdDefault e)
      (h : Newest entries (fun _ => True) i) : Chosen env sdDefault entries (some i)
  | none (h : entries = []) : Chosen env sdDefault entries none

/-- The items of a listing that are readable entry files. -/
def readable (fs : FileSystem) (entriesDir : Str) (env : Env) (listing : List DirEntry) :
    List Item :=
  (listing.filterMap (readItem fs entriesDir env)).map Prod.snd

/-- No line changes the id. -/
private theorem id_parseLine (env : Env) (acc : Parsed) (line : Str) :
    (parseLine env acc line).1.id = acc.1.id := by
  simp only [parseLine]
  repeat' split
  all_goals rfl

/-- The id of an entry is the stem of its file. -/
theorem id_parseEntry (env : Env) (stem text : Str) :
    (parseEntry env stem text).id = some stem := by
  have hfold : ∀ (ls : List Str) (acc : Parsed),
      (ls.foldl (parseLine env) acc).1.id = acc.1.id := by
    intro ls
    induction ls with
    | nil => exact fun _ => rfl
    | cons l ls ih => exact fun acc => (ih _).trans (id_parseLine env acc l)
  have hacc := hfold (Str.lines text) ({ id := some stem, source := .bls }, [])
  simp only [parseEntry]
  split
  · exact hacc
  · exact hacc

/-- The stem of an item is the id of its entry. -/
theorem id_of_mem_readable {listing : List DirEntry} {item : Item}
    (h : item ∈ readable fs entriesDir env listing) : item.2.id = some item.1 := by
  obtain ⟨read, hread, rfl⟩ := List.mem_map.mp h
  obtain ⟨f, _, hf⟩ := List.mem_filterMap.mp hread
  unfold readItem at hf
  split at hf
  · cases hf
  · simp only at hf
    split at hf
    · cases hf
    · cases hf
      exact id_parseEntry _ _ _

/-- The test for the saved entry, by what it means. -/
theorem isSaved_iff {item : Item} (hid : item.2.id = some item.1) :
    isSaved env item = true ↔ Saved env item.2 := by
  unfold isSaved Saved
  cases hs : env "saved_entry".toList with
  | none => simp
  | some s => simp [hid]

/-- The test against the pattern of the loader, by what it means. -/
theorem isMatched_iff {item : Item} (hid : item.2.id = some item.1) :
    (sdDefault.any fun pat => isMatched pat item) = true ↔ Matched sdDefault item.2 := by
  unfold isMatched Matched
  cases sdDefault with
  | none => simp
  | some pat => simp [hid, or_assoc]

/-- The order goes by the entry alone. -/
private theorem sortKey_eq {item : Item} (hid : item.2.id = some item.1) :
    sortKey item = entryKey item.2 := by
  rw [sortKey, entryKey, hid, Option.getD_some]

/-- The search for a default is one with the pattern, if there is one. -/
theorem findDefault_eq (env : Env) (sdDefault : Option Str) (items : List Item) :
    findDefault env sdDefault items =
      (items.findIdx? (isSaved env)).or
        (items.findIdx? fun item => sdDefault.any fun pat => isMatched pat item) := by
  cases sdDefault with
  | none =>
    have hnone : (items.findIdx? fun _ => false) = none :=
      List.findIdx?_eq_none_iff.mpr fun _ _ => rfl
    simp only [findDefault, Option.bind_none, Option.any_none, hnone]
  | some pat => rfl

/-- Of items that descend by their keys, a search finds the newest. -/
theorem newest_of_findIdx? {items : List Item} {p : Item → Bool} {P : BootEntry → Prop} {i : Nat}
    (hdesc : items.Pairwise fun a b => vercmp (sortKey a) (sortKey b) = .gt)
    (hid : ∀ item ∈ items, item.2.id = some item.1) (hp : ∀ item ∈ items, p item = true ↔ P item.2)
    (h : items.findIdx? p = some i) : Newest (items.map Prod.snd) P i := by
  obtain ⟨hi, hpi, hfirst⟩ := List.findIdx?_eq_some_iff_getElem.mp h
  have hmem := List.getElem_mem hi
  have hget : (items.map Prod.snd)[i]? = some items[i].2 := by
    rw [List.getElem?_map, List.getElem?_eq_getElem hi, Option.map_some]
  refine ⟨items[i].2, hget, (hp _ hmem).mp hpi, ?_⟩
  intro j e' hj he' hne
  rw [List.getElem?_map] at hj
  obtain ⟨item, hitem, rfl⟩ := Option.map_eq_some_iff.mp hj
  obtain ⟨hjlt, rfl⟩ := List.getElem?_eq_some_iff.mp hitem
  have hmem' := List.getElem_mem hjlt
  have hlt : i < j := by
    rcases Nat.lt_or_ge i j with hlt | hge
    · exact hlt
    · exact absurd ((hp _ hmem').mpr he') (hfirst j (Nat.lt_of_le_of_ne hge hne))
  have hgt := List.pairwise_iff_getElem.mp hdesc i j hi hjlt hlt
  rw [sortKey_eq (hid _ hmem), sortKey_eq (hid _ hmem')] at hgt
  exact hgt

/-- A search without a result: no entry has the property. -/
theorem forall_not_of_findIdx? {items : List Item} {p : Item → Bool} {P : BootEntry → Prop}
    (hp : ∀ item ∈ items, p item = true ↔ P item.2) (h : items.findIdx? p = none) :
    ∀ e ∈ items.map Prod.snd, ¬ P e := by
  intro e he hP
  obtain ⟨item, hitem, rfl⟩ := List.mem_map.mp he
  have hfalse := List.findIdx?_eq_none_iff.mp h item hitem
  rw [(hp item hitem).mpr hP] at hfalse
  cases hfalse

/-- The default of items that descend by their keys is the one asked for. -/
theorem chosen_of_descending {items : List Item}
    (hdesc : items.Pairwise fun a b => vercmp (sortKey a) (sortKey b) = .gt)
    (hid : ∀ item ∈ items, item.2.id = some item.1) :
    Chosen env sdDefault (items.map Prod.snd)
      (orFirst (findDefault env sdDefault items) (items.map Prod.snd)) := by
  have hs : ∀ item ∈ items, isSaved env item = true ↔ Saved env item.2 :=
    fun item h => isSaved_iff (hid item h)
  have hm : ∀ item ∈ items, (sdDefault.any fun pat => isMatched pat item) = true ↔
      Matched sdDefault item.2 := fun item h => isMatched_iff (hid item h)
  rw [findDefault_eq]
  cases hsaved : items.findIdx? (isSaved env) with
  | some i => exact Chosen.saved (newest_of_findIdx? hdesc hid hs hsaved)
  | none =>
    have hnosaved := forall_not_of_findIdx? hs hsaved
    rw [Option.none_or]
    cases hmatched : items.findIdx? fun item => sdDefault.any fun pat => isMatched pat item with
    | some i => exact Chosen.matched hnosaved (newest_of_findIdx? hdesc hid hm hmatched)
    | none =>
      have hnomatched := forall_not_of_findIdx? hm hmatched
      cases items with
      | nil => exact Chosen.none rfl
      | cons item items =>
        have hfirst : (item :: items).findIdx? (fun _ => true) = some 0 := rfl
        exact Chosen.newest hnosaved hnomatched
          (newest_of_findIdx? hdesc hid (fun _ _ => ⟨fun _ => trivial, fun _ => rfl⟩) hfirst)

/-- What is read of a directory that can be listed. -/
def scanOf (env : Env) (sdDefault : Option Str) (items : List Item) : BlsScan :=
  let sorted := sortNewestFirst sortKey items
  ⟨sorted.map Prod.snd, orFirst (findDefault env sdDefault sorted) (sorted.map Prod.snd)⟩

/-- A directory is read as the scan of its readable files. -/
theorem parseDir_eq {listing : List DirEntry} (h : fs.readDir entriesDir = .ok listing) :
    parseDir fs entriesDir env sdDefault =
      .ok (scanOf env sdDefault (readable fs entriesDir env listing),
        (listing.filterMap (readItem fs entriesDir env)).map Prod.fst) := by
  rw [parseDir, h]
  rfl

/-- What a directory yields is fixed by its set of entry files, in whatever order they are
listed, if no two of them have equal sort keys. -/
theorem parseDir_perm {listing listing' : List DirEntry} (hread : fs.readFile = fs'.readFile)
    (hlist : fs.readDir entriesDir = .ok listing) (hlist' : fs'.readDir entriesDir = .ok listing')
    (hperm : listing.Perm listing')
    (hkeys : (readable fs entriesDir env listing).Pairwise
      fun a b => vercmp (sortKey a) (sortKey b) ≠ .eq) :
    ∃ scan configs configs',
      parseDir fs entriesDir env sdDefault = .ok (scan, configs) ∧
      parseDir fs' entriesDir env sdDefault = .ok (scan, configs') ∧ configs.Perm configs' ∧
      scan.entries.Perm ((readable fs entriesDir env listing).map Prod.snd) ∧
      (scan.entries.Pairwise fun a b => vercmp (entryKey a) (entryKey b) = .gt) ∧
      Chosen env sdDefault scan.entries scan.default := by
  have hitem : readItem fs entriesDir env = readItem fs' entriesDir env := by
    funext f
    simp only [readItem, hread]
  have hreads := hperm.filterMap (readItem fs entriesDir env)
  have hreadable : (readable fs entriesDir env listing).Perm
      (readable fs' entriesDir env listing') := by
    rw [readable, readable, ← hitem]
    exact hreads.map Prod.snd
  have hsort := List.insertionSort_eq_of_perm hreadable hkeys
  have hscan : scanOf env sdDefault (readable fs entriesDir env listing) =
      scanOf env sdDefault (readable fs' entriesDir env listing') := by
    simp only [scanOf, sortNewestFirst, hsort]
  have hid : ∀ item ∈ sortNewestFirst sortKey (readable fs entriesDir env listing),
      item.2.id = some item.1 := fun item h => id_of_mem_readable (mem_sortNewestFirst.mp h)
  have hdesc := List.pairwise_descending hkeys
  refine ⟨scanOf env sdDefault (readable fs entriesDir env listing), _,
    (listing'.filterMap (readItem fs' entriesDir env)).map Prod.fst, parseDir_eq hlist, ?_, ?_,
    (List.perm_insertionSort _ _).map _, ?_, chosen_of_descending hdesc hid⟩
  · rw [hscan]
    exact parseDir_eq hlist'
  · rw [← hitem]
    exact hreads.map Prod.fst
  · refine List.pairwise_map.mpr (hdesc.imp_of_mem ?_)
    intro a b ha hb hab
    rw [← sortKey_eq (hid a ha), ← sortKey_eq (hid b hb)]
    exact hab

/-- A directory with one file of two versions each way round. -/
def twoFiles (swapped : Bool) : FileSystem where
  readDir _ :=
    let old : DirEntry := ⟨"old.conf".toList, .file⟩
    let new : DirEntry := ⟨"new.conf".toList, .file⟩
    .ok (if swapped then [new, old] else [old, new])
  readFile path :=
    .ok (Utf8.encode (if path = "e/old.conf".toList then "version 6.9".toList
      else "version 6.30".toList))
  «exists» _ := true
  readPrefix path _ := .error (.notFound path)
  fileSize path := .error (.notFound path)
  readLink _ := none

/-- Two files in either order. -/
theorem parseDir_perm_twoFiles :
    ∃ scan configs configs',
      parseDir (twoFiles false) "e".toList (fun _ => none) none = .ok (scan, configs) ∧
      parseDir (twoFiles true) "e".toList (fun _ => none) none = .ok (scan, configs') ∧
      configs.Perm configs' ∧
      scan.entries.Perm ((readable (twoFiles false) "e".toList (fun _ => none)
        [⟨"old.conf".toList, .file⟩, ⟨"new.conf".toList, .file⟩]).map Prod.snd) ∧
      (scan.entries.Pairwise fun a b => vercmp (entryKey a) (entryKey b) = .gt) ∧
      Chosen (fun _ => none) none scan.entries scan.default :=
  @parseDir_perm (twoFiles false) (twoFiles true) "e".toList (fun _ => none) none _ _ rfl rfl rfl
    (List.Perm.swap ..) (by decide +kernel)

end BootExtractor.Boot.Bls
