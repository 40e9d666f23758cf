import BootExtractor.Cli.BestBoot
import BootExtractor.Cli.EntryJson
import BootExtractor.Cli.ExtractKept
import BootExtractor.Guest.Defaults

/-!
# The commands agree

`entries` lists everything that boots, `boot-info` reports one entry, and `extract` takes
an entry by its number or takes the default. They read the disk on their own, and mean the
same entries.
-/

namespace BootExtractor.Cli

open Boot Effect Fsys Guest Kernel BootExtractor.Part

/-- The items that `cmd_entries` prints with `--json`. -/
def listedItems (readers : Readers) (disk : Device) : Except Fault (List Item) := do
  let table ← liftError (Part.scan disk)
  let parts ← bootable readers disk
  allItems table parts

/-- What `extract` takes files from, by the item that was listed for it. -/
def Item.job (i : Item) (configs : List Str) : Option Job :=
  match i.entry.windows, i.fs, i.entry.kernel with
  | none, some fs, some kernel => some ⟨fs, i.entry, kernel, configs, i.fixed⟩
  | _, _, _ => none

/-- The item that `boot-info` reports. It asks for the kernel's option by itself, where the
listing may have remembered it. -/
def Item.asked (i : Item) : Item :=
  { i with dma := i.fs.bind fun fs => dmaRestrictedPool fs i.entry }

/-- The listing is printed entry by entry. -/
theorem cmdEntriesJson_eq (readers : Readers) (c : Codecs) (disk : Device) (quick : Bool) :
    cmdEntriesJson readers c disk quick = (listedItems readers disk).map (entriesLine c quick) := by
  simp only [cmdEntriesJson, listedItems, bind, Except.bind]
  cases liftError (Part.scan disk) with
  | error f => rfl
  | ok table =>
    cases bootable readers disk with
    | error f => rfl
    | ok parts =>
      simp only
      cases allItems table parts <;> rfl

/-- What an item tells of the entry at a position of a partition. -/
structure Item.Tells (table : PartitionTable) (pb : PartitionBoot) (k : Nat) (e : BootEntry)
    (i : Item) : Prop where
  part : i.part = pb.partition.index
  isDefault : i.isDefault = (some k == pb.scan.default)
  entry : i.entry = e
  fs : i.fs = pb.fs
  fixed : fixedCmdline e table = .ok i.fixed

section Items

variable {table : PartitionTable}

/-- A partition has an item for each entry, in their order; by induction on the entries that
are left. -/
theorem tells_partItems {pb : PartitionBoot} {cache : DmaCache} {first : Nat}
    {es : List BootEntry} {items : List Item} (h : partItems table pb cache first es = .ok items) :
    items.length = es.length ∧ ∀ (k : Nat) (i : Item) (e : BootEntry), items[k]? = some i →
      es[k]? = some e → i.Tells table pb (first + k) e := by
  induction es generalizing cache first items with
  | nil =>
    cases h
    exact ⟨rfl, fun k i e hi => by cases hi⟩
  | cons e rest ih =>
    rw [partItems] at h
    obtain ⟨fixed, hfixed, h⟩ := bind_eq_ok_iff.mp h
    obtain ⟨more, hmore, h⟩ := bind_eq_ok_iff.mp h
    obtain ⟨hlength, htells⟩ := ih hmore
    cases h
    refine ⟨congrArg Nat.succ hlength, ?_⟩
    intro k i e' hi he
    cases k with
    | zero =>
      cases hi
      cases he
      exact ⟨rfl, rfl, rfl, rfl, hfixed⟩
    | succ k =>
      have hk := htells k i e' hi he
      rwa [Nat.add_assoc, Nat.add_comm 1 k] at hk

private theorem part_of_partItems {pb : PartitionBoot} {items : List Item}
    (h : partItems table pb [] 0 pb.scan.entries = .ok items) :
    ∀ i ∈ items, i.part = pb.partition.index := by
  obtain ⟨hlength, htells⟩ := tells_partItems h
  intro i hi
  obtain ⟨k, hk⟩ := List.mem_iff_getElem?.mp hi
  obtain ⟨hlt, -⟩ := List.getElem?_eq_some_iff.mp hk
  exact (htells k i _ hk (List.getElem?_eq_getElem (hlength ▸ hlt))).part

/-- Numbers tell partitions apart, so the items of one partition can be picked out. -/
theorem partItems_filter {parts : List PartitionBoot} {items : List Item}
    (hparts : parts.Pairwise fun a b => a.partition.index < b.partition.index)
    (h : allItems table parts = .ok items) {pb : PartitionBoot} (hpb : pb ∈ parts) :
    partItems table pb [] 0 pb.scan.entries =
      .ok (items.filter fun i => i.part == pb.partition.index) := by
  have hothers : ∀ (rest : List PartitionBoot) (items : List Item),
      allItems table rest = .ok items → ∀ i ∈ items, ∃ q ∈ rest, i.part = q.partition.index := by
    intro rest
    induction rest with
    | nil =>
      rintro items h i hi
      cases h
      cases hi
    | cons q rest ih =>
      intro items h i hi
      obtain ⟨mine, hmine, h⟩ := bind_eq_ok_iff.mp h
      obtain ⟨more, hmore, h⟩ := bind_eq_ok_iff.mp h
      cases h
      rcases List.mem_append.mp hi with hi | hi
      · exact ⟨q, List.mem_cons_self, part_of_partItems hmine i hi⟩
      · obtain ⟨q', hq', hpart⟩ := ih more hmore i hi
        exact ⟨q', List.mem_cons_of_mem _ hq', hpart⟩
  induction parts generalizing items with
  | nil => cases hpb
  | cons q rest ih =>
    obtain ⟨hfirst, hrest⟩ := List.pairwise_cons.mp hparts
    obtain ⟨mine, hmine, h⟩ := bind_eq_ok_iff.mp h
    obtain ⟨more, hmore, h⟩ := bind_eq_ok_iff.mp h
    cases h
    rw [List.filter_append]
    rcases List.mem_cons.mp hpb with rfl | hpb
    · have hall : mine.filter (fun i => i.part == pb.partition.index) = mine :=
        List.filter_eq_self.mpr fun i hi => beq_iff_eq.mpr (part_of_partItems hmine i hi)
      have hnone : more.filter (fun i => i.part == pb.partition.index) = [] := by
        refine List.filter_eq_nil_iff.mpr fun i hi => ?_
        obtain ⟨q, hq, hpart⟩ := hothers rest more hmore i hi
        rw [hpart, beq_iff_eq]
        exact Nat.ne_of_gt (hfirst q hq)
      rw [hall, hnone, List.append_nil]
      exact hmine
    · have hnone : mine.filter (fun i => i.part == pb.partition.index) = [] := by
        refine List.filter_eq_nil_iff.mpr fun i hi => ?_
        rw [part_of_partItems hmine i hi, beq_iff_eq]
        exact Nat.ne_of_lt (hfirst pb hpb)
      rw [hnone, List.nil_append]
      exact ih hrest hmore hpb

end Items

section Selected

variable {readers : Readers} {disk : Device} {parts : List PartitionBoot} {pb : PartitionBoot}

/-- The listed parts stand in the order of their numbers. -/
private theorem listing_increasing (h : bootable readers disk = .ok parts) :
    parts.Pairwise fun a b => a.partition.index < b.partition.index := by
  rcases bootable_cases readers disk with ⟨e, _, _, hboot⟩ | ⟨table, w, hscan, _, hsurveys, hboot⟩
  · rw [h] at hboot
    cases hboot
  · rw [h] at hboot
    obtain rfl := Except.ok.inj hboot
    have hfinish : (w.parts.map w.finish).Pairwise fun a b =>
        a.partition.index < b.partition.index :=
      List.pairwise_map.mpr (parts_increasing hscan hsurveys)
    exact hfinish.filter _

/-- A listed partition has entries, and its default is one of them. -/
theorem exists_default (h : bootable readers disk = .ok parts) (hpb : pb ∈ parts) :
    ∃ d e, pb.scan.default = some d ∧ pb.scan.entries[d]? = some e := by
  rcases bootable_cases readers disk with ⟨e, _, _, hboot⟩ | ⟨table, w, _, _, hsurveys, hboot⟩
  · rw [h] at hboot
    cases hboot
  · rw [h] at hboot
    obtain rfl := Except.ok.inj hboot
    obtain ⟨pb₀, h₀, rfl, hne⟩ := mem_listing.mp hpb
    have htracks := Renumber.tracks_append
      (fun e => (stays pb₀.fs e).bind w.sweep) (authority pb₀.fs) (w.extra pb₀)
    rw [← found_finish (found_of_mem_parts hsurveys h₀)] at htracks
    cases hd : (w.finish pb₀).scan.default with
    | none => exact absurd (htracks.none_iff.mp hd) hne
    | some d => exact ⟨d, _, rfl, List.getElem?_eq_getElem (htracks.inside d hd)⟩

/-- The best partition is a listed one. -/
theorem mem_of_bestBootScan (h : bestBootScan readers disk = .ok (some pb)) :
    ∃ parts, bootable readers disk = .ok parts ∧ pb ∈ parts := by
  unfold bestBootScan at h
  split at h
  · cases h
  · rename_i parts hparts
    have hbest := Except.ok.inj h
    rw [foldl_betterBoot_none] at hbest
    refine ⟨parts, hparts, ?_⟩
    rcases Option.or_eq_some_iff.mp hbest with hfind | ⟨_, hhead⟩
    · exact List.mem_of_find?_eq_some hfind
    · exact List.mem_of_mem_head? hhead

/-- `extract` takes an entry exactly if the item that tells of it can be extracted. -/
theorem openEntry_eq_ok_iff {table : PartitionTable} (hscan : Part.scan disk = .ok table)
    {index : Nat} {e : BootEntry} {i : Item} (h : i.Tells table pb index e) {job : Job} :
    openEntry disk pb index e = .ok job ↔ i.job pb.scan.configs = some job := by
  unfold openEntry Item.job
  rw [h.entry, h.fs]
  cases e.windows with
  | some w => simp
  | none =>
    cases pb.fs with
    | none => simp
    | some fs =>
      cases e.kernel with
      | none => simp
      | some kernel => simp [hscan, h.fixed]

/-- The chosen entry, where `index` is its position. -/
theorem select_eq {entryArg : Option Nat} (hbest : bestBootScan readers disk = .ok (some pb))
    {index : Nat} (hindex : entryIndex entryArg pb.scan = .ok index) {e : BootEntry}
    (he : pb.scan.entries[index]? = some e) :
    select readers disk entryArg = openEntry disk pb index e := by
  simp [select, hbest, ofFault, bind, Except.bind, hindex, he]

/-- The listing is empty exactly if there is no best partition. -/
theorem bestBootScan_none_iff {items : List Item} (hitems : listedItems readers disk = .ok items) :
    bestBootScan readers disk = .ok none ↔ items = [] := by
  obtain ⟨table, -, h⟩ := bind_eq_ok_iff.mp hitems
  obtain ⟨parts, hparts, hall⟩ := bind_eq_ok_iff.mp h
  rw [bestBootScan, hparts]
  simp only [Except.ok.injEq]
  rw [foldl_betterBoot_none]
  cases parts with
  | nil =>
    cases hall
    simp
  | cons pb rest =>
    have hpb : pb ∈ pb :: rest := List.mem_cons_self
    obtain ⟨d, e, -, he⟩ := exists_default hparts hpb
    have hmine := partItems_filter (listing_increasing hparts) hall hpb
    have hlength := (tells_partItems hmine).1
    have hpos : 0 < pb.scan.entries.length := List.length_pos_of_mem (List.mem_of_getElem? he)
    constructor
    · intro hnone
      cases (Option.or_eq_none_iff.mp hnone).2
    · rintro rfl
      rw [← hlength] at hpos
      exact absurd hpos (Nat.lt_irrefl 0)

/-- Where `entries` lists everything, `extract` works on the items of one partition: under a
number it takes the item at that place, and without one the item marked as the default, the
only one of that partition; `boot-info` reports that same item. -/
theorem commands_agree {items : List Item} (hitems : listedItems readers disk = .ok items)
    (c : Codecs) :
    (bestBootScan readers disk = .ok none ↔ items = []) ∧
    ∀ pb, bestBootScan readers disk = .ok (some pb) →
      let mine := items.filter fun i => i.part == pb.partition.index
      (∀ n job, select readers disk (some n) = .ok job ↔
        1 ≤ n ∧ ∃ i, mine[n - 1]? = some i ∧ i.job pb.scan.configs = some job) ∧
      ∃ (d : Nat) (i : Item), mine[d]? = some i ∧
        (∀ (k : Nat) (j : Item), mine[k]? = some j → (j.isDefault = true ↔ k = d)) ∧
        (∀ job, select readers disk none = .ok job ↔ i.job pb.scan.configs = some job) ∧
        cmdBootInfoJson readers c disk =
          .ok (braces [("entry".toList, entryJson c i.asked false),
            ("configs".toList, brackets (pb.scan.configs.map fun path =>
              jstr (uri pb.partition.index path)))] ++ ['\n']) := by
  refine ⟨bestBootScan_none_iff hitems, ?_⟩
  intro pb hbest
  obtain ⟨table, htable, h⟩ := bind_eq_ok_iff.mp hitems
  obtain ⟨parts, hparts, hall⟩ := bind_eq_ok_iff.mp h
  have hscan : Part.scan disk = .ok table := by
    cases hs : Part.scan disk with
    | error e =>
      rw [hs] at htable
      cases htable
    | ok t =>
      rw [hs] at htable
      exact congrArg Except.ok (Except.ok.inj htable)
  obtain ⟨parts', hparts', hpb⟩ := mem_of_bestBootScan hbest
  rw [hparts] at hparts'
  obtain rfl := Except.ok.inj hparts'
  have hmine := partItems_filter (listing_increasing hparts) hall hpb
  obtain ⟨hlength, htells⟩ := tells_partItems hmine
  simp only [Nat.zero_add] at htells
  intro mine
  have hitem : ∀ {k : Nat} {e : BootEntry}, pb.scan.entries[k]? = some e →
      ∃ i, mine[k]? = some i ∧ i.Tells table pb k e := by
    intro k e he
    have hlt : k < mine.length := hlength ▸ (List.getElem?_eq_some_iff.mp he).1
    exact ⟨_, List.getElem?_eq_getElem hlt, htells k _ e (List.getElem?_eq_getElem hlt) he⟩
  obtain ⟨d, e, hd, he⟩ := exists_default hparts hpb
  obtain ⟨i, hi, hitells⟩ := hitem he
  constructor
  · intro n job
    by_cases hn : 1 ≤ n ∧ n ≤ pb.scan.entries.length
    · have hlt : n - 1 < pb.scan.entries.length := by omega
      have hentry := List.getElem?_eq_getElem hlt
      obtain ⟨j, hj, hjtells⟩ := hitem hentry
      have hindex : entryIndex (some n) pb.scan = .ok (n - 1) := if_pos hn
      rw [select_eq hbest hindex hentry, openEntry_eq_ok_iff hscan hjtells, hj]
      simp [hn.1]
    · have hselect : ∃ f, select readers disk (some n) = .error f := by
        simp [select, hbest, ofFault, bind, Except.bind, entryIndex, hn]
      obtain ⟨f, hf⟩ := hselect
      rw [hf]
      simp only [reduceCtorEq, false_iff]
      rintro ⟨hone, j, hj, -⟩
      have hlt : n - 1 < mine.length := (List.getElem?_eq_some_iff.mp hj).1
      have hle : n ≤ pb.scan.entries.length := by
        have : n - 1 < pb.scan.entries.length := hlength ▸ hlt
        omega
      exact hn ⟨hone, hle⟩
  · refine ⟨d, i, hi, ?_, ?_, ?_⟩
    · intro k j hj
      have hlt : k < pb.scan.entries.length := hlength ▸ (List.getElem?_eq_some_iff.mp hj).1
      rw [(htells k j _ hj (List.getElem?_eq_getElem hlt)).isDefault, hd, beq_iff_eq,
        Option.some.injEq]
    · intro job
      have hindex : entryIndex none pb.scan = .ok d := by rw [entryIndex, hd]; rfl
      rw [select_eq hbest hindex he, openEntry_eq_ok_iff hscan hitells]
    · have hreport : bootInfoOf c disk pb =
          .ok (bootInfoJson c pb.partition.index e i.fixed pb.scan.configs pb.fs ++ ['\n']) := by
        rw [bootInfoOf, hd, Option.getD_some, he]
        simp only [hscan, hitells.fixed]
      have hasked : i.asked = ⟨pb.partition.index, true, e, i.fixed, pb.fs,
          pb.fs.bind fun fs => dmaRestrictedPool fs e⟩ := by
        have hdefault : i.isDefault = true := by rw [hitells.isDefault, hd, beq_self_eq_true]
        rw [Item.asked, hitells.fs, hitells.entry, ← hitells.part, ← hitells.fs, ← hitells.entry,
          ← hdefault]
      simp only [cmdBootInfoJson, hbest, ofFault, bind, Except.bind, hreport, hasked]
      rfl

end Selected

/-- What the three commands make of a disk with one menu. -/
theorem commands_agree_two :
    ∃ items pb, listedItems twoConfigsReaders twoConfigsDisk = .ok items ∧
      bestBootScan twoConfigsReaders twoConfigsDisk = .ok (some pb) ∧ items ≠ [] ∧
      ∀ job, select twoConfigsReaders twoConfigsDisk (some 1) = .ok job ↔
        1 ≤ 1 ∧ ∃ i, (items.filter fun i => i.part == pb.partition.index)[1 - 1]? = some i ∧
          i.job pb.scan.configs = some job := by
  have hlisted : (listedItems twoConfigsReaders twoConfigsDisk).toOption.isSome = true := by
    decide +kernel
  have hbest :
      ((bestBootScan twoConfigsReaders twoConfigsDisk).toOption.bind id).isSome = true := by
    decide +kernel
  obtain ⟨items, hitems⟩ := Option.isSome_iff_exists.mp hlisted
  obtain ⟨pb, hpb⟩ := Option.isSome_iff_exists.mp hbest
  obtain ⟨best, hok, rfl⟩ := Option.bind_eq_some_iff.mp hpb
  obtain ⟨hnone, hagree⟩ := commands_agree (ok_of_toOption hitems) noCodecs
  refine ⟨items, pb, ok_of_toOption hitems, ok_of_toOption hok, ?_, ?_⟩
  · intro hnil
    have hnot := hnone.mpr hnil
    rw [ok_of_toOption hok] at hnot
    cases hnot
  · exact (hagree pb (ok_of_toOption hok)).1 1

end BootExtractor.Cli
