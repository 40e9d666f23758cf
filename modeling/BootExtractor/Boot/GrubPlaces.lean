import BootExtractor.Boot.GrubRun
import BootExtractor.Lib.Positions

/-!
# Places in a menu

The places that the machine records are the positions of the menu. Where all titles and ids
are different, a name tells the entry or the item that has it.
-/

namespace BootExtractor.Boot.Grub

section Places

/-- The entry is the child `j` of the item `k`. -/
structure Stands (menu : Menu) (k j : Nat) (item : Item) (e : MenuEntry) : Prop where
  hitem : menu[k]? = some item
  hentry : item.entries[j]? = some e

variable {menu : Menu} {k j p : Nat} {item : Item} {e : MenuEntry}

/-- The entry that stands somewhere is found by its offset. -/
theorem Stands.getElem? (h : Stands menu k j item e) :
    (entries menu)[offset menu k + j]? = some e :=
  Positions.flatMap_getElem? h.hitem h.hentry

/-- Every entry of a menu stands somewhere in it. -/
theorem exists_stands (h : (entries menu)[p]? = some e) :
    ∃ k j item, Stands menu k j item e ∧ p = offset menu k + j := by
  obtain ⟨k, j, item, hitem, he, hp⟩ := Positions.exists_of_flatMap_getElem? h
  exact ⟨k, j, item, ⟨hitem, he⟩, hp⟩

/-- The parsed entries of an item, one by one. -/
theorem Item.getElem?_raw (item : Item) (top j : Nat) :
    (item.raw top)[j]? = item.entries[j]?.map fun e => ⟨e.parsed, top, item.place j⟩ :=
  List.getElem?_mapIdx

/-- An item has one parsed entry for each of its own. -/
theorem Item.length_raw (item : Item) (top : Nat) : (item.raw top).length = item.entries.length :=
  List.length_mapIdx

private theorem length_rawFrom (top : Nat) (menu : Menu) :
    (rawFrom top menu).length = (entries menu).length := by
  induction menu generalizing top with
  | nil => rfl
  | cons item more ih =>
    rw [rawFrom, entries, List.flatMap_cons, List.length_append, List.length_append, ih,
      item.length_raw, ← entries]

/-- The machine records the entries that the menu lists. -/
theorem map_entry_rawFrom (top : Nat) (menu : Menu) :
    (rawFrom top menu).map (·.entry) = (entries menu).map MenuEntry.parsed := by
  induction menu generalizing top with
  | nil => rfl
  | cons item more ih =>
    have hitem : (item.raw top).map (·.entry) = item.entries.map MenuEntry.parsed := by
      apply List.ext_getElem?
      intro j
      rw [List.getElem?_map, item.getElem?_raw, List.getElem?_map, Option.map_map]
      rfl
    rw [rawFrom, entries, List.flatMap_cons, List.map_append, List.map_append, hitem, ih, ← entries]

/-- The parsed entry at a place is the one that stands there. -/
private theorem rawFrom_getElem? (top : Nat) (h : Stands menu k j item e) :
    (rawFrom top menu)[offset menu k + j]? = some ⟨e.parsed, top + k, item.place j⟩ := by
  induction menu generalizing top k with
  | nil => cases h.hitem
  | cons first more ih =>
    cases k with
    | zero =>
      obtain rfl : first = item := Option.some.inj h.hitem
      have hj : j < (first.raw top).length := by
        rw [first.length_raw]
        exact (List.getElem?_eq_some_iff.mp h.hentry).1
      have hzero : offset (first :: more) 0 + j = j := Nat.zero_add j
      rw [rawFrom, hzero, List.getElem?_append_left hj, first.getElem?_raw, h.hentry]
      rfl
    | succ k =>
      have hmore : Stands more k j item e := ⟨h.hitem, h.hentry⟩
      have hoffset : offset (first :: more) (k + 1) + j =
          (first.raw top).length + (offset more k + j) := by
        rw [offset, List.take_succ_cons, entries, List.flatMap_cons, List.length_append,
          first.length_raw, Nat.add_assoc, offset, entries]
      rw [rawFrom, hoffset, List.getElem?_append_right (Nat.le_add_right _ _),
        Nat.add_sub_cancel_left, ih (top + 1) hmore, Nat.add_assoc, Nat.add_comm 1]

/-- The parsed entry at the offset of a place is the one that stands there. -/
theorem Stands.raw_at (h : Stands menu k j item e) :
    (rawFrom 0 menu)[offset menu k + j]? = some ⟨e.parsed, k, item.place j⟩ := by
  have hraw := rawFrom_getElem? 0 h
  rwa [Nat.zero_add] at hraw

/-- The entry that the machine has at a position is one of the menu at its place. -/
theorem exists_stands_of_raw {r : RawEntry} (h : (rawFrom 0 menu)[p]? = some r) :
    ∃ k j item e, Stands menu k j item e ∧ p = offset menu k + j ∧
      r = ⟨e.parsed, k, item.place j⟩ := by
  have hp : p < (entries menu).length := by
    rw [← length_rawFrom 0]
    exact (List.getElem?_eq_some_iff.mp h).1
  obtain ⟨k, j, item, hstands, rfl⟩ := exists_stands (List.getElem?_eq_getElem hp)
  exact ⟨k, j, item, _, hstands, rfl, Option.some.inj (h.symm.trans hstands.raw_at)⟩

/-- A recorded submenu is an item of the menu. -/
theorem mem_subsFrom {s : RawSubmenu} (top : Nat) (h : s ∈ subsFrom top menu) :
    ∃ k title id first rest, menu[k]? = some (.submenu title id first rest) ∧
      s = ⟨top + k, some id.val, some title.val⟩ := by
  induction menu generalizing top with
  | nil => cases h
  | cons item more ih =>
    rcases List.mem_append.mp h with h | h
    · cases item with
      | entry e => cases h
      | submenu title id first rest =>
        exact ⟨0, title, id, first, rest, rfl, List.mem_singleton.mp h⟩
    · obtain ⟨k, title, id, first, rest, hitem, hs⟩ := ih (top + 1) h
      exact ⟨k + 1, title, id, first, rest, hitem, by rw [hs, Nat.add_assoc, Nat.add_comm 1]⟩

/-- Every submenu of the menu is recorded. -/
theorem subsFrom_mem {title id : Name} {first : MenuEntry} {rest : List MenuEntry} (top : Nat)
    (h : menu[k]? = some (.submenu title id first rest)) :
    (⟨top + k, some id.val, some title.val⟩ : RawSubmenu) ∈ subsFrom top menu := by
  induction menu generalizing top k with
  | nil => cases h
  | cons item more ih =>
    cases k with
    | zero =>
      obtain rfl : item = .submenu title id first rest := Option.some.inj h
      exact List.mem_append_left _ List.mem_cons_self
    | succ k =>
      have hmem := ih (top + 1) h
      rw [Nat.add_assoc, Nat.add_comm 1] at hmem
      exact List.mem_append_right _ hmem

end Places

section Names

private theorem named_iff (title id n : Str) :
    (some id == some n || some title == some n) = true ↔ n ∈ [title, id] := by
  rw [Bool.or_eq_true, beq_iff_eq, beq_iff_eq, Option.some_inj, Option.some_inj, List.mem_cons,
    List.mem_singleton]
  constructor
  · rintro (rfl | rfl)
    · exact Or.inr rfl
    · exact Or.inl rfl
  · rintro (rfl | rfl)
    · exact Or.inr rfl
    · exact Or.inl rfl

/-- A parsed entry answers to its title and to its id. -/
theorem named_raw (e : MenuEntry) (top : Nat) (sub : Option Nat) (n : Str) :
    (RawEntry.mk e.parsed top sub).named n = true ↔ n ∈ e.names :=
  named_iff e.title.val e.id.val n

/-- A recorded submenu answers to its title and to its id. -/
theorem named_sub (top : Nat) (title id : Name) (n : Str) :
    (RawSubmenu.mk top (some id.val) (some title.val)).named n = true ↔
      n ∈ [title.val, id.val] :=
  named_iff title.val id.val n

variable {menu : Menu} {k k' j j' : Nat} {item item' : Item} {e e' : MenuEntry} {n : Str}

/-- The item's own names are among its names. -/
theorem Item.own_subset (item : Item) : item.own ⊆ item.names := by
  cases item with
  | entry e => exact List.Subset.refl _
  | submenu title id first rest => exact List.subset_append_left _ _

/-- The names of an item's entries are among its names. -/
theorem Item.entries_subset (item : Item) : item.entries.flatMap MenuEntry.names ⊆ item.names := by
  cases item with
  | entry e => exact List.Subset.refl _
  | submenu title id first rest => exact List.subset_append_right _ _

/-- An entry's names are among those of its item. -/
theorem Stands.names_mem (h : Stands menu k j item e) (hn : n ∈ e.names) : n ∈ item.names :=
  item.entries_subset
    (List.mem_flatMap.mpr ⟨e, List.mem_iff_getElem?.mpr ⟨j, h.hentry⟩, hn⟩)

/-- A name of items tells the item. -/
theorem Distinct.item_eq (hd : Distinct menu) (h : menu[k]? = some item)
    (h' : menu[k']? = some item') (hn : n ∈ item.own) (hn' : n ∈ item'.own) : k = k' :=
  Positions.eq_of_common hd h h' (item.own_subset hn) (item'.own_subset hn')

/-- In a distinct menu no name of an item occurs twice. -/
theorem Distinct.nodup_item (hd : Distinct menu) (h : menu[k]? = some item) : item.names.Nodup :=
  (List.nodup_flatMap.mp hd).1 item (List.mem_iff_getElem?.mpr ⟨k, h⟩)

/-- A name of entries tells the item and the child. -/
theorem Distinct.entry_eq (hd : Distinct menu) (h : Stands menu k j item e)
    (h' : Stands menu k' j' item' e') (hn : n ∈ e.names) (hn' : n ∈ e'.names) :
    k = k' ∧ j = j' := by
  obtain rfl : k = k' :=
    Positions.eq_of_common hd h.hitem h'.hitem (h.names_mem hn) (h'.names_mem hn')
  obtain rfl : item = item' := Option.some.inj (h.hitem.symm.trans h'.hitem)
  have hnodup : (item.entries.flatMap MenuEntry.names).Nodup := by
    have hnames := hd.nodup_item h.hitem
    cases item with
    | entry e => exact hnames
    | submenu title id first rest => exact hnames.of_append_right
  exact ⟨rfl, Positions.eq_of_common hnodup h.hentry h'.hentry hn hn'⟩

/-- No entry has the title or the id of a submenu. -/
theorem Distinct.submenu_ne (hd : Distinct menu) {title id : Name} {first : MenuEntry}
    {rest : List MenuEntry} (h : menu[k]? = some (.submenu title id first rest))
    (h' : Stands menu k' j' item' e') (hn : n ∈ [title.val, id.val]) : n ∉ e'.names := by
  intro hn'
  obtain rfl : k = k' := Positions.eq_of_common hd h h'.hitem (List.mem_append_left _ hn)
    (h'.names_mem hn')
  obtain rfl := Option.some.inj (h.symm.trans h'.hitem)
  have hchild : n ∈ (first :: rest).flatMap MenuEntry.names :=
    List.mem_flatMap.mpr ⟨e', List.mem_iff_getElem?.mpr ⟨j', h'.hentry⟩, hn'⟩
  exact List.disjoint_of_nodup_append (hd.nodup_item h) hn hchild

end Names

end BootExtractor.Boot.Grub
