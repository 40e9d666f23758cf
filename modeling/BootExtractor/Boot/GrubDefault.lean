import BootExtractor.Boot.GrubPlaces

/-!
# The default of a menu

Every search of the resolver ends at the one entry that the default stands for: an index
is a place, and titles and ids tell the entries and the items apart.
-/

namespace BootExtractor.Boot.Grub

section Searches

variable {menu : Menu} {k j p : Nat} {item : Item} {e : MenuEntry}

/-- Every item has a first entry. -/
theorem Item.exists_first (item : Item) : ∃ e, item.entries[0]? = some e := by
  cases item with
  | entry e => exact ⟨e, rfl⟩
  | submenu title id first rest => exact ⟨first, rfl⟩

/-- An entry without a place in a submenu is the item itself. -/
theorem Item.place_none {item : Item} {j : Nat} {e : MenuEntry} (h : item.entries[j]? = some e)
    (hplace : item.place j = none) : item = .entry e ∧ j = 0 := by
  cases item with
  | entry e' =>
    cases j with
    | zero => exact ⟨congrArg Item.entry (Option.some.inj h), rfl⟩
    | succ j => cases h
  | submenu title id first rest => cases hplace

/-- An item of the top level starts with its first entry. -/
theorem firstOfTop_eq (hk : k < menu.length) :
    firstOfTop (rawFrom 0 menu) k = some (offset menu k) := by
  obtain ⟨e, he⟩ := (menu[k]).exists_first
  have hstands : Stands menu k 0 menu[k] e := ⟨List.getElem?_eq_getElem hk, he⟩
  have hfirst := hstands.raw_at
  rw [Nat.add_zero] at hfirst
  have hbound : ∀ q r, (rawFrom 0 menu)[q]? = some r → r.top = k → offset menu k ≤ q := by
    intro q r hr htop
    obtain ⟨k', j', item', e', h', rfl, rfl⟩ := exists_stands_of_raw hr
    obtain rfl : k' = k := htop
    exact Nat.le_add_right _ _
  have hany : (rawFrom 0 menu).findIdx? (fun e => e.top == k) = some (offset menu k) :=
    Positions.findIdx?_eq_first hfirst (beq_self_eq_true k)
      fun q r hr hp => hbound q r hr (beq_iff_eq.mp hp)
  rw [firstOfTop, hany]
  cases hsearch : (rawFrom 0 menu).findIdx? (fun e => e.top == k && e.sub.isNone) with
  | none => rfl
  | some q =>
    obtain ⟨r, hr, hp⟩ := Positions.getElem?_of_findIdx? hsearch
    obtain ⟨k', j', item', e', h', rfl, rfl⟩ := exists_stands_of_raw hr
    obtain ⟨htop, hsub⟩ := Bool.and_eq_true_iff.mp hp
    obtain rfl : k' = k := beq_iff_eq.mp htop
    obtain ⟨_, rfl⟩ := Item.place_none h'.hentry (Option.isNone_iff_eq_none.mp hsub)
    rfl

private theorem top_lt_length {q : Nat} {r : RawEntry} (hr : (rawFrom 0 menu)[q]? = some r) :
    r.top < menu.length := by
  obtain ⟨k', j', item', e', h', rfl, rfl⟩ := exists_stands_of_raw hr
  exact (List.getElem?_eq_some_iff.mp h'.hitem).1

/-- Positions past the menu have no entries. -/
theorem top_beq_outside (hk : menu.length ≤ k) (q : Nat) (r : RawEntry)
    (hr : (rawFrom 0 menu)[q]? = some r) : (r.top == k) = false :=
  beq_eq_false_iff_ne.mpr (Nat.ne_of_lt (Nat.lt_of_lt_of_le (top_lt_length hr) hk))

private theorem firstOfTop_none (hk : menu.length ≤ k) : firstOfTop (rawFrom 0 menu) k = none := by
  have hnone := top_beq_outside hk
  rw [firstOfTop, Positions.findIdx?_eq_none hnone,
    Positions.findIdx?_eq_none fun q r hr => by rw [hnone q r hr, Bool.false_and]]
  rfl

/-- A name of an entry finds that entry. -/
theorem flat_eq (hd : Distinct menu) (h : Stands menu k j item e) {n : Str} (hn : n ∈ e.names) :
    flat (rawFrom 0 menu) n = some (offset menu k + j) := by
  have hunique : ∀ (q : Nat) (r : RawEntry), (rawFrom 0 menu)[q]? = some r →
      r.named n = true → q = offset menu k + j := by
    intro q r hr hnamed
    obtain ⟨k', j', item', e', h', rfl, rfl⟩ := exists_stands_of_raw hr
    obtain ⟨rfl, rfl⟩ := hd.entry_eq h h' hn ((named_raw _ _ _ _).mp hnamed)
    rfl
  rw [flat]
  cases hid : (rawFrom 0 menu).findIdx? (fun e => e.entry.id == some n) with
  | some q =>
    obtain ⟨r, hr, hp⟩ := Positions.getElem?_of_findIdx? hid
    rw [hunique q r hr (Bool.or_eq_true_iff.mpr (Or.inl hp))]
    rfl
  | none =>
    have htitle : (RawEntry.mk e.parsed k (item.place j)).entry.title == some n := by
      rcases Bool.or_eq_true_iff.mp ((named_raw e k (item.place j) n).mpr hn) with hp | hp
      · have hmem := List.mem_iff_getElem?.mpr ⟨_, h.raw_at⟩
        rw [List.findIdx?_eq_none_iff.mp hid _ hmem] at hp
        cases hp
      · exact hp
    exact Positions.findIdx?_eq_first h.raw_at htitle fun q r hr hp =>
      (hunique q r hr (Bool.or_eq_true_iff.mpr (Or.inr hp))).ge

/-- A name that no entry has finds no entry. -/
private theorem flat_none {n : Str} (h : ∀ e ∈ entries menu, n ∉ e.names) :
    flat (rawFrom 0 menu) n = none := by
  have hnone : ∀ (q : Nat) (r : RawEntry), (rawFrom 0 menu)[q]? = some r →
      r.named n = false := by
    intro q r hr
    obtain ⟨k', j', item', e', h', rfl, rfl⟩ := exists_stands_of_raw hr
    have hmem : e' ∈ entries menu := List.mem_iff_getElem?.mpr ⟨_, h'.getElem?⟩
    exact Bool.eq_false_iff.mpr fun hnamed => h e' hmem ((named_raw _ _ _ _).mp hnamed)
  rw [flat, Positions.findIdx?_eq_none fun q r hr => (Bool.or_eq_false_iff.mp (hnone q r hr)).1,
    Positions.findIdx?_eq_none fun q r hr => (Bool.or_eq_false_iff.mp (hnone q r hr)).2]
  rfl

/-- An entry of the top level by one of its names. -/
theorem exists_entry_of_named {r : RawEntry} {n : Str} (hr : r ∈ rawFrom 0 menu)
    (h : (r.sub.isNone && r.named n) = true) :
    ∃ e, menu[r.top]? = some (.entry e) ∧ n ∈ e.names := by
  obtain ⟨q, hq⟩ := List.mem_iff_getElem?.mp hr
  obtain ⟨k', j', item', e', h', rfl, rfl⟩ := exists_stands_of_raw hq
  obtain ⟨hsub, hnamed⟩ := Bool.and_eq_true_iff.mp h
  obtain ⟨rfl, rfl⟩ := Item.place_none h'.hentry (Option.isNone_iff_eq_none.mp hsub)
  exact ⟨e', h'.hitem, (named_raw _ _ _ _).mp hnamed⟩

/-- A submenu by one of its names. -/
theorem exists_item_of_named {s : RawSubmenu} {n : Str} (hs : s ∈ subsFrom 0 menu)
    (h : s.named n = true) : ∃ item, menu[s.top]? = some item ∧ n ∈ item.own := by
  obtain ⟨k', title, id, first, rest, hitem, rfl⟩ := mem_subsFrom 0 hs
  rw [Nat.zero_add]
  exact ⟨_, hitem, (named_sub _ _ _ _).mp h⟩

/-- A name of an item finds that item. -/
theorem resolveHead_name (hd : Distinct menu) {n : Name} (h : menu[k]? = some item)
    (hn : item.Named n) : resolveHead (rawFrom 0 menu) (subsFrom 0 menu) n.val = some k := by
  have hentries : ∀ r ∈ rawFrom 0 menu, (r.sub.isNone && r.named n.val) = true →
      r.top = k ∧ ∃ e, item = .entry e := by
    intro r hr hp
    obtain ⟨e, he, hmem⟩ := exists_entry_of_named hr hp
    obtain rfl : r.top = k := hd.item_eq he h hmem hn
    exact ⟨rfl, e, Option.some.inj (h.symm.trans he)⟩
  rw [resolveHead, n.property.noIndex]
  cases item with
  | entry e =>
    have hstands : Stands menu k 0 (.entry e) e := ⟨h, rfl⟩
    have hmem := List.mem_iff_getElem?.mpr ⟨_, hstands.raw_at⟩
    have hnamed : (RawEntry.mk e.parsed k none).named n.val = true := (named_raw _ _ _ _).mpr hn
    have hfind := Positions.map_find?_eq (f := RawEntry.top) hmem
      (Bool.and_eq_true_iff.mpr ⟨rfl, hnamed⟩) fun r hr hp => (hentries r hr hp).1
    simp only [hfind]
    rfl
  | submenu title id first rest =>
    have hnone : (rawFrom 0 menu).find? (fun e => e.sub.isNone && e.named n.val) = none := by
      rw [List.find?_eq_none]
      intro r hr hp
      obtain ⟨_, e, he⟩ := hentries r hr hp
      cases he
    have hsubs : ∀ s ∈ subsFrom 0 menu, s.named n.val = true → s.top = k := by
      intro s hs hnamed
      obtain ⟨item', hitem, hmem⟩ := exists_item_of_named hs hnamed
      exact hd.item_eq hitem h hmem hn
    have hmem := subsFrom_mem 0 h
    rw [Nat.zero_add] at hmem
    have hfind := Positions.map_find?_eq (f := RawSubmenu.top) hmem
      ((named_sub _ _ _ _).mpr hn) hsubs
    simp only [hnone, hfind]
    rfl

/-- A name that no item has finds no submenu. -/
private theorem find?_submenu_none {n : Name} (h : ∀ k, ¬Heads menu (.name n) k) :
    (subsFrom 0 menu).find? (·.named n.val) = none := by
  rw [List.find?_eq_none]
  intro s hs hnamed
  obtain ⟨item, hitem, hmem⟩ := exists_item_of_named hs hnamed
  exact h s.top (.name hitem hmem)

/-- A name that heads nothing resolves to nothing. -/
theorem resolveHead_none {n : Name} (h : ∀ k, ¬Heads menu (.name n) k) :
    resolveHead (rawFrom 0 menu) (subsFrom 0 menu) n.val = none := by
  have hentries : (rawFrom 0 menu).find? (fun e => e.sub.isNone && e.named n.val) = none := by
    rw [List.find?_eq_none]
    intro r hr hp
    obtain ⟨e, he, hmem⟩ := exists_entry_of_named hr hp
    exact h r.top (.name he hmem)
  have hsubs : (subsFrom 0 menu).find? (·.named n.val) = none := find?_submenu_none h
  rw [resolveHead, n.property.noIndex]
  simp only [hentries, hsubs]
  rfl

/-- A place in a submenu is the position there. -/
theorem Item.place_eq {item : Item} {j i : Nat} (h : item.place j = some i) : i = j := by
  cases item with
  | entry e => cases h
  | submenu title id first rest => exact (Option.some.inj h).symm

/-- A component finds the child that it stands for. -/
theorem resolveChild_eq (hd : Distinct menu) (h : menu[k]? = some item) {c : Component}
    (hchild : item.IsChild c j) :
    resolveChild (rawFrom 0 menu) k c.text = some (offset menu k + j) := by
  cases hchild with
  | @index _ hj e he hplace =>
    have hstands : Stands menu k j item e := ⟨h, he⟩
    rw [Component.text, resolveChild, Str.parseUsize_dec hj]
    refine Positions.findIdx?_eq_first hstands.raw_at
      (Bool.and_eq_true_iff.mpr ⟨beq_self_eq_true k, beq_iff_eq.mpr hplace⟩) ?_
    intro q r hr hp
    obtain ⟨k', j', item', e', h', rfl, rfl⟩ := exists_stands_of_raw hr
    obtain ⟨htop, hsub⟩ := Bool.and_eq_true_iff.mp hp
    obtain rfl : k' = k := beq_iff_eq.mp htop
    obtain rfl : j = j' := Item.place_eq (beq_iff_eq.mp hsub)
    exact Nat.le_refl _
  | @name n _ e he hplace hn =>
    have hstands : Stands menu k j item e := ⟨h, he⟩
    have hsome : (item.place j).isSome = true := by rw [hplace]; rfl
    rw [Component.text, resolveChild, n.property.noIndex]
    refine Positions.findIdx?_eq_first hstands.raw_at
      (Bool.and_eq_true_iff.mpr ⟨Bool.and_eq_true_iff.mpr ⟨beq_self_eq_true k, hsome⟩,
        (named_raw _ _ _ _).mpr hn⟩) ?_
    intro q r hr hp
    obtain ⟨k', j', item', e', h', rfl, rfl⟩ := exists_stands_of_raw hr
    have hnamed := (named_raw _ _ _ _).mp (Bool.and_eq_true_iff.mp hp).2
    obtain ⟨rfl, rfl⟩ := hd.entry_eq hstands h' hn hnamed
    exact Nat.le_refl _

/-- A component that names no child resolves to nothing. -/
theorem resolveChild_none (h : menu[k]? = some item) {c : Component}
    (hchild : ∀ j, ¬item.IsChild c j) : resolveChild (rawFrom 0 menu) k c.text = none := by
  have hitem : ∀ {k' j' : Nat} {item' : Item} {e' : MenuEntry}, Stands menu k' j' item' e' →
      (k' == k) = true → item.entries[j']? = some e' ∧ item' = item := by
    intro k' j' item' e' h' htop
    obtain rfl : k' = k := beq_iff_eq.mp htop
    obtain rfl : item' = item := Option.some.inj (h'.hitem.symm.trans h)
    exact ⟨h'.hentry, rfl⟩
  cases c with
  | index j hj =>
    rw [Component.text, resolveChild, Str.parseUsize_dec hj]
    refine Positions.findIdx?_eq_none fun q r hr => Bool.eq_false_iff.mpr fun hp => ?_
    obtain ⟨k', j', item', e', h', rfl, rfl⟩ := exists_stands_of_raw hr
    obtain ⟨htop, hsub⟩ := Bool.and_eq_true_iff.mp hp
    obtain ⟨he, rfl⟩ := hitem h' htop
    have hplace : item'.place j' = some j := beq_iff_eq.mp hsub
    obtain rfl := Item.place_eq hplace
    exact hchild j (.index he hplace)
  | name n =>
    rw [Component.text, resolveChild, n.property.noIndex]
    refine Positions.findIdx?_eq_none fun q r hr => Bool.eq_false_iff.mpr fun hp => ?_
    obtain ⟨k', j', item', e', h', rfl, rfl⟩ := exists_stands_of_raw hr
    obtain ⟨hplaced, hnamed⟩ := Bool.and_eq_true_iff.mp hp
    obtain ⟨htop, hsub⟩ := Bool.and_eq_true_iff.mp hplaced
    obtain ⟨he, rfl⟩ := hitem h' htop
    obtain ⟨i, hplace⟩ := Option.isSome_iff_exists.mp hsub
    obtain rfl := Item.place_eq hplace
    exact hchild i (.name he hplace ((named_raw _ _ _ _).mp hnamed))

/-- The resolver of one component, on a name. -/
theorem resolveSingle_name (n : Name) :
    resolveSingle (rawFrom 0 menu) (subsFrom 0 menu) n.val =
      (flat (rawFrom 0 menu) n.val).or
        (((subsFrom 0 menu).find? (·.named n.val)).bind fun s =>
          firstOfTop (rawFrom 0 menu) s.top) := by
  rw [resolveSingle, n.property.noIndex]

/-- A name of an entry resolves to that entry. -/
theorem resolveSingle_entry (hd : Distinct menu) (h : Stands menu k j item e) {n : Name}
    (hn : e.Named n) :
    resolveSingle (rawFrom 0 menu) (subsFrom 0 menu) n.val = some (offset menu k + j) := by
  rw [resolveSingle_name, flat_eq hd h hn]
  rfl

/-- A name of an item finds the first entry of the item. -/
theorem resolveSingle_item (hd : Distinct menu) (h : menu[k]? = some item) {n : Name}
    (hn : item.Named n) :
    resolveSingle (rawFrom 0 menu) (subsFrom 0 menu) n.val = some (offset menu k) := by
  cases item with
  | entry e =>
    have hstands : Stands menu k 0 (.entry e) e := ⟨h, rfl⟩
    exact resolveSingle_entry hd hstands hn
  | submenu title id first rest =>
    have hflat : flat (rawFrom 0 menu) n.val = none := by
      apply flat_none
      intro e' he'
      obtain ⟨p, hp⟩ := List.mem_iff_getElem?.mp he'
      obtain ⟨k', j', item', h', _⟩ := exists_stands hp
      exact hd.submenu_ne h h' hn
    have hsubs : ∀ s ∈ subsFrom 0 menu, s.named n.val = true →
        firstOfTop (rawFrom 0 menu) s.top = some (offset menu k) := by
      intro s hs hnamed
      obtain ⟨item', hitem, hmem⟩ := exists_item_of_named hs hnamed
      rw [hd.item_eq hitem h hmem hn]
      exact firstOfTop_eq (List.getElem?_eq_some_iff.mp h).1
    have hmem := subsFrom_mem 0 h
    rw [Nat.zero_add] at hmem
    have hfind := Positions.map_find?_eq hmem ((named_sub _ _ _ _).mpr hn) hsubs
    obtain ⟨s, hs, hfirst⟩ := Option.map_eq_some_iff.mp hfind
    rw [resolveSingle_name, hflat, hs]
    exact hfirst

/-- A name of nothing resolves to nothing. -/
theorem resolveSingle_none {n : Name} (he : ∀ e ∈ entries menu, ¬e.Named n)
    (hhead : ∀ k, ¬Heads menu (.name n) k) :
    resolveSingle (rawFrom 0 menu) (subsFrom 0 menu) n.val = none := by
  rw [resolveSingle_name, flat_none he, find?_submenu_none hhead]
  rfl

/-- Behind the last item there are no children. -/
private theorem resolveChild_outside (hk : menu.length ≤ k) (c : Str) :
    resolveChild (rawFrom 0 menu) k c = none := by
  have hnone := top_beq_outside hk
  rw [resolveChild]
  split
  · exact Positions.findIdx?_eq_none fun q r hr => by rw [hnone q r hr, Bool.false_and]
  · exact Positions.findIdx?_eq_none fun q r hr => by
      rw [hnone q r hr, Bool.false_and, Bool.false_and]

/-- A component finds the item that it stands for. -/
theorem resolveHead_eq (hd : Distinct menu) {c : Component} (h : Heads menu c k) :
    resolveHead (rawFrom 0 menu) (subsFrom 0 menu) c.text = some k := by
  cases h with
  | @index _ h hk => rw [Component.text, resolveHead, Str.parseUsize_dec h]
  | @name n _ item hitem hn => exact resolveHead_name hd hitem hn

/-- A name of no entry finds none. -/
theorem flat_component {c : Component} (hc : ∀ m, c = .name m → ∀ e ∈ entries menu, ¬e.Named m) :
    flat (rawFrom 0 menu) c.text = none := by
  apply flat_none
  intro e he hmem
  cases c with
  | index i hi =>
    have hnumber : Str.parseUsize (Str.dec i) = some i := Str.parseUsize_dec hi
    have hname : Str.dec i = e.title.val ∨ Str.dec i = e.id.val := by
      rcases List.mem_cons.mp hmem with htitle | hmem
      · exact Or.inl htitle
      · exact Or.inr (List.mem_singleton.mp hmem)
    rcases hname with hname | hname
    · rw [hname, e.title.property.noIndex] at hnumber
      cases hnumber
    · rw [hname, e.id.property.noIndex] at hnumber
      cases hnumber
  | name m => exact hc m rfl e he hmem

end Searches

section Components

/-- A component has a text. -/
theorem Component.text_ne (c : Component) : c.text ≠ [] := by
  cases c with
  | index i hi => exact Str.dec_ne_nil i
  | name n => exact n.property.ne_nil

/-- There is nothing to trim off a component. -/
theorem Component.trim_text (c : Component) : Str.trim c.text = c.text := by
  cases c with
  | index i hi => exact Str.trim_dec i
  | name n => exact n.property.trimmed

/-- A component has no parts. -/
theorem Component.split_text (c : Component) : Str.split '>' c.text = [c.text] :=
  List.splitOn_eq_singleton fun hmem => (c.text_clean _ hmem).2.2.1 rfl

/-- A default is resolved by its components. -/
theorem resolveDefault_components {raw : List RawEntry} (hraw : raw ≠ []) (subs : List RawSubmenu)
    {spec : Str} (hspec : spec ≠ []) {comps : List Str}
    (h : (Str.split '>' spec).map Str.trim = comps) :
    resolveDefault raw subs spec = (resolvePath raw subs comps).or (some 0) := by
  have hempty : raw.isEmpty = false := List.isEmpty_eq_false_iff.mpr hraw
  rw [resolveDefault, hempty, if_neg Bool.false_ne_true]
  simp only [hspec, if_false, h]

/-- A default of one component is resolved by itself. -/
theorem resolveDefault_item {raw : List RawEntry} (hraw : raw ≠ []) (subs : List RawSubmenu)
    (c : Component) :
    resolveDefault raw subs (Spec.item c).text = (resolveSingle raw subs c.text).or (some 0) := by
  have hcomps : (Str.split '>' c.text).map Str.trim = [c.text] := by
    rw [c.split_text, List.map_singleton, c.trim_text]
  exact resolveDefault_components hraw subs c.text_ne hcomps

/-- A default of two components is resolved as a path. -/
theorem resolveDefault_path {raw : List RawEntry} (hraw : raw ≠ []) (subs : List RawSubmenu)
    (head child : Component) :
    resolveDefault raw subs (Spec.path head child).text =
      (resolvePath raw subs [head.text, child.text]).or (some 0) := by
  have hne : head.text ++ '>' :: child.text ≠ [] := List.append_ne_nil_of_right_ne_nil _
    (List.cons_ne_nil _ _)
  have hhead : '>' ∉ head.text := fun hmem => (head.text_clean _ hmem).2.2.1 rfl
  have hcomps : (Str.split '>' (head.text ++ '>' :: child.text)).map Str.trim =
      [head.text, child.text] := by
    rw [Str.split, List.splitOn_append_cons_self_of_not_mem hhead, ← Str.split, child.split_text,
      List.map_cons, List.map_singleton, head.trim_text, child.trim_text]
  exact resolveDefault_components hraw subs hne hcomps

variable {menu : Menu}

private theorem rawFrom_ne (hne : menu ≠ []) : rawFrom 0 menu ≠ [] := by
  obtain ⟨item, more, rfl⟩ := List.exists_cons_of_ne_nil hne
  obtain ⟨e, he⟩ := item.exists_first
  have hstands : Stands (item :: more) 0 0 item e := ⟨rfl, he⟩
  exact List.ne_nil_of_mem (List.mem_iff_getElem?.mpr ⟨_, hstands.raw_at⟩)

/-- The resolver finds the entry that the default stands for. -/
theorem resolveDefault_eq (hne : menu ≠ []) (hd : Distinct menu) {spec : Spec} {pos : Nat}
    (h : Chosen menu spec pos) :
    resolveDefault (rawFrom 0 menu) (subsFrom 0 menu) spec.text = some pos := by
  have hraw := rawFrom_ne hne
  cases h with
  | @top k h hk =>
    rw [resolveDefault_item hraw, Component.text, resolveSingle, Str.parseUsize_dec h]
    simp only [firstOfTop_eq hk]
    rfl
  | @named n p e he hn =>
    obtain ⟨k, j, item, hstands, rfl⟩ := exists_stands he
    rw [resolveDefault_item hraw, Component.text, resolveSingle_entry hd hstands hn]
    rfl
  | @submenu n k item hitem hn =>
    rw [resolveDefault_item hraw, Component.text, resolveSingle_item hd hitem hn]
    rfl
  | @child head c k j item hhead hitem hchild =>
    rw [resolveDefault_path hraw, resolvePath, resolveHead_eq hd hhead]
    simp only [resolveChild_eq hd hitem hchild]
    rfl
  | @whole head c k item hhead hitem hchild =>
    have hk : k < menu.length := (List.getElem?_eq_some_iff.mp hitem).1
    rw [resolveDefault_path hraw, resolvePath, resolveHead_eq hd hhead]
    simp only [resolveChild_none hitem hchild, firstOfTop_eq hk]
    rfl
  | @stale n m p e hhead he hm =>
    obtain ⟨k, j, item, hstands, rfl⟩ := exists_stands he
    rw [resolveDefault_path hraw, resolvePath, Component.text, resolveHead_none hhead]
    exact congrArg (Option.or · (some 0)) (flat_eq hd hstands hm)
  | @outside k h hk =>
    rw [resolveDefault_item hraw, Component.text, resolveSingle, Str.parseUsize_dec h]
    simp only [firstOfTop_none hk]
    rfl
  | @unknown n he hhead =>
    rw [resolveDefault_item hraw, Component.text, resolveSingle_none he hhead]
    rfl
  | @outsidePath k h c hk =>
    rw [resolveDefault_path hraw, resolvePath, Component.text, resolveHead, Str.parseUsize_dec h]
    simp only [resolveChild_outside hk, firstOfTop_none hk]
    rfl
  | @lost n c hhead hc =>
    rw [resolveDefault_path hraw, resolvePath, Component.text, resolveHead_none hhead]
    exact congrArg (Option.or · (some 0)) (flat_component hc)

/-- Every default stands for an entry. -/
theorem exists_chosen (menu : Menu) (spec : Spec) : ∃ pos, Chosen menu spec pos := by
  cases spec with
  | item c =>
    cases c with
    | index k h =>
      by_cases hk : k < menu.length
      · exact ⟨_, .top hk⟩
      · exact ⟨0, .outside (Nat.le_of_not_lt hk)⟩
    | name n =>
      by_cases hentry : ∃ e ∈ entries menu, e.Named n
      · obtain ⟨e, he, hn⟩ := hentry
        obtain ⟨p, hp⟩ := List.mem_iff_getElem?.mp he
        exact ⟨p, .named hp hn⟩
      · by_cases hhead : ∃ k, Heads menu (.name n) k
        · obtain ⟨k, hk⟩ := hhead
          cases hk with
          | name hitem hn => exact ⟨_, .submenu hitem hn⟩
        · exact ⟨0, .unknown (fun e he hn => hentry ⟨e, he, hn⟩) (not_exists.mp hhead)⟩
  | path head child =>
    by_cases hhead : ∃ k, Heads menu head k
    · obtain ⟨k, hk⟩ := hhead
      have hlt : k < menu.length := by
        cases hk with
        | index hk => exact hk
        | name hitem _ => exact (List.getElem?_eq_some_iff.mp hitem).1
      have hitem : menu[k]? = some menu[k] := List.getElem?_eq_getElem hlt
      by_cases hchild : ∃ j, (menu[k]).IsChild child j
      · obtain ⟨j, hj⟩ := hchild
        exact ⟨_, .child hk hitem hj⟩
      · exact ⟨_, .whole hk hitem (not_exists.mp hchild)⟩
    · cases head with
      | index k h =>
        have hk : menu.length ≤ k := by
          by_contra hlt
          exact hhead ⟨k, .index (Nat.lt_of_not_le hlt)⟩
        exact ⟨0, .outsidePath hk⟩
      | name n =>
        by_cases hentry : ∃ m, child = .name m ∧ ∃ e ∈ entries menu, e.Named m
        · obtain ⟨m, rfl, e, he, hm⟩ := hentry
          obtain ⟨p, hp⟩ := List.mem_iff_getElem?.mp he
          exact ⟨p, .stale (not_exists.mp hhead) hp hm⟩
        · exact ⟨0, .lost (not_exists.mp hhead) fun m hm e he hn => hentry ⟨m, hm, e, he, hn⟩⟩

end Components

section Decode

variable {spec : Spec} {menu : Menu} {text : Str}

/-- The text of a menu is read as its entries in order, and the default is the one entry
that the default stands for. -/
theorem parseStr_menu (hne : menu ≠ []) (hd : Distinct menu) (h : Renders spec menu text)
    (env : Env) :
    (parseStr text env).entries = (entries menu).map MenuEntry.parsed ∧
      ∃ pos, (parseStr text env).default = some pos ∧ ∀ p, Chosen menu spec p ↔ p = pos := by
  obtain ⟨b, hb⟩ := run_renders h env
  have hraw : (run env (Str.lines text)).salvaged = rawFrom 0 menu := by
    rw [hb, State.salvaged]
    exact List.append_nil _
  have hdefault : (parseStr text env).default =
      resolveDefault (rawFrom 0 menu) (subsFrom 0 menu) spec.text := by
    simp only [parseStr, hraw]
    rw [hb]
    rfl
  constructor
  · simp only [parseStr, hraw]
    exact map_entry_rawFrom 0 menu
  · obtain ⟨pos, hpos⟩ := exists_chosen menu spec
    refine ⟨pos, hdefault.trans (resolveDefault_eq hne hd hpos), fun p => ⟨fun hp => ?_, ?_⟩⟩
    · have htwo := (resolveDefault_eq hne hd hp).symm.trans (resolveDefault_eq hne hd hpos)
      exact Option.some.inj htwo
    · rintro rfl
      exact hpos

/-- A kernel at the top level and two in a submenu. -/
def sampleMenu : Menu :=
  [.entry ⟨⟨"Linux".toList, by decide⟩, ⟨"linux".toList, by decide⟩,
    ⟨"/vmlinuz".toList, by decide⟩, [⟨"ro".toList, by decide⟩, ⟨"quiet".toList, by decide⟩],
    [⟨"/initrd".toList, by decide⟩]⟩,
  .submenu ⟨"More kernels".toList, by decide⟩ ⟨"more".toList, by decide⟩
    ⟨⟨"Old Linux".toList, by decide⟩, ⟨"old".toList, by decide⟩, ⟨"/old".toList, by decide⟩, [], []⟩
    [⟨⟨"Rescue".toList, by decide⟩, ⟨"rescue".toList, by decide⟩,
      ⟨"/rescue".toList, by decide⟩, [], []⟩]]

/-- The default of the sample, as a path into a submenu. -/
def sampleSpec : Spec :=
  .path (.name ⟨"more".toList, by decide⟩) (.name ⟨"Rescue".toList, by decide⟩)

/-- The text of the sample. -/
def sampleLines : List Str :=
  ["set default=\"more>Rescue\"".toList,
    "".toList,
    "# kernels".toList,
    "menuentry 'Linux' $menuentry_id_option 'linux' \x7b".toList,
    "\tlinux /vmlinuz ro quiet".toList,
    "\tinitrd /initrd".toList,
    "\x7d".toList,
    "submenu 'More kernels' $menuentry_id_option 'more' \x7b".toList,
    "\tmenuentry 'Old Linux' $menuentry_id_option 'old' \x7b".toList,
    "\t\tlinux /old".toList,
    "\t\x7d".toList,
    "\tmenuentry 'Rescue' $menuentry_id_option 'rescue' \x7b".toList,
    "\t\tlinux /rescue".toList,
    "\t\x7d".toList,
    "\x7d".toList]

/-- A row whose words need no quotes. -/
theorem Laid.plain {indent : Str} {row : List Str} {rows : List (List Str)} {ls : List Str}
    (hindent : IsBlank indent) (hne : row ≠ []) (h : Laid rows ls) :
    Laid (row :: rows) ((indent ++ tokens row ++ []) :: ls) :=
  .line hindent (fun _ hc => absurd hc List.not_mem_nil) (spaced_tokens hne) h

/-- The lines are laid out from the rows. -/
private theorem laid_sample : Laid (menuRows sampleSpec sampleMenu) sampleLines := by
  have hnone : IsBlank [] := Str.forall_of_all rfl
  have hone : IsBlank "\t".toList := Str.forall_of_all rfl
  have htwo : IsBlank "\t\t".toList := Str.forall_of_all rfl
  have hrow : ∀ {text : Str} {row : List Str}, text :: row ≠ [] := List.cons_ne_nil _ _
  obtain ⟨ls, hls, hlaid⟩ : ∃ ls, ls = sampleLines ∧ Laid (menuRows sampleSpec sampleMenu) ls := by
    refine ⟨_, ?_, (.plain hnone hrow (.blank hnone (@Laid.comment [] " kernels".toList _ _ hnone
      (by decide) (.plain hnone hrow (.plain hone hrow (.plain hone hrow (.plain hnone hrow
        (.plain hnone hrow (.plain hone hrow (.plain htwo hrow (.plain hone hrow (.plain hone hrow
          (.plain htwo hrow (.plain hone hrow (.plain hnone hrow .nil)))))))))))))) :
      Laid (menuRows sampleSpec sampleMenu) _)⟩
    decide +kernel
  rw [← hls]
  exact hlaid

/-- The second child of the submenu, by the id of the submenu and its own title. -/
theorem parseStr_menu_sample :
    (parseStr (sampleLines.flatMap (· ++ ['\n'])) fun _ => none).default = some 2 := by
  have hne : sampleMenu ≠ [] := List.cons_ne_nil _ _
  have hd : Distinct sampleMenu := by
    rw [Distinct]
    decide
  obtain ⟨-, pos, hdefault, hpos⟩ := parseStr_menu hne hd ⟨sampleLines, laid_sample, rfl⟩
    fun _ => none
  have hhead : Heads sampleMenu (.name ⟨"more".toList, by decide⟩) 1 :=
    .name rfl (List.mem_cons_of_mem _ List.mem_cons_self)
  have hchild : (Item.IsChild sampleMenu[1]) (.name ⟨"Rescue".toList, by decide⟩) 1 :=
    .name rfl rfl List.mem_cons_self
  have hchosen : Chosen sampleMenu sampleSpec 2 := .child hhead rfl hchild
  rw [hdefault, ← (hpos 2).mp hchosen]

end Decode

end BootExtractor.Boot.Grub
