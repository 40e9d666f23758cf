import BootExtractor.Boot.GrubAddresses
import BootExtractor.Boot.GrubDefault

/-!
# Every entry can be the default

The address of an entry, its position or that of its submenu and its own below it, is a
default that stands for this entry and no other. So a configuration that ends outside of
entries can be told to boot any of its entries by one more line, whatever its text.
-/

namespace BootExtractor.Boot.Grub

section Bounds

namespace Shape

variable {s : Shape} {n : Nat}

/-- There are at most so many items at the top level, and entries. -/
structure Within (s : Shape) (n : Nat) : Prop where
  tops : s.topCount ≤ n
  entries : s.salvaged.length ≤ n

/-- A bound on the places may be raised. -/
theorem Within.mono (h : s.Within n) : s.Within (n + 1) :=
  ⟨Nat.le_succ_of_le h.tops, Nat.le_succ_of_le h.entries⟩

private theorem salvaged_closeSubmenu (s : Shape) : s.closeSubmenu.salvaged = s.salvaged := by
  unfold closeSubmenu
  split
  · split <;> rfl
  · rfl

private theorem topCount_closeSubmenu (s : Shape) : s.closeSubmenu.topCount = s.topCount := by
  unfold closeSubmenu
  split
  · split <;> rfl
  · rfl

/-- Closing a block keeps the bound. -/
theorem Within.close (h : s.Within n) : s.close.Within n := by
  have hback : Within { s with depth := s.depth - 1 } n := ⟨h.tops, h.entries⟩
  have hleft : Within (closeSubmenu { s with depth := s.depth - 1 }) n := by
    constructor
    · rw [topCount_closeSubmenu]
      exact hback.tops
    · rw [salvaged_closeSubmenu]
      exact hback.entries
  unfold Shape.close
  simp only
  split
  · rename_i d p hcurrent
    split
    · refine ⟨h.tops, ?_⟩
      have hentries := h.entries
      rw [salvaged, hcurrent] at hentries
      rw [salvaged_of_none rfl]
      exact hentries
    · exact hleft
  · exact hleft

/-- An entry raises the bound by one. -/
theorem Within.openEntry (h : s.Within n) (hcurrent : s.current = none) (title : Option Str) :
    (s.openEntry title).Within (n + 1) := by
  have hentries := h.entries
  rw [salvaged_of_none hcurrent] at hentries
  cases hopen : s.submenu with
  | none =>
    rw [openEntry_item hopen]
    refine ⟨Nat.succ_le_succ h.tops, ?_⟩
    simp only [salvaged, Option.map_some, Option.toList_some, List.length_append,
      List.length_singleton]
    exact Nat.succ_le_succ hentries
  | some o =>
    rw [openEntry_child hopen]
    refine ⟨Nat.le_succ_of_le h.tops, ?_⟩
    simp only [salvaged, Option.map_some, Option.toList_some, List.length_append,
      List.length_singleton]
    exact Nat.succ_le_succ hentries

/-- A line adds one item and one entry at most. -/
theorem Within.step (h : s.Within n) (kind : Kind) : (s.step kind).Within (n + 1) := by
  cases kind with
  | quiet => exact h.mono
  | openOther => exact ⟨h.mono.tops, h.mono.entries⟩
  | close => exact h.close.mono
  | openEntry title =>
    cases hcurrent : s.current with
    | some open_ =>
      rw [Shape.step, hcurrent]
      exact ⟨h.mono.tops, h.mono.entries⟩
    | none =>
      have hopened := h.openEntry hcurrent title
      rw [Shape.step, hcurrent]
      exact ⟨hopened.tops, hopened.entries⟩
  | openSubmenu =>
    cases hcurrent : s.current with
    | some open_ =>
      rw [Shape.step, hcurrent]
      exact ⟨h.mono.tops, h.mono.entries⟩
    | none =>
      rw [Shape.step, hcurrent]
      exact ⟨Nat.succ_le_succ h.tops, h.mono.entries⟩

/-- So many lines have at most so many entries, by induction on the lines. -/
theorem within_foldl (h : s.Within n) (kinds : List Kind) :
    (kinds.foldl Shape.step s).Within (n + kinds.length) := by
  induction kinds generalizing s n with
  | nil => exact h
  | cons kind kinds ih =>
    have hmore := ih (h.step kind)
    rw [Nat.add_assoc, Nat.add_comm 1] at hmore
    exact hmore

end Shape

/-- A text has no more places than characters. -/
private theorem within_run (env : Env) (text : Str) :
    (run env (Str.lines text)).shape.Within text.length := by
  have hstart : Shape.Within {} 0 := ⟨Nat.le_refl 0, Nat.le_refl 0⟩
  have hrun := Shape.within_foldl hstart ((Str.lines text).map kindOf)
  have hlines := Str.length_lines_le text
  have hshape : (run env (Str.lines text)).shape = _ := shape_foldl env {} (Str.lines text)
  rw [List.length_map, Nat.zero_add] at hrun
  rw [hshape]
  exact ⟨Nat.le_trans hrun.tops hlines, Nat.le_trans hrun.entries hlines⟩

/-- The numbers in an address are less than the length of the text. -/
theorem address_lt_length (env : Env) (text : Str) {e : RawEntry}
    (h : e ∈ (run env (Str.lines text)).salvaged) :
    e.top < text.length ∧ ∀ sub ∈ e.sub, sub < text.length := by
  have hwithin := within_run env text
  have haddressed := addressed_run env (Str.lines text)
  have hplaces := salvaged_shape (run env (Str.lines text))
  have hmem : e.toPlace ∈ (run env (Str.lines text)).shape.salvaged :=
    hplaces ▸ List.mem_map_of_mem h
  refine ⟨Nat.lt_of_lt_of_le (haddressed.ordered.below _ hmem) hwithin.tops, fun sub hsub => ?_⟩
  have hsubs : some sub ∈ subs (run env (Str.lines text)).shape.salvaged e.top := by
    refine List.mem_map.mpr ⟨e.toPlace, List.mem_filter.mpr ⟨hmem, ?_⟩, hsub⟩
    simp [RawEntry.toPlace]
  have hlength : (subs (run env (Str.lines text)).shape.salvaged e.top).length ≤ text.length := by
    rw [subs, List.length_map]
    exact Nat.le_trans (List.length_filter_le _ _) hwithin.entries
  rcases haddressed.filled e.top with hone | ⟨n, hchildren⟩
  · rw [hone] at hsubs
    cases List.mem_singleton.mp hsubs
  · rw [hchildren, List.length_map, List.length_range] at hlength
    rw [hchildren] at hsubs
    obtain ⟨k, hk, hsame⟩ := List.mem_map.mp hsubs
    obtain rfl := Option.some.inj hsame
    exact Nat.lt_of_lt_of_le (List.mem_range.mp hk) hlength

end Bounds

section Targets

/-- The address of an entry, as a default. -/
def RawEntry.address (e : RawEntry) : Str :=
  match e.sub with
  | none => Str.dec e.top
  | some sub => Str.dec e.top ++ '>' :: Str.dec sub

variable {raw : List RawEntry} {submenus : List RawSubmenu} {i : Nat} {e : RawEntry}

/-- An entry outside of submenus is the first of its top-level item. -/
theorem Unambiguous.firstOfTop (h : Unambiguous raw submenus) (hi : raw[i]? = some e)
    (hsub : e.sub = none) : firstOfTop raw e.top = some i := by
  have hfind : (raw.findIdx? fun r => r.top == e.top && r.sub.isNone) = some i := by
    refine Positions.findIdx?_eq_first hi ?_ fun j r hj hr => ?_
    · simp [hsub]
    · obtain ⟨htop, hnone⟩ := Bool.and_eq_true_iff.mp hr
      have hsame := (Option.isNone_iff_eq_none.mp hnone).trans hsub.symm
      exact (eq_of_path h.increasing hj hi (beq_iff_eq.mp htop) hsame).ge
  rw [Grub.firstOfTop, hfind, Option.some_or]

/-- A child of a submenu is found by its two positions. -/
theorem Unambiguous.child (h : Unambiguous raw submenus) (hi : raw[i]? = some e) {sub : Nat}
    (hsub : e.sub = some sub) :
    (raw.findIdx? fun r => r.top == e.top && r.sub == some sub) = some i := by
  refine Positions.findIdx?_eq_first hi ?_ fun j r hj hr => ?_
  · simp [hsub]
  · obtain ⟨htop, hchild⟩ := Bool.and_eq_true_iff.mp hr
    have hsame := (beq_iff_eq.mp hchild).trans hsub.symm
    exact (eq_of_path h.increasing hj hi (beq_iff_eq.mp htop) hsame).ge

/-- An address is a default that stands for its entry. -/
theorem Unambiguous.exists_spec (h : Unambiguous raw submenus) (hi : raw[i]? = some e)
    (htop : e.top < 2 ^ 64) (hbelow : ∀ sub ∈ e.sub, sub < 2 ^ 64) :
    ∃ spec : Spec, spec.text = e.address ∧ resolveDefault raw submenus spec.text = some i := by
  have hraw : raw ≠ [] := by
    rintro rfl
    cases hi
  cases hsub : e.sub with
  | none =>
    refine ⟨.item (.index e.top htop), by rw [RawEntry.address, hsub]; rfl, ?_⟩
    have hsingle : resolveSingle raw submenus (Component.index e.top htop).text = some i := by
      rw [Component.text, resolveSingle, Str.parseUsize_dec htop]
      exact h.firstOfTop hi hsub
    rw [resolveDefault_item hraw, hsingle, Option.some_or]
  | some sub =>
    have hlt := hbelow sub hsub
    refine ⟨.path (.index e.top htop) (.index sub hlt), by rw [RawEntry.address, hsub]; rfl, ?_⟩
    have hhead : resolveHead raw submenus (Component.index e.top htop).text = some e.top := by
      rw [Component.text, resolveHead, Str.parseUsize_dec htop]
    have hchild : resolveChild raw e.top (Component.index sub hlt).text = some i := by
      rw [Component.text, resolveChild, Str.parseUsize_dec hlt]
      exact h.child hi hsub
    rw [resolveDefault_path hraw, resolvePath, hhead]
    simp only [hchild, Option.some_or]

end Targets

section Runs

variable {text : Str} {env : Env}

/-- The line that makes something the default. -/
def defaultLine (address : Str) : Str := "set default=\"".toList ++ address ++ ['"', '\n']

/-- One more line of a text that ends outside of entries sets the default and no more. -/
theorem run_defaultLine (env : Env) (front : Str) (spec : Spec)
    (hclosed : (run env (Str.lines (front ++ ['\n']))).current = none) :
    run env (Str.lines (front ++ ['\n'] ++ defaultLine spec.text)) =
      { run env (Str.lines (front ++ ['\n'])) with defaultSpec := some spec.text } := by
  have hline : Str.lines (defaultLine spec.text) = [tokens (defaultRow spec)] := by
    have hrow := @spaced_tokens (defaultRow spec) (List.cons_ne_nil _ _)
    have honeLine := hrow.oneLine (forall₂_default spec)
    have htext : tokens (defaultRow spec) =
        "set default=\"".toList ++ spec.text ++ ['"'] := by
      rw [tokens, defaultRow, Str.join_cons_cons, ← tokens, tokens_singleton]
      simp
    have hlast : (tokens (defaultRow spec)).getLast? ≠ some '\r' := by
      rw [htext, List.getLast?_concat]
      decide
    have hended : defaultLine spec.text = tokens (defaultRow spec) ++ ['\n'] := by
      rw [htext]
      exact (List.append_assoc _ ['"'] ['\n']).symm
    rw [hended, Str.lines_append honeLine hlast, Str.lines]
  have hlines : Str.lines (front ++ ['\n'] ++ defaultLine spec.text) =
      Str.lines (front ++ ['\n']) ++ [tokens (defaultRow spec)] := by
    rw [List.append_assoc, List.singleton_append, Str.lines_ended, hline]
  rw [hlines, run, List.foldl_append, List.foldl_cons, List.foldl_nil, ← run]
  exact rowStep_default env hclosed spec

/-- What a default changes of a scan. -/
theorem parseStr_of_run {text text' : Str} {spec : Str} (h : run env (Str.lines text') =
      { run env (Str.lines text) with defaultSpec := some spec }) :
    parseStr text' env =
      { parseStr text env with
        default := resolveDefault (run env (Str.lines text)).salvaged
          (run env (Str.lines text)).submenus spec } := by
  rw [parseStr, parseStr, h]
  generalize run env (Str.lines text) = st
  rfl

/-- Any entry of a configuration that ends outside of entries is the default as soon as one
more line says so; the entries stay as they are. -/
theorem parseStr_defaultLine (text : Str) (env : Env) (hlength : text.length < 2 ^ 64)
    (hended : text.getLast? = some '\n') (hclosed : (run env (Str.lines text)).current = none)
    {i : Nat} {e : RawEntry} (h : (run env (Str.lines text)).salvaged[i]? = some e) :
    parseStr (text ++ defaultLine e.address) env =
      { parseStr text env with default := some i } := by
  obtain ⟨front, rfl⟩ := List.getLast?_eq_some_iff.mp hended
  obtain ⟨htop, hsub⟩ := address_lt_length env (front ++ ['\n']) (List.mem_of_getElem? h)
  obtain ⟨spec, haddress, hdefault⟩ := (unambiguous_run env _).exists_spec h
    (Nat.lt_trans htop hlength) fun sub hs => Nat.lt_trans (hsub sub hs) hlength
  rw [← haddress, parseStr_of_run (run_defaultLine env front spec hclosed), hdefault]

/-- A submenu of two entries. -/
def twoChildren : Str :=
  "submenu 'More' \x7b\nmenuentry 'A' \x7b\n\x7d\nmenuentry 'B' \x7b\n\x7d\n\x7d\n".toList

/-- The second child of a submenu. -/
theorem parseStr_defaultLine_child :
    parseStr (twoChildren ++ defaultLine "0>1".toList) (fun _ => none) =
      { parseStr twoChildren fun _ => none with default := some 1 } := by
  let second : RawEntry := ⟨{ title := some "B".toList, source := .grub }, 0, some 1⟩
  have hchild : (run (fun _ => none) (Str.lines twoChildren)).salvaged[1]? = some second := by
    decide +kernel
  have hclosed : (run (fun _ => none) (Str.lines twoChildren)).current = none := by decide +kernel
  have hlength : twoChildren.length < 2 ^ 64 := by decide +kernel
  have hended : twoChildren.getLast? = some '\n' := by decide +kernel
  have haddress : second.address = "0>1".toList := by decide +kernel
  rw [← haddress]
  exact parseStr_defaultLine twoChildren (fun _ => none) hlength hended hclosed hchild

end Runs

end BootExtractor.Boot.Grub
