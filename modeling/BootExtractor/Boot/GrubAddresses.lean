import BootExtractor.Boot.GrubShape
import BootExtractor.Boot.Tracking

/-!
# Menu addresses

What the machine records of any text has addresses that are in the order of the menu and
name one entry each: an item of the top level is an entry or a submenu, and the children of
a submenu are numbered from zero without gaps. Depths below zero, open blocks and nested
submenus change the addresses, but never that.
-/

namespace BootExtractor.Boot.Grub

section Submenus

variable {env : Env} {st : State}

/-- The positions of the submenus. -/
def State.tops (st : State) : List Nat := st.submenus.map (·.top)

/-- What a line of a kind does to them. -/
def Shape.stepTops (s : Shape) (tops : List Nat) : Kind → List Nat
  | .openSubmenu => if s.current.isSome then tops else tops ++ [s.topCount]
  | .quiet | .openEntry _ | .openOther | .close => tops

private theorem tops_openEntry (words : List Str) (st : State) :
    (openEntry words st).tops = st.tops := by
  unfold openEntry
  split <;> rfl

/-- A submenu adds its top-level position. -/
private theorem tops_openSubmenu (words : List Str) (st : State) :
    (openSubmenu words st).tops = st.tops ++ [st.topCount] :=
  List.map_append

private theorem tops_setVariable (env : Env) (words : List Str) (st : State) :
    (setVariable env words st).tops = st.tops := by
  unfold setVariable
  split <;> rfl

private theorem tops_closeSubmenu (st : State) : (closeSubmenu st).tops = st.tops := by
  unfold closeSubmenu
  split
  · split <;> rfl
  · rfl

private theorem tops_closeBlock (st : State) : (closeBlock st).tops = st.tops := by
  unfold closeBlock
  simp only
  split
  · split
    · rfl
    · exact tops_closeSubmenu _
  · exact tops_closeSubmenu _

private theorem tops_braces (line : Str) (opensBlock : Bool) (st : State) :
    (braces line opensBlock st).tops = st.tops := by
  unfold braces
  split
  · rfl
  · split
    · exact tops_closeBlock st
    · rfl

/-- No keyword inside of an entry opens a submenu. -/
private theorem tops_inner (h : st.current ≠ none) (words : List Str) (opensBlock : Bool) :
    (keywordLine env words opensBlock st).tops = st.tops := by
  obtain ⟨open_, hopen⟩ := Option.ne_none_iff_exists'.mp h
  rw [keywordLine, hopen]
  rfl

/-- Outside of an entry only a submenu line adds a position. -/
private theorem tops_outer (h : st.current = none) (words : List Str) (opensBlock : Bool) :
    (keywordLine env words opensBlock st).tops =
      if words.headD [] = "submenu".toList ∧ opensBlock then st.tops ++ [st.topCount]
      else st.tops := by
  have hmarker : ∀ s : State,
      (if "blscfg".toList ∈ words then { s with usesBls := true } else s).tops = s.tops := by
    intro s
    split <;> rfl
  rw [keywordLine, h]
  simp only [outerLine]
  rw [hmarker]
  split
  · rename_i hentry
    rw [hentry.1, if_neg fun hsub => absurd hsub.1 (by decide)]
    exact tops_openEntry words st
  · split
    · exact tops_openSubmenu words st
    · split
      · exact tops_setVariable env words st
      · rfl

/-- A line adds a position exactly if it opens a submenu. -/
theorem tops_words (env : Env) (st : State) (line : Str) (words : List Str) :
    (keywordLine env words (Str.endsWith line "\x7b".toList) st).tops =
      st.shape.stepTops st.tops (kindOfWords line words) := by
  have hcurrent : st.shape.current.isSome = st.current.isSome := Option.isSome_map
  rw [kindOfWords]
  generalize Str.endsWith line "\x7b".toList = opensBlock
  cases hinner : st.current with
  | some open_ =>
    rw [hinner] at hcurrent
    rw [tops_inner (by rw [hinner]; exact Option.some_ne_none _)]
    split
    · split
      · rfl
      · split
        · exact (if_pos hcurrent).symm
        · rfl
    · split <;> rfl
  | none =>
    rw [hinner] at hcurrent
    rw [tops_outer hinner]
    cases opensBlock with
    | false =>
      simp only [Bool.false_eq_true, and_false, if_false]
      split <;> rfl
    | true =>
      simp only [and_true, if_true]
      split
      · rename_i hsub
        have hentry : words.headD [] ≠ "menuentry".toList := by
          rw [hsub]
          decide
        rw [if_neg hentry, Shape.stepTops, hcurrent]
        rfl
      · split <;> rfl

/-- A line of any text changes the positions of the submenus by its kind. -/
theorem tops_step (env : Env) (st : State) (rawLine : Str) :
    (step env st rawLine).tops = st.shape.stepTops st.tops (kindOf rawLine) := by
  unfold step kindOf
  simp only
  split
  · rfl
  · split
    · rfl
    · rw [tops_braces]
      exact tops_words env st _ _

end Submenus

/-- The numbers of the entries of an item, in the order of the list. -/
def subs (places : List Place) (top : Nat) : List (Option Nat) :=
  (places.filter (·.top == top)).map (·.sub)

/-- One more place is one more child of its item. -/
private theorem subs_concat (places : List Place) (p : Place) (top : Nat) :
    subs (places ++ [p]) top = subs places top ++ if p.top = top then [p.sub] else [] := by
  rw [subs, List.filter_append, List.map_append, List.filter_singleton]
  by_cases htop : p.top = top
  · rw [if_pos htop, htop, beq_self_eq_true]
    rfl
  · rw [if_neg htop, beq_false_of_ne htop]
    rfl

/-- An item behind all places has no children. -/
private theorem subs_eq_nil {places : List Place} {top : Nat} (h : ∀ p ∈ places, p.top < top) :
    subs places top = [] := by
  rw [subs, List.map_eq_nil_iff, List.filter_eq_nil_iff]
  intro p hp htop
  exact absurd (beq_iff_eq.mp htop) (Nat.ne_of_lt (h p hp))

namespace Shape

/-- Every item is an entry or a submenu, with children that are numbered without gaps; the
open submenu has as many of them as it has counted. -/
structure Addressed (s : Shape) (tops : List Nat) : Prop where
  ordered : s.Ordered
  filled : ∀ top, subs s.salvaged top = [none] ∨ ∃ n, subs s.salvaged top = (List.range n).map some
  slot : ∀ o ∈ s.submenu, o.2.1 ∈ tops ∧ subs s.salvaged o.2.1 = (List.range o.2.2).map some
  nodup : tops.Nodup
  below : ∀ top ∈ tops, top < s.topCount
  apart : ∀ p ∈ s.salvaged, p.sub = none ↔ p.top ∉ tops

variable {s : Shape} {tops : List Nat}

/-- Nothing is addressed at the start. -/
theorem addressed_start : Addressed {} [] where
  ordered := ordered_start
  filled _ := Or.inr ⟨0, rfl⟩
  slot o ho := by cases ho
  nodup := List.nodup_nil
  below top htop := absurd htop List.not_mem_nil
  apart p hp := by cases hp

/-- What lists the same entries and opens no submenu has the same addresses. -/
theorem Addressed.same (h : s.Addressed tops) {t : Shape} (hsalvaged : t.salvaged = s.salvaged)
    (hcount : t.topCount = s.topCount) (hopen : ∀ o ∈ t.submenu, o ∈ s.submenu) :
    t.Addressed tops where
  ordered := by
    refine ⟨?_, ?_, fun o ho => ?_⟩
    · rw [hsalvaged]
      exact h.ordered.pairwise
    · rw [hsalvaged, hcount]
      exact h.ordered.below
    · rw [hsalvaged, hcount]
      exact h.ordered.slot o (hopen o ho)
  filled := by
    rw [hsalvaged]
    exact h.filled
  slot o ho := by
    rw [hsalvaged]
    exact h.slot o (hopen o ho)
  nodup := h.nodup
  below := by
    rw [hcount]
    exact h.below
  apart := by
    rw [hsalvaged]
    exact h.apart

/-- A block that opens changes no address. -/
theorem Addressed.deeper (h : s.Addressed tops) : s.deeper.Addressed tops :=
  h.same rfl rfl fun _ ho => ho

/-- A submenu gets a position of its own. -/
theorem Addressed.openSubmenu (h : s.Addressed tops) :
    s.openSubmenu.Addressed (tops ++ [s.topCount]) where
  ordered := h.ordered.openSubmenu
  filled := h.filled
  slot := by
    rintro o ⟨⟩
    exact ⟨List.mem_append_right _ List.mem_cons_self, subs_eq_nil h.ordered.below⟩
  nodup := by
    refine List.nodup_append.mpr ⟨h.nodup, List.nodup_singleton _, fun top htop top' htop' => ?_⟩
    rw [List.mem_singleton.mp htop']
    exact Nat.ne_of_lt (h.below top htop)
  below top htop := by
    rcases List.mem_append.mp htop with htop | htop
    · exact Nat.lt_succ_of_lt (h.below top htop)
    · rw [List.mem_singleton.mp htop]
      exact Nat.lt_succ_self _
  apart p hp := by
    have hne : p.top ≠ s.topCount := Nat.ne_of_lt (h.ordered.below p hp)
    rw [h.apart p hp, List.mem_append, List.mem_singleton, or_iff_left hne]

/-- An entry outside of submenus gets a position of its own. -/
theorem openEntry_item (h : s.submenu = none) (title : Option Str) :
    s.openEntry title =
      { s with
        topCount := s.topCount + 1
        current := some (s.depth, ⟨title, s.topCount, none⟩) } := by
  rw [Shape.openEntry, h]

/-- An entry in a submenu gets the next place in it. -/
theorem openEntry_child {d : Int} {top next : Nat} (h : s.submenu = some (d, top, next))
    (title : Option Str) :
    s.openEntry title =
      { s with
        submenu := some (d, top, next + 1)
        current := some (s.depth, ⟨title, top, some next⟩) } := by
  rw [Shape.openEntry, h]

/-- Outside of submenus an entry is an item of its own. -/
theorem Addressed.openEntry_item (h : s.Addressed tops) (hcurrent : s.current = none)
    (hopen : s.submenu = none) (title : Option Str) : (s.openEntry title).Addressed tops := by
  have hordered := h.ordered.openEntry hcurrent title
  have hsalvaged : (s.openEntry title).salvaged = s.salvaged ++ [⟨title, s.topCount, none⟩] := by
    rw [salvaged_of_none hcurrent, Shape.openEntry_item hopen]
    rfl
  have hsubmenu : (s.openEntry title).submenu = none := by
    rw [Shape.openEntry_item hopen]
    exact hopen
  have hcount : (s.openEntry title).topCount = s.topCount + 1 := by
    rw [Shape.openEntry_item hopen]
  refine ⟨hordered, fun top => ?_, fun o ho => ?_, h.nodup, fun top htop => ?_, fun p hp => ?_⟩
  · rw [hsalvaged, subs_concat]
    by_cases htop : s.topCount = top
    · rw [if_pos htop, ← htop, subs_eq_nil h.ordered.below]
      exact Or.inl rfl
    · rw [if_neg htop, List.append_nil]
      exact h.filled top
  · rw [hsubmenu] at ho
    cases ho
  · rw [hcount]
    exact Nat.lt_succ_of_lt (h.below top htop)
  · rw [hsalvaged] at hp
    rcases List.mem_append.mp hp with hp | hp
    · exact h.apart p hp
    · rw [List.mem_singleton.mp hp]
      exact iff_of_true rfl fun hmem => Nat.lt_irrefl _ (h.below _ hmem)

/-- In an open submenu an entry is the next child. -/
theorem Addressed.openEntry_child (h : s.Addressed tops) (hcurrent : s.current = none)
    {d : Int} {top next : Nat} (hopen : s.submenu = some (d, top, next)) (title : Option Str) :
    (s.openEntry title).Addressed tops := by
  have hordered := h.ordered.openEntry hcurrent title
  have hsalvaged : (s.openEntry title).salvaged = s.salvaged ++ [⟨title, top, some next⟩] := by
    rw [salvaged_of_none hcurrent, Shape.openEntry_child hopen]
    rfl
  have hsubmenu : (s.openEntry title).submenu = some (d, top, next + 1) := by
    rw [Shape.openEntry_child hopen]
  have hcount : (s.openEntry title).topCount = s.topCount := by
    rw [Shape.openEntry_child hopen]
  obtain ⟨hmem, hsubs⟩ := h.slot _ hopen
  have hnext : subs (s.openEntry title).salvaged top = (List.range (next + 1)).map some := by
    rw [hsalvaged, subs_concat, if_pos rfl, hsubs, List.range_succ, List.map_append]
    rfl
  refine ⟨hordered, fun top' => ?_, fun o ho => ?_, h.nodup, fun top' htop => ?_, fun p hp => ?_⟩
  · by_cases htop : top = top'
    · rw [← htop, hnext]
      exact Or.inr ⟨next + 1, rfl⟩
    · rw [hsalvaged, subs_concat, if_neg htop, List.append_nil]
      exact h.filled top'
  · rw [hsubmenu] at ho
    cases ho
    exact ⟨hmem, hnext⟩
  · rw [hcount]
    exact h.below top' htop
  · rw [hsalvaged] at hp
    rcases List.mem_append.mp hp with hp | hp
    · exact h.apart p hp
    · rw [List.mem_singleton.mp hp]
      exact iff_of_false (Option.some_ne_none _) fun hnot => hnot hmem

/-- An entry gets an address that no other has. -/
theorem Addressed.openEntry (h : s.Addressed tops) (hcurrent : s.current = none)
    (title : Option Str) : (s.openEntry title).Addressed tops := by
  cases hopen : s.submenu with
  | none => exact h.openEntry_item hcurrent hopen title
  | some o => exact h.openEntry_child hcurrent hopen title

/-- A submenu that ends leaves its addresses. -/
theorem Addressed.closeSubmenu (h : s.Addressed tops) : s.closeSubmenu.Addressed tops := by
  unfold Shape.closeSubmenu
  split
  · split
    · exact h.same rfl rfl fun o ho => by cases ho
    · exact h
  · exact h

/-- What is closed keeps its address. -/
theorem Addressed.close (h : s.Addressed tops) : s.close.Addressed tops := by
  have hback : Addressed { s with depth := s.depth - 1 } tops := h.same rfl rfl fun _ ho => ho
  unfold Shape.close
  simp only
  split
  · rename_i d p hcurrent
    split
    · refine h.same ?_ rfl fun _ ho => ho
      rw [salvaged_of_none rfl, salvaged, hcurrent]
      rfl
    · exact hback.closeSubmenu
  · exact hback.closeSubmenu

/-- Every kind of line keeps the addresses in order. -/
theorem Addressed.step (h : s.Addressed tops) (kind : Kind) :
    (s.step kind).Addressed (s.stepTops tops kind) := by
  cases kind with
  | quiet => exact h
  | openOther => exact h.deeper
  | close => exact h.close
  | openEntry title =>
    cases hcurrent : s.current with
    | some open_ => rw [Shape.step, hcurrent]; exact h.deeper
    | none => rw [Shape.step, hcurrent]; exact (h.openEntry hcurrent title).deeper
  | openSubmenu =>
    cases hcurrent : s.current with
    | some open_ => rw [Shape.step, stepTops, hcurrent]; exact h.deeper
    | none => rw [Shape.step, stepTops, hcurrent]; exact h.openSubmenu.deeper

end Shape

section Runs

variable {env : Env} {st : State}

/-- Any lines keep the addresses in order, by induction on the lines. -/
theorem addressed_foldl (h : st.shape.Addressed st.tops) (lines : List Str) :
    (lines.foldl (step env) st).shape.Addressed (lines.foldl (step env) st).tops := by
  induction lines generalizing st with
  | nil => exact h
  | cons line lines ih =>
    apply ih
    rw [shape_step, tops_step]
    exact h.step _

/-- The addresses are in order after any text, by induction on its lines. -/
theorem addressed_run (env : Env) (lines : List Str) :
    (run env lines).shape.Addressed (run env lines).tops :=
  @addressed_foldl env {} Shape.addressed_start lines

end Runs

/-- The addresses of entries and submenus name one of them each. -/
structure Unambiguous (raw : List RawEntry) (submenus : List RawSubmenu) : Prop where
  /-- The addresses grow. -/
  increasing : raw.Pairwise fun a b => a.toPlace.Before b.toPlace
  /-- An item of the top level is one submenu or one entry. -/
  items : (submenus.map (·.top) ++ (raw.filter (·.sub.isNone)).map (·.top)).Nodup
  /-- An item has a single entry, which is no child, or children numbered from zero. -/
  numbered : ∀ top, (raw.filter (·.top == top)).map (·.sub) = [none] ∨
    ∃ n, (raw.filter (·.top == top)).map (·.sub) = (List.range n).map some
  /-- A position of the top level and one below it are the path of at most one entry. -/
  paths : ∀ (top sub i j : Nat) (a b : RawEntry), raw[i]? = some a → raw[j]? = some b →
    a.top = top → b.top = top → a.sub = some sub → b.sub = some sub → i = j

section Unambiguity

variable {raw : List RawEntry}

/-- The children of an item, from its raw entries. -/
private theorem subs_toPlace (raw : List RawEntry) (top : Nat) :
    subs (raw.map RawEntry.toPlace) top = (raw.filter (·.top == top)).map (·.sub) := by
  rw [subs, List.filter_map, List.map_map]
  rfl

/-- Growing addresses differ. -/
theorem eq_of_path (h : raw.Pairwise fun a b => a.toPlace.Before b.toPlace) {i j : Nat}
    {a b : RawEntry} (hi : raw[i]? = some a) (hj : raw[j]? = some b) (htop : a.top = b.top)
    (hsub : a.sub = b.sub) : i = j := by
  have hirrefl : ∀ a b : RawEntry, a.top = b.top → a.sub = b.sub →
      ¬a.toPlace.Before b.toPlace := by
    rintro a b htop hsub (hlt | ⟨_, m, n, hm, hn, hlt⟩)
    · exact absurd htop (Nat.ne_of_lt hlt)
    · have hsame := (hm.symm.trans hsub).trans hn
      exact absurd (Option.some.inj hsame) (Nat.ne_of_lt hlt)
  obtain ⟨hilt, rfl⟩ := List.getElem?_eq_some_iff.mp hi
  obtain ⟨hjlt, rfl⟩ := List.getElem?_eq_some_iff.mp hj
  rcases Nat.lt_trichotomy i j with hlt | heq | hlt
  · exact absurd (List.pairwise_iff_getElem.mp h i j hilt hjlt hlt) (hirrefl _ _ htop hsub)
  · exact heq
  · exact absurd (List.pairwise_iff_getElem.mp h j i hjlt hilt hlt)
      (hirrefl _ _ htop.symm hsub.symm)

/-- The items that are entries stand at different positions. -/
theorem nodup_items (h : raw.Pairwise fun a b => a.toPlace.Before b.toPlace) :
    ((raw.filter (·.sub.isNone)).map (·.top)).Nodup := by
  refine List.pairwise_map.mpr ((h.filter _).imp_of_mem fun {a b} ha _ hbefore => ?_)
  have hnone : a.sub = none := Option.isNone_iff_eq_none.mp (List.mem_filter.mp ha).2
  rcases hbefore with hlt | ⟨_, m, _, hm, _⟩
  · exact Nat.ne_of_lt hlt
  · cases hnone.symm.trans hm

/-- After any text the addresses are unambiguous. -/
theorem unambiguous_run (env : Env) (lines : List Str) :
    Unambiguous (run env lines).salvaged (run env lines).submenus := by
  have haddressed := addressed_run env lines
  have hplaces := salvaged_shape (run env lines)
  have hincreasing : (run env lines).salvaged.Pairwise fun a b => a.toPlace.Before b.toPlace :=
    List.pairwise_map.mp (ordered_run env lines)
  refine ⟨hincreasing, ?_, fun top => ?_, ?_⟩
  · refine List.nodup_append.mpr ⟨haddressed.nodup, nodup_items hincreasing, ?_⟩
    intro top htop top' htop' heq
    obtain ⟨e, he, rfl⟩ := List.mem_map.mp htop'
    obtain ⟨he, hnone⟩ := List.mem_filter.mp he
    have hmem : e.toPlace ∈ (run env lines).shape.salvaged := hplaces ▸ List.mem_map_of_mem he
    have hapart := (haddressed.apart _ hmem).mp (Option.isNone_iff_eq_none.mp hnone)
    rw [heq] at htop
    exact hapart htop
  · rw [← subs_toPlace, hplaces]
    exact haddressed.filled top
  · intro top sub i j a b hi hj ha hb hsub hsub'
    exact eq_of_path hincreasing hi hj (ha.trans hb.symm) (hsub.trans hsub'.symm)

end Unambiguity

/-- Whatever the text, what is recorded has unambiguous addresses, and a default is an entry
if there is one. -/
theorem parseStr_unambiguous (text : Str) (env : Env) :
    (parseStr text env).entries = (run env (Str.lines text)).salvaged.map (·.entry) ∧
    Unambiguous (run env (Str.lines text)).salvaged (run env (Str.lines text)).submenus ∧
    ((run env (Str.lines text)).salvaged ≠ [] → ∀ spec,
      ∃ i, resolveDefault (run env (Str.lines text)).salvaged
          (run env (Str.lines text)).submenus spec = some i ∧
        i < (run env (Str.lines text)).salvaged.length) := by
  refine ⟨rfl, unambiguous_run env _, fun hne spec => ?_⟩
  have hpoints := points_resolveDefault (run env (Str.lines text)).salvaged
    (run env (Str.lines text)).submenus spec
  cases hdefault : resolveDefault (run env (Str.lines text)).salvaged
      (run env (Str.lines text)).submenus spec with
  | some i =>
    rw [hdefault] at hpoints
    exact ⟨i, rfl, hpoints⟩
  | none =>
    rw [hdefault] at hpoints
    exact absurd (List.length_eq_zero_iff.mp hpoints) hne

end BootExtractor.Boot.Grub
