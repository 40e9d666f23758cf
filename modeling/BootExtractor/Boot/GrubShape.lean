import BootExtractor.Boot.Grub
import BootExtractor.Lib.Positions

/-!
# The shape of a menu

What the machine does to places depends on few things of a line: whether it opens a block,
with which keyword, and whether it is a lone brace. The machine of the places alone runs in
step with the whole one, on every text.
-/

namespace BootExtractor.Boot.Grub

/-- A recorded entry without its body. -/
structure Place where
  title : Option Str
  top : Nat
  sub : Option Nat
  deriving DecidableEq, Repr

/-- What the shape keeps of an entry: its title and its place. -/
def RawEntry.toPlace (e : RawEntry) : Place := ⟨e.entry.title, e.top, e.sub⟩

/-- The part of the machine that decides about places. -/
structure Shape where
  places : List Place := []
  depth : Int := 0
  topCount : Nat := 0
  submenu : Option (Int × Nat × Nat) := none
  current : Option (Int × Place) := none
  deriving DecidableEq, Repr

/-- What the nesting of blocks makes of a state. -/
def State.shape (st : State) : Shape where
  places := st.raw.map RawEntry.toPlace
  depth := st.depth
  topCount := st.topCount
  submenu := st.submenu
  current := st.current.map fun c => (c.1, c.2.toPlace)

/-- What a line means for places. -/
inductive Kind where
  | quiet
  | openEntry (title : Option Str)
  | openSubmenu
  | openOther
  | close
  deriving DecidableEq, Repr

/-- The kind of the words of a line. -/
def kindOfWords (line : Str) (words : List Str) : Kind :=
  if Str.endsWith line "\x7b".toList then
    if words.headD [] = "menuentry".toList then .openEntry words[1]?
    else if words.headD [] = "submenu".toList then .openSubmenu
    else .openOther
  else if line = "\x7d".toList then .close
  else .quiet

/-- The kind of a line. -/
def kindOf (rawLine : Str) : Kind :=
  let line := Str.trim rawLine
  if line = [] ∨ Str.startsWith line "#".toList then .quiet
  else if splitWords line = [] then .quiet
  else kindOfWords line (splitWords line)

namespace Shape

/-- `openEntry` on shapes. -/
def openEntry (title : Option Str) (s : Shape) : Shape :=
  match s.submenu with
  | some (d, top, next) =>
    { s with
      submenu := some (d, top, next + 1)
      current := some (s.depth, ⟨title, top, some next⟩) }
  | none =>
    { s with
      topCount := s.topCount + 1
      current := some (s.depth, ⟨title, s.topCount, none⟩) }

/-- `openSubmenu` on shapes. -/
def openSubmenu (s : Shape) : Shape :=
  { s with submenu := some (s.depth, s.topCount, 0), topCount := s.topCount + 1 }

/-- One more block is open. -/
def deeper (s : Shape) : Shape := { s with depth := s.depth + 1 }

/-- `closeSubmenu` on shapes. -/
def closeSubmenu (s : Shape) : Shape :=
  match s.submenu with
  | some (d, _, _) => if s.depth = d then { s with submenu := none } else s
  | none => s

/-- `closeBlock` on shapes. -/
def close (s : Shape) : Shape :=
  let s := { s with depth := s.depth - 1 }
  match s.current with
  | some (d, p) =>
    if s.depth = d then { s with places := s.places ++ [p], current := none } else s.closeSubmenu
  | none => s.closeSubmenu

/-- One line of a kind. In the body of an entry every block is like any other. -/
def step (s : Shape) : Kind → Shape
  | .quiet => s
  | .openOther => s.deeper
  | .openEntry title => if s.current.isSome then s.deeper else (s.openEntry title).deeper
  | .openSubmenu => if s.current.isSome then s.deeper else s.openSubmenu.deeper
  | .close => s.close

/-- All entries, with one whose block was never closed. -/
def salvaged (s : Shape) : List Place := s.places ++ (s.current.map Prod.snd).toList

end Shape

section Simulation

variable {env : Env} {st : State}

private theorem title_bodyLine (env : Env) (kw : Str) (words : List Str) (e : BootEntry) :
    (bodyLine env kw words e).title = e.title := by
  unfold bodyLine
  split
  · rfl
  · split
    · rfl
    · split <;> rfl

private theorem shape_openEntry (words : List Str) (st : State) :
    (openEntry words st).shape = st.shape.openEntry words[1]? := by
  unfold openEntry Shape.openEntry State.shape
  cases st.submenu <;> rfl

private theorem shape_openSubmenu (words : List Str) (st : State) :
    (openSubmenu words st).shape = st.shape.openSubmenu := rfl

private theorem shape_setVariable (env : Env) (words : List Str) (st : State) :
    (setVariable env words st).shape = st.shape := by
  unfold setVariable
  split <;> rfl

private theorem shape_closeSubmenu (st : State) :
    (closeSubmenu st).shape = st.shape.closeSubmenu := by
  unfold closeSubmenu Shape.closeSubmenu
  rw [show st.shape.submenu = st.submenu from rfl]
  cases st.submenu with
  | none => rfl
  | some open_ => exact apply_ite State.shape _ _ _

/-- Closing a block does to the shape what it does to the state. -/
private theorem shape_closeBlock (st : State) : (closeBlock st).shape = st.shape.close := by
  have hleft := shape_closeSubmenu { st with depth := st.depth - 1 }
  unfold closeBlock Shape.close
  cases hcurrent : st.current with
  | none =>
    rw [hcurrent] at hleft
    simp only [State.shape, hcurrent, Option.map_none]
    exact hleft
  | some open_ =>
    rw [hcurrent] at hleft
    simp only [State.shape, hcurrent, Option.map_some]
    split
    · rw [List.map_append]
      rfl
    · exact hleft

/-- What is written in the body of an entry leaves the places alone. -/
theorem shape_inner {d : Int} {cur : RawEntry} (h : st.current = some (d, cur)) (words : List Str)
    (opensBlock : Bool) : (keywordLine env words opensBlock st).shape = st.shape := by
  rw [keywordLine, h]
  simp only [State.shape, h, Option.map_some, RawEntry.toPlace, title_bodyLine]

/-- The line of an entry, a submenu or anything else outside of entries. -/
theorem shape_outer (h : st.current = none) (words : List Str) (opensBlock : Bool) :
    (keywordLine env words opensBlock st).shape =
      if words.headD [] = "menuentry".toList ∧ opensBlock then st.shape.openEntry words[1]?
      else if words.headD [] = "submenu".toList ∧ opensBlock then st.shape.openSubmenu
      else st.shape := by
  have hmarker : ∀ s : State,
      (if "blscfg".toList ∈ words then { s with usesBls := true } else s).shape = s.shape := by
    intro s
    split <;> rfl
  rw [keywordLine, h]
  simp only [outerLine]
  rw [hmarker]
  split
  · exact shape_openEntry words st
  · split
    · exact shape_openSubmenu words st
    · split
      · exact shape_setVariable env words st
      · rfl

/-- The braces of a line move the shape alone. -/
private theorem shape_braces (line : Str) (opensBlock : Bool) (st : State) :
    (braces line opensBlock st).shape =
      if opensBlock then st.shape.deeper
      else if line = "\x7d".toList then st.shape.close
      else st.shape := by
  unfold braces
  split
  · rfl
  · split
    · exact shape_closeBlock st
    · rfl

/-- A line moves the shape by its kind alone. -/
private theorem shape_words (env : Env) (st : State) (line : Str) (words : List Str) :
    (braces line (Str.endsWith line "\x7b".toList)
      (keywordLine env words (Str.endsWith line "\x7b".toList) st)).shape =
      st.shape.step (kindOfWords line words) := by
  have hcurrent : st.shape.current.isSome = st.current.isSome := Option.isSome_map
  rw [shape_braces, kindOfWords]
  generalize Str.endsWith line "\x7b".toList = opensBlock
  cases hinner : st.current with
  | some open_ =>
    rw [hinner] at hcurrent
    rw [shape_inner hinner]
    cases opensBlock with
    | false =>
      simp only [Bool.false_eq_true, if_false]
      split <;> rfl
    | true =>
      simp only [if_true]
      split
      · rw [Shape.step, hcurrent]
        rfl
      · split
        · rw [Shape.step, hcurrent]
          rfl
        · rfl
  | none =>
    rw [hinner] at hcurrent
    rw [shape_outer hinner]
    cases opensBlock with
    | false =>
      simp only [Bool.false_eq_true, and_false, if_false]
      split <;> rfl
    | true =>
      simp only [and_true, if_true]
      split
      · rw [Shape.step, hcurrent]
        rfl
      · split
        · rw [Shape.step, hcurrent]
          rfl
        · rfl

/-- A line of any text moves the places by its kind. -/
theorem shape_step (env : Env) (st : State) (rawLine : Str) :
    (step env st rawLine).shape = st.shape.step (kindOf rawLine) := by
  unfold step kindOf
  simp only
  split
  · rfl
  · split
    · rfl
    · exact shape_words env st _ _

/-- The places that the machine records in a text, by induction on the lines. -/
theorem shape_foldl (env : Env) (st : State) (lines : List Str) :
    (lines.foldl (step env) st).shape = (lines.map kindOf).foldl Shape.step st.shape := by
  induction lines generalizing st with
  | nil => rfl
  | cons line lines ih => rw [List.foldl_cons, ih, shape_step, List.map_cons, List.foldl_cons]

/-- The entries salvaged at the end of the file are those of the shape. -/
theorem salvaged_shape (st : State) : st.salvaged.map RawEntry.toPlace = st.shape.salvaged := by
  rw [State.salvaged, Shape.salvaged, List.map_append]
  cases h : st.current <;> simp only [State.shape, h] <;> rfl

end Simulation

/-- One place comes before another in the menu. Only children share a position of the top level. -/
def Place.Before (a b : Place) : Prop :=
  a.top < b.top ∨ a.top = b.top ∧ ∃ i j, a.sub = some i ∧ b.sub = some j ∧ i < j

namespace Shape

/-- The places are in the order of the menu, and the next ones come behind them. -/
structure Ordered (s : Shape) : Prop where
  pairwise : s.salvaged.Pairwise Place.Before
  below : ∀ p ∈ s.salvaged, p.top < s.topCount
  slot : ∀ o ∈ s.submenu, o.2.1 < s.topCount ∧
    ∀ p ∈ s.salvaged, p.Before ⟨none, o.2.1, some o.2.2⟩

variable {s : Shape}

/-- The empty file is in order. -/
theorem ordered_start : Ordered {} where
  pairwise := List.Pairwise.nil
  below p hp := by cases hp
  slot o ho := by cases ho

/-- Another open block leaves the order alone. -/
theorem Ordered.deeper (h : s.Ordered) : s.deeper.Ordered := ⟨h.pairwise, h.below, h.slot⟩

/-- Opening a submenu leaves the order alone. -/
theorem Ordered.openSubmenu (h : s.Ordered) : s.openSubmenu.Ordered where
  pairwise := h.pairwise
  below p hp := Nat.lt_succ_of_lt (h.below p hp)
  slot := by
    rintro o ⟨⟩
    exact ⟨Nat.lt_succ_self _, fun p hp => Or.inl (h.below p hp)⟩

/-- With no entry open nothing is salvaged. -/
theorem salvaged_of_none (h : s.current = none) : s.salvaged = s.places := by
  rw [salvaged, h]
  exact List.append_nil _

private theorem pairwise_concat {places : List Place} (h : places.Pairwise Place.Before) {p : Place}
    (hp : ∀ a ∈ places, a.Before p) : (places ++ [p]).Pairwise Place.Before := by
  refine List.pairwise_append.mpr ⟨h, List.pairwise_singleton _ _, fun a ha b hb => ?_⟩
  rw [List.mem_singleton.mp hb]
  exact hp a ha

/-- A new entry stands behind all the earlier ones. -/
theorem Ordered.openEntry (h : s.Ordered) (hcurrent : s.current = none) (title : Option Str) :
    (s.openEntry title).Ordered := by
  obtain ⟨hpairwise, hbelow, hslot⟩ := h
  rw [salvaged_of_none hcurrent] at hpairwise hbelow hslot
  unfold Shape.openEntry
  split
  · rename_i d top next hopen
    obtain ⟨htop, hbefore⟩ := hslot _ hopen
    refine ⟨pairwise_concat hpairwise hbefore, fun p hp => ?_, ?_⟩
    · rcases List.mem_append.mp hp with hp | hp
      · exact hbelow p hp
      · rw [List.mem_singleton.mp hp]
        exact htop
    · rintro o ⟨⟩
      refine ⟨htop, fun p hp => ?_⟩
      rcases List.mem_append.mp hp with hp | hp
      · rcases hbefore p hp with hlt | ⟨heq, i, j, hi, ⟨⟩, hij⟩
        · exact Or.inl hlt
        · exact Or.inr ⟨heq, i, next + 1, hi, rfl, Nat.lt_succ_of_lt hij⟩
      · rw [List.mem_singleton.mp hp]
        exact Or.inr ⟨rfl, next, next + 1, rfl, rfl, Nat.lt_succ_self _⟩
  · rename_i hopen
    refine ⟨pairwise_concat hpairwise fun p hp => Or.inl (hbelow p hp), fun p hp => ?_, ?_⟩
    · rcases List.mem_append.mp hp with hp | hp
      · exact Nat.lt_succ_of_lt (hbelow p hp)
      · rw [List.mem_singleton.mp hp]
        exact Nat.lt_succ_self _
    · intro o ho
      rw [hopen] at ho
      cases ho

/-- Closing a submenu leaves the order alone. -/
theorem Ordered.closeSubmenu (h : s.Ordered) : s.closeSubmenu.Ordered := by
  unfold Shape.closeSubmenu
  split
  · split
    · exact ⟨h.pairwise, h.below, fun o ho => by cases ho⟩
    · exact h
  · exact h

/-- An entry that is closed keeps its place. -/
theorem Ordered.close (h : s.Ordered) : s.close.Ordered := by
  have hback : Ordered { s with depth := s.depth - 1 } := ⟨h.pairwise, h.below, h.slot⟩
  unfold Shape.close
  simp only
  split
  · rename_i d p hcurrent
    split
    · have hsalvaged : s.salvaged = s.places ++ [p] := by rw [salvaged, hcurrent]; rfl
      obtain ⟨hpairwise, hbelow, hslot⟩ := h
      rw [hsalvaged] at hpairwise hbelow hslot
      rw [← List.append_nil (s.places ++ [p])] at hpairwise hbelow hslot
      exact ⟨hpairwise, hbelow, hslot⟩
    · exact hback.closeSubmenu
  · exact hback.closeSubmenu

/-- Every line keeps the places in order. -/
theorem Ordered.step (h : s.Ordered) (kind : Kind) : (s.step kind).Ordered := by
  cases kind with
  | quiet => exact h
  | openOther => exact h.deeper
  | close => exact h.close
  | openEntry title =>
    cases hcurrent : s.current with
    | some open_ => rw [Shape.step, hcurrent]; exact h.deeper
    | none => rw [Shape.step, hcurrent]; exact (h.openEntry hcurrent title).deeper
  | openSubmenu =>
    cases hcurrent : s.current with
    | some open_ => rw [Shape.step, hcurrent]; exact h.deeper
    | none => rw [Shape.step, hcurrent]; exact h.openSubmenu.deeper

/-- The places are in order behind any lines, by induction on the lines. -/
theorem Ordered.foldl (h : s.Ordered) (kinds : List Kind) :
    (kinds.foldl Shape.step s).Ordered := by
  induction kinds generalizing s with
  | nil => exact h
  | cons kind kinds ih => exact ih (h.step kind)

end Shape

/-- The places that are recorded in any text are in the order of the menu. -/
theorem ordered_run (env : Env) (lines : List Str) :
    ((run env lines).salvaged.map RawEntry.toPlace).Pairwise Place.Before := by
  rw [salvaged_shape, run, shape_foldl]
  exact (Shape.ordered_start.foldl _).pairwise

/-- The first entry of an item is the first one with its position. -/
theorem firstOfTop_of_ordered {raw : List RawEntry}
    (h : (raw.map RawEntry.toPlace).Pairwise Place.Before) (top : Nat) :
    firstOfTop raw top = raw.findIdx? fun e => e.top == top := by
  rw [firstOfTop]
  cases hsearch : raw.findIdx? (fun e => e.top == top && e.sub.isNone) with
  | none => rfl
  | some q =>
    obtain ⟨r, hr, hp⟩ := Positions.getElem?_of_findIdx? hsearch
    obtain ⟨htop, hsub⟩ := Bool.and_eq_true_iff.mp hp
    refine (Positions.findIdx?_eq_first hr htop fun q' r' hr' htop' => ?_).symm
    by_contra hlt
    obtain ⟨hq, rfl⟩ := List.getElem?_eq_some_iff.mp hr
    obtain ⟨hq', rfl⟩ := List.getElem?_eq_some_iff.mp hr'
    have hbefore := List.pairwise_iff_getElem.mp (List.pairwise_map.mp h) q' q hq' hq
      (Nat.lt_of_not_le hlt)
    have htop := beq_iff_eq.mp htop
    have htop' := beq_iff_eq.mp htop'
    have hsub := Option.isNone_iff_eq_none.mp hsub
    rcases hbefore with hless | ⟨_, i, j, _, hj, _⟩
    · have hless : raw[q'].top < raw[q].top := hless
      omega
    · have hj : raw[q].sub = some j := hj
      rw [hsub] at hj
      cases hj

end BootExtractor.Boot.Grub
