import BootExtractor.Boot.GrubNumbering

/-!
# The default of a nested menu

What the lines outside of entries set as the default, and the entry that a position of the
top level selects. A position means the item that the file has there exactly if no entry
comes behind a nested submenu.
-/

namespace BootExtractor.Boot.Grub

section Default

/-- The default that a line outside of entries sets. -/
def defaultSet (rawLine : Str) : Option Str :=
  let line := Str.trim rawLine
  if line = [] ∨ Str.startsWith line "#".toList then none
  else if (splitWords line).headD [] = "set".toList then
    (splitWords line)[1]?.bind (Str.stripPrefix "default=".toList)
  else none

/-- The default behind a line outside of entries. -/
def setDefault (env : Env) (d : Option Str) (rawLine : Str) : Option Str :=
  ((defaultSet rawLine).map (expand · env)).or d

/-- The lines of a file that are read outside of entries. -/
def Forest.outerLines : Forest → List Str
  | done => []
  | line p next => p.text :: next.outerLines
  | block _ h inner c next => h.text :: (inner.lines ++ c.text :: next.outerLines)
  | entry h _ _ next => h.text :: next.outerLines
  | submenu h inner c next => h.text :: (inner.outerLines ++ c.text :: next.outerLines)

/-- The default that a file sets last. -/
def Forest.defaultValue (f : Forest) : Option Str := (f.outerLines.filterMap defaultSet).getLast?

variable {env : Env} {st : State}

private theorem defaultSpec_closeSubmenu (st : State) :
    (closeSubmenu st).defaultSpec = st.defaultSpec := by
  unfold closeSubmenu
  split
  · split <;> rfl
  · rfl

/-- Braces leave the default alone. -/
private theorem defaultSpec_braces (line : Str) (opensBlock : Bool) (st : State) :
    (braces line opensBlock st).defaultSpec = st.defaultSpec := by
  unfold braces
  split
  · rfl
  · split
    · unfold closeBlock
      simp only
      split
      · split
        · rfl
        · exact defaultSpec_closeSubmenu _
      · exact defaultSpec_closeSubmenu _
    · rfl

private theorem defaultSpec_openEntry (words : List Str) (st : State) :
    (openEntry words st).defaultSpec = st.defaultSpec := by
  unfold openEntry
  split <;> rfl

/-- Outside of an entry only a set line changes the default. -/
theorem defaultSpec_outerLine (env : Env) (words : List Str) (opensBlock : Bool) (st : State) :
    (outerLine env (words.headD []) words opensBlock st).defaultSpec =
      ((if words.headD [] = "set".toList then words[1]?.bind (Str.stripPrefix "default=".toList)
        else none).map (expand · env)).or st.defaultSpec := by
  have hmarker : ∀ s : State,
      (if "blscfg".toList ∈ words then { s with usesBls := true } else s).defaultSpec =
        s.defaultSpec := by
    intro s
    split <;> rfl
  rw [outerLine, hmarker]
  split
  · rename_i hentry
    rw [defaultSpec_openEntry, hentry.1, if_neg (by decide)]
    rfl
  · split
    · rename_i hsubmenu
      rw [hsubmenu.1, if_neg (by decide)]
      rfl
    · split
      · unfold setVariable
        cases words[1]?.bind (Str.stripPrefix "default=".toList) <;> rfl
      · rfl

/-- A line is skipped, or it is what its words say and then its braces. -/
theorem step_cases (env : Env) (st : State) (rawLine : Str) :
    ((Str.trim rawLine = [] ∨ Str.startsWith (Str.trim rawLine) "#".toList = true ∨
        splitWords (Str.trim rawLine) = []) ∧ step env st rawLine = st) ∨
      ((Str.trim rawLine ≠ [] ∧ Str.startsWith (Str.trim rawLine) "#".toList = false) ∧
        ∃ opensBlock, step env st rawLine = braces (Str.trim rawLine) opensBlock
          (keywordLine env (splitWords (Str.trim rawLine)) opensBlock st)) := by
  by_cases hskip : Str.trim rawLine = [] ∨ Str.startsWith (Str.trim rawLine) "#".toList = true
  · exact Or.inl ⟨hskip.imp_right Or.inl, by rw [step, if_pos hskip]⟩
  · obtain ⟨hne, hcomment⟩ := not_or.mp hskip
    by_cases hwords : splitWords (Str.trim rawLine) = []
    · refine Or.inl ⟨Or.inr (Or.inr hwords), ?_⟩
      rw [step, if_neg hskip]
      exact if_pos hwords
    · refine Or.inr ⟨⟨hne, Bool.eq_false_iff.mpr hcomment⟩,
        Str.endsWith (Str.trim rawLine) "\x7b".toList, ?_⟩
      rw [step, if_neg hskip]
      exact if_neg hwords

/-- A line outside of entries. -/
theorem defaultSpec_step (h : st.current = none) (rawLine : Str) :
    (step env st rawLine).defaultSpec = setDefault env st.defaultSpec rawLine := by
  rw [setDefault, defaultSet]
  rcases step_cases env st rawLine with ⟨hskip, hstep⟩ | ⟨⟨hne, hcomment⟩, opensBlock, hstep⟩
  · rw [hstep]
    split
    · rfl
    · rename_i hnot
      have hwords := (hskip.imp_right Or.comm.mp).elim (fun hnil => absurd (Or.inl hnil) hnot)
        fun hor => hor.elim id fun hstart => absurd (Or.inr hstart) hnot
      rw [hwords, if_neg (by decide)]
      rfl
  · have hnot :
        ¬ (Str.trim rawLine = [] ∨ Str.startsWith (Str.trim rawLine) "#".toList = true) := by
      rw [hcomment]
      exact fun hor => hor.elim hne Bool.false_ne_true
    rw [if_neg hnot, hstep, defaultSpec_braces, keywordLine_outer env h, defaultSpec_outerLine]

/-- A line in the body of an entry. -/
theorem defaultSpec_step_inner (h : st.current ≠ none) (rawLine : Str) :
    (step env st rawLine).defaultSpec = st.defaultSpec := by
  obtain ⟨open_, hopen⟩ := Option.ne_none_iff_exists'.mp h
  rcases step_cases env st rawLine with ⟨_, hstep⟩ | ⟨_, opensBlock, hstep⟩
  · rw [hstep]
  · rw [hstep, defaultSpec_braces, keywordLine_inner env hopen]

private theorem shape_current {st : State} : st.shape.current = none ↔ st.current = none :=
  Option.map_eq_none_iff

private theorem shape_of_plain (p : Plain) : (step env st p.text).shape = st.shape := by
  rw [shape_step, p.kindOf_text, Shape.step]

private theorem shape_of_header {kw : Str} (hkw : IsOther kw) (h : Header kw) :
    (step env st h.text).shape = st.shape.deeper := by
  rw [shape_step, h.kindOf_other hkw, Shape.step]

private theorem shape_of_closer (c : Closer) : (step env st c.text).shape = st.shape.close := by
  rw [shape_step, c.kindOf_text, Shape.step]

/-- The lines of a body leave the shape as it was. -/
theorem Body.shape_foldl (b : Body) (hin : st.shape.Inner) :
    (b.lines.foldl (step env) st).shape = st.shape := by
  rw [Grub.shape_foldl, b.foldl_kinds hin]

private theorem current_of_shape {st' : State} (h : st'.shape = st.shape) :
    st'.current = none ↔ st.current = none := by
  rw [← shape_current, h, shape_current]

private theorem current_of_deeper {st' : State} (h : st'.shape = st.shape.deeper) :
    st'.current = none ↔ st.current = none := by
  have hcurrent : st'.shape.current = st.shape.current := by
    rw [h]
    rfl
  rw [← shape_current, hcurrent, shape_current]

/-- The lines of a block that is no entry and no submenu, one after the other. -/
theorem shape_of_block {kw : Str} (hkw : IsOther kw) (h : Header kw) (inner : Body) (c : Closer)
    (hin : st.shape.Inner) :
    (step env st h.text).shape = st.shape.deeper ∧
      (inner.lines.foldl (step env) (step env st h.text)).shape = st.shape.deeper ∧
      (step env (inner.lines.foldl (step env) (step env st h.text)) c.text).shape = st.shape := by
  have hopened := @shape_of_header env st _ hkw h
  have hinner : (inner.lines.foldl (step env) (step env st h.text)).shape = st.shape.deeper := by
    rw [inner.shape_foldl (by rw [hopened]; exact hin.deeper), hopened]
  exact ⟨hopened, hinner, by rw [shape_of_closer, hinner, hin.close_deeper]⟩

/-- What every line does to the default, all lines of a body do, by induction on its blocks. -/
theorem Body.defaultSpec_foldl (b : Body) {g : Option Str → Str → Option Str}
    (hin : st.shape.Inner)
    (hg : ∀ t : State, (t.current = none ↔ st.current = none) →
      ∀ l, (step env t l).defaultSpec = g t.defaultSpec l) :
    (b.lines.foldl (step env) st).defaultSpec = b.lines.foldl g st.defaultSpec := by
  induction b generalizing st with
  | done => rfl
  | line p next ih =>
    have hshape := @shape_of_plain env st p
    have hcurrent := current_of_shape hshape
    rw [lines, List.foldl_cons, List.foldl_cons, ih (by rw [hshape]; exact hin)
      (fun t ht => hg t (ht.trans hcurrent)), hg st Iff.rfl]
  | block hkw header inner c next ihInner ihNext =>
    obtain ⟨hopened, hinner, hclosed⟩ := @shape_of_block env st _ hkw header inner c hin
    have hcurrent := current_of_deeper hopened
    have hcurrent' := current_of_deeper hinner
    have hcurrent'' := current_of_shape hclosed
    rw [lines, List.foldl_cons, List.foldl_cons, List.foldl_append, List.foldl_append,
      List.foldl_cons, List.foldl_cons,
      ihNext (by rw [hclosed]; exact hin) (fun t ht => hg t (ht.trans hcurrent'')),
      hg _ hcurrent',
      ihInner (by rw [hopened]; exact hin.deeper) (fun t ht => hg t (ht.trans hcurrent)),
      hg st Iff.rfl]

/-- The body of an entry sets no default. -/
theorem Body.defaultSpec_inner (b : Body) (h : st.current ≠ none) (hin : st.shape.Inner) :
    (b.lines.foldl (step env) st).defaultSpec = st.defaultSpec := by
  have hbody := @Body.defaultSpec_foldl env st b (fun d _ => d) hin
    fun t ht l => defaultSpec_step_inner (fun hnone => h (ht.mp hnone)) l
  rwa [List.foldl_fixed] at hbody

/-- The header of an entry opens it, and its body leaves it open. -/
theorem current_of_entry (h : st.current = none) (hin : st.shape.Inner)
    (header : Header "menuentry".toList) (inner : Body) :
    (step env st header.text).current ≠ none ∧ (step env st header.text).shape.Inner ∧
      (inner.lines.foldl (step env) (step env st header.text)).current ≠ none := by
  have hopened : (step env st header.text).shape = (st.shape.openEntry header.title).deeper := by
    rw [shape_step, header.kindOf_entry, Shape.step, shape_current.mpr h]
    rfl
  have hinside : (step env st header.text).shape.Inner := by
    rw [hopened]
    exact inner_openEntry hin header.title
  have hcurrent : (step env st header.text).current ≠ none := by
    rw [Ne, ← shape_current, hopened, openEntry_eq]
    exact Option.some_ne_none _
  exact ⟨hcurrent, hinside, mt (current_of_shape (inner.shape_foldl hinside)).mp hcurrent⟩

/-- Behind an entry none is open. -/
theorem closed_of_entry (h : st.current = none) (hin : st.shape.Inner)
    (header : Header "menuentry".toList) (inner : Body) (c : Closer) :
    (step env (inner.lines.foldl (step env) (step env st header.text)) c.text).current = none ∧
      (step env (inner.lines.foldl (step env) (step env st header.text)) c.text).shape.Inner := by
  have hentry := walked_entry (shape_current.mpr h) hin header inner c
  rw [← shape_foldl env, List.foldl_cons, List.foldl_append, List.foldl_cons,
    List.foldl_nil] at hentry
  exact ⟨shape_current.mp hentry.current_eq, hentry.inner hin⟩

/-- A submenu line opens a submenu. -/
theorem shape_of_submenu (h : st.current = none) (header : Header "submenu".toList) :
    (step env st header.text).shape = st.shape.openSubmenu.deeper := by
  rw [shape_step, header.kindOf_submenu, Shape.step, shape_current.mpr h]
  rfl

/-- The header of a submenu opens no entry. -/
theorem current_of_submenu (h : st.current = none) (header : Header "submenu".toList) :
    (step env st header.text).current = none ∧ (step env st header.text).shape.Inner := by
  have hshape := shape_current.mpr h
  have hopened := @shape_of_submenu env st h header
  constructor
  · rw [← shape_current, hopened]
    exact hshape
  · rw [hopened]
    exact inner_openSubmenu hshape

/-- What a submenu lists ends in front of its closing brace, and so does the submenu behind it. -/
theorem closed_of_submenu (h : st.current = none) (hin : st.shape.Inner)
    (header : Header "submenu".toList) (inner : Forest) (c : Closer) :
    (inner.lines.foldl (step env) (step env st header.text)).current = none ∧
      (step env (inner.lines.foldl (step env) (step env st header.text)) c.text).current = none ∧
      (step env (inner.lines.foldl (step env) (step env st header.text)) c.text).shape.Inner := by
  have hshape := shape_current.mpr h
  have hopened := @shape_of_submenu env st h header
  obtain ⟨hcurrent, hinside⟩ := @current_of_submenu env st h header
  have hwalked := inner.walked (shape_current.mpr hcurrent) hinside
  have hcurrent' : (inner.lines.foldl (step env) (step env st header.text)).current = none := by
    rw [← shape_current, shape_foldl]
    exact hwalked.current_eq
  rw [hopened] at hwalked
  have hsubmenu := walked_submenu hshape header c rfl hwalked
  rw [← shape_foldl env, List.foldl_cons, List.foldl_append, List.foldl_cons,
    List.foldl_nil] at hsubmenu
  exact ⟨hcurrent', shape_current.mp hsubmenu.current_eq, hsubmenu.inner hin⟩

/-- The default behind a file is set by its lines outside of entries, by induction on the tree. -/
theorem Forest.defaultSpec_foldl (f : Forest) (h : st.current = none) (hin : st.shape.Inner) :
    (f.lines.foldl (step env) st).defaultSpec =
      f.outerLines.foldl (setDefault env) st.defaultSpec := by
  induction f generalizing st with
  | done => rfl
  | line p next ih =>
    have hshape := @shape_of_plain env st p
    rw [lines, outerLines, List.foldl_cons, List.foldl_cons,
      ih ((current_of_shape hshape).mpr h) (by rw [hshape]; exact hin),
      defaultSpec_step h]
  | block hkw header inner c next ih =>
    obtain ⟨hopened, hinner, hclosed⟩ := @shape_of_block env st _ hkw header inner c hin
    have hcurrent := (current_of_deeper hopened).mpr h
    have hcurrent' := (current_of_deeper hinner).mpr h
    have hcurrent'' := (current_of_shape hclosed).mpr h
    have hbody := @Body.defaultSpec_foldl env _ inner (setDefault env)
      (by rw [hopened]; exact hin.deeper)
      fun t ht l => defaultSpec_step (ht.mpr hcurrent) l
    rw [lines, outerLines, List.foldl_cons, List.foldl_cons, List.foldl_append, List.foldl_append,
      List.foldl_cons, List.foldl_cons, ih hcurrent'' (by rw [hclosed]; exact hin),
      defaultSpec_step hcurrent', hbody, defaultSpec_step h]
  | entry header inner c next ih =>
    obtain ⟨hcurrent, hinside, hcurrent'⟩ := @current_of_entry env st h hin header inner
    obtain ⟨hclosed, hin'⟩ := @closed_of_entry env st h hin header inner c
    rw [lines, outerLines, List.foldl_cons, List.foldl_cons, List.foldl_append, List.foldl_cons,
      ih hclosed hin', defaultSpec_step_inner hcurrent', inner.defaultSpec_inner hcurrent hinside,
      defaultSpec_step h]
  | submenu header inner c next ihInner ihNext =>
    obtain ⟨hcurrent, hinside⟩ := @current_of_submenu env st h header
    obtain ⟨hcurrent', hclosed, hin'⟩ := @closed_of_submenu env st h hin header inner c
    rw [lines, outerLines, List.foldl_cons, List.foldl_cons, List.foldl_append, List.foldl_append,
      List.foldl_cons, List.foldl_cons, ihNext hclosed hin', defaultSpec_step hcurrent',
      ihInner hcurrent hinside, defaultSpec_step h]

/-- The last default that is set counts. -/
theorem foldl_setDefault (lines : List Str) (d : Option Str) :
    lines.foldl (setDefault env) d =
      (((lines.filterMap defaultSet).getLast?).map (expand · env)).or d := by
  induction lines generalizing d with
  | nil => rfl
  | cons line lines ih =>
    rw [List.foldl_cons, ih, setDefault]
    cases hset : defaultSet line with
    | none => rw [List.filterMap_cons_none hset]; rfl
    | some value =>
      rw [List.filterMap_cons_some hset, List.getLast?_cons]
      cases (lines.filterMap defaultSet).getLast? <;> rfl

end Default

section Text

variable {kw : Str}

/-- A header is one line. -/
theorem Header.oneLine (hkw : IsKeyword kw) (h : Header kw) : '\n' ∉ h.text := by
  have hkeyword : '\n' ∉ kw := fun hmem => absurd (hkw.clean _ hmem).1 (by decide)
  have hbrace : '\n' ∉ "\x7b".toList := by decide
  simp only [text, command, List.mem_append, List.mem_cons, not_or]
  exact ⟨⟨h.indent_blank.oneLine, hkeyword, h.gap_blank.2.symm, h.rest_line, hbrace⟩,
    h.trail_blank.oneLine⟩

/-- A closing line is one line. -/
theorem Closer.oneLine (c : Closer) : '\n' ∉ c.text := by
  have hbrace : '\n' ∉ "\x7d".toList := by decide
  simp only [text, List.mem_append, not_or]
  exact ⟨⟨c.indent_blank.oneLine, hbrace⟩, c.trail_blank.oneLine⟩

private theorem forall_mem_block {P : Str → Prop} {first last : Str} {inner next : List Str} :
    (∀ l ∈ first :: (inner ++ last :: next), P l) ↔
      P first ∧ (∀ l ∈ inner, P l) ∧ P last ∧ ∀ l ∈ next, P l := by
  simp only [List.forall_mem_cons, List.forall_mem_append]

/-- No line of a body holds a line break. -/
theorem Body.oneLine (b : Body) : ∀ l ∈ b.lines, '\n' ∉ l := by
  induction b with
  | done => exact fun l hl => absurd hl List.not_mem_nil
  | line p next ih => exact List.forall_mem_cons.mpr ⟨p.oneLine, ih⟩
  | block hkw h inner c next ihInner ihNext =>
    exact forall_mem_block.mpr ⟨h.oneLine hkw.toIsKeyword, ihInner, c.oneLine, ihNext⟩

/-- No line of a forest holds a line break. -/
theorem Forest.oneLine (f : Forest) : ∀ l ∈ f.lines, '\n' ∉ l := by
  induction f with
  | done => exact fun l hl => absurd hl List.not_mem_nil
  | line p next ih => exact List.forall_mem_cons.mpr ⟨p.oneLine, ih⟩
  | block hkw h inner c next ih =>
    exact forall_mem_block.mpr ⟨h.oneLine hkw.toIsKeyword, inner.oneLine, c.oneLine, ih⟩
  | entry h inner c next ih =>
    exact forall_mem_block.mpr ⟨h.oneLine isKeyword_menuentry, inner.oneLine, c.oneLine, ih⟩
  | submenu h inner c next ihInner ihNext =>
    exact forall_mem_block.mpr ⟨h.oneLine isKeyword_submenu, ihInner, c.oneLine, ihNext⟩

/-- A line counts without the blanks around it. -/
theorem step_trim (env : Env) (st : State) (l : Str) :
    step env st l = step env st (Str.trim l) := by
  rw [step, step, Str.trim_trim]

/-- The machine reads the lines that a file is put together from. -/
theorem Forest.run_text (f : Forest) (env : Env) :
    run env (Str.lines f.text) = f.lines.foldl (step env) {} :=
  Str.foldl_lines_join (step_trim env) (fun _ => rfl) f.oneLine {}

private theorem inner_start : (State.shape {}).Inner where
  submenu o ho := by cases ho
  current o ho := by cases ho

/-- The places that are recorded are those of the walk. -/
theorem Forest.salvaged_text (f : Forest) (env : Env) :
    (run env (Str.lines f.text)).salvaged.map RawEntry.toPlace = (f.walk ⟨0, none⟩).1 := by
  have hwalked := f.walked (s := State.shape {}) rfl inner_start
  have hplaces := hwalked.places_eq
  rw [f.run_text, salvaged_shape, Grub.shape_foldl, Shape.salvaged_of_none hwalked.current_eq]
  exact hplaces

/-- The last value set outside of every block is the default that the file leaves. -/
theorem Forest.defaultSpec_text (f : Forest) (env : Env) :
    (run env (Str.lines f.text)).defaultSpec = f.defaultValue.map (expand · env) := by
  rw [f.run_text, f.defaultSpec_foldl rfl inner_start, foldl_setDefault, defaultValue]
  exact Option.or_none

end Text

section Selection

/-- A position selects the first entry that has it. -/
theorem resolveDefault_index {raw : List RawEntry} {n p : Nat} (hn : n < 2 ^ 64)
    (hordered : (raw.map RawEntry.toPlace).Pairwise Place.Before)
    (hp : raw.findIdx? (fun e => e.top == n) = some p) (subs : List RawSubmenu) :
    resolveDefault raw subs (Str.dec n) = some p := by
  have hraw : raw ≠ [] := by
    rintro rfl
    cases hp
  have hitem := resolveDefault_item hraw subs (.index n hn)
  rw [Component.text, resolveSingle, Str.parseUsize_dec hn] at hitem
  have hfirst := (firstOfTop_of_ordered hordered n).trans hp
  exact hitem.trans (congrArg (Option.or · (some 0)) hfirst)

/-- The entries of a file have the positions of their items, and a position that the file sets as
its default selects the first entry of that item. -/
structure Forest.Numbered (f : Forest) (env : Env) : Prop where
  positions : (run env (Str.lines f.text)).salvaged.map (fun e => (e.entry.title, e.top)) =
    f.entries
  default : ∀ n < 2 ^ 64, f.defaultValue = some (Str.dec n) →
    ∀ p, f.entries.findIdx? (fun e => e.2 == n) = some p → (parseStr f.text env).default = some p

/-- The parser puts every entry where the counter does. -/
theorem Forest.positions_eq (f : Forest) (env : Env) :
    (run env (Str.lines f.text)).salvaged.map (fun e => (e.entry.title, e.top)) =
      (f.walk ⟨0, none⟩).1.map Place.key := by
  rw [← f.salvaged_text env, List.map_map]
  rfl

/-- Where all positions are right, the default index picks the entry that stands there. -/
theorem Forest.default_of_positions {f : Forest} {env : Env}
    (h : (run env (Str.lines f.text)).salvaged.map (fun e => (e.entry.title, e.top)) = f.entries)
    {n p : Nat} (hn : n < 2 ^ 64) (hdefault : f.defaultValue = some (Str.dec n))
    (hp : f.entries.findIdx? (fun e => e.2 == n) = some p) :
    (parseStr f.text env).default = some p := by
  have hdollar : '$' ∉ Str.dec n := fun hmem => absurd (Str.isDigit_of_mem_dec hmem) (by decide)
  have hspec := f.defaultSpec_text env
  rw [hdefault, Option.map_some, expand_eq_self hdollar] at hspec
  rw [← h, List.findIdx?_map] at hp
  rw [parseStr]
  simp only [hspec, Option.getD_some]
  exact resolveDefault_index hn (ordered_run env _) hp _

/-- A file is numbered right exactly if no entry comes behind a submenu inside of a submenu. -/
theorem parseStr_nested_iff (f : Forest) (env : Env) :
    f.Numbered env ↔ Undisturbed (f.marksFrom false) := by
  have hwalk := ((Agrees.outside 0).walk f).1
  rw [← f.positions_eq env] at hwalk
  constructor
  · intro h
    exact hwalk.mp h.positions
  · intro h
    have hpositions := hwalk.mpr h
    exact ⟨hpositions, fun n hn hdefault p hp => f.default_of_positions hpositions hn hdefault hp⟩

end Selection

section Sample

/-- The line that sets a position as the default. -/
def setLine (n : Nat) : Str := "set ".toList ++ ("default=".toList ++ ('"' :: Str.dec n ++ ['"']))

private theorem splitWords_setLine (n : Nat) :
    splitWords (setLine n) = ["set".toList, "default=".toList ++ Str.dec n] := by
  have hset : Reads "set".toList "set".toList := reads_bare (Str.forall_of_all rfl)
  have hname : Reads "default=".toList "default=".toList := reads_bare (Str.forall_of_all rfl)
  have hquote : '"' ∉ Str.dec n := fun hmem => absurd (Str.isDigit_of_mem_dec hmem) (by decide)
  have hvalue := (hname.append (reads_double hquote)) [] []
  have hsplit : setLine n =
      "set".toList ++ (' ' :: ("default=".toList ++ ('"' :: Str.dec n ++ ['"']))) := rfl
  rw [List.append_nil, List.nil_append] at hvalue
  rw [splitWords, hsplit, hset [], List.nil_append, splitWordsFrom, if_neg (by decide),
    if_neg (by decide), if_pos (by decide), if_neg (by decide), hvalue, splitWordsFrom,
    if_neg (List.append_ne_nil_of_left_ne_nil (by decide) _)]
  rfl

private theorem setLine_concat (n : Nat) : ∃ init, setLine n = init ++ ['"'] :=
  ⟨"set ".toList ++ ("default=".toList ++ '"' :: Str.dec n), by
    rw [setLine, List.append_assoc, List.append_assoc]⟩

private theorem trim_setLine (n : Nat) : Str.trim (setLine n) = setLine n := by
  refine Str.trim_ends (fun c hc => ?_) fun c hc => ?_
  · obtain rfl : 's' = c := Option.some.inj hc
    rfl
  · obtain ⟨init, hinit⟩ := setLine_concat n
    rw [hinit, List.getLast?_concat] at hc
    obtain rfl : '"' = c := Option.some.inj hc
    rfl

/-- The line sets the default to its number. -/
private theorem defaultSet_setLine (n : Nat) : defaultSet (setLine n) = some (Str.dec n) := by
  have hset : ["set".toList, "default=".toList ++ Str.dec n].headD [] = "set".toList := rfl
  have hcommand : ¬ (setLine n = [] ∨ Str.startsWith (setLine n) "#".toList = true) := by
    rintro (hnil | hstart)
    · cases hnil
    · obtain ⟨rest, hrest⟩ := Str.startsWith_iff.mp hstart
      cases congrArg List.head? hrest
  rw [defaultSet]
  simp only [trim_setLine, splitWords_setLine]
  rw [if_neg hcommand, if_pos hset]
  exact Str.stripPrefix_append _ _

/-- The line as a part of a file. -/
def Plain.setDefault (n : Nat) : Plain where
  text := setLine n
  oneLine := by
    have hset : '\n' ∉ "set ".toList := by decide
    have hname : '\n' ∉ "default=".toList := by decide
    have hvalue : '\n' ∉ Str.dec n := fun hmem => absurd (Str.isDigit_of_mem_dec hmem) (by decide)
    simp only [setLine, List.mem_append, List.mem_cons, not_or]
    exact ⟨hset, hname, ⟨by decide, hvalue⟩, by decide⟩
  harmless := by
    obtain ⟨init, hinit⟩ := setLine_concat n
    refine Or.inr ⟨?_, fun he => ?_⟩
    · rw [trim_setLine, hinit]
      exact Str.endsWith_concat init '"' '\x7b'
    · rw [trim_setLine] at he
      cases congrArg List.head? he

/-- The position that is set in front counts, unless another default is set later. -/
theorem Forest.defaultValue_setDefault (n : Nat) (f : Forest) :
    (Forest.line (.setDefault n) f).defaultValue = f.defaultValue.or (some (Str.dec n)) := by
  have houter : (Forest.line (.setDefault n) f).outerLines = setLine n :: f.outerLines := rfl
  rw [defaultValue, houter, List.filterMap_cons_some (defaultSet_setLine n), List.getLast?_cons,
    defaultValue]
  cases (f.outerLines.filterMap defaultSet).getLast? <;> rfl

/-- The header of a block, with its title in single quotes. -/
def titledHeader (kw title : Str) (h : '\n' ∉ title) : Header kw where
  indent := []
  gap := ' '
  rest := quoted title ++ " ".toList
  trail := []
  indent_blank := Str.forall_of_all rfl
  gap_blank := by decide
  rest_line := by
    simp only [quoted, List.mem_append, List.mem_cons, not_or]
    exact ⟨⟨⟨by decide, h⟩, by decide⟩, by decide⟩
  trail_blank := Str.forall_of_all rfl

/-- A closing line with no blanks around it. -/
def loneBrace : Closer := ⟨[], [], Str.forall_of_all rfl, Str.forall_of_all rfl⟩

/-- A submenu with an entry in a submenu of its own, before an entry of the top level. -/
def nestedMenu : Forest :=
  .line (.setDefault 1)
    (.submenu (titledHeader _ "Advanced".toList (by decide))
      (.submenu (titledHeader _ "Old".toList (by decide))
        (.entry (titledHeader _ "Linux 5.10".toList (by decide)) .done loneBrace .done)
        loneBrace .done)
      loneBrace
      (.entry (titledHeader _ "Memtest".toList (by decide)) .done loneBrace .done))

/-- Position 1 means the entry behind the submenu, but selects the one inside. -/
theorem nested_default_misses :
    nestedMenu.text = ("set default=\"1\"\nsubmenu 'Advanced' \x7b\nsubmenu 'Old' \x7b\n" ++
      "menuentry 'Linux 5.10' \x7b\n\x7d\n\x7d\n\x7d\nmenuentry 'Memtest' \x7b\n\x7d").toList ∧
    nestedMenu.entries = [(some "Linux 5.10".toList, 0), (some "Memtest".toList, 1)] ∧
    (parseStr nestedMenu.text fun _ => none).default = some 0 ∧
    ¬ ∀ (f : Forest) (env : Env), f.Numbered env := by
  have hselected : (parseStr nestedMenu.text fun _ => none).default = some 0 := by decide +kernel
  refine ⟨by decide +kernel, by decide +kernel, hselected, fun h => ?_⟩
  have hdefault : nestedMenu.defaultValue = some (Str.dec 1) :=
    (Forest.defaultValue_setDefault 1 _).trans (by decide +kernel)
  have hmemtest := (h nestedMenu fun _ => none).default 1 (by decide) hdefault 1 (by decide +kernel)
  rw [hselected] at hmemtest
  cases hmemtest

end Sample

end BootExtractor.Boot.Grub
