import BootExtractor.Boot.GrubWords
import Mathlib.Data.List.Forall2

/-!
# The run on a menu

What each line of a menu does to the machine, and from that what an entry, a submenu and
a whole menu do. After the run the machine holds the entries with their places, the
submenus and the default as it was written.
-/

namespace BootExtractor.Boot.Grub

section Tokens

private theorem token_bare {s : Str} (hne : s ≠ [])
    (h : ∀ c ∈ s, Str.isWhitespace c = false ∧ c ≠ '\'' ∧ c ≠ '"') : Token s s where
  reads := reads_bare h
  word_ne := hne
  first c hc := (h c (List.mem_of_mem_head? hc)).1
  last c hc := (h c (List.mem_of_mem_getLast? hc)).1
  oneLine hmem := by cases (h '\n' hmem).1

/-- A word is a token of itself. -/
theorem IsWord.token {s : Str} (h : IsWord s) : Token s s :=
  token_bare h.ne_nil fun c hc =>
    ⟨(h.clean c hc).1, (h.clean c hc).2.1, (h.clean c hc).2.2.1⟩

/-- A name in single quotes is a token. -/
theorem IsName.token {s : Str} (h : IsName s) : Token (quoted s) s where
  reads := reads_quoted fun hmem => (h.clean _ hmem).1 rfl
  word_ne := h.ne_nil
  first c hc := by
    obtain rfl : '\'' = c := Option.some.inj hc
    rfl
  last c hc := by
    rw [quoted, List.getLast?_append_of_ne_nil _ (List.cons_ne_nil _ _)] at hc
    obtain rfl : '\'' = c := Option.some.inj hc
    rfl
  oneLine hmem := by
    rw [quoted, List.cons_append, List.mem_cons, List.mem_append, List.mem_singleton] at hmem
    rcases hmem with he | hmem | he
    · cases he
    · exact h.oneLine hmem
    · cases he

private theorem token_menuentry : Token "menuentry".toList "menuentry".toList :=
  token_bare (List.cons_ne_nil _ _) (Str.forall_of_all rfl)

private theorem token_submenu : Token "submenu".toList "submenu".toList :=
  token_bare (List.cons_ne_nil _ _) (Str.forall_of_all rfl)

private theorem token_linux : Token "linux".toList "linux".toList :=
  token_bare (List.cons_ne_nil _ _) (Str.forall_of_all rfl)

private theorem token_initrd : Token "initrd".toList "initrd".toList :=
  token_bare (List.cons_ne_nil _ _) (Str.forall_of_all rfl)

private theorem token_set : Token "set".toList "set".toList :=
  token_bare (List.cons_ne_nil _ _) (Str.forall_of_all rfl)

private theorem token_idOption :
    Token "$menuentry_id_option".toList "$menuentry_id_option".toList :=
  token_bare (List.cons_ne_nil _ _) (Str.forall_of_all rfl)

private theorem token_open : Token "\x7b".toList "\x7b".toList :=
  token_bare (List.cons_ne_nil _ _) (Str.forall_of_all rfl)

private theorem token_close : Token "\x7d".toList "\x7d".toList :=
  token_bare (List.cons_ne_nil _ _) (Str.forall_of_all rfl)

private theorem forall₂_tokens {p : Str → Prop} (htoken : ∀ s, p s → Token s s)
    (l : List { s // p s }) :
    List.Forall₂ Token (l.map Subtype.val) (l.map Subtype.val) := by
  apply List.forall₂_same.mpr
  intro s hs
  obtain ⟨x, _, rfl⟩ := List.mem_map.mp hs
  exact htoken x.val x.property

end Tokens

section Lines

/-- A row without braces opens no block. -/
private theorem endsWith_no_brace {row words : List Str} {line : Str} (hs : Spaced row line)
    (h : List.Forall₂ Token row words) (hbrace : ∀ text ∈ row, '\x7b' ∉ text) :
    Str.endsWith line "\x7b".toList = false := by
  cases hlast : row.getLast? with
  | none =>
    obtain rfl := List.getLast?_eq_none_iff.mp hlast
    cases hs
  | some text =>
    have hmem : text ∈ row := List.mem_of_getLast? hlast
    obtain ⟨word, htoken⟩ := forall₂_token h hmem
    have hc := List.getLast?_eq_some_getLast htoken.text_ne
    refine (hs.endsWith hlast hc '\x7b').trans (beq_eq_false_iff_ne.mpr ?_)
    exact fun he => hbrace text hmem (he ▸ List.getLast_mem htoken.text_ne)

/-- A line that opens no block. -/
theorem rowStep_plain (env : Env) (st : State) {c : Char} {text : Str} {more words : List Str}
    (h : List.Forall₂ Token ((c :: text) :: more) words) (hcomment : c ≠ '#') (hclose : c ≠ '\x7d')
    (hopen : Str.endsWith (tokens ((c :: text) :: more)) "\x7b".toList = false) :
    rowStep env st ((c :: text) :: more) = keywordLine env words false st := by
  have hs := @spaced_tokens ((c :: text) :: more) (List.cons_ne_nil _ _)
  obtain ⟨rest, hrest⟩ := hs.exists_head
  rw [rowStep, hs.step env st h hcomment, hopen, braces, if_neg Bool.false_ne_true, if_neg]
  rw [hrest]
  exact fun he => hclose (List.cons.inj he).1

/-- A line that opens a block. -/
theorem rowStep_open (env : Env) (st : State) {c : Char} {text : Str} {more words : List Str}
    (h : List.Forall₂ Token ((c :: text) :: more) words) (hcomment : c ≠ '#')
    (hopen : Str.endsWith (tokens ((c :: text) :: more)) "\x7b".toList = true) :
    rowStep env st ((c :: text) :: more) =
      { keywordLine env words true st with
        depth := (keywordLine env words true st).depth + 1 } := by
  have hs := @spaced_tokens ((c :: text) :: more) (List.cons_ne_nil _ _)
  rw [rowStep, hs.step env st h hcomment, hopen, braces, if_pos rfl]

/-- The line that closes a block. -/
theorem rowStep_close (env : Env) (st : State) :
    rowStep env st ["\x7d".toList] = closeBlock (keywordLine env ["\x7d".toList] false st) := by
  have hwords := List.Forall₂.cons token_close (List.Forall₂.nil)
  have hstep := (Spaced.last "\x7d".toList).step env st hwords (by decide)
  rw [rowStep, tokens_singleton]
  exact hstep

/-- A text without references expands to itself. -/
theorem expand_eq_self {s : Str} (h : '$' ∉ s) (env : Env) : expand s env = s := by
  rw [expand]
  induction s with
  | nil => rfl
  | cons c s ih =>
    have hc : c ≠ '$' := fun he => h (he ▸ List.mem_cons_self)
    rw [List.length_cons, expand.go, if_neg hc, ih fun hmem => h (List.mem_cons_of_mem _ hmem)]

private theorem cleanPath_absolute {p : Str} (h : Str.startsWith p "/".toList) :
    cleanPath p = p := by
  obtain ⟨rest, rfl⟩ := Str.startsWith_iff.mp h
  rfl

/-- The arguments of a kernel are the command line as they are. -/
theorem cmdline_args (env : Env) {args : List Word} (hargs : args ≠ []) :
    Str.trim (expand (Str.join " ".toList (args.map Subtype.val)) env) =
        tokens (args.map Subtype.val) ∧
      tokens (args.map Subtype.val) ≠ [] := by
  obtain ⟨w, more, rfl⟩ := List.exists_cons_of_ne_nil hargs
  have hs := @spaced_tokens ((w :: more).map Subtype.val) (List.cons_ne_nil _ _)
  have hdollar : '$' ∉ tokens ((w :: more).map Subtype.val) := by
    intro hmem
    rcases hs.mem hmem with ⟨hc, _⟩ | ⟨text, htext, hc⟩
    · cases hc
    · obtain ⟨w', _, rfl⟩ := List.mem_map.mp htext
      exact (w'.property.clean _ hc).2.2.2.1 rfl
  have htrim := hs.trim (forall₂_tokens (fun _ h => IsWord.token h) (w :: more))
  constructor
  · rw [← tokens, expand_eq_self hdollar, htrim]
  · obtain ⟨rest, hrest⟩ := hs.exists_head
    rw [hrest]
    exact List.append_ne_nil_of_left_ne_nil w.property.ne_nil rest

/-- A linux line sets the kernel and its arguments. -/
private theorem bodyLine_linux (env : Env) (e : MenuEntry) (entry : BootEntry) :
    bodyLine env "linux".toList ("linux".toList :: e.kernel.val :: e.args.map Subtype.val) entry =
      { entry with
        kernel := some e.kernel.val
        cmdline := if e.args = [] then entry.cmdline else
          some (tokens (e.args.map Subtype.val)) } := by
  have hkernel : cleanPath e.kernel.val = e.kernel.val :=
    cleanPath_absolute e.kernel.property.absolute
  have hlinux : "linux".toList ∈ linuxKeywords := List.mem_cons_self
  have hlength : ("linux".toList :: e.kernel.val :: e.args.map Subtype.val).length ≥ 2 := by
    rw [List.length_cons, List.length_cons]
    omega
  rw [bodyLine, if_pos ⟨hlinux, hlength⟩]
  simp only [List.getElem?_cons_succ, List.getElem?_cons_zero, Option.map_some, hkernel,
    List.drop_succ_cons, List.drop_zero]
  by_cases hargs : e.args = []
  · rw [if_pos hargs, hargs]
    rfl
  · obtain ⟨hcmdline, hne⟩ := cmdline_args env hargs
    rw [if_neg hargs, hcmdline, if_neg hne]

/-- An initrd line sets the initrds. -/
private theorem bodyLine_initrd (env : Env) (paths : List Path) (entry : BootEntry) :
    bodyLine env "initrd".toList ("initrd".toList :: paths.map Subtype.val) entry =
      { entry with initrd := paths.map Subtype.val } := by
  have hlinux : ¬("initrd".toList ∈ linuxKeywords ∧
      ("initrd".toList :: paths.map Subtype.val).length ≥ 2) := by
    rintro ⟨hmem, _⟩
    revert hmem
    decide
  have hinitrd : "initrd".toList ∈ initrdKeywords := List.mem_cons_self
  have hclean : (paths.map Subtype.val).map cleanPath = paths.map Subtype.val := by
    rw [List.map_map]
    apply List.map_congr_left
    intro p _
    exact cleanPath_absolute p.property.absolute
  rw [bodyLine, if_neg hlinux, if_pos hinitrd, List.drop_succ_cons, List.drop_zero, hclean]

end Lines

section Steps

/-- Where the next entry stands. -/
def State.place (st : State) : Nat × Option Nat :=
  match st.submenu with
  | some (_, top, next) => (top, some next)
  | none => (st.topCount, none)

/-- The state with the next place taken. -/
def State.advance (st : State) : State :=
  match st.submenu with
  | some (d, top, next) => { st with submenu := some (d, top, next + 1) }
  | none => { st with topCount := st.topCount + 1 }

/-- The state with one more entry, at the next place. -/
def State.record (st : State) (e : BootEntry) : State :=
  { st.advance with raw := st.raw ++ [⟨e, st.place.1, st.place.2⟩] }

/-- What a block line says about an entry. -/
def MenuEntry.head (e : MenuEntry) : BootEntry where
  title := some e.title.val
  id := some e.id.val
  source := .grub

/-- The words of a block line. -/
def blockWords (kw : Str) (title id : Name) : List Str :=
  [kw, title.val, "$menuentry_id_option".toList, id.val, "\x7b".toList]

private theorem forall₂_block {kw : Str} (hkw : Token kw kw) (title id : Name) :
    List.Forall₂ Token (blockRow kw title id) (blockWords kw title id) :=
  .cons hkw (.cons title.property.token (.cons token_idOption (.cons id.property.token
    (.cons token_open .nil))))

/-- The id of a block is found behind its option. -/
private theorem idOption_block {kw : Str} (hkw : kw ≠ "$menuentry_id_option".toList)
    (title id : Name) :
    idOption (blockWords kw title id) = some id.val := by
  have htitle : title.val ≠ "$menuentry_id_option".toList := by
    intro he
    have hdollar : '$' ∈ title.val := he ▸ List.mem_cons_self
    exact (title.property.clean _ hdollar).2.2.1 rfl
  have hfind : (blockWords kw title id).findIdx? (· == "$menuentry_id_option".toList) = some 2 := by
    rw [blockWords, List.findIdx?_cons, if_neg (by simpa using hkw), List.findIdx?_cons,
      if_neg (by simpa using htitle), List.findIdx?_cons, if_pos (by simp)]
    rfl
  rw [idOption, hfind]
  rfl

/-- What a line outside of entries does besides the `blscfg` marker. -/
def outerEffect (env : Env) (kw : Str) (words : List Str) (opensBlock : Bool) (st : State) :
    State :=
  if kw = "menuentry".toList ∧ opensBlock then openEntry words st
  else if kw = "submenu".toList ∧ opensBlock then openSubmenu words st
  else if kw = "set".toList then setVariable env words st
  else st

/-- Outside of an entry a keyword line has its effect, and may note a BLS import. -/
private theorem outerLine_effect (env : Env) (kw : Str) (words : List Str) (opensBlock : Bool)
    (st : State) :
    ∃ b, outerLine env kw words opensBlock st =
      { outerEffect env kw words opensBlock st with usesBls := b } := by
  rw [outerLine]
  split
  · exact ⟨true, rfl⟩
  · exact ⟨_, rfl⟩

private theorem openEntry_block (st : State) (e : MenuEntry) :
    openEntry (blockWords "menuentry".toList e.title e.id) st =
      { st.advance with current := some (st.depth, ⟨e.head, st.place.1, st.place.2⟩) } := by
  have hid := @idOption_block "menuentry".toList (by decide) e.title e.id
  rw [openEntry, hid, State.advance, State.place]
  cases st.submenu with
  | none => rfl
  | some open_ => rfl

/-- Outside of an entry the first word decides. -/
theorem keywordLine_outer (env : Env) {st : State} (h : st.current = none) (words : List Str)
    (opensBlock : Bool) :
    keywordLine env words opensBlock st = outerLine env (words.headD []) words opensBlock st := by
  rw [keywordLine, h]

/-- Inside of an entry a keyword line changes that entry alone. -/
theorem keywordLine_inner (env : Env) {st : State} {d : Int} {cur : RawEntry}
    (h : st.current = some (d, cur)) (words : List Str) (opensBlock : Bool) :
    keywordLine env words opensBlock st =
      { st with
        current :=
          some (d, { cur with entry := bodyLine env (words.headD []) words cur.entry }) } := by
  rw [keywordLine, h]

/-- A block line opens what its keyword says. -/
theorem rowStep_block (env : Env) {st : State} (h : st.current = none) {c : Char} {kw : Str}
    (hkw : Token (c :: kw) (c :: kw)) (hcomment : c ≠ '#') {title id : Name} {opened : State}
    (hopened : outerEffect env (c :: kw) (blockWords (c :: kw) title id) true st = opened) :
    ∃ b, rowStep env st (blockRow (c :: kw) title id) =
      { opened with depth := opened.depth + 1, usesBls := b } := by
  have hwords := forall₂_block hkw title id
  have hs := @spaced_tokens (blockRow (c :: kw) title id) (List.cons_ne_nil _ _)
  have hopen : Str.endsWith (tokens (blockRow (c :: kw) title id)) "\x7b".toList = true :=
    @Spaced.endsWith _ _ hs "\x7b".toList (by rfl) '\x7b' (by rfl) '\x7b'
  obtain ⟨b, hb⟩ := outerLine_effect env (c :: kw) (blockWords (c :: kw) title id) true st
  rw [hopened] at hb
  refine ⟨b, ?_⟩
  rw [blockRow, rowStep_open env st hwords hcomment hopen, keywordLine_outer env h]
  change { outerLine env (c :: kw) (blockWords (c :: kw) title id) true st with
    depth := (outerLine env (c :: kw) (blockWords (c :: kw) title id) true st).depth + 1 } = _
  rw [hb]

/-- The block line of an entry. -/
theorem rowStep_menuentry (env : Env) {st : State} (h : st.current = none) (e : MenuEntry) :
    ∃ b, rowStep env st (blockRow "menuentry".toList e.title e.id) =
      { st.advance with
        depth := st.advance.depth + 1
        current := some (st.depth, ⟨e.head, st.place.1, st.place.2⟩)
        usesBls := b } := by
  have hopened : outerEffect env "menuentry".toList
      (blockWords "menuentry".toList e.title e.id) true st = _ :=
    (if_pos ⟨rfl, rfl⟩).trans (openEntry_block st e)
  exact rowStep_block env h token_menuentry (by decide) hopened

/-- The block line of a submenu. -/
theorem rowStep_submenu (env : Env) {st : State} (h : st.current = none) (title id : Name) :
    ∃ b, rowStep env st (blockRow "submenu".toList title id) =
      { st with
        submenus := st.submenus ++ [⟨st.topCount, some id.val, some title.val⟩]
        submenu := some (st.depth, st.topCount, 0)
        topCount := st.topCount + 1
        depth := st.depth + 1
        usesBls := b } := by
  have hid := @idOption_block "submenu".toList (by decide) title id
  have hkw : ¬("submenu".toList = "menuentry".toList ∧ true = true) := by decide
  have hopened : outerEffect env "submenu".toList
      (blockWords "submenu".toList title id) true st =
      openSubmenu (blockWords "submenu".toList title id) st :=
    (if_neg hkw).trans (if_pos ⟨rfl, rfl⟩)
  rw [openSubmenu, hid] at hopened
  exact rowStep_block env h token_submenu (by decide) hopened

private theorem forall₂_linux (e : MenuEntry) :
    List.Forall₂ Token ("linux".toList :: e.kernel.val :: e.args.map Subtype.val)
      ("linux".toList :: e.kernel.val :: e.args.map Subtype.val) :=
  .cons token_linux (.cons e.kernel.property.token
    (forall₂_tokens (fun _ h => IsWord.token h) e.args))

private theorem forall₂_initrd (paths : List Path) :
    List.Forall₂ Token ("initrd".toList :: paths.map Subtype.val)
      ("initrd".toList :: paths.map Subtype.val) :=
  .cons token_initrd (forall₂_tokens (fun _ h => IsWord.token h.toIsWord) paths)

/-- The line of the kernel. -/
theorem rowStep_linux (env : Env) {st : State} {d : Int} {cur : RawEntry}
    (h : st.current = some (d, cur)) (e : MenuEntry) :
    rowStep env st ("linux".toList :: e.kernel.val :: e.args.map Subtype.val) =
      { st with
        current := some (d, { cur with entry := { cur.entry with
          kernel := some e.kernel.val
          cmdline := if e.args = [] then cur.entry.cmdline else
            some (tokens (e.args.map Subtype.val)) } }) } := by
  have hwords := forall₂_linux e
  have hbrace : ∀ text ∈ "linux".toList :: e.kernel.val :: e.args.map Subtype.val,
      '\x7b' ∉ text := by
    intro text htext
    rcases List.mem_cons.mp htext with rfl | htext
    · decide
    · rcases List.mem_cons.mp htext with rfl | htext
      · exact fun hmem => (e.kernel.property.clean _ hmem).2.2.2.2 rfl
      · obtain ⟨w, _, rfl⟩ := List.mem_map.mp htext
        exact fun hmem => (w.property.clean _ hmem).2.2.2.2 rfl
  have hopen := endsWith_no_brace (spaced_tokens (List.cons_ne_nil _ _)) hwords hbrace
  have hstep := rowStep_plain env st hwords (by decide) (by decide) hopen
  rw [keywordLine_inner env h, List.headD_cons, bodyLine_linux] at hstep
  exact hstep

/-- The line of the initial RAM disks. -/
theorem rowStep_initrd (env : Env) {st : State} {d : Int} {cur : RawEntry}
    (h : st.current = some (d, cur)) (paths : List Path) :
    rowStep env st ("initrd".toList :: paths.map Subtype.val) =
      { st with
        current := some (d, { cur with entry := { cur.entry with
          initrd := paths.map Subtype.val } }) } := by
  have hwords := forall₂_initrd paths
  have hbrace : ∀ text ∈ "initrd".toList :: paths.map Subtype.val, '\x7b' ∉ text := by
    intro text htext
    rcases List.mem_cons.mp htext with rfl | htext
    · decide
    · obtain ⟨p, _, rfl⟩ := List.mem_map.mp htext
      exact fun hmem => (p.property.clean _ hmem).2.2.2.2 rfl
  have hopen := endsWith_no_brace (spaced_tokens (List.cons_ne_nil _ _)) hwords hbrace
  have hstep := rowStep_plain env st hwords (by decide) (by decide) hopen
  rw [keywordLine_inner env h, List.headD_cons, bodyLine_initrd] at hstep
  exact hstep

/-- The end of an entry. -/
theorem rowStep_endEntry (env : Env) {st : State} {d : Int} {cur : RawEntry}
    (h : st.current = some (d, cur)) (hdepth : st.depth = d + 1) :
    rowStep env st ["\x7d".toList] =
      { st with depth := d, raw := st.raw ++ [cur], current := none } := by
  have hd : st.depth - 1 = d := by omega
  rw [rowStep_close, keywordLine_inner env h, closeBlock]
  simp only [hd, if_true]
  rfl

/-- The end of a submenu. -/
theorem rowStep_endSubmenu (env : Env) {st : State} {d : Int} {top next : Nat}
    (h : st.current = none) (hsubmenu : st.submenu = some (d, top, next))
    (hdepth : st.depth = d + 1) :
    rowStep env st ["\x7d".toList] = { st with depth := d, submenu := none } := by
  have hd : st.depth - 1 = d := by omega
  have hkeyword : keywordLine env ["\x7d".toList] false st = st := by
    rw [keywordLine_outer env h]
    rfl
  rw [rowStep_close, hkeyword, closeBlock]
  simp only [h, closeSubmenu, hsubmenu, hd, if_true]

/-- A component's text holds no character that a default value may not. -/
theorem Component.text_clean (c : Component) :
    ∀ x ∈ c.text, x ≠ '"' ∧ x ≠ '$' ∧ x ≠ '>' ∧ x ≠ '\n' := by
  intro x hx
  cases c with
  | index i _ =>
    have hdigit := Str.isDigit_of_mem_dec hx
    refine ⟨?_, ?_, ?_, ?_⟩ <;>
    · rintro rfl
      cases hdigit
  | name n =>
    obtain ⟨_, hdouble, hdollar, hgreater⟩ := n.property.clean x hx
    exact ⟨hdouble, hdollar, hgreater, fun he => n.property.oneLine (he ▸ hx)⟩

/-- A default's text holds no quote, reference or line break. -/
theorem Spec.text_clean (spec : Spec) : ∀ x ∈ spec.text, x ≠ '"' ∧ x ≠ '$' ∧ x ≠ '\n' := by
  intro x hx
  cases spec with
  | item c =>
    obtain ⟨hdouble, hdollar, _, hline⟩ := c.text_clean x hx
    exact ⟨hdouble, hdollar, hline⟩
  | path head child =>
    rw [Spec.text, List.mem_append, List.mem_cons] at hx
    rcases hx with hx | rfl | hx
    · obtain ⟨hdouble, hdollar, _, hline⟩ := head.text_clean x hx
      exact ⟨hdouble, hdollar, hline⟩
    · decide
    · obtain ⟨hdouble, hdollar, _, hline⟩ := child.text_clean x hx
      exact ⟨hdouble, hdollar, hline⟩

/-- The assignment of the default is one token. -/
theorem Spec.token (spec : Spec) :
    Token ("default=\"".toList ++ spec.text ++ ['"']) ("default=".toList ++ spec.text) where
  reads := by
    have hbare : Reads "default=".toList "default=".toList := reads_bare (Str.forall_of_all rfl)
    exact hbare.append (reads_double fun hmem => (spec.text_clean _ hmem).1 rfl)
  word_ne := List.cons_ne_nil _ _
  first c hc := by
    obtain rfl : 'd' = c := Option.some.inj hc
    rfl
  last c hc := by
    rw [List.getLast?_append_of_ne_nil _ (List.cons_ne_nil _ _)] at hc
    obtain rfl : '"' = c := Option.some.inj hc
    rfl
  oneLine hmem := by
    rw [List.mem_append, List.mem_append, List.mem_singleton] at hmem
    rcases hmem with (hmem | hmem) | he
    · revert hmem
      decide
    · exact (spec.text_clean _ hmem).2.2 rfl
    · cases he

/-- The words of the default's row are read back. -/
theorem forall₂_default (spec : Spec) :
    List.Forall₂ Token (defaultRow spec) ["set".toList, "default=".toList ++ spec.text] :=
  .cons token_set (.cons spec.token .nil)

/-- The line of the default. -/
theorem rowStep_default (env : Env) {st : State} (h : st.current = none) (spec : Spec) :
    rowStep env st (defaultRow spec) = { st with defaultSpec := some spec.text } := by
  have hwords := forall₂_default spec
  have hlast : ("default=\"".toList ++ spec.text ++ ['"']).getLast? = some '"' :=
    List.getLast?_concat
  have hs := @spaced_tokens (defaultRow spec) (List.cons_ne_nil _ _)
  have hopen : Str.endsWith (tokens (defaultRow spec)) "\x7b".toList = false :=
    hs.endsWith (by rfl) hlast '\x7b'
  have hstep := rowStep_plain env st hwords (by decide) (by decide) hopen
  have hdollar : '$' ∉ spec.text := fun hmem => (spec.text_clean _ hmem).2.1 rfl
  have hstrip : Str.stripPrefix "default=".toList ("default=".toList ++ spec.text) =
      some spec.text := by
    rw [Str.stripPrefix, if_pos (List.prefix_append _ _), List.drop_left]
  have hset : setVariable env ["set".toList, "default=".toList ++ spec.text] st =
      { st with defaultSpec := some spec.text } := by
    have hvalue : ["set".toList, "default=".toList ++ spec.text][1]?.bind
        (Str.stripPrefix "default=".toList) = some spec.text := hstrip
    rw [setVariable, hvalue]
    simp only [expand_eq_self hdollar env]
  have hmarker : "blscfg".toList ∉ ["set".toList, "default=".toList ++ spec.text] := by
    intro hmem
    rcases List.mem_cons.mp hmem with he | hmem
    · revert he
      decide
    · cases List.mem_singleton.mp hmem
  rw [keywordLine_outer env h, outerLine, if_neg hmarker] at hstep
  exact hstep.trans hset

end Steps

section Runs

/-- The body of an entry. -/
theorem foldl_body (env : Env) {st : State} {d : Int} {e : MenuEntry} {top : Nat}
    {sub : Option Nat} (h : st.current = some (d, ⟨e.head, top, sub⟩)) :
    e.body.foldl (rowStep env) st = { st with current := some (d, ⟨e.parsed, top, sub⟩) } := by
  rw [MenuEntry.body, List.foldl_cons, rowStep_linux env h]
  by_cases hinitrd : e.initrd = []
  · rw [if_pos hinitrd, List.foldl_nil, MenuEntry.parsed, hinitrd]
    rfl
  · rw [if_neg hinitrd, List.foldl_cons, List.foldl_nil, rowStep_initrd env rfl]
    rfl

/-- Advancing the counter leaves the entries and the open blocks alone. -/
theorem State.advance_frame (st : State) :
    st.advance.raw = st.raw ∧ st.advance.depth = st.depth ∧ st.advance.current = st.current := by
  rw [State.advance]
  cases st.submenu with
  | none => exact ⟨rfl, rfl, rfl⟩
  | some open_ => exact ⟨rfl, rfl, rfl⟩

/-- An entry takes the next place. -/
theorem foldl_entry (env : Env) {st : State} (h : st.current = none) (e : MenuEntry) :
    ∃ b, e.rows.foldl (rowStep env) st = { st.record e.parsed with usesBls := b } := by
  obtain ⟨b, hb⟩ := rowStep_menuentry env h e
  obtain ⟨hraw, hdepth, hcurrent⟩ := st.advance_frame
  refine ⟨b, ?_⟩
  rw [MenuEntry.rows, List.cons_append, List.foldl_cons, List.foldl_append, hb,
    foldl_body env rfl, List.foldl_cons, List.foldl_nil, rowStep_endEntry env rfl (by rw [hdepth]),
    State.record]
  simp only [hraw, hdepth, hcurrent, h]

/-- The entries of a submenu, from the child `next`. -/
def children (top next : Nat) (es : List MenuEntry) : List RawEntry :=
  es.mapIdx fun j e => ⟨e.parsed, top, some (next + j)⟩

private theorem children_cons (top next : Nat) (e : MenuEntry) (es : List MenuEntry) :
    children top next (e :: es) = ⟨e.parsed, top, some next⟩ :: children top (next + 1) es := by
  simp only [children, List.mapIdx_cons, Nat.add_zero, Nat.add_assoc, Nat.add_comm 1]

/-- The entries of a submenu are its children in order. -/
theorem foldl_children (env : Env) {st : State} {d : Int} {top next : Nat} (h : st.current = none)
    (hsubmenu : st.submenu = some (d, top, next)) (es : List MenuEntry) :
    ∃ b, (es.flatMap MenuEntry.rows).foldl (rowStep env) st =
      { st with
        raw := st.raw ++ children top next es
        submenu := some (d, top, next + es.length)
        usesBls := b } := by
  induction es generalizing st next with
  | nil =>
    refine ⟨st.usesBls, ?_⟩
    have hraw : st.raw ++ children top next [] = st.raw := List.append_nil _
    rw [List.flatMap_nil, List.foldl_nil, hraw, List.length_nil, Nat.add_zero, ← hsubmenu]
  | cons e es ih =>
    obtain ⟨b, hb⟩ := foldl_entry env h e
    have hrecord : st.record e.parsed =
        { st with
          raw := st.raw ++ [⟨e.parsed, top, some next⟩]
          submenu := some (d, top, next + 1) } := by
      rw [State.record, State.advance, State.place, hsubmenu]
    rw [hrecord] at hb
    obtain ⟨b', hb'⟩ := @ih
      { st with
        raw := st.raw ++ [⟨e.parsed, top, some next⟩]
        submenu := some (d, top, next + 1)
        usesBls := b } (next + 1) h rfl
    refine ⟨b', ?_⟩
    have hlength : next + (e :: es).length = next + 1 + es.length := by
      rw [List.length_cons]
      omega
    rw [List.flatMap_cons, List.foldl_append, hb, hb', children_cons, hlength, List.append_assoc]
    rfl

/-- The entries of an item at their places. -/
def Item.raw (item : Item) (top : Nat) : List RawEntry :=
  item.entries.mapIdx fun j e => ⟨e.parsed, top, item.place j⟩

/-- The submenu that an item is. -/
def Item.subs (item : Item) (top : Nat) : List RawSubmenu :=
  match item with
  | .entry _ => []
  | .submenu title id _ _ => [⟨top, some id.val, some title.val⟩]

/-- An item of the top level. -/
theorem foldl_item (env : Env) {st : State} (h : st.current = none) (hsubmenu : st.submenu = none)
    (item : Item) :
    ∃ b, item.rows.foldl (rowStep env) st =
      { st with
        raw := st.raw ++ item.raw st.topCount
        submenus := st.submenus ++ item.subs st.topCount
        topCount := st.topCount + 1
        usesBls := b } := by
  cases item with
  | entry e =>
    obtain ⟨b, hb⟩ := foldl_entry env h e
    refine ⟨b, ?_⟩
    have hsubs : st.submenus ++ (Item.entry e).subs st.topCount = st.submenus := List.append_nil _
    rw [Item.rows, hb, State.record, State.advance, State.place, hsubmenu, hsubs]
    rfl
  | submenu title id first rest =>
    obtain ⟨b, hb⟩ := rowStep_submenu env h title id
    obtain ⟨b', hb'⟩ := @foldl_children env
      { st with
        submenus := st.submenus ++ [⟨st.topCount, some id.val, some title.val⟩]
        submenu := some (st.depth, st.topCount, 0)
        topCount := st.topCount + 1
        depth := st.depth + 1
        usesBls := b } st.depth st.topCount 0 h rfl (first :: rest)
    have hchildren : children st.topCount 0 (first :: rest) =
        (Item.submenu title id first rest).raw st.topCount := by
      simp only [children, Nat.zero_add]
      rfl
    refine ⟨b', ?_⟩
    rw [Item.rows, List.cons_append, List.foldl_cons, List.foldl_append, hb, hb', List.foldl_cons,
      List.foldl_nil, hchildren, hsubmenu]
    exact rowStep_endSubmenu env h rfl rfl

/-- The entries of a menu at their places, from the item `top`. -/
def rawFrom (top : Nat) : Menu → List RawEntry
  | [] => []
  | item :: more => item.raw top ++ rawFrom (top + 1) more

/-- The submenus of a menu, from the item `top`. -/
def subsFrom (top : Nat) : Menu → List RawSubmenu
  | [] => []
  | item :: more => item.subs top ++ subsFrom (top + 1) more

/-- The items of a menu, in order. -/
theorem foldl_items (env : Env) {st : State} (h : st.current = none) (hsubmenu : st.submenu = none)
    (menu : Menu) :
    ∃ b, (menu.flatMap Item.rows).foldl (rowStep env) st =
      { st with
        raw := st.raw ++ rawFrom st.topCount menu
        submenus := st.submenus ++ subsFrom st.topCount menu
        topCount := st.topCount + menu.length
        usesBls := b } := by
  induction menu generalizing st with
  | nil =>
    refine ⟨st.usesBls, ?_⟩
    simp only [rawFrom, subsFrom, List.append_nil, List.flatMap_nil, List.foldl_nil,
      List.length_nil, Nat.add_zero]
  | cons item more ih =>
    obtain ⟨b, hb⟩ := foldl_item env h hsubmenu item
    obtain ⟨b', hb'⟩ := @ih
      { st with
        raw := st.raw ++ item.raw st.topCount
        submenus := st.submenus ++ item.subs st.topCount
        topCount := st.topCount + 1
        usesBls := b } h hsubmenu
    refine ⟨b', ?_⟩
    rw [List.flatMap_cons, List.foldl_append, hb, hb']
    simp only [rawFrom, subsFrom, List.append_assoc, List.length_cons, Nat.add_comm,
      Nat.add_left_comm]

private theorem isRow_close : IsRow ["\x7d".toList] :=
  ⟨'\x7d', [], [], _, rfl, by decide, .cons token_close .nil⟩

/-- The rows of an entry are rows of words. -/
theorem MenuEntry.isRow (e : MenuEntry) : ∀ row ∈ e.rows, IsRow row := by
  intro row hrow
  rw [MenuEntry.rows, List.mem_append, List.mem_cons, List.mem_singleton] at hrow
  rcases hrow with (rfl | hrow) | rfl
  · exact ⟨_, _, _, _, rfl, by decide, forall₂_block token_menuentry e.title e.id⟩
  · rw [MenuEntry.body, List.mem_cons] at hrow
    rcases hrow with rfl | hrow
    · exact ⟨_, _, _, _, rfl, by decide, forall₂_linux e⟩
    · split at hrow
      · cases hrow
      · obtain rfl := List.mem_singleton.mp hrow
        exact ⟨_, _, _, _, rfl, by decide, forall₂_initrd e.initrd⟩
  · exact isRow_close

/-- The rows of an item are rows of words. -/
theorem Item.isRow (item : Item) : ∀ row ∈ item.rows, IsRow row := by
  intro row hrow
  cases item with
  | entry e => exact e.isRow row hrow
  | submenu title id first rest =>
    rw [Item.rows, List.mem_append, List.mem_cons, List.mem_singleton] at hrow
    rcases hrow with (rfl | hrow) | rfl
    · exact ⟨_, _, _, _, rfl, by decide, forall₂_block token_submenu title id⟩
    · obtain ⟨e, _, hrow⟩ := List.mem_flatMap.mp hrow
      exact e.isRow row hrow
    · exact isRow_close

private theorem isRow_menuRows (spec : Spec) (menu : Menu) :
    ∀ row ∈ menuRows spec menu, IsRow row := by
  intro row hrow
  rcases List.mem_cons.mp hrow with rfl | hrow
  · exact ⟨_, _, _, _, rfl, by decide, forall₂_default spec⟩
  · obtain ⟨item, _, hrow⟩ := List.mem_flatMap.mp hrow
    exact item.isRow row hrow

/-- The run on the text of a menu ends with its entries, its submenus and its default. -/
theorem run_renders {spec : Spec} {menu : Menu} {text : Str} (h : Renders spec menu text)
    (env : Env) :
    ∃ b, run env (Str.lines text) =
      { raw := rawFrom 0 menu
        submenus := subsFrom 0 menu
        defaultSpec := some spec.text
        topCount := menu.length
        usesBls := b } := by
  obtain ⟨b, hb⟩ := @foldl_items env { defaultSpec := some spec.text } rfl rfl menu
  refine ⟨b, ?_⟩
  rw [run, h.foldl_step (isRow_menuRows spec menu), menuRows, List.foldl_cons,
    rowStep_default env rfl, hb]
  simp only [List.nil_append, Nat.zero_add]

end Runs

end BootExtractor.Boot.Grub
