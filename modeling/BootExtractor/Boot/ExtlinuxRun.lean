import BootExtractor.Boot.ExtlinuxStanzas

/-!
# Reading stanzas back

Every row has the effect of what it says, whatever stands around it. From that, the
lines of a stanza build its entry in any order, and no stanza touches another.
-/

namespace BootExtractor.Boot.Extlinux

section Rows

variable {baseDir : Str} {st : State}

/-- Blanks are whitespace. -/
theorem Blank.space {s : Str} (h : Blank s) : ∀ c ∈ s, Str.isWhitespace c = true :=
  fun c hc => (h c hc).1

/-- Blanks do not end a line. -/
theorem Blank.oneLine {s : Str} (h : Blank s) : '\n' ∉ s := fun hmem => (h _ hmem).2 rfl

/-- The step looks at the trimmed line. -/
theorem step_trim (st : State) (row : Str) :
    step baseDir st row = step baseDir st (Str.trim row) := by
  rw [step, step, Str.trim_trim]

private theorem step_nil (st : State) : step baseDir st [] = st := by
  rw [step]
  exact if_pos (Or.inl rfl)

/-- A keyword without `#` in front, and what stands behind it up to whitespace. -/
theorem step_keyword {before kw tail : Str} (hbefore : Blank before) (hne : kw ≠ [])
    (hkw : ∀ c ∈ kw, Str.isWhitespace c = false) (hcomment : kw.head? ≠ some '#')
    (htail : ∀ c ∈ tail.head?, Str.isWhitespace c = true) :
    step baseDir st (before ++ kw ++ tail) =
      if Str.trim tail = [] then st else keyword baseDir st kw (Str.trim tail) := by
  have htrim : Str.trim (before ++ kw ++ tail) = kw ++ Str.trimEnd tail := by
    have hnone : ∀ c ∈ ([] : Str), Str.isWhitespace c = true := fun _ h => absurd h List.not_mem_nil
    have hstart : Str.trimStart (kw ++ tail) = kw ++ tail := by
      obtain ⟨c, kw, rfl⟩ := List.exists_cons_of_ne_nil hne
      exact List.dropWhile_cons_of_neg (Bool.eq_false_iff.mp (hkw c List.mem_cons_self))
    have hblanks := @Str.trim_blanks before (kw ++ tail) [] hbefore.space hnone
    rw [List.append_nil, ← List.append_assoc] at hblanks
    rw [hblanks, Str.trim, hstart]
    exact Str.trimEnd_append_text fun c hc => hkw c (List.mem_of_mem_getLast? hc)
  have hline : ¬ (kw ++ Str.trimEnd tail = [] ∨
      Str.startsWith (kw ++ Str.trimEnd tail) "#".toList = true) := by
    obtain ⟨c, kw, rfl⟩ := List.exists_cons_of_ne_nil hne
    rintro (h | h)
    · exact List.cons_ne_nil _ _ h
    · obtain ⟨t, ht⟩ := Str.startsWith_iff.mp h
      have hc : '#' = c := (List.cons.inj ht).1
      exact hcomment (by rw [hc]; rfl)
  rw [step, htrim, if_neg hline, splitKeyword]
  cases hend : Str.trimEnd tail with
  | nil =>
    have hspace : Str.trim tail = [] :=
      Str.trim_eq_nil_iff.mpr (List.rdropWhile_eq_nil_iff.mp hend)
    rw [if_pos hspace, List.append_nil, Str.splitOnce_eq_none.mpr hkw]
    rfl
  | cons c rest =>
    have hc : Str.isWhitespace c = true := by
      obtain ⟨more, hmore⟩ := List.rdropWhile_prefix Str.isWhitespace tail
      change Str.trimEnd tail ++ more = tail at hmore
      rw [hend] at hmore
      exact htail c (by rw [← hmore]; rfl)
    have hrest : Str.trim rest = Str.trim tail := by
      rw [← Str.trim_trimEnd tail, hend]
      have hnone : ∀ c ∈ ([] : Str), Str.isWhitespace c = true :=
        fun _ h => absurd h List.not_mem_nil
      have hblanks := @Str.trim_blanks [c] rest [] (List.forall_mem_singleton.mpr hc) hnone
      rw [List.append_nil] at hblanks
      exact hblanks.symm
    have hsome : Str.trim tail ≠ [] := by
      intro hnil
      have hall := List.rdropWhile_eq_nil_iff.mpr (Str.trim_eq_nil_iff.mp hnil)
      change Str.trimEnd tail = [] at hall
      rw [hend] at hall
      cases hall
    rw [if_neg hsome, Str.splitOnce_append hkw hc]
    simp only [Option.map_some, hrest]

/-- What is a keyword in lower case has no whitespace and does not start a comment. -/
theorem keyword_clean {kw : Str} (h : Str.toAsciiLowercase kw ∈ knownKeywords) :
    kw ≠ [] ∧ (∀ c ∈ kw, Str.isWhitespace c = false) ∧ kw.head? ≠ some '#' := by
  have hknown : ∀ name ∈ knownKeywords, name ≠ [] ∧
      (name.all fun c => decide (Str.isWhitespace c = false)) = true ∧ name.head? ≠ some '#' := by
    decide +kernel
  obtain ⟨hne, hall, hhead⟩ := hknown _ h
  have hspace := Str.forall_of_all hall
  refine ⟨?_, ?_, ?_⟩
  · rintro rfl
    exact hne rfl
  · intro c hc
    by_contra hwhite
    have hwhite : Str.isWhitespace c = true := Bool.not_eq_false _ ▸ hwhite
    have hmem : c ∈ Str.toAsciiLowercase kw :=
      List.mem_map.mpr ⟨c, hc, Str.toLower_of_isWhitespace hwhite⟩
    rw [hspace c hmem] at hwhite
    cases hwhite
  · intro hhash
    refine hhead ?_
    rw [Str.toAsciiLowercase, List.head?_map, hhash]
    rfl

/-- The first character of what follows a keyword is whitespace. -/
theorem head_space {gap arg after : Str} (hgap : Blank gap) (harg : arg ≠ [] → gap ≠ [])
    (hafter : Blank after) : ∀ c ∈ (gap ++ arg ++ after).head?, Str.isWhitespace c = true := by
  intro c hc
  cases gap with
  | cons d gap =>
    obtain rfl : d = c := Option.some.inj hc
    exact hgap.space d List.mem_cons_self
  | nil =>
    obtain rfl : arg = [] := by_contra fun h => harg h rfl
    exact hafter.space c (List.mem_of_mem_head? hc)

/-- A row with a known keyword. -/
theorem step_framed {name arg row : Str} (hname : name ∈ knownKeywords) (h : Framed name arg row) :
    ∃ kw, Str.toAsciiLowercase kw = name ∧ step baseDir st row =
      if Str.trim arg = [] then st else keyword baseDir st kw (Str.trim arg) := by
  cases h with
  | mk hbefore hkw hgap harg hafter =>
    rename_i before kw gap after
    obtain ⟨hne, hspace, hcomment⟩ := keyword_clean (hkw ▸ hname)
    have hstep := @step_keyword baseDir st before kw (gap ++ arg ++ after) hbefore hne hspace
      hcomment (head_space hgap harg hafter)
    rw [Str.trim_blanks hgap.space hafter.space] at hstep
    refine ⟨kw, hkw, ?_⟩
    rw [← hstep]
    simp only [List.append_assoc]

/-- A row with a keyword is one line. -/
theorem Framed.oneLine {name arg row : Str} (hname : name ∈ knownKeywords) (h : Framed name arg row)
    (harg : '\n' ∉ arg) : '\n' ∉ row := by
  cases h with
  | mk hbefore hkw hgap _ hafter =>
    have hspace := (keyword_clean (hkw ▸ hname)).2.1
    simp only [List.mem_append, not_or]
    refine ⟨⟨⟨⟨hbefore.oneLine, ?_⟩, hgap.oneLine⟩, harg⟩, hafter.oneLine⟩
    intro hmem
    exact absurd (hspace _ hmem) (by decide)

/-- A comment changes nothing. -/
theorem step_comment {before text : Str} (hbefore : Blank before) :
    step baseDir st (before ++ '#' :: text) = st := by
  have hnone : ∀ c ∈ ([] : Str), Str.isWhitespace c = true := fun _ h => absurd h List.not_mem_nil
  have hblanks := @Str.trim_blanks before ('#' :: text) [] hbefore.space hnone
  have hstart : Str.trimStart ('#' :: text) = ['#'] ++ text :=
    List.dropWhile_cons_of_neg (by decide)
  have hend : Str.trimEnd (['#'] ++ text) = ['#'] ++ Str.trimEnd text :=
    Str.trimEnd_append_text fun c hc => by
      obtain rfl := Option.some.inj hc
      rfl
  rw [List.append_nil, Str.trim, Str.trim, hstart, hend] at hblanks
  have htrim : Str.trim (before ++ '#' :: text) = '#' :: Str.trimEnd text := hblanks
  rw [step, htrim]
  exact if_pos (Or.inr (Str.startsWith_iff.mpr ⟨Str.trimEnd text, rfl⟩))

/-- A keyword that is not known changes nothing. -/
private theorem keyword_unknown {kw rest : Str} (h : Str.toAsciiLowercase kw ∉ knownKeywords) :
    keyword baseDir st kw rest = st := by
  simp only [knownKeywords, List.mem_cons, List.not_mem_nil, or_false, not_or] at h
  obtain ⟨hdefault, hlabel, hkernel, hlinux, hinitrd, happend⟩ := h
  rw [keyword, if_neg hdefault, if_neg hlabel, if_neg (not_or.mpr ⟨hkernel, hlinux⟩),
    if_neg hinitrd, if_neg happend]

/-- A row that says nothing changes nothing. -/
theorem step_noise {row : Str} (h : Noise row) : step baseDir st row = st := by
  cases h with
  | blank h => rw [step_trim, Str.trim_eq_nil_iff.mpr h.space, step_nil]
  | comment hbefore htext => exact step_comment hbefore
  | unrelated hbefore hne hkw hunknown hline htail =>
    rename_i before kw tail
    by_cases hcomment : kw.head? = some '#'
    · obtain ⟨rest, rfl⟩ := List.head?_eq_some_iff.mp hcomment
      rw [List.append_assoc]
      exact step_comment hbefore
    · rw [step_keyword hbefore hne hkw hcomment htail]
      split
      · rfl
      · exact keyword_unknown hunknown

/-- A row that says nothing is one line. -/
theorem Noise.oneLine {row : Str} (h : Noise row) : '\n' ∉ row := by
  cases h with
  | blank h => exact h.oneLine
  | comment hbefore htext =>
    simp only [List.mem_append, List.mem_cons, not_or]
    exact ⟨hbefore.oneLine, by decide, htext⟩
  | unrelated hbefore hne hkw hunknown hline htail =>
    simp only [List.mem_append, not_or]
    refine ⟨⟨hbefore.oneLine, ?_⟩, hline⟩
    intro hmem
    exact absurd (hkw _ hmem) (by decide)

end Rows

section Tokens

variable {baseDir : Str} {st : State}

/-- What a line does to the entry at hand. -/
def Line.apply (baseDir : Str) (e : BootEntry) : Line → BootEntry
  | kernel path => { e with kernel := some (located baseDir path) }
  | initrd first rest =>
    { e with initrd := e.initrd ++ (first :: rest).map (located baseDir) }
  | append words =>
    { e with
      initrd := e.initrd ++ (words.flatMap Word.initrds).map (located baseDir)
      cmdline :=
        if words.flatMap Word.remaining = [] then e.cmdline
        else some (Str.join " ".toList (words.flatMap Word.remaining)) }

/-- The test for a slash looks at the first character. -/
private theorem startsWith_slash (s : Str) :
    Str.startsWith s "/".toList = true ↔ s.head? = some '/' := by
  rw [Str.startsWith_iff]
  cases s with
  | nil => simp
  | cons c s => simp [List.cons_prefix_cons, eq_comm]

/-- The parser takes a path for the file that it names. -/
theorem resolve_path (p : Path) : resolve baseDir p.val = located baseDir p := by
  simp only [resolve, located, startsWith_slash, List.append_assoc]
  rfl

/-- What a token does. -/
def effect (baseDir : Str) (st : State) : Token → State
  | .default d => { st with defaultLabel := some d.val }
  | .label l =>
    { st with
      entries := st.finished
      current := some { title := some l.val, id := some l.val, source := .extlinux } }
  | .line l => st.modifyCurrent fun e => l.apply baseDir e

/-- A list of paths is read back. -/
theorem split_pathsText (first : Path) (rest : List Path) :
    Str.split ',' (pathsText first rest) = (first :: rest).map Subtype.val := by
  refine List.splitOn_intercalate ',' ?_ (List.cons_ne_nil _ _)
  intro s hs hmem
  obtain ⟨p, _, rfl⟩ := List.mem_map.mp hs
  exact (p.property.clean _ hmem).2 rfl

/-- There is nothing to trim off a path. -/
theorem IsPath.trim {s : Str} (h : IsPath s) : Str.trim s = s :=
  Str.trim_eq_self fun c hc => (h.clean c hc).1

/-- A list of paths is a word. -/
private theorem pathsText_clean (first : Path) (rest : List Path) :
    pathsText first rest ≠ [] ∧ ∀ c ∈ pathsText first rest, Str.isWhitespace c = false := by
  induction rest generalizing first with
  | nil =>
    have htext : pathsText first [] = first.val := List.append_nil _
    rw [htext]
    exact ⟨first.property.ne_nil, fun c hc => (first.property.clean c hc).1⟩
  | cons next rest ih =>
    have htext : pathsText first (next :: rest) = first.val ++ ",".toList ++ pathsText next rest :=
      Str.join_cons_cons ..
    rw [htext]
    constructor
    · simp [first.property.ne_nil]
    · intro c hc
      rcases List.mem_append.mp hc with hc | hc
      · rcases List.mem_append.mp hc with hc | hc
        · exact (first.property.clean c hc).1
        · rw [List.mem_singleton.mp hc]
          rfl
      · exact (ih next).2 c hc

/-- A word for the kernel is kept. -/
private theorem appendWord_plain (acc : List Str × List Str) (s : { s : Str // IsPlain s }) :
    appendWord baseDir acc (Word.plain s).text = (acc.1, acc.2 ++ [s.val]) := by
  change appendWord baseDir acc s.val = _
  have hnone : Str.stripPrefix "initrd=".toList s.val = none := by
    rw [Str.stripPrefix, if_neg s.property.not_initrd]
  rw [appendWord, hnone]

/-- A word with ramdisks is lifted out. -/
private theorem appendWord_initrd (acc : List Str × List Str) (first : Path) (rest : List Path) :
    appendWord baseDir acc (Word.initrd first rest).text =
      (acc.1 ++ (first :: rest).map (located baseDir), acc.2) := by
  have hsome : Str.stripPrefix "initrd=".toList (Word.initrd first rest).text =
      some (pathsText first rest) := Str.stripPrefix_append _ _
  rw [appendWord, hsome]
  have hlocated : resolve baseDir ∘ Subtype.val = located baseDir := funext resolve_path
  simp only [split_pathsText, List.map_map, hlocated]

/-- The words of a command line are told apart by `initrd=`. -/
theorem foldl_appendWord (words : List Word) (acc : List Str × List Str) :
    (words.map Word.text).foldl (appendWord baseDir) acc =
      (acc.1 ++ (words.flatMap Word.initrds).map (located baseDir),
        acc.2 ++ words.flatMap Word.remaining) := by
  induction words generalizing acc with
  | nil => simp
  | cons word words ih =>
    rw [List.map_cons, List.foldl_cons, ih]
    cases word with
    | plain s =>
      rw [appendWord_plain]
      simp only [List.flatMap_cons, Word.initrds, Word.remaining, List.nil_append,
        List.append_assoc]
    | initrd first rest =>
      rw [appendWord_initrd]
      simp only [List.flatMap_cons, Word.initrds, Word.remaining, List.nil_append,
        List.append_assoc, List.map_append]

/-- A change that changes no entry changes nothing. -/
theorem State.modifyCurrent_id {f : BootEntry → BootEntry} (h : ∀ e, f e = e) :
    st.modifyCurrent f = st := by
  have hid : f = id := funext h
  rw [State.modifyCurrent, hid, Option.map_id]
  rfl

/-- An append line does what its words say. -/
theorem appendLine_eq {arg : Str} {words : List Word} (e : BootEntry)
    (h : Str.splitWhitespace arg = words.map Word.text) :
    appendLine baseDir arg e = (Line.append words).apply baseDir e := by
  simp only [appendLine, h, foldl_appendWord, List.nil_append, Line.apply]

/-- A row has the effect of what it says. -/
theorem step_row {token : Token} {row : Str} (h : RowOf token row) :
    step baseDir st row = effect baseDir st token := by
  cases h with
  | default h =>
    rename_i d
    obtain ⟨kw, hkw, hstep⟩ := @step_framed baseDir st _ _ _ (by simp [knownKeywords]) h
    rw [hstep, d.property.trimmed, if_neg d.property.ne_nil, keyword, hkw, if_pos rfl, effect]
  | label h =>
    rename_i l
    obtain ⟨kw, hkw, hstep⟩ := @step_framed baseDir st _ _ _ (by simp [knownKeywords]) h
    rw [hstep, l.property.trimmed, if_neg l.property.ne_nil, keyword, hkw, if_neg (by decide),
      if_pos rfl, effect]
  | kernel h =>
    rename_i p
    rcases h with h | h
    · obtain ⟨kw, hkw, hstep⟩ := @step_framed baseDir st _ _ _ (by simp [knownKeywords]) h
      rw [hstep, p.property.trim, if_neg p.property.ne_nil, keyword, hkw, if_neg (by decide),
        if_neg (by decide), if_pos (Or.inl rfl), resolve_path]
      rfl
    · obtain ⟨kw, hkw, hstep⟩ := @step_framed baseDir st _ _ _ (by simp [knownKeywords]) h
      rw [hstep, p.property.trim, if_neg p.property.ne_nil, keyword, hkw, if_neg (by decide),
        if_neg (by decide), if_pos (Or.inr rfl), resolve_path]
      rfl
  | initrd h =>
    rename_i first rest
    obtain ⟨hne, hclean⟩ := pathsText_clean first rest
    obtain ⟨kw, hkw, hstep⟩ := @step_framed baseDir st _ _ _ (by simp [knownKeywords]) h
    rw [hstep, Str.trim_eq_self hclean, if_neg hne, keyword, hkw, if_neg (by decide),
      if_neg (by decide), if_neg (by decide), if_pos rfl, split_pathsText, List.map_map]
    have hpaths : ((first :: rest).map ((fun p => resolve baseDir (Str.trim p)) ∘ Subtype.val)) =
        (first :: rest).map (located baseDir) := by
      apply List.map_congr_left
      intro p _
      rw [Function.comp_apply, p.property.trim, resolve_path]
    rw [hpaths]
    rfl
  | append hparts hwords hline h =>
    rename_i words parts
    have hsplit : Str.splitWhitespace (Str.trim (Parts.text parts)) = words.map Word.text := by
      rw [Str.splitWhitespace_trim, Str.splitWhitespace_parts hparts, hwords]
    obtain ⟨kw, hkw, hstep⟩ := @step_framed baseDir st _ _ _ (by simp [knownKeywords]) h
    rw [hstep]
    split
    · rename_i hnil
      rw [hnil] at hsplit
      obtain rfl : words = [] := List.map_eq_nil_iff.mp hsplit.symm
      refine (State.modifyCurrent_id fun e => ?_).symm
      simp only [Line.apply, List.flatMap_nil, List.map_nil, List.append_nil, if_true]
    · rw [keyword, hkw, if_neg (by decide), if_neg (by decide), if_neg (by decide),
        if_neg (by decide), if_pos rfl]
      exact congrArg st.modifyCurrent (funext fun e => appendLine_eq e hsplit)

/-- The row of a token is one line. -/
theorem RowOf.oneLine {token : Token} {row : Str} (h : RowOf token row) : '\n' ∉ row := by
  cases h with
  | default h =>
    rename_i d
    exact h.oneLine (by simp [knownKeywords]) d.property.oneLine
  | label h =>
    rename_i l
    exact h.oneLine (by simp [knownKeywords]) l.property.oneLine
  | kernel h =>
    rename_i p
    have hpath : '\n' ∉ p.val := fun hmem => absurd (p.property.clean _ hmem).1 (by decide)
    rcases h with h | h
    · exact h.oneLine (by simp [knownKeywords]) hpath
    · exact h.oneLine (by simp [knownKeywords]) hpath
  | initrd h =>
    refine h.oneLine (by simp [knownKeywords]) fun hmem => ?_
    exact absurd ((pathsText_clean _ _).2 _ hmem) (by decide)
  | append hparts hwords hline h => exact h.oneLine (by simp [knownKeywords]) hline

/-- All rows of a text are one line each. -/
theorem Renders.oneLine {tokens : List Token} {rows : List Str} (h : Renders tokens rows) :
    ∀ row ∈ rows, '\n' ∉ row := by
  induction h with
  | nil => exact fun _ hrow => absurd hrow List.not_mem_nil
  | noise hnoise _ ih => exact List.forall_mem_cons.mpr ⟨hnoise.oneLine, ih⟩
  | token htoken _ ih => exact List.forall_mem_cons.mpr ⟨htoken.oneLine, ih⟩

/-- The rows of a text have the effects of what they say. -/
theorem Renders.foldl_step {tokens : List Token} {rows : List Str} (h : Renders tokens rows)
    (st : State) : rows.foldl (step baseDir) st = tokens.foldl (effect baseDir) st := by
  induction h generalizing st with
  | nil => rfl
  | noise hnoise _ ih => rw [List.foldl_cons, step_noise hnoise, ih]
  | token htoken _ ih => rw [List.foldl_cons, step_row htoken, List.foldl_cons, ih]

/-- The default line says nothing about stanzas, and the others nothing about the default. -/
theorem foldl_effect (tokens : List Token) (st : State) (named : Option Str) :
    tokens.foldl (effect baseDir) { st with defaultLabel := named } =
      { (tokens.filter Token.ofStanza).foldl (effect baseDir) st with
        defaultLabel := (tokens.flatMap Token.defaults).foldl (fun _ d => some d.val) named } := by
  induction tokens generalizing st named with
  | nil => rfl
  | cons token tokens ih =>
    cases token with
    | default d => exact ih st (some d.val)
    | label l => exact ih (effect baseDir st (.label l)) named
    | line l => exact ih (effect baseDir st (.line l)) named

/-- The lines of a stanza work on its entry only. -/
theorem foldl_lines (body : List Line) (st : State) :
    (body.map Token.line).foldl (effect baseDir) st =
      st.modifyCurrent fun e => body.foldl (Line.apply baseDir) e := by
  induction body generalizing st with
  | nil => exact (State.modifyCurrent_id fun _ => rfl).symm
  | cons l body ih =>
    rw [List.map_cons, List.foldl_cons, ih]
    simp only [effect, State.modifyCurrent, Option.map_map]
    rfl

/-- What a line of kernel arguments makes of the command line. -/
def cmdlineAfter (cmdline : Option Str) (words : List Word) : Option Str :=
  if words.flatMap Word.remaining = [] then cmdline
  else some (Str.join " ".toList (words.flatMap Word.remaining))

/-- Ramdisks are collected in the order of the lines, whatever else these do. -/
theorem foldl_apply (body : List Line) (e : BootEntry) :
    body.foldl (Line.apply baseDir) e =
      { e with
        kernel :=
          (body.flatMap Line.kernels).foldl (fun _ p => some (located baseDir p)) e.kernel
        initrd := e.initrd ++ (body.flatMap Line.initrds).map (located baseDir)
        cmdline := (body.flatMap Line.appends).foldl cmdlineAfter e.cmdline } := by
  induction body generalizing e with
  | nil => simp
  | cons l body ih =>
    rw [List.foldl_cons, ih]
    cases l <;> simp [Line.apply, Line.kernels, Line.initrds, Line.appends, cmdlineAfter]

/-- The lines of a stanza build its entry. -/
theorem foldl_body (s : Stanza) :
    s.body.foldl (Line.apply baseDir)
      { title := some s.label.val, id := some s.label.val, source := .extlinux } =
      s.parsed baseDir := by
  rw [foldl_apply, s.kernel_once]
  have hcmdline : (s.body.flatMap Line.appends).foldl cmdlineAfter none =
      if s.remaining = [] then none else some (Str.join " ".toList s.remaining) := by
    rcases s.words_once with h | ⟨hwords, h⟩
    · rw [h]
      rfl
    · rw [h, Stanza.remaining, hwords]
      rfl
  simp only [Stanza.parsed, hcmdline, List.nil_append]
  rfl

/-- Stanzas are added one by one. -/
theorem foldl_stanzas (stanzas : List Stanza) (st : State) :
    ((stanzas.flatMap Stanza.tokens).foldl (effect baseDir) st).finished =
      st.finished ++ stanzas.map (Stanza.parsed baseDir) := by
  induction stanzas generalizing st with
  | nil => exact (List.append_nil _).symm
  | cons s stanzas ih =>
    rw [List.flatMap_cons, List.foldl_append, ih, Stanza.tokens, List.foldl_cons, foldl_lines]
    simp only [effect, State.modifyCurrent, Option.map_some, foldl_body]
    rw [State.finished, List.map_cons, List.append_cons]
    rfl

/-- The default is looked up by the labels. -/
theorem findDefault_parsed (stanzas : List Stanza) (default : Option Label) :
    findDefault (default.map Subtype.val) (stanzas.map (Stanza.parsed baseDir)) =
      default.bind fun d => stanzas.findIdx? fun s => s.label.val == d.val := by
  cases default with
  | none => rfl
  | some d =>
    rw [findDefault, Option.map_some, Option.bind_some, List.findIdx?_map]
    rfl

/-- A config is read back as its stanzas: every entry in order with what its own lines say,
and the default that the default line names. -/
theorem parseStr_stanzas {stanzas : List Stanza} {default : Option Label} {tokens : List Token}
    {rows : List Str} (htokens : Arranged stanzas default tokens) (hrows : Renders tokens rows)
    (baseDir : Str) :
    parseStr (Str.join ['\n'] rows) baseDir =
      ⟨stanzas.map (Stanza.parsed baseDir), defaultOf stanzas default⟩ := by
  have hlines := @Str.foldl_lines_join _ (step baseDir) step_trim step_nil _ hrows.oneLine {}
  have hrun := @foldl_effect baseDir tokens {} none
  rw [htokens.stanzas_eq, htokens.default_eq] at hrun
  have hlabel : default.toList.foldl (fun _ d => some d.val) none = default.map Subtype.val := by
    cases default <;> rfl
  have hfinished := @foldl_stanzas baseDir stanzas {}
  rw [hlabel] at hrun
  rw [parseStr, hlines, hrows.foldl_step]
  have hst : tokens.foldl (effect baseDir) {} =
      { (stanzas.flatMap Stanza.tokens).foldl (effect baseDir) {} with
        defaultLabel := default.map Subtype.val } := hrun
  have hentries : (tokens.foldl (effect baseDir) {}).finished =
      stanzas.map (Stanza.parsed baseDir) := by
    rw [hst]
    exact hfinished
  have hempty : (stanzas.map (Stanza.parsed baseDir)).isEmpty = stanzas.isEmpty := by
    cases stanzas <;> rfl
  simp only [hentries]
  rw [hst, findDefault_parsed, orFirst, hempty, defaultOf]

end Tokens

section Sample

/-- The label of the first stanza. -/
def ltsLabel : Label := ⟨"lts".toList, by decide, by decide, by decide⟩

/-- Its kernel, by a relative path. -/
def ltsKernel : Path := ⟨"vmlinuz".toList, by decide, Str.forall_of_all rfl⟩

/-- Its ramdisk. -/
def ltsRamdisk : Path := ⟨"c.img".toList, by decide, Str.forall_of_all rfl⟩

/-- A word of its command line. -/
def quietWord : { s : Str // IsPlain s } :=
  ⟨"quiet".toList, by decide, Str.forall_of_all rfl, by decide⟩

/-- A stanza with its ramdisk on the command line. -/
def ltsStanza : Stanza where
  label := ltsLabel
  kernel := ltsKernel
  words := [.initrd ltsRamdisk [], .plain quietWord]
  body := [.kernel ltsKernel, .append [.initrd ltsRamdisk [], .plain quietWord]]
  kernel_once := rfl
  words_once := Or.inl rfl

/-- The label of the second stanza. -/
def oldLabel : Label := ⟨"old".toList, by decide, by decide, by decide⟩

/-- Its kernel, by an absolute path. -/
def oldKernel : Path := ⟨"/boot/vmlinuz-old".toList, by decide, Str.forall_of_all rfl⟩

/-- Its ramdisks. -/
def oldRamdisks : Path × Path :=
  (⟨"a.img".toList, by decide, Str.forall_of_all rfl⟩,
    ⟨"/b.img".toList, by decide, Str.forall_of_all rfl⟩)

/-- A stanza with ramdisks in front of its kernel, and without a command line. -/
def oldStanza : Stanza where
  label := oldLabel
  kernel := oldKernel
  words := []
  body := [.initrd oldRamdisks.1 [oldRamdisks.2], .kernel oldKernel]
  kernel_once := rfl
  words_once := Or.inr ⟨rfl, rfl⟩

/-- What a config with both stanzas says. -/
def twoTokens : List Token := .default oldLabel :: (ltsStanza.tokens ++ oldStanza.tokens)

/-- A text that says so. -/
def twoRows : List Str :=
  ["DEFAULT old".toList, "LABEL lts".toList, "  kernel vmlinuz".toList, "# menu".toList,
    "  Append initrd=c.img quiet".toList, "timeout 5".toList, "label old".toList,
    "  INITRD a.img,/b.img".toList, "  Linux /boot/vmlinuz-old".toList]

/-- A row by the parts that it is put together of. -/
private theorem framed_of_eq {name arg row : Str} (before kw gap : Str) (hbefore : Blank before)
    (hkw : Str.toAsciiLowercase kw = name) (hgap : Blank gap) (hne : gap ≠ [])
    (hrow : row = before ++ kw ++ gap ++ arg) : Framed name arg row := by
  have hafter : Blank [] := fun _ h => absurd h List.not_mem_nil
  have h := @Framed.mk name arg before kw gap [] hbefore hkw hgap (fun _ => hne) hafter
  rwa [List.append_nil, ← hrow] at h

/-- The rows say this. -/
private theorem twoRows_renders : Renders twoTokens twoRows := by
  have hnone : Blank [] := fun _ h => absurd h List.not_mem_nil
  have hone : Blank " ".toList := Str.forall_of_all rfl
  have htwo : Blank "  ".toList := Str.forall_of_all rfl
  refine .token (.default
    (framed_of_eq [] "DEFAULT".toList _ hnone (by decide) hone (by decide) rfl)) ?_
  refine .token (.label
    (framed_of_eq [] "LABEL".toList _ hnone (by decide) hone (by decide) rfl)) ?_
  refine .token (.kernel (Or.inl
    (framed_of_eq "  ".toList "kernel".toList _ htwo (by decide) hone (by decide) rfl))) ?_
  refine .noise (@Noise.comment [] " menu".toList hnone (by decide)) ?_
  have hparts : Parts.Valid Str.isWhitespace
      [("initrd=c.img".toList, " ".toList), ("quiet".toList, [])] :=
    ⟨by decide, Str.forall_of_all rfl, Str.forall_of_all rfl, Or.inr (by decide), by decide,
      Str.forall_of_all rfl, Str.forall_of_all rfl, Or.inl rfl, trivial⟩
  refine .token (.append hparts (by decide) (by decide)
    (framed_of_eq "  ".toList "Append".toList _ htwo (by decide) hone (by decide) rfl)) ?_
  refine .noise (@Noise.unrelated [] "timeout".toList " 5".toList hnone (by decide)
    (Str.forall_of_all rfl) (by decide) (by decide) fun c hc => by cases hc; rfl) ?_
  refine .token (.label
    (framed_of_eq [] "label".toList _ hnone (by decide) hone (by decide) rfl)) ?_
  refine .token (.initrd
    (framed_of_eq "  ".toList "INITRD".toList _ htwo (by decide) hone (by decide) rfl)) ?_
  exact .token (.kernel (Or.inr
    (framed_of_eq "  ".toList "Linux".toList _ htwo (by decide) hone (by decide) rfl))) .nil

/-- Each stanza keeps its own lines, and the second one is the default. -/
theorem parseStr_stanzas_two :
    parseStr (Str.join ['\n'] twoRows) "/extlinux".toList =
      ⟨[ltsStanza, oldStanza].map (Stanza.parsed "/extlinux".toList),
        defaultOf [ltsStanza, oldStanza] (some oldLabel)⟩ :=
  parseStr_stanzas ⟨rfl, rfl⟩ twoRows_renders "/extlinux".toList

end Sample

end BootExtractor.Boot.Extlinux
