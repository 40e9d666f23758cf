import BootExtractor.Boot.GrubMenu

/-!
# Lines and words

How a line of a menu is read. A token is read as the word that is left without its
quotes, a line of tokens as its words, and a laid-out text as the lines of the menu:
indentation, comments and blank lines do nothing.
-/

namespace BootExtractor.Boot.Grub

section Words

/-- Outside of quotes, the text is read as the word. -/
def Reads (text word : Str) : Prop :=
  ∀ cur rest, splitWordsFrom false false cur (text ++ rest) =
    splitWordsFrom false false (cur ++ word) rest

/-- Pieces of a word are read one after the other. -/
theorem Reads.append {text text' word word' : Str} (h : Reads text word)
    (h' : Reads text' word') : Reads (text ++ text') (word ++ word') := by
  intro cur rest
  rw [List.append_assoc, h, h', List.append_assoc]

/-- A piece without quotes and blanks is read as it stands. -/
theorem reads_bare {s : Str}
    (h : ∀ c ∈ s, Str.isWhitespace c = false ∧ c ≠ '\'' ∧ c ≠ '"') : Reads s s := by
  intro cur rest
  induction s generalizing cur with
  | nil => rw [List.nil_append, List.append_nil]
  | cons c s ih =>
    obtain ⟨hspace, hsingle, hdouble⟩ := h c List.mem_cons_self
    have hmore := ih fun d hd => h d (List.mem_cons_of_mem _ hd)
    rw [List.cons_append, splitWordsFrom, if_neg fun hc => hsingle hc.1,
      if_neg fun hc => hdouble hc.1, if_neg fun hc => Bool.eq_false_iff.mp hspace hc.1, hmore,
      List.append_assoc, List.singleton_append]

/-- Inside of single quotes everything but the quote is taken. -/
theorem splitWordsFrom_single {s : Str} (h : '\'' ∉ s) (cur rest : Str) :
    splitWordsFrom true false cur (s ++ '\'' :: rest) =
      splitWordsFrom false false (cur ++ s) rest := by
  induction s generalizing cur with
  | nil => rw [List.nil_append, splitWordsFrom, List.append_nil]; rfl
  | cons c s ih =>
    have hc : c ≠ '\'' := fun he => h (he ▸ List.mem_cons_self)
    have hmore := ih fun hmem => h (List.mem_cons_of_mem _ hmem)
    rw [List.cons_append, splitWordsFrom, if_neg fun hq => hc hq.1,
      if_neg fun hq => Bool.noConfusion hq.2, if_neg fun hq => Bool.noConfusion hq.2.1, hmore,
      List.append_assoc, List.singleton_append]

/-- A double-quoted piece is read to its end. -/
private theorem splitWordsFrom_double {s : Str} (h : '"' ∉ s) (cur rest : Str) :
    splitWordsFrom false true cur (s ++ '"' :: rest) =
      splitWordsFrom false false (cur ++ s) rest := by
  induction s generalizing cur with
  | nil =>
    rw [List.nil_append, splitWordsFrom, if_neg fun hq => Bool.noConfusion hq.2, List.append_nil]
    rfl
  | cons c s ih =>
    have hc : c ≠ '"' := fun he => h (he ▸ List.mem_cons_self)
    have hmore := ih fun hmem => h (List.mem_cons_of_mem _ hmem)
    rw [List.cons_append, splitWordsFrom, if_neg fun hq => Bool.noConfusion hq.2,
      if_neg fun hq => hc hq.1, if_neg fun hq => Bool.noConfusion hq.2.2, hmore,
      List.append_assoc, List.singleton_append]

/-- Single quotes are taken off. -/
theorem reads_quoted {s : Str} (h : '\'' ∉ s) : Reads (quoted s) s := by
  intro cur rest
  have hinner := splitWordsFrom_single h cur rest
  rw [quoted, List.cons_append, List.cons_append, List.append_assoc, List.singleton_append,
    splitWordsFrom]
  exact hinner

/-- Double quotes are taken off. -/
theorem reads_double {s : Str} (h : '"' ∉ s) : Reads ('"' :: s ++ ['"']) s := by
  intro cur rest
  have hinner := splitWordsFrom_double h cur rest
  rw [List.cons_append, List.cons_append, List.append_assoc, List.singleton_append,
    splitWordsFrom, if_neg fun hq => absurd hq.1 (by decide)]
  exact hinner

/-- A token of a line and the word it is read as. -/
structure Token (text word : Str) : Prop where
  reads : Reads text word
  word_ne : word ≠ []
  first : ∀ c ∈ text.head?, Str.isWhitespace c = false
  last : ∀ c ∈ text.getLast?, Str.isWhitespace c = false
  oneLine : '\n' ∉ text

/-- A token is not empty. -/
theorem Token.text_ne {text word : Str} (h : Token text word) : text ≠ [] := by
  rintro rfl
  have hreads := h.reads [] []
  rw [List.nil_append, List.nil_append, splitWordsFrom, splitWordsFrom, if_pos rfl,
    if_neg h.word_ne] at hreads
  cases hreads

/-- A blank ends the word before it. -/
private theorem splitWordsFrom_blank {c : Char} (hc : Str.isWhitespace c = true) (word rest : Str) :
    splitWordsFrom false false word (c :: rest) =
      (if word = [] then [] else [word]) ++ splitWords rest := by
  have hsingle : c ≠ '\'' := by
    rintro rfl
    cases hc
  have hdouble : c ≠ '"' := by
    rintro rfl
    cases hc
  rw [splitWordsFrom, if_neg fun hq => hsingle hq.1, if_neg fun hq => hdouble hq.1,
    if_pos ⟨hc, rfl, rfl⟩, splitWords]

/-- Blanks in front of a line are not seen. -/
theorem splitWords_blanks {gap : Str} (hgap : IsBlank gap) (line : Str) :
    splitWords (gap ++ line) = splitWords line := by
  induction gap with
  | nil => rfl
  | cons c gap ih =>
    rw [List.cons_append, splitWords, splitWordsFrom_blank (hgap c List.mem_cons_self).1,
      if_pos rfl, List.nil_append, ih fun d hd => hgap d (List.mem_cons_of_mem _ hd)]

/-- A blank text has no words. -/
theorem splitWords_blank {gap : Str} (hgap : IsBlank gap) : splitWords gap = [] := by
  have hnone := splitWords_blanks hgap []
  rwa [List.append_nil] at hnone

/-- A line of tokens is read as their words, whatever blanks follow it. -/
theorem splitWords_spaced_append {texts : List Str} {line trail : Str} (hs : Spaced texts line)
    (htrail : IsBlank trail) {words : List Str} (h : List.Forall₂ Token texts words) :
    splitWords (line ++ trail) = words := by
  induction hs generalizing words with
  | last text =>
    cases h with
    | @cons _ word _ _ htoken hmore =>
      cases hmore
      rw [splitWords, htoken.reads, List.nil_append]
      cases trail with
      | nil => rw [splitWordsFrom, if_neg htoken.word_ne]
      | cons c trail =>
        have hblank : IsBlank trail := fun d hd => htrail d (List.mem_cons_of_mem _ hd)
        rw [splitWordsFrom_blank (htrail c List.mem_cons_self).1, if_neg htoken.word_ne,
          splitWords_blank hblank, List.append_nil]
  | @cons text gap line texts hne hgap _ ih =>
    cases h with
    | @cons _ word _ words htoken hmore =>
      obtain ⟨c, gap, rfl⟩ := List.exists_cons_of_ne_nil hne
      have hblank : IsBlank gap := fun d hd => hgap d (List.mem_cons_of_mem _ hd)
      rw [List.append_assoc, List.append_assoc, splitWords, htoken.reads, List.nil_append,
        List.cons_append, splitWordsFrom_blank (hgap c List.mem_cons_self).1,
        if_neg htoken.word_ne, splitWords_blanks hblank, ih hmore, List.singleton_append]

/-- Tokens with blanks between them are read one by one. -/
private theorem splitWords_spaced {texts : List Str} {line : Str} (hs : Spaced texts line)
    {words : List Str} (h : List.Forall₂ Token texts words) : splitWords line = words := by
  have hnil : IsBlank [] := fun _ hc => absurd hc List.not_mem_nil
  rw [← splitWords_spaced_append hs hnil h, List.append_nil]

end Words

section Lines

/-- A spaced line begins with its first text. -/
theorem Spaced.exists_head {text line : Str} {texts : List Str} (h : Spaced (text :: texts) line) :
    ∃ more, line = text ++ more := by
  cases h with
  | last => exact ⟨[], (List.append_nil _).symm⟩
  | cons => exact ⟨_, rfl⟩

/-- A spaced line ends with its last text. -/
theorem Spaced.exists_last {texts : List Str} {line text : Str} (h : Spaced texts line)
    (hlast : texts.getLast? = some text) : ∃ front, line = front ++ text := by
  induction h with
  | last _ =>
    obtain rfl := Option.some.inj hlast
    exact ⟨[], rfl⟩
  | @cons first gap line texts _ _ hmore ih =>
    have hrest : texts.getLast? = some text := by
      cases hmore with
      | last => exact hlast
      | cons => rwa [List.getLast?_cons_cons] at hlast
    obtain ⟨front, rfl⟩ := ih hrest
    exact ⟨first ++ (gap ++ front), by rw [List.append_assoc, List.append_assoc]⟩

/-- A character of a spaced line is a blank or of one of the texts. -/
theorem Spaced.mem {texts : List Str} {line : Str} (h : Spaced texts line) {c : Char}
    (hc : c ∈ line) :
    (Str.isWhitespace c = true ∧ c ≠ '\n') ∨ ∃ text ∈ texts, c ∈ text := by
  induction h with
  | last text => exact Or.inr ⟨text, List.mem_cons_self, hc⟩
  | @cons text gap line texts _ hgap _ ih =>
    rw [List.mem_append, List.mem_append] at hc
    rcases hc with hc | hc | hc
    · exact Or.inr ⟨text, List.mem_cons_self, hc⟩
    · exact Or.inl (hgap c hc)
    · rcases ih hc with hblank | ⟨other, hother, hc⟩
      · exact Or.inl hblank
      · exact Or.inr ⟨other, List.mem_cons_of_mem _ hother, hc⟩

/-- Each text of a row is the token of some word. -/
theorem forall₂_token {texts words : List Str} (h : List.Forall₂ Token texts words) {text : Str}
    (hmem : text ∈ texts) : ∃ word, Token text word := by
  induction h with
  | nil => cases hmem
  | @cons _ word _ _ htoken _ ih =>
    rcases List.mem_cons.mp hmem with rfl | hmem
    · exact ⟨word, htoken⟩
    · exact ih hmem

variable {texts words : List Str} {line : Str}

/-- A spaced line of tokens holds no line break. -/
theorem Spaced.oneLine (hs : Spaced texts line) (h : List.Forall₂ Token texts words) :
    '\n' ∉ line := by
  intro hmem
  rcases hs.mem hmem with ⟨_, hc⟩ | ⟨text, htext, hc⟩
  · exact hc rfl
  · obtain ⟨word, htoken⟩ := forall₂_token h htext
    exact htoken.oneLine hc

/-- There is no whitespace at the ends of a line of tokens. -/
theorem Spaced.trim (hs : Spaced texts line) (h : List.Forall₂ Token texts words) :
    Str.trim line = line := by
  apply Str.trim_ends
  · intro c hc
    cases h with
    | nil => cases hs
    | @cons text _ texts _ htoken _ =>
      obtain ⟨more, rfl⟩ := hs.exists_head
      rw [List.head?_append_of_ne_nil _ htoken.text_ne] at hc
      exact htoken.first c hc
  · intro c hc
    cases hlast : texts.getLast? with
    | none =>
      obtain rfl := List.getLast?_eq_none_iff.mp hlast
      cases hs
    | some text =>
      obtain ⟨front, rfl⟩ := hs.exists_last hlast
      obtain ⟨word, htoken⟩ := forall₂_token h (List.mem_of_getLast? hlast)
      rw [List.getLast?_append_of_ne_nil _ htoken.text_ne] at hc
      exact htoken.last c hc

/-- The last character of a line of tokens. -/
theorem Spaced.endsWith (hs : Spaced texts line) {text : Str} (hlast : texts.getLast? = some text)
    {c : Char} (hc : text.getLast? = some c) (d : Char) : Str.endsWith line [d] = (c == d) := by
  obtain ⟨front, rfl⟩ := hs.exists_last hlast
  obtain ⟨init, rfl⟩ := List.getLast?_eq_some_iff.mp hc
  rw [← List.append_assoc, Str.endsWith_concat]

/-- A line of tokens is what its words say, and then its braces. -/
theorem Spaced.step (env : Env) (st : State) {c : Char} {text : Str} {more : List Str}
    (hs : Spaced ((c :: text) :: more) line) (h : List.Forall₂ Token ((c :: text) :: more) words)
    (hc : c ≠ '#') :
    step env st line =
      braces line (Str.endsWith line "\x7b".toList)
        (keywordLine env words (Str.endsWith line "\x7b".toList) st) := by
  have hne : words ≠ [] := by
    cases h
    exact List.cons_ne_nil _ _
  have hskip : ¬(line = [] ∨ Str.startsWith line "#".toList = true) := by
    obtain ⟨rest, rfl⟩ := hs.exists_head
    rintro (he | he)
    · cases he
    · exact hc (beq_iff_eq.mp (Bool.and_eq_true_iff.mp he).1).symm
  rw [Grub.step, hs.trim h, splitWords_spaced hs h, if_neg hskip, if_neg hne]

/-- The tokens of a line with single blanks between them. -/
def tokens (texts : List Str) : Str := Str.join " ".toList texts

/-- One token alone. -/
@[simp] theorem tokens_singleton (text : Str) : tokens [text] = text := by
  simp [tokens, Str.join, List.intercalate]

/-- Tokens joined by single spaces are spaced. -/
theorem spaced_tokens (hne : texts ≠ []) : Spaced texts (tokens texts) := by
  induction texts with
  | nil => exact absurd rfl hne
  | cons text texts ih =>
    cases texts with
    | nil =>
      rw [tokens_singleton]
      exact .last text
    | cons next texts =>
      have hblank : IsBlank " ".toList := Str.forall_of_all rfl
      rw [tokens, Str.join_cons_cons, List.append_assoc]
      exact .cons (List.cons_ne_nil _ _) hblank (ih (List.cons_ne_nil _ _))

end Lines

section Layout

/-- The tokens of a line that is no comment. -/
def IsRow (row : List Str) : Prop :=
  ∃ c text more words, row = (c :: text) :: more ∧ c ≠ '#' ∧ List.Forall₂ Token row words

variable {row : List Str} {line line' : Str}

/-- A spaced row holds no line break. -/
theorem IsRow.oneLine (h : IsRow row) (hs : Spaced row line) : '\n' ∉ line := by
  obtain ⟨_, _, _, words, _, _, htokens⟩ := h
  exact hs.oneLine htokens

/-- A lone brace is a row of its own. -/
theorem Spaced.eq_brace_iff (hs : Spaced row line) (h : IsRow row) (d : Char) :
    line = [d] ↔ row = [[d]] := by
  obtain ⟨c, text, more, words, rfl, _, _⟩ := h
  constructor
  · intro hline
    cases hs with
    | last => rw [hline]
    | cons hne _ _ =>
      have hrest := (List.cons.inj hline).2
      exact absurd (List.append_eq_nil_iff.mp (List.append_eq_nil_iff.mp hrest).2).1 hne
  · intro hrow
    cases hrow
    cases hs with
    | last => rfl
    | cons _ _ hmore => cases hmore

/-- How a row is spaced makes no difference. -/
theorem Spaced.step_eq (env : Env) (st : State) (hs : Spaced row line) (hs' : Spaced row line')
    (h : IsRow row) : Grub.step env st line = Grub.step env st line' := by
  have hlone := (hs.eq_brace_iff h '\x7d').trans (hs'.eq_brace_iff h '\x7d').symm
  obtain ⟨c, text, more, words, rfl, hc, htokens⟩ := h
  obtain ⟨last, hlast⟩ : ∃ last, ((c :: text) :: more).getLast? = some last :=
    ⟨_, List.getLast?_eq_some_getLast (List.cons_ne_nil _ _)⟩
  obtain ⟨word, htoken⟩ := forall₂_token htokens (List.mem_of_getLast? hlast)
  have hchar := List.getLast?_eq_some_getLast htoken.text_ne
  have hends : Str.endsWith line "\x7b".toList = Str.endsWith line' "\x7b".toList :=
    (hs.endsWith hlast hchar _).trans (hs'.endsWith hlast hchar _).symm
  rw [hs.step env st htokens hc, hs'.step env st htokens hc, hends, braces, braces]
  split
  · rfl
  · exact if_congr hlone rfl rfl

private theorem step_congr (env : Env) (st : State) {a b : Str} (h : Str.trim a = Str.trim b) :
    step env st a = step env st b := by
  rw [step, step, h]

/-- Lines that differ only in the blanks around them run alike. -/
private theorem foldl_step_congr (env : Env) {a b : List Str} (h : a.map Str.trim = b.map Str.trim)
    (st : State) : a.foldl (step env) st = b.foldl (step env) st := by
  induction a generalizing b st with
  | nil =>
    obtain rfl := List.map_eq_nil_iff.mp h.symm
    rfl
  | cons l a ih =>
    obtain ⟨l', b', rfl, hl, hb⟩ := List.map_eq_cons_iff.mp h.symm
    rw [List.foldl_cons, List.foldl_cons, step_congr env st hl.symm, ih hb.symm]

/-- Whatever follows the `#`, the line does nothing. -/
theorem step_comment (env : Env) (st : State) (rest : Str) : step env st ('#' :: rest) = st := by
  have hstart : Str.trimStart ('#' :: rest) = '#' :: rest := rfl
  have hpre : Str.trimEnd ('#' :: rest) <+: '#' :: rest := List.rdropWhile_prefix _ _
  obtain ⟨more, hmore⟩ : ∃ more, Str.trimEnd ('#' :: rest) = '#' :: more := by
    cases htrim : Str.trimEnd ('#' :: rest) with
    | nil =>
      have hspace := List.rdropWhile_eq_nil_iff.mp htrim '#' List.mem_cons_self
      cases hspace
    | cons c more =>
      rw [htrim] at hpre
      exact ⟨more, by rw [(List.cons_prefix_cons.mp hpre).1]⟩
  rw [step, Str.trim, hstart, hmore]
  exact if_pos (Or.inr rfl)

private theorem step_blank (env : Env) (st : State) {indent : Str} (h : IsBlank indent) :
    step env st indent = st := by
  have htrim := @Str.trim_blanks indent [] [] (fun c hc => (h c hc).1)
    fun _ hc => absurd hc List.not_mem_nil
  rw [List.append_nil, List.append_nil] at htrim
  rw [step, htrim]
  exact if_pos (Or.inl rfl)

/-- The tokens of a line in a row. -/
def rowStep (env : Env) (st : State) (row : List Str) : State := step env st (tokens row)

/-- A laid-out text does what its rows do. -/
theorem Laid.foldl_step {rows : List (List Str)} {ls : List Str} (h : Laid rows ls)
    (hrows : ∀ row ∈ rows, IsRow row) (env : Env) (st : State) :
    ls.foldl (step env) st = rows.foldl (rowStep env) st := by
  induction h generalizing st with
  | nil => rfl
  | blank hindent _ ih => rw [List.foldl_cons, step_blank env st hindent, ih hrows]
  | @comment indent rest rows ls hindent _ _ ih =>
    have htrim := @Str.trim_blanks indent ('#' :: rest) [] (fun c hc => (hindent c hc).1)
      fun _ hc => absurd hc List.not_mem_nil
    rw [List.append_nil] at htrim
    rw [List.foldl_cons, step_congr env st htrim, step_comment, ih hrows]
  | @line indent line trail row rows ls hindent htrail hline _ ih =>
    have hrow := hrows row List.mem_cons_self
    have htrim : Str.trim (indent ++ line ++ trail) = Str.trim line :=
      Str.trim_blanks (fun c hc => (hindent c hc).1) fun c hc => (htrail c hc).1
    have hne : row ≠ [] := by
      obtain ⟨_, _, _, _, rfl, _⟩ := hrow
      exact List.cons_ne_nil _ _
    rw [List.foldl_cons, List.foldl_cons, step_congr env st htrim,
      hline.step_eq env st (spaced_tokens hne) hrow, ← rowStep,
      ih fun row' hrow' => hrows row' (List.mem_cons_of_mem _ hrow')]

/-- Blanks hold no line break. -/
theorem IsBlank.oneLine {s : Str} (h : IsBlank s) : '\n' ∉ s := fun hmem => (h _ hmem).2 rfl

/-- No line that rows are laid out in holds a line break. -/
theorem Laid.oneLine {rows : List (List Str)} {ls : List Str} (h : Laid rows ls)
    (hrows : ∀ row ∈ rows, IsRow row) : ∀ l ∈ ls, '\n' ∉ l := by
  induction h with
  | nil => exact fun l hl => absurd hl List.not_mem_nil
  | blank hindent _ ih =>
    intro l hl
    rcases List.mem_cons.mp hl with rfl | hl
    · exact hindent.oneLine
    · exact ih hrows l hl
  | comment hindent hrest _ ih =>
    intro l hl
    rcases List.mem_cons.mp hl with rfl | hl
    · intro hmem
      rcases List.mem_append.mp hmem with hmem | hmem
      · exact hindent.oneLine hmem
      · rcases List.mem_cons.mp hmem with he | hmem
        · cases he
        · exact hrest hmem
    · exact ih hrows l hl
  | line hindent htrail hline _ ih =>
    intro l hl
    rcases List.mem_cons.mp hl with rfl | hl
    · intro hmem
      rw [List.mem_append, List.mem_append] at hmem
      rcases hmem with (hmem | hmem) | hmem
      · exact hindent.oneLine hmem
      · exact (hrows _ List.mem_cons_self).oneLine hline hmem
      · exact htrail.oneLine hmem
    · exact ih (fun row hrow => hrows row (List.mem_cons_of_mem _ hrow)) l hl

/-- The text of a menu does what the rows of the menu do. -/
theorem Renders.foldl_step {spec : Spec} {menu : Menu} {text : Str} (h : Renders spec menu text)
    (hrows : ∀ row ∈ menuRows spec menu, IsRow row) (env : Env) (st : State) :
    (Str.lines text).foldl (step env) st = (menuRows spec menu).foldl (rowStep env) st := by
  obtain ⟨ls, hlaid, rfl⟩ := h
  rw [foldl_step_congr env (Str.lines_trimmed (hlaid.oneLine hrows)), hlaid.foldl_step hrows]

end Layout

end BootExtractor.Boot.Grub
