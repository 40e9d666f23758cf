import BootExtractor.Boot.GrubWords

/-!
# Quoting

A word is written in single quotes, or in double quotes where it has a single quote of
its own, or bare where there is nothing to quote. Reading a line of words gives the words
back, however they are written and spaced.
-/

namespace BootExtractor.Boot.Grub

/-- A word that can be written in one of the two quotes. -/
structure IsQuotable (word : Str) : Prop where
  ne_nil : word ≠ []
  oneLine : '\n' ∉ word
  lacks : '\'' ∉ word ∨ '"' ∉ word

/-- The word in the quotes it lacks, single ones first. -/
def inQuotes (word : Str) : Str := if '\'' ∈ word then '"' :: word ++ ['"'] else quoted word

/-- How a word may stand in a line. -/
inductive Written (word : Str) : Str → Prop where
  | inQuotes : Written word (inQuotes word)
  | bare (h : ∀ c ∈ word, Str.isWhitespace c = false ∧ c ≠ '\'' ∧ c ≠ '"') : Written word word

/-- A line of words: blanks between any two of them, and any blanks around. -/
inductive IsLine : List Str → Str → Prop where
  | blank {gap : Str} (h : IsBlank gap) : IsLine [] gap
  | words {words texts : List Str} {lead line trail : Str} (hlead : IsBlank lead)
      (htrail : IsBlank trail) (hwords : List.Forall₂ Written words texts)
      (hline : Spaced texts line) : IsLine words (lead ++ (line ++ trail))

private theorem reads_inQuotes {word : Str} (h : IsQuotable word) : Reads (inQuotes word) word := by
  rw [inQuotes]
  split
  · next hsingle => exact reads_double (h.lacks.resolve_left fun hn => hn hsingle)
  · next hsingle => exact reads_quoted hsingle

/-- The quotes are at both ends. -/
theorem inQuotes_ends (word : Str) :
    ∃ q, (q = '\'' ∨ q = '"') ∧ inQuotes word = q :: word ++ [q] := by
  rw [inQuotes]
  split
  · exact ⟨'"', .inr rfl, rfl⟩
  · exact ⟨'\'', .inl rfl, rfl⟩

/-- A quotable word in the quotes it allows is a token. -/
private theorem inQuotes_token {word : Str} (h : IsQuotable word) : Token (inQuotes word) word := by
  obtain ⟨q, hq, htext⟩ := inQuotes_ends word
  have hspace : Str.isWhitespace q = false ∧ q ≠ '\n' := by
    rcases hq with rfl | rfl
    · exact ⟨rfl, by decide⟩
    · exact ⟨rfl, by decide⟩
  refine ⟨reads_inQuotes h, h.ne_nil, ?_, ?_, ?_⟩
  · intro c hc
    rw [htext] at hc
    obtain rfl := Option.some.inj hc
    exact hspace.1
  · intro c hc
    rw [htext, List.getLast?_concat] at hc
    obtain rfl := Option.some.inj hc
    exact hspace.1
  · simp [htext, h.oneLine, hspace.2.symm]

private theorem bare_token {word : Str} (h : IsQuotable word)
    (hbare : ∀ c ∈ word, Str.isWhitespace c = false ∧ c ≠ '\'' ∧ c ≠ '"') : Token word word where
  reads := reads_bare hbare
  word_ne := h.ne_nil
  first c hc := (hbare c (List.mem_of_mem_head? hc)).1
  last c hc := (hbare c (List.mem_of_getLast? hc)).1
  oneLine := h.oneLine

/-- However it is written, a quotable word is one token. -/
theorem Written.token {word text : Str} (h : IsQuotable word) (hw : Written word text) :
    Token text word := by
  cases hw with
  | inQuotes => exact inQuotes_token h
  | bare hbare => exact bare_token h hbare

private theorem written_tokens {words texts : List Str} (hwords : ∀ word ∈ words, IsQuotable word)
    (h : List.Forall₂ Written words texts) : List.Forall₂ Token texts words := by
  induction h with
  | nil => exact .nil
  | @cons word text words texts hw _ ih =>
    have hword := hwords word List.mem_cons_self
    exact .cons (hw.token hword) (ih fun other hmem => hwords other (List.mem_cons_of_mem _ hmem))

/-- Reading a line of words gives the words back. -/
theorem splitWords_isLine {words : List Str} {line : Str}
    (hwords : ∀ word ∈ words, IsQuotable word) (h : IsLine words line) :
    splitWords line = words := by
  cases h with
  | blank hgap => exact splitWords_blank hgap
  | @words _ texts lead line trail hlead htrail hwritten hline =>
    have htokens := written_tokens hwords hwritten
    rw [splitWords_blanks hlead, splitWords_spaced_append hline htrail htokens]

/-- A bare word and one in double quotes that holds a single quote. -/
theorem splitWords_isLine_pair :
    splitWords "\tlinux  \"it's\" ".toList = ["linux".toList, "it's".toList] := by
  have hlinux : IsQuotable "linux".toList := ⟨by simp, by simp, by simp⟩
  have hits : IsQuotable "it's".toList := ⟨by simp, by simp, by simp⟩
  have htab : IsBlank "\t".toList := Str.forall_of_all rfl
  have htwo : IsBlank "  ".toList := Str.forall_of_all rfl
  have hone : IsBlank " ".toList := Str.forall_of_all rfl
  have hwritten : List.Forall₂ Written ["linux".toList, "it's".toList]
      ["linux".toList, inQuotes "it's".toList] :=
    .cons (.bare (Str.forall_of_all rfl)) (.cons .inQuotes .nil)
  have hspaced : Spaced ["linux".toList, inQuotes "it's".toList]
      ("linux".toList ++ ("  ".toList ++ inQuotes "it's".toList)) :=
    .cons (by simp) htwo (.last _)
  apply splitWords_isLine
  · rintro word (_ | ⟨_, _ | ⟨_, ⟨⟩⟩⟩)
    · exact hlinux
    · exact hits
  · exact .words htab hone hwritten hspaced

end BootExtractor.Boot.Grub
