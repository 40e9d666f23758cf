import BootExtractor.Lib.Str

/-!
# Tokens and gaps

A list in which some elements separate the others is an alternation of gaps and
tokens. The invariant is part of the type: tokens and inner gaps are not empty, so a
list is the text of one alternation only, which is how a scanner runs over it.
-/

variable {α : Type}

/-- Every token with the gap behind it. -/
abbrev Parts (α : Type) := List (List α × List α)

namespace Parts

/-- The text that the parts make up. -/
def text (parts : Parts α) : List α := parts.flatMap fun p => p.1 ++ p.2

/-- No parts make up the empty text. -/
@[simp] theorem text_nil : text ([] : Parts α) = [] := rfl

/-- The text begins with the first token and the gap behind it. -/
@[simp] theorem text_cons (token gap : List α) (parts : Parts α) :
    text ((token, gap) :: parts) = token ++ (gap ++ text parts) := by
  simp [text]

/-- Tokens without separators, and gaps of separators; only the last gap may be empty. -/
def Valid (sep : α → Bool) : Parts α → Prop
  | [] => True
  | (token, gap) :: parts =>
    token ≠ [] ∧ (∀ x ∈ token, sep x = false) ∧ (∀ x ∈ gap, sep x = true) ∧
      (parts = [] ∨ gap ≠ []) ∧ Valid sep parts

/-- No separator stands in front of the tokens. -/
theorem Valid.sep_head {sep : α → Bool} {parts : Parts α} (h : Valid sep parts) :
    ∀ x ∈ (text parts).head?, sep x = false := by
  match parts, h with
  | [], _ => simp
  | (token, gap) :: parts, ⟨hne, htoken, _, _, _⟩ =>
    obtain ⟨x, token, rfl⟩ := List.exists_cons_of_ne_nil hne
    intro y hy
    obtain rfl : x = y := by simpa using hy
    exact htoken x List.mem_cons_self

/-- A token is not empty and has no separator in it. -/
theorem Valid.token {sep : α → Bool} {parts : Parts α} (h : Valid sep parts)
    {p : List α × List α} (hp : p ∈ parts) : p.1 ≠ [] ∧ ∀ x ∈ p.1, sep x = false := by
  induction parts with
  | nil => cases hp
  | cons q parts ih =>
    obtain ⟨hne, htoken, -, -, hrest⟩ := h
    rcases List.mem_cons.mp hp with rfl | hp
    · exact ⟨hne, htoken⟩
    · exact ih hrest hp

/-- A gap ends where the next token starts. -/
theorem Valid.takeWhile_gap {sep : α → Bool} {parts : Parts α} (h : Valid sep parts)
    {gap : List α} (hgap : ∀ x ∈ gap, sep x = true) :
    (gap ++ text parts).takeWhile sep = gap ∧ (gap ++ text parts).dropWhile sep = text parts := by
  have hhead := h.sep_head
  rw [List.takeWhile_append_of_pos hgap, List.dropWhile_append_of_pos hgap]
  cases htext : text parts with
  | nil => simp
  | cons x rest =>
    have hx : ¬sep x := by simpa [htext] using hhead
    rw [List.takeWhile_cons_of_neg hx, List.dropWhile_cons_of_neg hx, List.append_nil]
    exact ⟨rfl, rfl⟩

/-- A token ends where the gap behind it starts. -/
theorem takeWhile_token {sep : α → Bool} {token gap : List α} {parts : Parts α}
    (h : Valid sep ((token, gap) :: parts)) :
    (text ((token, gap) :: parts)).takeWhile (fun x => !sep x) = token ∧
      (text ((token, gap) :: parts)).dropWhile (fun x => !sep x) = gap ++ text parts := by
  obtain ⟨_, htoken, hgap, hlast, _⟩ := h
  have htoken' : ∀ x ∈ token, (!sep x) = true := fun x hx => by rw [htoken x hx]; rfl
  rw [text_cons, List.takeWhile_append_of_pos htoken', List.dropWhile_append_of_pos htoken']
  cases gap with
  | nil =>
    obtain rfl : parts = [] := hlast.resolve_right fun h => h rfl
    simp
  | cons x gap =>
    have hx : ¬(!sep x) = true := by rw [hgap x List.mem_cons_self]; exact Bool.false_ne_true
    rw [List.cons_append, @List.takeWhile_cons_of_neg _ (fun x => !sep x) _ _ hx,
      @List.dropWhile_cons_of_neg _ (fun x => !sep x) _ _ hx, List.append_nil]
    exact ⟨rfl, rfl⟩

/-- Other tokens between the same gaps. -/
theorem Valid.map {sep : α → Bool} {parts : Parts α} (h : Valid sep parts)
    {f : List α → List α}
    (hf : ∀ p ∈ parts, f p.1 ≠ [] ∧ ∀ x ∈ f p.1, sep x = false) :
    Valid sep (parts.map fun p => (f p.1, p.2)) := by
  induction parts with
  | nil => trivial
  | cons p parts ih =>
    obtain ⟨_, _, hgap, hlast, hrest⟩ := h
    obtain ⟨hne, htoken⟩ := hf p List.mem_cons_self
    exact ⟨hne, htoken, hgap, hlast.imp_left fun h => by rw [h]; rfl,
      ih hrest fun q hq => hf q (List.mem_cons_of_mem _ hq)⟩

end Parts

/-- A list as gaps and tokens; the first gap may be empty. -/
structure Alternation (α : Type) (sep : α → Bool) where
  lead : List α
  parts : Parts α
  lead_sep : ∀ x ∈ lead, sep x = true
  valid : Parts.Valid sep parts

namespace Alternation

variable {sep : α → Bool}

/-- The text, with the gap that it begins with. -/
def text (alt : Alternation α sep) : List α := alt.lead ++ Parts.text alt.parts

/-- The tokens in their order. -/
def tokens (alt : Alternation α sep) : List (List α) := alt.parts.map Prod.fst

/-- The gaps in their order, with the one in front of the first token. -/
def gaps (alt : Alternation α sep) : List (List α) := alt.lead :: alt.parts.map Prod.snd

/-- Every list without a separator in front is tokens and gaps. -/
theorem exists_parts (s : List α) (hhead : ∀ x ∈ s.head?, sep x = false) :
    ∃ parts, Parts.Valid sep parts ∧ Parts.text parts = s := by
  -- one token and its gap at a time; the rest is shorter
  induction hlen : s.length using Nat.strong_induction_on generalizing s with
  | _ n ih =>
    cases s with
    | nil => exact ⟨[], trivial, rfl⟩
    | cons x s =>
      have hx : sep x = false := hhead x rfl
      let token := x :: s.takeWhile fun y => !sep y
      let tail := s.dropWhile fun y => !sep y
      let rest := tail.dropWhile sep
      have htail : tail.takeWhile sep ++ rest = tail := List.takeWhile_append_dropWhile
      have hs : token ++ tail = x :: s :=
        congrArg (x :: ·) List.takeWhile_append_dropWhile
      have hrest : rest.length < n := by
        have h1 : rest.length ≤ tail.length := (List.dropWhile_suffix sep).length_le
        have h2 : tail.length ≤ s.length := (List.dropWhile_suffix _).length_le
        simp only [List.length_cons] at hlen
        omega
      have hresthead : ∀ y ∈ rest.head?, sep y = false := by
        intro y hy
        have := List.head?_dropWhile_not sep tail
        rw [Option.mem_def.mp hy] at this
        simpa using this
      obtain ⟨parts, hvalid, htext⟩ := ih _ hrest rest hresthead rfl
      refine ⟨(token, tail.takeWhile sep) :: parts, ⟨List.cons_ne_nil _ _, ?_, ?_, ?_, hvalid⟩, ?_⟩
      · intro y hy
        rcases List.mem_cons.mp hy with rfl | hy
        · exact hx
        · simpa using List.mem_takeWhile_imp hy
      · exact fun y hy => List.mem_takeWhile_imp hy
      · by_cases hgap : tail.takeWhile sep = []
        · -- what follows a token is a separator
          left
          have htailnil : tail = [] := by
            cases ht : tail with
            | nil => rfl
            | cons y more =>
              have hy : (!sep y) = false := by
                have := List.head?_dropWhile_not (fun y => !sep y) s
                rw [show s.dropWhile (fun y => !sep y) = y :: more from ht] at this
                simpa using this
              rw [ht, List.takeWhile_cons_of_pos (by simpa using hy)] at hgap
              cases hgap
          have hrestnil : rest = [] := by simp only [rest, htailnil, List.dropWhile_nil]
          rw [hrestnil] at htext
          cases parts with
          | nil => rfl
          | cons p parts =>
            have hp : p.1 ++ (p.2 ++ Parts.text parts) = [] := by
              rw [← Parts.text_cons]; exact htext
            exact absurd (List.append_eq_nil_iff.mp hp).1 hvalid.1
        · exact Or.inr hgap
      · rw [Parts.text_cons, htext, htail, hs]

/-- Every list is the text of an alternation. -/
theorem exists_text (sep : α → Bool) (s : List α) : ∃ alt : Alternation α sep, alt.text = s := by
  have hhead : ∀ x ∈ (s.dropWhile sep).head?, sep x = false := by
    intro x hx
    have := List.head?_dropWhile_not sep s
    rw [Option.mem_def.mp hx] at this
    simpa using this
  obtain ⟨parts, hvalid, htext⟩ := exists_parts (s.dropWhile sep) hhead
  refine ⟨⟨s.takeWhile sep, parts, fun x hx => List.mem_takeWhile_imp hx, hvalid⟩, ?_⟩
  rw [text, htext, List.takeWhile_append_dropWhile]

end Alternation

namespace Str

/-- A blank in front does not count. -/
private theorem splitWhitespace_blank {c : Char} (hc : isWhitespace c = true) (s : Str) :
    splitWhitespace (c :: s) = splitWhitespace s := by
  rw [splitWhitespace, List.splitOnP_cons_eq_if_modifyHead, if_pos hc]
  rfl

/-- Blanks in front do not count. -/
theorem splitWhitespace_blanks {gap : Str} (h : ∀ c ∈ gap, isWhitespace c = true) (s : Str) :
    splitWhitespace (gap ++ s) = splitWhitespace s := by
  induction gap with
  | nil => rfl
  | cons c gap ih =>
    rw [List.cons_append, splitWhitespace_blank (h c List.mem_cons_self),
      ih fun x hx => h x (List.mem_cons_of_mem _ hx)]

/-- A word is what stands in front of whitespace. -/
theorem splitWhitespace_word {token : Str} (hne : token ≠ [])
    (htoken : ∀ x ∈ token, isWhitespace x = false) {c : Char} (hc : isWhitespace c = true)
    (s : Str) : splitWhitespace (token ++ c :: s) = token :: splitWhitespace s := by
  rw [splitWhitespace, List.splitOnP_append_cons_of_forall_mem htoken c hc,
    List.filter_cons_of_pos (by simpa using hne)]
  rfl

/-- Words on both sides of whitespace are separate. -/
theorem splitWhitespace_append {c : Char} (hc : isWhitespace c = true) (a b : Str) :
    splitWhitespace (a ++ c :: b) = splitWhitespace a ++ splitWhitespace b := by
  simp only [splitWhitespace, List.splitOnP_append_cons a b hc, List.filter_append]

/-- Trimming leaves the words. -/
theorem splitWhitespace_trim (s : Str) : splitWhitespace (trim s) = splitWhitespace s := by
  have hstart : splitWhitespace (trimStart s) = splitWhitespace s := by
    have hsplit : s.takeWhile isWhitespace ++ trimStart s = s := List.takeWhile_append_dropWhile
    conv_rhs => rw [← hsplit]
    exact (splitWhitespace_blanks (fun c hc => List.mem_takeWhile_imp hc) _).symm
  have hend : ∀ t : Str, splitWhitespace (trimEnd t) = splitWhitespace t := by
    intro t
    have hsplit : trimEnd t ++ t.rtakeWhile isWhitespace = t :=
      List.rdropWhile_append_rtakeWhile
    conv_rhs => rw [← hsplit]
    have hblanks : ∀ c ∈ t.rtakeWhile isWhitespace, isWhitespace c = true :=
      fun c hc => List.mem_rtakeWhile_imp hc
    cases hafter : t.rtakeWhile isWhitespace with
    | nil => rw [List.append_nil]
    | cons c after =>
      rw [hafter] at hblanks
      have hnone := splitWhitespace_blanks
        (fun x hx => hblanks x (List.mem_cons_of_mem _ hx)) []
      rw [List.append_nil] at hnone
      rw [splitWhitespace_append (hblanks c List.mem_cons_self), hnone]
      exact (List.append_nil _).symm
  rw [trim, hend, hstart]

/-- Splitting at whitespace finds the tokens. -/
theorem splitWhitespace_parts {parts : Parts Char} (h : Parts.Valid isWhitespace parts) :
    splitWhitespace (Parts.text parts) = parts.map Prod.fst := by
  induction parts with
  | nil => rfl
  | cons p parts ih =>
    obtain ⟨token, gap⟩ := p
    obtain ⟨hne, htoken, hgap, hlast, hrest⟩ := h
    rw [Parts.text_cons, List.map_cons, ← ih hrest]
    cases gap with
    | nil =>
      obtain rfl : parts = [] := hlast.resolve_right fun h => h rfl
      simp [splitWhitespace, List.splitOnP_eq_singleton htoken, hne]
    | cons c gap =>
      have hrest := splitWhitespace_blanks
        (fun x hx => hgap x (List.mem_cons_of_mem _ hx)) (Parts.text parts)
      rw [← hrest, List.cons_append,
        splitWhitespace_word hne htoken (hgap c List.mem_cons_self)]

/-- The words of a text are its tokens. -/
theorem splitWhitespace_text (alt : Alternation Char isWhitespace) :
    splitWhitespace alt.text = alt.tokens := by
  rw [Alternation.text, splitWhitespace_blanks alt.lead_sep, splitWhitespace_parts alt.valid,
    Alternation.tokens]

end Str
