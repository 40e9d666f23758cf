import Mathlib.Algebra.Group.Nat.Defs
import Mathlib.Data.List.DropRight
import Mathlib.Data.List.Infix

/-!
# Text

A text is a list of Unicode scalar values. The operations are those of the
standard string library that the program calls, under the names it calls them by.
-/

/-- A text: its Unicode scalar values in order. -/
abbrev Str := List Char

namespace Str

/-- Texts that test equal are equal. -/
instance lawfulBEq : LawfulBEq Str := inferInstance

/-- A property of all members of a list by evaluating it. -/
theorem forall_of_all {α : Type} {P : α → Prop} [DecidablePred P] {l : List α}
    (h : l.all (fun x => decide (P x)) = true) : ∀ x ∈ l, P x :=
  fun x hx => of_decide_eq_true (List.all_eq_true.mp h x hx)

/-- The Unicode `White_Space` property. -/
def isWhitespace (c : Char) : Bool :=
  let n := c.toNat
  (9 ≤ n && n ≤ 13) || n = 0x20 || n = 0x85 || n = 0xa0 || n = 0x1680 ||
    (0x2000 ≤ n && n ≤ 0x200a) || n = 0x2028 || n = 0x2029 || n = 0x202f || n = 0x205f ||
    n = 0x3000

/-- Without leading whitespace. -/
def trimStart (s : Str) : Str := s.dropWhile isWhitespace

/-- Without trailing whitespace. -/
def trimEnd (s : Str) : Str := s.rdropWhile isWhitespace

/-- Without whitespace on either side. -/
def trim (s : Str) : Str := trimEnd (trimStart s)

/-- Whitespace at the end does not count. -/
private theorem trimEnd_append {text after : Str} (hafter : ∀ c ∈ after, isWhitespace c = true) :
    trimEnd (text ++ after) = trimEnd text := by
  rw [trimEnd, List.rdropWhile, List.reverse_append,
    List.dropWhile_append_of_pos fun c hc => hafter c (List.mem_reverse.mp hc)]
  rfl

/-- Behind a text that does not end with whitespace, only what follows it is trimmed. -/
theorem trimEnd_append_text {text after : Str}
    (hlast : ∀ c ∈ text.getLast?, isWhitespace c = false) :
    trimEnd (text ++ after) = text ++ trimEnd after := by
  have htext : text.reverse.dropWhile isWhitespace = text.reverse := by
    cases hrev : text.reverse with
    | nil => rfl
    | cons c cs =>
      refine List.dropWhile_cons_of_neg (Bool.eq_false_iff.mp (hlast c ?_))
      rw [← List.head?_reverse, hrev]
      rfl
  rw [trimEnd, trimEnd, List.rdropWhile, List.rdropWhile, List.reverse_append,
    List.dropWhile_append]
  split
  · rename_i hnil
    rw [List.isEmpty_iff.mp hnil, htext, List.reverse_reverse, List.reverse_nil, List.append_nil]
  · rw [List.reverse_append, List.reverse_reverse]

/-- Whitespace around a text is trimmed with that of the text. -/
theorem trim_blanks {before text after : Str} (hbefore : ∀ c ∈ before, isWhitespace c = true)
    (hafter : ∀ c ∈ after, isWhitespace c = true) :
    trim (before ++ text ++ after) = trim text := by
  rw [trim, trimStart, List.append_assoc, List.dropWhile_append_of_pos hbefore,
    List.dropWhile_append]
  split
  · rename_i htext
    have hnil : after.dropWhile isWhitespace = [] := List.dropWhile_eq_nil_iff.mpr hafter
    rw [trim, trimStart, hnil, List.isEmpty_iff.mp htext]
  · exact trimEnd_append hafter

/-- What is trimmed is whitespace. -/
theorem exists_trim (s : Str) : ∃ before after, s = before ++ trim s ++ after ∧
    (∀ c ∈ before, isWhitespace c = true) ∧ ∀ c ∈ after, isWhitespace c = true := by
  refine ⟨s.takeWhile isWhitespace, (trimStart s).rtakeWhile isWhitespace, ?_,
    fun c hc => List.mem_takeWhile_imp hc, fun c hc => List.mem_rtakeWhile_imp hc⟩
  have hend : trim s ++ (trimStart s).rtakeWhile isWhitespace = trimStart s :=
    List.rdropWhile_append_rtakeWhile
  rw [List.append_assoc, hend]
  exact List.takeWhile_append_dropWhile.symm

/-- Trimming twice is trimming once. -/
theorem trim_trim (s : Str) : trim (trim s) = trim s := by
  obtain ⟨before, after, hs, hbefore, hafter⟩ := exists_trim s
  conv_rhs => rw [hs]
  exact (trim_blanks hbefore hafter).symm

/-- Trimming the end first changes nothing. -/
theorem trim_trimEnd (s : Str) : trim (trimEnd s) = trim s := by
  have hsplit : trimEnd s ++ s.rtakeWhile isWhitespace = s := List.rdropWhile_append_rtakeWhile
  have hnone : ∀ c ∈ ([] : Str), isWhitespace c = true := fun _ h => absurd h List.not_mem_nil
  conv_rhs => rw [← hsplit]
  exact (trim_blanks hnone fun c hc => List.mem_rtakeWhile_imp hc).symm

/-- Nothing is left exactly of whitespace. -/
theorem trim_eq_nil_iff {s : Str} : trim s = [] ↔ ∀ c ∈ s, isWhitespace c = true := by
  constructor
  · intro h
    obtain ⟨before, after, hs, hbefore, hafter⟩ := exists_trim s
    rw [h, List.append_nil] at hs
    intro c hc
    rw [hs] at hc
    rcases List.mem_append.mp hc with hc | hc
    · exact hbefore c hc
    · exact hafter c hc
  · intro h
    have hstart : trimStart s = [] := List.dropWhile_eq_nil_iff.mpr h
    rw [trim, hstart]
    rfl

/-- A text is left if there is no whitespace at its ends. -/
theorem trim_ends {s : Str} (hfirst : ∀ c ∈ s.head?, isWhitespace c = false)
    (hlast : ∀ c ∈ s.getLast?, isWhitespace c = false) : trim s = s := by
  have hstart : trimStart s = s := by
    cases s with
    | nil => rfl
    | cons c cs => exact List.dropWhile_cons_of_neg (Bool.eq_false_iff.mp (hfirst c rfl))
  rw [trim, hstart]
  exact List.rdropWhile_eq_self_iff.mpr fun h =>
    Bool.eq_false_iff.mp (hlast _ (List.getLast?_eq_some_getLast h))

/-- A text without whitespace is left as it is. -/
theorem trim_eq_self {s : Str} (h : ∀ c ∈ s, isWhitespace c = false) : trim s = s :=
  trim_ends (fun c hc => h c (List.mem_of_mem_head? hc))
    fun c hc => h c (List.mem_of_mem_getLast? hc)

/-- A text without whitespace is left between whitespace. -/
theorem trim_between {before text after : Str} (hbefore : ∀ c ∈ before, isWhitespace c = true)
    (htext : ∀ c ∈ text, isWhitespace c = false) (hafter : ∀ c ∈ after, isWhitespace c = true) :
    trim (before ++ text ++ after) = text := by
  rw [trim_blanks hbefore hafter, trim_eq_self htext]

/-- The lines of a text, each without its `\n` or `\r\n`; an empty last line is dropped. -/
def lines : Str → List Str
  | [] => []
  | '\n' :: rest => [] :: lines rest
  | '\r' :: '\n' :: rest => [] :: lines rest
  | c :: rest =>
    match lines rest with
    | [] => [[c]]
    | line :: more => (c :: line) :: more

/-- A line ends at the first `\n`; a `\r` in front of it is lost. -/
theorem lines_cons {l rest : Str} (h : '\n' ∉ l) :
    ∃ line, lines (l ++ '\n' :: rest) = line :: lines rest ∧ (l = line ∨ l = line ++ ['\r']) := by
  induction l with
  | nil => exact ⟨[], rfl, Or.inl rfl⟩
  | cons c l ih =>
    obtain ⟨line, hline, hl⟩ := ih fun hmem => h (List.mem_cons_of_mem _ hmem)
    have hc : c ≠ '\n' := fun he => h (he ▸ List.mem_cons_self)
    rw [List.cons_append, lines.eq_def]
    split
    · rename_i heq
      cases heq
    · rename_i heq
      exact absurd (List.cons.inj heq).1 hc
    · rename_i more heq
      obtain ⟨rfl, hmore⟩ := List.cons.inj heq
      cases l with
      | nil =>
        obtain ⟨-, rfl⟩ := List.cons.inj hmore
        exact ⟨[], rfl, Or.inr rfl⟩
      | cons d l =>
        obtain ⟨rfl, -⟩ := List.cons.inj hmore
        exact absurd (List.mem_cons_of_mem _ List.mem_cons_self) h
    · rename_i heq
      obtain ⟨rfl, rfl⟩ := List.cons.inj heq
      rw [hline]
      refine ⟨c :: line, rfl, ?_⟩
      rcases hl with rfl | rfl
      · exact Or.inl rfl
      · exact Or.inr rfl

/-- The first line ends at the first line feed. -/
theorem lines_append {l rest : Str} (h : '\n' ∉ l) (hr : l.getLast? ≠ some '\r') :
    lines (l ++ '\n' :: rest) = l :: lines rest := by
  obtain ⟨line, hline, rfl | rfl⟩ := @lines_cons l rest h
  · exact hline
  · exact absurd List.getLast?_concat hr

/-- A character in front belongs to the first line. -/
private theorem lines_char {c : Char} {s : Str} (hc : c ≠ '\n')
    (hs : c = '\r' → s.head? ≠ some '\n') :
    lines (c :: s) =
      match lines s with
      | [] => [[c]]
      | line :: more => (c :: line) :: more := by
  rw [lines.eq_def]
  split
  · rename_i heq
    cases heq
  · rename_i heq
    exact absurd (List.cons.inj heq).1 hc
  · rename_i heq
    obtain ⟨hreturn, rfl⟩ := List.cons.inj heq
    exact absurd rfl (hs hreturn)
  · rename_i heq
    obtain ⟨rfl, rfl⟩ := List.cons.inj heq
    rfl

/-- A text has a line. -/
private theorem lines_ne_nil {s : Str} (h : s ≠ []) : lines s ≠ [] := by
  rw [lines.eq_def]
  split
  · exact absurd rfl h
  · exact List.cons_ne_nil _ _
  · exact List.cons_ne_nil _ _
  · split <;> exact List.cons_ne_nil _ _

/-- What follows an end of line has lines of its own. -/
theorem lines_ended (front rest : Str) :
    lines (front ++ '\n' :: rest) = lines (front ++ ['\n']) ++ lines rest := by
  induction front with
  | nil => rfl
  | cons c front ih =>
    by_cases hc : c = '\n'
    · subst hc
      exact congrArg ([] :: ·) ih
    · by_cases hreturn : c = '\r' ∧ (front ++ ['\n']).head? = some '\n'
      · obtain ⟨rfl, hhead⟩ := hreturn
        cases front with
        | nil => rfl
        | cons d front =>
          obtain rfl : d = '\n' := Option.some.inj hhead
          -- `\r\n` ends a line as `\n` does
          exact ih
      · have hsame : (front ++ '\n' :: rest).head? = (front ++ ['\n']).head? := by
          cases front <;> rfl
        have hone := @lines_char c (front ++ ['\n']) hc fun hr hh => hreturn ⟨hr, hh⟩
        have hall := @lines_char c (front ++ '\n' :: rest) hc fun hr hh =>
          hreturn ⟨hr, hsame ▸ hh⟩
        have hne : lines (front ++ ['\n']) ≠ [] :=
          lines_ne_nil (List.append_ne_nil_of_right_ne_nil _
          (List.cons_ne_nil _ _))
        obtain ⟨line, more, hlines⟩ := List.exists_cons_of_ne_nil hne
        rw [List.cons_append, List.cons_append, hall, hone, ih, hlines]
        rfl

/-- A text has at most as many lines as characters. -/
theorem length_lines_le (s : Str) : (lines s).length ≤ s.length := by
  induction s with
  | nil => exact Nat.le_refl 0
  | cons c s ih =>
    rw [lines.eq_def]
    split
    · exact Nat.zero_le _
    · rename_i heq
      obtain ⟨-, rfl⟩ := List.cons.inj heq
      exact Nat.succ_le_succ ih
    · rename_i rest heq
      obtain ⟨-, hs⟩ := List.cons.inj heq
      have hline : (lines ('\n' :: rest)).length = (lines rest).length + 1 := rfl
      rw [hs, hline] at ih
      rw [List.length_cons, List.length_cons]
      exact Nat.le_succ_of_le (hs ▸ ih)
    · rename_i heq
      obtain ⟨rfl, rfl⟩ := List.cons.inj heq
      split
      · exact Nat.succ_le_succ (Nat.zero_le _)
      · rename_i hlines
        rw [hlines] at ih
        exact Nat.le_succ_of_le ih

/-- A text without an end of line is one line. -/
theorem lines_of_not_mem {s : Str} (hne : s ≠ []) (h : '\n' ∉ s) : lines s = [s] := by
  induction s with
  | nil => exact absurd rfl hne
  | cons c s ih =>
    rw [lines.eq_def]
    split
    · rename_i heq
      cases heq
    · rename_i heq
      exact absurd ((List.cons.inj heq).1 ▸ List.mem_cons_self) h
    · rename_i more heq
      obtain ⟨rfl, rfl⟩ := List.cons.inj heq
      exact absurd (List.mem_cons_of_mem _ List.mem_cons_self) h
    · rename_i heq
      obtain ⟨rfl, rfl⟩ := List.cons.inj heq
      cases s with
      | nil => rfl
      | cons d s => rw [ih (List.cons_ne_nil d s) fun hmem => h (List.mem_cons_of_mem _ hmem)]

/-- The first line, but for whitespace at its end. -/
theorem lines_cons_trim {l rest : Str} (h : '\n' ∉ l) :
    ∃ line, lines (l ++ '\n' :: rest) = line :: lines rest ∧ trim line = trim l := by
  obtain ⟨line, hline, hl⟩ := @lines_cons l rest h
  refine ⟨line, hline, ?_⟩
  rcases hl with rfl | rfl
  · rfl
  · have hreturn : ∀ c ∈ ['\r'], isWhitespace c = true := forall_of_all rfl
    have hnone : ∀ c ∈ ([] : Str), isWhitespace c = true := fun _ h => absurd h List.not_mem_nil
    exact (trim_blanks hnone hreturn).symm

/-- Lines are read back up to whitespace at their ends. -/
theorem lines_trimmed {ls : List Str} (h : ∀ l ∈ ls, '\n' ∉ l) :
    (lines (ls.flatMap (· ++ ['\n']))).map trim = ls.map trim := by
  induction ls with
  | nil => rfl
  | cons l ls ih =>
    obtain ⟨line, hline, htrim⟩ :=
      @lines_cons_trim l (ls.flatMap (· ++ ['\n'])) (h l List.mem_cons_self)
    have hmore := ih fun l' hl' => h l' (List.mem_cons_of_mem _ hl')
    rw [List.flatMap_cons, List.append_assoc, List.singleton_append, hline, List.map_cons, hmore,
      htrim, List.map_cons]

/-- The parts before and after the first character with the property. -/
def splitOnce (p : Char → Bool) : Str → Option (Str × Str)
  | [] => none
  | c :: rest => if p c then some ([], rest) else (splitOnce p rest).map fun (a, b) => (c :: a, b)

/-- The parts before and after the last occurrence of `c`. -/
def rsplitOnce (c : Char) (s : Str) : Option (Str × Str) :=
  (splitOnce (· == c) s.reverse).map fun (a, b) => (b.reverse, a.reverse)

/-- A split is at the first character as wanted. -/
theorem splitOnce_eq_some {p : Char → Bool} {s a b : Str} (h : splitOnce p s = some (a, b)) :
    ∃ c, s = a ++ c :: b ∧ p c ∧ ∀ x ∈ a, p x = false := by
  induction s generalizing a with
  | nil => cases h
  | cons x rest ih =>
    rw [splitOnce] at h
    split at h
    · rename_i hx
      cases h
      exact ⟨x, rfl, hx, fun _ hy => (List.not_mem_nil hy).elim⟩
    · rename_i hx
      obtain ⟨⟨a', b'⟩, hr, he⟩ := Option.map_eq_some_iff.mp h
      obtain ⟨rfl, rfl⟩ := Prod.mk.inj he
      obtain ⟨c, hs, hc, ha⟩ := ih hr
      refine ⟨c, by rw [hs, List.cons_append], hc, ?_⟩
      rintro y (_ | ⟨_, hy⟩)
      · exact Bool.eq_false_iff.mpr hx
      · exact ha y hy

/-- There is no split exactly if no character is as wanted. -/
theorem splitOnce_eq_none {p : Char → Bool} {s : Str} :
    splitOnce p s = none ↔ ∀ x ∈ s, p x = false := by
  induction s with
  | nil => simp [splitOnce]
  | cons x rest ih =>
    rw [splitOnce]
    by_cases hx : p x <;> simp [hx, ih]

/-- A text is split behind characters that are not as wanted. -/
theorem splitOnce_append {p : Char → Bool} {a b : Str} {c : Char} (ha : ∀ x ∈ a, p x = false)
    (hc : p c) : splitOnce p (a ++ c :: b) = some (a, b) := by
  induction a with
  | nil => simp [splitOnce, hc]
  | cons x a ih =>
    have hx : p x = false := ha x List.mem_cons_self
    rw [List.cons_append, splitOnce, hx, ih fun y hy => ha y (List.mem_cons_of_mem _ hy)]
    rfl

/-- The split is at the last occurrence. -/
theorem rsplitOnce_eq_some {c : Char} {s a b : Str} (h : rsplitOnce c s = some (a, b)) :
    s = a ++ c :: b ∧ c ∉ b := by
  obtain ⟨⟨u, v⟩, hs, he⟩ := Option.map_eq_some_iff.mp h
  obtain ⟨rfl, rfl⟩ := Prod.mk.inj he
  obtain ⟨x, hr, hx, hu⟩ := splitOnce_eq_some hs
  obtain rfl : x = c := by simpa using hx
  constructor
  · have := congrArg List.reverse hr
    simpa using this
  · intro hmem
    have := hu x (List.mem_reverse.mp hmem)
    simp at this

/-- There is no split exactly if the character is not there. -/
theorem rsplitOnce_eq_none {c : Char} {s : Str} : rsplitOnce c s = none ↔ c ∉ s := by
  rw [rsplitOnce, Option.map_eq_none_iff, splitOnce_eq_none]
  simp only [List.mem_reverse, beq_eq_false_iff_ne]
  exact ⟨fun h hc => h c hc rfl, fun h x hx he => h (he ▸ hx)⟩

/-- The parts between the occurrences of `c`; at least one part. -/
def split (c : Char) (s : Str) : List Str := s.splitOn c

/-- No part contains the separator. -/
theorem not_mem_of_mem_split {c : Char} {s part : Str} (h : part ∈ split c s) : c ∉ part := by
  unfold split at h
  induction s generalizing part with
  | nil =>
    obtain rfl : part = [] := by simpa using h
    exact List.not_mem_nil
  | cons x rest ih =>
    rw [List.splitOn_cons_eq_if_modifyHead] at h
    split at h
    · rcases List.mem_cons.mp h with rfl | h
      · exact List.not_mem_nil
      · exact ih h
    · rename_i hx
      obtain ⟨first, more, hfirst⟩ := List.exists_cons_of_ne_nil (List.splitOn_ne_nil c rest)
      rw [hfirst, List.modifyHead_cons] at h
      rcases List.mem_cons.mp h with rfl | h
      · have hmem : c ∉ first := ih (by rw [hfirst]; exact List.mem_cons_self)
        have hne : c ≠ x := fun he => hx (by rw [he, beq_self_eq_true])
        exact List.not_mem_cons_of_ne_of_not_mem hne hmem
      · exact ih (by rw [hfirst]; exact List.mem_cons_of_mem _ h)

/-- The part after the last `c`, or everything. -/
def afterLast (c : Char) (s : Str) : Str :=
  match rsplitOnce c s with
  | some (_, rest) => rest
  | none => s

/-- The text after a prefix, if it has that prefix. -/
def stripPrefix (p s : Str) : Option Str := if p <+: s then some (s.drop p.length) else none

/-- What stands behind the start is left. -/
theorem stripPrefix_append (p s : Str) : stripPrefix p (p ++ s) = some s := by
  rw [stripPrefix, if_pos (List.prefix_append p s), List.drop_left]

/-- A start is taken off exactly if the text begins with it. -/
theorem stripPrefix_eq_some {p s rest : Str} : stripPrefix p s = some rest ↔ s = p ++ rest := by
  constructor
  · intro h
    unfold stripPrefix at h
    split at h
    · rename_i hpre
      obtain ⟨t, rfl⟩ := hpre
      rw [List.drop_left] at h
      rw [Option.some.inj h]
    · cases h
  · rintro rfl
    exact stripPrefix_append p rest

/-- Does the text start with `p`? -/
def startsWith (s p : Str) : Bool := p.isPrefixOf s

/-- The test for a start decides whether the text begins with it. -/
theorem startsWith_iff {s p : Str} : startsWith s p = true ↔ p <+: s := List.isPrefixOf_iff_prefix

/-- Does the text end with `p`? -/
def endsWith (s p : Str) : Bool := p.isSuffixOf s

/-- The last character is the one that is asked for. -/
theorem endsWith_concat (s : Str) (c d : Char) : endsWith (s ++ [c]) [d] = (c == d) := by
  rw [Bool.eq_iff_iff, endsWith, List.isSuffixOf_iff_suffix, beq_iff_eq]
  constructor
  · rintro ⟨t, ht⟩
    have hlast := congrArg List.getLast? ht
    simpa [eq_comm] using hlast
  · rintro rfl
    exact ⟨s, rfl⟩

/-- Does the text contain `p`? -/
def contains (s p : Str) : Bool := s.tails.any fun t => p.isPrefixOf t

/-- Remove a suffix as long as it is there. -/
def trimEndMatches (p s : Str) : Str := go s.length s
where
  /-- At most `fuel` removals; every one shortens the text. -/
  go : Nat → Str → Str
    | 0, s => s
    | fuel + 1, s => if p ≠ [] ∧ p <:+ s then go fuel (s.take (s.length - p.length)) else s

/-- The loop takes copies off the end until none is left. -/
private theorem trimEndMatches_go {p : Str} (hp : p ≠ []) {fuel : Nat} {s : Str}
    (h : s.length ≤ fuel) :
    (∃ k, s = trimEndMatches.go p fuel s ++ (List.replicate k p).flatten) ∧
      ¬ p <:+ trimEndMatches.go p fuel s := by
  induction fuel generalizing s with
  | zero =>
    obtain rfl := List.length_eq_zero_iff.mp (Nat.le_zero.mp h)
    exact ⟨⟨0, rfl⟩, fun hsuf => hp (List.suffix_nil.mp hsuf)⟩
  | succ fuel ih =>
    rw [trimEndMatches.go]
    split
    · rename_i hsuf
      obtain ⟨t, rfl⟩ := hsuf.2
      have hpos := List.length_pos_iff.mpr hp
      have htake : (t ++ p).take ((t ++ p).length - p.length) = t := by
        rw [List.length_append, Nat.add_sub_cancel, List.take_left]
      have hlen : t.length ≤ fuel := by
        rw [List.length_append] at h
        omega
      rw [htake]
      obtain ⟨⟨k, hk⟩, hnot⟩ := ih hlen
      refine ⟨⟨k + 1, ?_⟩, hnot⟩
      have hflat : (List.replicate (k + 1) p).flatten = (List.replicate k p).flatten ++ p := by
        rw [List.replicate_succ', List.flatten_append, List.flatten_singleton]
      rw [hflat, ← List.append_assoc, ← hk]
    · rename_i hsuf
      exact ⟨⟨0, (List.append_nil _).symm⟩, fun h => hsuf ⟨hp, h⟩⟩

/-- What is left does not end in the suffix, and copies of the suffix follow it. -/
theorem trimEndMatches_spec {p : Str} (hp : p ≠ []) (s : Str) :
    (∃ k, s = trimEndMatches p s ++ (List.replicate k p).flatten) ∧ ¬ p <:+ trimEndMatches p s :=
  trimEndMatches_go hp (Nat.le_refl _)

/-- Texts that do not end in the pattern differ in their copies only. -/
private theorem eq_of_append_copies {p u v : Str} {k j : Nat} (hu : ¬ p <:+ u) (hv : ¬ p <:+ v)
    (h : u ++ (List.replicate k p).flatten = v ++ (List.replicate j p).flatten) : u = v := by
  induction k generalizing j with
  | zero =>
    cases j with
    | zero => simpa using h
    | succ j =>
      refine absurd ⟨v ++ (List.replicate j p).flatten, ?_⟩ hu
      simpa [List.replicate_succ', List.append_assoc] using h.symm
  | succ k ih =>
    cases j with
    | zero =>
      refine absurd ⟨u ++ (List.replicate k p).flatten, ?_⟩ hv
      simpa [List.replicate_succ', List.append_assoc] using h
    | succ j =>
      simp only [List.replicate_succ', List.flatten_append, List.flatten_singleton,
        ← List.append_assoc] at h
      exact ih (List.append_cancel_right h)

/-- Removing a suffix as long as it is there has one result. -/
theorem trimEndMatches_eq_iff {p : Str} (hp : p ≠ []) {s v : Str} :
    trimEndMatches p s = v ↔ (∃ k, s = v ++ (List.replicate k p).flatten) ∧ ¬ p <:+ v := by
  constructor
  · rintro rfl
    exact trimEndMatches_spec hp s
  · rintro ⟨⟨k, hk⟩, hv⟩
    obtain ⟨⟨j, hj⟩, hnot⟩ := trimEndMatches_spec hp s
    exact eq_of_append_copies hnot hv (hj.symm.trans hk)

/-- The words between runs of whitespace. -/
def splitWhitespace (s : Str) : List Str := (s.splitOnP isWhitespace).filter (· ≠ [])

/-- The texts with `sep` between neighbours. -/
def join (sep : Str) (parts : List Str) : Str := sep.intercalate parts

/-- A separator stands between the first two pieces. -/
theorem join_cons_cons (sep a b : Str) (rest : List Str) :
    join sep (a :: b :: rest) = a ++ sep ++ join sep (b :: rest) := by
  simp [join, List.intercalate, List.intersperse]

/-- A character of a piece is one of the whole. -/
private theorem mem_join_of_mem {sep piece : Str} {pieces : List Str} {c : Char}
    (hpiece : piece ∈ pieces)
    (hc : c ∈ piece) : c ∈ join sep pieces := by
  induction pieces with
  | nil => cases hpiece
  | cons p pieces ih =>
    cases pieces with
    | nil =>
      obtain rfl := List.mem_singleton.mp hpiece
      exact List.mem_append_left _ hc
    | cons q pieces =>
      rw [join_cons_cons, List.append_assoc]
      rcases List.mem_cons.mp hpiece with rfl | hpiece
      · exact List.mem_append_left _ hc
      · exact List.mem_append_right _ (List.mem_append_right _ (ih hpiece))

/-- A character of the whole is one of the separator or of a piece. -/
theorem mem_or_mem_of_mem_join {sep : Str} {pieces : List Str} {c : Char}
    (hc : c ∈ join sep pieces) : c ∈ sep ∨ ∃ piece ∈ pieces, c ∈ piece := by
  induction pieces with
  | nil => cases hc
  | cons p pieces ih =>
    cases pieces with
    | nil => exact Or.inr ⟨p, List.mem_cons_self, by simpa [join, List.intercalate] using hc⟩
    | cons q pieces =>
      rw [join_cons_cons, List.append_assoc] at hc
      rcases List.mem_append.mp hc with hc | hc
      · exact Or.inr ⟨p, List.mem_cons_self, hc⟩
      · rcases List.mem_append.mp hc with hc | hc
        · exact Or.inl hc
        · obtain hsep | ⟨piece, hpiece, hmem⟩ := ih hc
          · exact Or.inl hsep
          · exact Or.inr ⟨piece, List.mem_cons_of_mem _ hpiece, hmem⟩

/-- A character of a piece is one of the text. -/
theorem mem_of_mem_split {sep c : Char} {s piece : Str} (hpiece : piece ∈ split sep s)
    (hc : c ∈ piece) : c ∈ s := by
  have hjoin : join [sep] (split sep s) = s := List.intercalate_splitOn sep
  rw [← hjoin]
  exact mem_join_of_mem hpiece hc

/-- A run over lines that trims them and skips the empty ones is one over the rows of the
text, whether or not the last row is ended. -/
theorem foldl_lines_join {β : Type} {f : β → Str → β} (htrim : ∀ b l, f b l = f b (trim l))
    (hnil : ∀ b, f b [] = b) {rows : List Str} (h : ∀ row ∈ rows, '\n' ∉ row) (b : β) :
    (lines (join ['\n'] rows)).foldl f b = rows.foldl f b := by
  induction rows generalizing b with
  | nil => rfl
  | cons row rows ih =>
    have hrow := h row List.mem_cons_self
    cases rows with
    | nil =>
      have hjoin : join ['\n'] [row] = row := List.append_nil row
      rw [hjoin]
      cases row with
      | nil => exact (hnil b).symm
      | cons c row => rw [lines_of_not_mem (List.cons_ne_nil c row) hrow]
    | cons next rows =>
      obtain ⟨line, hline, hsame⟩ := @lines_cons_trim row (join ['\n'] (next :: rows)) hrow
      rw [join_cons_cons, List.append_assoc, List.singleton_append, hline, List.foldl_cons,
        List.foldl_cons, htrim, hsame, ← htrim]
      exact ih (fun r hr => h r (List.mem_cons_of_mem _ hr)) _

/-- ASCII letters in lower case. -/
def toAsciiLowercase (s : Str) : Str := s.map Char.toLower

/-- Whitespace has no letter case. -/
theorem toLower_of_isWhitespace {c : Char} (h : isWhitespace c = true) : c.toLower = c := by
  refine dif_neg fun hupper => ?_
  have hrange : 65 ≤ c.toNat ∧ c.toNat ≤ 90 := hupper
  simp only [isWhitespace, Bool.or_eq_true, Bool.and_eq_true, decide_eq_true_eq] at h
  omega

/-- Equality up to the case of ASCII letters. -/
def eqIgnoreAsciiCase (a b : Str) : Bool := toAsciiLowercase a == toAsciiLowercase b

/-- Decimal text of a number. -/
def dec (n : Nat) : Str := Nat.toDigits 10 n

/-- A number is written in digits. -/
theorem isDigit_of_mem_dec {n : Nat} {c : Char} (h : c ∈ dec n) : c.isDigit = true :=
  Nat.isDigit_of_mem_toDigits (by decide) (by decide) h

/-- The digits are next to each other. -/
theorem digit_bounds {c : Char} (h : c.isDigit = true) : 48 ≤ c.toNat ∧ c.toNat ≤ 57 := by
  simp only [Char.isDigit, Bool.and_eq_true, decide_eq_true_eq, ge_iff_le,
    UInt32.le_iff_toNat_le] at h
  exact h

/-- A digit is no whitespace. -/
theorem not_isWhitespace_of_isDigit {c : Char} (h : c.isDigit = true) : isWhitespace c = false := by
  have hrange := digit_bounds h
  simp only [isWhitespace, Bool.or_eq_false_iff, Bool.and_eq_false_iff, decide_eq_false_iff_not]
  omega

/-- A number is left as it is by trimming. -/
theorem trim_dec (n : Nat) : trim (dec n) = dec n :=
  trim_eq_self fun _ hc => not_isWhitespace_of_isDigit (isDigit_of_mem_dec hc)

/-- A number has a digit. -/
theorem dec_ne_nil (n : Nat) : dec n ≠ [] := Nat.toDigits_ne_nil

/-- What stands in front of a separator is read back if it is a number. -/
theorem splitOnce_dec {c : Char} (hc : c.isDigit = false) (n : Nat) (rest : Str) :
    splitOnce (· == c) (dec n ++ c :: rest) = some (dec n, rest) := by
  apply splitOnce_append
  · intro x hx
    rw [beq_eq_false_iff_ne]
    rintro rfl
    rw [isDigit_of_mem_dec hx] at hc
    cases hc
  · exact beq_self_eq_true c

/-- Lower-case hexadecimal text of a number, padded with zeroes to `width`. -/
def hex (width n : Nat) : Str :=
  let digits := Nat.toDigits 16 n
  List.replicate (width - digits.length) '0' ++ digits

/-- Unsigned 64-bit number from a text: an optional `+` and at least one decimal digit. -/
def parseUsize (s : Str) : Option Nat :=
  let digits := match s with
    | '+' :: rest => rest
    | _ => s
  if digits ≠ [] ∧ digits.all Char.isDigit then
    let n := Nat.ofDigitChars 10 digits 0
    if n < 2 ^ 64 then some n else none
  else none

/-- What is parsed is a machine integer. -/
theorem parseUsize_lt {s : Str} {n : Nat} (h : parseUsize s = some n) : n < 2 ^ 64 := by
  unfold parseUsize at h
  extract_lets digits at h
  split_ifs at h with _ hlt
  obtain rfl := Option.some.inj h
  exact hlt

/-- Decimal digits are read as the number they spell, if it fits. -/
theorem parseUsize_digits {ds : Str} (hne : ds ≠ []) (hdigits : ∀ c ∈ ds, c.isDigit = true) :
    parseUsize ds =
      if Nat.ofDigitChars 10 ds 0 < 2 ^ 64 then some (Nat.ofDigitChars 10 ds 0) else none := by
  have hplus : ∀ rest, ds ≠ '+' :: rest := by
    rintro rest rfl
    exact absurd (hdigits '+' List.mem_cons_self) (by decide)
  have hall : ds.all Char.isDigit = true := List.all_eq_true.mpr hdigits
  simp only [parseUsize, hall]
  exact if_pos ⟨hne, trivial⟩

/-- The decimal text of a number is read as that number. -/
theorem parseUsize_dec {n : Nat} (h : n < 2 ^ 64) : parseUsize (dec n) = some n := by
  have hvalue : Nat.ofDigitChars 10 (dec n) 0 = n := Nat.ofDigitChars_ten_toDigits
  rw [parseUsize_digits (dec_ne_nil n) fun c hc => isDigit_of_mem_dec hc, hvalue, if_pos h]

end Str
