import BootExtractor.Boot.GrubShape
import BootExtractor.Boot.GrubWords

/-!
# Nested menus

A file whose submenus may hold submenus to any depth, with other blocks and lines anywhere.
The places that the machine gives to its entries are those of a walk over the tree, with
one counter and one slot for an open submenu.
-/

namespace BootExtractor.Boot.Grub

section Text

/-- A bare word that can start a line. -/
structure IsKeyword (kw : Str) : Prop where
  ne_nil : kw ≠ []
  clean : ∀ c ∈ kw, Str.isWhitespace c = false ∧ c ≠ '\'' ∧ c ≠ '"'
  noComment : kw.head? ≠ some '#'

/-- A keyword of a block that is no entry and no submenu. -/
structure IsOther (kw : Str) : Prop extends IsKeyword kw where
  noEntry : kw ≠ "menuentry".toList
  noSubmenu : kw ≠ "submenu".toList

/-- A line that opens a block: a keyword, anything, and a brace at the end. -/
structure Header (kw : Str) where
  indent : Str
  gap : Char
  rest : Str
  trail : Str
  indent_blank : IsBlank indent
  gap_blank : Str.isWhitespace gap = true ∧ gap ≠ '\n'
  rest_line : '\n' ∉ rest
  trail_blank : IsBlank trail

/-- A lone brace that closes a block. -/
structure Closer where
  indent : Str
  trail : Str
  indent_blank : IsBlank indent
  trail_blank : IsBlank trail

/-- A line without braces that count: blank, a comment, or a command. -/
structure Plain where
  text : Str
  oneLine : '\n' ∉ text
  harmless : Str.startsWith (Str.trim text) "#".toList = true ∨
    Str.endsWith (Str.trim text) "\x7b".toList = false ∧ Str.trim text ≠ "\x7d".toList

/-- What stands inside of an entry or of another block. -/
inductive Body where
  | done
  | line (p : Plain) (next : Body)
  | block {kw : Str} (hkw : IsOther kw) (h : Header kw) (inner : Body) (c : Closer) (next : Body)

/-- A file, or the inside of a submenu: lines, blocks, entries and submenus in a row. -/
inductive Forest where
  | done
  | line (p : Plain) (next : Forest)
  | block {kw : Str} (hkw : IsOther kw) (h : Header kw) (inner : Body) (c : Closer) (next : Forest)
  | entry (h : Header "menuentry".toList) (inner : Body) (c : Closer) (next : Forest)
  | submenu (h : Header "submenu".toList) (inner : Forest) (c : Closer) (next : Forest)

variable {kw : Str}

/-- The command of a header, without the blanks around it. -/
def Header.command (h : Header kw) : Str := kw ++ h.gap :: (h.rest ++ "\x7b".toList)

/-- The line as it stands in the file. -/
def Header.text (h : Header kw) : Str := h.indent ++ h.command ++ h.trail

/-- The line as it stands in the file. -/
def Closer.text (c : Closer) : Str := c.indent ++ "\x7d".toList ++ c.trail

/-- The word behind the keyword. -/
def Header.title (h : Header kw) : Option Str := (splitWords h.command)[1]?

/-- The lines of a body, in order. -/
def Body.lines : Body → List Str
  | done => []
  | line p next => p.text :: next.lines
  | block _ h inner c next => h.text :: (inner.lines ++ c.text :: next.lines)

/-- The lines of a forest, in order. -/
def Forest.lines : Forest → List Str
  | done => []
  | line p next => p.text :: next.lines
  | block _ h inner c next => h.text :: (inner.lines ++ c.text :: next.lines)
  | entry h inner c next => h.text :: (inner.lines ++ c.text :: next.lines)
  | submenu h inner c next => h.text :: (inner.lines ++ c.text :: next.lines)

/-- The file that a forest is written to. -/
def Forest.text (f : Forest) : Str := Str.join ['\n'] f.lines

/-- The keyword of an entry is a keyword. -/
theorem isKeyword_menuentry : IsKeyword "menuentry".toList :=
  ⟨List.cons_ne_nil _ _, Str.forall_of_all rfl, by decide⟩

/-- The keyword of a submenu is a keyword. -/
theorem isKeyword_submenu : IsKeyword "submenu".toList :=
  ⟨List.cons_ne_nil _ _, Str.forall_of_all rfl, by decide⟩

end Text

section Kinds

variable {kw : Str}

/-- Trimmed, a header line is its command. -/
theorem Header.trim_text (hkw : IsKeyword kw) (h : Header kw) : Str.trim h.text = h.command := by
  rw [text, Str.trim_blanks (fun c hc => (h.indent_blank c hc).1) fun c hc =>
    (h.trail_blank c hc).1]
  refine Str.trim_ends (fun c hc => ?_) fun c hc => ?_
  · rw [command, List.head?_append_of_ne_nil _ hkw.ne_nil] at hc
    exact (hkw.clean c (List.mem_of_mem_head? hc)).1
  · have hbrace : h.command.getLast? = some '\x7b' := by
      rw [command, ← List.cons_append, ← List.append_assoc]
      exact List.getLast?_concat
    obtain rfl : '\x7b' = c := Option.some.inj (hbrace.symm.trans hc)
    rfl

/-- The first word of a header line is its keyword. -/
theorem Header.splitWords_command (hkw : IsKeyword kw) (h : Header kw) :
    ∃ more, splitWords h.command = kw :: more := by
  have hgap := h.gap_blank.1
  have hsingle : h.gap ≠ '\'' := by
    intro he
    rw [he] at hgap
    exact absurd hgap (by decide)
  have hdouble : h.gap ≠ '"' := by
    intro he
    rw [he] at hgap
    exact absurd hgap (by decide)
  refine ⟨splitWordsFrom false false [] (h.rest ++ "\x7b".toList), ?_⟩
  rw [splitWords, command, reads_bare hkw.clean [], List.nil_append, splitWordsFrom,
    if_neg fun hc => hsingle hc.1, if_neg fun hc => hdouble hc.1, if_pos ⟨hgap, rfl, rfl⟩,
    if_neg hkw.ne_nil]
  rfl

/-- A header line is neither blank nor a comment. -/
theorem Header.not_comment (hkw : IsKeyword kw) (h : Header kw) :
    ¬ (h.command = [] ∨ Str.startsWith h.command "#".toList = true) := by
  have hhead : h.command.head? = kw.head? := by
    rw [command, List.head?_append_of_ne_nil _ hkw.ne_nil]
  rintro (hnil | hstart)
  · rw [hnil] at hhead
    exact hkw.ne_nil (List.head?_eq_none_iff.mp hhead.symm)
  · obtain ⟨rest, hrest⟩ := Str.startsWith_iff.mp hstart
    rw [← hrest] at hhead
    exact hkw.noComment hhead.symm

/-- A header opens what its keyword says. -/
theorem Header.kindOf_text (hkw : IsKeyword kw) (h : Header kw) :
    kindOf h.text =
      if kw = "menuentry".toList then .openEntry h.title
      else if kw = "submenu".toList then .openSubmenu
      else .openOther := by
  obtain ⟨more, hwords⟩ := h.splitWords_command hkw
  have hopen : Str.endsWith h.command "\x7b".toList = true := by
    rw [command, ← List.cons_append, ← List.append_assoc]
    exact Str.endsWith_concat _ '\x7b' '\x7b'
  have hne : splitWords h.command ≠ [] := by
    rw [hwords]
    exact List.cons_ne_nil _ _
  rw [kindOf]
  simp only [h.trim_text hkw]
  rw [if_neg (h.not_comment hkw), if_neg hne, kindOfWords, if_pos hopen, Header.title, hwords]
  rfl

/-- The header of an entry opens an entry. -/
theorem Header.kindOf_entry (h : Header "menuentry".toList) :
    kindOf h.text = .openEntry h.title := h.kindOf_text isKeyword_menuentry

/-- The header of a submenu opens a submenu. -/
theorem Header.kindOf_submenu (h : Header "submenu".toList) : kindOf h.text = .openSubmenu := by
  rw [h.kindOf_text isKeyword_submenu, if_neg (by decide), if_pos rfl]

/-- The header of any other block opens a block without an effect. -/
theorem Header.kindOf_other (hkw : IsOther kw) (h : Header kw) : kindOf h.text = .openOther := by
  rw [h.kindOf_text hkw.toIsKeyword, if_neg hkw.noEntry, if_neg hkw.noSubmenu]

/-- Trimmed, a closing line is its brace. -/
theorem Closer.trim_text (c : Closer) : Str.trim c.text = "\x7d".toList := by
  rw [text, Str.trim_blanks (fun x hx => (c.indent_blank x hx).1) fun x hx =>
    (c.trail_blank x hx).1]
  rfl

/-- A closing line closes a block. -/
theorem Closer.kindOf_text (c : Closer) : kindOf c.text = .close := by
  rw [kindOf]
  simp only [c.trim_text]
  decide

/-- A plain line neither opens nor closes a block. -/
theorem Plain.kindOf_text (p : Plain) : kindOf p.text = .quiet := by
  rw [kindOf]
  split
  · rfl
  · split
    · rfl
    · rename_i hcomment _
      rcases p.harmless with hstart | ⟨hopen, hclose⟩
      · exact absurd (Or.inr hstart) hcomment
      · rw [kindOfWords, hopen, if_neg Bool.false_ne_true, if_neg hclose]

end Kinds

namespace Shape

/-- The open blocks were opened outside of the present one. -/
structure Inner (s : Shape) : Prop where
  submenu : ∀ o ∈ s.submenu, o.1 < s.depth
  current : ∀ o ∈ s.current, o.1 < s.depth

variable {s : Shape}

/-- A shape inside of its blocks stays so one block further in. -/
theorem Inner.deeper (h : s.Inner) : s.deeper.Inner :=
  ⟨fun o ho => Int.lt_trans (h.submenu o ho) (Int.lt_succ _),
    fun o ho => Int.lt_trans (h.current o ho) (Int.lt_succ _)⟩

/-- Closing a block that was just opened. -/
theorem Inner.close_deeper (h : s.Inner) : s.deeper.close = s := by
  have hdepth : s.deeper.depth - 1 = s.depth := Int.add_sub_cancel s.depth 1
  have hleft : s.closeSubmenu = s := by
    unfold closeSubmenu
    split
    · rename_i d _ _ hopen
      exact if_neg (Int.ne_of_gt (h.submenu _ hopen))
    · rfl
  unfold close
  simp only [hdepth]
  split
  · rename_i d p hopen
    exact (if_neg (Int.ne_of_gt (h.current _ hopen))).trans hleft
  · exact hleft

end Shape

/-- The inside of an entry or of another block changes nothing. -/
theorem Body.foldl_kinds (b : Body) {s : Shape} (h : s.Inner) :
    (b.lines.map kindOf).foldl Shape.step s = s := by
  induction b generalizing s with
  | done => rfl
  | line p next ih =>
    rw [Body.lines, List.map_cons, List.foldl_cons, p.kindOf_text]
    exact ih h
  | block hkw header inner c next ihInner ihNext =>
    rw [Body.lines, List.map_cons, List.foldl_cons, header.kindOf_other hkw, List.map_append,
      List.foldl_append, Shape.step, ihInner h.deeper, List.map_cons, List.foldl_cons,
      c.kindOf_text, Shape.step, h.close_deeper]
    exact ihNext h

/-- The state of the walk: how many items were counted, and the open submenu with its position
and its next child. -/
structure Counter where
  count : Nat
  slot : Option (Nat × Nat)

/-- The place of the next entry. -/
def Counter.place (c : Counter) (title : Option Str) : Place :=
  match c.slot with
  | some (top, next) => ⟨title, top, some next⟩
  | none => ⟨title, c.count, none⟩

/-- The next place is taken. -/
def Counter.advance (c : Counter) : Counter :=
  match c.slot with
  | some (top, next) => ⟨c.count, some (top, next + 1)⟩
  | none => ⟨c.count + 1, none⟩

/-- The places that the entries get, and the counter behind them. -/
def Forest.walk : Forest → Counter → List Place × Counter
  | done, c => ([], c)
  | line _ next, c => next.walk c
  | block _ _ _ _ next, c => next.walk c
  | entry h _ _ next, c =>
    let rest := next.walk c.advance
    (c.place h.title :: rest.1, rest.2)
  | submenu _ inner _ next, c =>
    let children := inner.walk ⟨c.count + 1, some (c.count, 0)⟩
    let rest := next.walk ⟨children.2.count, none⟩
    (children.1 ++ rest.1, rest.2)

/-- What a shape counts: the top-level items and the submenu's children. -/
def Shape.counter (s : Shape) : Counter := ⟨s.topCount, s.submenu.map Prod.snd⟩

section Walk

variable {s : Shape}

/-- The shape after the entries of a walk. -/
structure Walked (s t : Shape) (places : List Place) (c : Counter) : Prop where
  places_eq : t.places = s.places ++ places
  depth_eq : t.depth = s.depth
  current_eq : t.current = none
  counter_eq : t.counter = c
  slot_of : ∀ o ∈ t.submenu, ∃ o' ∈ s.submenu, o.1 = o'.1

/-- Opening an entry places it and advances the counter. -/
theorem openEntry_eq (s : Shape) (title : Option Str) :
    s.openEntry title =
      { s with
        topCount := s.counter.advance.count
        submenu := s.submenu.map fun o => (o.1, o.2.1, o.2.2 + 1)
        current := some (s.depth, s.counter.place title) } := by
  unfold Shape.openEntry Shape.counter Counter.place Counter.advance
  cases s.submenu <;> rfl

private theorem counter_openEntry (s : Shape) (title : Option Str) :
    (s.openEntry title).counter = s.counter.advance := by
  unfold Shape.openEntry Shape.counter Counter.advance
  cases s.submenu <;> rfl

/-- An entry is open inside of its own block. -/
theorem inner_openEntry (h : s.Inner) (title : Option Str) :
    (s.openEntry title).deeper.Inner := by
  rw [openEntry_eq]
  constructor
  · intro o ho
    obtain ⟨o', ho', rfl⟩ := Option.map_eq_some_iff.mp ho
    exact Int.lt_trans (h.submenu o' ho') (Int.lt_succ _)
  · rintro o ⟨⟩
    exact Int.lt_succ _

/-- An entry takes the place of the counter. -/
theorem walked_entry (h : s.current = none) (hin : s.Inner) (header : Header "menuentry".toList)
    (inner : Body) (c : Closer) :
    Walked s (((header.text :: (inner.lines ++ [c.text])).map kindOf).foldl Shape.step s)
      [s.counter.place header.title] s.counter.advance := by
  have hopened : s.step (.openEntry header.title) = (s.openEntry header.title).deeper := by
    rw [Shape.step, h]
    rfl
  have hcounter := counter_openEntry s header.title
  have hdepth : s.depth + 1 - 1 = s.depth := Int.add_sub_cancel s.depth 1
  rw [List.map_cons, List.foldl_cons, header.kindOf_entry, hopened, List.map_append,
    List.foldl_append, inner.foldl_kinds (inner_openEntry hin header.title), List.map_singleton,
    List.foldl_cons, List.foldl_nil, c.kindOf_text, Shape.step]
  rw [openEntry_eq] at hcounter ⊢
  simp only [Shape.deeper, Shape.close, hdepth, if_true]
  refine ⟨rfl, rfl, rfl, hcounter, fun o ho => ?_⟩
  obtain ⟨o', ho', rfl⟩ := Option.map_eq_some_iff.mp ho
  exact ⟨o', ho', rfl⟩

/-- A submenu is open inside of its own block. -/
theorem inner_openSubmenu (h : s.current = none) : s.openSubmenu.deeper.Inner := by
  have hcurrent : s.openSubmenu.deeper.current = none := h
  refine ⟨?_, fun o ho => ?_⟩
  · rintro o ⟨⟩
    exact Int.lt_succ _
  · rw [hcurrent] at ho
    cases ho

/-- The inside of a submenu, between its lines. -/
theorem walked_submenu (h : s.current = none) (header : Header "submenu".toList) (c : Closer)
    {inner : List Str} {places : List Place} {t : Shape} {k : Counter}
    (hinner : (inner.map kindOf).foldl Shape.step s.openSubmenu.deeper = t)
    (hwalked : Walked s.openSubmenu.deeper t places k) :
    Walked s (((header.text :: (inner ++ [c.text])).map kindOf).foldl Shape.step s)
      places ⟨k.count, none⟩ := by
  have hopened : s.step .openSubmenu = s.openSubmenu.deeper := by
    rw [Shape.step, h]
    rfl
  have hdepth : t.depth - 1 = s.depth := by
    rw [hwalked.depth_eq]
    exact Int.add_sub_cancel s.depth 1
  have hclosed : t.close = { t with depth := s.depth, submenu := none } := by
    unfold Shape.close
    simp only [hwalked.current_eq, hdepth, Shape.closeSubmenu]
    split
    · rename_i d top next hopen
      obtain ⟨o', ⟨⟩, rfl⟩ := hwalked.slot_of _ hopen
      exact if_pos rfl
    · rename_i hopen
      rw [hopen]
  rw [List.map_cons, List.foldl_cons, header.kindOf_submenu, hopened, List.map_append,
    List.foldl_append, hinner, List.map_singleton, List.foldl_cons, List.foldl_nil, c.kindOf_text,
    Shape.step, hclosed]
  refine ⟨hwalked.places_eq, rfl, hwalked.current_eq, ?_, fun o ho => (by cases ho)⟩
  exact congrArg (fun k => Counter.mk k none) (congrArg Counter.count hwalked.counter_eq)

/-- Two stretches of lines walk one after the other. -/
theorem Walked.trans {t u : Shape} {p p' : List Place} {k k' : Counter} (h : Walked s t p k)
    (h' : Walked t u p' k') : Walked s u (p ++ p') k' := by
  refine ⟨?_, h'.depth_eq.trans h.depth_eq, h'.current_eq, h'.counter_eq, fun o ho => ?_⟩
  · rw [h'.places_eq, h.places_eq, List.append_assoc]
  · obtain ⟨o', ho', heq⟩ := h'.slot_of o ho
    obtain ⟨o'', ho'', heq'⟩ := h.slot_of o' ho'
    exact ⟨o'', ho'', heq.trans heq'⟩

/-- Behind a walk the open submenu is still further out. -/
theorem Walked.inner {t : Shape} {p : List Place} {k : Counter} (h : Walked s t p k)
    (hin : s.Inner) : t.Inner := by
  refine ⟨fun o ho => ?_, fun o ho => ?_⟩
  · obtain ⟨o', ho', heq⟩ := h.slot_of o ho
    rw [h.depth_eq, heq]
    exact hin.submenu o' ho'
  · rw [h.current_eq] at ho
    cases ho

/-- The machine gives the places of the walk, by induction on the tree. -/
theorem Forest.walked (f : Forest) {s : Shape} (h : s.current = none) (hin : s.Inner) :
    Walked s ((f.lines.map kindOf).foldl Shape.step s) (f.walk s.counter).1
      (f.walk s.counter).2 := by
  induction f generalizing s with
  | done => exact ⟨(List.append_nil _).symm, rfl, h, rfl, fun o ho => ⟨o, ho, rfl⟩⟩
  | line p next ih =>
    rw [Forest.lines, List.map_cons, List.foldl_cons, p.kindOf_text]
    exact ih h hin
  | block hkw header inner c next ih =>
    rw [Forest.lines, List.map_cons, List.foldl_cons, header.kindOf_other hkw, List.map_append,
      List.foldl_append, Shape.step, inner.foldl_kinds hin.deeper, List.map_cons, List.foldl_cons,
      c.kindOf_text, Shape.step, hin.close_deeper]
    exact ih h hin
  | entry header inner c next ih =>
    have hentry := walked_entry h hin header inner c
    have hnext := ih hentry.current_eq (hentry.inner hin)
    rw [hentry.counter_eq] at hnext
    have hlines : (Forest.entry header inner c next).lines =
        (header.text :: (inner.lines ++ [c.text])) ++ next.lines := by
      rw [Forest.lines, List.cons_append, List.append_assoc, List.singleton_append]
    rw [hlines, List.map_append, List.foldl_append]
    exact hentry.trans hnext
  | submenu header inner c next ihInner ihNext =>
    have hcurrent : s.openSubmenu.deeper.current = none := h
    have hchildren := ihInner hcurrent (inner_openSubmenu h)
    have hsubmenu := walked_submenu h header c rfl hchildren
    have hnext := ihNext hsubmenu.current_eq (hsubmenu.inner hin)
    rw [hsubmenu.counter_eq] at hnext
    have hlines : (Forest.submenu header inner c next).lines =
        (header.text :: (inner.lines ++ [c.text])) ++ next.lines := by
      rw [Forest.lines, List.cons_append, List.append_assoc, List.singleton_append]
    rw [hlines, List.map_append, List.foldl_append]
    exact hsubmenu.trans hnext

end Walk

end BootExtractor.Boot.Grub
