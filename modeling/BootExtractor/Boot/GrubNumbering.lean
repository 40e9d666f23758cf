import BootExtractor.Boot.GrubDefault
import BootExtractor.Boot.GrubNesting

/-!
# Positions in nested menus

The line of a submenu inside of another one is counted as an item of the top level, and its
end is taken for the end of the outer one. Up to that line every entry has the position of
its item, and behind it none has.
-/

namespace BootExtractor.Boot.Grub

/-- The entries of a file in order, with the position of the item of the top level that each
is in. `k` items come before, the last of them being the one that is open `inside`. -/
def Forest.entriesFrom (inside : Bool) (k : Nat) : Forest → List (Option Str × Nat)
  | done => []
  | line _ next => next.entriesFrom inside k
  | block _ _ _ _ next => next.entriesFrom inside k
  | entry h _ _ next => (h.title, k) :: next.entriesFrom inside (if inside then k else k + 1)
  | submenu _ inner _ next =>
    inner.entriesFrom true k ++ next.entriesFrom inside (if inside then k else k + 1)

/-- The titles of the entries, with the positions of their items. -/
def Forest.entries (f : Forest) : List (Option Str × Nat) := f.entriesFrom false 0

/-- The line of an entry, or of a submenu that may be in another one. -/
inductive Mark where
  | entry
  | submenu (nested : Bool)
  deriving DecidableEq

/-- The lines of the entries and submenus of a file in order. -/
def Forest.marksFrom (inside : Bool) : Forest → List Mark
  | done => []
  | line _ next => next.marksFrom inside
  | block _ _ _ _ next => next.marksFrom inside
  | entry _ _ _ next => .entry :: next.marksFrom inside
  | submenu _ inner _ next => .submenu inside :: (inner.marksFrom true ++ next.marksFrom inside)

/-- No entry comes behind the line of a nested submenu. -/
def Undisturbed (marks : List Mark) : Prop :=
  marks.Pairwise fun a b => a = .submenu true → b ≠ .entry

section Counting

/-- The position of an entry as it is recorded. -/
def Place.key (p : Place) : Option Str × Nat := (p.title, p.top)

/-- The counter agrees with the menu. -/
inductive Agrees : Bool → Nat → Counter → Prop where
  | outside (k : Nat) : Agrees false k ⟨k, none⟩
  | inside (k next : Nat) : Agrees true k ⟨k + 1, some (k, next)⟩

/-- The counter is ahead of the menu. -/
inductive Ahead : Bool → Nat → Counter → Prop where
  | outside {k count : Nat} (h : k < count) : Ahead false k ⟨count, none⟩
  | inside {k count : Nat} {slot : Option (Nat × Nat)} (h : k + 1 < count)
      (hslot : ∀ o ∈ slot, k < o.1) : Ahead true k ⟨count, slot⟩

/-- The number of items behind a forest. -/
def Forest.after (inside : Bool) (k : Nat) : Forest → Nat
  | done => k
  | line _ next => next.after inside k
  | block _ _ _ _ next => next.after inside k
  | entry _ _ _ next => next.after inside (if inside then k else k + 1)
  | submenu _ _ _ next => next.after inside (if inside then k else k + 1)

/-- Inside of a submenu no top-level item is passed. -/
@[simp] theorem Forest.after_inside (k : Nat) (f : Forest) : f.after true k = k := by
  induction f with
  | done => rfl
  | line p next ih => exact ih
  | block hkw h inner c next ih => exact ih
  | entry h inner c next ih => exact ih
  | submenu h inner c next _ ih => exact ih

/-- The position behind an item, which is the same inside of a submenu. -/
abbrev nextItem (inside : Bool) (k : Nat) : Nat := if inside then k else k + 1

variable {inside : Bool} {k : Nat} {c : Counter}

/-- Where the counter agrees, the next entry gets its right position. -/
theorem Agrees.entry (h : Agrees inside k c) (title : Option Str) :
    (c.place title).key = (title, k) ∧ Agrees inside (nextItem inside k) c.advance := by
  cases h with
  | outside => exact ⟨rfl, .outside _⟩
  | inside => exact ⟨rfl, .inside _ _⟩

/-- Where the counter is ahead, the next entry is put too far back. -/
theorem Ahead.entry (h : Ahead inside k c) (title : Option Str) :
    k < (c.place title).top ∧ Ahead inside (nextItem inside k) c.advance := by
  cases h with
  | outside h => exact ⟨h, .outside (Nat.succ_lt_succ h)⟩
  | inside h hslot =>
    rename_i count slot
    cases slot with
    | none => exact ⟨Nat.lt_of_succ_lt h, .inside (Nat.lt_succ_of_lt h) hslot⟩
    | some o =>
      refine ⟨hslot o rfl, .inside h ?_⟩
      rintro o' ⟨⟩
      exact hslot o rfl

/-- The counter that the inside of a submenu starts with. -/
def Counter.opened (c : Counter) : Counter := ⟨c.count + 1, some (c.count, 0)⟩

/-- The counter behind the end of a submenu. -/
def Counter.closed (c : Counter) : Counter := ⟨c.count, none⟩

/-- A counter that is ahead stays ahead in a submenu. -/
theorem Ahead.opened (h : Ahead inside k c) : Ahead true k c.opened := by
  cases h with
  | outside h =>
    refine .inside (Nat.succ_lt_succ h) ?_
    rintro o ⟨⟩
    exact h
  | inside h _ =>
    refine .inside (Nat.lt_succ_of_lt h) ?_
    rintro o ⟨⟩
    exact Nat.lt_of_succ_lt h

/-- A nested submenu is counted, though it is no item of the top level. -/
theorem Agrees.opened_nested (h : Agrees true k c) : Ahead true k c.opened := by
  cases h with
  | inside =>
    refine .inside (Nat.lt_succ_self _) ?_
    rintro o ⟨⟩
    exact Nat.lt_succ_self _

/-- A counter that agrees at top level agrees in a submenu. -/
theorem Agrees.opened (h : Agrees false k c) : Agrees true k c.opened := by
  cases h with
  | outside => exact .inside k 0

/-- A counter that agrees in a submenu agrees behind it. -/
theorem Agrees.closed (h : Agrees true k c) : Agrees false (k + 1) c.closed := by
  cases h with
  | inside => exact .outside _

/-- A counter that is ahead stays ahead behind a submenu. -/
theorem Ahead.closed (h : Ahead true k c) (inside : Bool) :
    Ahead inside (nextItem inside k) c.closed := by
  cases h with
  | inside h _ =>
    cases inside with
    | false => exact .outside h
    | true => exact .inside h fun o ho => by cases ho

/-- A counter that is ahead stays ahead, and gives no entry its position. -/
theorem Ahead.walk (f : Forest) (h : Ahead inside k c) :
    List.Forall₂ (fun (p : Place) (e : Option Str × Nat) => e.2 < p.top) (f.walk c).1
        (f.entriesFrom inside k) ∧
      Ahead inside (f.after inside k) (f.walk c).2 := by
  induction f generalizing inside k c with
  | done => exact ⟨.nil, h⟩
  | line p next ih => exact ih h
  | block hkw header inner closer next ih => exact ih h
  | entry header inner closer next ih =>
    obtain ⟨hplace, hnext⟩ := h.entry header.title
    exact ⟨.cons hplace (ih hnext).1, (ih hnext).2⟩
  | submenu header inner closer next ihInner ihNext =>
    obtain ⟨hchildren, hinside⟩ := ihInner h.opened
    rw [Forest.after_inside] at hinside
    obtain ⟨hmore, hafter⟩ := ihNext (hinside.closed inside)
    exact ⟨List.rel_append hchildren hmore, hafter⟩

/-- The entries stand for the marks of entries. -/
theorem Forest.entriesFrom_eq_nil (f : Forest) (inside : Bool) (k : Nat) :
    f.entriesFrom inside k = [] ↔ .entry ∉ f.marksFrom inside := by
  induction f generalizing inside k with
  | done => simp [entriesFrom, marksFrom]
  | line p next ih => exact ih inside k
  | block hkw header inner closer next ih => exact ih inside k
  | entry header inner closer next ih => simp [entriesFrom, marksFrom]
  | submenu header inner closer next ihInner ihNext =>
    simp [entriesFrom, marksFrom, ihInner, ihNext]

/-- The walk places every entry once. -/
theorem Forest.length_walk (f : Forest) (inside : Bool) (k : Nat) (c : Counter) :
    (f.walk c).1.length = (f.entriesFrom inside k).length := by
  induction f generalizing inside k c with
  | done => rfl
  | line p next ih => exact ih inside k c
  | block hkw header inner closer next ih => exact ih inside k c
  | entry header inner closer next ih =>
    exact congrArg Nat.succ (ih inside (nextItem inside k) c.advance)
  | submenu header inner closer next ihInner ihNext =>
    simp only [walk, entriesFrom, List.length_append]
    rw [ihInner true k, ihNext inside (nextItem inside k)]

/-- Entries with a wrong position each have all their positions right only if there are none. -/
theorem map_key_eq_iff {places : List Place} {entries : List (Option Str × Nat)}
    (h : List.Forall₂ (fun (p : Place) (e : Option Str × Nat) => e.2 < p.top) places entries) :
    places.map Place.key = entries ↔ entries = [] := by
  cases h with
  | nil => exact ⟨fun _ => rfl, fun _ => rfl⟩
  | cons hlt _ =>
    constructor
    · intro heq
      obtain ⟨hkey, _⟩ := List.cons.inj heq
      exact absurd (congrArg Prod.snd hkey) (Nat.ne_of_gt hlt)
    · intro heq
      cases heq

private theorem undisturbed_of_notMem {marks : List Mark} (h : .entry ∉ marks) :
    Undisturbed marks := by
  refine List.pairwise_iff_forall_sublist.mpr fun hsub _ hb => h ?_
  exact hb ▸ hsub.subset (List.mem_cons_of_mem _ List.mem_cons_self)

/-- An entry behind a nested submenu is one of those that follow. -/
theorem undisturbed_append {front back : List Mark} :
    Undisturbed (front ++ back) ↔
      Undisturbed front ∧ Undisturbed back ∧ (.submenu true ∈ front → .entry ∉ back) := by
  rw [Undisturbed, List.pairwise_append]
  constructor
  · rintro ⟨hfront, hback, hcross⟩
    exact ⟨hfront, hback, fun hmem hentry => hcross _ hmem _ hentry rfl rfl⟩
  · rintro ⟨hfront, hback, hcross⟩
    refine ⟨hfront, hback, fun a ha b hb hnested hentry => ?_⟩
    exact hcross (hnested ▸ ha) (hentry ▸ hb)

private theorem undisturbed_cons {mark : Mark} {marks : List Mark} (h : mark ≠ .submenu true) :
    Undisturbed (mark :: marks) ↔ Undisturbed marks := by
  rw [Undisturbed, List.pairwise_cons]
  exact ⟨And.right, fun hmarks => ⟨fun _ _ heq => absurd heq h, hmarks⟩⟩

private theorem map_append_eq_iff {front back : List Place}
    {entries entries' : List (Option Str × Nat)}
    (h : front.length = entries.length) :
    (front ++ back).map Place.key = entries ++ entries' ↔
      front.map Place.key = entries ∧ back.map Place.key = entries' := by
  rw [List.map_append]
  constructor
  · intro heq
    exact List.append_inj heq (by rw [List.length_map, h])
  · rintro ⟨rfl, rfl⟩
    rfl

/-- A nested submenu is counted, so from there on no position is right. -/
theorem Agrees.walk_nested (h : Agrees true k c) (header : Header "submenu".toList)
    (inner : Forest) (closer : Closer) (next : Forest) :
    (((Forest.submenu header inner closer next).walk c).1.map Place.key =
        (Forest.submenu header inner closer next).entriesFrom true k ↔
      Undisturbed ((Forest.submenu header inner closer next).marksFrom true)) ∧
    Ahead true ((Forest.submenu header inner closer next).after true k)
      ((Forest.submenu header inner closer next).walk c).2 := by
  obtain ⟨hchildren, hinside⟩ := h.opened_nested.walk inner
  rw [Forest.after_inside] at hinside
  obtain ⟨hmore, hafter⟩ := (hinside.closed true).walk next
  refine ⟨?_, hafter⟩
  refine (map_key_eq_iff (List.rel_append hchildren hmore)).trans ?_
  refine ((Forest.submenu header inner closer next).entriesFrom_eq_nil true k).trans ?_
  refine ⟨undisturbed_of_notMem, fun hpairwise hmem => ?_⟩
  rcases List.mem_cons.mp hmem with heq | hmem
  · cases heq
  · exact (List.pairwise_cons.mp hpairwise).1 _ hmem rfl rfl

/-- The positions are right up to the first nested submenu, and wrong behind it. -/
theorem Agrees.walk (f : Forest) (h : Agrees inside k c) :
    ((f.walk c).1.map Place.key = f.entriesFrom inside k ↔ Undisturbed (f.marksFrom inside)) ∧
      (.submenu true ∉ f.marksFrom inside → Agrees inside (f.after inside k) (f.walk c).2) ∧
      (.submenu true ∈ f.marksFrom inside → Ahead inside (f.after inside k) (f.walk c).2) := by
  induction f generalizing inside k c with
  | done =>
    refine ⟨⟨fun _ => List.Pairwise.nil, fun _ => rfl⟩, fun _ => h, fun hmem => ?_⟩
    cases hmem
  | line p next ih => exact ih h
  | block hkw header inner closer next ih => exact ih h
  | entry header inner closer next ih =>
    obtain ⟨hplace, hnext⟩ := h.entry header.title
    obtain ⟨hkeys, hagrees, hahead⟩ := ih hnext
    refine ⟨?_, ?_, ?_⟩
    · rw [Forest.marksFrom, Undisturbed, List.pairwise_cons, Forest.entriesFrom, Forest.walk,
        List.map_cons, hplace, List.cons_inj_right]
      refine hkeys.trans ⟨fun hrest => ⟨fun b _ hmark => ?_, hrest⟩, And.right⟩
      cases hmark
    · exact fun hno => hagrees fun hmem => hno (List.mem_cons_of_mem _ hmem)
    · intro hmem
      rcases List.mem_cons.mp hmem with heq | hmem
      · cases heq
      · exact hahead hmem
  | submenu header inner closer next ihInner ihNext =>
    cases inside with
    | true =>
      obtain ⟨hkeys, hafter⟩ := h.walk_nested header inner closer next
      exact ⟨hkeys, fun hno => absurd List.mem_cons_self hno, fun _ => hafter⟩
    | false =>
      obtain ⟨hkeys, hagrees, hahead⟩ := ihInner h.opened
      rw [Forest.after_inside] at hagrees hahead
      have hlength := inner.length_walk true k c.opened
      have hmarks : Undisturbed ((Forest.submenu header inner closer next).marksFrom false) ↔
          Undisturbed (inner.marksFrom true ++ next.marksFrom false) :=
        undisturbed_cons (by decide)
      have hmem : .submenu true ∈ (Forest.submenu header inner closer next).marksFrom false ↔
          .submenu true ∈ inner.marksFrom true ∨ .submenu true ∈ next.marksFrom false := by
        simp [Forest.marksFrom]
      rw [hmarks, undisturbed_append, hmem, ← hkeys]
      by_cases hnested : .submenu true ∈ inner.marksFrom true
      · obtain ⟨hmore, hafter⟩ := ((hahead hnested).closed false).walk next
        refine ⟨?_, fun hno => absurd (Or.inl hnested) hno, fun _ => hafter⟩
        refine (map_append_eq_iff hlength).trans (and_congr_right fun _ => ?_)
        refine (map_key_eq_iff hmore).trans ((next.entriesFrom_eq_nil false (k + 1)).trans ?_)
        exact ⟨fun hno => ⟨undisturbed_of_notMem hno, fun _ => hno⟩, fun hback => hback.2 hnested⟩
      · obtain ⟨hmore, hagrees', hahead'⟩ := ihNext (hagrees hnested).closed
        refine ⟨?_, fun hno => hagrees' fun hback => hno (Or.inr hback),
          fun hor => hahead' (hor.resolve_left hnested)⟩
        refine (map_append_eq_iff hlength).trans (and_congr_right fun _ => ?_)
        exact hmore.trans ⟨fun hback => ⟨hback, fun hin => absurd hin hnested⟩, And.left⟩

end Counting

end BootExtractor.Boot.Grub
