import Mathlib.Data.List.Forall2

/-!
# Glob patterns

A pattern is a list of items and matches a text that splits into one piece for each
item. The second half is about a text that is encoded letter by letter: where the
first unit of every letter can be told from the others and no encoding is the start of
another, a pattern matches the encoded text when it matches the letters, as long as no
item has to take a single unit out of the middle of a letter.
-/

namespace Glob

universe u v

variable {α : Type u} {β : Type v}

/-- An item of a pattern. -/
inductive Item (α : Type u) where
  | star
  | any
  | lit (text : List α)

/-- The pieces of a text that an item takes. -/
def Item.Takes : Item α → List α → Prop
  | .star, _ => True
  | .any, piece => piece.length = 1
  | .lit text, piece => piece = text

/-- The text is split into one piece for each item, in order. -/
def Matches (p : List (Item α)) (s : List α) : Prop :=
  ∃ pieces : List (List α), List.Forall₂ Item.Takes p pieces ∧ pieces.flatten = s

/-- Nothing but the empty text matches the empty pattern. -/
@[simp] theorem matches_nil {s : List α} : Matches [] s ↔ s = [] := by
  constructor
  · rintro ⟨pieces, h, rfl⟩
    cases h
    rfl
  · rintro rfl
    exact ⟨[], .nil, rfl⟩

/-- The first item takes the first piece. -/
theorem matches_cons {item : Item α} {p : List (Item α)} {s : List α} :
    Matches (item :: p) s ↔
      ∃ piece rest, item.Takes piece ∧ Matches p rest ∧ piece ++ rest = s := by
  constructor
  · rintro ⟨pieces, h, rfl⟩
    cases h with
    | cons first others => exact ⟨_, _, first, ⟨_, others, rfl⟩, rfl⟩
  · rintro ⟨piece, rest, first, ⟨pieces, others, rfl⟩, rfl⟩
    exact ⟨piece :: pieces, .cons first others, rfl⟩

/-- What follows the first item counts by what it matches. -/
theorem matches_cons_congr {item : Item α} {p p' : List (Item α)}
    (h : ∀ s, Matches p s ↔ Matches p' s) (s : List α) :
    Matches (item :: p) s ↔ Matches (item :: p') s := by
  simp only [matches_cons, h]

/-- A star takes any piece. -/
private theorem matches_star {p : List (Item α)} {s : List α} :
    Matches (.star :: p) s ↔ ∃ piece rest, Matches p rest ∧ piece ++ rest = s := by
  simp only [matches_cons, Item.Takes, true_and]

/-- A star takes nothing, or one letter and goes on. -/
theorem matches_star_cons {p : List (Item α)} {a : α} {s : List α} :
    Matches (.star :: p) (a :: s) ↔ Matches p (a :: s) ∨ Matches (.star :: p) s := by
  simp only [matches_star]
  constructor
  · rintro ⟨piece, rest, h, heq⟩
    cases piece with
    | nil =>
      rw [List.nil_append] at heq
      exact .inl (heq ▸ h)
    | cons b piece =>
      rw [List.cons_append, List.cons.injEq] at heq
      exact .inr ⟨piece, rest, h, heq.2⟩
  · rintro (h | ⟨piece, rest, h, rfl⟩)
    · exact ⟨[], a :: s, h, rfl⟩
    · exact ⟨a :: piece, rest, h, rfl⟩

/-- Before the end of the text a star takes nothing. -/
@[simp] theorem matches_star_nil {p : List (Item α)} :
    Matches (.star :: p) [] ↔ Matches p [] := by
  simp [matches_star]

/-- A single item needs an item of the text. -/
@[simp] theorem not_matches_any_nil {p : List (Item α)} : ¬ Matches (.any :: p) [] := by
  rw [matches_cons]
  rintro ⟨piece, rest, h, -, heq⟩
  rw [(List.append_eq_nil_iff.1 heq).1] at h
  cases h

/-- A single item takes one item of the text. -/
@[simp] theorem matches_any_cons {p : List (Item α)} {a : α} {s : List α} :
    Matches (.any :: p) (a :: s) ↔ Matches p s := by
  rw [matches_cons]
  constructor
  · rintro ⟨piece, rest, one, h, heq⟩
    obtain ⟨b, rfl⟩ := List.length_eq_one_iff.1 one
    rw [List.singleton_append, List.cons.injEq] at heq
    exact heq.2 ▸ h
  · intro h
    exact ⟨[a], s, rfl, h, rfl⟩

/-- A literal takes itself. -/
theorem matches_lit {text : List α} {p : List (Item α)} {s : List α} :
    Matches (.lit text :: p) s ↔ ∃ rest, Matches p rest ∧ text ++ rest = s := by
  rw [matches_cons]
  constructor
  · rintro ⟨piece, rest, rfl, h⟩
    exact ⟨rest, h⟩
  · rintro ⟨rest, h⟩
    exact ⟨text, rest, rfl, h⟩

/-- The letters of a text, one after the other, match what the text matches. -/
theorem matches_letters {text : List α} {p : List (Item α)} {s : List α} :
    Matches (text.map (fun a => .lit [a]) ++ p) s ↔ Matches (.lit text :: p) s := by
  induction text generalizing s with
  | nil => simp [matches_lit]
  | cons a text ih =>
    simp only [List.map_cons, List.cons_append, @matches_lit _ [a], ih]
    simp only [matches_lit]
    constructor
    · rintro ⟨_, ⟨rest, h, rfl⟩, rfl⟩
      exact ⟨rest, h, rfl⟩
    · rintro ⟨rest, h, rfl⟩
      exact ⟨text ++ rest, ⟨rest, h, rfl⟩, rfl⟩

/-- As many wildcards as there are letters. -/
theorem matches_replicate_any {n : Nat} {s : List α} :
    Matches (List.replicate n .any) s ↔ s.length = n := by
  induction n generalizing s with
  | zero => simp
  | succ n ih =>
    rw [List.replicate_succ]
    cases s with
    | nil => simp
    | cons a s => simp [ih]

/-! ### Encoded texts -/

/-- A letter is encoded as a leading unit and units that do not lead, and no encoding is
the start of another. -/
structure SelfSync (e : α → List β) (lead : β → Prop) : Prop where
  leads : ∀ a, ∃ b cont, e a = b :: cont ∧ lead b ∧ ∀ x ∈ cont, ¬ lead x
  prefix_free : ∀ {a a' : α} {r r' : List β}, e a ++ r = e a' ++ r' → a = a'

/-- The item over the code units of another alphabet. -/
def Item.encode (e : α → List β) : Item α → Item β
  | .star => .star
  | .any => .any
  | .lit text => .lit (text.flatMap e)

namespace SelfSync

variable {e : α → List β} {lead : β → Prop}

/-- An encoded text is no shorter than the text. -/
theorem length_le (h : SelfSync e lead) (s : List α) : s.length ≤ (s.flatMap e).length := by
  induction s with
  | nil => simp
  | cons a s ih =>
    obtain ⟨b, cont, ha, -⟩ := h.leads a
    simp only [List.flatMap_cons, List.length_append, ha, List.length_cons]
    omega

/-- It is as long only when every letter takes one unit. -/
theorem length_eq_iff (h : SelfSync e lead) (s : List α) :
    (s.flatMap e).length = s.length ↔ ∀ a ∈ s, (e a).length = 1 := by
  induction s with
  | nil => simp
  | cons a s ih =>
    have hs := h.length_le s
    obtain ⟨b, cont, ha, -⟩ := h.leads a
    simp only [List.flatMap_cons, List.length_append, List.length_cons, List.forall_mem_cons,
      ← ih, ha]
    omega

/-- The one unit of a letter is not found in any other letter. -/
theorem mem_iff_of_single (h : SelfSync e lead) {a a' : α} {b : β} (ha : e a = [b]) :
    b ∈ e a' ↔ a' = a := by
  obtain ⟨b', cont, ha', -, hcont⟩ := h.leads a'
  constructor
  · intro hb
    rw [ha', List.mem_cons] at hb
    rcases hb with rfl | hb
    · have heq : e a' ++ [] = e a ++ cont := by
        rw [ha', ha, List.append_nil, List.singleton_append]
      exact h.prefix_free heq
    · obtain ⟨_, _, hlead, hb', -⟩ := h.leads a
      rw [ha, List.cons.injEq] at hlead
      exact absurd (hlead.1 ▸ hb') (hcont b hb)
  · rintro rfl
    exact ha ▸ List.mem_singleton.2 rfl

/-- What an encoded text starts with and the pattern spells out is spelled out by the
letters. -/
theorem prefix_iff (h : SelfSync e lead) {text s : List α} {rest : List β} :
    text.flatMap e ++ rest = s.flatMap e ↔ ∃ s', text ++ s' = s ∧ rest = s'.flatMap e := by
  induction text generalizing s with
  | nil => simp
  | cons a text ih =>
    rw [List.flatMap_cons, List.append_assoc]
    cases s with
    | nil =>
      obtain ⟨b, cont, ha, -⟩ := h.leads a
      simp [ha]
    | cons a' s =>
      rw [List.flatMap_cons]
      constructor
      · intro heq
        obtain rfl := h.prefix_free heq
        obtain ⟨s', rfl, hrest⟩ := ih.1 (List.append_cancel_left heq)
        exact ⟨s', rfl, hrest⟩
      · rintro ⟨s', heq, rfl⟩
        obtain ⟨rfl, rfl⟩ : a = a' ∧ text ++ s' = s := List.cons.inj heq
        rw [List.flatMap_append]

/-- A cut through an encoded text leaves the rest of one letter and whole letters. -/
theorem split (h : SelfSync e lead) {s : List α} {piece rest : List β}
    (heq : piece ++ rest = s.flatMap e) :
    ∃ cont s₁ s₂, s₁ ++ s₂ = s ∧ rest = cont ++ s₂.flatMap e ∧ (∀ x ∈ cont, ¬ lead x) ∧
      ((∀ a ∈ s, (e a).length = 1) → cont = []) := by
  induction s generalizing piece with
  | nil =>
    obtain ⟨rfl, rfl⟩ := List.append_eq_nil_iff.1 heq
    exact ⟨[], [], [], rfl, rfl, by simp, fun _ => rfl⟩
  | cons a s ih =>
    rw [List.flatMap_cons] at heq
    obtain ⟨b, tail, ha, -, htail⟩ := h.leads a
    rcases List.append_eq_append_iff.1 heq with ⟨more, hmore, rfl⟩ | ⟨more, rfl, hmore⟩
    · cases piece with
      | nil => exact ⟨[], [], a :: s, rfl, by simp [hmore], by simp, fun _ => rfl⟩
      | cons b' piece =>
        -- the cut is inside of the first letter, or right after it
        rw [ha, List.cons_append, List.cons.injEq] at hmore
        refine ⟨more, [a], s, rfl, rfl, fun x hx => htail x ?_, fun one => ?_⟩
        · rw [hmore.2]
          exact List.mem_append_right _ hx
        · have hone := one a (List.mem_cons_self ..)
          rw [ha, List.length_cons, hmore.2, List.length_append] at hone
          exact List.eq_nil_of_length_eq_zero (by omega)
    · obtain ⟨cont, s₁, s₂, rfl, hrest, hcont, hone⟩ := ih hmore.symm
      exact ⟨cont, a :: s₁, s₂, rfl, hrest, hcont,
        fun one => hone fun x hx => one x (List.mem_cons_of_mem _ hx)⟩

/-- What is left of a letter before an encoded text is taken by a star or not at all. -/
theorem matches_drop (h : SelfSync e lead) {p : List (Item α)} (hp : .any ∉ p)
    {cont : List β} (hcont : ∀ x ∈ cont, ¬ lead x) {s : List α}
    (hm : Matches (p.map (Item.encode e)) (cont ++ s.flatMap e)) :
    Matches (p.map (Item.encode e)) (s.flatMap e) := by
  induction p generalizing cont with
  | nil =>
    rw [List.map_nil, matches_nil] at hm ⊢
    exact (List.append_eq_nil_iff.1 hm).2
  | cons item p ih =>
    rw [List.mem_cons, not_or] at hp
    rw [List.map_cons] at hm ⊢
    cases item with
    | any => exact absurd rfl hp.1
    | star =>
      obtain ⟨piece, rest, hrest, heq⟩ := matches_star.1 hm
      apply matches_star.2
      rcases List.append_eq_append_iff.1 heq with ⟨more, rfl, rfl⟩ | ⟨more, rfl, hmore⟩
      · -- the star ends inside of the letter
        have hmore : ∀ x ∈ more, ¬ lead x := fun x hx => hcont x (List.mem_append_right _ hx)
        exact ⟨[], s.flatMap e, ih hp.2 hmore hrest, rfl⟩
      · exact ⟨more, rest, hrest, hmore.symm⟩
    | lit text =>
      obtain ⟨rest, hrest, heq⟩ := matches_lit.1 hm
      apply matches_lit.2
      cases text with
      | nil =>
        rw [List.flatMap_nil, List.nil_append] at heq
        rw [heq] at hrest
        exact ⟨s.flatMap e, ih hp.2 hcont hrest, rfl⟩
      | cons a text =>
        cases cont with
        | nil => exact ⟨rest, hrest, heq⟩
        | cons x cont =>
          -- what a pattern spells out starts with a leading unit
          obtain ⟨b, tail, ha, hb, -⟩ := h.leads a
          rw [List.flatMap_cons, ha, List.cons_append, List.cons_append, List.cons_append,
            List.cons.injEq] at heq
          exact absurd (heq.1 ▸ hb) (hcont x (List.mem_cons_self ..))

/-- Only the empty text is encoded as nothing. -/
theorem flatMap_eq_nil (h : SelfSync e lead) {s : List α} : s.flatMap e = [] ↔ s = [] := by
  constructor
  · intro hs
    have hle := h.length_le s
    rw [hs] at hle
    exact List.eq_nil_of_length_eq_zero (Nat.le_zero.1 hle)
  · rintro rfl
    rfl

/-- Where no single unit is asked for, or every letter is one unit, the encoded text
matches exactly when the letters do. -/
theorem matches_encode (h : SelfSync e lead) {p : List (Item α)} {s : List α}
    (hps : .any ∉ p ∨ ∀ a ∈ s, (e a).length = 1) :
    Matches (p.map (Item.encode e)) (s.flatMap e) ↔ Matches p s := by
  induction p generalizing s with
  | nil => rw [List.map_nil, matches_nil, matches_nil, h.flatMap_eq_nil]
  | cons item p ih =>
    have hitem : ∀ {s' : List α}, (∀ a ∈ s', a ∈ s) →
        (Matches (p.map (Item.encode e)) (s'.flatMap e) ↔ Matches p s') := by
      intro s' hsub
      apply ih
      exact hps.imp (fun hp hm => hp (List.mem_cons_of_mem _ hm)) fun one a ha => one a (hsub a ha)
    rw [List.map_cons]
    cases item with
    | star =>
      rw [Item.encode, matches_star, matches_star]
      constructor
      · rintro ⟨piece, rest, hrest, heq⟩
        obtain ⟨cont, s₁, s₂, rfl, rfl, hcont, hone⟩ := h.split heq
        refine ⟨s₁, s₂, (hitem fun a ha => List.mem_append_right _ ha).1 ?_, rfl⟩
        rcases hps with hp | one
        · exact h.matches_drop (fun hm => hp (List.mem_cons_of_mem _ hm)) hcont hrest
        · simpa [hone one] using hrest
      · rintro ⟨piece, rest, hrest, rfl⟩
        exact ⟨piece.flatMap e, rest.flatMap e,
          (hitem fun a ha => List.mem_append_right _ ha).2 hrest, List.flatMap_append.symm⟩
    | any =>
      have one := hps.resolve_left fun hp => hp (List.mem_cons_self ..)
      cases s with
      | nil => simp [Item.encode]
      | cons a s =>
        obtain ⟨b, hb⟩ := List.length_eq_one_iff.1 (one a (List.mem_cons_self ..))
        rw [Item.encode, List.flatMap_cons, hb, List.singleton_append, matches_any_cons,
          matches_any_cons]
        exact hitem fun x hx => List.mem_cons_of_mem _ hx
    | lit text =>
      rw [Item.encode, matches_lit, matches_lit]
      constructor
      · rintro ⟨rest, hrest, heq⟩
        obtain ⟨s', rfl, rfl⟩ := h.prefix_iff.1 heq
        exact ⟨s', (hitem fun a ha => List.mem_append_right _ ha).1 hrest, rfl⟩
      · rintro ⟨s', hs', rfl⟩
        exact ⟨s'.flatMap e, (hitem fun a ha => List.mem_append_right _ ha).2 hs',
          h.prefix_iff.2 ⟨s', rfl, rfl⟩⟩

/-- As many wildcards as there are letters match the encoded text only when every letter
takes one unit. -/
theorem matches_replicate_any_iff (h : SelfSync e lead) {s : List α} :
    Matches (List.replicate s.length .any) (s.flatMap e) ↔ ∀ a ∈ s, (e a).length = 1 := by
  rw [matches_replicate_any, h.length_eq_iff]

end SelfSync

end Glob
