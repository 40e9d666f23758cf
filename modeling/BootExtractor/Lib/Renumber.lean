import Mathlib.Data.List.Basic

/-!
# Pointers into filtered lists

A list comes with a pointer to one of its items. Filtering and rewriting the items
moves the pointer to where its item ended up, or to the first item left when its own
is gone. Two such passes in a row are one pass.
-/

namespace Renumber

universe u v w

variable {α : Type u} {β : Type v} {γ : Type w}

/-- A pointer into a list of `n` items: none exactly when there are no items. -/
def Points (n : Nat) : Option Nat → Prop
  | none => n = 0
  | some i => i < n

/-- How many of the first `d` items `f` keeps. -/
def rank (f : α → Option β) (xs : List α) (d : Nat) : Nat := ((xs.take d).filterMap f).length

/-- Where the pointer goes when `f` is applied to every item. -/
def move (f : α → Option β) (xs : List α) (d : Option Nat) : Option Nat :=
  match d.filter fun i => (xs[i]?.bind f).isSome with
  | some i => some (rank f xs i)
  | none => if xs.filterMap f = [] then none else some 0

/-- The list without the items that `f` drops, and where the pointer goes. -/
def renumber (f : α → Option β) (p : List α × Option Nat) : List β × Option Nat :=
  (p.1.filterMap f, move f p.1 p.2)

private theorem rank_eq (f : α → Option β) (xs : List α) (d : Nat) :
    rank f xs d = ((xs.take d).filterMap f).length := rfl

/-- A kept item is found again at its rank. -/
theorem getElem?_rank {f : α → Option β} {xs : List α} {d : Nat} {x : α} {y : β}
    (hx : xs[d]? = some x) (hf : f x = some y) : (xs.filterMap f)[rank f xs d]? = some y := by
  have hlt : d < xs.length := (List.getElem?_eq_some_iff.mp hx).1
  have hsplit : xs = xs.take d ++ x :: xs.drop (d + 1) := by
    have hget : xs[d] = x := (List.getElem?_eq_some_iff.mp hx).2
    rw [← hget, ← List.drop_eq_getElem_cons hlt, List.take_append_drop]
  have hmap : xs.filterMap f =
      (xs.take d).filterMap f ++ y :: (xs.drop (d + 1)).filterMap f := by
    conv => lhs; rw [hsplit]
    rw [List.filterMap_append, List.filterMap_cons, hf]
  rw [hmap, rank, List.getElem?_append_right (Nat.le_refl _), Nat.sub_self]
  rfl

/-- The new place of a kept item is in range. -/
theorem rank_lt {f : α → Option β} {xs : List α} {d : Nat} {x : α} {y : β}
    (hx : xs[d]? = some x) (hf : f x = some y) : rank f xs d < (xs.filterMap f).length :=
  (List.getElem?_eq_some_iff.mp (getElem?_rank hx hf)).1

/-- The pointer follows an item that is kept. -/
theorem move_kept {f : α → Option β} {xs : List α} {d : Nat} {x : α} {y : β}
    (hx : xs[d]? = some x) (hf : f x = some y) : move f xs (some d) = some (rank f xs d) := by
  simp [move, Option.filter, hx, hf]

/-- Without an item to follow the pointer goes to the first item, if there is one. -/
theorem move_lost {f : α → Option β} {xs : List α} {d : Option Nat}
    (h : ∀ i, d = some i → xs[i]?.bind f = none) :
    move f xs d = if xs.filterMap f = [] then none else some 0 := by
  have hfilter : d.filter (fun i => (xs[i]?.bind f).isSome) = none := by
    cases d with
    | none => rfl
    | some i => simp [Option.filter, h i rfl]
  rw [move, hfilter]

/-- Either the pointer had an item that is kept, or it is lost. -/
theorem kept_or_lost (f : α → Option β) (xs : List α) (d : Option Nat) :
    (∃ i x y, d = some i ∧ xs[i]? = some x ∧ f x = some y) ∨
      ∀ i, d = some i → xs[i]?.bind f = none := by
  cases d with
  | none => exact Or.inr fun _ h => nomatch h
  | some i =>
    cases hb : xs[i]?.bind f with
    | none => exact Or.inr fun j hj => Option.some.inj hj ▸ hb
    | some y =>
      obtain ⟨x, hx, hf⟩ := Option.bind_eq_some_iff.mp hb
      exact Or.inl ⟨i, x, y, rfl, hx, hf⟩

/-- Whatever the pointer was, afterwards it points into the list. -/
theorem points_move (f : α → Option β) (xs : List α) (d : Option Nat) :
    Points (xs.filterMap f).length (move f xs d) := by
  rcases kept_or_lost f xs d with ⟨i, x, y, rfl, hx, hf⟩ | hlost
  · rw [move_kept hx hf]
    exact rank_lt hx hf
  · rw [move_lost hlost]
    split
    · rename_i hnil
      rw [hnil]
      rfl
    · rename_i hne
      exact List.length_pos_iff.mpr hne

/-- `q` is what `f` leaves of `p` with `extra` behind it. Its pointer is at the item that the
pointer of `p` was at, or at the first item when that one is gone. -/
structure Tracks (f : α → Option β) (p : List α × Option Nat) (extra : List β)
    (q : List β × Option Nat) : Prop where
  order : q.1 = p.1.filterMap f ++ extra
  none_iff : q.2 = none ↔ q.1 = []
  inside : ∀ i, q.2 = some i → i < q.1.length
  follows : ∀ d x y, p.2 = some d → p.1[d]? = some x → f x = some y →
    q.2 = some (rank f p.1 d) ∧ q.1[rank f p.1 d]? = some y
  falls : (∀ d x, p.2 = some d → p.1[d]? = some x → f x = none) → q.1 ≠ [] → q.2 = some 0

/-- Where the pointer goes when items are added behind the list. -/
theorem tracks_append (f : α → Option β) (p : List α × Option Nat) (extra : List β) :
    Tracks f p extra ((renumber f p).1 ++ extra,
      (renumber f p).2.or (if extra = [] then none else some (renumber f p).1.length)) := by
  obtain ⟨xs, d⟩ := p
  rcases kept_or_lost f xs d with ⟨i, x, y, rfl, hx, hf⟩ | hlost
  · have hmove := move_kept hx hf
    have hget := getElem?_rank hx hf
    have hlt := rank_lt hx hf
    have hget' : (xs.filterMap f ++ extra)[rank f xs i]? = some y := by
      rw [List.getElem?_append_left hlt, hget]
    have hlt' : rank f xs i < (xs.filterMap f ++ extra).length := by
      rw [List.length_append]
      omega
    simp only [renumber, hmove, Option.some_or]
    constructor
    · rfl
    · simp only [reduceCtorEq, false_iff]
      exact List.length_pos_iff.mp (Nat.lt_of_le_of_lt (Nat.zero_le _) hlt')
    · rintro j ⟨⟩
      exact hlt'
    · rintro d x' y' ⟨⟩ hx' hf'
      rw [hx] at hx'
      cases hx'
      rw [hf] at hf'
      cases hf'
      exact ⟨rfl, hget'⟩
    · intro hgone
      have := hgone i x rfl hx
      rw [hf] at this
      cases this
  · have hmove := move_lost hlost
    have hdefault : (move f xs d).or (if extra = [] then none else some (xs.filterMap f).length) =
        if xs.filterMap f ++ extra = [] then none else some 0 := by
      rw [hmove]
      cases hxs : xs.filterMap f with
      | nil => simp
      | cons y ys => simp
    simp only [renumber, hdefault]
    constructor
    · rfl
    · simp
    · intro j hj
      split at hj
      · cases hj
      · rename_i hne
        cases hj
        exact List.length_pos_iff.mpr hne
    · intro i x y hd hx hf
      have := hlost i hd
      rw [hx, Option.bind_some, hf] at this
      cases this
    · intro _ hne
      rw [if_neg hne]

/-- Renumbering tracks the position, whatever was lost before. -/
theorem tracks_renumber (f : α → Option β) (p : List α × Option Nat) :
    Tracks f p [] (renumber f p) := by
  have h := tracks_append f p []
  simpa using h

/-- Ranks add up over two passes. -/
theorem rank_rank (f : α → Option β) (g : β → Option γ) (xs : List α) (d : Nat) :
    rank g (xs.filterMap f) (rank f xs d) = rank (fun a => (f a).bind g) xs d := by
  have hsplit : xs.filterMap f =
      (xs.take d).filterMap f ++ (xs.drop d).filterMap f := by
    rw [← List.filterMap_append, List.take_append_drop]
  have htake : (xs.filterMap f).take (rank f xs d) = (xs.take d).filterMap f := by
    rw [hsplit, rank, List.take_left']
    rfl
  rw [rank_eq g, htake, rank_eq (fun a => (f a).bind g), List.filterMap_filterMap]

/-- Two passes are one pass. -/
theorem renumber_renumber (f : α → Option β) (g : β → Option γ) (p : List α × Option Nat) :
    renumber g (renumber f p) = renumber (fun a => (f a).bind g) p := by
  obtain ⟨xs, d⟩ := p
  have hlists : (xs.filterMap f).filterMap g = xs.filterMap fun a => (f a).bind g :=
    List.filterMap_filterMap
  simp only [renumber, hlists, Prod.mk.injEq, true_and]
  rcases kept_or_lost f xs d with ⟨i, x, y, rfl, hx, hf⟩ | hlost
  · rw [move_kept hx hf]
    have hy := getElem?_rank hx hf
    cases hg : g y with
    | some z =>
      have hfg : (f x).bind g = some z := by rw [hf]; exact hg
      rw [move_kept hy hg, move_kept hx hfg, rank_rank]
    | none =>
      rw [move_lost, move_lost, hlists]
      · rintro j ⟨⟩
        rw [hx, Option.bind_some, hf]
        exact hg
      · rintro j ⟨⟩
        rw [hy]
        exact hg
  · -- the first pass left the pointer at the front, where the second finds it
    have hlost' : ∀ i, d = some i → xs[i]?.bind (fun a => (f a).bind g) = none := by
      intro i hi
      rw [← Option.bind_assoc, hlost i hi]
      rfl
    rw [move_lost hlost, move_lost hlost']
    split
    · rename_i hnil
      rw [← hlists, hnil]
      rfl
    · rename_i hne
      obtain ⟨y, ys, hys⟩ := List.exists_cons_of_ne_nil hne
      rw [← hlists, hys]
      cases hg : g y with
      | some z =>
        have hy : (y :: ys)[0]? = some y := rfl
        rw [move_kept hy hg]
        simp [rank, hg]
      | none =>
        apply move_lost
        rintro j ⟨⟩
        exact hg

end Renumber
