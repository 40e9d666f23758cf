import Mathlib.Data.List.Basic

/-!
# Walks in a tree

A place in a tree is the list of the names on the way down to it. A walk goes down to a
child, up to the parent or stays, and up from the root leads to the root.
-/

namespace TreeWalk

universe u

variable {α : Type u}

/-- A move from a place in the tree. -/
inductive Move (α : Type u) where
  | stay
  | up
  | down (name : α)

/-- Where a move leads to. -/
def Move.from (place : List α) : Move α → List α
  | .stay => place
  | .up => place.dropLast
  | .down name => place ++ [name]

/-- Where moves lead to, one after the other. -/
def walk (place : List α) (moves : List (Move α)) : List α := moves.foldl Move.from place

/-- The first move of a walk is made first. -/
@[simp] theorem walk_cons (place : List α) (move : Move α) (moves : List (Move α)) :
    walk place (move :: moves) = walk (move.from place) moves := rfl

/-- A walk goes on where the one before it has ended. -/
theorem walk_append (place : List α) (moves moves' : List (Move α)) :
    walk place (moves ++ moves') = walk (walk place moves) moves' :=
  List.foldl_append

/-- The way down to a place leads to it. -/
theorem walk_down (place names : List α) : walk place (names.map .down) = place ++ names := by
  induction names generalizing place with
  | nil => exact (List.append_nil place).symm
  | cons name names ih =>
    rw [List.map_cons, walk_cons, ih, Move.from, List.append_assoc, List.singleton_append]

/-- How often the moves go up from the place where they start, or from above it. -/
def climb : List (Move α) → Nat
  | [] => 0
  | .stay :: moves => climb moves
  | .up :: moves => climb moves + 1
  | .down _ :: moves => climb moves - 1

/-- The names that no later move goes up from again. -/
def kept : List (Move α) → List α
  | [] => []
  | .stay :: moves => kept moves
  | .up :: moves => kept moves
  | .down name :: moves => if climb moves = 0 then name :: kept moves else kept moves

/-- A walk leaves as much of its start as it climbs, and adds the names that it keeps. -/
theorem walk_eq (place : List α) (moves : List (Move α)) :
    walk place moves = place.take (place.length - climb moves) ++ kept moves := by
  induction moves generalizing place with
  | nil => simp [walk, climb, kept]
  | cons move moves ih =>
    rw [walk_cons, ih]
    cases move with
    | stay => rfl
    | up =>
      have hlen : min (place.length - 1 - climb moves) (place.length - 1) =
          place.length - (climb moves + 1) := by omega
      simp only [Move.from, climb, kept, List.dropLast_eq_take, List.length_take, List.take_take,
        Nat.min_eq_left (Nat.sub_le place.length 1), hlen]
    | down name =>
      simp only [Move.from, climb, kept, List.length_append, List.length_singleton]
      by_cases hclimb : climb moves = 0
      · rw [if_pos hclimb, hclimb, List.take_of_length_le (by simp), Nat.zero_sub, Nat.sub_zero,
          List.take_length, List.append_assoc, List.singleton_append]
      · have hlen : place.length + 1 - climb moves = place.length - (climb moves - 1) := by omega
        rw [if_neg hclimb, hlen, List.take_append_of_le_length (Nat.sub_le ..)]

/-- From the root a walk leads down along the names that it keeps. -/
theorem walk_root (moves : List (Move α)) : walk [] moves = kept moves := by
  rw [walk_eq, List.take_nil, List.nil_append]

end TreeWalk
