import BootExtractor.Lib.Str
import Mathlib.Data.List.Sort

/-!
# Version comparison

Version strings are cut into runs of digits and runs of letters; everything else
separates. Numbers compare as numbers and come after words.
-/

namespace BootExtractor.Boot

/-- A run of digits or of letters. -/
inductive Seg where
  | num (digits : Str)
  | alpha (letters : Str)
  deriving DecidableEq, Repr

/-- `segments`. Every pass takes at least one character. -/
def segments (s : Str) : List Seg := go s.length s
where
  /-- At most `fuel` passes. -/
  go : Nat → Str → List Seg
    | 0, _ => []
    | _, [] => []
    | fuel + 1, c :: rest =>
      if c.isDigit then
        .num (c :: rest.takeWhile Char.isDigit) :: go fuel (rest.dropWhile Char.isDigit)
      else if c.isAlpha then
        .alpha (c :: rest.takeWhile Char.isAlpha) :: go fuel (rest.dropWhile Char.isAlpha)
      else go fuel rest

/-- `str::cmp`; on runs of ASCII characters bytes and characters compare alike. -/
def cmpStr : Str → Str → Ordering
  | [], [] => .eq
  | [], _ :: _ => .lt
  | _ :: _, [] => .gt
  | a :: as, b :: bs => (compare a.toNat b.toNat).then (cmpStr as bs)

/-- `cmp_numeric`: without leading zeroes the longer number is the greater. -/
def cmpNumeric (a b : Str) : Ordering :=
  let a := a.dropWhile (· == '0')
  let b := b.dropWhile (· == '0')
  (compare a.length b.length).then (cmpStr a b)

/-- Numbers beat letters, like compares with like. -/
def cmpSeg : Seg → Seg → Ordering
  | .num x, .num y => cmpNumeric x y
  | .alpha x, .alpha y => cmpStr x y
  | .num _, .alpha _ => .gt
  | .alpha _, .num _ => .lt

/-- `vercmp`: the first segments that differ decide, then the number of segments. -/
def vercmp (a b : Str) : Ordering :=
  let sa := segments a
  let sb := segments b
  match (sa.zipWith cmpSeg sb).find? (· ≠ .eq) with
  | some ord => ord
  | none => compare sa.length sb.length

/-- `sort_by(|a, b| vercmp(key(b), key(a)))`: newest first, equal versions in their order. -/
def sortNewestFirst {α : Type} (key : α → Str) (xs : List α) : List α :=
  xs.insertionSort fun a b => vercmp (key b) (key a) ≠ .gt

/-- Sorting keeps the elements. -/
theorem mem_sortNewestFirst {α : Type} {key : α → Str} {xs : List α} {x : α} :
    x ∈ sortNewestFirst key xs ↔ x ∈ xs := by
  rw [sortNewestFirst, List.mem_insertionSort]

end BootExtractor.Boot
