import Mathlib.Data.List.TakeDrop
import Mathlib.Algebra.Order.Group.Nat

/-!
# A cursor over an immutable list

A position that reads and seeks move over items that never change. Positions past the
end are allowed below a limit, and a fault of the medium below can keep a read from
its items, but never moves the position.
-/

namespace Cursor

universe u v

variable {α : Type u} {ε : Type v}

/-- Where a seek leads to. -/
inductive Target where
  | start (offset : Nat)
  | fromEnd (delta : Int)
  | current (delta : Int)
  deriving DecidableEq, Repr

/-- The place that a seek leads to, which may be none of the positions. -/
def Target.place (items : List α) (pos : Nat) : Target → Int
  | .start offset => offset
  | .fromEnd delta => items.length + delta
  | .current delta => pos + delta

/-- The position that a seek leads to, if it is one. -/
def Target.reach (items : List α) (limit pos : Nat) (target : Target) : Option Nat :=
  let place := target.place items pos
  if 0 ≤ place ∧ place < limit then some place.toNat else none

/-- A place that is reached is below the limit. -/
theorem Target.reach_lt {items : List α} {limit pos next : Nat} {target : Target}
    (h : target.reach items limit pos = some next) : next < limit := by
  unfold reach at h
  simp only at h
  split at h
  · rename_i hin
    cases h
    exact (Int.toNat_lt hin.1).mpr hin.2
  · cases h

/-- A place that is counted from the start is reached if it is below the limit. -/
theorem Target.reach_start (items : List α) {limit offset : Nat} (pos : Nat) (h : offset < limit) :
    (Target.start offset).reach items limit pos = some offset :=
  if_pos ⟨Int.natCast_nonneg _, Int.ofNat_lt.mpr h⟩

/-- What can be asked of a cursor. -/
inductive Op where
  | read (len : Nat)
  | seek (target : Target)
  | write
  | flush
  deriving DecidableEq, Repr

/-- What comes of it. -/
inductive Outcome (α : Type u) (ε : Type v) where
  | items (read : List α)
  | moved (pos : Nat)
  | outOfRange
  | refused
  | flushed
  | faulted (e : ε)

/-- The operations that give nothing. -/
def Outcome.Failed : Outcome α ε → Prop
  | .items _ | .moved _ | .flushed => False
  | .outOfRange | .refused | .faulted _ => True

/-- What a read at a position takes: as many items as it asks for, or what is left. -/
def taken (items : List α) (pos len : Nat) : List α := (items.drop pos).take len

/-- A read takes as much as it asks for, or what is left. -/
theorem length_taken (items : List α) (pos len : Nat) :
    (taken items pos len).length = min len (items.length - pos) := by
  rw [taken, List.length_take, List.length_drop]

/-- At the end and past it nothing is left. -/
theorem taken_eq_nil_iff {items : List α} {pos len : Nat} :
    taken items pos len = [] ↔ min len (items.length - pos) = 0 := by
  rw [← List.length_eq_zero_iff, length_taken]

/-- A read that asks for more than is left takes what is left. -/
theorem taken_min (items : List α) (pos len : Nat) :
    taken items pos (min len (items.length - pos)) = taken items pos len := by
  rw [taken, taken, ← List.length_drop, ← List.take_eq_take_min]

/-- A read that finds something ends inside of the items. -/
theorem add_length_taken {items : List α} {pos len : Nat} (h : taken items pos len ≠ []) :
    pos + (taken items pos len).length ≤ items.length := by
  have hne := mt taken_eq_nil_iff.mpr h
  rw [length_taken]
  omega

/-- One operation at a position below `limit`; `fault` is the failure of the medium, if it
has one to report. -/
def step (items : List α) (limit : Nat) (fault : Option ε) (pos : Nat) :
    Op → Outcome α ε × Nat
  | .read len =>
    let read := taken items pos len
    if read = [] then (.items [], pos)
    else
      match fault with
      | some e => (.faulted e, pos)
      | none => (.items read, pos + read.length)
  | .seek target =>
    match target.reach items limit pos with
    | some next => (.moved next, next)
    | none => (.outOfRange, pos)
  | .write => (.refused, pos)
  | .flush => (.flushed, pos)

/-- Operations one after the other, each with the failure of the medium at its time. -/
def run (items : List α) (limit : Nat) (pos : Nat) :
    List (Op × Option ε) → List (Outcome α ε) × Nat
  | [] => ([], pos)
  | (op, fault) :: rest =>
    let (outcome, next) := step items limit fault pos op
    let (outcomes, final) := run items limit next rest
    (outcome :: outcomes, final)

section Steps

variable {items : List α} {limit pos len : Nat} {fault : Option ε} {target : Target}

/-- A read that takes nothing stays where it is, whatever the device does. -/
theorem step_read_nil (h : taken items pos len = []) :
    step items limit fault pos (.read len) = (.items [], pos) :=
  if_pos h

/-- A read that fails stays where it is. -/
theorem step_read_fault (h : taken items pos len ≠ []) (e : ε) :
    step items limit (some e) pos (.read len) = (.faulted e, pos) :=
  if_neg h

/-- A read moves behind what it takes. -/
theorem step_read (h : taken items pos len ≠ []) :
    step items limit (none : Option ε) pos (.read len) =
      (.items (taken items pos len), pos + (taken items pos len).length) :=
  if_neg h

/-- A seek moves to the place it reaches. -/
theorem step_seek {next : Nat} (h : target.reach items limit pos = some next) :
    step items limit fault pos (.seek target) = (.moved next, next) := by
  rw [step, h]

/-- A seek that reaches no place stays. -/
theorem step_seek_none (h : target.reach items limit pos = none) :
    step items limit fault pos (.seek target) = (.outOfRange, pos) := by
  rw [step, h]

/-- An operation that gives nothing leaves the position where it was. -/
theorem step_failed {op : Op} (h : (step items limit fault pos op).1.Failed) :
    (step items limit fault pos op).2 = pos := by
  cases op with
  | read len =>
    by_cases hnil : taken items pos len = []
    · rw [step_read_nil hnil]
    · cases fault with
      | some e => rw [step_read_fault hnil]
      | none =>
        rw [step_read hnil] at h
        exact absurd h id
  | seek target =>
    cases hreach : target.reach items limit pos with
    | some next =>
      rw [step_seek hreach] at h
      exact absurd h id
    | none => rw [step_seek_none hreach]
  | write => rfl
  | flush => rfl

/-- No operation leaves the range of the positions. -/
theorem step_lt (hitems : items.length < limit) (hpos : pos < limit) (op : Op) :
    (step items limit fault pos op).2 < limit := by
  cases op with
  | read len =>
    by_cases hnil : taken items pos len = []
    · rwa [step_read_nil hnil]
    · cases fault with
      | some e => rwa [step_read_fault hnil]
      | none =>
        rw [step_read hnil]
        exact Nat.lt_of_le_of_lt (add_length_taken hnil) hitems
  | seek target =>
    cases hreach : target.reach items limit pos with
    | some next =>
      rw [step_seek hreach]
      exact Target.reach_lt hreach
    | none => rwa [step_seek_none hreach]
  | write => exact hpos
  | flush => exact hpos

end Steps

/-- Nor does any sequence of operations. -/
theorem run_lt {items : List α} {limit pos : Nat} (hitems : items.length < limit)
    (hpos : pos < limit) (ops : List (Op × Option ε)) : (run items limit pos ops).2 < limit := by
  induction ops generalizing pos with
  | nil => exact hpos
  | cons op ops ih => exact ih (step_lt hitems hpos op.1)

end Cursor
