import Mathlib.Logic.Basic
import Mathlib.Data.List.Basic

/-!
# Memo tables

A function answered from a table under a key that it may not be a function of. In a
run from the empty table the answers are those of the function exactly if it agrees on
items that share their key.
-/

namespace Memo

variable {ε κ β : Type} [BEq κ] [LawfulBEq κ]

/-- An answer from the table, or a new one that is put there. -/
def ask (key : ε → κ) (f : ε → β) (table : List (κ × β)) (x : ε) : β × List (κ × β) :=
  match table.lookup (key x) with
  | some v => (v, table)
  | none => (f x, (key x, f x) :: table)

/-- The answers to a sequence of items with one table. -/
def run (key : ε → κ) (f : ε → β) : List (κ × β) → List ε → List β
  | _, [] => []
  | table, x :: xs => (ask key f table x).1 :: run key f (ask key f table x).2 xs

/-- The table answers these items as the function does. -/
def Sound (key : ε → κ) (f : ε → β) (table : List (κ × β)) (xs : List ε) : Prop :=
  ∀ x ∈ xs, ∀ v, table.lookup (key x) = some v → v = f x

/-- The function agrees on the items that share their key. -/
def Agree (key : ε → κ) (f : ε → β) (xs : List ε) : Prop :=
  xs.Pairwise fun x y => key x = key y → f x = f y

variable {key : ε → κ} {f : ε → β}

omit [LawfulBEq κ] in
/-- An empty memory is sound. -/
theorem sound_nil (xs : List ε) : Sound key f [] xs := by
  intro x _ v h
  cases h

/-- A new answer is sound for the items behind it if these agree with its item. -/
theorem sound_cons {table : List (κ × β)} {x : ε} {xs : List ε}
    (hnone : table.lookup (key x) = none) :
    Sound key f ((key x, f x) :: table) xs ↔
      Sound key f table xs ∧ ∀ y ∈ xs, key x = key y → f x = f y := by
  constructor
  · intro h
    constructor
    · intro y hy v hv
      have hne : (key y == key x) = false := by
        rw [beq_eq_false_iff_ne]
        intro he
        rw [he, hnone] at hv
        cases hv
      refine h y hy v ?_
      rw [List.lookup_cons, hne]
      exact hv
    · intro y hy he
      refine h y hy (f x) ?_
      rw [List.lookup_cons, he, beq_self_eq_true]
  · rintro ⟨htable, hagree⟩ y hy v hv
    rw [List.lookup_cons] at hv
    by_cases he : key y = key x
    · rw [he, beq_self_eq_true] at hv
      rw [← Option.some.inj hv]
      exact hagree y hy he.symm
    · rw [beq_eq_false_iff_ne.mpr he] at hv
      exact htable y hy v hv

/-- The answers are those of the function exactly if the table is sound and the items agree. -/
theorem run_eq_map_iff {table : List (κ × β)} {xs : List ε} :
    run key f table xs = xs.map f ↔ Sound key f table xs ∧ Agree key f xs := by
  induction xs generalizing table with
  | nil => exact iff_of_true rfl ⟨fun x hx => absurd hx List.not_mem_nil, .nil⟩
  | cons x xs ih =>
    simp only [run, List.map_cons, List.cons.injEq, ih, Agree, List.pairwise_cons]
    cases hx : table.lookup (key x) with
    | none =>
      simp only [ask, hx, sound_cons hx, true_and]
      constructor
      · rintro ⟨⟨hsound, hfirst⟩, hrest⟩
        refine ⟨?_, hfirst, hrest⟩
        rintro y (_ | ⟨_, hy⟩) v hv
        · rw [hx] at hv
          cases hv
        · exact hsound y hy v hv
      · rintro ⟨hsound, hfirst, hrest⟩
        exact ⟨⟨fun y hy => hsound y (List.mem_cons_of_mem _ hy), hfirst⟩, hrest⟩
    | some v =>
      simp only [ask, hx]
      constructor
      · rintro ⟨rfl, hsound, hrest⟩
        refine ⟨?_, ?_, hrest⟩
        · rintro y (_ | ⟨_, hy⟩) w hw
          · rw [hx] at hw
            exact (Option.some.inj hw).symm
          · exact hsound y hy w hw
        · -- the table answers for every item with this key
          intro y hy he
          rw [he] at hx
          exact hsound y hy _ hx
      · rintro ⟨hsound, -, hrest⟩
        exact ⟨hsound x List.mem_cons_self v hx,
          fun y hy => hsound y (List.mem_cons_of_mem _ hy), hrest⟩

end Memo
