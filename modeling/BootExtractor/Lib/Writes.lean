import Mathlib.Data.List.Induction
import Mathlib.Logic.Function.Basic

/-!
# Writes to a store

A list of writes is made in order, so a key holds what the last write to it wrote.
All writes can be read back exactly if no two of them disagree about a key.
-/

namespace Writes

universe u v

variable {κ : Type u} {β : Type v} [DecidableEq κ]

/-- The store after the writes. -/
def apply (f : κ → Option β) (ws : List (κ × β)) : κ → Option β :=
  ws.foldl (fun f w => Function.update f w.1 (some w.2)) f

/-- The last write is made last. -/
@[simp] theorem apply_concat (f : κ → Option β) (ws : List (κ × β)) (w : κ × β) :
    apply f (ws ++ [w]) = Function.update (apply f ws) w.1 (some w.2) := by
  simp only [apply, List.foldl_append, List.foldl_cons, List.foldl_nil]

/-- A key that is written holds one of the values written to it. -/
theorem exists_apply_eq {f : κ → Option β} {ws : List (κ × β)} {k : κ} {v : β}
    (h : (k, v) ∈ ws) : ∃ v', (k, v') ∈ ws ∧ apply f ws k = some v' := by
  induction ws using List.reverseRecOn generalizing v with
  | nil => cases h
  | append_singleton ws w ih =>
    rw [apply_concat]
    by_cases hk : k = w.1
    · subst hk
      exact ⟨w.2, List.mem_append_right _ (List.mem_singleton_self _), Function.update_self ..⟩
    · have hmem : (k, v) ∈ ws := by
        rcases List.mem_append.mp h with h | h
        · exact h
        · exact absurd (congrArg Prod.fst (List.mem_singleton.mp h)) hk
      obtain ⟨v', hv', he⟩ := ih hmem
      refine ⟨v', List.mem_append_left _ hv', ?_⟩
      rw [Function.update_of_ne hk, he]

/-- Every write is read back exactly if all writes to one key agree. -/
theorem apply_eq_iff {f : κ → Option β} {ws : List (κ × β)} :
    (∀ k v, (k, v) ∈ ws → apply f ws k = some v) ↔
      ∀ k v v', (k, v) ∈ ws → (k, v') ∈ ws → v = v' := by
  constructor
  · intro h k v v' hv hv'
    exact Option.some.inj ((h k v hv).symm.trans (h k v' hv'))
  · intro h k v hv
    obtain ⟨v', hv', he⟩ := exists_apply_eq (f := f) hv
    rw [he, h k v v' hv hv']

end Writes
