import Mathlib.Data.List.Nodup

/-!
# Positions in a list

Where a search or a run ends, where the elements of a row of blocks stand, and that
blocks without a common element are told apart by any of their elements.
-/

namespace Positions

variable {α β : Type}

/-- A search ends at the first element with the property. -/
theorem findIdx?_eq_first {l : List α} {p : α → Bool} {i : Nat} {x : α} (hx : l[i]? = some x)
    (hp : p x = true) (hfirst : ∀ j y, l[j]? = some y → p y = true → i ≤ j) :
    l.findIdx? p = some i := by
  obtain ⟨hi, hget⟩ := List.getElem?_eq_some_iff.mp hx
  refine List.findIdx?_eq_some_iff_getElem.mpr ⟨hi, by rw [hget]; exact hp, ?_⟩
  intro j hj hpj
  have hle := hfirst j _ (List.getElem?_eq_getElem (Nat.lt_trans hj hi)) hpj
  omega

/-- No place is found if no item passes the test. -/
theorem findIdx?_eq_none {l : List α} {p : α → Bool}
    (h : ∀ (j : Nat) (y : α), l[j]? = some y → p y = false) : l.findIdx? p = none := by
  rw [List.findIdx?_eq_none_iff]
  intro x hx
  obtain ⟨j, hj⟩ := List.mem_iff_getElem?.mp hx
  exact h j x hj

/-- The item at the place that is found passes the test. -/
theorem getElem?_of_findIdx? {l : List α} {p : α → Bool} {i : Nat} (h : l.findIdx? p = some i) :
    ∃ x, l[i]? = some x ∧ p x = true := by
  obtain ⟨hi, hp, _⟩ := List.findIdx?_eq_some_iff_getElem.mp h
  exact ⟨l[i], List.getElem?_eq_getElem hi, hp⟩

/-- A maximal run is what is taken from the front of the text. -/
theorem span_run {p : α → Bool} {run rest : List α} (hrun : ∀ c ∈ run, p c = true)
    (hmax : ∀ c ∈ rest.head?, p c = false) :
    (run ++ rest).takeWhile p = run ∧ (run ++ rest).dropWhile p = rest := by
  have hstop : rest.takeWhile p = [] ∧ rest.dropWhile p = rest := by
    cases rest with
    | nil => exact ⟨rfl, rfl⟩
    | cons c cs =>
      have hc : ¬ p c = true := Bool.eq_false_iff.mp (hmax c rfl)
      exact ⟨List.takeWhile_cons_of_neg hc, List.dropWhile_cons_of_neg hc⟩
  constructor
  · rw [List.takeWhile_append_of_pos hrun, hstop.1, List.append_nil]
  · rw [List.dropWhile_append_of_pos hrun, hstop.2]

/-- What is left begins with an item that fails the test. -/
theorem head?_dropWhile (p : α → Bool) (l : List α) :
    ∀ c ∈ (l.dropWhile p).head?, p c = false := by
  intro c hc
  have h := List.head?_dropWhile_not p l
  rw [Option.mem_def.mp hc] at h
  exact h

/-- What a search finds is known where all candidates agree on it. -/
theorem map_find?_eq {l : List α} {p : α → Bool} {f : α → β} {x : α} {b : β} (hx : x ∈ l)
    (hp : p x = true) (hagree : ∀ y ∈ l, p y = true → f y = b) : (l.find? p).map f = some b := by
  cases hfind : l.find? p with
  | none => exact absurd hp (List.find?_eq_none.mp hfind x hx)
  | some y =>
    rw [Option.map_some, hagree y (List.mem_of_find?_eq_some hfind) (List.find?_some hfind)]

/-- The position of an element by its block and its position there. -/
theorem flatMap_getElem? {l : List α} {f : α → List β} {k j : Nat} {a : α} {x : β}
    (ha : l[k]? = some a) (hx : (f a)[j]? = some x) :
    (l.flatMap f)[((l.take k).flatMap f).length + j]? = some x := by
  obtain ⟨hk, rfl⟩ := List.getElem?_eq_some_iff.mp ha
  have hsplit : l = l.take k ++ l[k] :: l.drop (k + 1) := by
    rw [← List.drop_eq_getElem_cons hk, List.take_append_drop]
  have hj : j < (f l[k]).length := (List.getElem?_eq_some_iff.mp hx).1
  have hflat : l.flatMap f =
      (l.take k).flatMap f ++ (f l[k] ++ (l.drop (k + 1)).flatMap f) := by
    conv_lhs => rw [hsplit]
    rw [List.flatMap_append, List.flatMap_cons]
  rw [hflat, List.getElem?_append_right (Nat.le_add_right _ _), Nat.add_sub_cancel_left,
    List.getElem?_append_left hj, hx]

/-- Every element stands in some block. -/
theorem exists_of_flatMap_getElem? {l : List α} {f : α → List β} {p : Nat} {x : β}
    (h : (l.flatMap f)[p]? = some x) :
    ∃ k j a, l[k]? = some a ∧ (f a)[j]? = some x ∧ p = ((l.take k).flatMap f).length + j := by
  induction l generalizing p with
  | nil => cases h
  | cons a l ih =>
    rw [List.flatMap_cons] at h
    by_cases hp : p < (f a).length
    · rw [List.getElem?_append_left hp] at h
      exact ⟨0, p, a, rfl, h, (Nat.zero_add p).symm⟩
    · rw [List.getElem?_append_right (Nat.le_of_not_lt hp)] at h
      obtain ⟨k, j, b, hb, hx, hpos⟩ := ih h
      refine ⟨k + 1, j, b, hb, hx, ?_⟩
      rw [List.take_succ_cons, List.flatMap_cons, List.length_append]
      omega

/-- Among blocks without a common element, an element tells its block. -/
theorem eq_of_common {l : List α} {f : α → List β} (h : (l.flatMap f).Nodup) {i j : Nat} {a b : α}
    {x : β} (ha : l[i]? = some a) (hb : l[j]? = some b) (hxa : x ∈ f a) (hxb : x ∈ f b) :
    i = j := by
  have hpair := (List.nodup_flatMap.mp h).2
  obtain ⟨hi, rfl⟩ := List.getElem?_eq_some_iff.mp ha
  obtain ⟨hj, rfl⟩ := List.getElem?_eq_some_iff.mp hb
  rcases Nat.lt_trichotomy i j with hlt | heq | hlt
  · exact absurd hxb (List.pairwise_iff_getElem.mp hpair i j hi hj hlt hxa)
  · exact heq
  · exact absurd hxa (List.pairwise_iff_getElem.mp hpair j i hj hi hlt hxb)

end Positions
