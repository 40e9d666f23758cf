import BootExtractor.Lib.Str

/-!
# Byte offsets in a text

Search and slicing of the standard string library count in bytes of the UTF-8
encoding. A text can be cut only between two characters; an offset inside of a
character or past the end is no place to cut at.
-/

namespace Str

/-- The length of the encoding. -/
def byteLen : Str → Nat
  | [] => 0
  | c :: rest => c.utf8Size + byteLen rest

/-- `find`: the offset of the first character with the property. -/
def find (p : Char → Bool) : Str → Option Nat
  | [] => none
  | c :: rest => if p c then some 0 else (find p rest).map (c.utf8Size + ·)

/-- `rfind`: the offset of the last character with the property. -/
def rfind (p : Char → Bool) : Str → Option Nat
  | [] => none
  | c :: rest =>
    match rfind p rest with
    | some i => some (c.utf8Size + i)
    | none => if p c then some 0 else none

/-- `split_at`: the text up to an offset and from it on, if the offset is a boundary. -/
def splitAt : Str → Nat → Option (Str × Str)
  | s, 0 => some ([], s)
  | [], _ + 1 => none
  | c :: rest, n + 1 =>
    if n + 1 < c.utf8Size then none
    else (splitAt rest (n + 1 - c.utf8Size)).map fun (a, b) => (c :: a, b)

/-- The empty text has no bytes. -/
@[simp] theorem byteLen_nil : byteLen [] = 0 := rfl

/-- A character adds its bytes. -/
@[simp] theorem byteLen_cons (c : Char) (s : Str) : byteLen (c :: s) = c.utf8Size + byteLen s := rfl

/-- Two texts have the bytes of both. -/
@[simp] theorem byteLen_append (a b : Str) : byteLen (a ++ b) = byteLen a + byteLen b := by
  induction a with
  | nil => simp
  | cons c a ih => simp only [List.cons_append, byteLen_cons, ih, Nat.add_assoc]

/-- Every text can be cut at its start. -/
private theorem splitAt_zero (s : Str) : splitAt s 0 = some ([], s) := by
  cases s <;> rfl

/-- A cut further on is behind the first character or inside of it. -/
private theorem splitAt_cons {c : Char} {rest : Str} {n : Nat} (h : 0 < n) :
    splitAt (c :: rest) n =
      if n < c.utf8Size then none
      else (splitAt rest (n - c.utf8Size)).map fun (a, b) => (c :: a, b) := by
  obtain ⟨m, rfl⟩ := Nat.exists_eq_succ_of_ne_zero (Nat.ne_of_gt h)
  rfl

/-- Behind a part of the text is a boundary. -/
theorem splitAt_byteLen (a b : Str) : splitAt (a ++ b) (byteLen a) = some (a, b) := by
  induction a with
  | nil => exact splitAt_zero b
  | cons c a ih =>
    have hpos := Char.utf8Size_pos c
    have hn : ¬c.utf8Size + byteLen a < c.utf8Size := by omega
    rw [List.cons_append, byteLen_cons, splitAt_cons (by omega), if_neg hn, Nat.add_sub_cancel_left,
      ih]
    rfl

/-- Inside of a character is no boundary. -/
theorem splitAt_inside (a b : Str) {c : Char} {k : Nat} (h0 : 0 < k) (hk : k < c.utf8Size) :
    splitAt (a ++ c :: b) (byteLen a + k) = none := by
  induction a with
  | nil => rw [List.nil_append, byteLen_nil, Nat.zero_add, splitAt_cons h0, if_pos hk]
  | cons x a ih =>
    have hn : ¬x.utf8Size + byteLen a + k < x.utf8Size := by omega
    have hrest : x.utf8Size + byteLen a + k - x.utf8Size = byteLen a + k := by omega
    rw [List.cons_append, byteLen_cons, splitAt_cons (by omega), if_neg hn, hrest, ih]
    rfl

/-- The first character with the property stands behind all that have it not. -/
theorem find_getD (p : Char → Bool) (s : Str) :
    (find p s).getD (byteLen s) = byteLen (s.takeWhile fun c => !p c) := by
  induction s with
  | nil => rfl
  | cons c rest ih =>
    by_cases hc : p c
    · simp [find, hc]
    · rw [find, if_neg hc, List.takeWhile_cons_of_pos (by simpa using hc), byteLen_cons,
        byteLen_cons, ← ih]
      cases find p rest <;> rfl

/-- A text can be cut where a search ends. -/
theorem splitAt_find (p : Char → Bool) (s : Str) :
    splitAt s ((find p s).getD (byteLen s)) =
      some (s.takeWhile fun c => !p c, s.dropWhile fun c => !p c) := by
  have h := splitAt_byteLen (s.takeWhile fun c => !p c) (s.dropWhile fun c => !p c)
  rw [List.takeWhile_append_dropWhile] at h
  rw [find_getD, h]

/-- No character is found if none is as wanted. -/
theorem rfind_eq_none {p : Char → Bool} {s : Str} (h : ∀ c ∈ s, p c = false) :
    rfind p s = none := by
  induction s with
  | nil => rfl
  | cons c rest ih =>
    have hc : ¬p c := by rw [h c List.mem_cons_self]; exact Bool.false_ne_true
    rw [rfind, ih fun x hx => h x (List.mem_cons_of_mem _ hx)]
    exact if_neg hc

/-- The last character with the property, with those behind it that have it not. -/
theorem rfind_append {p : Char → Bool} (a : Str) {c : Char} {b : Str} (hc : p c)
    (hb : ∀ x ∈ b, p x = false) : rfind p (a ++ c :: b) = some (byteLen a) := by
  induction a with
  | nil =>
    rw [List.nil_append, rfind, rfind_eq_none hb]
    exact if_pos hc
  | cons x a ih => rw [List.cons_append, rfind, ih, byteLen_cons]

end Str
