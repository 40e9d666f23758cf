import BootExtractor.Lib.Utf8
import Mathlib.Data.List.Pairwise
import Mathlib.Data.List.Sort

/-!
# Comparisons

The lexicographic order of lists as a search for the first difference, lists that
are sorted by a comparison of keys, the order of numbers as that of their decimal
digits, and the order of words as that of their bytes.
-/

/-- The first difference decides, then the lengths. -/
theorem List.compareLex_eq_first {α : Type} (cmp : α → α → Ordering) (xs ys : List α) :
    List.compareLex cmp xs ys =
      ((xs.zipWith cmp ys).find? (· ≠ .eq)).getD (compare xs.length ys.length) := by
  induction xs generalizing ys with
  | nil =>
    cases ys with
    | nil => rfl
    | cons y ys => exact List.compareLex_nil_cons.trans (Nat.compare_eq_lt.mpr (by simp)).symm
  | cons x xs ih =>
    cases ys with
    | nil => exact List.compareLex_cons_nil.trans (Nat.compare_eq_gt.mpr (by simp)).symm
    | cons y ys =>
      rw [List.compareLex_cons_cons, ih ys, List.zipWith_cons_cons]
      cases h : cmp x y with
      | lt => rfl
      | gt => rfl
      | eq =>
        have hlen : compare (x :: xs).length (y :: ys).length = compare xs.length ys.length := by
          simp only [Nat.compare_eq_ite_lt, List.length_cons, Nat.add_lt_add_iff_right]
        rw [List.find?_cons_of_neg (by simp), hlen]
        rfl

/-- Lists of images are compared by comparing images. -/
theorem List.compareLex_map {α β : Type} (cmp : β → β → Ordering) (f : α → β) (xs ys : List α) :
    List.compareLex cmp (xs.map f) (ys.map f) =
      List.compareLex (fun x y => cmp (f x) (f y)) xs ys := by
  induction xs generalizing ys with
  | nil =>
    cases ys with
    | nil => rfl
    | cons y ys => rfl
  | cons x xs ih =>
    cases ys with
    | nil => rfl
    | cons y ys =>
      rw [List.map_cons, List.map_cons, List.compareLex_cons_cons, List.compareLex_cons_cons, ih]

/-- Comparing lists needs the order of their items only. -/
theorem List.compareLex_congr {α : Type} {cmp cmp' : α → α → Ordering} {xs ys : List α}
    (h : ∀ x ∈ xs, ∀ y ∈ ys, cmp x y = cmp' x y) :
    List.compareLex cmp xs ys = List.compareLex cmp' xs ys := by
  induction xs generalizing ys with
  | nil =>
    cases ys with
    | nil => rfl
    | cons y ys => rfl
  | cons x xs ih =>
    cases ys with
    | nil => rfl
    | cons y ys =>
      rw [List.compareLex_cons_cons, List.compareLex_cons_cons,
        h x List.mem_cons_self y List.mem_cons_self,
        ih fun a ha b hb => h a (List.mem_cons_of_mem _ ha) b (List.mem_cons_of_mem _ hb)]

/-- Two functions that identify the same members identify the same lists. -/
theorem List.map_eq_map_iff_map_eq_map {α β γ : Type} {f : α → β} {g : α → γ} {xs ys : List α}
    (h : ∀ x ∈ xs, ∀ y ∈ ys, f x = f y ↔ g x = g y) :
    xs.map f = ys.map f ↔ xs.map g = ys.map g := by
  induction xs generalizing ys with
  | nil => cases ys <;> simp
  | cons x xs ih =>
    cases ys with
    | nil => simp
    | cons y ys =>
      have hmore := ih fun a ha b hb =>
        h a (List.mem_cons_of_mem _ ha) b (List.mem_cons_of_mem _ hb)
      simp only [List.map_cons, List.cons.injEq, hmore, h x List.mem_cons_self y List.mem_cons_self]

section Descending

variable {α κ : Type} {cmp : κ → κ → Ordering} [Std.TransCmp cmp] {key : α → κ}

/-- The second key does not come after the first. -/
abbrev Descends (cmp : κ → κ → Ordering) (key : α → κ) (a b : α) : Prop :=
  cmp (key b) (key a) ≠ .gt

/-- Descending is transitive. -/
theorem descends_trans {a b c : α} (hab : Descends cmp key a b) (hbc : Descends cmp key b c) :
    Descends cmp key a c := by
  have hle : (cmp (key c) (key a)).isLE = true :=
    Std.TransCmp.isLE_trans (Ordering.ne_gt_iff_isLE.mp hbc) (Ordering.ne_gt_iff_isLE.mp hab)
  exact Ordering.ne_gt_iff_isLE.mpr hle

/-- Of two items, one descends to the other. -/
theorem descends_total (a b : α) : Descends cmp key a b ∨ Descends cmp key b a := by
  rw [Descends, Descends, @Std.OrientedCmp.eq_swap _ cmp _ (key b) (key a)]
  cases cmp (key a) (key b)
  · exact Or.inr Ordering.noConfusion
  · exact Or.inl Ordering.noConfusion
  · exact Or.inl Ordering.noConfusion

/-- Sorting puts no key before a greater one. -/
theorem List.pairwise_descends (xs : List α) :
    (xs.insertionSort (Descends cmp key)).Pairwise (Descends cmp key) := by
  have : IsTrans α (Descends cmp key) := ⟨fun _ _ _ => descends_trans⟩
  have : Std.Total (Descends cmp key) := ⟨descends_total⟩
  exact List.pairwise_insertionSort _ xs

/-- If no two keys are equal, every key is greater than the next. -/
theorem List.pairwise_descending {xs : List α}
    (h : xs.Pairwise fun a b => cmp (key a) (key b) ≠ .eq) :
    (xs.insertionSort (Descends cmp key)).Pairwise fun a b => cmp (key a) (key b) = .gt := by
  have hsymm : ∀ {a b : α}, cmp (key a) (key b) ≠ .eq → cmp (key b) (key a) ≠ .eq :=
    fun hne he => hne (Std.OrientedCmp.eq_symm he)
  have hne := ((List.perm_insertionSort (Descends cmp key) xs).pairwise_iff hsymm).mpr h
  refine ((List.pairwise_descends xs).and hne).imp ?_
  rintro a b ⟨hle, hab⟩
  rw [Descends, @Std.OrientedCmp.eq_swap _ cmp _ (key b) (key a)] at hle
  revert hle hab
  cases cmp (key a) (key b)
  · exact fun hle _ => absurd rfl hle
  · exact fun _ hab => absurd rfl hab
  · exact fun _ _ => rfl

/-- If no two keys are equal, sorting forgets the order of the list. -/
theorem List.insertionSort_eq_of_perm {xs ys : List α} (hperm : xs.Perm ys)
    (h : xs.Pairwise fun a b => cmp (key a) (key b) ≠ .eq) :
    xs.insertionSort (Descends cmp key) = ys.insertionSort (Descends cmp key) := by
  have hsymm : ∀ {a b : α}, cmp (key a) (key b) ≠ .eq → cmp (key b) (key a) ≠ .eq :=
    fun hne he => hne (Std.OrientedCmp.eq_symm he)
  have hys := (hperm.pairwise_iff hsymm).mp h
  have hsorted : ((xs.insertionSort (Descends cmp key)).Perm
      (ys.insertionSort (Descends cmp key))) :=
    ((List.perm_insertionSort _ xs).trans hperm).trans (List.perm_insertionSort _ ys).symm
  refine List.Perm.eq_of_pairwise ?_ (List.pairwise_descending h) (List.pairwise_descending hys)
    hsorted
  intro a b _ _ hab hba
  rw [@Std.OrientedCmp.eq_swap _ cmp _ (key b) (key a), hab] at hba
  cases hba

end Descending

namespace Str

/-- The number that decimal digits spell. -/
def numeral (ds : Str) : Nat := Nat.ofDigitChars 10 ds 0

/-- Digits without leading zeroes. -/
def significant (ds : Str) : Str := ds.dropWhile (· == '0')

/-- The value of the first digit goes by its place. -/
private theorem numeral_cons (c : Char) (ds : Str) :
    numeral (c :: ds) = 10 ^ ds.length * (c.toNat - '0'.toNat) + numeral ds := by
  rw [numeral, Nat.ofDigitChars_cons, Nat.ofDigitChars_eq_ofDigitChars_zero, Nat.mul_zero,
    Nat.zero_add, numeral]

/-- So many digits make a number below that power of ten. -/
private theorem numeral_lt {ds : Str} (h : ∀ c ∈ ds, c.isDigit = true) :
    numeral ds < 10 ^ ds.length := by
  induction ds with
  | nil => exact Nat.one_pos
  | cons c ds ih =>
    have hmore := ih fun d hd => h d (List.mem_cons_of_mem _ hd)
    have hdigit : c.toNat - '0'.toNat ≤ 9 := by
      have := digit_bounds (h c List.mem_cons_self)
      exact Nat.sub_le_of_le_add this.2
    have hmul := Nat.mul_le_mul_left (10 ^ ds.length) hdigit
    rw [numeral_cons, List.length_cons, Nat.pow_succ]
    omega

/-- Leading zeros do not change the number. -/
theorem numeral_significant (ds : Str) : numeral (significant ds) = numeral ds := by
  induction ds with
  | nil => rfl
  | cons c ds ih =>
    rw [significant, List.dropWhile_cons]
    split
    · rename_i hzero
      obtain rfl : c = '0' := by simpa using hzero
      rw [numeral_cons, Nat.sub_self, Nat.mul_zero, Nat.zero_add]
      exact ih
    · rfl

/-- A first digit that is not zero counts. -/
theorem le_numeral {c : Char} {ds : Str} (hdigit : c.isDigit = true) (hzero : c ≠ '0') :
    10 ^ ds.length ≤ numeral (c :: ds) := by
  have hpos : 1 ≤ c.toNat - '0'.toNat := by
    have hne : c.toNat ≠ 48 := fun h => hzero (Char.toNat_inj.mp h)
    have hlow := (digit_bounds hdigit).1
    exact Nat.le_sub_of_add_le (Nat.lt_of_le_of_ne hlow (Ne.symm hne))
  rw [numeral_cons]
  exact (Nat.le_mul_of_pos_right _ hpos).trans (Nat.le_add_right _ _)

/-- A difference of the leading parts decides, if the lower parts stay below their weight. -/
theorem compare_weighted {n u v : Nat} (x y : Nat) (hu : u < n) (hv : v < n) :
    compare (n * x + u) (n * y + v) = (compare x y).then (compare u v) := by
  rcases Nat.lt_trichotomy x y with hlt | rfl | hgt
  · have hmul := Nat.mul_le_mul_left n (Nat.succ_le_of_lt hlt)
    rw [Nat.mul_succ] at hmul
    rw [Nat.compare_eq_lt.mpr hlt, Nat.compare_eq_lt.mpr (show n * x + u < n * y + v by omega)]
    rfl
  · rw [Nat.compare_eq_eq.mpr rfl]
    simp only [Nat.compare_eq_ite_lt, Nat.add_lt_add_iff_left, Ordering.then]
  · have hmul := Nat.mul_le_mul_left n (Nat.succ_le_of_lt hgt)
    rw [Nat.mul_succ] at hmul
    rw [Nat.compare_eq_gt.mpr hgt, Nat.compare_eq_gt.mpr (show n * y + v < n * x + u by omega)]
    rfl

/-- Digits compare as their characters do. -/
private theorem compare_digits {c d : Char} (hc : c.isDigit = true) (hd : d.isDigit = true) :
    compare (c.toNat - '0'.toNat) (d.toNat - '0'.toNat) = compare c.toNat d.toNat := by
  have hcb := digit_bounds hc
  have hdb := digit_bounds hd
  have hz : '0'.toNat = 48 := rfl
  have hlt : c.toNat - 48 < d.toNat - 48 ↔ c.toNat < d.toNat := by omega
  have hgt : d.toNat - 48 < c.toNat - 48 ↔ d.toNat < c.toNat := by omega
  simp only [hz, Nat.compare_eq_ite_lt, hlt, hgt]

/-- Of numbers with as many digits the first digit that differs decides. -/
theorem compare_numeral_of_length_eq {a b : Str} (ha : ∀ c ∈ a, c.isDigit = true)
    (hb : ∀ c ∈ b, c.isDigit = true) (h : a.length = b.length) :
    compare (numeral a) (numeral b) = List.compareLex (compareOn Char.toNat) a b := by
  induction a generalizing b with
  | nil =>
    obtain rfl : b = [] := List.length_eq_zero_iff.mp h.symm
    rfl
  | cons c as ih =>
    cases b with
    | nil => cases h
    | cons d bs =>
      have hlen : as.length = bs.length := Nat.succ.inj h
      have has := fun x hx => ha x (List.mem_cons_of_mem _ hx)
      have hbs := fun x hx => hb x (List.mem_cons_of_mem _ hx)
      have hla := numeral_lt has
      rw [hlen] at hla
      rw [numeral_cons, numeral_cons, hlen, compare_weighted _ _ hla (numeral_lt hbs),
        compare_digits (ha c List.mem_cons_self) (hb d List.mem_cons_self), ih has hbs hlen,
        List.compareLex_cons_cons]
      rfl

/-- Of numbers without leading zeroes the longer one is the greater. -/
theorem numeral_lt_of_length_lt {a b : Str} (ha : ∀ c ∈ a, c.isDigit = true)
    (hb : ∀ c ∈ b, c.isDigit = true) (hzero : b.head? ≠ some '0') (h : a.length < b.length) :
    numeral a < numeral b := by
  cases b with
  | nil => cases h
  | cons d bs =>
    calc numeral a < 10 ^ a.length := numeral_lt ha
      _ ≤ 10 ^ bs.length := Nat.pow_le_pow_right (by decide) (Nat.le_of_lt_succ h)
      _ ≤ numeral (d :: bs) := le_numeral (hb d List.mem_cons_self) fun he => hzero (he ▸ rfl)

/-- What is left begins with no zero. -/
theorem head?_significant (ds : Str) : (significant ds).head? ≠ some '0' := by
  intro h
  have := List.head?_dropWhile_not (· == '0') ds
  rw [significant] at h
  rw [h] at this
  exact absurd this (by decide)

/-- Numbers of any size are compared by their digits: the length without leading zeroes
decides, then the first digit that differs. -/
theorem compare_numeral {a b : Str} (ha : ∀ c ∈ a, c.isDigit = true)
    (hb : ∀ c ∈ b, c.isDigit = true) :
    compare (numeral a) (numeral b) =
      (compare (significant a).length (significant b).length).then
        (List.compareLex (compareOn Char.toNat) (significant a) (significant b)) := by
  have hsa : ∀ c ∈ significant a, c.isDigit = true := fun c hc =>
    ha c ((List.dropWhile_sublist _).subset hc)
  have hsb : ∀ c ∈ significant b, c.isDigit = true := fun c hc =>
    hb c ((List.dropWhile_sublist _).subset hc)
  rw [← numeral_significant a, ← numeral_significant b]
  rcases Nat.lt_trichotomy (significant a).length (significant b).length with hlt | heq | hgt
  · have := numeral_lt_of_length_lt hsa hsb (head?_significant b) hlt
    rw [Nat.compare_eq_lt.mpr hlt, Nat.compare_eq_lt.mpr this]
    rfl
  · rw [compare_numeral_of_length_eq hsa hsb heq, Nat.compare_eq_eq.mpr heq]
    rfl
  · have := numeral_lt_of_length_lt hsb hsa (head?_significant a) hgt
    rw [Nat.compare_eq_gt.mpr hgt, Nat.compare_eq_gt.mpr this]
    rfl

instance : Std.LawfulEqCmp (compareOn Char.toNat) where
  compare_self := Nat.compare_eq_eq.mpr rfl
  eq_of_compare h := Char.toNat_inj.mp (Nat.compare_eq_eq.mp h)

/-- Digits spell one number if they differ in leading zeroes only. -/
theorem numeral_eq_iff {a b : Str} (ha : ∀ c ∈ a, c.isDigit = true)
    (hb : ∀ c ∈ b, c.isDigit = true) : numeral a = numeral b ↔ significant a = significant b := by
  constructor
  · intro h
    have hcompare := Nat.compare_eq_eq.mpr h
    rw [compare_numeral ha hb, Ordering.then_eq_eq] at hcompare
    exact Std.LawfulEqCmp.eq_of_compare hcompare.2
  · intro h
    rw [← numeral_significant a, h, numeral_significant]

/-- An ASCII character is one byte. -/
theorem encode_ascii {s : Str} (h : ∀ c ∈ s, c.toNat < 128) :
    Utf8.encode s = s.map fun c => c.toNat.toUInt8 := by
  induction s with
  | nil => rfl
  | cons c s ih =>
    have hc : c.val ≤ 127 := UInt32.le_iff_toNat_le.mpr (Nat.le_of_lt_succ (h c List.mem_cons_self))
    rw [Utf8.encode, List.flatMap_cons,
      String.utf8EncodeChar_eq_singleton (Char.utf8Size_eq_one_iff.mpr hc)]
    exact congrArg (_ :: ·) (ih fun d hd => h d (List.mem_cons_of_mem _ hd))

/-- Bytes compare as their numbers do. -/
theorem compare_byte {m n : Nat} (hm : m < 256) (hn : n < 256) :
    compare m.toUInt8 n.toUInt8 = compare m n := by
  have hlt : m.toUInt8 < n.toUInt8 ↔ m < n := by
    rw [UInt8.lt_iff_toNat_lt]
    simp [Nat.mod_eq_of_lt hm, Nat.mod_eq_of_lt hn]
  have heq : m.toUInt8 = n.toUInt8 ↔ m = n := by
    rw [← UInt8.toNat_inj]
    simp [Nat.mod_eq_of_lt hm, Nat.mod_eq_of_lt hn]
  simp only [compare, compareOfLessAndEq, hlt, heq]

/-- ASCII texts are ordered by their characters as by their bytes. -/
theorem compare_encode {a b : Str} (ha : ∀ c ∈ a, c.toNat < 128) (hb : ∀ c ∈ b, c.toNat < 128) :
    List.compareLex compare (Utf8.encode a) (Utf8.encode b) =
      List.compareLex (compareOn Char.toNat) a b := by
  rw [encode_ascii ha, encode_ascii hb, List.compareLex_map]
  apply List.compareLex_congr
  intro c hc d hd
  exact compare_byte (Nat.lt_trans (ha c hc) (by decide)) (Nat.lt_trans (hb d hd) (by decide))

end Str
