import BootExtractor.Boot.Vercmp
import BootExtractor.Lib.Compare
import BootExtractor.Lib.Positions

/-!
# The order of versions

What a version denotes is a list of words and numbers, and versions compare as
these lists do. So the comparison is a total preorder, and two versions are equal
in it when they differ in leading zeroes and separators only.
-/

open Std

namespace BootExtractor.Boot

/-- What a segment denotes: a word by its bytes, or a number of any size. -/
inductive Value where
  | word (bytes : Bytes)
  | number (n : Nat)
  deriving DecidableEq, Repr

/-- Words are ordered bytewise, and every number comes after every word. -/
def Value.cmp : Value → Value → Ordering
  | .word u, .word v => List.compareLex compare u v
  | .word _, .number _ => .lt
  | .number _, .word _ => .gt
  | .number m, .number n => compare m n

instance : OrientedCmp Value.cmp where
  eq_swap {a b} := by
    cases a <;> cases b <;> simp only [Value.cmp]
    · exact OrientedCmp.eq_swap
    · rfl
    · rfl
    · exact OrientedCmp.eq_swap

instance : TransCmp Value.cmp where
  isLE_trans {a b c} hab hbc := by
    cases a <;> cases b <;> cases c <;> simp only [Value.cmp] at *
    all_goals first | exact TransCmp.isLE_trans hab hbc | contradiction | rfl

instance : LawfulEqCmp Value.cmp where
  compare_self {a} := by
    cases a <;> exact ReflCmp.compare_self
  eq_of_compare {a b} h := by
    cases a <;> cases b <;> simp only [Value.cmp] at h
    · exact congrArg Value.word (LawfulEqCmp.eq_of_compare h)
    · cases h
    · cases h
    · exact congrArg Value.number (LawfulEqCmp.eq_of_compare h)

/-- The value of a segment. -/
def Seg.value : Seg → Value
  | .num digits => .number (Str.numeral digits)
  | .alpha letters => .word (Utf8.encode letters)

/-- A segment without the zeroes that lead its number. -/
def Seg.bare : Seg → Seg
  | .num digits => .num (Str.significant digits)
  | .alpha letters => .alpha letters

/-- The maximal runs of ASCII digits and of ASCII letters of a text, in order. -/
inductive Cut : Str → List Seg → Prop where
  | nil : Cut [] []
  | separator {c : Char} {rest : Str} {segs : List Seg} (hdigit : c.isDigit = false)
      (halpha : c.isAlpha = false) (hrest : Cut rest segs) : Cut (c :: rest) segs
  | number {run rest : Str} {segs : List Seg} (hne : run ≠ []) (hrun : ∀ c ∈ run, c.isDigit = true)
      (hmax : ∀ c ∈ rest.head?, c.isDigit = false) (hrest : Cut rest segs) :
      Cut (run ++ rest) (.num run :: segs)
  | word {run rest : Str} {segs : List Seg} (hne : run ≠ []) (hrun : ∀ c ∈ run, c.isAlpha = true)
      (hmax : ∀ c ∈ rest.head?, c.isAlpha = false) (hrest : Cut rest segs) :
      Cut (run ++ rest) (.alpha run :: segs)

private theorem alpha_bounds {c : Char} (h : c.isAlpha = true) : 65 ≤ c.toNat ∧ c.toNat ≤ 122 := by
  have hletter : c.isUpper = true ∨ c.isLower = true := Bool.or_eq_true_iff.mp h
  rcases hletter with hupper | hlower
  · have hbounds : 65 ≤ c.toNat ∧ c.toNat ≤ 90 := of_decide_eq_true hupper
    omega
  · obtain ⟨hlo, hhi⟩ := Bool.and_eq_true_iff.mp hlower
    have hlo : 97 ≤ c.toNat := of_decide_eq_true hlo
    have hhi : c.toNat ≤ 122 := of_decide_eq_true hhi
    omega

private theorem isDigit_eq_false_of_isAlpha {c : Char} (h : c.isAlpha = true) :
    c.isDigit = false := by
  refine Bool.eq_false_iff.mpr fun hdigit => ?_
  have halpha := alpha_bounds h
  have hdigits := Str.digit_bounds hdigit
  omega

/-- With enough passes the loop finds the maximal runs. -/
theorem Cut.go_eq {s : Str} {segs : List Seg} (h : Cut s segs) {fuel : Nat}
    (hfuel : s.length ≤ fuel) : segments.go fuel s = segs := by
  induction h generalizing fuel with
  | nil => cases fuel <;> rfl
  | separator hdigit halpha hrest ih =>
    obtain ⟨fuel, rfl⟩ := Nat.exists_eq_succ_of_ne_zero (Nat.ne_zero_of_lt hfuel)
    rw [segments.go, hdigit, halpha]
    exact ih (Nat.le_of_succ_le_succ hfuel)
  | number hne hrun hmax hrest ih =>
    rename_i run rest segs
    obtain ⟨c, run, rfl⟩ := List.exists_cons_of_ne_nil hne
    obtain ⟨fuel, rfl⟩ := Nat.exists_eq_succ_of_ne_zero (Nat.ne_zero_of_lt hfuel)
    have htail := Positions.span_run (fun d hd => hrun d (List.mem_cons_of_mem _ hd)) hmax
    have hle : rest.length ≤ fuel := by
      rw [List.length_append, List.length_cons] at hfuel
      omega
    rw [List.cons_append, segments.go, if_pos (hrun c List.mem_cons_self), htail.1, htail.2, ih hle]
  | word hne hrun hmax hrest ih =>
    rename_i run rest segs
    obtain ⟨c, run, rfl⟩ := List.exists_cons_of_ne_nil hne
    obtain ⟨fuel, rfl⟩ := Nat.exists_eq_succ_of_ne_zero (Nat.ne_zero_of_lt hfuel)
    have htail := Positions.span_run (fun d hd => hrun d (List.mem_cons_of_mem _ hd)) hmax
    have hc := hrun c List.mem_cons_self
    have hle : rest.length ≤ fuel := by
      rw [List.length_append, List.length_cons] at hfuel
      omega
    rw [List.cons_append, segments.go, isDigit_eq_false_of_isAlpha hc, if_neg Bool.false_ne_true,
      if_pos hc, htail.1, htail.2, ih hle]

/-- Every pass of the loop takes a separator or a maximal run. -/
theorem cut_go {fuel : Nat} {s : Str} (hfuel : s.length ≤ fuel) : Cut s (segments.go fuel s) := by
  induction fuel generalizing s with
  | zero =>
    obtain rfl := List.length_eq_zero_iff.mp (Nat.le_zero.mp hfuel)
    exact Cut.nil
  | succ fuel ih =>
    cases s with
    | nil => exact Cut.nil
    | cons c rest =>
      have hdrop : ∀ p : Char → Bool, (rest.dropWhile p).length ≤ fuel := fun p =>
        (List.dropWhile_sublist p).length_le.trans (Nat.le_of_succ_le_succ hfuel)
      have hrun : ∀ p : Char → Bool, p c = true → ∀ d ∈ c :: rest.takeWhile p, p d = true := by
        rintro p hc d (_ | ⟨_, hd⟩)
        · exact hc
        · exact List.mem_takeWhile_imp hd
      have hsplit : ∀ p : Char → Bool, c :: rest = (c :: rest.takeWhile p) ++ rest.dropWhile p := by
        intro p
        rw [List.cons_append, List.takeWhile_append_dropWhile]
      rw [segments.go]
      split
      · rename_i hdigit
        rw [hsplit Char.isDigit]
        exact Cut.number (List.cons_ne_nil _ _) (hrun _ hdigit) (Positions.head?_dropWhile _ _)
          (ih (hdrop _))
      · rename_i hdigit
        split
        · rename_i halpha
          rw [hsplit Char.isAlpha]
          exact Cut.word (List.cons_ne_nil _ _) (hrun _ halpha) (Positions.head?_dropWhile _ _)
            (ih (hdrop _))
        · rename_i halpha
          exact Cut.separator (Bool.eq_false_iff.mpr hdigit) (Bool.eq_false_iff.mpr halpha)
            (ih (Nat.le_of_succ_le_succ hfuel))

/-- The segments are the maximal runs, and these are unique. -/
theorem cut_iff {s : Str} {segs : List Seg} : Cut s segs ↔ segments s = segs := by
  constructor
  · exact fun h => h.go_eq (Nat.le_refl _)
  · rintro rfl
    exact cut_go (Nat.le_refl _)

/-- A segment with the characters of its kind only. -/
def Seg.Pure : Seg → Prop
  | .num digits => ∀ c ∈ digits, c.isDigit = true
  | .alpha letters => ∀ c ∈ letters, c.isAlpha = true

/-- Every segment of a cut is digits or letters throughout. -/
theorem Cut.pure {s : Str} {segs : List Seg} (h : Cut s segs) : ∀ seg ∈ segs, seg.Pure := by
  induction h with
  | nil => exact fun _ hmem => absurd hmem List.not_mem_nil
  | separator _ _ _ ih => exact ih
  | number _ hrun _ _ ih => exact List.forall_mem_cons.mpr ⟨hrun, ih⟩
  | word _ hrun _ _ ih => exact List.forall_mem_cons.mpr ⟨hrun, ih⟩

private theorem lt_of_isAlpha {c : Char} (h : c.isAlpha = true) : c.toNat < 128 := by
  have halpha := alpha_bounds h
  omega

/-- The comparison of texts is the lexicographic one. -/
theorem cmpStr_eq (a b : Str) : cmpStr a b = List.compareLex (compareOn Char.toNat) a b := by
  induction a generalizing b with
  | nil =>
    cases b with
    | nil => rfl
    | cons d bs => rfl
  | cons c as ih =>
    cases b with
    | nil => rfl
    | cons d bs => rw [cmpStr, ih, List.compareLex_cons_cons, compareOn]

/-- Segments compare as the values they denote. -/
theorem cmpSeg_eq {x y : Seg} (hx : x.Pure) (hy : y.Pure) :
    cmpSeg x y = Value.cmp x.value y.value := by
  cases x with
  | num x =>
    cases y with
    | num y => exact (cmpStr_eq _ _ ▸ Str.compare_numeral hx hy).symm
    | alpha y => rfl
  | alpha x =>
    cases y with
    | num y => rfl
    | alpha y =>
      have hascii := Str.compare_encode (fun c hc => lt_of_isAlpha (hx c hc))
        fun c hc => lt_of_isAlpha (hy c hc)
      exact (cmpStr_eq x y).trans hascii.symm

/-- What a version denotes. -/
def meaning (s : Str) : List Value := (segments s).map Seg.value

/-- Versions compare as what they denote. -/
theorem vercmp_eq_meaning (a b : Str) :
    vercmp a b = List.compareLex Value.cmp (meaning a) (meaning b) := by
  have hfirst : vercmp a b = List.compareLex cmpSeg (segments a) (segments b) := by
    rw [List.compareLex_eq_first, vercmp]
    cases (List.zipWith cmpSeg (segments a) (segments b)).find? (· ≠ .eq) <;> rfl
  rw [hfirst, meaning, meaning, List.compareLex_map]
  apply List.compareLex_congr
  intro x hx y hy
  exact cmpSeg_eq ((cut_iff.mpr rfl).pure x hx) ((cut_iff.mpr rfl).pure y hy)

/-- Pure segments denote the same when they differ in leading zeroes only. -/
theorem value_eq_iff {x y : Seg} (hx : x.Pure) (hy : y.Pure) :
    x.value = y.value ↔ x.bare = y.bare := by
  cases x with
  | num x =>
    cases y with
    | num y => simpa only [Seg.value, Seg.bare, Value.number.injEq, Seg.num.injEq]
        using Str.numeral_eq_iff hx hy
    | alpha y => simp only [Seg.value, Seg.bare, reduceCtorEq]
  | alpha x =>
    cases y with
    | num y => simp only [Seg.value, Seg.bare, reduceCtorEq]
    | alpha y =>
      simp only [Seg.value, Seg.bare, Value.word.injEq, Seg.alpha.injEq]
      constructor
      · intro h
        have hdecode := congrArg Utf8.decode? h
        rw [Utf8.decode?_encode, Utf8.decode?_encode] at hdecode
        exact Option.some.inj hdecode
      · rintro rfl
        rfl

/-- Equal versions have the same segments up to leading zeroes. -/
theorem vercmp_eq_eq_iff (a b : Str) :
    vercmp a b = .eq ↔ (segments a).map Seg.bare = (segments b).map Seg.bare := by
  rw [vercmp_eq_meaning, LawfulEqCmp.compare_eq_iff_eq]
  apply List.map_eq_map_iff_map_eq_map
  intro x hx y hy
  exact value_eq_iff ((cut_iff.mpr rfl).pure x hx) ((cut_iff.mpr rfl).pure y hy)

instance : OrientedCmp vercmp where
  eq_swap {a b} := by
    rw [vercmp_eq_meaning, vercmp_eq_meaning]
    exact OrientedCmp.eq_swap

instance : TransCmp vercmp where
  isLE_trans {a b c} hab hbc := by
    rw [vercmp_eq_meaning] at *
    exact TransCmp.isLE_trans hab hbc

/-- Any two versions compare. -/
theorem vercmp_total (a b : Str) : (vercmp a b).isLE = true ∨ (vercmp b a).isLE = true := by
  rw [@OrientedCmp.eq_swap _ vercmp _ b a]
  cases vercmp a b
  · exact Or.inl rfl
  · exact Or.inl rfl
  · exact Or.inr rfl

/-- Version comparison is the lexicographic comparison of the lists of words and numbers
that the maximal runs of the texts denote: a total preorder, in which two texts are equal
when their runs agree up to leading zeroes. -/
theorem vercmp_preorder (a b c : Str) :
    (∀ segs, Cut a segs ↔ segments a = segs) ∧
      vercmp a b = List.compareLex Value.cmp ((segments a).map Seg.value)
        ((segments b).map Seg.value) ∧
      ((vercmp a b).isLE = true ∨ (vercmp b a).isLE = true) ∧
      ((vercmp a b).isLE = true → (vercmp b c).isLE = true → (vercmp a c).isLE = true) ∧
      vercmp b a = (vercmp a b).swap ∧
      (vercmp a b = .eq ↔ (segments a).map Seg.bare = (segments b).map Seg.bare) :=
  ⟨fun _ => cut_iff, vercmp_eq_meaning a b, vercmp_total a b, TransCmp.isLE_trans,
    OrientedCmp.eq_swap, vercmp_eq_eq_iff a b⟩

/-- A longer number beats a shorter one, whatever their zeroes. -/
theorem vercmp_preorder_kernels :
    (vercmp "6.6.9".toList "6.6.010-rc".toList).isLE = true :=
  ((vercmp_preorder "6.6.9".toList "6.6.10".toList "6.6.010-rc".toList).2.2.2.1
    (by decide +kernel) (by decide +kernel))

end BootExtractor.Boot
