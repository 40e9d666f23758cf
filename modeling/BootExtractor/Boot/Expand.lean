import BootExtractor.Boot.Grubenv
import BootExtractor.Lib.Positions

/-!
# Expanding variables

A text is a row of literal pieces and of references to variables. Expansion puts the
value of every variable in its place, as it is, and leaves the rest alone.
-/

namespace BootExtractor.Boot

/-- A run of the loop of `expand`: what it has written when the text is used up. -/
inductive Expands (env : Env) : Str → Str → Prop where
  | done : Expands env [] []
  | char {c : Char} {rest out : Str} (hc : c ≠ '$') (hrest : Expands env rest out) :
      Expands env (c :: rest) (c :: out)
  | reference {rest out : Str} (hrest : Expands env (splitName rest).2 out) :
      Expands env ('$' :: rest) (valueOf env (splitName rest).1 ++ out)

/-- A literal, `${name}` or `$name`. -/
inductive Piece where
  | literal (text : Str)
  | braced (name : Str)
  | bare (name : Str)
  deriving DecidableEq, Repr

namespace Piece

/-- The text of a piece. -/
def text : Piece → Str
  | literal text => text
  | braced name => '$' :: '{' :: name ++ ['}']
  | bare name => '$' :: name

/-- What stands for a piece: itself or its variable's value, none being empty. -/
def value (env : Env) : Piece → Str
  | literal text => text
  | braced name => (env name).getD []
  | bare name => (env name).getD []

/-- The text of a piece says which piece it is. A bare name ends at `after`, the first
character behind it. -/
inductive Readable : Piece → Option Char → Prop where
  | literal {text : Str} {after : Option Char} (h : '$' ∉ text) : Readable (literal text) after
  | braced {name : Str} {after : Option Char} (hne : name ≠ []) (h : '}' ∉ name) :
      Readable (braced name) after
  | bare {name : Str} {after : Option Char} (hne : name ≠ [])
      (hname : ∀ c ∈ name, isNameChar c = true) (hafter : ∀ c ∈ after, isNameChar c = false) :
      Readable (bare name) after

end Piece

/-- The text of a row of pieces. -/
def textOf (pieces : List Piece) : Str := pieces.flatMap Piece.text

/-- Every piece can be told from the text behind it. -/
inductive AllReadable : List Piece → Prop where
  | nil : AllReadable []
  | cons {piece : Piece} {pieces : List Piece} (h : piece.Readable (textOf pieces).head?)
      (hrest : AllReadable pieces) : AllReadable (piece :: pieces)

variable {env : Env}

/-- The rest behind a name is no longer than the text. -/
private theorem length_splitName_le (rest : Str) : (splitName rest).2.length ≤ rest.length := by
  unfold splitName
  split
  · rename_i tail
    have h := (List.dropWhile_sublist (p := (· ≠ '}')) (l := tail)).length_le
    rw [List.length_drop, List.length_cons]
    omega
  · exact (List.dropWhile_sublist _).length_le

/-- With enough passes the loop uses up the text. -/
theorem expands_go {fuel : Nat} {s : Str} (h : s.length ≤ fuel) :
    Expands env s (expand.go env fuel s) := by
  induction fuel generalizing s with
  | zero =>
    obtain rfl := List.length_eq_zero_iff.mp (Nat.le_zero.mp h)
    exact Expands.done
  | succ fuel ih =>
    cases s with
    | nil => exact Expands.done
    | cons c rest =>
      have hrest := Nat.le_of_succ_le_succ h
      rw [expand.go]
      split
      · rename_i hc
        subst hc
        exact Expands.reference (ih ((length_splitName_le rest).trans hrest))
      · rename_i hc
        exact Expands.char hc (ih hrest)

/-- The loop ends for every text. -/
theorem expands_expand (env : Env) (s : Str) : Expands env s (expand s env) :=
  expands_go (Nat.le_refl _)

/-- A text expands to one text only. -/
theorem Expands.functional {s out out' : Str} (h : Expands env s out) (h' : Expands env s out') :
    out = out' := by
  induction h generalizing out' with
  | done =>
    cases h'
    rfl
  | char hc hrest ih =>
    cases h' with
    | char _ hrest' => rw [ih hrest']
    | reference hrest' => exact absurd rfl hc
  | reference hrest ih =>
    cases h' with
    | char hc _ => exact absurd rfl hc
    | reference hrest' => rw [ih hrest']

/-- The function computes what the relation says. -/
theorem expand_eq_iff {s out : Str} : expand s env = out ↔ Expands env s out := by
  constructor
  · rintro rfl
    exact expands_expand env s
  · exact (expands_expand env s).functional

/-- A text without `$` in front is left as it is. -/
theorem Expands.append {front : Str} (h : '$' ∉ front) {rest out : Str}
    (hrest : Expands env rest out) :
    Expands env (front ++ rest) (front ++ out) := by
  induction front with
  | nil => exact hrest
  | cons c front ih =>
    have hc : c ≠ '$' := fun he => h (he ▸ List.mem_cons_self)
    exact Expands.char hc (ih fun hmem => h (List.mem_cons_of_mem _ hmem))

/-- A name in braces is read up to the closing one. -/
private theorem splitName_braced {name rest : Str} (h : '}' ∉ name) :
    splitName ('{' :: name ++ '}' :: rest) = (name, rest) := by
  have hrun : ∀ c ∈ name, decide (c ≠ '}') = true := fun c hc =>
    decide_eq_true fun he => h (he ▸ hc)
  have hmax : ∀ c ∈ ('}' :: rest).head?, decide (c ≠ '}') = false := by
    intro c hc
    obtain rfl := Option.some.inj hc
    rfl
  obtain ⟨htake, hdrop⟩ := Positions.span_run hrun hmax
  rw [List.cons_append, splitName, htake, hdrop]
  rfl

/-- A bare name is read as far as its characters go. -/
private theorem splitName_bare {name rest : Str} (hne : name ≠ [])
    (hname : ∀ c ∈ name, isNameChar c = true) (hafter : ∀ c ∈ rest.head?, isNameChar c = false) :
    splitName (name ++ rest) = (name, rest) := by
  obtain ⟨htake, hdrop⟩ := Positions.span_run hname hafter
  obtain ⟨c, tail, rfl⟩ := List.exists_cons_of_ne_nil hne
  have hc : c ≠ '{' := by
    rintro rfl
    exact absurd (hname '{' List.mem_cons_self) (by decide)
  unfold splitName
  split
  · rename_i heq
    exact absurd (List.cons.inj heq).1 hc
  · rw [htake, hdrop]

private theorem valueOf_name {name : Str} (hne : name ≠ []) :
    valueOf env name = (env name).getD [] :=
  if_neg hne

/-- A piece is replaced by its value, and the loop goes on behind it. -/
theorem Piece.Readable.expands {piece : Piece} {rest out : Str} (h : piece.Readable rest.head?)
    (hrest : Expands env rest out) : Expands env (piece.text ++ rest) (piece.value env ++ out) := by
  cases h with
  | literal hdollar => exact hrest.append hdollar
  | braced hne hbrace =>
    rename_i name
    have hsplit := @splitName_braced name rest hbrace
    have hbehind : Expands env (splitName ('{' :: name ++ '}' :: rest)).2 out := by
      rw [hsplit]
      exact hrest
    have hstep := Expands.reference hbehind
    rw [hsplit, valueOf_name hne] at hstep
    have htext : (Piece.braced name).text ++ rest = '$' :: ('{' :: name ++ '}' :: rest) := by
      simp [Piece.text]
    rw [htext]
    exact hstep
  | bare hne hname hafter =>
    rename_i name
    have hsplit := splitName_bare hne hname hafter
    have hbehind : Expands env (splitName (name ++ rest)).2 out := by
      rw [hsplit]
      exact hrest
    have hstep := Expands.reference hbehind
    rw [hsplit, valueOf_name hne] at hstep
    exact hstep

/-- Readable pieces expand to their values, one after the other. -/
theorem AllReadable.expands {pieces : List Piece} (h : AllReadable pieces) :
    Expands env (textOf pieces) (pieces.flatMap (Piece.value env)) := by
  induction h with
  | nil => exact Expands.done
  | cons hpiece _ ih =>
    rw [textOf, List.flatMap_cons, List.flatMap_cons]
    exact hpiece.expands ih

/-- Expansion replaces every piece by its value, once; it ends for every text, and what
stands in front of the first `$` stays. -/
theorem expand_pieces (env : Env) {pieces : List Piece} (h : AllReadable pieces) (s : Str)
    {front : Str} (hfront : '$' ∉ front) :
    expand (textOf pieces) env = pieces.flatMap (Piece.value env) ∧
      Expands env s (expand s env) ∧
      expand (front ++ s) env = front ++ expand s env :=
  ⟨expand_eq_iff.mpr h.expands, expands_expand env s,
    expand_eq_iff.mpr ((expands_expand env s).append hfront)⟩

/-- An environment with a value that has a `$` itself. -/
def kernelEnv : Env := fun name => if name = "opts".toList then some "a=$root".toList else none

/-- A command line with both kinds of references. -/
def kernelLine : List Piece :=
  [.literal "root=".toList, .bare "root".toList, .literal " ".toList, .braced "opts".toList]

private theorem kernelLine_readable : AllReadable kernelLine :=
  .cons (.literal (by decide))
    (.cons (.bare (by decide) (Str.forall_of_all rfl) (by rintro c ⟨⟩; rfl))
      (.cons (.literal (by decide)) (.cons (.braced (by decide) (by decide)) .nil)))

/-- A command line with both kinds of references. -/
theorem expand_pieces_kernelLine :
    expand (textOf kernelLine) kernelEnv = kernelLine.flatMap (Piece.value kernelEnv) ∧
      Expands kernelEnv "$".toList (expand "$".toList kernelEnv) ∧
      expand ("ro ".toList ++ "$".toList) kernelEnv =
        "ro ".toList ++ expand "$".toList kernelEnv :=
  expand_pieces _ kernelLine_readable "$".toList (by decide)

end BootExtractor.Boot
