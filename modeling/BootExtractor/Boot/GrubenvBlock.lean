import BootExtractor.Boot.Grubenv

/-!
# The environment block

A block is a comment line, one line per variable, and `#` up to its fixed size.
Padding and comments are told from variables by the first character of the line. The
reader also takes `#` off the end of every value, where the block never puts any.
-/

namespace BootExtractor.Boot.Grubenv

/-- A variable that the block can hold: the key is a trimmed line without `=` that is no
comment, the value is a trimmed line. -/
structure Storable (pair : Str × Str) : Prop where
  key_ne_nil : pair.1 ≠ []
  key_trimmed : Str.trim pair.1 = pair.1
  key_line : '\n' ∉ pair.1
  key_equals : '=' ∉ pair.1
  key_comment : pair.1.head? ≠ some '#'
  value_trimmed : Str.trim pair.2 = pair.2
  value_line : '\n' ∉ pair.2

/-- The first line of a block. -/
def header : Str := "# GRUB Environment Block".toList

/-- The line of a variable. -/
def variableLine (pair : Str × Str) : Str := pair.1 ++ '=' :: pair.2

/-- A block with these variables, in this order, and this many characters of padding. -/
def block (pairs : List (Str × Str)) (padding : Nat) : Str :=
  (header :: pairs.map variableLine).flatMap (· ++ ['\n']) ++ List.replicate padding '#'

/-- What the reader makes of a value. -/
def readValue (value : Str) : Str := Str.trim (value.rdropWhile (· == '#'))

private theorem length_trim_le (s : Str) : (Str.trim s).length ≤ s.length :=
  ((List.rdropWhile_prefix Str.isWhitespace (Str.trimStart s)).length_le).trans
    (List.dropWhile_sublist Str.isWhitespace).length_le

/-- A trimmed text does not end with whitespace. -/
theorem not_isWhitespace_last {s : Str} {c : Char} (h : Str.trim s = s)
    (hc : s.getLast? = some c) : Str.isWhitespace c = false := by
  by_contra hspace
  obtain ⟨front, rfl⟩ := List.getLast?_eq_some_iff.mp hc
  have hafter : ∀ d ∈ [c], Str.isWhitespace d = true := by
    intro d hd
    rw [List.mem_singleton.mp hd]
    exact Bool.not_eq_false _ ▸ hspace
  have hbefore : ∀ d ∈ ([] : Str), Str.isWhitespace d = true :=
    fun _ hd => absurd hd List.not_mem_nil
  have hfront := @Str.trim_blanks [] front [c] hbefore hafter
  rw [List.nil_append, h] at hfront
  have hlen := congrArg List.length hfront
  have hle := length_trim_le front
  rw [List.length_append, List.length_singleton] at hlen
  omega

/-- A trimmed value is read back unless it ends with `#`. -/
theorem readValue_eq_iff {value : Str} (h : Str.trim value = value) :
    readValue value = value ↔ value.getLast? ≠ some '#' := by
  constructor
  · intro hread hlast
    obtain ⟨front, rfl⟩ := List.getLast?_eq_some_iff.mp hlast
    have hdrop : (front ++ ['#']).rdropWhile (· == '#') = front.rdropWhile (· == '#') :=
      List.rdropWhile_concat_pos _ _ _ (beq_self_eq_true '#')
    have hle := length_trim_le ((front ++ ['#']).rdropWhile (· == '#'))
    have hfront := (List.rdropWhile_prefix (· == '#') front).length_le
    have hlen := congrArg List.length hread
    rw [readValue] at hlen
    rw [hdrop] at hle hlen
    rw [List.length_append, List.length_singleton] at hlen
    omega
  · intro hlast
    have hkeep : value.rdropWhile (· == '#') = value := by
      refine List.rdropWhile_eq_self_iff.mpr fun hne hhash => hlast ?_
      rw [List.getLast?_eq_some_getLast hne, beq_iff_eq.mp hhash]
    rw [readValue, hkeep, h]

/-- A variable is set to what `f` makes of its value. -/
def setWith (f : Str → Str) (env : Env) (pair : Str × Str) : Env :=
  Function.update env pair.1 (some (f pair.2))

private theorem addLine_comment (env : Env) (rest : Str) :
    addLine env ('#' :: rest) = env := if_pos rfl

/-- The line of a variable sets it. -/
theorem addLine_variable (env : Env) {pair : Str × Str} (h : Storable pair) :
    addLine env (variableLine pair) = setWith readValue env pair := by
  have hno : Str.startsWith (variableLine pair) "#".toList = false := by
    obtain ⟨c, key, hkey⟩ := List.exists_cons_of_ne_nil h.key_ne_nil
    have hc : c ≠ '#' := fun he => h.key_comment (by rw [hkey, he]; rfl)
    rw [Bool.eq_false_iff]
    intro hpre
    obtain ⟨t, ht⟩ := Str.startsWith_iff.mp hpre
    rw [variableLine, hkey] at ht
    exact hc (List.cons.inj ht).1.symm
  have hsplit : Str.splitOnce (· == '=') (variableLine pair) = some (pair.1, pair.2) := by
    refine Str.splitOnce_append ?_ (beq_self_eq_true '=')
    intro x hx
    exact beq_eq_false_iff_ne.mpr fun he => h.key_equals (he ▸ hx)
  rw [addLine, hno, hsplit]
  simp only [h.key_trimmed]
  rfl

/-- A variable's line is one line. -/
private theorem variableLine_line {pair : Str × Str} (h : Storable pair) :
    '\n' ∉ variableLine pair ∧ (variableLine pair).getLast? ≠ some '\r' := by
  constructor
  · intro hmem
    rcases List.mem_append.mp hmem with hkey | hrest
    · exact h.key_line hkey
    · rcases List.mem_cons.mp hrest with heq | hvalue
      · exact absurd heq (by decide)
      · exact h.value_line hvalue
  · intro hlast
    have hvalue : ('=' :: pair.2).getLast? = some '\r' := by
      rwa [variableLine, List.getLast?_append_of_ne_nil _ (List.cons_ne_nil _ _)] at hlast
    cases hpair : pair.2 with
    | nil =>
      rw [hpair] at hvalue
      exact absurd (Option.some.inj hvalue) (by decide)
    | cons c rest =>
      rw [hpair, List.getLast?_cons_cons, ← hpair] at hvalue
      exact absurd (not_isWhitespace_last h.value_trimmed hvalue) (by decide)

/-- The padding is read as comments. -/
private theorem lines_padding (padding : Nat) :
    ∀ line ∈ Str.lines (List.replicate padding '#'), ∃ rest, line = '#' :: rest := by
  cases padding with
  | zero => exact fun _ h => absurd h List.not_mem_nil
  | succ n =>
    have hline : '\n' ∉ List.replicate (n + 1) '#' := fun h =>
      absurd (List.eq_of_mem_replicate h) (by decide)
    intro line h
    rw [Str.lines_of_not_mem (by simp) hline] at h
    exact ⟨List.replicate n '#', List.mem_singleton.mp h⟩

/-- Comment lines are skipped. -/
theorem foldl_comments {ls : List Str} (h : ∀ line ∈ ls, ∃ rest, line = '#' :: rest) (env : Env) :
    ls.foldl addLine env = env := by
  induction ls generalizing env with
  | nil => rfl
  | cons line ls ih =>
    obtain ⟨rest, rfl⟩ := h line List.mem_cons_self
    rw [List.foldl_cons, addLine_comment]
    exact ih (fun l hl => h l (List.mem_cons_of_mem _ hl)) env

/-- The lines of variables set them one after the other. -/
theorem foldl_variables {pairs : List (Str × Str)} (h : ∀ pair ∈ pairs, Storable pair) (tail : Str)
    (env : Env) :
    (Str.lines ((pairs.map variableLine).flatMap (· ++ ['\n']) ++ tail)).foldl addLine env =
      (Str.lines tail).foldl addLine
        (pairs.foldl (setWith readValue) env) := by
  induction pairs generalizing env with
  | nil => rfl
  | cons pair pairs ih =>
    have hpair := h pair List.mem_cons_self
    obtain ⟨hline, hreturn⟩ := variableLine_line hpair
    rw [List.map_cons, List.flatMap_cons, List.append_assoc, List.append_assoc,
      List.singleton_append, Str.lines_append hline hreturn, List.foldl_cons,
      addLine_variable env hpair, List.foldl_cons]
    exact ih (fun p hp => h p (List.mem_cons_of_mem _ hp)) _

/-- Reading a block sets its variables in their order. -/
theorem parse_block {pairs : List (Str × Str)} (h : ∀ pair ∈ pairs, Storable pair) (padding : Nat) :
    parse (block pairs padding) =
      pairs.foldl (setWith readValue)
        fun _ => none := by
  have hheader : '\n' ∉ header ∧ header.getLast? ≠ some '\r' := by decide +kernel
  rw [parse, block, List.flatMap_cons, List.append_assoc, List.append_assoc,
    List.singleton_append, Str.lines_append hheader.1 hheader.2, List.foldl_cons]
  have hskip : addLine (fun _ => none) header = fun _ => none := addLine_comment _ _
  rw [hskip, foldl_variables h, foldl_comments (lines_padding padding)]

/-- Keys that are set once have the value they were set to, and others are as before. -/
theorem foldl_update {f : Str → Str} {pairs : List (Str × Str)} (h : (pairs.map Prod.fst).Nodup)
    (env : Env) (key : Str) :
    pairs.foldl (setWith f) env key =
      ((pairs.lookup key).map f).or (env key) := by
  induction pairs generalizing env with
  | nil => rfl
  | cons pair pairs ih =>
    obtain ⟨hfresh, hrest⟩ := List.nodup_cons.mp h
    rw [List.foldl_cons, ih hrest, List.lookup_cons]
    by_cases hkey : key = pair.1
    · subst hkey
      have hnone : pairs.lookup pair.1 = none := by
        rw [List.lookup_eq_none_iff]
        intro p hp
        exact bne_iff_ne.mpr fun he => hfresh (List.mem_map.mpr ⟨p, hp, he.symm⟩)
      rw [hnone, beq_self_eq_true, setWith, Function.update_self]
      rfl
    · rw [beq_eq_false_iff_ne.mpr hkey, setWith, Function.update_of_ne hkey]

private theorem lookup_of_mem {pairs : List (Str × Str)} (h : (pairs.map Prod.fst).Nodup)
    {pair : Str × Str} (hmem : pair ∈ pairs) : pairs.lookup pair.1 = some pair.2 := by
  obtain ⟨before, after, rfl⟩ := List.append_of_mem hmem
  rw [List.map_append, List.map_cons] at h
  refine List.lookup_eq_some_iff.mpr ⟨before, after, rfl, ?_⟩
  intro p hp
  have hne := (List.nodup_append.mp h).2.2 _ (List.mem_map_of_mem hp) _ List.mem_cons_self
  exact bne_iff_ne.mpr hne.symm

/-- A block is read back as the map it was written from exactly if no value of the map ends
with the padding character. -/
theorem parse_block_iff {pairs : List (Str × Str)} (h : ∀ pair ∈ pairs, Storable pair)
    (hkeys : (pairs.map Prod.fst).Nodup) (padding : Nat) :
    (parse (block pairs padding) = fun key => pairs.lookup key) ↔
      ∀ pair ∈ pairs, pair.2.getLast? ≠ some '#' := by
  rw [parse_block h]
  constructor
  · intro hread pair hpair
    have hkey := congrFun hread pair.1
    rw [foldl_update hkeys, lookup_of_mem hkeys hpair] at hkey
    exact (readValue_eq_iff (h pair hpair).value_trimmed).mp (Option.some.inj hkey)
  · intro hends
    funext key
    rw [foldl_update hkeys, Option.or_none]
    cases hfind : pairs.lookup key with
    | none => rfl
    | some value =>
      obtain ⟨before, after, hpairs, -⟩ := List.lookup_eq_some_iff.mp hfind
      have hmem : (key, value) ∈ pairs := hpairs ▸ List.mem_append_right _ List.mem_cons_self
      exact congrArg some ((readValue_eq_iff (h _ hmem).value_trimmed).mpr (hends _ hmem))

/-- A variable whose value ends with the padding character. -/
def hashPair : Str × Str := ("kernelopts".toList, "root=LABEL=a#".toList)

private theorem hashPair_storable : Storable hashPair where
  key_ne_nil := by decide
  key_trimmed := by decide +kernel
  key_line := by decide +kernel
  key_equals := by decide +kernel
  key_comment := by decide +kernel
  value_trimmed := by decide +kernel
  value_line := by decide +kernel

/-- Such a value is read without its end. -/
theorem parse_block_hash :
    (∀ pair ∈ [hashPair], Storable pair) ∧ ([hashPair].map Prod.fst).Nodup ∧
      parse (block [hashPair] 3) ≠ fun key => [hashPair].lookup key := by
  refine ⟨List.forall_mem_singleton.mpr hashPair_storable, by decide +kernel, ?_⟩
  intro h
  have hvalue := congrFun h hashPair.1
  revert hvalue
  decide +kernel

/-- A value that ends in `#` runs into the padding. -/
theorem parse_block_iff_hash :
    (parse (block [hashPair] 3) = fun key => [hashPair].lookup key) ↔
      ∀ pair ∈ [hashPair], pair.2.getLast? ≠ some '#' :=
  parse_block_iff (List.forall_mem_singleton.mpr hashPair_storable) (by decide +kernel) 3

end BootExtractor.Boot.Grubenv
