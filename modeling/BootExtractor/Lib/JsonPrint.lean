import BootExtractor.Lib.Json

/-!
# Decoding what was written

The decoder inverts the writer on every value, one production of the grammar after
the other. A number ends where the text behind it cannot go on with one.
-/

namespace Json

section Strings

/-- The four digits of an escape are read back. -/
theorem hex4_hex {n : Nat} (hn : n < 0x20) (rest : Str) :
    hex4 (Str.hex 4 n ++ rest) = some (n, rest) := by
  have hdigits : ∀ n < 0x20, Str.hex 4 n =
      ['0', '0', Nat.digitChar (n / 16), Nat.digitChar (n % 16)] ∧
      (['0', '0', Nat.digitChar (n / 16), Nat.digitChar (n % 16)].mapM Str.hexDigit?).map
        Str.hexValue = some n := by decide
  obtain ⟨hhex, hvalue⟩ := hdigits n hn
  obtain ⟨ds, hds, rfl⟩ := Option.map_eq_some_iff.mp hvalue
  rw [hhex]
  simp only [List.cons_append, List.nil_append, hex4, hds, Option.map_some]

/-- One character is read back, in one pass of the loop. -/
theorem string_escape (fuel : Nat) (c : Char) (rest : Str) :
    string (fuel + 1) (escape c ++ rest) =
      (string fuel rest).map fun (s, rest) => (c :: s, rest) := by
  have hback : ∀ e tail, unescape (e ++ tail) = some (c, tail) → 
      string (fuel + 1) ('\\' :: (e ++ tail)) =
        (string fuel tail).map fun (s, rest) => (c :: s, rest) := by
    intro e tail h
    rw [string, if_neg (by decide), if_pos rfl, h]
    rfl
  unfold escape
  split_ifs with h1 h2 h3 h4 h5 h6
  · subst h1
    exact hback ['"'] rest rfl
  · subst h2
    exact hback ['\\'] rest rfl
  · subst h3
    exact hback ['n'] rest rfl
  · subst h4
    exact hback ['r'] rest rfl
  · subst h5
    exact hback ['t'] rest rfl
  · refine hback ('u' :: Str.hex 4 c.toNat) rest ?_
    have hlow : ¬(0xd800 ≤ c.toNat ∧ c.toNat < 0xdc00) := by omega
    have hhigh : ¬(0xdc00 ≤ c.toNat ∧ c.toNat < 0xe000) := by omega
    rw [List.cons_append, unescape, if_pos rfl, unicodeEscape, hex4_hex h6, Option.bind_some]
    simp only [if_neg hlow, if_neg hhigh, Char.ofNat_toNat]
  · rw [List.singleton_append, string, if_neg h1, if_neg h2, if_neg h6]

/-- A string is read back up to its closing quote. -/
theorem string_quoted {fuel : Nat} {s : Str} (rest : Str) (h : s.length < fuel) :
    string fuel (s.flatMap escape ++ '"' :: rest) = some (s, rest) := by
  induction s generalizing fuel with
  | nil =>
    obtain ⟨fuel, rfl⟩ := Nat.exists_eq_succ_of_ne_zero (Nat.ne_zero_of_lt h)
    rfl
  | cons c s ih =>
    obtain ⟨fuel, rfl⟩ := Nat.exists_eq_succ_of_ne_zero (Nat.ne_zero_of_lt h)
    rw [List.flatMap_cons, List.append_assoc, Nat.succ_eq_add_one, string_escape,
      ih (Nat.lt_of_succ_lt_succ h)]
    rfl

/-- Escaping makes nothing shorter. -/
private theorem length_le_flatMap_escape (s : Str) : s.length ≤ (s.flatMap escape).length := by
  have hpos : ∀ c, 1 ≤ (escape c).length := by
    intro c
    unfold escape
    split_ifs <;> simp
  induction s with
  | nil => rfl
  | cons c s ih =>
    rw [List.flatMap_cons, List.length_append, List.length_cons]
    have := hpos c
    omega

/-- A string is read back from behind its first quote. -/
theorem string_quote (s rest : Str) :
    ∃ tail, quote s ++ rest = '"' :: tail ∧ string tail.length tail = some (s, rest) := by
  refine ⟨s.flatMap escape ++ '"' :: rest, by simp [quote], ?_⟩
  apply string_quoted
  have := length_le_flatMap_escape s
  rw [List.length_append, List.length_cons]
  omega

end Strings

section Numbers

/-- A text that does not go on with a digit. -/
def NoDigit (rest : Str) : Prop := ∀ c ∈ rest.head?, c.isDigit = false

/-- A text that does not go on with a number. -/
def Stops (rest : Str) : Prop :=
  ∀ c ∈ rest.head?, c.isDigit = false ∧ c ≠ '.' ∧ c ≠ 'e' ∧ c ≠ 'E'

/-- What ends a number is no digit. -/
private theorem Stops.noDigit {rest : Str} (h : Stops rest) : NoDigit rest := fun c hc => (h c hc).1

/-- The digits of a number are read up to its end. -/
private theorem digits_dec (n : Nat) {rest : Str} (h : NoDigit rest) :
    digits (Str.dec n ++ rest) = some (Str.dec n, rest) := by
  have hall : ∀ c ∈ Str.dec n, c.isDigit = true := fun c hc => Str.isDigit_of_mem_dec hc
  have hnone : rest.takeWhile Char.isDigit = [] ∧ rest.dropWhile Char.isDigit = rest := by
    cases rest with
    | nil => exact ⟨rfl, rfl⟩
    | cons c rest => simp [h c rfl]
  have htake : (Str.dec n ++ rest).takeWhile Char.isDigit = Str.dec n := by
    rw [List.takeWhile_append_of_pos hall, hnone.1, List.append_nil]
  have hdrop : (Str.dec n ++ rest).dropWhile Char.isDigit = rest := by
    rw [List.dropWhile_append_of_pos hall, hnone.2]
  rw [digits, htake, hdrop, if_neg (Str.dec_ne_nil n)]

/-- Only zero begins with a zero. -/
private theorem eq_zero_of_head_dec {n : Nat} (h : (Str.dec n).head? = some '0') : n = 0 := by
  induction n using Nat.strong_induction_on with
  | _ n ih =>
    unfold Str.dec at h
    rw [Nat.toDigits_eq_if (by decide)] at h
    split at h
    · rename_i hn
      have hdigit : ∀ n < 10, Nat.digitChar n = '0' → n = 0 := by decide
      exact hdigit n hn (Option.some.inj h)
    · rename_i hn
      have hhead : (Str.dec (n / 10)).head? = some '0' := by
        rwa [List.head?_append_of_ne_nil _ Nat.toDigits_ne_nil] at h
      have := ih (n / 10) (by omega) hhead
      omega

/-- A decimal number is read back as an integer. -/
theorem integer_dec (n : Nat) {rest : Str} (h : NoDigit rest) :
    integer (Str.dec n ++ rest) = some (Str.dec n, rest) := by
  have hlead : ¬((Str.dec n).head? = some '0' ∧ (Str.dec n).length ≠ 1) := by
    rintro ⟨hzero, hlen⟩
    obtain rfl := eq_zero_of_head_dec hzero
    exact hlen rfl
  rw [integer, digits_dec n h, Option.bind_some]
  exact if_neg hlead

/-- A decimal number begins with a digit. -/
private theorem head_dec (n : Nat) : ∃ c ds, Str.dec n = c :: ds ∧ c.isDigit = true := by
  obtain ⟨c, ds, hds⟩ := List.exists_cons_of_ne_nil (Str.dec_ne_nil n)
  have hc : c ∈ Str.dec n := by
    rw [hds]
    exact List.mem_cons_self
  exact ⟨c, ds, hds, Str.isDigit_of_mem_dec hc⟩

/-- The sign of an integer is read off. -/
private theorem minus_int (i : Int) (rest : Str) :
    minus (int i ++ rest) = (decide (i < 0), Str.dec i.natAbs ++ rest) := by
  unfold int
  split_ifs with h
  · simp [minus, h]
  · obtain ⟨c, ds, hds, hc⟩ := head_dec i.natAbs
    rw [hds, List.cons_append, minus, decide_eq_false h]
    rintro rest' he
    rw [(List.cons.inj he).1] at hc
    cases hc

private theorem signed_natAbs (i : Int) : signed (decide (i < 0)) i.natAbs = i := by
  unfold signed
  split_ifs with h
  · have := of_decide_eq_true h
    omega
  · have hle : ¬i < 0 := fun hlt => h (decide_eq_true hlt)
    omega

private theorem ofDigitChars_dec (n : Nat) : Nat.ofDigitChars 10 (Str.dec n) 0 = n :=
  Nat.ofDigitChars_ten_toDigits

/-- The exponent that the writer leaves out is zero. -/
theorem exponent_print (e : Int) {rest : Str} (h : Stops rest) :
    exponent ((if e = 0 then [] else 'e' :: int e) ++ rest) = some (e, rest) := by
  split_ifs with he
  · subst he
    rw [List.nil_append]
    cases rest with
    | nil => rfl
    | cons c rest =>
      obtain ⟨_, _, h1, h2⟩ := h c rfl
      rw [exponent, if_neg (by simp [h1, h2])]
  · have hsign : expSign (int e ++ rest) = minus (int e ++ rest) := by
      unfold expSign
      split
      · rename_i rest' hplus
        exfalso
        unfold int at hplus
        split_ifs at hplus with hneg
        · cases hplus
        · obtain ⟨c, ds, hds, hc⟩ := head_dec e.natAbs
          rw [hds] at hplus
          rw [(List.cons.inj hplus).1] at hc
          cases hc
      · rfl
    rw [List.cons_append, exponent, if_pos (Or.inl rfl), hsign, minus_int]
    simp only [digits_dec _ h.noDigit, Option.map_some, ofDigitChars_dec, signed_natAbs]

/-- A number is read back. -/
theorem number_print (m e : Int) {rest : Str} (h : Stops rest) :
    number (print (.num m e) ++ rest) = some (.num m e, rest) := by
  have htail : ∀ c ∈ ((if e = 0 then [] else 'e' :: int e) ++ rest).head?,
      c.isDigit = false ∧ c ≠ '.' := by
    intro c hc
    split_ifs at hc with he
    · exact ⟨(h c hc).1, (h c hc).2.1⟩
    · obtain rfl : 'e' = c := by simpa using hc
      decide
  rw [print, List.append_assoc, number, minus_int]
  simp only [integer_dec _ fun c hc => (htail c hc).1, Option.bind_some]
  have hfraction : fraction ((if e = 0 then [] else 'e' :: int e) ++ rest) =
      some ([], (if e = 0 then [] else 'e' :: int e) ++ rest) := by
    unfold fraction
    split
    · rename_i rest' hpoint
      exact absurd rfl (htail '.' (by rw [hpoint]; rfl)).2
    · rfl
  simp only [hfraction, Option.bind_some, exponent_print e h, Option.map_some, List.append_nil,
    ofDigitChars_dec, signed_natAbs, List.length_nil, Int.natCast_zero, Int.sub_zero]

end Numbers

section Values

private theorem skipWs_of_head {c : Char} {rest : Str} (h : isWs c = false) :
    skipWs (c :: rest) = c :: rest := by
  rw [skipWs, List.dropWhile_cons_of_neg (by rw [h]; exact Bool.false_ne_true)]

/-- A word that begins otherwise is not read. -/
theorem word_ne {w c : Char} {ws rest : Str} {v : Json} (h : w ≠ c) :
    word (w :: ws) v (c :: rest) = none := by
  rw [word, Str.stripPrefix, if_neg]
  · rfl
  · intro hprefix
    exact h (List.cons_prefix_cons.mp hprefix).1

/-- The first character of a number. -/
theorem head_number (m e : Int) :
    ∃ c tail, print (.num m e) = c :: tail ∧ (c = '-' ∨ c.isDigit = true) := by
  rw [print]
  unfold int
  split_ifs
  all_goals first
    | exact ⟨'-', _, rfl, Or.inl rfl⟩
    | (obtain ⟨c, ds, hds, hc⟩ := head_dec m.natAbs
       exact ⟨c, _, by rw [hds]; rfl, Or.inr hc⟩)

/-- A value starts with no whitespace, and not as an array ends. -/
theorem head_print (v : Json) :
    ∃ c tail, print v = c :: tail ∧ isWs c = false ∧ c ≠ ']' := by
  cases v with
  | null => exact ⟨'n', _, by rw [print]; rfl, by decide, by decide⟩
  | bool b =>
    cases b with
    | true => exact ⟨'t', _, by rw [print]; rfl, by decide, by decide⟩
    | false => exact ⟨'f', _, by rw [print]; rfl, by decide, by decide⟩
  | num m e =>
    obtain ⟨c, tail, hprint, hc⟩ := head_number m e
    refine ⟨c, tail, hprint, ?_, ?_⟩
    · rcases hc with rfl | hc
      · decide
      · by_contra hws
        rw [Bool.not_eq_false, isWs] at hws
        simp only [Bool.or_eq_true, decide_eq_true_eq] at hws
        rcases hws with ((rfl | rfl) | rfl) | rfl <;> cases hc
    · rintro rfl
      rcases hc with hc | hc <;> cases hc
  | str s => exact ⟨'"', _, by rw [print]; rfl, by decide, by decide⟩
  | arr items => exact ⟨'[', _, by rw [print]; rfl, by decide, by decide⟩
  | obj fields => exact ⟨'\x7b', _, by rw [print]; rfl, by decide, by decide⟩

/-- What is printed begins with no whitespace. -/
theorem skipWs_print (v : Json) (rest : Str) : skipWs (print v ++ rest) = print v ++ rest := by
  obtain ⟨c, tail, hprint, hws, _⟩ := head_print v
  rw [hprint, List.cons_append, skipWs_of_head hws]

/-- What begins neither a string nor an array nor an object is a scalar. -/
private theorem value_scalar {fuel : Nat} {c : Char} {rest : Str} (hquote : c ≠ '"')
    (harr : c ≠ '[')
    (hobj : c ≠ '\x7b') : value (fuel + 1) (c :: rest) = scalar (c :: rest) := by
  rw [value, if_neg hquote, if_neg harr, if_neg hobj]

private theorem value_null (fuel : Nat) (rest : Str) :
    value (fuel + 1) ("null".toList ++ rest) = some (.null, rest) := by
  have hword : word "null".toList .null ("null".toList ++ rest) = some (.null, rest) := by
    rw [word, Str.stripPrefix_append]
    rfl
  have hscalar : value (fuel + 1) ("null".toList ++ rest) = scalar ("null".toList ++ rest) :=
    value_scalar (by decide) (by decide) (by decide)
  rw [hscalar, scalar, hword]
  rfl

private theorem value_true (fuel : Nat) (rest : Str) :
    value (fuel + 1) ("true".toList ++ rest) = some (.bool true, rest) := by
  have hword : word "true".toList (.bool true) ("true".toList ++ rest) =
      some (.bool true, rest) := by
    rw [word, Str.stripPrefix_append]
    rfl
  have hnull : word "null".toList .null ("true".toList ++ rest) = none := word_ne (by decide)
  have hscalar : value (fuel + 1) ("true".toList ++ rest) = scalar ("true".toList ++ rest) :=
    value_scalar (by decide) (by decide) (by decide)
  rw [hscalar, scalar, hnull, hword]
  rfl

private theorem value_false (fuel : Nat) (rest : Str) :
    value (fuel + 1) ("false".toList ++ rest) = some (.bool false, rest) := by
  have hword : word "false".toList (.bool false) ("false".toList ++ rest) =
      some (.bool false, rest) := by
    rw [word, Str.stripPrefix_append]
    rfl
  have hnull : word "null".toList .null ("false".toList ++ rest) = none := word_ne (by decide)
  have htrue : word "true".toList (.bool true) ("false".toList ++ rest) = none :=
    word_ne (by decide)
  have hscalar : value (fuel + 1) ("false".toList ++ rest) = scalar ("false".toList ++ rest) :=
    value_scalar (by decide) (by decide) (by decide)
  rw [hscalar, scalar, hnull, htrue, hword]
  rfl

/-- A number is read back in front of what ends it. -/
theorem value_num (fuel : Nat) (m e : Int) {rest : Str} (h : Stops rest) :
    value (fuel + 1) (print (.num m e) ++ rest) = some (.num m e, rest) := by
  obtain ⟨c, tail, hprint, hc⟩ := head_number m e
  have hne : ∀ d : Char, d ≠ '-' → d.isDigit = false → c ≠ d := by
    rintro d hminus hdigit rfl
    rcases hc with rfl | hc
    · exact hminus rfl
    · rw [hc] at hdigit
      cases hdigit
  have hnumber := number_print m e h
  rw [hprint, List.cons_append] at hnumber ⊢
  rw [value_scalar (hne _ (by decide) (by decide)) (hne _ (by decide) (by decide))
    (hne _ (by decide) (by decide)), scalar]
  have hnull : word "null".toList .null (c :: (tail ++ rest)) = none :=
    word_ne (hne 'n' (by decide) (by decide)).symm
  have htrue : word "true".toList (.bool true) (c :: (tail ++ rest)) = none :=
    word_ne (hne 't' (by decide) (by decide)).symm
  have hfalse : word "false".toList (.bool false) (c :: (tail ++ rest)) = none :=
    word_ne (hne 'f' (by decide) (by decide)).symm
  rw [hnull, htrue, hfalse, hnumber]
  rfl

/-- A string is read back. -/
theorem value_str (fuel : Nat) (s rest : Str) :
    value (fuel + 1) (quote s ++ rest) = some (.str s, rest) := by
  obtain ⟨tail, htail, hstring⟩ := string_quote s rest
  rw [htail, value, if_pos rfl, hstring]
  rfl

private theorem stops_cons {c : Char} {rest : Str}
    (h : c.isDigit = false ∧ c ≠ '.' ∧ c ≠ 'e' ∧ c ≠ 'E') :
    Stops (c :: rest) := by
  intro d hd
  obtain rfl : c = d := by simpa using hd
  exact h

private theorem stops_comma (rest : Str) : Stops (',' :: rest) := stops_cons (by decide)

private theorem stops_bracket (rest : Str) : Stops (']' :: rest) := stops_cons (by decide)

private theorem stops_brace (rest : Str) : Stops ('\x7d' :: rest) := stops_cons (by decide)

/-- Every value has a text. -/
private theorem one_le_length_print (v : Json) : 1 ≤ (print v).length := by
  obtain ⟨c, tail, hprint, _⟩ := head_print v
  rw [hprint, List.length_cons]
  omega

/-- The items of an array begin with no closing bracket. -/
private theorem head_printItems (v : Json) (vs : List Json) :
    ∃ c tail, printItems (v :: vs) = c :: tail ∧ isWs c = false ∧ c ≠ ']' := by
  obtain ⟨c, tail, hprint, hc⟩ := head_print v
  cases vs with
  | nil => exact ⟨c, tail, by rw [printItems, hprint], hc⟩
  | cons w ws => exact ⟨c, _, by rw [printItems, hprint]; rfl, hc⟩

/-- The first field of an object, and what follows it. -/
private theorem printFields_cons (k : Str) (v : Json) (kvs : List (Str × Json)) :
    ∃ more, printFields ((k, v) :: kvs) = quote k ++ ':' :: (print v ++ more) ∧
      (kvs = [] ∧ more = [] ∨ kvs ≠ [] ∧ more = ',' :: printFields kvs) := by
  cases kvs with
  | nil => exact ⟨[], by rw [printFields, List.append_nil], Or.inl ⟨rfl, rfl⟩⟩
  | cons kv kvs =>
    refine ⟨',' :: printFields (kv :: kvs), ?_, Or.inr ⟨List.cons_ne_nil _ _, rfl⟩⟩
    obtain ⟨k', v'⟩ := kv
    rw [printFields]
    simp

private theorem value_arr_nil (fuel : Nat) (rest : Str) :
    value (fuel + 1) ('[' :: ']' :: rest) = some (.arr [], rest) := by
  have hskip : skipWs (']' :: rest) = ']' :: rest := skipWs_of_head (by decide)
  rw [value, if_neg (by decide), if_pos rfl, hskip]
  rfl

private theorem value_obj_nil (fuel : Nat) (rest : Str) :
    value (fuel + 1) ('\x7b' :: '\x7d' :: rest) = some (.obj [], rest) := by
  have hskip : skipWs ('\x7d' :: rest) = '\x7d' :: rest := skipWs_of_head (by decide)
  rw [value, if_neg (by decide), if_neg (by decide), if_pos rfl, hskip]
  rfl

/-- An array with items is read as its items. -/
private theorem value_arr_cons {fuel : Nat} {c : Char} {rest : Str} (hws : isWs c = false)
    (hc : c ≠ ']') :
    value (fuel + 1) ('[' :: c :: rest) =
      (elements fuel (c :: rest)).map fun (items, rest) => (.arr items, rest) := by
  have hhead : (skipWs (c :: rest)).head? ≠ some ']' := by
    rw [skipWs_of_head hws]
    intro h
    exact hc (Option.some.inj h)
  rw [value, if_neg (by decide), if_pos rfl, if_neg hhead]

/-- An object with fields is read as its fields. -/
private theorem value_obj_cons {fuel : Nat} {rest : Str} :
    value (fuel + 1) ('\x7b' :: '"' :: rest) =
      (members fuel ('"' :: rest)).map fun (fields, rest) => (.obj fields, rest) := by
  have hhead : (skipWs ('"' :: rest)).head? ≠ some '\x7d' := by
    rw [skipWs_of_head (by decide)]
    intro h
    cases h
  rw [value, if_neg (by decide), if_neg (by decide), if_pos rfl, if_neg hhead]

mutual

/-- A value is read back, if there is fuel for the length of its text. -/
theorem value_print (v : Json) (fuel : Nat) (rest : Str) (hrest : Stops rest)
    (hfuel : (print v).length ≤ fuel) : value fuel (print v ++ rest) = some (v, rest) := by
  have hpos := one_le_length_print v
  obtain ⟨fuel, rfl⟩ := Nat.exists_eq_succ_of_ne_zero (show fuel ≠ 0 by omega)
  cases v with
  | null =>
    rw [print]
    exact value_null fuel rest
  | bool b =>
    rw [print]
    cases b with
    | true => exact value_true fuel rest
    | false => exact value_false fuel rest
  | num m e => exact value_num fuel m e hrest
  | str s =>
    rw [print]
    exact value_str fuel s rest
  | arr items =>
    rw [print] at hfuel ⊢
    cases items with
    | nil => exact value_arr_nil fuel rest
    | cons w ws =>
      obtain ⟨c, tail, hprint, hws, hc⟩ := head_printItems w ws
      have hitems := elements_print w ws fuel rest (by simp at hfuel; omega)
      rw [hprint, List.cons_append] at hitems
      have htext : '[' :: printItems (w :: ws) ++ [']'] ++ rest =
          '[' :: c :: (tail ++ ']' :: rest) := by
        rw [hprint]
        simp
      rw [htext, Nat.succ_eq_add_one, value_arr_cons hws hc, hitems]
      rfl
  | obj fields =>
    rw [print] at hfuel ⊢
    cases fields with
    | nil => exact value_obj_nil fuel rest
    | cons kv kvs =>
      obtain ⟨k, w⟩ := kv
      have hfields := members_print k w kvs fuel rest (by simp at hfuel; omega)
      obtain ⟨more, hprint, _⟩ := printFields_cons k w kvs
      have htext : '\x7b' :: printFields ((k, w) :: kvs) ++ ['\x7d'] ++ rest =
          '\x7b' :: (printFields ((k, w) :: kvs) ++ '\x7d' :: rest) := by
        simp
      rw [htext]
      rw [hprint] at hfields ⊢
      rw [Nat.succ_eq_add_one]
      simp only [quote, List.cons_append] at hfields ⊢
      rw [value_obj_cons, hfields]
      rfl
termination_by fuel

/-- The items of an array are read back, by induction on them. -/
theorem elements_print (v : Json) (vs : List Json) (fuel : Nat) (rest : Str)
    (hfuel : (printItems (v :: vs)).length < fuel) :
    elements fuel (printItems (v :: vs) ++ ']' :: rest) = some (v :: vs, rest) := by
  obtain ⟨fuel, rfl⟩ := Nat.exists_eq_succ_of_ne_zero (Nat.ne_zero_of_lt hfuel)
  cases vs with
  | nil =>
    rw [printItems] at hfuel ⊢
    rw [elements, skipWs_print, value_print v fuel _ (stops_bracket rest) (by omega)]
    rfl
  | cons w ws =>
    rw [printItems, List.length_append, List.length_cons] at hfuel
    have hpos := one_le_length_print v
    rw [printItems, List.append_assoc, List.cons_append, elements, skipWs_print,
      value_print v fuel _ (stops_comma _) (by omega), Option.bind_some]
    have hcomma : skipWs (',' :: (printItems (w :: ws) ++ ']' :: rest)) =
        ',' :: (printItems (w :: ws) ++ ']' :: rest) := skipWs_of_head (by decide)
    simp only [hcomma]
    rw [elements_print w ws fuel rest (by omega)]
    rfl
termination_by fuel

/-- The fields of an object are read back, by induction on them. -/
theorem members_print (k : Str) (v : Json) (kvs : List (Str × Json)) (fuel : Nat) (rest : Str)
    (hfuel : (printFields ((k, v) :: kvs)).length < fuel) :
    members fuel (printFields ((k, v) :: kvs) ++ '\x7d' :: rest) = some ((k, v) :: kvs, rest) := by
  obtain ⟨fuel, rfl⟩ := Nat.exists_eq_succ_of_ne_zero (Nat.ne_zero_of_lt hfuel)
  obtain ⟨more, hprint, hmore⟩ := printFields_cons k v kvs
  have hlen : (print v).length + more.length < fuel := by
    rw [hprint] at hfuel
    simp [quote] at hfuel
    omega
  obtain ⟨tail, htail, hstring⟩ := string_quote k (':' :: (print v ++ (more ++ '\x7d' :: rest)))
  have htext : printFields ((k, v) :: kvs) ++ '\x7d' :: rest = '"' :: tail := by
    rw [hprint, ← htail]
    simp
  have hquote : skipWs ('"' :: tail) = '"' :: tail := skipWs_of_head (by decide)
  have hcolon : skipWs (':' :: (print v ++ (more ++ '\x7d' :: rest))) =
      ':' :: (print v ++ (more ++ '\x7d' :: rest)) := skipWs_of_head (by decide)
  rw [htext, members, hquote]
  simp only [hstring, Option.bind_some, hcolon, skipWs_print]
  rcases hmore with ⟨rfl, rfl⟩ | ⟨hne, rfl⟩
  · rw [List.nil_append, value_print v fuel _ (stops_brace rest) (by omega)]
    have hbrace : skipWs ('\x7d' :: rest) = '\x7d' :: rest := skipWs_of_head (by decide)
    simp only [Option.bind_some, hbrace]
  · cases kvs with
    | nil => exact absurd rfl hne
    | cons kv kvs =>
      obtain ⟨k', v'⟩ := kv
      rw [List.length_cons] at hlen
      rw [List.cons_append, value_print v fuel _ (stops_comma _) (by omega)]
      have hcomma : skipWs (',' :: (printFields ((k', v') :: kvs) ++ '\x7d' :: rest)) =
          ',' :: (printFields ((k', v') :: kvs) ++ '\x7d' :: rest) := skipWs_of_head (by decide)
      simp only [Option.bind_some, hcomma]
      rw [members_print k' v' kvs fuel rest (by omega)]
      rfl
termination_by fuel

end

/-- The decoder inverts the writer; the line break behind a printed line is no part of the
value. -/
theorem parse_print_line (v : Json) : parse (print v ++ ['\n']) = some v := by
  have hstops : Stops ['\n'] := stops_cons (by decide)
  have hvalue := value_print v (print v ++ ['\n']).length ['\n'] hstops (by simp)
  rw [parse, skipWs_print, hvalue]
  rfl

end Values

end Json
