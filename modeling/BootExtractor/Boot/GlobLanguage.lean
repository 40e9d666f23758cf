import BootExtractor.Boot.Bls
import BootExtractor.Lib.Glob

/-!
# The language of a loader.conf pattern

`glob_match` splits the bytes of the text: a star takes any bytes, a question mark one
byte, and any other character of the pattern its own bytes. Read over characters this is
the same, unless a question mark is to take a character of several bytes.
-/

namespace BootExtractor.Boot.Bls

open Glob (Matches)

/-- A byte of an encoded pattern, as `glob_match` reads it. -/
def byteItem (b : UInt8) : Glob.Item UInt8 :=
  if b = 0x2a then .star else if b = 0x3f then .any else .lit [b]

/-- A character of a pattern. -/
def charItem (c : Char) : Glob.Item Char :=
  if c = '*' then .star else if c = '?' then .any else .lit [c]

/-- The pattern over characters. -/
def charItems (pattern : Str) : List (Glob.Item Char) := pattern.map charItem

/-- The pattern over bytes: what it spells out is spelled out by its bytes. -/
def byteItems (pattern : Str) : List (Glob.Item UInt8) :=
  (charItems pattern).map (Glob.Item.encode String.utf8EncodeChar)

/-! ### The bytes of a character -/

/-- The characters of one byte are those of ASCII. -/
private theorem length_encodeChar_eq_one {c : Char} :
    (String.utf8EncodeChar c).length = 1 ↔ c.toNat < 128 := by
  rw [String.length_utf8EncodeChar, Char.utf8Size_eq_one_iff, UInt32.le_iff_toNat_le]
  exact Nat.lt_succ_iff.symm

/-- No character starts inside of another one. -/
theorem encodeChar_selfSync : Glob.SelfSync String.utf8EncodeChar UInt8.IsUTF8FirstByte where
  leads c := by
    obtain ⟨b, cont, hc⟩ := List.exists_cons_of_ne_nil (@String.utf8EncodeChar_ne_nil c)
    have hfirst : ∀ i (hi : i < (b :: cont).length),
        (b :: cont)[i].IsUTF8FirstByte ↔ i = 0 := by
      simp only [← hc]
      exact fun i hi => UInt8.isUTF8FirstByte_getElem_utf8EncodeChar
    refine ⟨b, cont, hc, (hfirst 0 (Nat.succ_pos _)).2 rfl, fun x hx hlead => ?_⟩
    obtain ⟨i, hi, rfl⟩ := List.getElem_of_mem hx
    exact absurd ((hfirst (i + 1) (Nat.succ_lt_succ hi)).1 hlead) (Nat.succ_ne_zero i)
  prefix_free := by
    intro c c' r r' heq
    have hdecode : ∀ (d : Char) (rest : Bytes),
        (String.utf8EncodeChar d ++ rest).toByteArray.utf8DecodeChar? 0 = some d := by
      intro d rest
      rw [List.toByteArray_append]
      exact ByteArray.utf8DecodeChar?_utf8EncodeChar_append
    have hsome := hdecode c r
    rw [heq, hdecode c' r'] at hsome
    exact (Option.some.inj hsome).symm

/-! ### Bytes -/

private theorem byteItem_star : byteItem 0x2a = .star := rfl

private theorem byteItem_any : byteItem 0x3f = .any := rfl

private theorem byteItem_lit {b : UInt8} (hstar : b ≠ 0x2a) (hany : b ≠ 0x3f) :
    byteItem b = .lit [b] := by
  rw [byteItem, if_neg hstar, if_neg hany]

/-- The recursion decides whether the bytes split into one piece for each item. -/
theorem globRec_iff (p s : Bytes) : globRec p s = true ↔ Matches (p.map byteItem) s := by
  induction p, s using globRec.induct with
  | case1 s => simp [globRec]
  | case2 p s here later =>
    rw [List.map_cons, byteItem_star]
    cases s with
    | nil => simp [globRec, here]
    | cons b s =>
      rw [List.map_cons, byteItem_star] at later
      simp [globRec, here, later, Glob.matches_star_cons]
  | case3 p _ =>
    rw [List.map_cons, byteItem_any]
    simp [globRec]
  | case4 p b s _ rest =>
    rw [List.map_cons, byteItem_any]
    simp [globRec, rest]
  | case5 c p hstar hany =>
    rw [List.map_cons, byteItem_lit hstar hany, Glob.matches_lit]
    simp [globRec, hstar]
  | case6 c p hstar hany b s rest =>
    rw [List.map_cons, byteItem_lit hstar hany, Glob.matches_lit]
    simp only [globRec, if_neg hstar, if_neg hany, Bool.and_eq_true, beq_iff_eq, rest,
      List.singleton_append, List.cons.injEq]
    constructor
    · rintro ⟨rfl, h⟩
      exact ⟨s, h, rfl, rfl⟩
    · rintro ⟨s', h, rfl, rfl⟩
      exact ⟨rfl, h⟩

/-- A character that is neither wildcard has neither wildcard among its bytes. -/
theorem map_byteItem_encodeChar {c : Char} (hstar : c ≠ '*') (hany : c ≠ '?') :
    (String.utf8EncodeChar c).map byteItem = (String.utf8EncodeChar c).map fun b => .lit [b] := by
  apply List.map_congr_left
  intro b hb
  have hwild : ∀ {d : Char} {x : UInt8}, String.utf8EncodeChar d = [x] → c ≠ d → b ≠ x := by
    rintro d x hd hne rfl
    exact hne ((encodeChar_selfSync.mem_iff_of_single hd).1 hb)
  exact byteItem_lit (hwild (d := '*') rfl hstar) (hwild (d := '?') rfl hany)

/-- The bytes of a pattern match as its characters do, item by item. -/
theorem matches_encode_pattern (pattern : Str) (s : Bytes) :
    Matches ((Utf8.encode pattern).map byteItem) s ↔ Matches (byteItems pattern) s := by
  induction pattern generalizing s with
  | nil => rfl
  | cons c pattern ih =>
    have hbytes : (Utf8.encode (c :: pattern)).map byteItem =
        (String.utf8EncodeChar c).map byteItem ++ (Utf8.encode pattern).map byteItem := by
      rw [Utf8.encode, List.flatMap_cons, List.map_append, Utf8.encode]
    have hitem : byteItems (c :: pattern) =
        (charItem c).encode String.utf8EncodeChar :: byteItems pattern := rfl
    rw [hbytes, hitem]
    rcases eq_or_ne c '*' with rfl | hstar
    · exact Glob.matches_cons_congr ih s
    rcases eq_or_ne c '?' with rfl | hany
    · exact Glob.matches_cons_congr ih s
    · rw [map_byteItem_encodeChar hstar hany, Glob.matches_letters, charItem, if_neg hstar,
        if_neg hany, Glob.Item.encode, List.flatMap_singleton]
      exact Glob.matches_cons_congr ih s

/-- `glob_match` decides the language of the pattern over bytes. -/
theorem globMatch_iff (pattern s : Str) :
    globMatch pattern s = true ↔ Matches (byteItems pattern) (Utf8.encode s) :=
  (globRec_iff ..).trans (matches_encode_pattern ..)

/-! ### Characters -/

/-- A pattern has a wildcard for one character exactly if it holds a `?`. -/
private theorem any_mem_charItems {pattern : Str} : .any ∈ charItems pattern ↔ '?' ∈ pattern := by
  simp only [charItems, List.mem_map]
  constructor
  · rintro ⟨c, hc, heq⟩
    rcases eq_or_ne c '*' with rfl | hstar
    · cases heq
    rcases eq_or_ne c '?' with rfl | hany
    · exact hc
    · rw [charItem, if_neg hstar, if_neg hany] at heq
      cases heq
  · intro h
    exact ⟨'?', h, rfl⟩

/-- The language of the pattern over characters, where no question mark meets a character
of several bytes. -/
theorem globMatch_iff_chars {pattern s : Str}
    (h : '?' ∉ pattern ∨ ∀ c ∈ s, c.toNat < 128) :
    globMatch pattern s = true ↔ Matches (charItems pattern) s := by
  rw [globMatch_iff]
  apply encodeChar_selfSync.matches_encode
  exact h.imp (mt any_mem_charItems.1) fun hs c hc => length_encodeChar_eq_one.2 (hs c hc)

/-- Question marks in the number of characters count the bytes. -/
theorem globMatch_marks (s : Str) :
    globMatch (List.replicate s.length '?') s = true ↔ ∀ c ∈ s, c.toNat < 128 := by
  have hbytes : byteItems (List.replicate s.length '?') = List.replicate s.length .any := by
    rw [byteItems, charItems, List.map_replicate, List.map_replicate]
    rfl
  rw [globMatch_iff, hbytes, Utf8.encode, encodeChar_selfSync.matches_replicate_any_iff]
  simp only [length_encodeChar_eq_one]

/-- `glob_match` decides the language of the pattern over bytes. Over characters it
decides the same where the pattern has no question mark or the text is ASCII, and a text
that is not ASCII is told apart by some pattern. -/
theorem globMatch_language (pattern s : Str) :
    (globMatch pattern s = true ↔ Matches (byteItems pattern) (Utf8.encode s)) ∧
      (('?' ∉ pattern ∨ ∀ c ∈ s, c.toNat < 128) →
        (globMatch pattern s = true ↔ Matches (charItems pattern) s)) ∧
      ((∀ pattern' : Str, globMatch pattern' s = true ↔ Matches (charItems pattern') s) ↔
        ∀ c ∈ s, c.toNat < 128) := by
  refine ⟨globMatch_iff pattern s, globMatch_iff_chars, fun hall => ?_, fun hs pattern' => ?_⟩
  · apply (globMatch_marks s).1
    apply (hall _).2
    rw [charItems, List.map_replicate]
    exact Glob.matches_replicate_any.2 rfl
  · exact globMatch_iff_chars (.inr hs)

/-- A question mark does not take a character of two bytes. -/
theorem globMatch_not_over_chars :
    ¬ ∀ pattern s : Str, globMatch pattern s = true ↔ Matches (charItems pattern) s := by
  intro h
  have hmatch : Matches (charItems ['?']) ['é'] :=
    Glob.matches_any_cons.2 (Glob.matches_nil.2 rfl)
  have hascii := (globMatch_marks ['é']).1 ((h ['?'] ['é']).2 hmatch) 'é' (List.mem_singleton.2 rfl)
  exact absurd hascii (by decide)

end BootExtractor.Boot.Bls
