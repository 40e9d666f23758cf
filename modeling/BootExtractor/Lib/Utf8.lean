import BootExtractor.Lib.Bytes
import BootExtractor.Lib.Str

/-!
# UTF-8

Encoding and strict decoding are those of the core library on byte lists. Lossy
decoding turns every maximal ill-formed part into one replacement character; it
looks at one character at a time and always advances.
-/

namespace Utf8

/-- The bytes of a text. -/
def encode (s : Str) : Bytes := s.flatMap String.utf8EncodeChar

/-- `str::from_utf8`, where it succeeds. -/
def decode? (b : Bytes) : Option Str := b.toByteArray.utf8Decode?.map Array.toList

/-- Every text is decoded from its bytes. -/
theorem decode?_encode (s : Str) : decode? (encode s) = some s := by
  have h : (encode s).toByteArray = s.utf8Encode := by simp only [encode, List.utf8Encode]
  rw [decode?, h, List.utf8Decode?_utf8Encode]
  rfl

/-- U+FFFD. -/
def replacement : Char := '\uFFFD'

/-- A continuation byte. -/
def isCont (b : UInt8) : Bool := 0x80 ≤ b && b ≤ 0xbf

/-- The second bytes that may follow the first byte of a three-byte sequence. -/
def isSecond3 (b0 b1 : UInt8) : Bool :=
  if b0 = 0xe0 then 0xa0 ≤ b1 && b1 ≤ 0xbf
  else if b0 = 0xed then 0x80 ≤ b1 && b1 ≤ 0x9f
  else isCont b1

/-- The second bytes that may follow the first byte of a four-byte sequence. -/
def isSecond4 (b0 b1 : UInt8) : Bool :=
  if b0 = 0xf0 then 0x90 ≤ b1 && b1 ≤ 0xbf
  else if b0 = 0xf4 then 0x80 ≤ b1 && b1 ≤ 0x8f
  else isCont b1

/-- The payload bits of a continuation byte. -/
def contBits (b : UInt8) : Nat := b.toNat % 64

/-- The first character and the number of bytes it takes beyond the first; a byte
that is not there counts as zero, which continues nothing. -/
def decodeFirst (b0 : UInt8) (rest : Bytes) : Char × Nat :=
  let b1 := rest.getD 0 0
  let b2 := rest.getD 1 0
  let b3 := rest.getD 2 0
  if b0 < 0x80 then (Char.ofNat b0.toNat, 0)
  else if 0xc2 ≤ b0 && b0 ≤ 0xdf then
    if isCont b1 then (Char.ofNat (b0.toNat % 32 * 64 + contBits b1), 1) else (replacement, 0)
  else if 0xe0 ≤ b0 && b0 ≤ 0xef then
    if !isSecond3 b0 b1 then (replacement, 0)
    else if isCont b2 then
      (Char.ofNat (b0.toNat % 16 * 4096 + contBits b1 * 64 + contBits b2), 2)
    else (replacement, 1)
  else if 0xf0 ≤ b0 && b0 ≤ 0xf4 then
    if !isSecond4 b0 b1 then (replacement, 0)
    else if !isCont b2 then (replacement, 1)
    else if isCont b3 then
      (Char.ofNat (b0.toNat % 8 * 262144 + contBits b1 * 4096 + contBits b2 * 64 + contBits b3), 3)
    else (replacement, 2)
  else (replacement, 0)

/-- `String::from_utf8_lossy`. -/
def fromLossy (b : Bytes) : Str := go b.length b
where
  /-- At most `fuel` characters; each takes at least one byte. -/
  go : Nat → Bytes → Str
    | 0, _ => []
    | _, [] => []
    | fuel + 1, b0 :: rest =>
      let (c, more) := decodeFirst b0 rest
      c :: go fuel (rest.drop more)

/-- Only no bytes decode to no text. -/
theorem fromLossy_eq_nil {b : Bytes} : fromLossy b = [] ↔ b = [] := by
  cases b with
  | nil => exact ⟨fun _ => rfl, fun _ => rfl⟩
  | cons b0 rest =>
    constructor
    · intro h
      cases h
    · intro h
      cases h

/-- ASCII in front is decoded byte by byte, whatever follows. -/
theorem fromLossy_ascii_append {p : Bytes} (hp : ∀ b ∈ p, b < 0x80) (rest : Bytes) :
    fromLossy (p ++ rest) = p.map (fun b => Char.ofNat b.toNat) ++ fromLossy rest := by
  induction p with
  | nil => rfl
  | cons b p ih =>
    have hb : decodeFirst b (p ++ rest) = (Char.ofNat b.toNat, 0) := by
      rw [decodeFirst]
      exact if_pos (hp b (List.mem_cons_self ..))
    have hgo : fromLossy (b :: (p ++ rest)) = Char.ofNat b.toNat :: fromLossy (p ++ rest) := by
      rw [fromLossy, List.length_cons, fromLossy.go, hb]
      rfl
    rw [List.cons_append, hgo, ih fun x hx => hp x (List.mem_cons_of_mem _ hx)]
    rfl

section Text

/-- A byte in a range. -/
theorem within {lo hi : UInt8} {n : Nat} (h : lo.toNat ≤ n ∧ n ≤ hi.toNat) :
    (decide (lo ≤ UInt8.ofNat n) && decide (UInt8.ofNat n ≤ hi)) = true := by
  have hn : n < 256 := Nat.lt_of_le_of_lt h.2 hi.toNat_lt
  rw [Bool.and_eq_true, decide_eq_true_eq, decide_eq_true_eq, UInt8.le_iff_toNat_le,
    UInt8.le_iff_toNat_le, UInt8.toNat_ofNat_of_lt' hn]
  exact h

/-- A byte past a range. -/
theorem beyond {lo hi : UInt8} {n : Nat} (hn : n < 256) (h : hi.toNat < n) :
    ¬(decide (lo ≤ UInt8.ofNat n) && decide (UInt8.ofNat n ≤ hi)) = true := by
  rw [Bool.and_eq_true, decide_eq_true_eq, decide_eq_true_eq, UInt8.le_iff_toNat_le,
    UInt8.le_iff_toNat_le, UInt8.toNat_ofNat_of_lt' hn]
  omega

private theorem ofNat_eq {b : UInt8} {n : Nat} (hn : n < 256) (h : UInt8.ofNat n = b) :
    n = b.toNat := by
  rw [← h, UInt8.toNat_ofNat_of_lt' hn]

private theorem not_lt_ofNat {n : Nat} (hn : n < 256) (h : 0x80 ≤ n) : ¬UInt8.ofNat n < 0x80 := by
  rw [UInt8.lt_iff_toNat_lt, UInt8.toNat_ofNat_of_lt' hn]
  exact Nat.not_lt.mpr h

/-- The continuation byte of six bits. -/
def cont (n : Nat) : UInt8 := UInt8.ofNat (n % 64 + 0x80)

private theorem isCont_cont (n : Nat) : isCont (cont n) = true :=
  within (show 0x80 ≤ n % 64 + 0x80 ∧ n % 64 + 0x80 ≤ 0xbf by omega)

private theorem contBits_cont (n : Nat) : contBits (cont n) = n % 64 := by
  rw [contBits, cont, UInt8.toNat_ofNat_of_lt' (show n % 64 + 0x80 < 256 by omega)]
  omega

/-- A character of one byte is decoded. -/
theorem decodeFirst_one {v : Nat} (h : v ≤ 0x7f) (rest : Bytes) :
    decodeFirst (UInt8.ofNat v) rest = (Char.ofNat v, 0) := by
  have hlt : UInt8.ofNat v < 0x80 := by
    rw [UInt8.lt_iff_toNat_lt, UInt8.toNat_ofNat_of_lt' (show v < 256 by omega)]
    exact Nat.lt_succ_of_le h
  simp only [decodeFirst]
  rw [if_pos hlt, UInt8.toNat_ofNat_of_lt' (show v < 256 by omega)]

/-- A character of two bytes is decoded. -/
theorem decodeFirst_two {v : Nat} (hlow : 0x80 ≤ v) (hhigh : v ≤ 0x7ff) (rest : Bytes) :
    decodeFirst (UInt8.ofNat (v / 64 % 32 + 0xc0)) (cont v :: rest) = (Char.ofNat v, 1) := by
  have hn : v / 64 % 32 + 0xc0 < 256 := by omega
  have htwo := @within 0xc2 0xdf (v / 64 % 32 + 0xc0)
    (show 0xc2 ≤ v / 64 % 32 + 0xc0 ∧ v / 64 % 32 + 0xc0 ≤ 0xdf by omega)
  have hvalue : (v / 64 % 32 + 0xc0) % 32 * 64 + v % 64 = v := by omega
  simp only [decodeFirst, List.getD_cons_zero]
  rw [if_neg (not_lt_ofNat hn (by omega)), if_pos htwo, if_pos (isCont_cont v), contBits_cont,
    UInt8.toNat_ofNat_of_lt' hn, hvalue]

/-- The second of three bytes neither makes them too many nor a surrogate. -/
theorem isSecond3_cont {v : Nat} (hlow : 0x800 ≤ v) (hhigh : v ≤ 0xffff)
    (hchar : v < 0xd800 ∨ 0xe000 ≤ v) :
    isSecond3 (UInt8.ofNat (v / 4096 % 16 + 0xe0)) (cont (v / 64)) = true := by
  have hn : v / 4096 % 16 + 0xe0 < 256 := by omega
  rw [isSecond3]
  split
  · rename_i he
    have hfirst : v / 4096 % 16 + 0xe0 = 0xe0 := ofNat_eq hn he
    have hlong : 0xa0 ≤ v / 64 % 64 + 0x80 := by omega
    exact within (show 0xa0 ≤ v / 64 % 64 + 0x80 ∧ v / 64 % 64 + 0x80 ≤ 0xbf by omega)
  · split
    · rename_i he
      have hfirst : v / 4096 % 16 + 0xe0 = 0xed := ofNat_eq hn he
      have hshort : v / 64 % 64 + 0x80 ≤ 0x9f := by omega
      exact within (show 0x80 ≤ v / 64 % 64 + 0x80 ∧ v / 64 % 64 + 0x80 ≤ 0x9f by omega)
    · exact isCont_cont _

/-- A character of three bytes is decoded. -/
theorem decodeFirst_three {v : Nat} (hlow : 0x800 ≤ v) (hhigh : v ≤ 0xffff)
    (hchar : v < 0xd800 ∨ 0xe000 ≤ v) (rest : Bytes) :
    decodeFirst (UInt8.ofNat (v / 4096 % 16 + 0xe0)) (cont (v / 64) :: cont v :: rest) =
      (Char.ofNat v, 2) := by
  have hn : v / 4096 % 16 + 0xe0 < 256 := by omega
  have htwo := @beyond 0xc2 0xdf _ hn (show 0xdf < v / 4096 % 16 + 0xe0 by omega)
  have hthree := @within 0xe0 0xef (v / 4096 % 16 + 0xe0)
    (show 0xe0 ≤ v / 4096 % 16 + 0xe0 ∧ v / 4096 % 16 + 0xe0 ≤ 0xef by omega)
  have hvalue : (v / 4096 % 16 + 0xe0) % 16 * 4096 + v / 64 % 64 * 64 + v % 64 = v := by omega
  simp only [decodeFirst, List.getD_cons_zero, List.getD_cons_succ]
  rw [if_neg (not_lt_ofNat hn (by omega)), if_neg htwo, if_pos hthree,
    isSecond3_cont hlow hhigh hchar, if_neg (by decide), if_pos (isCont_cont v), contBits_cont,
    contBits_cont, UInt8.toNat_ofNat_of_lt' hn, hvalue]

/-- The second of four bytes makes them neither too many nor too large. -/
theorem isSecond4_cont {v : Nat} (hlow : 0x10000 ≤ v) (hhigh : v < 0x110000) :
    isSecond4 (UInt8.ofNat (v / 262144 % 8 + 0xf0)) (cont (v / 4096)) = true := by
  have hn : v / 262144 % 8 + 0xf0 < 256 := by omega
  rw [isSecond4]
  split
  · rename_i he
    have hfirst : v / 262144 % 8 + 0xf0 = 0xf0 := ofNat_eq hn he
    exact within (show 0x90 ≤ v / 4096 % 64 + 0x80 ∧ v / 4096 % 64 + 0x80 ≤ 0xbf by omega)
  · split
    · rename_i he
      have hfirst : v / 262144 % 8 + 0xf0 = 0xf4 := ofNat_eq hn he
      exact within (show 0x80 ≤ v / 4096 % 64 + 0x80 ∧ v / 4096 % 64 + 0x80 ≤ 0x8f by omega)
    · exact isCont_cont _

/-- A character of four bytes is decoded. -/
theorem decodeFirst_four {v : Nat} (hlow : 0x10000 ≤ v) (hhigh : v < 0x110000) (rest : Bytes) :
    decodeFirst (UInt8.ofNat (v / 262144 % 8 + 0xf0))
        (cont (v / 4096) :: cont (v / 64) :: cont v :: rest) =
      (Char.ofNat v, 3) := by
  have hn : v / 262144 % 8 + 0xf0 < 256 := by omega
  have htwo := @beyond 0xc2 0xdf _ hn (show 0xdf < v / 262144 % 8 + 0xf0 by omega)
  have hthree := @beyond 0xe0 0xef _ hn (show 0xef < v / 262144 % 8 + 0xf0 by omega)
  have hfour := @within 0xf0 0xf4 (v / 262144 % 8 + 0xf0)
    (show 0xf0 ≤ v / 262144 % 8 + 0xf0 ∧ v / 262144 % 8 + 0xf0 ≤ 0xf4 by omega)
  have hvalue : (v / 262144 % 8 + 0xf0) % 8 * 262144 + v / 4096 % 64 * 4096 + v / 64 % 64 * 64 +
      v % 64 = v := by omega
  simp only [decodeFirst, List.getD_cons_zero, List.getD_cons_succ]
  rw [if_neg (not_lt_ofNat hn (by omega)), if_neg htwo, if_neg hthree, if_pos hfour,
    isSecond4_cont hlow hhigh, if_neg (by decide), isCont_cont, if_neg (by decide),
    if_pos (isCont_cont v), contBits_cont, contBits_cont, contBits_cont,
    UInt8.toNat_ofNat_of_lt' hn, hvalue]

/-- The bytes of a character are read back as one character. -/
theorem decodeFirst_encodeChar (c : Char) :
    ∃ b0 more, String.utf8EncodeChar c = b0 :: more ∧
      ∀ rest, decodeFirst b0 (more ++ rest) = (c, more.length) := by
  have hchar : Char.ofNat c.val.toNat = c := Char.ofNat_toNat c
  unfold String.utf8EncodeChar
  by_cases h1 : c.val.toNat ≤ 0x7f
  · refine ⟨_, _, if_pos h1, fun rest => ?_⟩
    rw [List.nil_append, decodeFirst_one h1, hchar]
    rfl
  · by_cases h2 : c.val.toNat ≤ 0x7ff
    · refine ⟨_, _, (if_neg h1).trans (if_pos h2), fun rest => ?_⟩
      have h := decodeFirst_two (by omega) h2 rest
      rw [hchar] at h
      exact h
    · by_cases h3 : c.val.toNat ≤ 0xffff
      · refine ⟨_, _, (if_neg h1).trans ((if_neg h2).trans (if_pos h3)), fun rest => ?_⟩
        have hvalid : c.val.toNat < 0xd800 ∨ 0xe000 ≤ c.val.toNat :=
          c.valid.imp id fun h => h.1
        have h := decodeFirst_three (by omega) h3 hvalid rest
        rw [hchar] at h
        exact h
      · refine ⟨_, _, (if_neg h1).trans ((if_neg h2).trans (if_neg h3)), fun rest => ?_⟩
        have hvalid : c.val.toNat < 0x110000 := by
          rcases c.valid with h | h
          · exact Nat.lt_trans h (by decide)
          · exact h.2
        have h := decodeFirst_four (by omega) hvalid rest
        rw [hchar] at h
        exact h

/-- More passes than bytes make no difference. -/
theorem fromLossy_go {m n : Nat} {b : Bytes} (hm : b.length ≤ m) (hn : b.length ≤ n) :
    fromLossy.go m b = fromLossy.go n b := by
  induction m generalizing n b with
  | zero =>
    obtain rfl := List.length_eq_zero_iff.mp (Nat.le_zero.mp hm)
    cases n <;> rfl
  | succ m ih =>
    cases b with
    | nil => cases n <;> rfl
    | cons b0 rest =>
      cases n with
      | zero => cases hn
      | succ n =>
        have hrest : (rest.drop (decodeFirst b0 rest).2).length ≤ rest.length := by
          rw [List.length_drop]
          exact Nat.sub_le _ _
        have hmore := ih (Nat.le_trans hrest (Nat.le_of_succ_le_succ hm))
          (Nat.le_trans hrest (Nat.le_of_succ_le_succ hn))
        exact congrArg ((decodeFirst b0 rest).1 :: ·) hmore

/-- The first bytes are decoded first. -/
theorem fromLossy_cons (b0 : UInt8) (rest : Bytes) :
    fromLossy (b0 :: rest) =
      (decodeFirst b0 rest).1 :: fromLossy (rest.drop (decodeFirst b0 rest).2) := by
  have hrest : (rest.drop (decodeFirst b0 rest).2).length ≤ rest.length := by
    rw [List.length_drop]
    exact Nat.sub_le _ _
  exact congrArg ((decodeFirst b0 rest).1 :: ·) (fromLossy_go hrest (Nat.le_refl _))

/-- Lossy decoding loses nothing of a text. -/
theorem fromLossy_encode (s : Str) : fromLossy (encode s) = s := by
  induction s with
  | nil => rfl
  | cons c s ih =>
    obtain ⟨b0, more, hbytes, hdecode⟩ := decodeFirst_encodeChar c
    have hencode : encode (c :: s) = b0 :: (more ++ encode s) := by
      rw [encode, List.flatMap_cons, hbytes]
      rfl
    rw [hencode, fromLossy_cons, hdecode, List.drop_left, ih]

end Text

end Utf8
