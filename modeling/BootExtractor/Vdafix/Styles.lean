import BootExtractor.Vdafix

/-!
# Styles of device names

The device names a distribution installer would write, and which of them the scan
for a partition number reads as documented. It takes a trailing `p` for a separator
before it looks at the disk letters, and it counts the bytes behind a character as if
every character had one.
-/

namespace BootExtractor.Vdafix

open BootExtractor.Part

/-- Decimal digits. -/
structure IsDecimal (ds : Str) : Prop where
  ne_nil : ds ≠ []
  digits : ∀ c ∈ ds, c.isDigit = true

/-- The number that the digits write. -/
def decimalValue (ds : Str) : Nat := Nat.ofDigitChars 10 ds 0

/-- Disk letters. -/
structure IsLetters (l : Str) : Prop where
  ne_nil : l ≠ []
  lower : ∀ c ∈ l, c.isLower = true

/-- What stands in front of disk letters. -/
def letterPrefixes : List Str := ["sd".toList, "vd".toList, "hd".toList, "xvd".toList]

/-- A documented device and its partition number. -/
inductive Documented : Str → Option Nat → Prop where
  | letters {pre l ds : Str} (hpre : pre ∈ letterPrefixes) (hl : IsLetters l) (hds : IsDecimal ds)
      (hfit : decimalValue ds < 2 ^ 64) :
      Documented ("/dev/".toList ++ (pre ++ l ++ ds)) (some (decimalValue ds))
  | nvme {c s ds : Str} (hc : IsDecimal c) (hs : IsDecimal s) (hds : IsDecimal ds)
      (hfit : decimalValue ds < 2 ^ 64) :
      Documented ("/dev/".toList ++ ("nvme".toList ++ c ++ 'n' :: s ++ 'p' :: ds))
        (some (decimalValue ds))
  | mmcblk {c ds : Str} (hc : IsDecimal c) (hds : IsDecimal ds) (hfit : decimalValue ds < 2 ^ 64) :
      Documented ("/dev/".toList ++ ("mmcblk".toList ++ c ++ 'p' :: ds)) (some (decimalValue ds))
  | wholeLetters {pre l : Str} (hpre : pre ∈ letterPrefixes) (hl : IsLetters l) :
      Documented ("/dev/".toList ++ (pre ++ l)) none
  | wholeNvme {c s : Str} (hc : IsDecimal c) (hs : IsDecimal s) :
      Documented ("/dev/".toList ++ ("nvme".toList ++ c ++ 'n' :: s)) none
  | wholeMmcblk {c : Str} (hc : IsDecimal c) :
      Documented ("/dev/".toList ++ ("mmcblk".toList ++ c)) none
  | foreign {dev : Str} (h : ¬"/dev/".toList <+: dev) : Documented dev none
  | undigited {name : Str} (h : ∀ c, name.getLast? = some c → c.isDigit = false) :
      Documented ("/dev/".toList ++ name) none

/-- The last character in front of the trailing digits is longer than a byte. -/
def CutsCharacter (dev : Str) : Prop :=
  ∃ stem c digits, dev = "/dev/".toList ++ (stem ++ c :: digits) ∧ 128 ≤ c.toNat ∧
    ∀ d ∈ digits, d.isDigit = true

/-- A partition of a disk whose letters end in `p`. -/
def LettersEndInP (dev : Str) : Prop :=
  ∃ pre l ds, pre ∈ letterPrefixes ∧ dev = "/dev/".toList ++ (pre ++ (l ++ ['p']) ++ ds) ∧
    (∀ c ∈ l, c.isLower = true) ∧ IsDecimal ds

section Scan

/-- A name is digits only, or it has a last character that is none. -/
theorem digits_or_split (name : Str) :
    (∀ c ∈ name, c.isDigit = true) ∨
      ∃ stem c digits, name = stem ++ c :: digits ∧ c.isDigit = false ∧
        ∀ d ∈ digits, d.isDigit = true := by
  induction name with
  | nil => exact Or.inl fun c hc => absurd hc List.not_mem_nil
  | cons x rest ih =>
    rcases ih with hall | ⟨stem, c, digits, rfl, hc, hdigits⟩
    · by_cases hx : x.isDigit = true
      · refine Or.inl fun c hc => ?_
        rcases List.mem_cons.mp hc with rfl | hc
        · exact hx
        · exact hall c hc
      · exact Or.inr ⟨[], x, rest, rfl, Bool.eq_false_iff.mpr hx, hall⟩
    · exact Or.inr ⟨x :: stem, c, digits, rfl, hc, hdigits⟩

private theorem rdropWhile_split (stem : Str) {digits : Str} {c : Char} (hc : c.isDigit = false)
    (hdigits : ∀ d ∈ digits, d.isDigit = true) :
    (stem ++ c :: digits).rdropWhile Char.isDigit = stem ++ [c] ∧
      (stem ++ c :: digits).rtakeWhile Char.isDigit = digits := by
  have hrev : (stem ++ c :: digits).reverse = digits.reverse ++ c :: stem.reverse := by simp
  have hdigits' : ∀ d ∈ digits.reverse, d.isDigit = true := fun d hd =>
    hdigits d (List.mem_reverse.mp hd)
  have hc' : ¬c.isDigit = true := by rw [hc]; exact Bool.false_ne_true
  constructor
  · rw [List.rdropWhile, hrev, List.dropWhile_append_of_pos hdigits',
      List.dropWhile_cons_of_neg hc']
    simp
  · rw [List.rtakeWhile, hrev, List.takeWhile_append_of_pos hdigits',
      List.takeWhile_cons_of_neg hc']
    simp

/-- A path outside of `/dev` names no partition. -/
theorem partitionNumber_foreign {dev : Str} (h : ¬"/dev/".toList <+: dev) :
    partitionNumber dev = .ok none := by
  have hnone : Str.stripPrefix "/dev/".toList dev = none := if_neg h
  rw [partitionNumber, hnone]

/-- Digits alone name no partition. -/
theorem partitionNumber_digits {digits : Str} (h : ∀ d ∈ digits, d.isDigit = true) :
    partitionNumber ("/dev/".toList ++ digits) = .ok none := by
  have hstem : digits.rdropWhile Char.isDigit = [] := List.rdropWhile_eq_nil_iff.mpr h
  rw [partitionNumber, Str.stripPrefix_append]
  simp only [hstem, List.getLast?_nil]

/-- The scan of a name with its last character that is no digit. -/
theorem partitionNumber_split (stem : Str) {c : Char} {digits : Str} (hc : c.isDigit = false)
    (hdigits : ∀ d ∈ digits, d.isDigit = true) :
    partitionNumber ("/dev/".toList ++ (stem ++ c :: digits)) =
      if c.utf8Size ≠ 1 then .error .panic
      else
        .ok ((Str.parseUsize digits).bind fun n =>
          if validStem (stem ++ [c]) then some n else none) := by
  obtain ⟨hstem, htake⟩ := rdropWhile_split stem hc hdigits
  rw [partitionNumber, Str.stripPrefix_append]
  simp only [hstem, htake, List.getLast?_append, List.getLast?_singleton, Option.some_or]
  split
  · rfl
  · cases Str.parseUsize digits <;> rfl

/-- One byte is enough exactly for ASCII. -/
theorem utf8Size_eq_one_iff (c : Char) : c.utf8Size = 1 ↔ c.toNat < 128 := by
  rw [Char.utf8Size_eq_one_iff, UInt32.le_iff_toNat_le]
  exact Nat.lt_succ_iff.symm

private theorem isDigit_lt {c : Char} (h : c.isDigit = true) : c.toNat < 128 := by
  simp only [Char.isDigit, Bool.and_eq_true, decide_eq_true_eq] at h
  have h57 : c.toNat ≤ 57 := h.2
  omega

/-- A name is cut inside of a character exactly when its scan panics. -/
theorem partitionNumber_error_iff (dev : Str) :
    (∃ f, partitionNumber dev = .error f) ↔ CutsCharacter dev := by
  constructor
  · rintro ⟨f, hf⟩
    by_cases hdev : "/dev/".toList <+: dev
    · obtain ⟨name, rfl⟩ := hdev
      rcases digits_or_split name with hall | ⟨stem, c, digits, rfl, hc, hdigits⟩
      · rw [partitionNumber_digits hall] at hf
        cases hf
      · rw [partitionNumber_split stem hc hdigits] at hf
        split at hf
        · rename_i hsize
          rw [ne_eq, utf8Size_eq_one_iff, Nat.not_lt] at hsize
          exact ⟨stem, c, digits, rfl, hsize, hdigits⟩
        · cases hf
    · rw [partitionNumber_foreign hdev] at hf
      cases hf
  · rintro ⟨stem, c, digits, rfl, hc, hdigits⟩
    have hcd : c.isDigit = false := by
      refine Bool.eq_false_iff.mpr fun h => ?_
      have := isDigit_lt h
      omega
    have hsize : c.utf8Size ≠ 1 := by
      rw [ne_eq, utf8Size_eq_one_iff]
      omega
    exact ⟨.panic, by rw [partitionNumber_split stem hcd hdigits, if_pos hsize]⟩

/-- The split in front of the trailing digits is unique. -/
theorem split_unique {stem stem' digits digits' : Str} {c c' : Char} (hc : c.isDigit = false)
    (hdigits : ∀ d ∈ digits, d.isDigit = true) (hc' : c'.isDigit = false)
    (hdigits' : ∀ d ∈ digits', d.isDigit = true)
    (h : stem ++ c :: digits = stem' ++ c' :: digits') : c = c' ∧ digits = digits' := by
  obtain ⟨hdrop, htake⟩ := rdropWhile_split stem hc hdigits
  obtain ⟨hdrop', htake'⟩ := rdropWhile_split stem' hc' hdigits'
  rw [h, hdrop'] at hdrop
  rw [h, htake'] at htake
  have hlast := congrArg List.getLast? hdrop
  simp only [List.getLast?_append, List.getLast?_singleton, Option.some_or, Option.some.injEq]
    at hlast
  exact ⟨hlast.symm, htake.symm⟩

end Scan

section Styles

private theorem parseUsize_decimal {ds : Str} (h : IsDecimal ds) (hfit : decimalValue ds < 2 ^ 64) :
    Str.parseUsize ds = some (decimalValue ds) := by
  rw [Str.parseUsize_digits h.ne_nil h.digits]
  exact if_pos hfit

/-- A lower-case letter is a character in front of digits, and no place to cut in. -/
theorem isLower_not_digit {c : Char} (h : c.isLower = true) :
    c.isDigit = false ∧ c.utf8Size = 1 := by
  have h := Bool.and_eq_true_iff.mp h
  simp only [decide_eq_true_eq] at h
  have hlo : 97 ≤ c.toNat := h.1
  have hhi : c.toNat ≤ 122 := h.2
  constructor
  · refine Bool.eq_false_iff.mpr fun hd => ?_
    simp only [Char.isDigit, Bool.and_eq_true, decide_eq_true_eq] at hd
    have : c.toNat ≤ 57 := hd.2
    omega
  · rw [utf8Size_eq_one_iff]
    omega

/-- A stem that ends in a letter decides about the number behind it. -/
theorem partitionNumber_stem (stem : Str) {c : Char} {ds : Str} (hc : c.isLower = true)
    (hds : IsDecimal ds) (hfit : decimalValue ds < 2 ^ 64) :
    partitionNumber ("/dev/".toList ++ (stem ++ c :: ds)) =
      .ok (if validStem (stem ++ [c]) then some (decimalValue ds) else none) := by
  obtain ⟨hdigit, hsize⟩ := isLower_not_digit hc
  rw [partitionNumber_split stem hdigit hds.digits, parseUsize_decimal hds hfit, hsize]
  rfl

/-- Behind `p` only the names with a separator count. -/
theorem validStem_p (base : Str) :
    validStem (base ++ ['p']) =
      (Str.startsWith base "nvme".toList || Str.startsWith base "mmcblk".toList) := by
  have hends : Str.endsWith (base ++ ['p']) "p".toList = true := Str.endsWith_concat base 'p' 'p'
  rw [validStem, hends]
  simp only [if_true, List.dropLast_concat]

/-- Behind another character only the names with letters count. -/
theorem validStem_not_p {base : Str} {c : Char} (hc : c ≠ 'p') :
    validStem (base ++ [c]) =
      letterPrefixes.any fun pre =>
        (Str.stripPrefix pre (base ++ [c])).any fun l => l ≠ [] && l.all Char.isLower := by
  have hends : Str.endsWith (base ++ [c]) "p".toList = (c == 'p') := Str.endsWith_concat base c 'p'
  rw [validStem, hends, if_neg (by simpa using hc)]
  rfl

/-- Letters behind a known stem make a valid stem. -/
private theorem validStem_letters {pre l : Str} {c : Char} (hpre : pre ∈ letterPrefixes)
    (hl : ∀ x ∈ l, x.isLower = true) (hc : c.isLower = true) (hp : c ≠ 'p') :
    validStem (pre ++ l ++ [c]) = true := by
  rw [validStem_not_p hp]
  refine List.any_eq_true.mpr ⟨pre, hpre, ?_⟩
  rw [List.append_assoc, Str.stripPrefix_append]
  have hall : (l ++ [c]).all Char.isLower = true := by
    refine List.all_eq_true.mpr fun x hx => ?_
    rcases List.mem_append.mp hx with hx | hx
    · exact hl x hx
    · rwa [List.mem_singleton.mp hx]
  simp [hall]

/-- No prefix of a letter style starts a name with a separator. -/
theorem validStem_letters_p {pre : Str} (hpre : pre ∈ letterPrefixes) (l : Str) :
    validStem (pre ++ l ++ ['p']) = false := by
  rw [validStem_p]
  simp only [letterPrefixes, List.mem_cons, List.not_mem_nil, or_false] at hpre
  rcases hpre with rfl | rfl | rfl | rfl <;> rfl

private theorem lettersEndInP_none {dev : Str} (h : LettersEndInP dev) :
    partitionNumber dev = .ok none := by
  obtain ⟨pre, l, ds, hpre, rfl, -, hds⟩ := h
  have hassoc : pre ++ (l ++ ['p']) ++ ds = (pre ++ l) ++ 'p' :: ds := by simp
  rw [hassoc, partitionNumber_split _ (by decide) hds.digits, validStem_letters_p hpre]
  cases Str.parseUsize ds <;> rfl

end Styles

section Reading

/-- A name whose last character in front of the digits is another one has no such letters. -/
theorem not_lettersEndInP (stem : Str) (c : Char) {digits : Str} (hc : c.isDigit = false)
    (hdigits : ∀ d ∈ digits, d.isDigit = true) (h : c ≠ 'p' ∨ digits = []) :
    ¬LettersEndInP ("/dev/".toList ++ (stem ++ c :: digits)) := by
  rintro ⟨pre, l, ds, -, heq, -, hds⟩
  have hassoc : pre ++ (l ++ ['p']) ++ ds = (pre ++ l) ++ 'p' :: ds := by simp
  rw [hassoc] at heq
  obtain ⟨rfl, rfl⟩ := split_unique hc hdigits (by decide) hds.digits
    (List.append_cancel_left heq)
  exact h.elim (fun h => h rfl) hds.ne_nil

private theorem not_cutsCharacter_of_reads {dev : Str} {number : Option Nat}
    (h : partitionNumber dev = .ok number) : ¬CutsCharacter dev := by
  intro hcut
  obtain ⟨f, hf⟩ := (partitionNumber_error_iff dev).mpr hcut
  rw [hf] at h
  cases h

/-- A name that is read as some number is neither of the two exceptions. -/
theorem reads_some_iff {dev : Str} {n : Nat} (h : partitionNumber dev = .ok (some n)) :
    ¬LettersEndInP dev ∧ ¬CutsCharacter dev := by
  refine ⟨fun hp => ?_, not_cutsCharacter_of_reads h⟩
  rw [lettersEndInP_none hp] at h
  cases h

/-- A name without trailing digits, cut behind its last character. -/
theorem partitionNumber_undigited {name : Str}
    (h : ∀ c, name.getLast? = some c → c.isDigit = false) :
    (partitionNumber ("/dev/".toList ++ name) = .ok none ↔
        ¬CutsCharacter ("/dev/".toList ++ name)) ∧
      ¬LettersEndInP ("/dev/".toList ++ name) := by
  rcases List.eq_nil_or_concat' name with rfl | ⟨stem, c, rfl⟩
  · have hok : partitionNumber ("/dev/".toList ++ []) = .ok none :=
      partitionNumber_digits fun d hd => absurd hd List.not_mem_nil
    refine ⟨⟨fun _ => not_cutsCharacter_of_reads hok, fun _ => hok⟩, ?_⟩
    rintro ⟨pre, l, ds, -, heq, -⟩
    have := congrArg List.length heq
    simp at this
  · have hc : c.isDigit = false := h c (by simp)
    have hnil : ∀ d ∈ ([] : Str), d.isDigit = true := fun d hd => absurd hd List.not_mem_nil
    refine ⟨?_, not_lettersEndInP _ _ hc hnil (Or.inr rfl)⟩
    rw [← partitionNumber_error_iff, partitionNumber_split stem hc hnil]
    have hempty : Str.parseUsize [] = none := by decide
    rw [hempty]
    split <;> simp

/-- A documented device is read as documented unless its disk letters end in `p` or it is
cut inside of a character. -/
theorem partitionNumber_documented {dev : Str} {want : Option Nat} (h : Documented dev want) :
    partitionNumber dev = .ok want ↔ ¬LettersEndInP dev ∧ ¬CutsCharacter dev := by
  cases h with
  | @letters pre l ds hpre hl hds hfit =>
    refine ⟨reads_some_iff, fun hno => ?_⟩
    rcases List.eq_nil_or_concat' l with rfl | ⟨init, c, rfl⟩
    · exact absurd rfl hl.ne_nil
    · have hinit : ∀ x ∈ init, x.isLower = true := fun x hx =>
        hl.lower x (List.mem_append_left _ hx)
      have hc : c.isLower = true := hl.lower c (by simp)
      have hp : c ≠ 'p' := by
        rintro rfl
        exact hno.1 ⟨pre, init, ds, hpre, rfl, hinit, hds⟩
      have hassoc : pre ++ (init ++ [c]) ++ ds = (pre ++ init) ++ c :: ds := by simp
      rw [hassoc, partitionNumber_stem _ hc hds hfit, validStem_letters hpre hinit hc hp]
      rfl
  | @nvme c s ds hc hs hds hfit =>
    refine ⟨reads_some_iff, fun _ => ?_⟩
    have hassoc : "nvme".toList ++ c ++ 'n' :: s ++ 'p' :: ds =
        ("nvme".toList ++ (c ++ 'n' :: s)) ++ 'p' :: ds := by simp
    rw [hassoc, partitionNumber_stem _ (by decide) hds hfit, validStem_p]
    rfl
  | @mmcblk c ds hc hds hfit =>
    refine ⟨reads_some_iff, fun _ => ?_⟩
    rw [partitionNumber_stem _ (by decide) hds hfit, validStem_p]
    rfl
  | @wholeLetters pre l hpre hl =>
    have hlast : ∀ c, (pre ++ l).getLast? = some c → c.isDigit = false := by
      intro c hc
      rw [List.getLast?_append_of_ne_nil _ hl.ne_nil] at hc
      exact (isLower_not_digit (hl.lower c (List.mem_of_getLast? hc))).1
    obtain ⟨hiff, hletters⟩ := partitionNumber_undigited hlast
    rw [hiff, and_iff_right hletters]
  | @wholeNvme c s hc hs =>
    have hletters := not_lettersEndInP ("nvme".toList ++ c) 'n' (by decide)
      hs.digits (Or.inl (by decide))
    have hread : partitionNumber ("/dev/".toList ++ ("nvme".toList ++ c ++ 'n' :: s)) =
        .ok none := by
      rw [partitionNumber_split _ (by decide) hs.digits, validStem_not_p (by decide)]
      cases Str.parseUsize s <;> rfl
    exact ⟨fun _ => ⟨hletters, not_cutsCharacter_of_reads hread⟩, fun _ => hread⟩
  | @wholeMmcblk c hc =>
    have hletters := not_lettersEndInP "mmcbl".toList 'k' (by decide)
      hc.digits (Or.inl (by decide))
    have hread : partitionNumber ("/dev/".toList ++ ("mmcbl".toList ++ 'k' :: c)) = .ok none := by
      rw [partitionNumber_split _ (by decide) hc.digits, validStem_not_p (by decide)]
      cases Str.parseUsize c <;> rfl
    exact ⟨fun _ => ⟨hletters, not_cutsCharacter_of_reads hread⟩, fun _ => hread⟩
  | foreign hdev =>
    refine ⟨fun _ => ⟨?_, ?_⟩, fun _ => partitionNumber_foreign hdev⟩
    · rintro ⟨pre, l, ds, -, rfl, -⟩
      exact hdev (List.prefix_append _ _)
    · rintro ⟨stem, c, digits, rfl, -⟩
      exact hdev (List.prefix_append _ _)
  | @undigited name hlast =>
    obtain ⟨hiff, hletters⟩ := partitionNumber_undigited hlast
    rw [hiff, and_iff_right hletters]

/-- Not every documented device is read as documented. -/
theorem sdp1_not_read :
    ¬∀ dev want, Documented dev want → partitionNumber dev = .ok want := by
  intro h
  have hletters : IsLetters "p".toList := ⟨by decide, Str.forall_of_all rfl⟩
  have hone : IsDecimal "1".toList := ⟨by decide, Str.forall_of_all rfl⟩
  have hsdp := h _ _ (@Documented.letters "sd".toList _ _ (by decide) hletters hone (by decide))
  revert hsdp
  decide +kernel

/-- The second partition of the first disk. -/
theorem partitionNumber_documented_sda2 :
    partitionNumber "/dev/sda2".toList = .ok (some 2) ↔
      ¬LettersEndInP "/dev/sda2".toList ∧ ¬CutsCharacter "/dev/sda2".toList :=
  partitionNumber_documented
    (@Documented.letters "sd".toList "a".toList "2".toList (by decide)
      ⟨by decide, Str.forall_of_all rfl⟩ ⟨by decide, Str.forall_of_all rfl⟩ (by decide))

end Reading

end BootExtractor.Vdafix
