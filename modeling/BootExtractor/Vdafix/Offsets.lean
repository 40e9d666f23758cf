import BootExtractor.Lib.Offset
import BootExtractor.Vdafix.Rewrite

/-!
# The scan by byte offsets

The code finds its places in a command line as byte offsets and cuts there. The
functions here count as it does, and cut only at character boundaries; they do what the
functions on characters do, so what cuts inside of a character is one kind of device name.
-/

namespace BootExtractor.Vdafix.Offsets

open BootExtractor.Part

/-- `split_at` and the slices: a place inside of a character is a panic. -/
def cut (s : Str) (offset : Nat) : Except Fault (Str × Str) :=
  match Str.splitAt s offset with
  | some parts => .ok parts
  | none => .error .panic

/-- `partition_number`. -/
def partitionNumber (dev : Str) : Except Fault (Option Nat) :=
  match Str.stripPrefix "/dev/".toList dev with
  | none => .ok none
  | some name =>
    let digitsAt := ((Str.rfind (fun c => !c.isDigit) name).map (· + 1)).getD 0
    if digitsAt = 0 ∨ Str.byteLen name ≤ digitsAt then .ok none
    else
      match cut name digitsAt with
      | .error f => .error f
      | .ok (stem, digits) =>
        match Str.parseUsize digits with
        | none => .ok none
        | some n => .ok (if validStem stem then some n else none)

/-- `fix_token`. -/
def fixToken (token : Str) (table : PartitionTable) : Except Fault (Option Str) :=
  fixTokenBy partitionNumber token table

/-- The loop of `fix_cmdline`; `fuel` counts the passes. -/
def fixLoop (table : PartitionTable) : Nat → Str → Bool → Str → Except Fault (Option Str)
  | 0, out, changed, _ => .ok (if changed then some out else none)
  | fuel + 1, out, changed, rest =>
    if rest = [] then .ok (if changed then some out else none)
    else
      let tokenEnd := (Str.find Str.isWhitespace rest).getD (Str.byteLen rest)
      match cut rest tokenEnd with
      | .error f => .error f
      | .ok (token, tail) =>
        match fixToken token table with
        | .error f => .error f
        | .ok fixed =>
          let wsEnd := (Str.find (fun c => !Str.isWhitespace c) tail).getD (Str.byteLen tail)
          match cut tail wsEnd with
          | .error f => .error f
          | .ok (gap, rest) =>
            fixLoop table fuel (out ++ fixed.getD token ++ gap) (changed || fixed.isSome) rest

/-- `fix_cmdline`. -/
def fixCmdline (cmdline : Str) (table : PartitionTable) : Except Fault (Option Str) :=
  fixLoop table cmdline.length [] false cmdline

section Characters

private theorem cut_find (p : Char → Bool) (s : Str) :
    cut s ((Str.find p s).getD (Str.byteLen s)) =
      .ok (s.takeWhile fun c => !p c, s.dropWhile fun c => !p c) := by
  rw [cut, Str.splitAt_find]

/-- Behind the last character that is no digit, if it has one byte. -/
theorem cut_digits (stem digits : Str) {c : Char} (hsize : c.utf8Size = 1) :
    cut (stem ++ c :: digits) (Str.byteLen stem + 1) = .ok (stem ++ [c], digits) := by
  have h := Str.splitAt_byteLen (stem ++ [c]) digits
  rw [Str.byteLen_append, Str.byteLen_cons, Str.byteLen_nil, hsize, Nat.add_zero] at h
  have hassoc : stem ++ c :: digits = (stem ++ [c]) ++ digits := by simp
  rw [cut, hassoc, h]

/-- Otherwise that place is inside of the character. -/
theorem cut_inside (stem digits : Str) {c : Char} (hsize : c.utf8Size ≠ 1) :
    cut (stem ++ c :: digits) (Str.byteLen stem + 1) = .error .panic := by
  have hpos := Char.utf8Size_pos c
  rw [cut, Str.splitAt_inside stem digits (k := 1) (by omega) (by omega)]

/-- Slicing at byte offsets finds the same number. -/
private theorem partitionNumber_eq (dev : Str) :
    partitionNumber dev = Vdafix.partitionNumber dev := by
  by_cases hdev : "/dev/".toList <+: dev
  · obtain ⟨name, rfl⟩ := hdev
    rcases digits_or_split name with hall | ⟨stem, c, digits, rfl, hc, hdigits⟩
    · have hfind : Str.rfind (fun c => !c.isDigit) name = none :=
        Str.rfind_eq_none fun c hc => by rw [hall c hc]; rfl
      rw [partitionNumber_digits hall, partitionNumber, Str.stripPrefix_append]
      simp only [hfind, Option.map_none, Option.getD_none]
      exact if_pos (Or.inl trivial)
    · have hfind : Str.rfind (fun c => !c.isDigit) (stem ++ c :: digits) =
          some (Str.byteLen stem) :=
        Str.rfind_append stem (by rw [hc]; rfl) fun d hd => by rw [hdigits d hd]; rfl
      rw [partitionNumber_split stem hc hdigits, partitionNumber, Str.stripPrefix_append]
      simp only [hfind, Option.map_some, Option.getD_some]
      by_cases hsize : c.utf8Size = 1
      · rw [cut_digits stem digits hsize, if_neg (not_not_intro hsize)]
        by_cases hend : digits = []
        · -- nothing behind the last character
          have hlen : Str.byteLen (stem ++ c :: digits) ≤ Str.byteLen stem + 1 := by
            rw [hend, Str.byteLen_append, Str.byteLen_cons, Str.byteLen_nil, hsize]
          rw [if_pos (Or.inr hlen), hend]
          rfl
        · have hlen : ¬(Str.byteLen stem + 1 = 0 ∨
              Str.byteLen (stem ++ c :: digits) ≤ Str.byteLen stem + 1) := by
            obtain ⟨d, more, rfl⟩ := List.exists_cons_of_ne_nil hend
            have hd := Char.utf8Size_pos d
            simp only [Str.byteLen_append, Str.byteLen_cons]
            omega
          rw [if_neg hlen]
          cases hread : Str.parseUsize digits <;> simp only [hread] <;> rfl
      · have hpos := Char.utf8Size_pos c
        have hlen : ¬(Str.byteLen stem + 1 = 0 ∨
            Str.byteLen (stem ++ c :: digits) ≤ Str.byteLen stem + 1) := by
          simp only [Str.byteLen_append, Str.byteLen_cons]
          omega
        rw [cut_inside stem digits hsize, if_neg hlen, if_pos hsize]
  · have hnone : Str.stripPrefix "/dev/".toList dev = none := if_neg hdev
    rw [partitionNumber_foreign hdev, partitionNumber, hnone]

private theorem fixToken_eq (token : Str) (table : PartitionTable) :
    fixToken token table = Vdafix.fixToken token table := by
  rw [fixToken, Vdafix.fixToken, funext partitionNumber_eq]

/-- Slicing at byte offsets rewrites the same line. -/
private theorem fixLoop_eq (table : PartitionTable) (fuel : Nat) (out : Str) (changed : Bool)
    (rest : Str) :
    fixLoop table fuel out changed rest = Vdafix.fixLoop table fuel out changed rest := by
  induction fuel generalizing out changed rest with
  | zero => rfl
  | succ fuel ih =>
    rw [fixLoop, Vdafix.fixLoop]
    by_cases hrest : rest = []
    · rw [if_pos hrest, if_pos hrest]
    · rw [if_neg hrest, if_neg hrest]
      cases hfix : Vdafix.fixToken (rest.takeWhile fun c => !Str.isWhitespace c) table <;>
        simp only [cut_find, fixToken_eq, ih, Bool.not_not, hfix]

/-- Counting in bytes finds the same places as counting in characters. -/
theorem fixCmdline_eq (cmdline : Str) (table : PartitionTable) :
    fixCmdline cmdline table = Vdafix.fixCmdline cmdline table :=
  fixLoop_eq table _ _ _ _

end Characters

section Slices

/-- A result is a success or an error. -/
theorem ok_iff {α : Type} (r : Except Fault α) : (∃ a, r = .ok a) ↔ ¬∃ f, r = .error f := by
  cases r <;> simp

/-- The token is a parameter of the two with a value that is cut inside of a character. -/
def CutsToken (token : Str) : Prop :=
  ∃ key value, token = key ++ '=' :: value ∧ key ∈ params ∧ CutsCharacter value

/-- A token fails exactly if it cuts a character. -/
theorem fixToken_error_iff (token : Str) (table : PartitionTable) :
    (∃ f, Vdafix.fixToken token table = .error f) ↔ CutsToken token := by
  constructor
  · rintro ⟨f, hf⟩
    rcases param_or_not token with ⟨key, value, rfl, hk⟩ | hno
    · rw [fixToken_param hk] at hf
      cases hread : Vdafix.partitionNumber value with
      | ok number =>
        rw [hread] at hf
        cases hf
      | error f => exact ⟨key, value, rfl, hk, (partitionNumber_error_iff value).mp ⟨f, hread⟩⟩
    · rw [fixToken_of_not_param table hno] at hf
      cases hf
  · rintro ⟨key, value, rfl, hk, hcut⟩
    obtain ⟨f, hf⟩ := (partitionNumber_error_iff value).mpr hcut
    exact ⟨f, by rw [fixToken_param hk, hf]; rfl⟩

/-- Every cut is at a boundary exactly for the texts without a device that is cut inside
of a character. -/
theorem slices_at_boundaries_iff (table : PartitionTable) :
    (∀ dev, (∃ n, partitionNumber dev = .ok n) ↔ ¬CutsCharacter dev) ∧
      (∀ token, (∃ fixed, fixToken token table = .ok fixed) ↔ ¬CutsToken token) ∧
      ∀ cmdline, (∃ fixed, fixCmdline cmdline table = .ok fixed) ↔
        ∀ token ∈ Str.splitWhitespace cmdline, ¬CutsToken token := by
  refine ⟨fun dev => ?_, fun token => ?_, fun cmdline => ?_⟩
  · rw [ok_iff, partitionNumber_eq, partitionNumber_error_iff]
  · rw [ok_iff, fixToken_eq, fixToken_error_iff]
  · obtain ⟨alt, rfl⟩ := Alternation.exists_text Str.isWhitespace cmdline
    rw [fixCmdline_eq, Str.splitWhitespace_text]
    by_cases hcut : ∃ token ∈ alt.tokens, CutsToken token
    · obtain ⟨token, htoken, hc⟩ := hcut
      obtain ⟨f, hf⟩ := fixCmdline_error ⟨token, htoken, (fixToken_error_iff token table).mpr hc⟩
      rw [hf]
      exact ⟨fun ⟨_, h⟩ => (nomatch h), fun h => absurd hc (h token htoken)⟩
    · have hok : ∀ token ∈ alt.tokens,
          Vdafix.fixToken token table = .ok (Vdafix.fixToken token table).toOption.join := by
        intro token htoken
        have hno : ¬∃ f, Vdafix.fixToken token table = .error f := fun h =>
          hcut ⟨token, htoken, (fixToken_error_iff token table).mp h⟩
        obtain ⟨fixed, hfixed⟩ := (ok_iff _).mpr hno
        simp only [hfixed, Except.toOption, Option.join_some]
      rw [fixCmdline_ok hok]
      exact ⟨fun _ token htoken hc => hcut ⟨token, htoken, hc⟩, fun _ => ⟨_, rfl⟩⟩

/-- A replacement character at the end of a device. -/
theorem replacement_panics :
    ¬∀ cmdline table, ∃ fixed, fixCmdline cmdline table = .ok fixed := by
  intro h
  obtain ⟨fixed, hfixed⟩ := h "root=/dev/sda\uFFFD".toList rootTable
  have hpanic : fixCmdline "root=/dev/sda\uFFFD".toList rootTable = .error .panic := by
    decide +kernel
  rw [hpanic] at hfixed
  cases hfixed

end Slices

end BootExtractor.Vdafix.Offsets
