import Mathlib.Data.List.Forall2
import BootExtractor.Lib.Alternation
import BootExtractor.Vdafix.Styles

/-!
# The rewrite token by token

A command line is blanks and tokens. The scan keeps the blanks, replaces a token that
names a known partition of the table and keeps every other token; a second scan
finds nothing left to replace.
-/

namespace BootExtractor.Vdafix

open BootExtractor.Part

/-- The token names a partition of the table, and what it is replaced by. -/
def Rewrites (table : PartitionTable) (t t' : Str) : Prop :=
  ∃ key value n p u, t = key ++ '=' :: value ∧ key ∈ params ∧ partitionNumber value = .ok (some n) ∧
    table.partitions.find? (·.index == n) = some p ∧ p.partUuid = some u ∧
    t' = key ++ "=PARTUUID=".toList ++ u

private theorem not_eq_mem_params {key : Str} (h : key ∈ params) :
    ∀ c ∈ key, (c == '=') = false := by
  simp only [params, List.mem_cons, List.not_mem_nil, or_false] at h
  rcases h with rfl | rfl
  · exact Str.forall_of_all rfl
  · exact Str.forall_of_all rfl

private theorem splitOnce_param {key : Str} (h : key ∈ params) (value : Str) :
    Str.splitOnce (· == '=') (key ++ '=' :: value) = some (key, value) :=
  Str.splitOnce_append (not_eq_mem_params h) (by decide)

/-- A token that is no parameter of the two is kept. -/
theorem fixToken_of_not_param {t : Str} (table : PartitionTable)
    (h : ∀ key value, t = key ++ '=' :: value → key ∉ params) : fixToken t table = .ok none := by
  unfold fixToken fixTokenBy
  split
  · rfl
  · rename_i key value hsplit
    obtain ⟨c, ht, hc, -⟩ := Str.splitOnce_eq_some hsplit
    obtain rfl : c = '=' := by simpa using hc
    exact if_pos (h key value ht)

/-- The PARTUUID of the partition with a number. -/
def uuidOf (table : PartitionTable) (n : Nat) : Option Str :=
  (table.partitions.find? (·.index == n)).bind (·.partUuid)

private theorem uuidOf_eq_some_iff {table : PartitionTable} {n : Nat} {u : Str} :
    uuidOf table n = some u ↔
      ∃ p, table.partitions.find? (·.index == n) = some p ∧ p.partUuid = some u :=
  Option.bind_eq_some_iff

/-- The token of one of the two parameters, by the number in its value. -/
theorem fixToken_param {key : Str} (h : key ∈ params) (value : Str) (table : PartitionTable) :
    fixToken (key ++ '=' :: value) table =
      (partitionNumber value).map fun number =>
        (number.bind (uuidOf table)).map fun u => key ++ "=PARTUUID=".toList ++ u := by
  unfold fixToken fixTokenBy
  rw [splitOnce_param h]
  simp only [if_neg (not_not_intro h)]
  cases partitionNumber value with
  | error f => rfl
  | ok number =>
    cases number with
    | none => rfl
    | some n =>
      cases hfind : table.partitions.find? (·.index == n) with
      | none => simp [Except.map, uuidOf, hfind]
      | some p => cases hu : p.partUuid <;> simp [Except.map, uuidOf, hfind, hu]

/-- Every token is one of the two kinds. -/
theorem param_or_not (t : Str) :
    (∃ key value, t = key ++ '=' :: value ∧ key ∈ params) ∨
      ∀ key value, t = key ++ '=' :: value → key ∉ params := by
  by_cases h : ∃ key value, t = key ++ '=' :: value ∧ key ∈ params
  · exact Or.inl h
  · exact Or.inr fun key value ht hk => h ⟨key, value, ht, hk⟩

/-- A token is replaced exactly as it names a partition. -/
theorem fixToken_eq_some_iff {t t' : Str} {table : PartitionTable} :
    fixToken t table = .ok (some t') ↔ Rewrites table t t' := by
  constructor
  · intro h
    rcases param_or_not t with ⟨key, value, rfl, hk⟩ | hno
    · rw [fixToken_param hk] at h
      cases hnumber : partitionNumber value with
      | error f =>
        rw [hnumber] at h
        cases h
      | ok number =>
        rw [hnumber] at h
        obtain ⟨u, hu, ht'⟩ := Option.map_eq_some_iff.mp (Except.ok.inj h)
        obtain ⟨n, rfl, hn⟩ := Option.bind_eq_some_iff.mp hu
        obtain ⟨p, hp, hpu⟩ := uuidOf_eq_some_iff.mp hn
        exact ⟨key, value, n, p, u, rfl, hk, hnumber, hp, hpu, ht'.symm⟩
    · rw [fixToken_of_not_param table hno] at h
      cases h
  · rintro ⟨key, value, n, p, u, rfl, hk, hn, hp, hu, rfl⟩
    rw [fixToken_param hk, hn]
    have huuid : uuidOf table n = some u := uuidOf_eq_some_iff.mpr ⟨p, hp, hu⟩
    simp only [Except.map, Option.bind_some, huuid, Option.map_some]

/-- What a token was replaced by is not replaced again. -/
theorem fixToken_of_rewrites {table : PartitionTable} {t t' : Str} (h : Rewrites table t t') :
    fixToken t' table = .ok none := by
  obtain ⟨key, value, n, p, u, rfl, hk, -, -, -, rfl⟩ := h
  have hsplit : key ++ "=PARTUUID=".toList ++ u = key ++ '=' :: ("PARTUUID=".toList ++ u) := by
    rw [List.append_assoc]
    rfl
  rw [hsplit, fixToken_param hk]
  have hnone : partitionNumber ("PARTUUID=".toList ++ u) = .ok none := by
    have hpre : Str.stripPrefix "/dev/".toList ("PARTUUID=".toList ++ u) = none := by
      refine if_neg fun h => ?_
      obtain ⟨w, hw⟩ := h
      cases hw
    rw [partitionNumber, hpre]
  rw [hnone]
  rfl

section Loop

variable {table : PartitionTable}

/-- A pass of the loop takes a token and the blanks behind it. -/
theorem fixLoop_part {fuel : Nat} {out token gap : Str} {changed : Bool} {parts : Parts Char}
    (h : Parts.Valid Str.isWhitespace ((token, gap) :: parts)) :
    fixLoop table (fuel + 1) out changed (Parts.text ((token, gap) :: parts)) =
      match fixToken token table with
      | .error f => .error f
      | .ok fixed =>
        fixLoop table fuel (out ++ fixed.getD token ++ gap) (changed || fixed.isSome)
          (Parts.text parts) := by
  obtain ⟨hne, -, hgap, -, hrest⟩ := id h
  obtain ⟨htoken, htail⟩ := Parts.takeWhile_token h
  obtain ⟨hgaptake, hgapdrop⟩ := hrest.takeWhile_gap hgap
  have hnil : Parts.text ((token, gap) :: parts) ≠ [] := by
    rw [Parts.text_cons]
    exact fun h => hne (List.append_eq_nil_iff.mp h).1
  rw [fixLoop, if_neg hnil]
  cases hfix : fixToken token table <;> simp only [htoken, htail, hgaptake, hgapdrop, hfix]

/-- The first pass takes the blanks in front, if there are any. -/
theorem fixLoop_lead {fuel : Nat} {out lead : Str} {changed : Bool} {parts : Parts Char}
    (hne : lead ≠ []) (hlead : ∀ c ∈ lead, Str.isWhitespace c = true)
    (h : Parts.Valid Str.isWhitespace parts) :
    fixLoop table (fuel + 1) out changed (lead ++ Parts.text parts) =
      fixLoop table fuel (out ++ lead) changed (Parts.text parts) := by
  obtain ⟨htake, hdrop⟩ := h.takeWhile_gap hlead
  obtain ⟨c, more, rfl⟩ := List.exists_cons_of_ne_nil hne
  have hc : ¬(!Str.isWhitespace c) = true := by
    rw [hlead c List.mem_cons_self]
    exact Bool.false_ne_true
  have htoken : ((c :: more) ++ Parts.text parts).takeWhile (fun c => !Str.isWhitespace c) = [] :=
    List.takeWhile_cons_of_neg hc
  have htail : ((c :: more) ++ Parts.text parts).dropWhile (fun c => !Str.isWhitespace c) =
      (c :: more) ++ Parts.text parts := List.dropWhile_cons_of_neg hc
  have hempty : fixToken [] table = .ok none := rfl
  have hnil : (c :: more) ++ Parts.text parts ≠ [] := List.cons_ne_nil _ _
  rw [fixLoop, if_neg hnil]
  simp only [htoken, htail, htake, hdrop, hempty, Option.getD_none, Option.isSome_none,
    List.append_nil, Bool.or_false]

/-- A token that faults ends the scan. -/
theorem fixLoop_error {fuel : Nat} {out : Str} {changed : Bool} {parts : Parts Char}
    (h : Parts.Valid Str.isWhitespace parts) (hfuel : (Parts.text parts).length ≤ fuel)
    (herr : ∃ p ∈ parts, ∃ f, fixToken p.1 table = .error f) :
    ∃ f, fixLoop table fuel out changed (Parts.text parts) = .error f := by
  induction parts generalizing fuel out changed with
  | nil =>
    obtain ⟨p, hp, -⟩ := herr
    cases hp
  | cons p parts ih =>
    obtain ⟨token, gap⟩ := p
    have hlen := List.length_pos_iff.mpr h.1
    rw [Parts.text_cons, List.length_append, List.length_append] at hfuel
    obtain ⟨fuel, rfl⟩ : ∃ k, fuel = k + 1 := ⟨fuel - 1, by omega⟩
    rw [fixLoop_part h]
    cases hfix : fixToken token table with
    | error f => exact ⟨f, rfl⟩
    | ok fixed =>
      refine ih h.2.2.2.2 (by omega) ?_
      obtain ⟨p, hp, f, hf⟩ := herr
      rcases List.mem_cons.mp hp with rfl | hp
      · rw [hfix] at hf
        cases hf
      · exact ⟨p, hp, f, hf⟩

/-- The scan of tokens that do not fault. -/
theorem fixLoop_ok {fuel : Nat} {out : Str} {changed : Bool} {parts : Parts Char}
    {f : Str → Option Str} (h : Parts.Valid Str.isWhitespace parts)
    (hfuel : (Parts.text parts).length ≤ fuel)
    (hf : ∀ p ∈ parts, fixToken p.1 table = .ok (f p.1)) :
    fixLoop table fuel out changed (Parts.text parts) =
      .ok (if changed || parts.any (fun p => (f p.1).isSome) then
        some (out ++ Parts.text (parts.map fun p => ((f p.1).getD p.1, p.2))) else none) := by
  induction parts generalizing fuel out changed with
  | nil => cases fuel <;> simp [fixLoop]
  | cons p parts ih =>
    obtain ⟨token, gap⟩ := p
    have hlen := List.length_pos_iff.mpr h.1
    rw [Parts.text_cons, List.length_append, List.length_append] at hfuel
    obtain ⟨fuel, rfl⟩ : ∃ k, fuel = k + 1 := ⟨fuel - 1, by omega⟩
    rw [fixLoop_part h, hf _ List.mem_cons_self]
    have hrest := @ih fuel (out ++ (f token).getD token ++ gap) (changed || (f token).isSome)
      h.2.2.2.2 (by omega) fun q hq => hf q (List.mem_cons_of_mem _ hq)
    refine hrest.trans ?_
    simp only [List.any_cons, Bool.or_assoc, List.map_cons, Parts.text_cons, List.append_assoc]

end Loop

section Cmdline

variable {table : PartitionTable}

/-- After the blanks in front the scan is at the first token. -/
theorem fixCmdline_text (table : PartitionTable) (alt : Alternation Char Str.isWhitespace) :
    ∃ fuel, (Parts.text alt.parts).length ≤ fuel ∧
      fixCmdline alt.text table = fixLoop table fuel alt.lead false (Parts.text alt.parts) := by
  by_cases hlead : alt.lead = []
  · refine ⟨(Parts.text alt.parts).length, Nat.le_refl _, ?_⟩
    rw [fixCmdline, Alternation.text, hlead, List.nil_append]
  · have hlen : alt.text.length = (alt.text.length - 1) + 1 := by
      have := List.length_pos_iff.mpr hlead
      rw [Alternation.text, List.length_append]
      omega
    refine ⟨alt.text.length - 1, ?_, ?_⟩
    · have := List.length_pos_iff.mpr hlead
      rw [Alternation.text, List.length_append]
      omega
    · rw [fixCmdline, hlen]
      exact fixLoop_lead hlead alt.lead_sep alt.valid

/-- A line with a token that fails, fails. -/
theorem fixCmdline_error {alt : Alternation Char Str.isWhitespace}
    (h : ∃ t ∈ alt.tokens, ∃ f, fixToken t table = .error f) :
    ∃ f, fixCmdline alt.text table = .error f := by
  obtain ⟨fuel, hfuel, heq⟩ := fixCmdline_text table alt
  obtain ⟨t, ht, f, hf⟩ := h
  obtain ⟨p, hp, rfl⟩ := List.mem_map.mp ht
  rw [heq]
  exact fixLoop_error alt.valid hfuel ⟨p, hp, f, hf⟩

/-- A line whose tokens do not fail is rewritten token by token. -/
theorem fixCmdline_ok {alt : Alternation Char Str.isWhitespace} {f : Str → Option Str}
    (hf : ∀ t ∈ alt.tokens, fixToken t table = .ok (f t)) :
    fixCmdline alt.text table =
      .ok (if alt.parts.any (fun p => (f p.1).isSome) then
        some (alt.lead ++ Parts.text (alt.parts.map fun p => ((f p.1).getD p.1, p.2)))
        else none) := by
  obtain ⟨fuel, hfuel, heq⟩ := fixCmdline_text table alt
  rw [heq, fixLoop_ok alt.valid hfuel fun p hp => hf p.1 (List.mem_map_of_mem hp), Bool.false_or]

/-- Tokens that are all kept are no change. -/
theorem fixCmdline_kept {alt : Alternation Char Str.isWhitespace}
    (h : ∀ t ∈ alt.tokens, fixToken t table = .ok none) : fixCmdline alt.text table = .ok none := by
  rw [fixCmdline_ok h]
  simp

end Cmdline

section Ascii

variable {table : PartitionTable}

/-- An ASCII value can be cut anywhere. -/
theorem partitionNumber_ascii {dev : Str} (h : ∀ c ∈ dev, c.toNat < 128) :
    ∃ number, partitionNumber dev = .ok number := by
  cases hread : partitionNumber dev with
  | ok number => exact ⟨number, rfl⟩
  | error f =>
    obtain ⟨stem, c, digits, rfl, hc, -⟩ := (partitionNumber_error_iff dev).mp ⟨f, hread⟩
    have := h c (by simp)
    omega

private theorem fixToken_ascii {t : Str} (h : ∀ c ∈ t, c.toNat < 128) :
    ∃ fixed, fixToken t table = .ok fixed := by
  rcases param_or_not t with ⟨key, value, rfl, hk⟩ | hno
  · obtain ⟨number, hnumber⟩ := @partitionNumber_ascii value fun c hc =>
      h c (List.mem_append_right _ (List.mem_cons_of_mem _ hc))
    rw [fixToken_param hk, hnumber]
    exact ⟨_, rfl⟩
  · exact ⟨none, fixToken_of_not_param table hno⟩

/-- What a token is replaced by is a token. -/
theorem Rewrites.token {t t' : Str} (h : Rewrites table t t')
    (hu : ∀ p ∈ table.partitions, ∀ u, p.partUuid = some u → ∀ c ∈ u, Str.isWhitespace c = false) :
    t' ≠ [] ∧ ∀ c ∈ t', Str.isWhitespace c = false := by
  obtain ⟨key, value, n, p, u, -, hk, -, hp, hpu, rfl⟩ := h
  have hkey : key ≠ [] ∧ ∀ c ∈ key, Str.isWhitespace c = false := by
    simp only [params, List.mem_cons, List.not_mem_nil, or_false] at hk
    rcases hk with rfl | rfl
    · exact ⟨by decide, Str.forall_of_all rfl⟩
    · exact ⟨by decide, Str.forall_of_all rfl⟩
  constructor
  · intro h
    exact hkey.1 (List.append_eq_nil_iff.mp (List.append_eq_nil_iff.mp h).1).1
  · intro c hc
    rcases List.mem_append.mp hc with hc | hc
    · rcases List.mem_append.mp hc with hc | hc
      · exact hkey.2 c hc
      · have hmiddle : ∀ x ∈ "=PARTUUID=".toList, Str.isWhitespace x = false :=
          Str.forall_of_all rfl
        exact hmiddle c hc
    · exact hu p (List.mem_of_find?_eq_some hp) u hpu c hc

/-- The scan of an ASCII command line keeps the blanks and the tokens that name no
partition of the table, and a second scan finds nothing to replace. -/
theorem fixCmdline_rewrites {cmdline : Str} (hascii : ∀ c ∈ cmdline, c.toNat < 128)
    {table : PartitionTable}
    (hu : ∀ p ∈ table.partitions, ∀ u, p.partUuid = some u → ∀ c ∈ u, Str.isWhitespace c = false) :
    (∃ alt : Alternation Char Str.isWhitespace, alt.text = cmdline) ∧
      ∀ alt : Alternation Char Str.isWhitespace, alt.text = cmdline →
        ((∀ t ∈ alt.tokens, ∀ t', ¬Rewrites table t t') → fixCmdline cmdline table = .ok none) ∧
        ((∃ t ∈ alt.tokens, ∃ t', Rewrites table t t') →
          ∃ new : Alternation Char Str.isWhitespace,
            fixCmdline cmdline table = .ok (some new.text) ∧ new.gaps = alt.gaps ∧
            List.Forall₂ (fun t t' => Rewrites table t t' ∨ t' = t ∧ ∀ x, ¬Rewrites table t x)
              alt.tokens new.tokens ∧
            fixCmdline new.text table = .ok none) := by
  refine ⟨Alternation.exists_text _ _, ?_⟩
  rintro alt rfl
  -- no token of the line faults, so every token has its replacement or none
  have htotal : ∀ t ∈ alt.tokens, ∃ fixed, fixToken t table = .ok fixed := by
    intro t ht
    refine fixToken_ascii fun c hc => hascii c ?_
    obtain ⟨p, hp, rfl⟩ := List.mem_map.mp ht
    exact List.mem_append_right _
      (List.mem_flatMap.mpr ⟨p, hp, List.mem_append_left _ hc⟩)
  let f : Str → Option Str := fun t => (fixToken t table).toOption.join
  have hf : ∀ t ∈ alt.tokens, fixToken t table = .ok (f t) := by
    intro t ht
    obtain ⟨fixed, hfixed⟩ := htotal t ht
    simp only [f, hfixed, Except.toOption, Option.join_some]
  have hsome : ∀ t ∈ alt.tokens, ∀ t', f t = some t' ↔ Rewrites table t t' := by
    intro t ht t'
    rw [← fixToken_eq_some_iff, hf t ht, Except.ok.injEq]
  constructor
  · intro hnone
    refine fixCmdline_kept fun t ht => ?_
    rw [hf t ht,
      Option.eq_none_iff_forall_ne_some.mpr fun t' h => hnone t ht t' ((hsome t ht t').mp h)]
  · rintro ⟨t, ht, t', hrw⟩
    have htoken : ∀ p ∈ alt.parts, (f p.1).getD p.1 ≠ [] ∧
        ∀ c ∈ (f p.1).getD p.1, Str.isWhitespace c = false := by
      intro p hp
      cases hfp : f p.1 with
      | none => exact alt.valid.token hp
      | some x => exact Rewrites.token ((hsome _ (List.mem_map_of_mem hp) x).mp hfp) hu
    let new : Alternation Char Str.isWhitespace :=
      ⟨alt.lead, alt.parts.map fun p => ((f p.1).getD p.1, p.2), alt.lead_sep,
        alt.valid.map (f := fun t => (f t).getD t) htoken⟩
    have htokens : new.tokens = alt.tokens.map fun t => (f t).getD t := by
      simp only [Alternation.tokens, new, List.map_map, Function.comp_def]
    refine ⟨new, ?_, ?_, ?_, ?_⟩
    · have hany : alt.parts.any (fun p => (f p.1).isSome) = true := by
        obtain ⟨p, hp, rfl⟩ := List.mem_map.mp ht
        exact List.any_eq_true.mpr ⟨p, hp, by rw [(hsome _ ht t').mpr hrw]; rfl⟩
      rw [fixCmdline_ok hf, if_pos hany]
      rfl
    · simp only [Alternation.gaps, new, List.map_map, Function.comp_def]
    · rw [htokens, List.forall₂_map_right_iff, List.forall₂_same]
      intro t ht
      cases hft : f t with
      | none =>
        refine Or.inr ⟨rfl, fun x hx => ?_⟩
        rw [(hsome t ht x).mpr hx] at hft
        cases hft
      | some x => exact Or.inl ((hsome t ht x).mp hft)
    · refine fixCmdline_kept fun t' ht' => ?_
      rw [htokens] at ht'
      obtain ⟨t, ht, rfl⟩ := List.mem_map.mp ht'
      cases hft : f t with
      | none => exact (hf t ht).trans (congrArg Except.ok hft)
      | some x => exact fixToken_of_rewrites ((hsome t ht x).mp hft)

private theorem empty_lt : 0 < 2 ^ 64 := by decide

/-- A disk with one partition that has a PARTUUID. -/
def rootTable : PartitionTable :=
  ⟨.gpt, [⟨2, 0, 0, [], [], none, true, some "bbbb-02".toList, empty_lt⟩]⟩

/-- The root device of a command line by its PARTUUID. -/
def rootLine : Alternation Char Str.isWhitespace where
  lead := []
  parts := [("root=/dev/sda2".toList, "  ".toList), ("ro".toList, [])]
  lead_sep := fun c hc => absurd hc List.not_mem_nil
  valid := by
    refine ⟨by decide, Str.forall_of_all rfl, Str.forall_of_all rfl, Or.inr (by decide), by decide,
      Str.forall_of_all rfl, ?_, Or.inl rfl, trivial⟩
    exact fun c hc => absurd hc List.not_mem_nil

/-- A root that is named by its device. -/
theorem fixCmdline_rewrites_root :
    ∃ new : Alternation Char Str.isWhitespace,
      fixCmdline "root=/dev/sda2  ro".toList rootTable = .ok (some new.text) ∧
        new.gaps = rootLine.gaps ∧ fixCmdline new.text rootTable = .ok none := by
  have hspec :=
    (@fixCmdline_rewrites "root=/dev/sda2  ro".toList (Str.forall_of_all rfl) rootTable (by
      intro p hp u hpu
      obtain rfl := List.mem_singleton.mp hp
      obtain rfl := Option.some.inj hpu
      exact Str.forall_of_all rfl)).2 rootLine rfl
  have hroot : Rewrites rootTable "root=/dev/sda2".toList "root=PARTUUID=bbbb-02".toList :=
    fixToken_eq_some_iff.mp (by decide +kernel)
  obtain ⟨new, hnew, hgaps, -, hagain⟩ := hspec.2 ⟨_, List.mem_cons_self, _, hroot⟩
  exact ⟨new, hnew, hgaps, hagain⟩

end Ascii

end BootExtractor.Vdafix
