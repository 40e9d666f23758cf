import BootExtractor.Cli.Addresses
import BootExtractor.Cli.ResolveWalk
import BootExtractor.Lib.Alternation

/-!
# Sessions by address

Every file argument in a session of the shell has an address, `pN:` and an absolute path,
that means the same in every directory of every partition. Writing the addresses in place
of the arguments changes nothing that a session does, and what the shell reads is what the
other commands read at the address.
-/

namespace BootExtractor.Cli

open Effect Fsys Guest Kernel BootExtractor.Part

/-- The volumes of a session: no two have one number, and numbers are machine integers. -/
structure Volumes (fss : List Volume) : Prop where
  nodup : (fss.map (·.1.index)).Nodup
  index_lt : ∀ v ∈ fss, v.1.index < 2 ^ 64

/-- A text without whitespace. -/
def Unspaced (s : Str) : Prop := ∀ c ∈ s, Str.isWhitespace c = false

/-- A text of one word. -/
def IsWord (s : Str) : Prop := s ≠ [] ∧ Unspaced s

/-- Where a file argument leads to, as an address. -/
def addressOf (fss : List Volume) (here : Volume) (cwd path : Str) : Str :=
  match parseUri path with
  | (some n, rest) =>
    if (fss.find? (·.1.index == n)).isSome then uri n (resolve "/".toList rest) else path
  | (none, _) => uri here.1.index (resolve cwd path)

/-- A line with addresses and absolute directories in place of the paths. -/
def addressedWords (fss : List Volume) (here : Volume) (s : State) (cmd : Str)
    (args : List Str) : List Str :=
  match command cmd args with
  | .ls path => ["ls".toList, addressOf fss here s.cwd path]
  | .cat path => ["cat".toList, addressOf fss here s.cwd path]
  | .cp src dest => ["cp".toList, addressOf fss here s.cwd src, dest]
  | .cd path => ["cd".toList, resolve s.cwd path]
  | .help | .exit | .parts | .use _ | .pwd | .boot | .usage _ | .unknown _ => cmd :: args

/-- The line with its paths in full, for the partition at hand. -/
def addressedLine (fss : List Volume) (s : State) (i : Input) : Input :=
  match fss[s.current]?, Str.splitWhitespace i.line with
  | some here, cmd :: args =>
    { i with line := Str.join " ".toList (addressedWords fss here s cmd args) }
  | _, _ => i

/-- A session with all of its lines rewritten where they stand. -/
def addressedSession (fss : List Volume) (s : State) : List Input → List Input
  | [] => []
  | i :: rest =>
    addressedLine fss s i ::
      match step fss s i with
      | .goOn t _ => addressedSession fss t rest
      | .stop | .leave _ | .panic => []

section Words

private theorem isWord_of_mem_splitWhitespace {line word : Str}
    (h : word ∈ Str.splitWhitespace line) :
    IsWord word := by
  obtain ⟨alt, rfl⟩ := Alternation.exists_text Str.isWhitespace line
  rw [Str.splitWhitespace_text] at h
  obtain ⟨p, hp, rfl⟩ := List.mem_map.mp h
  exact alt.valid.token hp

/-- Words with single blanks between them are read back. -/
theorem splitWhitespace_words {words : List Str} (h : ∀ w ∈ words, IsWord w) :
    Str.splitWhitespace (Str.join " ".toList words) = words := by
  induction words with
  | nil => rfl
  | cons w words ih =>
    obtain ⟨hne, hword⟩ := h w List.mem_cons_self
    cases words with
    | nil =>
      have hparts : Parts.Valid Str.isWhitespace [(w, [])] :=
        ⟨hne, hword, fun _ hc => absurd hc List.not_mem_nil, Or.inl rfl, trivial⟩
      have hone := Str.splitWhitespace_parts hparts
      rwa [Parts.text_cons, Parts.text_nil, List.append_nil] at hone
    | cons w' words =>
      have hmore := ih fun v hv => h v (List.mem_cons_of_mem _ hv)
      have hblank : Str.isWhitespace ' ' = true := rfl
      have hjoin := Str.join_cons_cons " ".toList w w' words
      rw [List.append_assoc] at hjoin
      rw [hjoin]
      exact (Str.splitWhitespace_word hne hword hblank _).trans (congrArg _ hmore)

/-- A step keeps the place free of blanks. -/
private theorem pushSegment_unspaced {parts : List Str} {seg : Str}
    (hparts : ∀ p ∈ parts, Unspaced p)
    (hseg : Unspaced seg) : ∀ p ∈ pushSegment parts seg, Unspaced p := by
  unfold pushSegment
  split
  · exact hparts
  · split
    · exact fun p hp => hparts p (List.mem_of_mem_dropLast hp)
    · intro p hp
      rcases List.mem_append.mp hp with hp | hp
      · exact hparts p hp
      · rw [List.mem_singleton.mp hp]
        exact hseg

private theorem foldl_pushSegment_unspaced {segs parts : List Str}
    (hparts : ∀ p ∈ parts, Unspaced p)
    (hsegs : ∀ seg ∈ segs, Unspaced seg) : ∀ p ∈ segs.foldl pushSegment parts, Unspaced p := by
  induction segs generalizing parts with
  | nil => exact hparts
  | cons seg rest ih =>
    apply ih
    · exact pushSegment_unspaced hparts (hsegs seg List.mem_cons_self)
    · exact fun p hp => hsegs p (List.mem_cons_of_mem _ hp)

/-- Paths without whitespace resolve to one. -/
theorem resolve_word {cwd path : Str} (hcwd : Unspaced cwd) (hpath : Unspaced path) :
    IsWord (resolve cwd path) := by
  refine ⟨List.cons_ne_nil _ _, ?_⟩
  have hbase : Unspaced (if Str.startsWith path "/".toList then [] else cwd) := by
    split
    · exact fun _ hc => absurd hc List.not_mem_nil
    · exact hcwd
  have hclean := @foldl_pushSegment_unspaced
    (Str.split '/' (if Str.startsWith path "/".toList then [] else cwd) ++ Str.split '/' path) []
    (fun _ hp => absurd hp List.not_mem_nil) (by
      intro seg hseg c hc
      rcases List.mem_append.mp hseg with hseg | hseg
      · exact hbase c (Str.mem_of_mem_split hseg hc)
      · exact hpath c (Str.mem_of_mem_split hseg hc))
  intro c hc
  rcases List.mem_cons.mp hc with rfl | hc
  · rfl
  · rcases Str.mem_or_mem_of_mem_join hc with hc | ⟨seg, hseg, hmem⟩
    · obtain rfl := List.mem_singleton.mp hc
      rfl
    · exact hclean seg hseg c hmem

end Words

section Locating

variable {fss : List Volume} {here : Volume} {cwd path : Str}

/-- A volume is found under its number. -/
theorem Volumes.find_self (h : Volumes fss) {v : Volume} (hv : v ∈ fss) :
    fss.find? (·.1.index == v.1.index) = some v := by
  cases hfind : fss.find? (·.1.index == v.1.index) with
  | none =>
    have hnot := List.find?_eq_none.mp hfind v hv
    exact absurd (beq_self_eq_true _) hnot
  | some u =>
    have hindex : u.1.index = v.1.index := by simpa using List.find?_some hfind
    have hmem := List.mem_of_find?_eq_some hfind
    exact congrArg some (List.inj_on_of_nodup_map h.nodup hmem hv hindex)

private theorem startsWith_resolve (cwd path : Str) :
    Str.startsWith (resolve cwd path) "/".toList := rfl

/-- The parts of a text of the form `pN:path`. -/
theorem parseUri_parts {n : Nat} {rest : Str} (h : parseUri path = (some n, rest)) :
    n < 2 ^ 64 ∧ ∀ c ∈ rest, c = '/' ∨ c ∈ path := by
  unfold parseUri at h
  split at h
  · rename_i m tail hparts
    obtain ⟨after, hafter, hparts⟩ := Option.bind_eq_some_iff.mp hparts
    obtain ⟨⟨num, tail'⟩, hsplit, hparts⟩ := Option.bind_eq_some_iff.mp hparts
    obtain ⟨k, hk, hpair⟩ := Option.map_eq_some_iff.mp hparts
    cases hpair
    obtain ⟨hn, hrest⟩ := Prod.mk.inj h
    obtain rfl := Option.some.inj hn
    subst hrest
    obtain ⟨x, hsplit, -⟩ := Str.splitOnce_eq_some hsplit
    have htail : ∀ c ∈ tail, c ∈ path := by
      intro c hc
      rw [Str.stripPrefix_eq_some.mp hafter, hsplit]
      exact List.mem_append_right _ (List.mem_append_right _ (List.mem_cons_of_mem _ hc))
    refine ⟨Str.parseUsize_lt hk, ?_⟩
    intro c hc
    split at hc
    · exact Or.inr (htail c hc)
    · exact (List.mem_cons.mp hc).imp_right (htail c)
  · cases h

/-- From anywhere, an address leads to where its argument led. -/
theorem locate_addressOf (h : Volumes fss) (hhere : here ∈ fss) (here' : Volume) (cwd' : Str) :
    locate fss here' cwd' (addressOf fss here cwd path) = locate fss here cwd path := by
  cases hparse : parseUri path with
  | mk part rest =>
    cases part with
    | none =>
      have haddress : addressOf fss here cwd path = uri here.1.index (resolve cwd path) := by
        rw [addressOf, hparse]
      have huri := parseUri_uri (h.index_lt here hhere) (startsWith_resolve cwd path)
      rw [haddress, locate, locate, huri, hparse]
      simp only [h.find_self hhere, resolve_resolve]
    | some n =>
      cases hfind : fss.find? (·.1.index == n) with
      | none =>
        have haddress : addressOf fss here cwd path = path := by
          rw [addressOf, hparse]
          simp only [hfind, Option.isSome_none, Bool.false_eq_true, if_false]
        rw [haddress, locate, locate, hparse]
      | some v =>
        have haddress : addressOf fss here cwd path = uri n (resolve "/".toList rest) := by
          rw [addressOf, hparse]
          simp only [hfind, Option.isSome_some, if_true]
        have huri := parseUri_uri (parseUri_parts hparse).1 (startsWith_resolve "/".toList rest)
        rw [haddress, locate, locate, huri, hparse]
        simp only [hfind, resolve_resolve]

/-- The address of a file that can be located names its filesystem and its place there. -/
theorem addressOf_located (hhere : here ∈ fss) {fs : FileSystem} {full : Str}
    (h : locate fss here cwd path = .ok (fs, full)) :
    ∃ v ∈ fss, v.2 = fs ∧ Boot.Absolute full ∧
      addressOf fss here cwd path = uri v.1.index full := by
  cases hparse : parseUri path with
  | mk part rest =>
    rw [locate, hparse] at h
    rw [addressOf, hparse]
    cases part with
    | none =>
      cases h
      exact ⟨here, hhere, rfl, startsWith_resolve _ _, rfl⟩
    | some n =>
      cases hfind : fss.find? (·.1.index == n) with
      | none =>
        simp only [hfind] at h
        cases h
      | some v =>
        simp only [hfind] at h
        cases h
        have hindex : v.1.index = n := by simpa using List.find?_some hfind
        refine ⟨v, List.mem_of_find?_eq_some hfind, rfl, startsWith_resolve _ _, ?_⟩
        simp only [hfind, Option.isSome_some, if_true, hindex]

private theorem isWord_uri (n : Nat) (hpath : Unspaced path) : IsWord (uri n path) := by
  refine ⟨List.cons_ne_nil _ _, ?_⟩
  intro c hc
  rcases List.mem_cons.mp hc with rfl | hc
  · rfl
  · rcases List.mem_append.mp hc with hc | hc
    · exact Str.not_isWhitespace_of_isDigit (Str.isDigit_of_mem_dec hc)
    · rcases List.mem_cons.mp hc with rfl | hc
      · rfl
      · exact hpath c hc

/-- The address of a word is a word. -/
private theorem isWord_addressOf (hcwd : Unspaced cwd) (hpath : IsWord path) :
    IsWord (addressOf fss here cwd path) := by
  unfold addressOf
  split
  · rename_i n rest hparse
    split
    · have hrest : Unspaced rest := by
        intro c hc
        rcases (parseUri_parts hparse).2 c hc with rfl | hc
        · rfl
        · exact hpath.2 c hc
      exact isWord_uri n (resolve_word (Str.forall_of_all rfl) hrest).2
    · exact hpath
  · exact isWord_uri _ (resolve_word hcwd hpath.2).2

end Locating

section Passes

variable {fss : List Volume} {here : Volume} {s : State}

/-- The paths of a command, of the image and of the machine. -/
def Command.paths : Command → List Str
  | .ls path | .cat path | .cd path => [path]
  | .cp src dest => [src, dest]
  | .help | .exit | .parts | .use _ | .pwd | .boot | .usage _ | .unknown _ => []

/-- They are words of the line, or stand for words that are not there. -/
theorem isWord_of_mem_paths {cmd : Str} {args : List Str} (h : ∀ w ∈ args, IsWord w) :
    ∀ w ∈ (command cmd args).paths, IsWord w := by
  have hfirst : ∀ {word : Str}, IsWord word → ∀ w ∈ [args.head?.getD word], IsWord w := by
    intro word hword w hw
    obtain rfl := List.mem_singleton.mp hw
    cases args with
    | nil => exact hword
    | cons a rest => exact h a List.mem_cons_self
  have hnone : ∀ w ∈ ([] : List Str), IsWord w := fun _ hw => absurd hw List.not_mem_nil
  have hite : ∀ {p : Prop} [Decidable p] {c c' : Command}, (∀ w ∈ c.paths, IsWord w) →
      (∀ w ∈ c'.paths, IsWord w) → ∀ w ∈ (if p then c else c').paths, IsWord w := by
    intro p _ c c' hc hc'
    split
    · exact hc
    · exact hc'
  have hroot : IsWord "/".toList := ⟨List.cons_ne_nil _ _, Str.forall_of_all rfl⟩
  have hhere : IsWord ".".toList := ⟨List.cons_ne_nil _ _, Str.forall_of_all rfl⟩
  refine hite hnone (hite hnone (hite hnone (hite ?_ (hite hnone (hite (hfirst hroot)
    (hite (hfirst hhere) (hite ?_ (hite ?_ (hite hnone hnone)))))))))
  · split
    · exact hnone
    · exact hnone
  · split
    · exact h
    · exact hnone
  · split
    · exact h
    · exact hnone

/-- The words of an addressed line are words. -/
private theorem isWord_addressedWords (hcwd : Unspaced s.cwd) {cmd : Str} {args : List Str}
    (h : ∀ w ∈ cmd :: args, IsWord w) :
    ∀ w ∈ addressedWords fss here s cmd args, IsWord w := by
  have hpaths := @isWord_of_mem_paths cmd args fun w hw => h w (List.mem_cons_of_mem _ hw)
  unfold addressedWords
  cases hc : command cmd args <;> rw [hc] at hpaths
  case ls path =>
    intro w hw
    rcases List.mem_pair.mp hw with rfl | rfl
    · exact ⟨List.cons_ne_nil _ _, Str.forall_of_all rfl⟩
    · exact isWord_addressOf hcwd (hpaths path List.mem_cons_self)
  case cat path =>
    intro w hw
    rcases List.mem_pair.mp hw with rfl | rfl
    · exact ⟨List.cons_ne_nil _ _, Str.forall_of_all rfl⟩
    · exact isWord_addressOf hcwd (hpaths path List.mem_cons_self)
  case cd path =>
    intro w hw
    rcases List.mem_pair.mp hw with rfl | rfl
    · exact ⟨List.cons_ne_nil _ _, Str.forall_of_all rfl⟩
    · exact resolve_word hcwd (hpaths path List.mem_cons_self).2
  case cp src dest =>
    intro w hw
    rcases List.mem_cons.mp hw with rfl | hw
    · exact ⟨List.cons_ne_nil _ _, Str.forall_of_all rfl⟩
    rcases List.mem_pair.mp hw with rfl | rfl
    · exact isWord_addressOf hcwd (hpaths src List.mem_cons_self)
    · exact hpaths _ (List.mem_cons_of_mem _ List.mem_cons_self)
  all_goals exact h

/-- The command on addresses does what the command does. -/
theorem execute_addressedWords (hv : Volumes fss) (hhere : here ∈ fss) (refuses : Refusals)
    (cmd : Str) (args : List Str) :
    ∃ cmd' args', addressedWords fss here s cmd args = cmd' :: args' ∧
      execute fss refuses here s (command cmd' args') =
        execute fss refuses here s (command cmd args) := by
  have hlocate := fun path => @locate_addressOf fss here s.cwd path hv hhere here s.cwd
  unfold addressedWords
  cases hc : command cmd args
  case ls path =>
    refine ⟨_, _, rfl, ?_⟩
    change execute fss refuses here s (.ls (addressOf fss here s.cwd path)) = _
    simp only [execute, onFile, hlocate]
  case cat path =>
    refine ⟨_, _, rfl, ?_⟩
    change execute fss refuses here s (.cat (addressOf fss here s.cwd path)) = _
    simp only [execute, onFile, hlocate]
  case cd path =>
    refine ⟨_, _, rfl, ?_⟩
    change execute fss refuses here s (.cd (resolve s.cwd path)) = _
    simp only [execute, cdArm, resolve_resolve]
  case cp src dest =>
    refine ⟨_, _, rfl, ?_⟩
    change execute fss refuses here s (.cp (addressOf fss here s.cwd src) dest) = _
    simp only [execute, onFile, hlocate]
  all_goals exact ⟨_, _, rfl, by rw [hc]⟩

/-- One pass: the line with addresses does what the line does. -/
theorem step_addressedLine (hv : Volumes fss) (hs : Unspaced s.cwd) (i : Input) :
    step fss s (addressedLine fss s i) = step fss s i := by
  cases hhere : fss[s.current]? with
  | none => simp only [step, hhere]
  | some here =>
    cases hwords : Str.splitWhitespace i.line with
    | nil => simp only [addressedLine, hhere, hwords]
    | cons cmd args =>
      obtain ⟨cmd', args', haddressed, hexecute⟩ :=
        @execute_addressedWords fss here s hv (List.mem_of_getElem? hhere) i.refuses cmd args
      have hword : ∀ w ∈ cmd :: args, IsWord w := by
        intro w hw
        apply isWord_of_mem_splitWhitespace
        rwa [hwords]
      have hline := splitWhitespace_words (@isWord_addressedWords fss here s hs cmd args hword)
      rw [haddressed] at hline
      simp only [addressedLine, step, hhere, hwords, haddressed, hline]
      exact hexecute

/-- What a command that goes on does to the state. -/
theorem goOn_cases {refuses : Refusals} {c : Command} {t : State} {error : Option Str}
    (h : execute fss refuses here s c = .goOn t error) :
    t = s ∨ (∃ which i, c = .use which ∧ t = { s with current := i, cwd := "/".toList }) ∨
      (∃ path, c = .cd path ∧ t = { s with cwd := resolve s.cwd path }) ∨
      ∃ src dest files, c = .cp src dest ∧ t = { s with files := files } := by
  cases c with
  | help | parts | pwd | usage text | unknown cmd =>
    cases h
    exact Or.inl rfl
  | exit => cases h
  | use which =>
    simp only [execute, useArm] at h
    split at h
    · cases h
      exact Or.inr (Or.inl ⟨which, _, rfl, rfl⟩)
    · cases h
      exact Or.inl rfl
  | cd path =>
    simp only [execute, cdArm] at h
    split at h
    · cases h
      exact Or.inr (Or.inr (Or.inl ⟨path, rfl, rfl⟩))
    · cases h
      exact Or.inl rfl
  | ls path | cat path =>
    simp only [execute, onFile] at h
    split at h
    · cases h
    · unfold answered at h
      split at h
      · cases h
        exact Or.inl rfl
      · cases h
        exact Or.inl rfl
  | cp src dest =>
    simp only [execute, onFile] at h
    split at h
    · cases h
    · unfold cpArm at h
      split at h
      · cases h
        exact Or.inl rfl
      · split at h
        · cases h
          exact Or.inr (Or.inr (Or.inr ⟨src, dest, _, rfl, rfl⟩))
        · cases h
          exact Or.inr (Or.inr (Or.inr ⟨src, dest, _, rfl, rfl⟩))
  | boot =>
    simp only [execute, bootArm] at h
    split at h
    · cases h
      exact Or.inl rfl
    · cases h
      exact Or.inl rfl
    · cases h

/-- The shell stays in directories that are named without whitespace. -/
theorem unspaced_step {i : Input} {t : State} {error : Option Str} (hs : Unspaced s.cwd)
    (h : step fss s i = .goOn t error) : Unspaced t.cwd := by
  unfold step at h
  split at h
  · cases h
  split at h
  · cases h
    exact hs
  rename_i cmd args hwords
  rcases goOn_cases h with rfl | ⟨_, _, _, rfl⟩ | ⟨path, hc, rfl⟩ | ⟨_, _, _, _, rfl⟩
  · exact hs
  · exact Str.forall_of_all rfl
  · have hpaths := @isWord_of_mem_paths cmd args fun w hw =>
      isWord_of_mem_splitWhitespace (hwords ▸ List.mem_cons_of_mem _ hw)
    rw [hc] at hpaths
    exact (resolve_word hs (hpaths path List.mem_cons_self).2).2
  · exact hs

/-- A session with addresses goes as the session does, line by line. -/
theorem run_addressedSession (hv : Volumes fss) (hs : Unspaced s.cwd) (inputs : List Input) :
    (run fss s (addressedSession fss s inputs)).map (fun p => (p.before, p.outcome)) =
      (run fss s inputs).map fun p => (p.before, p.outcome) := by
  induction inputs generalizing s with
  | nil => rfl
  | cons i rest ih =>
    have hstep := step_addressedLine hv hs i
    rw [addressedSession, run, run, List.map_cons, List.map_cons, hstep]
    congr 1
    cases ho : step fss s i with
    | goOn t error => exact ih (unspaced_step hs ho)
    | stop | leave _ | panic => rfl

end Passes

section Opening

variable {readers : Readers} {disk : Device} {fss : List Volume}

/-- Without a selection the session reaches every readable volume. -/
theorem requireFilesystems_all (h : requireFilesystems readers disk none = .ok fss) :
    fss ≠ [] ∧ Volumes fss ∧ ∀ v ∈ fss, Reaches readers disk v.1 v.2 := by
  have hopened : fss ≠ [] ∧ openFilesystems readers disk none = .ok fss := by
    unfold requireFilesystems at h
    split at h
    · cases h
    · cases h
    · rename_i hfs
      cases h
      exact ⟨List.cons_ne_nil _ _, hfs⟩
  obtain ⟨table, hscan, hparts⟩ := Effect.bind_eq_ok_iff.mp hopened.2
  obtain ⟨hsub, hopen⟩ := openParts_all hparts
  have hnumbered := numbered_scan hscan
  have hmem : ∀ v ∈ fss, v.1 ∈ table.partitions := fun v hv =>
    hsub.subset (List.mem_map_of_mem hv)
  refine ⟨hopened.1, ⟨?_, fun v hv => (hnumbered.range _ (hmem v hv)).2⟩, ?_⟩
  · have hdistinct : (fss.map (·.1)).Pairwise fun p q => p.index ≠ q.index :=
      (hnumbered.increasing.sublist hsub).imp fun hlt => Nat.ne_of_lt hlt
    simpa only [List.Nodup, List.pairwise_map] using hdistinct
  · exact fun v hv => ⟨⟨table, hscan, hmem v hv⟩, hopen v hv⟩

/-- With the address of every file argument in its place, and the directory of every `cd`, a
session of the shell does in every line what it did. -/
theorem shell_addressed (h : requireFilesystems readers disk none = .ok fss) (files : Files)
    (inputs : List Input) :
    (cmdShell readers disk files (addressedSession fss (start files) inputs)).map
        (List.map fun p => (p.before, p.outcome)) =
      (cmdShell readers disk files inputs).map (List.map fun p => (p.before, p.outcome)) := by
  obtain ⟨_, hv, _⟩ := requireFilesystems_all h
  have hroot : Unspaced (start files).cwd := Str.forall_of_all rfl
  simp only [cmdShell, h, Except.map, run_addressedSession hv hroot inputs]

end Opening

/-- A session that moves on before it reads. -/
def walkingSession : List Input := [plain "cd boot/..", plain "cp vmlinuz /tmp/k", plain "cat ./x"]

/-- The example disk opens a session. -/
theorem requireFilesystems_two :
    (requireFilesystems twoConfigsReaders twoConfigsDisk none).toOption.isSome = true := by
  decide +kernel

/-- The session on a disk with one filesystem. -/
theorem shell_addressed_two :
    ∃ fss, requireFilesystems twoConfigsReaders twoConfigsDisk none = .ok fss ∧
      (cmdShell twoConfigsReaders twoConfigsDisk (fun _ => none)
          (addressedSession fss (start fun _ => none) walkingSession)).map
          (List.map fun p => (p.before, p.outcome)) =
        (cmdShell twoConfigsReaders twoConfigsDisk (fun _ => none) walkingSession).map
          (List.map fun p => (p.before, p.outcome)) := by
  obtain ⟨fss, hfss⟩ := Option.isSome_iff_exists.mp requireFilesystems_two
  exact ⟨fss, Boot.ok_of_toOption hfss, shell_addressed (Boot.ok_of_toOption hfss) _ _⟩

/-- A `cp` command with the address of its file. -/
structure Copy where
  refuses : Refusals
  address : Str
  dest : Str

/-- The copy that a pass makes. -/
def Pass.copy (fss : List Volume) (p : Pass) : Option Copy :=
  match p.outcome, fss[p.before.current]?, Str.splitWhitespace p.input.line with
  | .goOn _ _, some here, cmd :: args =>
    match command cmd args with
    | .cp src dest => some ⟨p.input.refuses, addressOf fss here p.before.cwd src, dest⟩
    | _ => none
  | _, _, _ => none

/-- The files of the machine after a pass. -/
def Pass.filesAfter (files : Files) (p : Pass) : Files :=
  match p.outcome with
  | .goOn t _ => t.files
  | .stop | .leave _ | .panic => files

/-- The files of the machine after `cmd_cp` of each of the copies. -/
def copyAll (readers : Readers) (c : Codecs) (disk : Device) (files : Files) (copies : List Copy) :
    Files :=
  copies.foldl (fun files copy => after
    (cmdCp readers c copy.refuses disk copy.address copy.dest none false) files) files

section Copies

variable {readers : Readers} {disk : Device} {fss : List Volume} {s : State}

/-- A copy by address leaves the files as `cp` in the shell does. -/
theorem after_cmdCp {v : Volume} (hv : Reaches readers disk v.1 v.2) {path : Str}
    (hpath : Boot.Absolute path) (c : Codecs) (refuses : Refusals) (dest : Str) {t : State}
    {error : Option Str} (h : cpArm refuses s dest v.2 path = .goOn t error) :
    after (cmdCp readers c refuses disk (uri v.1.index path) dest none false) s.files =
      t.files := by
  rw [← after_quiet, quiet_cmdCp hv hpath, after_quiet]
  unfold cpArm at h
  cases hread : v.2.readFile path with
  | error e =>
    rw [hread] at h
    cases h
    simp only [readNamed, hread]
    rfl
  | ok data =>
    rw [hread] at h
    simp only at h
    simp only [readNamed, hread, kernelData, Bool.false_eq_true, if_false]
    cases hwrite : writeDest refuses dest path data s.files with
    | ok a files =>
      rw [hwrite] at h
      cases h
      simp only [after, bind, EStateM.bind, Effect.ofExcept, hostly, EStateM.adaptExcept,
        pure, EStateM.pure, hwrite]
    | error e files =>
      rw [hwrite] at h
      cases h
      simp only [after, bind, EStateM.bind, Effect.ofExcept, hostly, EStateM.adaptExcept,
        pure, EStateM.pure, hwrite]

private theorem copyAll_append (c : Codecs) (files : Files) (copies more : List Copy) :
    copyAll readers c disk files (copies ++ more) =
      copyAll readers c disk (copyAll readers c disk files copies) more := List.foldl_append

/-- What one pass does to the files: the copy it makes, if it makes one. -/
theorem filesAfter_step (hreaches : ∀ v ∈ fss, Reaches readers disk v.1 v.2) (c : Codecs)
    (s : State) (i : Input) :
    copyAll readers c disk s.files (Pass.copy fss ⟨s, i, step fss s i⟩).toList =
      Pass.filesAfter s.files ⟨s, i, step fss s i⟩ := by
  cases ho : step fss s i with
  | stop | leave _ | panic => rfl
  | goOn t error =>
    unfold step at ho
    simp only [Pass.filesAfter, Pass.copy]
    cases hhere : fss[s.current]? with
    | none =>
      rw [hhere] at ho
      cases ho
    | some here =>
      cases hwords : Str.splitWhitespace i.line with
      | nil =>
        rw [hhere, hwords] at ho
        cases ho
        rfl
      | cons cmd args =>
        rw [hhere, hwords] at ho
        simp only at ho ⊢
        cases hc : command cmd args
        case cp src dest =>
          rw [hc] at ho
          simp only [execute, onFile] at ho
          split at ho
          · cases ho
          · rename_i fs path hloc
            obtain ⟨v, hv, hfs, hpath, haddress⟩ :=
              addressOf_located (List.mem_of_getElem? hhere) hloc
            rw [← hfs] at ho
            simp only [haddress]
            exact after_cmdCp (hreaches v hv) hpath c i.refuses dest ho
        all_goals
          rw [hc] at ho
          rcases goOn_cases ho with rfl | ⟨_, _, _, rfl⟩ | ⟨_, _, rfl⟩ | ⟨_, _, _, hcp, _⟩
          · rfl
          · rfl
          · rfl
          · cases hcp

private theorem filterMap_copy (p : Pass) (passes : List Pass) :
    (p :: passes).filterMap (Pass.copy fss) =
      (p.copy fss).toList ++ passes.filterMap (Pass.copy fss) := by
  rw [List.filterMap_cons]
  cases p.copy fss <;> rfl

/-- The files after a session are those its copies leave. -/
private theorem filesAfter_run (hreaches : ∀ v ∈ fss, Reaches readers disk v.1 v.2) (c : Codecs)
    (s : State) (inputs : List Input) :
    copyAll readers c disk s.files ((run fss s inputs).filterMap (Pass.copy fss)) =
      (run fss s inputs).foldl Pass.filesAfter s.files := by
  induction inputs generalizing s with
  | nil => rfl
  | cons i rest ih =>
    have hstep := filesAfter_step hreaches c s i
    rw [run, filterMap_copy, copyAll_append, hstep, List.foldl_cons]
    cases ho : step fss s i with
    | goOn t error => exact ih t
    | stop | leave _ | panic => rfl

/-- A session of the shell leaves the files of the machine that `cp` leaves, called for each of
its copies with the address of the file, one after the other. -/
theorem shell_copies {files : Files} {inputs : List Input} {passes : List Pass}
    (h : cmdShell readers disk files inputs = .ok passes) (c : Codecs) :
    ∃ fss, requireFilesystems readers disk none = .ok fss ∧
      copyAll readers c disk files (passes.filterMap (Pass.copy fss)) =
        passes.foldl Pass.filesAfter files := by
  cases hfss : requireFilesystems readers disk none with
  | error e =>
    rw [cmdShell, hfss] at h
    cases h
  | ok fss =>
    rw [cmdShell, hfss] at h
    cases h
    obtain ⟨_, _, hreaches⟩ := requireFilesystems_all hfss
    exact ⟨fss, rfl, filesAfter_run hreaches c (start files) inputs⟩

/-- The files that the session copies. -/
theorem shell_copies_two :
    ∃ passes fss,
      cmdShell twoConfigsReaders twoConfigsDisk (fun _ => none) walkingSession = .ok passes ∧
      requireFilesystems twoConfigsReaders twoConfigsDisk none = .ok fss ∧
      copyAll twoConfigsReaders noCodecs twoConfigsDisk (fun _ => none)
          (passes.filterMap (Pass.copy fss)) =
        passes.foldl Pass.filesAfter fun _ => none := by
  obtain ⟨fss, hfss⟩ := Option.isSome_iff_exists.mp requireFilesystems_two
  have hshell : cmdShell twoConfigsReaders twoConfigsDisk (fun _ => none) walkingSession =
      .ok (run fss (start fun _ => none) walkingSession) := by
    rw [cmdShell, Boot.ok_of_toOption hfss]
    rfl
  obtain ⟨fss', hfss', hcopies⟩ := shell_copies hshell noCodecs
  exact ⟨_, fss', hshell, hfss', hcopies⟩

end Copies

end BootExtractor.Cli
