import BootExtractor.Cli.Shell

/-!
# Runs of the shell

A failing command leaves the shell where it is, and every place it reaches is a
partition and a normalised path. It reads on after every line except for one that
names, as a file to read, a partition without a filesystem.
-/

namespace BootExtractor.Cli

/-- A segment that names something. -/
def IsName (seg : Str) : Prop :=
  seg ≠ [] ∧ seg ≠ ".".toList ∧ seg ≠ "..".toList ∧ '/' ∉ seg

/-- An absolute path without empty segments, `.` and `..`. -/
def Normalised (path : Str) : Prop :=
  ∃ segs : List Str, path = '/' :: Str.join "/".toList segs ∧ ∀ seg ∈ segs, IsName seg

private theorem normalised_root : Normalised "/".toList := ⟨[], rfl, by simp⟩

/-- A step leads from names to names. -/
private theorem pushSegment_names {parts : List Str} {seg : Str} (hparts : ∀ p ∈ parts, IsName p)
    (hseg : '/' ∉ seg) : ∀ p ∈ pushSegment parts seg, IsName p := by
  unfold pushSegment
  split
  · exact hparts
  · rename_i hdot
    split
    · intro p hp
      exact hparts p (List.mem_of_mem_dropLast hp)
    · rename_i hdotdot
      intro p hp
      rcases List.mem_append.mp hp with hp | hp
      · exact hparts p hp
      · obtain rfl := List.mem_singleton.mp hp
        exact ⟨fun h => hdot (Or.inl h), fun h => hdot (Or.inr h), hdotdot, hseg⟩

/-- Segments lead from names to names. -/
theorem foldl_pushSegment_names {segs parts : List Str} (hparts : ∀ p ∈ parts, IsName p)
    (hsegs : ∀ seg ∈ segs, '/' ∉ seg) : ∀ p ∈ segs.foldl pushSegment parts, IsName p := by
  induction segs generalizing parts with
  | nil => exact hparts
  | cons seg rest ih =>
    apply ih
    · exact pushSegment_names hparts (hsegs seg List.mem_cons_self)
    · intro seg' h
      exact hsegs seg' (List.mem_cons_of_mem _ h)

/-- Every path that a command resolves is normalised. -/
theorem normalised_resolve (cwd input : Str) : Normalised (resolve cwd input) := by
  refine ⟨_, rfl, ?_⟩
  apply foldl_pushSegment_names
  · intro p hp
    cases hp
  · intro seg hseg
    rcases List.mem_append.mp hseg with h | h
    · exact Str.not_mem_of_mem_split h
    · exact Str.not_mem_of_mem_split h

example :
    resolve "/boot/grub".toList "../efi/./x".toList = "/boot/efi/x".toList := by decide +kernel

/-- A place the shell may be in. -/
structure State.Valid (fss : List Volume) (s : State) : Prop where
  current_lt : s.current < fss.length
  cwd_normalised : Normalised s.cwd

/-- The loop reads on, in a valid place, and after an error in the place it was in. -/
def Outcome.Steady (fss : List Volume) (s : State) (o : Outcome) : Prop :=
  ∃ t error, o = .goOn t error ∧ t.Valid fss ∧
    (error ≠ none → t.current = s.current ∧ t.cwd = s.cwd)

/-- The file that a command reads, as it is named. -/
def Command.file : Command → Option Str
  | .ls path | .cat path | .cp path _ => some path
  | .help | .exit | .parts | .use _ | .pwd | .cd _ | .boot | .usage _ | .unknown _ => none

/-- The line asks to read from a partition that is not there or cannot be read. -/
def Strays (fss : List Volume) (line : Str) : Prop :=
  ∃ cmd args path n, Str.splitWhitespace line = cmd :: args ∧
    (command cmd args).file = some path ∧ (parseUri path).1 = some n ∧
    ∀ v ∈ fss, v.1.index ≠ n

/-- The command word of the line ends the shell. -/
def Exits (line : Str) : Prop :=
  ∃ cmd args, Str.splitWhitespace line = cmd :: args ∧ cmd ∈ exitWords

section Step

variable {fss : List Volume} {here : Volume} {s : State}

private theorem steady_same (hs : s.Valid fss) (error : Option Str) :
    (Outcome.goOn s error).Steady fss s := ⟨s, error, rfl, hs, fun _ => ⟨rfl, rfl⟩⟩

private theorem steady_files (hs : s.Valid fss) (files : Files) (error : Option Str) :
    (Outcome.goOn { s with files := files } error).Steady fss s :=
  ⟨_, error, rfl, ⟨hs.current_lt, hs.cwd_normalised⟩, fun _ => ⟨rfl, rfl⟩⟩

private theorem steady_answered {α : Type} (hs : s.Valid fss) (result : Except Error α) :
    (answered s result).Steady fss s := by
  cases result with
  | ok a => exact steady_same hs none
  | error e => exact steady_same hs (some e.display)

/-- A switch leads to a volume that is there. -/
private theorem switchPart_lt {which : Str} {i : Nat} (h : switchPart fss which = .ok i) :
    i < fss.length := by
  unfold switchPart at h
  split at h
  · cases h
  · split at h
    · rename_i j hj
      cases h
      exact Boot.findIdx?_lt hj
    · cases h

private theorem steady_useArm (hs : s.Valid fss) (which : Str) :
    (useArm fss s which).Steady fss s := by
  unfold useArm
  split
  · rename_i i hi
    exact ⟨_, none, rfl, ⟨switchPart_lt hi, normalised_root⟩, fun h => absurd rfl h⟩
  · exact steady_same hs _

private theorem steady_cdArm (hs : s.Valid fss) (path : Str) :
    (cdArm here s path).Steady fss s := by
  unfold cdArm
  split
  · exact ⟨_, none, rfl, ⟨hs.current_lt, normalised_resolve _ _⟩, fun h => absurd rfl h⟩
  · exact steady_same hs _

private theorem steady_cpArm (hs : s.Valid fss) (refuses : Refusals) (dest : Str) (fs : FileSystem)
    (path : Str) : (cpArm refuses s dest fs path).Steady fss s := by
  unfold cpArm
  split
  · exact steady_same hs _
  · split
    · exact steady_files hs _ _
    · exact steady_files hs _ _

/-- A scan does not fail, so `boot` fails only for want of entries. -/
theorem steady_bootArm (hs : s.Valid fss) : (bootArm here s).Steady fss s := by
  simp only [bootArm, showBoot, Boot.scan_eq]
  split_ifs
  · exact steady_same hs _
  · exact steady_same hs _

/-- A file argument is located unless it names a partition that is not among the volumes. -/
theorem locate_cases (fss : List Volume) (here : Volume) (cwd path : Str) :
    (∃ n, (parseUri path).1 = some n ∧ (∀ v ∈ fss, v.1.index ≠ n) ∧
      locate fss here cwd path = .error (noFilesystem n)) ∨
    ((∀ n, (parseUri path).1 = some n → ∃ v ∈ fss, v.1.index = n) ∧
      ∃ found, locate fss here cwd path = .ok found) := by
  unfold locate
  rcases parseUri path with ⟨part, rest⟩
  cases part with
  | none => exact Or.inr ⟨fun n hn => (by cases hn), _, rfl⟩
  | some n =>
    simp only
    cases hfind : fss.find? (·.1.index == n) with
    | none =>
      refine Or.inl ⟨n, rfl, ?_, rfl⟩
      intro v hv
      simpa using List.find?_eq_none.mp hfind v hv
    | some v =>
      refine Or.inr ⟨?_, _, rfl⟩
      rintro m ⟨⟩
      exact ⟨v, List.mem_of_find?_eq_some hfind, by simpa using List.find?_some hfind⟩

/-- A command on a file ends the loop exactly if the file cannot be located. -/
theorem onFile_steady_iff {path : Str} {f : FileSystem → Str → Outcome}
    (hf : ∀ fs path, (f fs path).Steady fss s) :
    (onFile fss here s path f).Steady fss s ↔
      ¬∃ n, (parseUri path).1 = some n ∧ ∀ v ∈ fss, v.1.index ≠ n := by
  unfold onFile
  rcases locate_cases fss here s.cwd path with ⟨n, hn, hmiss, hloc⟩ | ⟨hall, found, hloc⟩
  · rw [hloc]
    constructor
    · rintro ⟨t, error, h, _⟩
      cases h
    · intro h
      exact absurd ⟨n, hn, hmiss⟩ h
  · rw [hloc]
    constructor
    · rintro _ ⟨n, hn, hmiss⟩
      obtain ⟨v, hv, he⟩ := hall n hn
      exact hmiss v hv he
    · intro _
      exact hf _ _

/-- One command: the loop reads on exactly if its file can be located. -/
theorem execute_steady_iff (hs : s.Valid fss) (refuses : Refusals) {c : Command}
    (hc : c ≠ .exit) :
    (execute fss refuses here s c).Steady fss s ↔
      ¬∃ path n, c.file = some path ∧ (parseUri path).1 = some n ∧ ∀ v ∈ fss, v.1.index ≠ n := by
  have hfile : ∀ {path : Str}, c.file = some path →
      ((¬∃ path n, c.file = some path ∧ (parseUri path).1 = some n ∧ ∀ v ∈ fss, v.1.index ≠ n) ↔
        ¬∃ n, (parseUri path).1 = some n ∧ ∀ v ∈ fss, v.1.index ≠ n) := by
    intro path hp
    simp [hp]
  have hnone : c.file = none → (execute fss refuses here s c).Steady fss s →
      ((execute fss refuses here s c).Steady fss s ↔
      ¬∃ path n, c.file = some path ∧ (parseUri path).1 = some n ∧ ∀ v ∈ fss, v.1.index ≠ n) := by
    intro hn hsteady
    simp [hn, hsteady]
  cases c with
  | help => exact hnone rfl (steady_same hs none)
  | exit => exact absurd rfl hc
  | parts => exact hnone rfl (steady_same hs none)
  | use which => exact hnone rfl (steady_useArm hs which)
  | pwd => exact hnone rfl (steady_same hs none)
  | cd path => exact hnone rfl (steady_cdArm hs path)
  | ls path =>
    rw [hfile rfl]
    exact onFile_steady_iff fun fs path => steady_answered hs _
  | cat path =>
    rw [hfile rfl]
    exact onFile_steady_iff fun fs path => steady_answered hs _
  | cp src dest =>
    rw [hfile rfl]
    exact onFile_steady_iff fun fs path => steady_cpArm hs refuses dest fs path
  | boot => exact hnone rfl (steady_bootArm hs)
  | usage text => exact hnone rfl (steady_same hs _)
  | unknown cmd => exact hnone rfl (steady_same hs _)

private theorem command_eq_exit {cmd : Str} {args : List Str} (h : command cmd args = .exit) :
    cmd ∈ exitWords := by
  by_contra hne
  unfold command at h
  rw [if_neg hne] at h
  -- No other arm is the one that ends the shell.
  repeat' split at h
  all_goals cases h

/-- One pass: the loop reads on exactly if the line does not stray. -/
theorem step_steady_iff (hs : s.Valid fss) {i : Input} (hi : ¬Exits i.line) :
    (step fss s i).Steady fss s ↔ ¬Strays fss i.line := by
  unfold step
  rw [List.getElem?_eq_getElem hs.current_lt]
  simp only
  unfold Strays
  cases hwords : Str.splitWhitespace i.line with
  | nil => simp [steady_same hs none]
  | cons cmd args =>
    have hc : command cmd args ≠ .exit := fun h => hi ⟨cmd, args, hwords, command_eq_exit h⟩
    simp only
    rw [execute_steady_iff hs i.refuses hc]
    simp

end Step

private theorem valid_start {fss : List Volume} (h : fss ≠ []) (files : Files) :
    (start files).Valid fss := ⟨List.length_pos_iff.mpr h, normalised_root⟩

/-- A pass from a valid place that reads on. -/
def Pass.Steady (fss : List Volume) (p : Pass) : Prop :=
  p.before.Valid fss ∧ p.outcome.Steady fss p.before

/-- The prompt stays valid over a run exactly if no line strays. -/
private theorem run_steady_iff {fss : List Volume} {s : State} {inputs : List Input}
    (hs : s.Valid fss)
    (hexit : ∀ i ∈ inputs, ¬Exits i.line) :
    (∀ p ∈ run fss s inputs, p.Steady fss) ↔ ∀ i ∈ inputs, ¬Strays fss i.line := by
  induction inputs generalizing s with
  | nil => simp [run]
  | cons i rest ih =>
    have hstep := step_steady_iff hs (hexit i List.mem_cons_self)
    simp only [run, List.forall_mem_cons]
    constructor
    · rintro ⟨⟨_, hsteady⟩, hrest⟩
      refine ⟨hstep.mp hsteady, ?_⟩
      obtain ⟨t, error, ho, ht, _⟩ := hsteady
      simp only at ho
      rw [ho] at hrest
      exact (ih ht fun j hj => hexit j (List.mem_cons_of_mem _ hj)).mp hrest
    · rintro ⟨hi, hrest⟩
      have hsteady := hstep.mpr hi
      refine ⟨⟨hs, hsteady⟩, ?_⟩
      obtain ⟨t, error, ho, ht, _⟩ := hsteady
      rw [ho]
      exact (ih ht fun j hj => hexit j (List.mem_cons_of_mem _ hj)).mpr hrest

/-- In a run of the shell over lines that do not end it, every failing command leaves it in
its place, every place is valid and every line is followed by the next, exactly if no line
names, as a file to read, a partition without a filesystem. -/
theorem shell_reads_on_iff {fss : List Volume} (hfss : fss ≠ []) (files : Files)
    {inputs : List Input} (hexit : ∀ i ∈ inputs, ¬Exits i.line) :
    (∀ p ∈ run fss (start files) inputs, p.Steady fss) ↔ ∀ i ∈ inputs, ¬Strays fss i.line :=
  run_steady_iff (valid_start hfss files) hexit

/-- A partition with an empty root directory. -/
def emptyRoot : Volume where
  fst := ⟨1, 0, 0, "Linux filesystem".toList, [], none, true, none, by decide⟩
  snd :=
    { readDir := fun p => if p = "/".toList then .ok [] else .error (.notFound p)
      readFile := fun p => .error (.notFound p)
      «exists» := fun p => p = "/".toList
      readPrefix := fun p _ => .error (.notFound p)
      fileSize := fun p => .error (.notFound p)
      readLink := fun _ => none }

/-- A line on a machine that refuses no write. -/
def plain (line : String) : Input := ⟨line.toList, fun _ => none⟩

private theorem splitWhitespace_stray :
    Str.splitWhitespace (plain "ls p9:/").line = ["ls".toList, "p9:/".toList] := by
  decide +kernel

/-- Three lines that fail, and one that does not. -/
def failingLines : List Input :=
  [plain "cat p1:/vmlinuz", plain "use 9", plain "cd boot", plain "pwd"]

private theorem failingLines_words : failingLines.map (fun i => Str.splitWhitespace i.line) =
    [["cat".toList, "p1:/vmlinuz".toList], ["use".toList, "9".toList],
      ["cd".toList, "boot".toList], ["pwd".toList]] := by
  decide +kernel

/-- They name no partition to read from but the first one. -/
theorem failingLines_named : ∀ words ∈ [["cat".toList, "p1:/vmlinuz".toList],
    ["use".toList, "9".toList], ["cd".toList, "boot".toList], ["pwd".toList]],
    ((command (words.headD []) words.tail).file.bind fun path => (parseUri path).1) ∈
      [none, some 1] := by
  decide +kernel

/-- The errors of the first three lines are printed, and the fourth is read where the shell
began. -/
theorem shell_reads_on_failing :
    (run [emptyRoot] (start fun _ => none) failingLines).length = 4 ∧
    (run [emptyRoot] (start fun _ => none) failingLines).Forall (Pass.Steady [emptyRoot]) := by
  have hwords (i : Input) (hi : i ∈ failingLines) : Str.splitWhitespace i.line ∈
      [["cat".toList, "p1:/vmlinuz".toList], ["use".toList, "9".toList],
        ["cd".toList, "boot".toList], ["pwd".toList]] := by
    rw [← failingLines_words]
    exact List.mem_map_of_mem hi
  refine ⟨by decide +kernel, ?_⟩
  rw [List.forall_iff_forall_mem]
  apply (shell_reads_on_iff (List.cons_ne_nil _ _) (fun _ => none) ?_).mpr
  · rintro i hi ⟨cmd, args, path, n, hline, hfile, hn, hstray⟩
    have hnamed := failingLines_named _ (hwords i hi)
    rw [hline] at hnamed
    simp only [List.headD_cons, List.tail_cons, hfile, Option.bind_some, hn, List.mem_cons,
      reduceCtorEq, Option.some.injEq, List.not_mem_nil, or_false, false_or] at hnamed
    exact hstray emptyRoot List.mem_cons_self hnamed.symm
  · rintro i hi ⟨cmd, args, hline, hmem⟩
    have h := hwords i hi
    rw [hline] at h
    simp only [List.mem_cons, List.cons.injEq, List.not_mem_nil, or_false] at h
    obtain ⟨rfl, -⟩ | ⟨rfl, -⟩ | ⟨rfl, -⟩ | ⟨rfl, -⟩ := h <;> exact absurd hmem (by decide)

/-- `ls p9:/` ends the shell on a disk without a partition 9. -/
theorem stray_listing_ends_shell :
    ¬([emptyRoot] ≠ [] → (∀ i ∈ [plain "ls p9:/"], ¬Exits i.line) →
      ∀ p ∈ run [emptyRoot] (start fun _ => none) [plain "ls p9:/"], p.Steady [emptyRoot]) := by
  intro h
  have hexit : ∀ i ∈ [plain "ls p9:/"], ¬Exits i.line := by
    rintro i hi ⟨cmd, args, hwords, hmem⟩
    obtain rfl := List.mem_singleton.mp hi
    rw [splitWhitespace_stray] at hwords
    cases hwords
    exact absurd hmem (by decide)
  have hstep : step [emptyRoot] (start fun _ => none) (plain "ls p9:/") =
      .leave (noFilesystem 9) := by
    rw [step, splitWhitespace_stray]
    rfl
  have hsteady := h (List.cons_ne_nil _ _) hexit _ List.mem_cons_self
  obtain ⟨_, t, error, hgo, _⟩ := hsteady
  rw [hstep] at hgo
  cases hgo

end BootExtractor.Cli
