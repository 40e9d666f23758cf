import BootExtractor.Cli.Agreement
import BootExtractor.Vdafix.Offsets

/-!
# Where the commands panic

No disk makes a command run forever, and there is one thing on a disk that makes a
command panic: the name of a device, in the command line of an entry that the command
looks at, that is cut inside of a character.
-/

namespace BootExtractor.Cli

open Boot Effect Fsys Guest Kernel BootExtractor.Part Vdafix Vdafix.Offsets

/-- The command line of the entry names a device that is cut inside of a character. -/
def CutsEntry (e : BootEntry) : Prop :=
  ∃ cmdline, e.cmdline = some cmdline ∧ ∃ token ∈ Str.splitWhitespace cmdline, CutsToken token

section Cmdline

variable {table : PartitionTable}

/-- A token fails only by a panic. -/
private theorem fixToken_fault {token : Str} {f : Fault}
    (h : Vdafix.fixToken token table = .error f) :
    f = .panic := by
  unfold Vdafix.fixToken fixTokenBy at h
  split at h
  · cases h
  split at h
  · cases h
  split at h
  · rename_i g hg
    obtain rfl := Except.error.inj h
    simp only [Vdafix.partitionNumber] at hg
    split at hg
    · cases hg
    split at hg
    · cases hg
    split at hg
    · exact (Except.error.inj hg).symm
    split at hg
    · cases hg
    · cases hg
  · cases h

/-- A line fails only by a panic. -/
private theorem fixLoop_fault {fuel : Nat} {out rest : Str} {changed : Bool} {f : Fault}
    (h : Vdafix.fixLoop table fuel out changed rest = .error f) : f = .panic := by
  induction fuel generalizing out changed rest with
  | zero => cases h
  | succ fuel ih =>
    rw [Vdafix.fixLoop] at h
    split at h
    · cases h
    · simp only at h
      split at h
      · rename_i g hg
        obtain rfl := Except.error.inj h
        exact fixToken_fault hg
      · exact ih h

/-- Rewriting a command line fails exactly with a panic, and exactly for one kind of token. -/
theorem fixedCmdline_panics_iff {e : BootEntry} {f : Fault} :
    fixedCmdline e table = .error f ↔ f = .panic ∧ CutsEntry e := by
  have hexists : (∃ f, fixedCmdline e table = .error f) ↔ CutsEntry e := by
    unfold fixedCmdline CutsEntry
    cases e.cmdline with
    | none => simp
    | some cmdline =>
      obtain ⟨alt, rfl⟩ := Alternation.exists_text Str.isWhitespace cmdline
      simp only [Option.some.injEq, exists_eq_left', Str.splitWhitespace_text]
      constructor
      · rintro ⟨f, hf⟩
        by_contra hno
        have hok : ∀ token ∈ alt.tokens,
            Vdafix.fixToken token table = .ok (Vdafix.fixToken token table).toOption.join := by
          intro token htoken
          have hfixed := (ok_iff _).mpr fun h =>
            hno ⟨token, htoken, (fixToken_error_iff token table).mp h⟩
          obtain ⟨fixed, hfixed⟩ := hfixed
          simp only [hfixed, Except.toOption, Option.join_some]
        rw [fixCmdline_ok hok] at hf
        cases hf
      · rintro ⟨token, htoken, hcut⟩
        exact fixCmdline_error ⟨token, htoken, (fixToken_error_iff token table).mpr hcut⟩
  constructor
  · intro h
    refine ⟨?_, hexists.mp ⟨f, h⟩⟩
    unfold fixedCmdline at h
    split at h
    · cases h
    · exact fixLoop_fault h
  · rintro ⟨rfl, hcut⟩
    obtain ⟨f, hf⟩ := hexists.mpr hcut
    have hpanic : f = .panic := by
      unfold fixedCmdline at hf
      split at hf
      · cases hf
      · exact fixLoop_fault hf
    rw [hf, hpanic]

private theorem not_cutsEntry {e : BootEntry} {fixed : Option Str}
    (h : fixedCmdline e table = .ok fixed) :
    ¬CutsEntry e := by
  intro hcut
  rw [fixedCmdline_panics_iff.mpr ⟨rfl, hcut⟩] at h
  cases h

/-- The entries of a partition fail exactly by a panic at one that is cut. -/
private theorem partItems_fault_iff {pb : PartitionBoot} {cache : DmaCache} {i : Nat}
    {es : List BootEntry} {f : Fault} :
    partItems table pb cache i es = .error f ↔ f = .panic ∧ ∃ e ∈ es, CutsEntry e := by
  induction es generalizing cache i with
  | nil => simp [partItems]
  | cons e rest ih =>
    rw [partItems]
    cases hfixed : fixedCmdline e table with
    | error g =>
      obtain ⟨rfl, hcut⟩ := fixedCmdline_panics_iff.mp hfixed
      constructor
      · intro h
        obtain rfl := Except.error.inj h
        exact ⟨rfl, e, List.mem_cons_self, hcut⟩
      · rintro ⟨rfl, _⟩
        rfl
    | ok fixed =>
      have hno := not_cutsEntry hfixed
      have hrest := @ih (itemDma cache pb e).2 (i + 1)
      simp only [bind, Except.bind]
      cases hmore : partItems table pb (itemDma cache pb e).2 (i + 1) rest with
      | error g =>
        rw [hmore] at hrest
        simp only [List.mem_cons, exists_eq_or_imp, hno, false_or]
        exact hrest
      | ok items =>
        rw [hmore] at hrest
        simp only [List.mem_cons, exists_eq_or_imp, hno, false_or]
        simpa using hrest

end Cmdline

section Commands

variable {readers : Readers} {disk : Device}

/-- The listing fails exactly by a panic at an entry that is cut. -/
private theorem allItems_fault_iff {table : PartitionTable} {parts : List PartitionBoot}
    {f : Fault} :
    allItems table parts = .error f ↔
      f = .panic ∧ ∃ pb ∈ parts, ∃ e ∈ pb.scan.entries, CutsEntry e := by
  induction parts with
  | nil => simp [allItems]
  | cons pb rest ih =>
    rw [allItems]
    cases hmine : partItems table pb [] 0 pb.scan.entries with
    | error g =>
      obtain ⟨rfl, hcut⟩ := partItems_fault_iff.mp hmine
      constructor
      · intro h
        obtain rfl := Except.error.inj h
        exact ⟨rfl, pb, List.mem_cons_self, hcut⟩
      · rintro ⟨rfl, _⟩
        rfl
    | ok items =>
      have hno : ¬∃ e ∈ pb.scan.entries, CutsEntry e := fun hcut => by
        rw [partItems_fault_iff.mpr ⟨rfl, hcut⟩] at hmine
        cases hmine
      simp only [bind, Except.bind, List.mem_cons, exists_eq_or_imp, hno, false_or]
      cases hmore : allItems table rest with
      | error g =>
        rw [hmore] at ih
        exact ih
      | ok more =>
        rw [hmore] at ih
        simpa using ih

/-- A walk ends with an answer or with an error. -/
theorem noBootArtifacts_err (readers : Readers) (disk : Device) :
    ∃ text, noBootArtifacts readers disk = .err text := by
  unfold noBootArtifacts windows
  rcases walk_cases readers disk false with ⟨e, _, hwalk⟩ | ⟨table, w, _, hwalk, _⟩
  · rw [hwalk]
    exact ⟨_, rfl⟩
  · rw [hwalk]
    simp only [Except.map]
    cases w.windows with
    | none => exact ⟨_, rfl⟩
    | some win =>
      simp only
      split <;> exact ⟨_, rfl⟩

/-- The best partition, where the table can be read. -/
theorem bestBootScan_cases (readers : Readers) (disk : Device) :
    (∃ e, Part.scan disk = .error e ∧ bestBootScan readers disk = .error (.err e)) ∨
    ∃ table best, Part.scan disk = .ok table ∧ bestBootScan readers disk = .ok best := by
  rcases bootable_cases readers disk with ⟨e, hscan, _, hboot⟩ | ⟨table, w, hscan, _, _, hboot⟩
  · exact Or.inl ⟨e, hscan, by rw [bestBootScan, hboot]⟩
  · exact Or.inr ⟨table, _, hscan, by rw [bestBootScan, hboot]⟩

/-- The entry that `boot-info` reports, or that `extract` looks at. -/
structure Chosen (readers : Readers) (disk : Device) (entryArg : Option Nat) (pb : PartitionBoot)
    (e : BootEntry) : Prop where
  best : bestBootScan readers disk = .ok (some pb)
  entry : ∃ index, entryIndex entryArg pb.scan = .ok index ∧ pb.scan.entries[index]? = some e

/-- An entry whose files can be extracted. -/
def Extractable (pb : PartitionBoot) (e : BootEntry) : Prop :=
  e.windows = none ∧ pb.fs ≠ none ∧ e.kernel ≠ none

/-- The position that is asked for has an entry. -/
theorem exists_entry_of_index {pb : PartitionBoot}
    (hbest : bestBootScan readers disk = .ok (some pb))
    {entryArg : Option Nat} {index : Nat} (h : entryIndex entryArg pb.scan = .ok index) :
    ∃ e, pb.scan.entries[index]? = some e := by
  obtain ⟨parts, hparts, hpb⟩ := mem_of_bestBootScan hbest
  obtain ⟨d, e, hd, he⟩ := exists_default hparts hpb
  cases entryArg with
  | none =>
    obtain rfl : d = index := by simpa [entryIndex, hd] using h
    exact ⟨e, he⟩
  | some n =>
    unfold entryIndex at h
    simp only at h
    split at h
    · obtain rfl := Except.ok.inj h
      exact ⟨_, List.getElem?_eq_getElem (by omega)⟩
    · cases h

/-- One entry is chosen. -/
private theorem chosen_iff {entryArg : Option Nat} {pb pb' : PartitionBoot} {e e' : BootEntry}
    {index : Nat}
    (hbest : bestBootScan readers disk = .ok (some pb))
    (hindex : entryIndex entryArg pb.scan = .ok index) (he : pb.scan.entries[index]? = some e) :
    Chosen readers disk entryArg pb' e' ↔ pb' = pb ∧ e' = e := by
  constructor
  · rintro ⟨hbest', index', hindex', he'⟩
    rw [hbest] at hbest'
    cases hbest'
    rw [hindex] at hindex'
    cases hindex'
    rw [he] at he'
    exact ⟨rfl, (Option.some.inj he').symm⟩
  · rintro ⟨rfl, rfl⟩
    exact ⟨hbest, index, hindex, he⟩

/-- Nothing is chosen where there is no best partition. -/
theorem not_chosen {r : Except Fault (Option PartitionBoot)} (hbest : bestBootScan readers disk = r)
    (hr : ∀ pb, r ≠ .ok (some pb)) (entryArg : Option Nat) (pb : PartitionBoot) (e : BootEntry) :
    ¬Chosen readers disk entryArg pb e := fun h =>
  hr pb (hbest.symm.trans h.best)

/-- Beside its messages, the listing fails exactly by a panic at an entry that is cut. -/
private theorem entries_fault_iff (c : Codecs) (quick : Bool) {f : Fault} (hf : ¬f.IsErr) :
    cmdEntriesJson readers c disk quick = .error f ↔
      f = .panic ∧ ∃ parts, bootable readers disk = .ok parts ∧
        ∃ pb ∈ parts, ∃ e ∈ pb.scan.entries, CutsEntry e := by
  rw [cmdEntriesJson_eq, listedItems]
  rcases bootable_cases readers disk with ⟨e, hscan, _, hboot⟩ | ⟨table, w, hscan, _, _, hboot⟩
  · simp only [hscan, hboot, liftError, bind, Except.bind, Except.map, reduceCtorEq, false_and,
      exists_false, and_false, iff_false]
    rintro ⟨⟩
    exact hf trivial
  · simp only [hscan, hboot, liftError, bind, Except.bind, Except.ok.injEq, exists_eq_left']
    rw [← @allItems_fault_iff table]
    cases allItems table w.listing <;> simp [Except.map]

/-- Beside its messages, `boot-info` fails exactly by a panic at the entry it shows. -/
private theorem bootInfo_fault_iff (c : Codecs) {f : Failure} (hf : ∀ text, f ≠ .err text) :
    cmdBootInfoJson readers c disk = .error f ↔
      f = .panic ∧ ∃ pb e, Chosen readers disk none pb e ∧ CutsEntry e := by
  rcases bestBootScan_cases readers disk with ⟨err, hscan, hbest⟩ | ⟨table, best, hscan, hbest⟩
  · have hno := not_chosen hbest (by simp) none
    simp [cmdBootInfoJson, hbest, ofFault, bind, Except.bind, Failure.ofFault, hno, (hf _).symm]
  cases best with
  | none =>
    have hno := not_chosen hbest (by simp) none
    obtain ⟨text, htext⟩ := noBootArtifacts_err readers disk
    simp [cmdBootInfoJson, hbest, ofFault, bind, Except.bind, htext, hno, (hf _).symm]
  | some pb =>
    have hindex : entryIndex none pb.scan = .ok (pb.scan.default.getD 0) := rfl
    obtain ⟨e, he⟩ := exists_entry_of_index hbest hindex
    simp only [chosen_iff hbest hindex he, cmdBootInfoJson, hbest, ofFault, bind, Except.bind,
      bootInfoOf, he, hscan]
    cases hfixed : fixedCmdline e table with
    | ok fixed => simp [not_cutsEntry hfixed]
    | error g =>
      obtain ⟨rfl, hcut⟩ := fixedCmdline_panics_iff.mp hfixed
      simp [Failure.ofFault, hcut, eq_comm]

/-- Selecting an entry stops exactly by a panic at one that is cut. -/
private theorem select_fault_iff {entryArg : Option Nat} {f : Failure}
    (hf : ∀ text, f ≠ .err text) :
    select readers disk entryArg = .error f ↔
      f = .panic ∧ ∃ pb e, Chosen readers disk entryArg pb e ∧ Extractable pb e ∧ CutsEntry e := by
  rcases bestBootScan_cases readers disk with ⟨err, hscan, hbest⟩ | ⟨table, best, hscan, hbest⟩
  · have hno := not_chosen hbest (by simp) entryArg
    simp [select, hbest, ofFault, bind, Except.bind, Failure.ofFault, hno, (hf _).symm]
  cases best with
  | none =>
    have hno := not_chosen hbest (by simp) entryArg
    obtain ⟨text, htext⟩ := noBootArtifacts_err readers disk
    simp [select, hbest, ofFault, bind, Except.bind, htext, hno, (hf _).symm]
  | some pb =>
    cases hindex : entryIndex entryArg pb.scan with
    | error g =>
      have hno : ∀ pb' e, ¬Chosen readers disk entryArg pb' e := by
        rintro pb' e ⟨hbest', index, hindex', -⟩
        rw [hbest] at hbest'
        cases hbest'
        rw [hindex] at hindex'
        cases hindex'
      have herr : ∃ text, g = .err text := by
        unfold entryIndex at hindex
        repeat' split at hindex
        all_goals cases hindex
        exact ⟨_, rfl⟩
      obtain ⟨text, rfl⟩ := herr
      simp [select, hbest, ofFault, bind, Except.bind, hindex, hno, (hf _).symm]
    | ok index =>
      obtain ⟨e, he⟩ := exists_entry_of_index hbest hindex
      rw [select_eq hbest hindex he]
      simp only [chosen_iff hbest hindex he, openEntry, Extractable]
      cases hwindows : e.windows with
      | some w => simp [hwindows, (hf _).symm]
      | none =>
        cases hfs : pb.fs with
        | none => simp [hfs, (hf _).symm]
        | some fs =>
          cases hkernel : e.kernel with
          | none => simp [hkernel, (hf _).symm]
          | some kernel =>
            simp only [hscan]
            cases hfixed : fixedCmdline e table with
            | ok fixed => simp [not_cutsEntry hfixed]
            | error g =>
              obtain ⟨rfl, hcut⟩ := fixedCmdline_panics_iff.mp hfixed
              simp [Failure.ofFault, hcut, hwindows, hfs, hkernel, eq_comm]

end Commands

section Writing

/-- Started anywhere, the computation can only fail with an error that is reported. -/
def Reports {α : Type} (x : EStateM Failure Files α) : Prop :=
  ∀ files, Yields x (fun _ _ => True) (fun f _ => ∃ text, f = .err text) files

/-- Steps that end with a message do so one after the other. -/
theorem Reports.bind {α β : Type} {x : EStateM Failure Files α} {f : α → EStateM Failure Files β}
    (h : Reports x) (hf : ∀ a, Reports (f a)) : Reports (x >>= f) := by
  intro files
  rw [yields_bind]
  exact (h files).mono (fun a t _ => hf a t) fun _ _ he => he

private theorem reports_hostly {α : Type} (x : EStateM Str Files α) : Reports (hostly x) := by
  intro files
  rw [yields_hostly, yields_iff]
  split
  · trivial
  · exact ⟨_, rfl⟩

private theorem reports_ofExcept {α ε : Type} {f : ε → Str} (x : Except ε α) :
    Reports (ofExcept (fun e => .err (f e)) x) := by
  intro files
  rw [yields_ofExcept]
  exact ⟨fun _ _ => trivial, fun e _ => ⟨f e, rfl⟩⟩

private theorem reports_forM {paths : List Str} {f : Str → EStateM Failure Files PUnit}
    (hf : ∀ path, Reports (f path)) : Reports (forM paths f) := by
  intro files
  exact yields_forM (I := fun _ _ => True) (fun _ path _ s _ _ => hf path s) trivial

variable (c : Codecs) (refuses : Refusals) (opts : Options) (job : Job)

private theorem reports_copy (path : Str) : Reports (copy refuses opts job path) :=
  (reports_ofExcept _).bind fun _ => (reports_hostly _).bind fun _ _ => trivial

/-- Extraction itself ends with a message or not at all. -/
private theorem reports_extractJob : Reports (extractJob c refuses opts job) := by
  refine (reports_hostly _).bind fun _ => Reports.bind ?_ fun _ => Reports.bind ?_ fun _ =>
    Reports.bind ?_ fun _ => ?_
  · exact (reports_ofExcept _).bind fun _ => (reports_ofExcept _).bind fun _ =>
      (reports_hostly _).bind fun _ _ => trivial
  · exact reports_forM fun path => reports_copy refuses opts job path
  · exact reports_forM fun path => reports_copy refuses opts job path
  · unfold writeCmdline
    split
    · exact reports_hostly _
    · exact fun _ => trivial

end Writing

/-- Whatever is on the disk and whatever the machine refuses, the commands end, and they panic
exactly if an entry that they look at names a device that is cut inside of a character:
`entries` looks at all entries, `boot-info` at the default, and `extract` at the entry that is
asked for once that one can be extracted. -/
theorem commands_fault_iff (readers : Readers) (c : Codecs) (disk : Device) :
    (∀ quick f, ¬f.IsErr → (cmdEntriesJson readers c disk quick = .error f ↔
      f = .panic ∧ ∃ parts, bootable readers disk = .ok parts ∧
        ∃ pb ∈ parts, ∃ e ∈ pb.scan.entries, CutsEntry e)) ∧
    (∀ f, (∀ text, f ≠ .err text) → (cmdBootInfoJson readers c disk = .error f ↔
      f = .panic ∧ ∃ pb e, Chosen readers disk none pb e ∧ CutsEntry e)) ∧
    ∀ refuses opts files f, (∀ text, f ≠ .err text) →
      (answer (cmdExtract readers c refuses disk opts) files = .error f ↔
        f = .panic ∧ ∃ pb e, Chosen readers disk opts.entry pb e ∧ Extractable pb e ∧
          CutsEntry e) := by
  refine ⟨fun quick f hf => entries_fault_iff c quick hf, fun f hf => bootInfo_fault_iff c hf, ?_⟩
  intro refuses opts files f hf
  rw [← select_fault_iff hf]
  cases hselect : select readers disk opts.entry with
  | error g =>
    have hfails : answer (cmdExtract readers c refuses disk opts) files = .error g := by
      rw [cmdExtract, hselect]
      rfl
    rw [hfails, Except.error.injEq, Except.error.injEq]
  | ok job =>
    have hends : Reports (cmdExtract readers c refuses disk opts) := by
      rw [cmdExtract, hselect]
      refine Reports.bind (fun _ => trivial) fun job => ?_
      split
      · exact fun _ => trivial
      · exact reports_extractJob c refuses opts job
    have hreport := yields_iff.mp (hends files)
    constructor
    · intro h
      rw [h] at hreport
      obtain ⟨text, rfl⟩ := hreport
      exact absurd rfl (hf text)
    · intro h
      cases h

end BootExtractor.Cli
