import Mathlib.Logic.Function.Basic
import BootExtractor.Lib.FileWrite
import BootExtractor.Source.Remote

/-!
# Stores of one chunk side by side

Processes that share a cache directory store the same chunk at the same time. All of
them write to one temporary name, by pieces and each at an offset of its own, and rename
what has that name then. As long as nobody truncates a file in the middle of a write of
another one, every file that can be renamed or read holds a prefix of the chunk.
-/

namespace BootExtractor.Remote.Race

open Bytes

variable {ι : Type}

/-- Where a store is: not begun or over, or behind some pieces with the rest to write. -/
inductive Proc where
  | idle
  | writing (file off : Nat) (pieces : List Bytes)
  deriving DecidableEq, Repr

/-- The directory with its files, which are followed by open descriptors. -/
structure State (ι : Type) where
  files : Nat → Bytes
  /-- The next new file. -/
  next : Nat
  dir : CacheFile → Option Nat
  procs : ι → Proc

/-- A step of a process. -/
inductive Act (ι : Type) where
  /-- Create or truncate `<idx>.part`, to write the chunk in these pieces. -/
  | create (p : ι) (pieces : List Bytes)
  | write (p : ι)
  | rename (p : ι)
  /-- A write fails, or the process ends. -/
  | stop (p : ι)

section Steps

variable [DecidableEq ι]

/-- One process moves on. -/
def State.setProc (s : State ι) (p : ι) (proc : Proc) : State ι :=
  { s with procs := Function.update s.procs p proc }

/-- One file has this content from now on. -/
def State.setFile (s : State ι) (f : Nat) (content : Bytes) : State ι :=
  { s with files := Function.update s.files f content }

/-- A new file under a name. -/
def State.newFile (s : State ι) (name : CacheFile) : State ι :=
  { s.setFile s.next [] with next := s.next + 1, dir := Function.update s.dir name (some s.next) }

/-- A file under another name. -/
def State.move (s : State ι) (old new : CacheFile) (f : Nat) : State ι :=
  { s with dir := Function.update (Function.update s.dir old none) new (some f) }

/-- `File::create`: the file that has the name is truncated; without one it is new. -/
def State.create (s : State ι) (idx : Nat) : Nat × State ι :=
  match s.dir (.part idx) with
  | some f => (f, s.setFile f [])
  | none => (s.next, s.newFile (.part idx))

/-- `rename`; without a file of the old name it fails, and nobody asks. -/
def State.rename (s : State ι) (idx : Nat) : State ι :=
  match s.dir (.part idx) with
  | some f => s.move (.part idx) (.chunk idx) f
  | none => s

/-- One step of `DiskCache::store` of a chunk in one of the processes. -/
def step (data : Bytes) (idx : Nat) (s : State ι) : Act ι → Option (State ι)
  | .create p pieces =>
    match s.procs p with
    | .writing .. => none
    | .idle =>
      if pieces.flatten = data ∧ [] ∉ pieces then
        some ((s.create idx).2.setProc p (.writing (s.create idx).1 0 pieces))
      else none
  | .write p =>
    match s.procs p with
    | .writing f off (piece :: rest) =>
      some ((s.setFile f (writeAt (s.files f) off piece)).setProc p
        (.writing f (off + piece.length) rest))
    | _ => none
  | .rename p =>
    match s.procs p with
    | .writing _ _ [] => some ((s.rename idx).setProc p .idle)
    | _ => none
  | .stop p =>
    match s.procs p with
    | .writing .. => some (s.setProc p .idle)
    | .idle => none

/-- The state after some steps. -/
def exec (data : Bytes) (idx : Nat) : State ι → List (Act ι) → Option (State ι)
  | s, [] => some s
  | s, act :: acts => (step data idx s act).bind fun s' => exec data idx s' acts

/-- What a reader sees in the directory. -/
def State.view (s : State ι) : CacheDir := fun name => (s.dir name).map s.files

/-- Nobody has the chunk open, and it is complete or not there. -/
structure Initial (data : Bytes) (idx : Nat) (s : State ι) : Prop where
  idle : ∀ p, s.procs p = .idle
  chunk : ∀ f, s.dir (.chunk idx) = some f → s.files f = data
  fresh : ∀ name f, s.dir name = some f → f < s.next

/-- The step truncates no file in the middle of a write. -/
def Calm (idx : Nat) (s : State ι) : Act ι → Prop
  | .create _ _ => ∀ f, s.dir (.part idx) = some f →
      ∀ q off pieces, s.procs q = .writing f off pieces → off = 0 ∨ pieces = []
  | _ => True

/-- All steps of a run are calm. -/
def CalmRun (data : Bytes) (idx : Nat) : State ι → List (Act ι) → Prop
  | _, [] => True
  | s, act :: acts =>
    Calm idx s act ∧ ∀ s', step data idx s act = some s' → CalmRun data idx s' acts

end Steps

section Fields

variable {s : State ι} {f g : Nat} {content : Bytes} {name old new : CacheFile}

/-- Writing to a file renames nothing. -/
@[simp] theorem setFile_dir : (s.setFile f content).dir = s.dir := rfl

/-- Writing to a file creates none. -/
@[simp] theorem setFile_next : (s.setFile f content).next = s.next := rfl

/-- Writing to a file moves no process. -/
@[simp] theorem setFile_procs : (s.setFile f content).procs = s.procs := rfl

/-- A new file is empty. -/
@[simp] theorem newFile_files : (s.newFile name).files = (s.setFile s.next []).files := rfl

/-- A new file takes the next number. -/
@[simp] theorem newFile_next : (s.newFile name).next = s.next + 1 := rfl

/-- A new file moves no process. -/
@[simp] theorem newFile_procs : (s.newFile name).procs = s.procs := rfl

/-- Renaming a file writes nothing. -/
@[simp] theorem move_files : (s.move old new f).files = s.files := rfl

/-- Renaming a file creates none. -/
@[simp] theorem move_next : (s.move old new f).next = s.next := rfl

/-- Renaming a file moves no process. -/
@[simp] theorem move_procs : (s.move old new f).procs = s.procs := rfl

/-- The file that was written. -/
@[simp] theorem setFile_self : (s.setFile f content).files f = content :=
  Function.update_self _ _ _

private theorem setFile_ne (h : g ≠ f) : (s.setFile f content).files g = s.files g :=
  Function.update_of_ne h _ _

/-- A file holds what it held, or what was put there. -/
theorem setFile_isPrefix {data : Bytes} (hcontent : content <+: data) (h : s.files g <+: data) :
    (s.setFile f content).files g <+: data := by
  by_cases hg : g = f
  · rwa [hg, setFile_self]
  · rwa [setFile_ne hg]

private theorem newFile_dir (h : (s.newFile name).dir old = some f) :
    old = name ∧ f = s.next ∨ s.dir old = some f := by
  change Function.update s.dir name (some s.next) old = some f at h
  by_cases hold : old = name
  · rw [hold, Function.update_self] at h
    exact Or.inl ⟨hold, (Option.some.inj h).symm⟩
  · rw [Function.update_of_ne hold] at h
    exact Or.inr h

private theorem move_dir (h : (s.move old new f).dir name = some g) :
    name = new ∧ g = f ∨ name ≠ old ∧ s.dir name = some g := by
  change Function.update (Function.update s.dir old none) new (some f) name = some g at h
  by_cases hnew : name = new
  · rw [hnew, Function.update_self] at h
    exact Or.inl ⟨hnew, (Option.some.inj h).symm⟩
  · rw [Function.update_of_ne hnew] at h
    by_cases hold : name = old
    · rw [hold, Function.update_self] at h
      cases h
    · rw [Function.update_of_ne hold] at h
      exact Or.inr ⟨hold, h⟩

variable [DecidableEq ι] {p q : ι} {proc : Proc}

/-- A process that moves on writes nothing. -/
@[simp] theorem setProc_files : (s.setProc p proc).files = s.files := rfl

/-- A process that moves on creates no file. -/
@[simp] theorem setProc_next : (s.setProc p proc).next = s.next := rfl

/-- A process that moves on renames nothing. -/
@[simp] theorem setProc_dir : (s.setProc p proc).dir = s.dir := rfl

/-- A process is the one that moved, or it is where it was. -/
theorem procs_setProc {x : Proc} (h : (s.setProc p proc).procs q = x) :
    q = p ∧ proc = x ∨ q ≠ p ∧ s.procs q = x := by
  change Function.update s.procs p proc q = x at h
  by_cases hqp : q = p
  · rw [hqp, Function.update_self] at h
    exact Or.inl ⟨hqp, h⟩
  · rw [Function.update_of_ne hqp] at h
    exact Or.inr ⟨hqp, h⟩

end Fields

section Invariant

/-- What is in the middle of a write continues the file. -/
structure Continues (data : Bytes) (file : Bytes) (off : Nat) (pieces : List Bytes) : Prop where
  isPrefix : file <+: data
  rest : data.drop off = pieces.flatten
  noGap : pieces = [] ∨ off ≤ file.length

/-- Every file that can be renamed or read is a prefix of the chunk. A temporary file that
was there before is not renamed until somebody truncates it. -/
structure Inv (data : Bytes) (idx : Nat) (s : State ι) : Prop where
  chunk : ∀ f, s.dir (.chunk idx) = some f → s.files f <+: data
  part : ∀ p f, s.procs p ≠ .idle → s.dir (.part idx) = some f → s.files f <+: data
  writing : ∀ p f off pieces, s.procs p = .writing f off pieces →
    Continues data (s.files f) off pieces
  fresh : ∀ name f, s.dir name = some f → f < s.next
  open_fresh : ∀ p f off pieces, s.procs p = .writing f off pieces → f < s.next

variable {data : Bytes} {idx : Nat} {s s' : State ι}

/-- The invariant holds at the start. -/
theorem Initial.inv (h : Initial data idx s) : Inv data idx s where
  chunk f hf := by rw [h.chunk f hf]
  part p _ hp _ := absurd (h.idle p) hp
  writing p f off pieces hp := by
    rw [h.idle p] at hp
    cases hp
  fresh := h.fresh
  open_fresh p f off pieces hp := by
    rw [h.idle p] at hp
    cases hp

/-- A reader that sees the length of the chunk sees the chunk. -/
theorem Inv.load_exact (h : Inv data idx s) :
    load s.view idx data.length = none ∨ load s.view idx data.length = some data := by
  unfold load State.view
  cases hdir : s.dir (.chunk idx) with
  | none => exact Or.inl rfl
  | some f =>
    have hpre := h.chunk f hdir
    by_cases hlen : (s.files f).length = data.length
    · right
      simp only [Option.map_some, hpre.eq_of_length hlen, if_true]
    · left
      simp only [Option.map_some, if_neg hlen]

/-- What a process renames is a prefix of the chunk. -/
theorem Inv.move (h : Inv data idx s) {p : ι} (hp : s.procs p ≠ .idle) {f : Nat}
    (hpart : s.dir (.part idx) = some f) :
    Inv data idx (s.move (.part idx) (.chunk idx) f) where
  chunk g hg := by
    obtain ⟨-, rfl⟩ | ⟨-, hg⟩ := move_dir hg
    · exact h.part p g hp hpart
    · exact h.chunk g hg
  part q g _ hg := by
    obtain ⟨hname, -⟩ | ⟨hname, -⟩ := move_dir hg
    · cases hname
    · exact absurd rfl hname
  writing := h.writing
  fresh name g hg := by
    obtain ⟨-, rfl⟩ | ⟨-, hg⟩ := move_dir hg
    · exact h.fresh _ g hpart
    · exact h.fresh name g hg
  open_fresh := h.open_fresh

/-- The rename at the end of a store keeps the invariant. -/
theorem Inv.rename (h : Inv data idx s) {p : ι} (hp : s.procs p ≠ .idle) :
    Inv data idx (s.rename idx) := by
  unfold State.rename
  cases hpart : s.dir (.part idx) with
  | none => exact h
  | some f => exact h.move hp hpart

/-- A store at its beginning continues an empty file. -/
theorem continues_nil {pieces : List Bytes} (h : pieces.flatten = data) :
    Continues data [] 0 pieces :=
  ⟨List.nil_prefix, h.symm, Or.inr (Nat.zero_le _)⟩

end Invariant

section Preservation

variable [DecidableEq ι] {data : Bytes} {idx : Nat} {s s' : State ι}

/-- A process that ends leaves the files as they are. -/
theorem Inv.setIdle (h : Inv data idx s) (p : ι) : Inv data idx (s.setProc p .idle) where
  chunk := h.chunk
  part q f hq hf := by
    refine h.part q f (fun hidle => hq ?_) hf
    by_cases hqp : q = p
    · rw [hqp]
      exact Function.update_self _ _ _
    · exact (Function.update_of_ne hqp _ _).trans hidle
  writing q f off pieces hq := by
    obtain ⟨-, hidle⟩ | ⟨-, hq⟩ := procs_setProc hq
    · cases hidle
    · exact h.writing q f off pieces hq
  fresh := h.fresh
  open_fresh q f off pieces hq := by
    obtain ⟨-, hidle⟩ | ⟨-, hq⟩ := procs_setProc hq
    · cases hidle
    · exact h.open_fresh q f off pieces hq

/-- A calm truncation leaves a gap in nobody's write. -/
theorem Inv.truncate (h : Inv data idx s) {f : Nat} (hpart : s.dir (.part idx) = some f)
    (hcalm : ∀ q off pieces, s.procs q = .writing f off pieces → off = 0 ∨ pieces = []) {p : ι}
    {pieces : List Bytes} (hpieces : pieces.flatten = data) :
    Inv data idx ((s.setFile f []).setProc p (.writing f 0 pieces)) where
  chunk g hg := setFile_isPrefix List.nil_prefix (h.chunk g hg)
  part q g _ hg := by
    obtain rfl : f = g := Option.some.inj (hpart.symm.trans hg)
    rw [setProc_files, setFile_self]
    exact List.nil_prefix
  writing q g off rest hq := by
    rw [setProc_files]
    obtain ⟨-, hproc⟩ | ⟨-, hq⟩ := procs_setProc hq
    · obtain ⟨rfl, rfl, rfl⟩ := Proc.writing.inj hproc
      rw [setFile_self]
      exact continues_nil hpieces
    · have hcont := h.writing q g off rest hq
      refine ⟨setFile_isPrefix List.nil_prefix hcont.isPrefix, hcont.rest, ?_⟩
      by_cases hg : g = f
      · subst hg
        rcases hcalm q off rest hq with rfl | rfl
        · exact Or.inr (Nat.zero_le _)
        · exact Or.inl rfl
      · rw [setFile_ne hg]
        exact hcont.noGap
  fresh := h.fresh
  open_fresh q g off rest hq := by
    obtain ⟨-, hproc⟩ | ⟨-, hq⟩ := procs_setProc hq
    · obtain ⟨rfl, -, -⟩ := Proc.writing.inj hproc
      exact h.fresh _ _ hpart
    · exact h.open_fresh q g off rest hq

/-- A new file is nobody else's. -/
theorem Inv.newFile (h : Inv data idx s) {p : ι} {pieces : List Bytes}
    (hpieces : pieces.flatten = data) :
    Inv data idx ((s.newFile (.part idx)).setProc p (.writing s.next 0 pieces)) where
  chunk g hg := by
    rw [setProc_dir] at hg
    obtain ⟨hname, -⟩ | hg := newFile_dir hg
    · cases hname
    · exact setFile_isPrefix List.nil_prefix (h.chunk g hg)
  part q g _ hg := by
    change Function.update s.dir (.part idx) (some s.next) (.part idx) = some g at hg
    rw [Function.update_self] at hg
    obtain rfl := Option.some.inj hg
    rw [setProc_files, newFile_files, setFile_self]
    exact List.nil_prefix
  writing q g off rest hq := by
    rw [setProc_files, newFile_files]
    obtain ⟨-, hproc⟩ | ⟨-, hq⟩ := procs_setProc hq
    · obtain ⟨rfl, rfl, rfl⟩ := Proc.writing.inj hproc
      rw [setFile_self]
      exact continues_nil hpieces
    · have hlt := h.open_fresh q g off rest hq
      rw [setFile_ne (Nat.ne_of_lt hlt)]
      exact h.writing q g off rest hq
  fresh name g hg := by
    rw [setProc_dir] at hg
    obtain ⟨-, rfl⟩ | hg := newFile_dir hg
    · exact Nat.lt_succ_self _
    · exact Nat.lt_succ_of_lt (h.fresh name g hg)
  open_fresh q g off rest hq := by
    obtain ⟨-, hproc⟩ | ⟨-, hq⟩ := procs_setProc hq
    · obtain ⟨rfl, -, -⟩ := Proc.writing.inj hproc
      exact Nat.lt_succ_self _
    · exact Nat.lt_succ_of_lt (h.open_fresh q g off rest hq)

/-- A piece goes where the file has the data in front of it. -/
theorem Inv.write (h : Inv data idx s) {p : ι} {f off : Nat} {piece : Bytes} {rest : List Bytes}
    (hp : s.procs p = .writing f off (piece :: rest)) :
    Inv data idx ((s.setFile f (writeAt (s.files f) off piece)).setProc p
      (.writing f (off + piece.length) rest)) := by
  have hcont := h.writing p f off (piece :: rest) hp
  have hoff : off ≤ (s.files f).length := hcont.noGap.resolve_left (List.cons_ne_nil _ _)
  have hdata : data.drop off = piece ++ rest.flatten := by
    rw [hcont.rest, List.flatten_cons]
  have hpre := writeAt_prefix hcont.isPrefix hoff hdata
  have hlen := length_writeAt piece hoff
  have hbusy : s.procs p ≠ .idle := by
    rw [hp]
    exact Proc.noConfusion
  refine ⟨fun g hg => setFile_isPrefix hpre (h.chunk g hg),
    fun q g _ hg => setFile_isPrefix hpre (h.part p g hbusy hg), ?_, h.fresh, ?_⟩
  · intro q g o ps hq
    rw [setProc_files]
    obtain ⟨-, hproc⟩ | ⟨-, hq⟩ := procs_setProc hq
    · obtain ⟨rfl, rfl, rfl⟩ := Proc.writing.inj hproc
      rw [setFile_self]
      refine ⟨hpre, ?_, Or.inr (by rw [hlen]; exact Nat.le_max_right _ _)⟩
      rw [← List.drop_drop, hdata, List.drop_left]
    · have hother := h.writing q g o ps hq
      refine ⟨setFile_isPrefix hpre hother.isPrefix, hother.rest,
        hother.noGap.imp_right fun hle => ?_⟩
      by_cases hgf : g = f
      · subst hgf
        rw [setFile_self, hlen]
        exact Nat.le_trans hle (Nat.le_max_left _ _)
      · rwa [setFile_ne hgf]
  · intro q g o ps hq
    obtain ⟨-, hproc⟩ | ⟨-, hq⟩ := procs_setProc hq
    · obtain ⟨rfl, -, -⟩ := Proc.writing.inj hproc
      exact h.open_fresh p _ _ _ hp
    · exact h.open_fresh q g o ps hq

/-- A calm step keeps the invariant. -/
theorem Inv.step (h : Inv data idx s) {act : Act ι} (hcalm : Calm idx s act)
    (hstep : step data idx s act = some s') : Inv data idx s' := by
  cases act with
  | create p pieces =>
    simp only [Race.step] at hstep
    split at hstep
    · cases hstep
    · obtain ⟨⟨hpieces, -⟩, hs⟩ := Option.ite_none_right_eq_some.mp hstep
      obtain rfl := Option.some.inj hs
      unfold State.create
      cases hpart : s.dir (.part idx) with
      | some f => exact h.truncate hpart (hcalm f hpart) hpieces
      | none => exact h.newFile hpieces
  | write p =>
    simp only [Race.step] at hstep
    split at hstep
    · rename_i f off piece rest hp
      cases hstep
      exact h.write hp
    · cases hstep
  | rename p =>
    simp only [Race.step] at hstep
    split at hstep
    · rename_i f off hp
      cases hstep
      exact (h.rename (p := p) (by rw [hp]; exact Proc.noConfusion)).setIdle p
    · cases hstep
  | stop p =>
    simp only [Race.step] at hstep
    split at hstep
    · cases hstep
      exact h.setIdle p
    · cases hstep

/-- A calm run keeps the invariant. -/
theorem Inv.exec (h : Inv data idx s) {acts : List (Act ι)} (hcalm : CalmRun data idx s acts)
    (hexec : exec data idx s acts = some s') : Inv data idx s' := by
  induction acts generalizing s with
  | nil =>
    cases hexec
    exact h
  | cons act acts ih =>
    obtain ⟨mid, hstep, hrest⟩ := Option.bind_eq_some_iff.mp hexec
    exact ih (h.step hcalm.1 hstep) (hcalm.2 mid hstep) hrest

/-- In every run that truncates no file in the middle of a write, a reader gets the chunk or
nothing. -/
theorem load_calm (hinit : Initial data idx s) {acts : List (Act ι)}
    (hcalm : CalmRun data idx s acts) (hexec : exec data idx s acts = some s') :
    load s'.view idx data.length = none ∨ load s'.view idx data.length = some data :=
  (hinit.inv.exec hcalm hexec).load_exact

/-- An empty cache directory that two processes share. -/
def emptyCache : State Bool := ⟨fun _ => [], 0, fun _ => none, fun _ => .idle⟩

private theorem emptyCache_initial (data : Bytes) (idx : Nat) : Initial data idx emptyCache :=
  ⟨fun _ => rfl, fun _ h => (nomatch h), fun _ _ h => (nomatch h)⟩

/-- The second store begins between the last write of the first one and its rename. -/
def turns : List (Act Bool) :=
  [.create false [[1], [2]], .write false, .write false, .create true [[1, 2]], .rename false,
    .write true]

/-- None of the two truncates the file in the middle of a write. -/
private theorem turns_calm : CalmRun [1, 2] 0 emptyCache turns := by
  refine ⟨fun f hf => (nomatch hf), fun _ h => ?_⟩
  obtain rfl := Option.some.inj h
  refine ⟨trivial, fun _ h => ?_⟩
  obtain rfl := Option.some.inj h
  refine ⟨trivial, fun _ h => ?_⟩
  obtain rfl := Option.some.inj h
  refine ⟨fun f hf q off pieces hq => ?_, fun _ h => ?_⟩
  · cases q with
    | false => exact Or.inr (Proc.writing.inj hq).2.2.symm
    | true => cases hq
  obtain rfl := Option.some.inj h
  refine ⟨trivial, fun _ h => ?_⟩
  obtain rfl := Option.some.inj h
  exact ⟨trivial, fun _ _ => trivial⟩

/-- Two processes that store the chunk in turns. -/
theorem load_calm_turns :
    ∃ s', exec [1, 2] 0 emptyCache turns = some s' ∧
      (load s'.view 0 2 = none ∨ load s'.view 0 2 = some [1, 2]) :=
  ⟨_, rfl, load_calm (emptyCache_initial _ 0) turns_calm rfl⟩

/-- The second store begins in the middle of the first one's writes: the chunk has a zero
where its first byte was. -/
theorem interleaved_stores_differ :
    ¬ ∀ (data : Bytes) (idx : Nat) (s s' : State Bool) (acts : List (Act Bool)),
      Initial data idx s → exec data idx s acts = some s' →
        load s'.view idx data.length = none ∨ load s'.view idx data.length = some data := by
  intro h
  have hrun := h [1, 2] 0 emptyCache _ [.create false [[1], [2]], .write false,
    .create true [[1], [2]], .write false, .rename false] (emptyCache_initial _ _) rfl
  revert hrun
  decide

end Preservation

section Sequential

variable {data : Bytes} {idx : Nat} {s : State ι} {p : ι}

/-- What `File::create` does to the directory: the name has an empty file that no other
name has. -/
theorem create_spec (hfresh : ∀ name f, s.dir name = some f → f < s.next)
    (hone : ∀ name f, s.dir (.part idx) = some f → s.dir name = some f → name = .part idx) :
    (s.create idx).2.files (s.create idx).1 = [] ∧
      (s.create idx).2.dir (.part idx) = some (s.create idx).1 ∧
      ∀ name, name ≠ .part idx → (s.create idx).2.dir name = s.dir name ∧
        ∀ f, s.dir name = some f →
          f ≠ (s.create idx).1 ∧ (s.create idx).2.files f = s.files f := by
  unfold State.create
  cases hpart : s.dir (.part idx) with
  | some g =>
    refine ⟨Function.update_self _ _ _, hpart, fun name hname => ⟨rfl, fun f hf => ?_⟩⟩
    have hne : f ≠ g := fun h => hname (hone name g hpart (h ▸ hf))
    exact ⟨hne, Function.update_of_ne hne _ _⟩
  | none =>
    refine ⟨Function.update_self _ _ _, Function.update_self _ _ _,
      fun name hname => ⟨Function.update_of_ne hname _ _, fun f hf => ?_⟩⟩
    have hne : f ≠ s.next := Nat.ne_of_lt (hfresh name f hf)
    exact ⟨hne, Function.update_of_ne hne _ _⟩

variable [DecidableEq ι]

/-- The writes of a store nobody interferes with append its pieces. -/
theorem exec_writes {f : Nat} {pieces : List Bytes} {content : Bytes}
    (hp : s.procs p = .writing f content.length pieces) (hf : s.files f = content)
    (acts : List (Act ι)) :
    ∃ s', exec data idx s (List.replicate pieces.length (.write p) ++ acts) =
        exec data idx s' acts ∧ s'.dir = s.dir ∧
      s'.files = Function.update s.files f (content ++ pieces.flatten) ∧
      ∃ off, s'.procs p = .writing f off [] := by
  induction pieces generalizing s content with
  | nil =>
    refine ⟨s, rfl, rfl, ?_, _, hp⟩
    rw [List.flatten_nil, List.append_nil, ← hf, Function.update_eq_self]
  | cons piece rest ih =>
    have hwrite : writeAt (s.files f) content.length piece = content ++ piece := by
      rw [hf, writeAt_eq piece (Nat.le_refl _), List.take_length,
        List.drop_eq_nil_of_le (Nat.le_add_right _ _), List.append_nil]
    have hstep : step data idx s (.write p) = some ((s.setFile f (content ++ piece)).setProc p
        (.writing f (content ++ piece).length rest)) := by
      simp only [step, hp, hwrite, List.length_append]
    obtain ⟨s', hexec, hdir, hfiles, hprocs⟩ :=
      ih (s := (s.setFile f (content ++ piece)).setProc p
        (.writing f (content ++ piece).length rest)) (Function.update_self _ _ _)
        (Function.update_self _ _ _)
    refine ⟨s', ?_, hdir, ?_, hprocs⟩
    · rw [List.length_cons, List.replicate_succ, List.cons_append, exec, hstep, Option.bind_some,
        hexec]
    · rw [hfiles, List.flatten_cons, ← List.append_assoc]
      exact Function.update_idem _ _ _

/-- A store that runs alone does what the reader's cache directory says of a store. -/
theorem store_alone (hidle : s.procs p = .idle)
    (hfresh : ∀ name f, s.dir name = some f → f < s.next)
    (hone : ∀ name f, s.dir (.part idx) = some f → s.dir name = some f → name = .part idx)
    {pieces : List Bytes} (hpieces : pieces.flatten = data) (hne : [] ∉ pieces) :
    ∃ s', exec data idx s (.create p pieces ::
        (List.replicate pieces.length (.write p) ++ [.rename p])) = some s' ∧
      s'.view = diskAfter s.view idx data .done := by
  obtain ⟨hempty, hpart, hother⟩ := create_spec hfresh hone
  have hstep : step data idx s (.create p pieces) =
      some ((s.create idx).2.setProc p (.writing (s.create idx).1 0 pieces)) := by
    simp only [step, hidle, hpieces, hne, not_false_eq_true, and_self, if_true]
  have hbegin : ((s.create idx).2.setProc p (.writing (s.create idx).1 0 pieces)).procs p =
      .writing (s.create idx).1 ([] : Bytes).length pieces := Function.update_self _ _ _
  obtain ⟨mid, hexec, hdir, hfiles, off, hproc⟩ := exec_writes hbegin hempty [.rename p]
  have hmid : mid.dir (.part idx) = some (s.create idx).1 := (congrFun hdir _).trans hpart
  have hrename : mid.rename idx = mid.move (.part idx) (.chunk idx) (s.create idx).1 := by
    simp only [State.rename, hmid]
  refine ⟨(mid.rename idx).setProc p .idle, ?_, ?_⟩
  · rw [exec, hstep, Option.bind_some, hexec]
    simp only [exec, step, hproc, Option.bind_some]
  · rw [hrename]
    funext name
    change (Function.update (Function.update mid.dir _ none) _ _ name).map mid.files =
      Function.update (Function.update s.view _ none) _ _ name
    by_cases hchunk : name = .chunk idx
    · rw [hchunk, Function.update_self, Function.update_self, Option.map_some, hfiles,
        Function.update_self, List.nil_append, hpieces]
    · rw [Function.update_of_ne hchunk, Function.update_of_ne hchunk]
      by_cases hname : name = .part idx
      · rw [hname, Function.update_self, Function.update_self, Option.map_none]
      · rw [Function.update_of_ne hname, Function.update_of_ne hname]
        obtain ⟨hsame, hcontent⟩ := hother name hname
        unfold State.view
        rw [hdir, setProc_dir, hsame, hfiles]
        cases hf : s.dir name with
        | none => rfl
        | some f =>
          obtain ⟨hne', hkeep⟩ := hcontent f hf
          rw [Option.map_some, Option.map_some, Function.update_of_ne hne']
          exact congrArg some hkeep

end Sequential

end BootExtractor.Remote.Race
