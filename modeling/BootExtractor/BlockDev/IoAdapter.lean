import BootExtractor.BlockDev
import BootExtractor.Lib.Cursor

/-!
# Devices as streams

The FAT driver reads a device as a stream: it reads, seeks and would write at a position.
The adapter does what a cursor over the bytes of the device does, whatever is called in
whatever order, and a read that the device fails is the only difference between the two.
-/

namespace BootExtractor

open Cursor

/-- A `ReadAt` in use: bytes that never change, and reads that yield them or fail. What a
read answers may depend on the caches and connections below, the state of type `σ`. -/
structure Medium (σ : Type) where
  content : Bytes
  readAt : σ → Nat → Nat → Except Error Bytes × σ
  size_lt : content.length < 2 ^ 64
  readAt_ok : ∀ s offset len b, offset + len ≤ content.length →
    (readAt s offset len).1 = .ok b → b = Bytes.slice content offset len

/-- `ReadAt::size`. -/
def Medium.size {σ : Type} (dev : Medium σ) : Nat := dev.content.length

/-- `u64::checked_add_signed`. -/
def checkedAddSigned (a : Nat) (d : Int) : Option Nat :=
  if 0 ≤ (a : Int) + d ∧ (a : Int) + d < (2 ^ 64 : Nat) then some ((a : Int) + d).toNat else none

namespace IoAdapter

/-- The kinds of `io::Error` that the adapter makes. -/
inductive ErrorKind where
  | other
  | invalidInput
  | permissionDenied
  deriving DecidableEq, Repr

/-- `io::Error`. -/
structure IoError where
  kind : ErrorKind
  message : Str
  deriving DecidableEq, Repr

/-- `io::SeekFrom`. -/
inductive SeekFrom where
  | start (offset : UInt64)
  | fromEnd (delta : Int64)
  | current (delta : Int64)
  deriving DecidableEq

/-- A call of the stream. A read is called with a buffer of `len` bytes. -/
inductive Call where
  | read (len : Nat)
  | seek (pos : SeekFrom)
  | write (buf : Bytes)
  | flush
  deriving DecidableEq

/-- What a call returns. A read returns the bytes it has put into the buffer. -/
inductive Reply where
  | read (b : Bytes)
  | position (pos : Nat)
  | flushed
  | error (e : IoError)
  deriving DecidableEq, Repr

end IoAdapter

/-- The adapter between two calls: the state of the device, and the position. -/
structure IoAdapter (σ : Type) where
  inner : σ
  pos : Nat

namespace IoAdapter

variable {σ : Type}

/-- `IoAdapter::new`. -/
def new (inner : σ) : IoAdapter σ := ⟨inner, 0⟩

/-- `Read::read`. The new position is a checked sum. -/
def read (dev : Medium σ) (a : IoAdapter σ) (len : Nat) : Except Fault (Reply × IoAdapter σ) :=
  let remaining := dev.size - a.pos
  let n := min len remaining
  if n = 0 then .ok (.read [], a)
  else
    match dev.readAt a.inner a.pos n with
    | (.error e, inner) => .ok (.error ⟨.other, e.display⟩, { a with inner := inner })
    | (.ok b, inner) =>
      match checkedAdd a.pos n with
      | none => .error .panic
      | some pos => .ok (.read b, ⟨inner, pos⟩)

/-- `Seek::seek`. -/
def seek (dev : Medium σ) (a : IoAdapter σ) (pos : SeekFrom) : Reply × IoAdapter σ :=
  let new :=
    match pos with
    | .start o => some o.toNat
    | .fromEnd d => checkedAddSigned dev.size d.toInt
    | .current d => checkedAddSigned a.pos d.toInt
  match new with
  | some p => (.position p, { a with pos := p })
  | none => (.error ⟨.invalidInput, "seek before start".toList⟩, a)

/-- `Write::write`. -/
def write (a : IoAdapter σ) (_buf : Bytes) : Reply × IoAdapter σ :=
  (.error ⟨.permissionDenied, "device is read-only".toList⟩, a)

/-- One call. -/
def step (dev : Medium σ) (a : IoAdapter σ) : Call → Except Fault (Reply × IoAdapter σ)
  | .read len => a.read dev len
  | .seek pos => .ok (a.seek dev pos)
  | .write buf => .ok (a.write buf)
  | .flush => .ok (.flushed, a)

/-- Calls one after the other. -/
def run (dev : Medium σ) (a : IoAdapter σ) : List Call → Except Fault (List Reply × IoAdapter σ)
  | [] => .ok ([], a)
  | call :: calls =>
    match a.step dev call with
    | .error f => .error f
    | .ok (reply, next) =>
      match run dev next calls with
      | .error f => .error f
      | .ok (replies, final) => .ok (reply :: replies, final)

section Simulation

variable (dev : Medium σ)

/-- The error of the device read that a call makes, if it makes one and that fails. -/
def faultOf (a : IoAdapter σ) : Call → Option Error
  | .read len =>
    if min len (dev.size - a.pos) = 0 then none
    else
      match (dev.readAt a.inner a.pos (min len (dev.size - a.pos))).1 with
      | .error e => some e
      | .ok _ => none
  | .seek _ | .write _ | .flush => none

/-- The device failures of a sequence of calls, call by call. -/
def faults (a : IoAdapter σ) : List Call → List (Option Error)
  | [] => []
  | call :: calls =>
    a.faultOf dev call ::
      match a.step dev call with
      | .error _ => []
      | .ok (_, next) => faults next calls

/-- Where a seek wants to go, for the cursor over the same bytes. -/
def SeekFrom.target : SeekFrom → Target
  | .start o => .start o.toNat
  | .fromEnd d => .fromEnd d.toInt
  | .current d => .current d.toInt

/-- A call as an operation of a cursor. -/
def Call.op : Call → Op
  | .read len => .read len
  | .seek pos => .seek pos.target
  | .write _ => .write
  | .flush => .flush

/-- How an outcome of the cursor is reported. -/
def reply : Outcome UInt8 Error → Reply
  | .items b => .read b
  | .moved pos => .position pos
  | .flushed => .flushed
  | .outOfRange => .error ⟨.invalidInput, "seek before start".toList⟩
  | .refused => .error ⟨.permissionDenied, "device is read-only".toList⟩
  | .faulted e => .error ⟨.other, e.display⟩

/-- A reply is an error exactly if the cursor's answer is one. -/
theorem reply_error_iff (o : Outcome UInt8 Error) : (∃ e, reply o = .error e) ↔ o.Failed := by
  cases o <;> simp [reply, Outcome.Failed]

/-- The position of a seek is the one that the cursor reaches. -/
theorem seek_cursor (a : IoAdapter σ) (pos : SeekFrom) (fault : Option Error) :
    (a.seek dev pos).1 =
        reply (Cursor.step dev.content (2 ^ 64) fault a.pos (.seek pos.target)).1 ∧
      (a.seek dev pos).2.pos =
        (Cursor.step dev.content (2 ^ 64) fault a.pos (.seek pos.target)).2 := by
  have hreach : (match pos with
      | .start o => some o.toNat
      | .fromEnd d => checkedAddSigned dev.size d.toInt
      | .current d => checkedAddSigned a.pos d.toInt) =
      pos.target.reach dev.content (2 ^ 64) a.pos := by
    cases pos with
    | start o => exact (Target.reach_start dev.content a.pos o.toNat_lt).symm
    | fromEnd d => rfl
    | current d => rfl
  unfold seek
  rw [hreach]
  cases hnew : pos.target.reach dev.content (2 ^ 64) a.pos with
  | some next =>
    rw [step_seek hnew]
    exact ⟨rfl, rfl⟩
  | none =>
    rw [step_seek_none hnew]
    exact ⟨rfl, rfl⟩

/-- A read takes what the cursor takes, and the sum of its position does not overflow. -/
theorem read_cursor (a : IoAdapter σ) (len : Nat) :
    ∃ next, a.read dev len =
        .ok (reply (Cursor.step dev.content (2 ^ 64) (a.faultOf dev (.read len)) a.pos
          (.read len)).1, next) ∧
      next.pos = (Cursor.step dev.content (2 ^ 64) (a.faultOf dev (.read len)) a.pos
        (.read len)).2 := by
  have hlen : (taken dev.content a.pos len).length = min len (dev.size - a.pos) :=
    length_taken dev.content a.pos len
  have hslice : Bytes.slice dev.content a.pos (min len (dev.size - a.pos)) =
      taken dev.content a.pos len :=
    taken_min dev.content a.pos len
  by_cases hzero : min len (dev.size - a.pos) = 0
  · rw [step_read_nil (taken_eq_nil_iff.mpr hzero)]
    exact ⟨a, if_pos hzero, rfl⟩
  · have hne : taken dev.content a.pos len ≠ [] := mt taken_eq_nil_iff.mp hzero
    have hend : a.pos + min len (dev.size - a.pos) ≤ dev.content.length :=
      hlen ▸ add_length_taken hne
    have hsum : checkedAdd a.pos (min len (dev.size - a.pos)) =
        some (a.pos + min len (dev.size - a.pos)) :=
      if_pos (Nat.lt_of_le_of_lt hend dev.size_lt)
    simp only [read, faultOf, if_neg hzero]
    cases hread : dev.readAt a.inner a.pos (min len (dev.size - a.pos)) with
    | mk answer inner =>
      cases answer with
      | error e =>
        simp only
        rw [step_read_fault hne]
        exact ⟨_, rfl, rfl⟩
      | ok b =>
        have hb := dev.readAt_ok a.inner a.pos _ b hend (congrArg Prod.fst hread)
        simp only [hsum]
        rw [step_read hne, hb, hslice, hlen]
        exact ⟨_, rfl, rfl⟩

/-- A call does what the operation of the cursor does. -/
theorem step_cursor (a : IoAdapter σ) (call : Call) :
    ∃ next, a.step dev call =
        .ok (reply (Cursor.step dev.content (2 ^ 64) (a.faultOf dev call) a.pos call.op).1, next) ∧
      next.pos = (Cursor.step dev.content (2 ^ 64) (a.faultOf dev call) a.pos call.op).2 := by
  cases call with
  | read len => exact read_cursor dev a len
  | seek pos =>
    obtain ⟨hreply, hpos⟩ := seek_cursor dev a pos (a.faultOf dev (.seek pos))
    exact ⟨_, congrArg (fun r => Except.ok (r, (a.seek dev pos).2)) hreply, hpos⟩
  | write buf => exact ⟨a, rfl, rfl⟩
  | flush => exact ⟨a, rfl, rfl⟩

/-- And so do any calls, in any order. -/
theorem run_cursor (a : IoAdapter σ) (calls : List Call) :
    ∃ final, a.run dev calls =
        .ok ((Cursor.run dev.content (2 ^ 64) a.pos
          ((calls.map Call.op).zip (a.faults dev calls))).1.map reply, final) ∧
      final.pos = (Cursor.run dev.content (2 ^ 64) a.pos
        ((calls.map Call.op).zip (a.faults dev calls))).2 := by
  induction calls generalizing a with
  | nil => exact ⟨a, rfl, rfl⟩
  | cons call calls ih =>
    obtain ⟨next, hstep, hpos⟩ := step_cursor dev a call
    obtain ⟨final, hrun, hfinal⟩ := ih next
    rw [hpos] at hrun hfinal
    simp only [run, faults, hstep, hrun]
    exact ⟨final, rfl, hfinal⟩

/-- One fault, or none, for each of the calls. -/
theorem length_faults (a : IoAdapter σ) (calls : List Call) :
    (a.faults dev calls).length = calls.length := by
  induction calls generalizing a with
  | nil => rfl
  | cons call calls ih =>
    obtain ⟨next, hstep, -⟩ := step_cursor dev a call
    simp only [faults, hstep, List.length_cons, ih next]

/-- A device that answers every read within its bounds has no failures. -/
theorem faults_answered
    (h : ∀ s offset len, offset + len ≤ dev.size → ∃ b, (dev.readAt s offset len).1 = .ok b)
    (a : IoAdapter σ) (calls : List Call) : a.faults dev calls = calls.map fun _ => none := by
  have hnone : ∀ (a : IoAdapter σ) (call : Call), a.faultOf dev call = none := by
    intro a call
    cases call with
    | read len =>
      rw [faultOf]
      split
      · rfl
      · obtain ⟨b, hb⟩ := h a.inner a.pos (min len (dev.size - a.pos)) (by omega)
        rw [hb]
    | seek pos => rfl
    | write buf => rfl
    | flush => rfl
  induction calls generalizing a with
  | nil => rfl
  | cons call calls ih =>
    obtain ⟨next, hstep, -⟩ := step_cursor dev a call
    simp only [faults, hstep, hnone, ih next, List.map_cons]

/-- A call that fails leaves the position where it was. -/
theorem step_error {a next : IoAdapter σ} {call : Call} {e : IoError}
    (h : a.step dev call = .ok (.error e, next)) : next.pos = a.pos := by
  obtain ⟨next', hstep, hpos⟩ := step_cursor dev a call
  obtain ⟨hreply, rfl⟩ := Prod.mk.inj (Except.ok.inj (hstep.symm.trans h))
  rw [hpos]
  exact step_failed ((reply_error_iff _).mp ⟨e, hreply⟩)

/-- Any calls of a new adapter return what a cursor over the bytes of the device does, with
the failures of the device as its faults, and none of them overflows the position. With a
device that answers there are no faults, and wherever a call fails, the position stays. -/
theorem run_simulates_cursor (inner : σ) (calls : List Call) :
    ((new inner).faults dev calls).length = calls.length ∧
    (∃ final, (new inner).run dev calls =
        .ok ((Cursor.run dev.content (2 ^ 64) 0
          ((calls.map Call.op).zip ((new inner).faults dev calls))).1.map reply, final) ∧
      final.pos = (Cursor.run dev.content (2 ^ 64) 0
        ((calls.map Call.op).zip ((new inner).faults dev calls))).2 ∧
      final.pos < 2 ^ 64) ∧
    ((∀ s offset len, offset + len ≤ dev.size → ∃ b, (dev.readAt s offset len).1 = .ok b) →
      (new inner).faults dev calls = calls.map fun _ => none) ∧
    ∀ (a next : IoAdapter σ) (call : Call) (e : IoError),
      a.step dev call = .ok (.error e, next) → next.pos = a.pos := by
  obtain ⟨final, hrun, hfinal⟩ := run_cursor dev (new inner) calls
  have hlt : final.pos < 2 ^ 64 :=
    hfinal ▸ run_lt dev.size_lt (show (0 : Nat) < 2 ^ 64 by decide) _
  exact ⟨length_faults dev _ calls, ⟨final, hrun, hfinal, hlt⟩,
    fun h => faults_answered dev h _ calls, fun _ _ _ _ h => step_error dev h⟩

end Simulation

private theorem threeBytes_size_lt : ([1, 2, 3] : Bytes).length < 2 ^ 64 := by decide

/-- A device of three bytes that never fails. -/
def threeBytes : Medium Unit where
  content := [1, 2, 3]
  readAt _ offset len := (.ok (Bytes.slice [1, 2, 3] offset len), ())
  size_lt := threeBytes_size_lt
  readAt_ok _ _ _ _ _ h := (Except.ok.inj h).symm

example : ((new ()).run threeBytes
      [.read 2, .seek (.fromEnd 1), .read 1, .seek (.current (-5)), .seek (.current (-2)), .read 9,
        .write [0]]).map (fun done => (done.1, done.2.pos)) =
    .ok ([.read [1, 2], .position 4, .read [],
      .error ⟨.invalidInput, "seek before start".toList⟩, .position 2, .read [3],
      .error ⟨.permissionDenied, "device is read-only".toList⟩], 3) := by
  decide +kernel

end IoAdapter

end BootExtractor
