import BootExtractor.BlockDev.IoAdapter
import BootExtractor.Disk.Transparency
import BootExtractor.Part.Table

/-!
# Drivers over a chain of images

A partition of a chain is a window, and a driver reads it through the adapter, over caches
that every read changes. What the driver sees is a cursor over bytes that stay as they are,
up to the first failure that a layer below has recorded.
-/

namespace BootExtractor.Disk

open Effect Bytes
open DiskImage (mixedOverlay mixedOverlay_unambiguous repeatInflater)

/-- The answer of a call whose faults are all errors that a caller sees. -/
def answered {α : Type} (r : Except Fault α) (h : ∀ f, r = .error f → f.IsErr) : Except Error α :=
  match r, h with
  | .ok a, _ => .ok a
  | .error (.err e), _ => .error e
  | .error .panic, h => (h _ rfl).elim
  | .error .spin, h => (h _ rfl).elim

private theorem answered_ok {α : Type} {r : Except Fault α} {h : ∀ f, r = .error f → f.IsErr}
    {a : α} :
    answered r h = .ok a ↔ r = .ok a := by
  cases r with
  | ok b => simp [answered]
  | error f =>
    cases f with
    | err e => simp [answered]
    | panic => exact (h _ rfl).elim
    | spin => exact (h _ rfl).elim

private theorem liftError_answered {α : Type} (r : Except Fault α)
    (h : ∀ f, r = .error f → f.IsErr) :
    liftError (answered r h) = r := by
  cases r with
  | ok b => rfl
  | error f =>
    cases f with
    | err e => rfl
    | panic => exact (h _ rfl).elim
    | spin => exact (h _ rfl).elim

/-- A failure stays on record. -/
theorem FailedSince.follows {layer : Nat} {s t u : Session} (h : FailedSince s t)
    (k : Follows layer t u) : FailedSince s u := by
  obtain ⟨first, hfirst, e, he, hf⟩ := h
  obtain ⟨second, hsecond⟩ := k.log
  exact ⟨first ++ second, by rw [← hsecond, hfirst, List.append_assoc], e,
    List.mem_append_left _ he, hf⟩

namespace DiskImage

variable {z : Inflater} {img : DiskImage}

private theorem step_isErr (hu : img.Unambiguous) {s : Session} (hs : img.CachesTrue z 0 s)
    (r : Nat × Nat) {f : Fault} (h : (img.step z s r).1 = .error f) : f.IsErr := by
  have hspec := yields_iff.mp (readAt_spec hu hs r.1 r.2)
  simp only [step] at h
  rw [h] at hspec
  exact hspec.2.1

/-- The device that a chain is to the layers above it: it answers as a chain that was just
opened. -/
def device (z : Inflater) (img : DiskImage) (hu : img.Unambiguous) (hsize : img.size < 2 ^ 64) :
    Device where
  size := img.size
  readAt offset len := answered (img.step z .fresh (offset, len)).1 fun _ =>
    step_isErr hu (cachesTrue_fresh img 0) (offset, len)
  size_lt := hsize
  length_readAt _ _ _ h :=
    (shows_of_ok hu (cachesTrue_fresh img 0) (answered_ok.mp h)).1

/-- The read of a window of `len` bytes from `start` on over a chain in use. -/
def windowRead (z : Inflater) (img : DiskImage) (start len : Nat) (s : Session)
    (offset n : Nat) : Except Fault Bytes × Session :=
  match checkBounds len offset n with
  | .error e => (.error (.err e), s)
  | .ok _ => img.step z s (wrappingAdd start offset, n)

private theorem windowRead_eq {start len offset n : Nat} (s : Session) (h : offset + n ≤ len)
    (hend : start + len < 2 ^ 64) :
    windowRead z img start len s offset n = img.step z s (start + offset, n) := by
  have hsum : wrappingAdd start offset = start + offset := Nat.mod_eq_of_lt (by omega)
  rw [windowRead, checkBounds_eq (by omega), if_pos h, hsum]

/-- A read of the window keeps the caches true, and its faults are errors. -/
theorem windowRead_keeps (hu : img.Unambiguous) (start len : Nat) {s : Session}
    (hs : img.CachesTrue z 0 s) (offset n : Nat) :
    img.CachesTrue z 0 (windowRead z img start len s offset n).2 ∧
      ∀ f, (windowRead z img start len s offset n).1 = .error f → f.IsErr := by
  unfold windowRead
  split
  · refine ⟨hs, ?_⟩
    rintro f ⟨⟩
    trivial
  · exact ⟨step_cachesTrue hu hs _, fun f => step_isErr hu hs _⟩

/-- A read inside a chain adds to the log, and one that fails adds a failure. -/
theorem step_follows (hu : img.Unambiguous) {s : Session} (hs : img.CachesTrue z 0 s)
    {offset len : Nat} (hlen : offset + len ≤ img.size) :
    Follows 0 s (img.step z s (offset, len)).2 ∧
      ∀ f, (img.step z s (offset, len)).1 = .error f →
        FailedSince s (img.step z s (offset, len)).2 := by
  have hspec := yields_iff.mp (readAt_truthful (z := z) hu hlen s hs)
  simp only [step]
  split at hspec
  · rename_i a hok
    refine ⟨hspec.1, fun f hf => ?_⟩
    cases hok.symm.trans hf
  · exact ⟨hspec.1.1, fun _ _ => hspec.1.2.2⟩

/-- Over hosts that fail in the same places at any time, no history shows. -/
theorem step_reached (hu : img.Unambiguous) (hsteady : img.Steady) (history : List (Nat × Nat))
    (r : Nat × Nat) : (img.step z (img.reached z history) r).1 = (img.step z .fresh r).1 := by
  have hplace : ∀ n, img.layer? (0 + n) = img.layer? n := fun n => by rw [Nat.zero_add]
  have huniform := readAt_uniform (z := z) hplace hsteady hu.agrees
  have hfresh : Holds img.layer? z .fresh := eachCache_fresh fun q _ _ h => (by cases h)
  have hreached : Holds img.layer? z (img.reached z history) := by
    apply Runs.final_of_step (I := Holds img.layer? z) (G := fun _ _ => True)
    · intro s r hs _
      exact (huniform r.1 r.2).keeps hs
    · exact hfresh
    · exact fun _ _ => trivial
  exact (huniform r.1 r.2).same hreached hfresh

end DiskImage

/-- The sessions of a chain with true caches. -/
abbrev Warm (z : Inflater) (img : DiskImage) := { s : Session // img.CachesTrue z 0 s }

/-- A partition inside a chain. -/
structure Window (img : DiskImage) where
  partition : Part.Partition
  unambiguous : img.Unambiguous
  size_lt : img.size < 2 ^ 64
  inside : partition.startByte + partition.sizeBytes ≤ img.size

namespace Window

variable {img : DiskImage} (w : Window img) (z : Inflater)

/-- The bytes of the partition; one that cannot be read counts as zero. -/
def bytes : Bytes :=
  (List.range w.partition.sizeBytes).map fun i =>
    ((img.view z).byte (w.partition.startByte + i)).getD 0

/-- The session after a history of requests on the chain. -/
def warm (history : List (Nat × Nat)) : Warm z img :=
  ⟨img.reached z history, DiskImage.reached_cachesTrue w.unambiguous history⟩

/-- A read of the partition over a session in use. -/
def readAt (s : Warm z img) (offset n : Nat) : Except Error Bytes × Warm z img :=
  let start := w.partition.startByte
  let len := w.partition.sizeBytes
  have h := DiskImage.windowRead_keeps w.unambiguous start len s.2 offset n
  (answered (img.windowRead z start len s.1 offset n).1 h.2,
    ⟨(img.windowRead z start len s.1 offset n).2, h.1⟩)

private theorem length_bytes : (w.bytes z).length = w.partition.sizeBytes := by
  rw [bytes, List.length_map, List.length_range]

/-- A byte that the guest disk has. -/
theorem getElem?_bytes {i : Nat} {b : UInt8}
    (hb : (img.view z).byte (w.partition.startByte + i) = some b)
    (hi : i < w.partition.sizeBytes) : (w.bytes z)[i]? = some b := by
  rw [bytes, List.getElem?_map, List.getElem?_range hi, Option.map_some, hb]
  rfl

private theorem windowRead_eq (s : Session) {offset n : Nat}
    (h : offset + n ≤ w.partition.sizeBytes) :
    img.windowRead z w.partition.startByte w.partition.sizeBytes s offset n =
      img.step z s (w.partition.startByte + offset, n) :=
  DiskImage.windowRead_eq s h (Nat.lt_of_le_of_lt w.inside w.size_lt)

/-- A read of the window that succeeds gives its bytes. -/
theorem readAt_ok (s : Warm z img) {offset n : Nat} {b : Bytes}
    (h : offset + n ≤ w.partition.sizeBytes) (hb : (w.readAt z s offset n).1 = .ok b) :
    b = slice (w.bytes z) offset n := by
  have hread := answered_ok.mp hb
  rw [windowRead_eq w z s.1 h] at hread
  obtain ⟨hlen, hbyte⟩ := DiskImage.shows_of_ok w.unambiguous s.2 hread
  have hslice : (slice (w.bytes z) offset n).length = n :=
    length_slice_of_le (by rwa [length_bytes])
  apply List.ext_getElem?
  intro i
  by_cases hi : i < n
  · obtain ⟨x, hx⟩ : ∃ x, b[i]? = some x := ⟨_, List.getElem?_eq_getElem (hlen ▸ hi)⟩
    have hguest := (hbyte i hi).symm.trans hx
    rw [Nat.add_assoc] at hguest
    rw [hx, getElem?_slice, if_pos hi, getElem?_bytes w z hguest (by omega)]
  · rw [List.getElem?_eq_none (by omega), List.getElem?_eq_none (by omega)]

/-- The partition as a medium for the adapter. -/
def medium : Medium (Warm z img) where
  content := w.bytes z
  readAt := w.readAt z
  size_lt := w.length_bytes z ▸ w.partition.sizeBytes_lt
  readAt_ok s _ _ _ h := w.readAt_ok z s (w.length_bytes z ▸ h)

/-- A read inside the partition adds to the log, and one that fails adds a failure. -/
theorem readAt_follows (s : Warm z img) {offset n : Nat}
    (h : offset + n ≤ w.partition.sizeBytes) :
    Follows 0 s.1 (w.readAt z s offset n).2.1 ∧
      ∀ e, (w.readAt z s offset n).1 = .error e → FailedSince s.1 (w.readAt z s offset n).2.1 := by
  have hin : w.partition.startByte + offset + n ≤ img.size := by
    have := w.inside
    omega
  obtain ⟨hfollows, hfails⟩ := DiskImage.step_follows w.unambiguous s.2 hin
  have hread := w.windowRead_eq z s.1 h
  have hafter : (w.readAt z s offset n).2.1 =
      (img.step z s.1 (w.partition.startByte + offset, n)).2 := congrArg Prod.snd hread
  have hanswer : liftError (w.readAt z s offset n).1 =
      (img.step z s.1 (w.partition.startByte + offset, n)).1 :=
    (liftError_answered _ _).trans (congrArg Prod.fst hread)
  rw [hafter]
  refine ⟨hfollows, fun e he => hfails (.err e) ?_⟩
  rw [← hanswer, he]
  rfl

open IoAdapter

/-- A call of the adapter adds to the log, and if the device fails it, it adds a failure. -/
theorem call_follows {a next : IoAdapter (Warm z img)} {call : Call} {r : Reply}
    (h : a.step (w.medium z) call = .ok (r, next)) :
    Follows 0 a.inner.1 next.inner.1 ∧
      (a.faultOf (w.medium z) call ≠ none → FailedSince a.inner.1 next.inner.1) := by
  cases call with
  | read len =>
    have hin : a.pos + min len ((w.medium z).size - a.pos) ≤ w.partition.sizeBytes ∨
        min len ((w.medium z).size - a.pos) = 0 := by
      have hsize : (w.medium z).size = w.partition.sizeBytes := w.length_bytes z
      omega
    simp only [step, IoAdapter.read] at h
    simp only [faultOf]
    split at h
    · rename_i hzero
      cases h
      exact ⟨.refl 0 _, fun hne => absurd (if_pos hzero) hne⟩
    · rename_i hpos
      obtain ⟨hfollows, hfails⟩ := w.readAt_follows z a.inner (hin.resolve_right hpos)
      split at h
      · rename_i e inner hread
        cases h
        have hinner : inner = (w.readAt z a.inner a.pos _).2 := (congrArg Prod.snd hread).symm
        rw [hinner]
        exact ⟨hfollows, fun _ => hfails e (congrArg Prod.fst hread)⟩
      · rename_i b inner hread
        split at h
        · cases h
        · cases h
          have hinner : inner = (w.readAt z a.inner a.pos _).2 := (congrArg Prod.snd hread).symm
          rw [hinner, if_neg hpos, hread]
          exact ⟨hfollows, fun hne => absurd rfl hne⟩
  | seek pos =>
    have hinner : (a.seek (w.medium z) pos).2.inner = a.inner := by
      simp only [seek]
      split <;> rfl
    have hnext : (a.seek (w.medium z) pos).2 = next := congrArg Prod.snd (Except.ok.inj h)
    rw [← hnext, hinner]
    exact ⟨.refl 0 _, fun hne => absurd rfl hne⟩
  | write buf =>
    cases h
    exact ⟨.refl 0 _, fun hne => absurd rfl hne⟩
  | flush =>
    cases h
    exact ⟨.refl 0 _, fun hne => absurd rfl hne⟩

/-- Any calls add to the log, and without a failure on it none of them is failed. -/
theorem run_follows {a final : IoAdapter (Warm z img)} {calls : List Call} {replies : List Reply}
    (h : a.run (w.medium z) calls = .ok (replies, final)) :
    Follows 0 a.inner.1 final.inner.1 ∧ (¬FailedSince a.inner.1 final.inner.1 →
      a.faults (w.medium z) calls = calls.map fun _ => none) := by
  induction calls generalizing a replies with
  | nil =>
    cases h
    exact ⟨.refl 0 _, fun _ => rfl⟩
  | cons call calls ih =>
    obtain ⟨next, hstep, -⟩ := step_cursor (w.medium z) a call
    obtain ⟨last, hrun, -⟩ := run_cursor (w.medium z) next calls
    simp only [run, hstep, hrun] at h
    obtain ⟨rfl, rfl⟩ := Prod.mk.inj (Except.ok.inj h)
    obtain ⟨hfollows, hfault⟩ := w.call_follows z hstep
    obtain ⟨hmore, hclean⟩ := ih hrun
    refine ⟨hfollows.trans hmore, fun hnone => ?_⟩
    have hfirst : a.faultOf (w.medium z) call = none := by
      by_contra hne
      exact hnone ((hfault hne).follows hmore)
    have hlater : ¬FailedSince next.inner.1 last.inner.1 := fun hfail =>
      hnone (hfollows.failedSince hfail)
    simp only [faults, hstep, hfirst, hclean hlater, List.map_cons]

/-- A driver over a partition of a chain in use never meets a panic, and unless a layer below
has recorded a failure, all its calls return what a cursor over the partition's bytes does. -/
theorem stream_is_cursor (history : List (Nat × Nat)) (calls : List Call) :
    ∃ replies final, (new (w.warm z history)).run (w.medium z) calls = .ok (replies, final) ∧
      (¬FailedSince (img.reached z history) final.inner.1 →
        replies = (Cursor.run (w.bytes z) (2 ^ 64) 0
          (calls.map fun call => (call.op, (none : Option Error)))).1.map reply) := by
  obtain ⟨final, hrun, -⟩ := run_cursor (w.medium z) (new (w.warm z history)) calls
  refine ⟨_, final, hrun, fun hclean => ?_⟩
  have hfaults := (w.run_follows z hrun).2 hclean
  rw [hfaults, List.zip_map']
  rfl

/-- The end of a zero cluster and the beginning of a compressed one, as a partition. -/
def fourBytes : Window mixedOverlay where
  partition := ⟨1, 1534, 4, [], [], none, true, none, by decide⟩
  unambiguous := mixedOverlay_unambiguous
  size_lt := by decide
  inside := by decide

/-- A driver seeks back from the end and reads over it, while the compressed cluster is in the
cache. -/
theorem stream_is_cursor_four_bytes :
    ∃ replies final, (new (fourBytes.warm repeatInflater [(2048, 1)])).run
        (fourBytes.medium repeatInflater) [.seek (.fromEnd (-3)), .read 8, .read 1] =
          .ok (replies, final) ∧
      (¬FailedSince (mixedOverlay.reached repeatInflater [(2048, 1)]) final.inner.1 →
        replies = [.position 1, .read [0, 9, 9], .read []]) := by
  obtain ⟨replies, final, hrun, hcursor⟩ := fourBytes.stream_is_cursor repeatInflater [(2048, 1)]
    [.seek (.fromEnd (-3)), .read 8, .read 1]
  refine ⟨replies, final, hrun, fun hclean => (hcursor hclean).trans ?_⟩
  decide +kernel

/-- The device of the partition answers as a chain that was just opened. -/
theorem open_readAt (offset n : Nat) :
    liftError ((w.partition.open (img.device z w.unambiguous w.size_lt)).readAt offset n) =
      (img.windowRead z w.partition.startByte w.partition.sizeBytes .fresh offset n).1 := by
  change liftError (Device.sliceRead _ _ _ offset n) = _
  cases hcheck : checkBounds w.partition.sizeBytes offset n with
  | error e =>
    simp only [Device.sliceRead, DiskImage.windowRead, hcheck]
    rfl
  | ok u =>
    simp only [Device.sliceRead, DiskImage.windowRead, hcheck]
    exact liftError_answered _ _

/-- Over hosts that fail in the same places at any time, a partition of a chain in use answers
every read as its device does, whatever was read before: with the guest's bytes inside the
partition, or with an error. -/
theorem reads_as_device (hsteady : img.Steady) (history : List (Nat × Nat)) (offset n : Nat) :
    (img.windowRead z w.partition.startByte w.partition.sizeBytes (img.reached z history)
        offset n).1 =
      liftError ((w.partition.open (img.device z w.unambiguous w.size_lt)).readAt offset n) ∧
    ∀ b, (w.partition.open (img.device z w.unambiguous w.size_lt)).readAt offset n = .ok b →
      offset + n ≤ w.partition.sizeBytes ∧ b = slice (w.bytes z) offset n := by
  constructor
  · rw [open_readAt, DiskImage.windowRead, DiskImage.windowRead]
    split
    · rfl
    · exact DiskImage.step_reached w.unambiguous hsteady history _
  · intro b hb
    have hread := w.open_readAt z offset n
    have hin : offset + n ≤ w.partition.sizeBytes := by
      change Device.sliceRead _ _ _ offset n = .ok b at hb
      unfold Device.sliceRead at hb
      split at hb
      · cases hb
      · exact checkBounds_ok ‹_›
    rw [hb] at hread
    refine ⟨hin, w.readAt_ok z ⟨.fresh, DiskImage.cachesTrue_fresh img 0⟩ hin ?_⟩
    exact answered_ok.mpr hread.symm

/-- The partition is opened, read out of order and then as a whole. -/
theorem reads_as_device_four_bytes :
    (mixedOverlay.windowRead repeatInflater fourBytes.partition.startByte
        fourBytes.partition.sizeBytes (mixedOverlay.reached repeatInflater [(1536, 1), (0, 3)])
        0 4).1 =
      liftError ((fourBytes.partition.open (mixedOverlay.device repeatInflater
        fourBytes.unambiguous fourBytes.size_lt)).readAt 0 4) ∧
    ∀ b, (fourBytes.partition.open (mixedOverlay.device repeatInflater
        fourBytes.unambiguous fourBytes.size_lt)).readAt 0 4 = .ok b →
      0 + 4 ≤ fourBytes.partition.sizeBytes ∧ b = slice (fourBytes.bytes repeatInflater) 0 4 :=
  fourBytes.reads_as_device repeatInflater ⟨fun _ _ _ _ => rfl, fun _ _ _ _ => rfl⟩
    [(1536, 1), (0, 3)] 0 4

end Window

end BootExtractor.Disk
