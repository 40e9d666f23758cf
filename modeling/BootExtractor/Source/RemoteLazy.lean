import BootExtractor.Source.RemoteStream
import Mathlib.Order.Bounds.Basic

/-!
# What a remote reader fetches

Which calls a run makes, whatever the server sends. In range mode a read asks for the
chunks it misses and for no others. Without ranges one stream is taken, chunk by
chunk, up to the last chunk that any read missed.
-/

namespace BootExtractor.Remote

open Effect Bytes Runs

/-- Byte `pos` of the request lies in chunk `idx`, for some `pos`. -/
def Request.Overlaps (q : Request) (idx : Nat) : Prop :=
  ∃ pos, q.offset ≤ pos ∧ pos < q.offset + q.len ∧ pos / chunk = idx

/-- The range that a call asks for. -/
def Call.range? : Call → Option (Nat × Nat)
  | .fetchRange start end_ => some (start, end_)
  | _ => none

/-- The ranges asked for so far, first one first. -/
def Session.ranges (s : Session) : List (Nat × Nat) := s.log.filterMap Call.range?

/-- How often a stream was asked for. -/
def Session.opens (s : Session) : Nat := s.calls (· matches .fetchAll)

/-- The range of a chunk. -/
def RemoteReader.rangeOf (r : RemoteReader) (idx : Nat) : Nat × Nat :=
  (idx * chunk, idx * chunk + r.chunkLen idx)

/-- Range request number `k` was answered with the whole chunk. -/
def RemoteReader.brings (r : RemoteReader) (idx : Nat) (request : (Nat × Nat) × Nat) : Bool :=
  request.1 == r.rangeOf idx &&
    match r.fetcher.fetchRange request.2 request.1.1 request.1.2 with
    | .ok data => data.length == r.chunkLen idx
    | .error _ => false

/-- How often the chunk was downloaded by a range request. -/
def RemoteReader.fetched (r : RemoteReader) (s : Session) (idx : Nat) : Nat :=
  s.ranges.zipIdx.countP (r.brings idx)

/-- How often a stream was opened. -/
def RemoteReader.opened (r : RemoteReader) (s : Session) : Nat :=
  (List.range s.opens).countP fun k => (r.fetcher.fetchAll k).isOk

/-- The bytes taken from the stream are those of the first `n` chunks, and memory holds
them. Without a stream nothing was taken. -/
structure Consumed (r : RemoteReader) (s : Session) (n : Nat) : Prop where
  closed : s.state.stream = none → n = 0
  taken : ∀ current, s.state.stream = some current →
    ∃ k < s.opens, ∃ whole, r.fetcher.fetchAll k = .ok whole ∧
      ∃ taken, whole.bytes = taken ++ current.bytes ∧ taken.length = min (n * chunk) r.size ∧
        ∀ i < n, s.state.chunks[i]? = some (some (chunkOf taken i))

/-- One of the two errors of `read_full`. -/
def readFullError (f : Fault) : Prop :=
  (∃ msg, f = .err (.http ("stream read: ".toList ++ msg))) ∨
    f = .err (.http "stream ended before the expected length".toList)

/-- The open stream failed in this read. -/
def StreamFailed (t : Transition Session Request (Except Fault Bytes)) : Prop :=
  t.after.state.stream.isSome ∧ ∃ f, readFullError f ∧ t.answer = .error f

/-- A read within the image that overlaps the chunk while it is neither in memory nor
valid on disk, and for which there is a stream or one can be opened. -/
def RemoteReader.Wants (r : RemoteReader) (t : Transition Session Request (Except Fault Bytes))
    (idx : Nat) : Prop :=
  r.InBounds t.request ∧ t.request.Overlaps idx ∧ r.Needs t.before idx ∧
    (r.nextStream t.before).isSome

section Counting

variable {r : RemoteReader} {s t : Session} {idx : Nat}

/-- The range calls are those that were counted. -/
theorem Session.calls_fetchRange (s : Session) :
    s.calls (· matches .fetchRange _ _) = s.ranges.length := by
  rw [Session.ranges, List.length_filterMap_eq_countP, Session.calls]
  congr 1
  funext c
  cases c <;> rfl

/-- Calls that are no range requests leave the ranges alone. -/
theorem ranges_append {c : Call} (hc : c.range? = none) (h : t.log = s.log ++ [c]) :
    t.ranges = s.ranges := by
  rw [Session.ranges, h, List.filterMap_append, List.filterMap_cons_none hc, List.filterMap_nil,
    List.append_nil, Session.ranges]

/-- Different chunks have different ranges. -/
theorem RemoteReader.rangeOf_inj {i j : Nat} (h : r.rangeOf i = r.rangeOf j) : i = j :=
  Nat.eq_of_mul_eq_mul_right chunk_pos (Prod.mk.inj h).1

/-- The chunks of a request stand in a row. -/
theorem overlaps_iff {q : Request} (h : 0 < q.len) :
    q.Overlaps idx ↔ q.offset / chunk ≤ idx ∧ idx ≤ (q.offset + q.len - 1) / chunk := by
  constructor
  · rintro ⟨pos, hle, hlt, rfl⟩
    exact ⟨Nat.div_le_div_right hle, Nat.div_le_div_right (by omega)⟩
  · rintro ⟨hfirst, hlast⟩
    by_cases heq : idx = q.offset / chunk
    · exact ⟨q.offset, Nat.le_refl _, by omega, heq.symm⟩
    · refine ⟨idx * chunk, ?_, ?_, Nat.mul_div_cancel _ chunk_pos⟩
      · have hlt : q.offset / chunk < idx := by omega
        exact Nat.le_of_lt ((Nat.div_lt_iff_lt_mul chunk_pos).mp hlt)
      · have := (Nat.le_div_iff_mul_le chunk_pos).mp hlast
        omega

/-- One more range request counts for its own chunk, if it brings it. -/
theorem RemoteReader.fetched_append (h : t.ranges = s.ranges ++ [r.rangeOf idx]) (i : Nat) :
    r.fetched t i =
      r.fetched s i + if r.brings i (r.rangeOf idx, s.ranges.length) then 1 else 0 := by
  rw [RemoteReader.fetched, h, List.zipIdx_append, List.countP_append]
  simp [RemoteReader.fetched, List.countP_singleton]

/-- A range brings its own chunk only. -/
theorem RemoteReader.brings_ne {i k : Nat} (h : i ≠ idx) :
    r.brings i (r.rangeOf idx, k) = false := by
  have hne : r.rangeOf idx ≠ r.rangeOf i := fun he => h (r.rangeOf_inj he).symm
  simp [RemoteReader.brings, hne]

end Counting

/-- What storing a downloaded chunk changes. -/
structure Stored (s t : Session) (idx : Nat) (data : Bytes) : Prop where
  chunks : t.state.chunks = s.state.chunks.set idx (some data)
  disk : ∀ i, i ≠ idx → t.disk (.chunk i) = s.disk (.chunk i)
  stream : t.state.stream = s.state.stream
  streamed : t.state.streamed = s.state.streamed
  downloaded : t.state.downloaded = s.state.downloaded + 1
  ranges : t.ranges = s.ranges
  opens : t.opens = s.opens

/-- A chunk that was stored is held. -/
theorem Stored.present {s t : Session} {idx : Nat} {data : Bytes} (h : Stored s t idx data)
    (hi : idx < s.state.chunks.length) : Present t idx :=
  ⟨data, by rw [h.chunks, List.getElem?_set_self hi]⟩

/-- The other chunks are left alone. -/
theorem Stored.other {s t : Session} {idx : Nat} {data : Bytes} (h : Stored s t idx data) {i : Nat}
    (hi : i ≠ idx) :
    t.state.chunks[i]? = s.state.chunks[i]? ∧ t.disk (.chunk i) = s.disk (.chunk i) :=
  ⟨by rw [h.chunks, List.getElem?_set_ne (Ne.symm hi)], h.disk i hi⟩

/-- Storing a chunk keeps those that are held. -/
theorem Stored.present_mono {s t : Session} {idx i : Nat} {data : Bytes}
    (h : Stored s t idx data) (hi : idx < s.state.chunks.length) (hp : Present s i) :
    Present t i := by
  by_cases heq : i = idx
  · exact heq ▸ h.present hi
  · obtain ⟨c, hc⟩ := hp
    exact ⟨c, (h.other heq).1.trans hc⟩

section Storing

variable {r : RemoteReader} {s : Session} {idx : Nat}

/-- A chunk is put in its place. -/
theorem putChunk_sets {data : Bytes} (hi : idx < s.state.chunks.length) :
    Yields (putChunk idx data)
      (fun _ t => t = { s with state := { s.state with
        chunks := s.state.chunks.set idx (some data) } }) (fun _ _ => False) s := by
  simp only [putChunk, yields_bind, yields_get, if_pos hi, yields_modifyState]

/-- Storing a chunk never fails. -/
theorem RemoteReader.store_stored {data : Bytes} (hi : idx < s.state.chunks.length) :
    Yields (r.store idx data) (fun _ t => Stored s t idx data) (fun _ _ => False) s := by
  have hdisk : Yields (r.storeCached idx data)
      (fun _ t => t.state = s.state ∧ t.ranges = s.ranges ∧ t.opens = s.opens ∧
        ∀ i, i ≠ idx → t.disk (.chunk i) = s.disk (.chunk i)) (fun _ _ => False) s := by
    unfold RemoteReader.storeCached
    cases r.cache with
    | none => exact ⟨rfl, rfl, rfl, fun _ _ => rfl⟩
    | some cache =>
      simp only [DiskCache.store, yields_bind, yields_get, yields_note, yields_modify]
      refine ⟨trivial, ?_, ?_, fun i hne => ?_⟩
      · exact ranges_append rfl rfl
      · simp [Session.opens, Session.calls]
      · exact (diskAfter_chunk s.disk idx data _ i).resolve_right fun hstored => hne hstored.1
  simp only [RemoteReader.store, yields_bind]
  refine hdisk.mono (fun _ t ht => ?_) (fun _ _ h => h)
  obtain ⟨hstate, hranges, hopens, hfiles⟩ := ht
  rw [yields_bind]
  refine (putChunk_sets (by rw [hstate]; exact hi)).mono (fun _ u hu => ?_) (fun _ _ h => h)
  subst hu
  simp only [yields_bind, yields_modifyState, yields_get, yields_note, hstate]
  refine ⟨rfl, hfiles, rfl, rfl, rfl, ?_, ?_⟩
  · rw [← hranges]
    exact ranges_append rfl rfl
  · simpa [Session.opens, Session.calls] using hopens

end Storing

/-- The read loop: `ensure` runs over the chunks that an accepted request overlaps, in
order, and an error ends it. -/
theorem RemoteReader.readAt_loop {r : RemoteReader} {q : Request} {s : Session}
    {J : List Nat → Session → Prop} {E : Fault → Session → Prop} (hstart : J [] s)
    (hpass : ∀ done idx t, (∀ j ∈ done, j < idx) → r.InBounds q → q.Overlaps idx → J done t →
      Yields (r.ensure idx) (fun _ => J (done ++ [idx])) E t) :
    Yields (r.readAt q.offset q.len)
      (fun _ t => ∃ idxs, J idxs t ∧ ∀ i, i ∈ idxs ↔ r.InBounds q ∧ q.Overlaps i)
      (fun f t => (∃ idxs, J idxs t ∧ ∀ i, i ∈ idxs ↔ r.InBounds q ∧ q.Overlaps i) ∨
        E f t) s := by
  rw [RemoteReader.readAt]
  cases hb : checkBounds r.size q.offset q.len with
  | error e =>
    refine Or.inl ⟨[], hstart, fun i => ⟨fun h => absurd h List.not_mem_nil, ?_⟩⟩
    rintro ⟨hin, -⟩
    cases hb.symm.trans hin
  | ok u =>
    by_cases h0 : q.len = 0
    · simp only [h0, ite_true]
      refine ⟨[], hstart, fun i => ⟨fun h => absurd h List.not_mem_nil, ?_⟩⟩
      rintro ⟨-, pos, hle, hlt, -⟩
      omega
    simp only [if_neg h0, yields_bind]
    generalize hxs : List.range' (q.offset / chunk)
      ((q.offset + q.len - 1) / chunk + 1 - q.offset / chunk) = idxs
    have hmem : ∀ i, i ∈ idxs ↔ r.InBounds q ∧ q.Overlaps i := by
      intro i
      have hpos : 0 < q.len := Nat.pos_of_ne_zero h0
      rw [← hxs, List.mem_range'_1, overlaps_iff hpos]
      constructor
      · rintro ⟨hle, hlt⟩
        exact ⟨hb, hle, by omega⟩
      · rintro ⟨-, hle, hlt⟩
        exact ⟨hle, by omega⟩
    have hloop : Yields (forM idxs r.ensure) (fun _ => J idxs) E s := by
      apply yields_forM
      · intro done idx rest t he ht
        have hidx := (hmem idx).mp (by simp [he])
        refine hpass done idx t (fun j hj => ?_) hidx.1 hidx.2 ht
        have hsorted : idxs.Pairwise (· < ·) := by
          rw [← hxs]
          exact List.pairwise_lt_range'
        rw [he] at hsorted
        exact (List.pairwise_append.mp hsorted).2.2 j hj idx (List.mem_cons_self ..)
      · exact hstart
    refine hloop.mono (fun _ t ht => ?_) (fun _ _ h => Or.inr h)
    rw [yields_bind, yields_get]
    cases copyOut t.state.chunks q.offset q.len with
    | ok buf => exact ⟨idxs, ht, hmem⟩
    | error f => exact Or.inl ⟨idxs, ht, hmem⟩

section Ranges

variable {r : RemoteReader} {s t u : Session} {idx : Nat}

/-- A downloaded chunk is in memory and was downloaded once. -/
structure RangeState (r : RemoteReader) (s : Session) : Prop where
  count : s.state.chunks.length = (r.size + chunk - 1) / chunk
  fetched : ∀ i, r.fetched s i ≤ 1
  present : ∀ i, 0 < r.fetched s i → Present s i
  downloaded : s.state.downloaded ≤ s.state.chunks.countP Option.isSome

/-- The chunks of `new` were asked for, in order; each of them was missing at the start. -/
structure Asked (r : RemoteReader) (s t : Session) (new : List Nat) : Prop where
  ranges : t.ranges = s.ranges ++ new.map r.rangeOf
  increasing : new.Pairwise (· < ·)
  missing : ∀ i ∈ new, r.Needs s i

/-- A pass of the read loop over `done` in range mode. -/
structure RangePass (r : RemoteReader) (s t : Session) (done : List Nat) : Prop where
  state : RangeState r t
  asked : ∃ new, Asked r s t new ∧ ∀ i ∈ new, i ∈ done
  other : ∀ i, i ∉ done →
    t.state.chunks[i]? = s.state.chunks[i]? ∧ t.disk (.chunk i) = s.disk (.chunk i)

/-- A pass that ended with an error at the last chunk of `done`. -/
def RangeBroke (r : RemoteReader) (s t : Session) (done : List Nat) : Prop :=
  RangeState r t ∧ ∃ new, Asked r s t new ∧ ∀ i ∈ new, i ∈ done

/-- Nothing was asked for. -/
theorem Asked.nil (h : t.ranges = s.ranges) : Asked r s t [] where
  ranges := h.trans (List.append_nil _).symm
  increasing := List.Pairwise.nil
  missing _ hi := absurd hi List.not_mem_nil

/-- No chunk was read. -/
theorem RangePass.refl (h : RangeState r s) : RangePass r s s [] :=
  ⟨h, ⟨[], .nil rfl, fun _ hi => hi⟩, fun _ _ => ⟨rfl, rfl⟩⟩

/-- What a chunk needs is settled by its slot and its file. -/
theorem RemoteReader.needs_congr (h : t.state.chunks[idx]? = s.state.chunks[idx]? ∧
    t.disk (.chunk idx) = s.disk (.chunk idx)) : r.Needs t idx ↔ r.Needs s idx := by
  rw [RemoteReader.Needs, RemoteReader.Needs, RemoteReader.cached, RemoteReader.cached, load, load,
    h.1, h.2]

/-- One more chunk was asked for. -/
theorem Asked.append {new : List Nat} (h : Asked r s t new) (hlt : ∀ i ∈ new, i < idx)
    (hneeds : r.Needs s idx) (hranges : u.ranges = t.ranges ++ [r.rangeOf idx]) :
    Asked r s u (new ++ [idx]) where
  ranges := by rw [hranges, h.ranges, List.append_assoc, List.map_append, List.map_singleton]
  increasing :=
    List.pairwise_append.mpr ⟨h.increasing, List.pairwise_singleton _ _, fun i hi j hj =>
    List.mem_singleton.mp hj ▸ hlt i hi⟩
  missing i hi := by
    rcases List.mem_append.mp hi with hi | hi
    · exact h.missing i hi
    · exact List.mem_singleton.mp hi ▸ hneeds

/-- A request that brings nothing changes no count. -/
theorem RangeState.asked (h : RangeState r s) (hranges : t.ranges = s.ranges ++ [r.rangeOf idx])
    (hbrings : r.brings idx (r.rangeOf idx, s.ranges.length) = false) (hstate : t.state = s.state) :
    RangeState r t := by
  have hsame : ∀ i, r.fetched t i = r.fetched s i := by
    intro i
    rw [RemoteReader.fetched_append hranges]
    by_cases heq : i = idx
    · rw [heq, hbrings]
      rfl
    · rw [RemoteReader.brings_ne heq]
      rfl
  refine ⟨hstate ▸ h.count, fun i => hsame i ▸ h.fetched i, fun i hi => ?_, hstate ▸ h.downloaded⟩
  obtain ⟨c, hc⟩ := h.present i (hsame i ▸ hi)
  exact ⟨c, by rw [hstate]; exact hc⟩

/-- A request that brings a missing chunk counts once for it. -/
theorem RangeState.stored {data : Bytes} (h : RangeState r s)
    (hslot : s.state.chunks[idx]? = some none)
    (hranges : t.ranges = s.ranges ++ [r.rangeOf idx]) (hstate : t.state = s.state)
    (hstored : Stored t u idx data) : RangeState r u := by
  have hlt : idx < s.state.chunks.length := (List.getElem?_eq_some_iff.mp hslot).1
  have hgrows : ∀ i, Present s i → Present u i := fun i ⟨c, hc⟩ =>
    hstored.present_mono (by rw [hstate]; exact hlt) ⟨c, by rw [hstate]; exact hc⟩
  have hcount := RemoteReader.fetched_append (r := r) (t := u) (hstored.ranges.trans hranges)
  have hzero : r.fetched s idx = 0 := by
    by_contra hne
    obtain ⟨c, hc⟩ := h.present idx (Nat.pos_of_ne_zero hne)
    rw [hslot] at hc
    cases hc
  constructor
  · rw [hstored.chunks, List.length_set, hstate]
    exact h.count
  · intro i
    rw [hcount]
    by_cases heq : i = idx
    · rw [heq, hzero]
      split <;> omega
    · rw [RemoteReader.brings_ne heq]
      exact h.fetched i
  · intro i hi
    by_cases heq : i = idx
    · exact heq ▸ hstored.present (by rw [hstate]; exact hlt)
    · rw [hcount, RemoteReader.brings_ne heq] at hi
      exact hgrows i (h.present i hi)
  · have hnone : s.state.chunks[idx] = none := (List.getElem?_eq_some_iff.mp hslot).2
    have hdownloaded := h.downloaded
    rw [hstored.downloaded, hstored.chunks, hstate, List.countP_set hlt, hnone]
    simp only [Option.isSome_none, Option.isSome_some, ite_true, Bool.false_eq_true, ite_false]
    omega

/-- A chunk that comes from the disk cache is not downloaded. -/
theorem RangeState.loaded {data : Bytes} (h : RangeState r s)
    (hslot : s.state.chunks[idx]? = some none) :
    RangeState r { s with state :=
      { s.state with chunks := s.state.chunks.set idx (some data) } } := by
  have hlt : idx < s.state.chunks.length := (List.getElem?_eq_some_iff.mp hslot).1
  refine ⟨List.length_set.trans h.count, h.fetched, fun i hi => ?_, ?_⟩
  · by_cases heq : idx = i
    · exact ⟨data, heq ▸ List.getElem?_set_self hlt⟩
    · obtain ⟨c, hc⟩ := h.present i hi
      exact ⟨c, (List.getElem?_set_ne heq).trans hc⟩
  · have hnone : s.state.chunks[idx] = none := (List.getElem?_eq_some_iff.mp hslot).2
    have hdownloaded := h.downloaded
    simp only [List.countP_set hlt, hnone, Option.isSome_none, Option.isSome_some, ite_true,
      Bool.false_eq_true, ite_false]
    omega

/-- After asking for the range of chunk `idx` and nothing else. -/
structure Noted (r : RemoteReader) (s t : Session) (idx : Nat) : Prop where
  state : t.state = s.state
  disk : t.disk = s.disk
  ranges : t.ranges = s.ranges ++ [r.rangeOf idx]

/-- The range branch asks once, and stores what it got or brought nothing. -/
theorem RemoteReader.ensureRange_asks (hi : idx < s.state.chunks.length) :
    Yields (r.ensureRange idx) (fun _ u => ∃ t data, Noted r s t idx ∧ Stored t u idx data)
      (fun _ t => Noted r s t idx ∧
        r.brings idx (r.rangeOf idx, s.ranges.length) = false) s := by
  simp only [RemoteReader.ensureRange, RemoteReader.fetchRange, yields_bind, yields_get,
    yields_note]
  generalize hk : s.calls (· matches .fetchRange _ _) = k
  have hk' : k = s.ranges.length := hk.symm.trans s.calls_fetchRange
  generalize ht : ({ s with log := s.log ++ [Call.fetchRange (idx * chunk)
    (idx * chunk + r.chunkLen idx)] } : Session) = t
  have hnoted : Noted r s t idx := by
    rw [← ht]
    refine ⟨rfl, rfl, ?_⟩
    rw [Session.ranges, List.filterMap_append]
    rfl
  cases hdata : r.fetcher.fetchRange k (idx * chunk) (idx * chunk + r.chunkLen idx) with
  | error e => exact ⟨hnoted, by simp [RemoteReader.brings, RemoteReader.rangeOf, ← hk', hdata]⟩
  | ok data =>
    by_cases hlen : data.length = r.chunkLen idx
    · simp only [yields_pure, hlen, ne_eq, not_true_eq_false, ite_false]
      have hlt : idx < t.state.chunks.length := by rw [hnoted.state]; exact hi
      exact (RemoteReader.store_stored hlt).mono (fun _ u hu => ⟨t, data, hnoted, hu⟩)
        (fun _ _ h => h.elim)
    · simp only [yields_pure, ne_eq, hlen, not_false_eq_true, ite_true, yields_throw]
      exact ⟨hnoted, by simp [RemoteReader.brings, RemoteReader.rangeOf, ← hk', hdata, hlen]⟩

/-- One pass of the read loop in range mode. -/
theorem RemoteReader.ensure_asks (hm : r.supportsRange = true) {done : List Nat}
    (hlt : ∀ j ∈ done, j < idx) (h : RangePass r s t done) :
    Yields (r.ensure idx) (fun _ u => RangePass r s u (done ++ [idx]))
      (fun _ u => RangeBroke r s u (done ++ [idx])) t := by
  obtain ⟨hstate, ⟨new, hasked, hnew⟩, hother⟩ := h
  have hin : ∀ i ∈ new, i ∈ done ++ [idx] := fun i hi => List.mem_append_left _ (hnew i hi)
  have hnotin : ∀ i, i ∉ done ++ [idx] → i ∉ done ∧ i ≠ idx := by
    intro i hi
    rw [List.mem_append, List.mem_singleton, not_or] at hi
    exact hi
  have hfresh : idx ∉ done := fun hi => Nat.lt_irrefl _ (hlt idx hi)
  simp only [RemoteReader.ensure, yields_bind, yields_get]
  cases hslot : t.state.chunks[idx]? with
  | none => exact ⟨hstate, new, hasked, hin⟩
  | some slot =>
    cases slot with
    | some c => exact ⟨hstate, ⟨new, hasked, hin⟩, fun i hi => hother i (hnotin i hi).1⟩
    | none =>
      cases hcached : r.cached t.disk idx with
      | some data =>
        refine (putChunk_sets (List.getElem?_eq_some_iff.mp hslot).1).mono (fun _ u hu => ?_)
          (fun _ _ h => h.elim)
        subst hu
        refine ⟨hstate.loaded hslot, ⟨new, ⟨hasked.ranges, hasked.increasing, hasked.missing⟩, hin⟩,
          fun i hi => ?_⟩
        obtain ⟨hdone, hne⟩ := hnotin i hi
        exact ⟨(List.getElem?_set_ne (Ne.symm hne)).trans (hother i hdone).1, (hother i hdone).2⟩
      | none =>
        have hneeds : r.Needs s idx :=
          (RemoteReader.needs_congr (hother idx hfresh)).mp ⟨hslot, hcached⟩
        have hnewlt : ∀ i ∈ new, i < idx := fun i hi => hlt i (hnew i hi)
        have hin' : ∀ i ∈ new ++ [idx], i ∈ done ++ [idx] := by
          intro i hi
          rcases List.mem_append.mp hi with hi | hi
          · exact hin i hi
          · exact List.mem_append_right _ hi
        simp only [if_pos hm]
        refine (RemoteReader.ensureRange_asks (List.getElem?_eq_some_iff.mp hslot).1).mono ?_ ?_
        · rintro _ u ⟨v, data, hnoted, hstored⟩
          refine ⟨hstate.stored hslot hnoted.ranges hnoted.state hstored, ⟨new ++ [idx],
            hasked.append hnewlt hneeds (hstored.ranges.trans hnoted.ranges), hin'⟩, fun i hi => ?_⟩
          obtain ⟨hdone, hne⟩ := hnotin i hi
          obtain ⟨hchunks, hdisk⟩ := hstored.other hne
          rw [hchunks, hdisk, hnoted.state, hnoted.disk]
          exact hother i hdone
        · rintro f u ⟨hnoted, hbrings⟩
          exact ⟨hstate.asked hnoted.ranges hbrings hnoted.state, _,
            hasked.append hnewlt hneeds hnoted.ranges, hin'⟩

/-- What a read in range mode leaves: it asked for missing chunks that it overlaps. -/
def AskedRead (r : RemoteReader) (q : Request) (s t : Session) : Prop :=
  RangeState r t ∧ ∃ new, Asked r s t new ∧ ∀ i ∈ new, q.Overlaps i

/-- One read in range mode. -/
theorem RemoteReader.readAt_asks (hm : r.supportsRange = true) (h : RangeState r s)
    (q : Request) : AskedRead r q s (after (r.readAt q.offset q.len) s) := by
  have hread := RemoteReader.readAt_loop (r := r) (q := q)
    (J := fun done t => RangePass r s t done ∧ ∀ i ∈ done, q.Overlaps i)
    (E := fun _ t => ∃ done, RangeBroke r s t done ∧ ∀ i ∈ done, q.Overlaps i)
    ⟨.refl h, fun i hi => absurd hi List.not_mem_nil⟩
    (fun done idx t hlt _ hidx ⟨ht, hdone⟩ => by
      have hall : ∀ i ∈ done ++ [idx], q.Overlaps i := by
        intro i hi
        rcases List.mem_append.mp hi with hi | hi
        · exact hdone i hi
        · exact List.mem_singleton.mp hi ▸ hidx
      exact (RemoteReader.ensure_asks hm hlt ht).mono (fun _ u hu => ⟨hu, hall⟩)
        (fun _ u hu => ⟨_, hu, hall⟩))
  have hpassed : ∀ t idxs, RangePass r s t idxs ∧ (∀ i ∈ idxs, q.Overlaps i) →
      AskedRead r q s t := by
    rintro t idxs ⟨⟨hstate, ⟨new, hasked, hin⟩, -⟩, hall⟩
    exact ⟨hstate, new, hasked, fun i hi => hall i (hin i hi)⟩
  have hdone : Yields (r.readAt q.offset q.len) (fun _ => AskedRead r q s)
      (fun _ => AskedRead r q s) s := by
    refine hread.mono ?_ ?_
    · rintro _ t ⟨idxs, ht, -⟩
      exact hpassed t idxs ht
    · rintro f t (⟨idxs, ht, -⟩ | ⟨done, ⟨hstate, new, hasked, hin⟩, hall⟩)
      · exact hpassed t idxs ht
      · exact ⟨hstate, new, hasked, fun i hi => hall i (hin i hi)⟩
  rw [yields_iff] at hdone
  split at hdone <;> exact hdone

end Ranges

end BootExtractor.Remote
