import BootExtractor.Source.RemoteLazy

/-!
# What a forward stream gives

Without ranges every missing chunk costs the stream up to it. The counter of taken
chunks only moves forward, and the chunks it has passed are in memory.
-/

namespace BootExtractor.Remote

open Effect Bytes Runs

section Streaming

variable {r : RemoteReader} {s t u : Session} {idx : Nat}

/-- What a filled buffer took from the stream. -/
theorem readFull_ok {want : Nat} {stream rest : Stream} {filled buf : Bytes}
    (h : readFull stream want filled = (.ok buf, rest)) (hle : filled.length ≤ want) :
    buf.length = want ∧ ∃ data, buf = filled ++ data ∧ stream.bytes = data ++ rest.bytes := by
  induction hk : want - filled.length using Nat.strong_induction_on generalizing stream filled with
  | _ k ih =>
  rw [readFull] at h
  by_cases hlt : filled.length < want
  · rw [if_pos hlt] at h
    cases hr : stream.read (want - filled.length) with
    | mk res next =>
      rw [hr] at h
      cases res with
      | error msg => cases h
      | ok data =>
        cases data with
        | nil => cases h
        | cons b bs =>
          obtain ⟨hsplit, hcap⟩ := Stream.read_ok hr
          have hlen : (filled ++ b :: bs).length = filled.length + (b :: bs).length :=
            List.length_append
          have hpos : 0 < (b :: bs).length := Nat.succ_pos _
          obtain ⟨hfull, more, hbuf, hmore⟩ := ih _ (by omega) h (by omega) rfl
          refine ⟨hfull, b :: bs ++ more, ?_, ?_⟩
          · rw [hbuf, List.append_assoc]
          · rw [hsplit, hmore, List.append_assoc]
  · rw [if_neg hlt] at h
    cases h
    exact ⟨by omega, [], (List.append_nil _).symm, rfl⟩

/-- The errors of `read_full`. -/
theorem readFull_error {want : Nat} {stream rest : Stream} {filled : Bytes} {e : Error}
    (h : readFull stream want filled = (.error e, rest)) : readFullError (.err e) := by
  induction hk : want - filled.length using Nat.strong_induction_on generalizing stream filled with
  | _ k ih =>
  rw [readFull] at h
  by_cases hlt : filled.length < want
  · rw [if_pos hlt] at h
    cases hr : stream.read (want - filled.length) with
    | mk res next =>
      rw [hr] at h
      cases res with
      | error msg =>
        cases h
        exact Or.inl ⟨msg, rfl⟩
      | ok data =>
        cases data with
        | nil =>
          cases h
          exact Or.inr rfl
        | cons b bs =>
          refine ih _ ?_ h rfl
          rw [List.length_append, List.length_cons]
          omega
  · rw [if_neg hlt] at h
    cases h

private theorem lt_chunks_iff {size : Nat} :
    idx < (size + chunk - 1) / chunk ↔ idx * chunk < size := by
  rw [← Nat.succ_le_iff, Nat.le_div_iff_mul_le chunk_pos, Nat.succ_mul]
  have := chunk_pos
  omega

/-- Everything the stream has produced is in memory, and was downloaded once. -/
structure StreamState (r : RemoteReader) (s : Session) : Prop where
  count : s.state.chunks.length = (r.size + chunk - 1) / chunk
  closed : s.state.stream = none → s.state.streamed = 0 ∧ r.opened s = 0
  opened : r.opened s ≤ 1
  produced : ∀ i < s.state.streamed, Present s i
  downloaded : s.state.downloaded = s.state.streamed

/-- A pass over `done`. The counter has moved behind the last chunk that was missing, and
the chunks behind `done` are untouched. -/
structure StreamPass (r : RemoteReader) (s t : Session) (done : List Nat) : Prop where
  state : StreamState r t
  consumed : Consumed r s s.state.streamed → Consumed r t t.state.streamed
  closed : t.state.stream = none → s.state.stream = none ∧ t.opens = s.opens
  source : t.state.stream.isSome → (r.nextStream s).isSome
  reached : ∀ n, n < t.state.streamed ↔
    n < s.state.streamed ∨ ∃ i ∈ done, r.Needs s i ∧ n ≤ i
  later : ∀ i, (∀ j ∈ done, j < i) →
    t.state.chunks[i]? = s.state.chunks[i]? ∧ t.disk (.chunk i) = s.disk (.chunk i)

/-- A pass that ended with an error: of the open stream, or because none could be opened. -/
structure StreamBroke (r : RemoteReader) (s : Session) (f : Fault) (t : Session) : Prop where
  state : StreamState r t
  opened : t.state.stream.isSome → readFullError f
  closed : t.state.stream = none → s.state.stream = none ∧ r.nextStream s = none

/-- An open stream is the next one. -/
theorem RemoteReader.nextStream_open (h : s.state.stream.isSome) : (r.nextStream s).isSome := by
  rw [RemoteReader.nextStream]
  split
  · rfl
  · rename_i hnone
    rw [hnone] at h
    cases h

/-- The next stream depends on the streams that were opened. -/
theorem RemoteReader.nextStream_congr (ht : t.state.stream = none) (hs : s.state.stream = none)
    (h : t.opens = s.opens) : r.nextStream t = r.nextStream s := by
  rw [RemoteReader.nextStream, RemoteReader.nextStream, ht, hs]
  exact congrArg (fun k => (r.fetcher.fetchAll k).toOption) h

/-- No chunk was read. -/
theorem StreamPass.refl (h : StreamState r s) : StreamPass r s s [] where
  state := h
  consumed := id
  closed hs := ⟨hs, rfl⟩
  source := RemoteReader.nextStream_open
  reached _ := ⟨Or.inl, fun hn => hn.resolve_right fun ⟨_, hi, _⟩ => List.not_mem_nil hi⟩
  later _ _ := ⟨rfl, rfl⟩

/-- Chunks read one after the other. -/
theorem StreamPass.trans {done : List Nat} (h : StreamPass r s t done)
    (hlt : ∀ j ∈ done, j < idx) (k : StreamPass r t u [idx]) :
    StreamPass r s u (done ++ [idx]) where
  state := k.state
  consumed hs := k.consumed (h.consumed hs)
  closed hu := by
    obtain ⟨ht, hopens⟩ := k.closed hu
    obtain ⟨hs, hopens'⟩ := h.closed ht
    exact ⟨hs, hopens.trans hopens'⟩
  source hu := by
    have hnext := k.source hu
    cases ht : t.state.stream with
    | some stream => exact h.source (by rw [ht]; rfl)
    | none =>
      obtain ⟨hs, hopens⟩ := h.closed ht
      rwa [RemoteReader.nextStream_congr ht hs hopens] at hnext
  reached n := by
    have hneeds := RemoteReader.needs_congr (r := r) (h.later idx hlt)
    rw [k.reached, h.reached, or_assoc]
    simp [hneeds, or_and_right, exists_or]
  later i hi := by
    obtain ⟨hchunks, hdisk⟩ := k.later i fun j hj => hi j (List.mem_append_right _ hj)
    obtain ⟨hchunks', hdisk'⟩ := h.later i fun j hj => hi j (List.mem_append_left _ hj)
    exact ⟨hchunks.trans hchunks', hdisk.trans hdisk'⟩

/-- A failure behind chunks that were read. -/
theorem StreamBroke.of_pass {done : List Nat} {f : Fault} (h : StreamPass r s t done)
    (k : StreamBroke r t f u) : StreamBroke r s f u where
  state := k.state
  opened := k.opened
  closed hu := by
    obtain ⟨ht, hnext⟩ := k.closed hu
    obtain ⟨hs, hopens⟩ := h.closed ht
    exact ⟨hs, (RemoteReader.nextStream_congr ht hs hopens).symm.trans hnext⟩

/-- From `s` to `t` the open stream was taken up to chunk `upto`. -/
structure Streamed (r : RemoteReader) (s t : Session) (upto : Nat) : Prop where
  state : StreamState r t
  consumed : Consumed r s s.state.streamed → Consumed r t t.state.streamed
  opened : t.state.stream.isSome
  streamed : t.state.streamed = upto
  later : ∀ i, upto ≤ i →
    t.state.chunks[i]? = s.state.chunks[i]? ∧ t.disk (.chunk i) = s.disk (.chunk i)

/-- Nothing was streamed. -/
theorem Streamed.refl (h : StreamState r s) (ho : s.state.stream.isSome) :
    Streamed r s s s.state.streamed :=
  ⟨h, id, ho, rfl, fun _ _ => ⟨rfl, rfl⟩⟩

/-- Stretches of the stream join. -/
theorem Streamed.trans {upto upto' : Nat} (h : Streamed r s t upto) (k : Streamed r t u upto')
    (hle : upto ≤ upto') : Streamed r s u upto' where
  state := k.state
  consumed hs := k.consumed (h.consumed hs)
  opened := k.opened
  streamed := k.streamed
  later i hi := by
    obtain ⟨hchunks, hdisk⟩ := k.later i hi
    obtain ⟨hchunks', hdisk'⟩ := h.later i (hle.trans hi)
    exact ⟨hchunks.trans hchunks', hdisk.trans hdisk'⟩

private theorem chunkOf_append_left {taken buf : Bytes} {i n : Nat} (h : taken.length = n * chunk)
    (hi : i < n) : chunkOf (taken ++ buf) i = chunkOf taken i := by
  have hle : (i + 1) * chunk ≤ n * chunk := Nat.mul_le_mul_right chunk hi
  rw [Nat.succ_mul] at hle
  rw [chunkOf, chunkOf, slice, slice, List.drop_append_of_le_length (by omega),
    List.take_append_of_le_length]
  rw [List.length_drop]
  omega

private theorem chunkOf_append_right {taken buf : Bytes} {n : Nat} (h : taken.length = n * chunk)
    (hbuf : buf.length ≤ chunk) : chunkOf (taken ++ buf) n = buf := by
  rw [chunkOf, slice, ← h, List.drop_left, List.take_of_length_le hbuf]

private theorem add_chunkLen {size n : Nat} (h : n * chunk < size) :
    n * chunk + min (size - n * chunk) chunk = min ((n + 1) * chunk) size := by
  rw [Nat.succ_mul]
  omega

/-- A chunk more is taken in one piece. -/
theorem Consumed.succ {n : Nat} {buf : Bytes} {current rest : Stream}
    (h : Consumed r s n) (hs : s.state.stream = some current) (hn : n * chunk < r.size)
    (hbytes : current.bytes = buf ++ rest.bytes) (hlen : buf.length = r.chunkLen n)
    (ht : t.state.stream = some rest) (hopens : t.opens = s.opens)
    (hchunks : t.state.chunks = s.state.chunks.set n (some buf))
    (hlt : n < s.state.chunks.length) : Consumed r t (n + 1) where
  closed hnone := by
    rw [ht] at hnone
    cases hnone
  taken current' hcurrent' := by
    obtain ⟨k, hk, whole, hwhole, taken, hsplit, htaken, hmemory⟩ := h.taken current hs
    rw [ht] at hcurrent'
    cases hcurrent'
    have hfull : taken.length = n * chunk := by rw [htaken, Nat.min_eq_left (Nat.le_of_lt hn)]
    rw [RemoteReader.chunkLen] at hlen
    refine ⟨k, hopens ▸ hk, whole, hwhole, taken ++ buf, ?_, ?_, fun i hi => ?_⟩
    · rw [hsplit, hbytes, List.append_assoc]
    · rw [List.length_append, hfull, hlen, add_chunkLen hn]
    · rw [hchunks]
      by_cases heq : i = n
      · rw [heq, List.getElem?_set_self hlt,
          chunkOf_append_right hfull (hlen ▸ Nat.min_le_right _ _)]
      · have hi : i < n := Nat.lt_of_le_of_ne (Nat.le_of_lt_succ hi) heq
        rw [List.getElem?_set_ne (Ne.symm heq), hmemory i hi, chunkOf_append_left hfull hi]

/-- One pass of the streaming loop. -/
theorem RemoteReader.streamOne_takes (h : StreamState r s) (ho : s.state.stream.isSome)
    (hlt : s.state.streamed < s.state.chunks.length) :
    Yields r.streamOne (fun _ t => Streamed r s t (s.state.streamed + 1))
      (fun f t => StreamState r t ∧ t.state.stream.isSome ∧ readFullError f) s := by
  obtain ⟨current, hcurrent⟩ := Option.isSome_iff_exists.mp ho
  have hpos : s.state.streamed * chunk < r.size := lt_chunks_iff.mp (h.count ▸ hlt)
  rw [RemoteReader.streamOne, yields_bind, yields_get, hcurrent]
  cases hfull : readFull current (r.chunkLen s.state.streamed) [] with
  | mk res rest =>
    simp only [hfull, yields_bind, yields_modifyState]
    let put : Session := { s with state := { s.state with stream := some rest } }
    cases res with
    | error e =>
      refine ⟨⟨h.count, fun hnone => ?_, h.opened, h.produced, h.downloaded⟩, rfl,
        readFull_error hfull⟩
      cases hnone
    | ok buf =>
      obtain ⟨hlen, data, hdata, hbytes⟩ := readFull_ok hfull (Nat.zero_le _)
      rw [List.nil_append] at hdata
      subst hdata
      rw [yields_bind]
      refine (RemoteReader.store_stored (s := put) hlt).mono (fun _ t ht => ?_)
        (fun _ _ h => h.elim)
      have hstreamed : t.state.streamed = s.state.streamed := ht.streamed
      have hopens : t.opens = s.opens := ht.opens
      rw [yields_modifyState]
      refine ⟨⟨?_, ?_, ?_, ?_, ?_⟩, fun hs => ?_, ?_, ?_, fun i hi => ?_⟩
      · show t.state.chunks.length = _
        rw [ht.chunks, List.length_set]
        exact h.count
      · intro hnone
        cases ht.stream.symm.trans hnone
      · show r.opened t ≤ 1
        rw [RemoteReader.opened, hopens]
        exact h.opened
      · intro i hi
        have hi : i < t.state.streamed + 1 := hi
        rw [hstreamed] at hi
        show Present t i
        rcases Nat.lt_succ_iff_lt_or_eq.mp hi with hi | rfl
        · exact ht.present_mono hlt (h.produced i hi)
        · exact ht.present hlt
      · show t.state.downloaded = t.state.streamed + 1
        rw [ht.downloaded, hstreamed, ← h.downloaded]
      · show Consumed r _ (t.state.streamed + 1)
        rw [hstreamed]
        exact hs.succ hcurrent hpos hbytes hlen ht.stream hopens ht.chunks hlt
      · show t.state.stream.isSome
        rw [ht.stream]
        rfl
      · show t.state.streamed + 1 = _
        rw [hstreamed]
      · exact ht.other (Nat.ne_of_gt hi)

/-- The streaming loop takes the chunks up to `idx`. -/
theorem RemoteReader.streamTo_takes (hidx : idx < (r.size + chunk - 1) / chunk) :
    ∀ fuel s, StreamState r s → s.state.stream.isSome → s.state.streamed + fuel = idx + 1 →
      Yields (r.streamTo idx fuel) (fun _ t => Streamed r s t (idx + 1))
        (fun f t => StreamState r t ∧ t.state.stream.isSome ∧ readFullError f) s := by
  intro fuel
  induction fuel with
  | zero =>
    intro s h ho hf
    exact hf ▸ Streamed.refl h ho
  | succ fuel ih =>
    intro s h ho hf
    rw [RemoteReader.streamTo, yields_bind, yields_get, if_pos (by omega), yields_bind]
    refine (RemoteReader.streamOne_takes h ho (by rw [h.count]; omega)).mono (fun _ t ht => ?_)
      (fun _ _ h => h)
    refine (ih t ht.state ht.opened (by rw [ht.streamed]; omega)).mono (fun _ u hu => ?_)
      (fun _ _ h => h)
    exact ht.trans hu (by omega)

private theorem opens_append (hlog : t.log = s.log ++ [Call.fetchAll]) : t.opens = s.opens + 1 := by
  simp [Session.opens, Session.calls, hlog]

/-- One more attempt to open a stream counts if it succeeded. -/
theorem RemoteReader.opened_append (h : t.opens = s.opens + 1) :
    r.opened t = r.opened s + if (r.fetcher.fetchAll s.opens).isOk then 1 else 0 := by
  rw [RemoteReader.opened, RemoteReader.opened, h, List.range_succ, List.countP_append,
    List.countP_singleton]

/-- Opening the stream: it is there, or it could not be opened and nothing has changed. -/
theorem RemoteReader.openStream_opens (h : StreamState r s) :
    Yields r.openStream
      (fun _ t => Streamed r s t s.state.streamed ∧ (r.nextStream s).isSome)
      (fun _ t => StreamState r t ∧ t.state.stream = none ∧ s.state.stream = none ∧
        r.nextStream s = none) s := by
  rw [RemoteReader.openStream, yields_bind, yields_get]
  cases ho : s.state.stream with
  | some stream =>
    have hopen : s.state.stream.isSome := by rw [ho]; rfl
    simp only [Option.isNone_some, Bool.false_eq_true, ite_false, yields_pure]
    exact ⟨.refl h hopen, RemoteReader.nextStream_open hopen⟩
  | none =>
    obtain ⟨hzero, hnever⟩ := h.closed ho
    simp only [Option.isNone_none, ite_true, RemoteReader.fetchAll, yields_bind, yields_get,
      yields_note]
    have hnext : r.nextStream s = (r.fetcher.fetchAll s.opens).toOption := by
      rw [RemoteReader.nextStream, ho]
      rfl
    let noted : Session := { s with log := s.log ++ [Call.fetchAll] }
    have hopens : noted.opens = s.opens + 1 := opens_append rfl
    have hopened := RemoteReader.opened_append (r := r) hopens
    split
    · rename_i stream hread
      have hstream : r.fetcher.fetchAll s.opens = .ok stream := hread
      rw [hstream, hnever] at hopened
      simp only [yields_pure, yields_modifyState]
      refine ⟨⟨⟨h.count, fun hnone => (by cases hnone), Nat.le_of_eq hopened,
        fun i hi => absurd hi (Nat.not_lt_zero i), h.downloaded.trans hzero⟩, fun _ => ⟨?_, ?_⟩,
          rfl,
        hzero.symm, fun _ _ => ⟨rfl, rfl⟩⟩, ?_⟩
      · intro _
        rfl
      · intro current hcurrent
        cases hcurrent
        refine ⟨s.opens, ?_, stream, hstream, [], rfl, ?_,
          fun i hi => absurd hi (Nat.not_lt_zero i)⟩
        · exact Nat.lt_of_lt_of_eq (Nat.lt_succ_self _) hopens.symm
        · simp
      · rw [hnext, hstream]
        rfl
    · rename_i e hread
      have hstream : r.fetcher.fetchAll s.opens = .error e := hread
      rw [hstream, hnever] at hopened
      refine ⟨⟨h.count, fun _ => ⟨hzero, hopened⟩, ?_, h.produced, h.downloaded⟩, ho, trivial, ?_⟩
      · exact hopened.le.trans (Nat.zero_le 1)
      · rw [hnext, hstream]
        rfl

/-- A pass over a chunk that is not missing, or that comes from the disk. -/
theorem StreamPass.of_kept {chunks : List (Option Bytes)} (hs : StreamState r s)
    (hidx : ¬r.Needs s idx) (hlength : chunks.length = s.state.chunks.length)
    (hother : ∀ i, i ≠ idx → chunks[i]? = s.state.chunks[i]?)
    (hslot : idx < s.state.streamed → chunks[idx]? = s.state.chunks[idx]?) :
    StreamPass r s { s with state := { s.state with chunks := chunks } } [idx] := by
  have hsame : ∀ i < s.state.streamed, chunks[i]? = s.state.chunks[i]? := by
    intro i hi
    by_cases heq : i = idx
    · subst heq
      exact hslot hi
    · exact hother i heq
  refine ⟨⟨hlength.trans hs.count, hs.closed, hs.opened, fun i hi => ?_, hs.downloaded⟩,
    fun hconsumed => ⟨hconsumed.closed, fun current hcurrent => ?_⟩, fun hnone => ⟨hnone, rfl⟩,
    RemoteReader.nextStream_open, fun n => ?_, fun i hi => ⟨?_, rfl⟩⟩
  · obtain ⟨c, hc⟩ := hs.produced i hi
    exact ⟨c, (hsame i hi).trans hc⟩
  · obtain ⟨k, hk, whole, hwhole, taken, hsplit, htaken, hmemory⟩ :=
      hconsumed.taken current hcurrent
    exact ⟨k, hk, whole, hwhole, taken, hsplit, htaken,
      fun i hi => (hsame i hi).trans (hmemory i hi)⟩
  · simp [hidx]
  · exact hother i (Nat.ne_of_gt (hi idx (List.mem_singleton_self idx)))

/-- A chunk that the stream has passed is not missing. -/
theorem StreamState.streamed_le (h : StreamState r s) (hslot : s.state.chunks[idx]? = some none) :
    s.state.streamed ≤ idx := by
  by_contra hlt
  obtain ⟨c, hc⟩ := h.produced idx (Nat.lt_of_not_le hlt)
  rw [hslot] at hc
  cases hc

/-- The branch without ranges, for a missing chunk. -/
theorem RemoteReader.ensureStreamed_takes (h : StreamState r s) (hneeds : r.Needs s idx) :
    Yields (r.ensureStreamed idx) (fun _ t => StreamPass r s t [idx])
      (fun f t => StreamBroke r s f t) s := by
  have hlt : idx < s.state.chunks.length := (List.getElem?_eq_some_iff.mp hneeds.1).1
  have hle := h.streamed_le hneeds.1
  rw [RemoteReader.ensureStreamed, yields_bind]
  refine (RemoteReader.openStream_opens h).mono ?_ ?_
  · rintro _ t ⟨ht, hnext⟩
    rw [yields_bind, yields_get]
    have hfuel : t.state.streamed + (idx + 1 - t.state.streamed) = idx + 1 := by
      rw [ht.streamed]
      omega
    refine (RemoteReader.streamTo_takes (h.count ▸ hlt) _ t ht.state ht.opened hfuel).mono ?_ ?_
    · intro _ u hu
      have hall := ht.trans hu (by omega)
      refine ⟨hall.state, hall.consumed, fun hnone => ?_, fun _ => hnext, fun n => ?_,
        fun i hi => ?_⟩
      · have hopen := hall.opened
        rw [hnone] at hopen
        cases hopen
      · rw [hall.streamed]
        simp only [List.mem_singleton, exists_eq_left, hneeds, true_and]
        omega
      · exact hall.later i (hi idx (List.mem_singleton_self idx))
    · rintro f u ⟨hstate, hopen, herror⟩
      refine ⟨hstate, fun _ => herror, fun hnone => ?_⟩
      rw [hnone] at hopen
      cases hopen
  · rintro f t ⟨hstate, hnone, hnone', hnext⟩
    refine ⟨hstate, fun hopen => ?_, fun _ => ⟨hnone', hnext⟩⟩
    rw [hnone] at hopen
    cases hopen

/-- One pass of the read loop without ranges. -/
theorem RemoteReader.ensure_takes (hm : r.supportsRange = false)
    (hidx : idx < (r.size + chunk - 1) / chunk) (h : StreamState r s) :
    Yields (r.ensure idx) (fun _ t => StreamPass r s t [idx])
      (fun f t => StreamBroke r s f t) s := by
  have hlt : idx < s.state.chunks.length := h.count ▸ hidx
  simp only [RemoteReader.ensure, yields_bind, yields_get]
  cases hslot : s.state.chunks[idx]? with
  | none =>
    rw [List.getElem?_eq_none_iff] at hslot
    exact absurd hlt (Nat.not_lt.mpr hslot)
  | some slot =>
    cases slot with
    | some c =>
      refine .of_kept h (fun hneeds => ?_) rfl (fun _ _ => rfl) (fun _ => rfl)
      cases hslot.symm.trans hneeds.1
    | none =>
      cases hcached : r.cached s.disk idx with
      | some data =>
        refine (putChunk_sets hlt).mono (fun _ t ht => ?_) (fun _ _ h => h.elim)
        subst ht
        refine .of_kept h (fun hneeds => ?_) List.length_set
          (fun i hi => List.getElem?_set_ne (Ne.symm hi)) fun hstreamed => ?_
        · cases hcached.symm.trans hneeds.2
        · exact absurd (h.streamed_le hslot) (Nat.not_le.mpr hstreamed)
      | none =>
        rw [hm]
        exact RemoteReader.ensureStreamed_takes h ⟨hslot, hcached⟩

/-- A request as a transition of a run. -/
def RemoteReader.transition (r : RemoteReader) (s : Session) (q : Request) :
    Transition Session Request (Except Fault Bytes) :=
  ⟨s, q, (r.step s q).1, (r.step s q).2⟩

/-- What reads without ranges leave, with a log of the chunks that they wanted. -/
structure TakenRead (r : RemoteReader) (s t : Session) (wanted : Set Nat) : Prop where
  consumed : Consumed r s s.state.streamed → Consumed r t t.state.streamed
  reached : ∀ n, n < t.state.streamed ↔ n < s.state.streamed ∨ ∃ i ∈ wanted, n ≤ i

/-- Reads taken from the stream join. -/
theorem TakenRead.trans {wanted wanted' : Set Nat} (h : TakenRead r s t wanted)
    (k : TakenRead r t u wanted') : TakenRead r s u (wanted ∪ wanted') where
  consumed hs := k.consumed (h.consumed hs)
  reached n := by
    rw [k.reached, h.reached, or_assoc]
    simp only [Set.mem_union, or_and_right, exists_or]

/-- One read without ranges. -/
theorem RemoteReader.readAt_takes (hm : r.supportsRange = false) (h : StreamState r s)
    (q : Request) : StreamState r (r.step s q).2 ∧ (¬StreamFailed (r.transition s q) →
      TakenRead r s (r.step s q).2 {i | r.Wants (r.transition s q) i}) := by
  have hread :=
    RemoteReader.readAt_loop (r := r) (q := q) (J := fun done t => StreamPass r s t done)
    (E := StreamBroke r s) (.refl h) (fun done idx t hlt hin hidx ht => by
      obtain ⟨pos, -, hpos, rfl⟩ := hidx
      have hsize := checkBounds_ok hin
      have hdiv := Nat.div_mul_le_self pos chunk
      have hcount := lt_chunks_iff.mpr (by omega : pos / chunk * chunk < r.size)
      exact (RemoteReader.ensure_takes hm hcount ht.state).mono (fun _ u hu => ht.trans hlt hu)
        (fun f u hu => .of_pass ht hu))
  have hpassed : ∀ idxs, StreamPass r s (r.step s q).2 idxs →
      (∀ i, i ∈ idxs ↔ r.InBounds q ∧ q.Overlaps i) →
      TakenRead r s (r.step s q).2 {i | r.Wants (r.transition s q) i} := by
    intro idxs ht hall
    refine ⟨ht.consumed, fun n => ?_⟩
    have hopen : n < (r.step s q).2.state.streamed → (r.nextStream s).isSome := by
      intro hn
      apply ht.source
      by_contra hnone
      rw [(ht.state.closed (by simpa using hnone)).1] at hn
      exact Nat.not_lt_zero n hn
    constructor
    · intro hn
      rcases (ht.reached n).mp hn with hs | ⟨i, hi, hneeds, hle⟩
      · exact Or.inl hs
      · obtain ⟨hin, hover⟩ := (hall i).mp hi
        exact Or.inr ⟨i, ⟨hin, hover, hneeds, hopen hn⟩, hle⟩
    · rintro (hs | ⟨i, ⟨hin, hover, hneeds, -⟩, hle⟩)
      · exact (ht.reached n).mpr (Or.inl hs)
      · exact (ht.reached n).mpr (Or.inr ⟨i, (hall i).mpr ⟨hin, hover⟩, hneeds, hle⟩)
  rw [yields_iff] at hread
  split at hread
  · obtain ⟨idxs, ht, hall⟩ := hread
    exact ⟨ht.state, fun _ => hpassed idxs ht hall⟩
  · rename_i f hanswer
    rcases hread with ⟨idxs, ht, hall⟩ | hbroke
    · exact ⟨ht.state, fun _ => hpassed idxs ht hall⟩
    · refine ⟨hbroke.state, fun hintact => ?_⟩
      have hnone : (r.step s q).2.state.stream = none := by
        by_contra hopen
        have hsome := Option.isSome_iff_ne_none.mpr hopen
        exact hintact ⟨hsome, f, hbroke.opened hsome, hanswer⟩
      obtain ⟨hs, hnext⟩ := hbroke.closed hnone
      have hzero : (r.step s q).2.state.streamed = 0 := (hbroke.state.closed hnone).1
      refine ⟨fun _ => ⟨fun _ => hzero, fun current hcurrent => ?_⟩, fun n => ?_⟩
      · cases hnone.symm.trans hcurrent
      · rw [hzero, (h.closed hs).1]
        refine ⟨fun hn => absurd hn (Nat.not_lt_zero n), ?_⟩
        rintro (hn | ⟨i, ⟨-, -, -, hopen⟩, -⟩)
        · exact hn
        · rw [show r.nextStream (r.transition s q).before = none from hnext] at hopen
          cases hopen

/-- The chunks that the reads of a run wanted. -/
def RemoteReader.wanted (r : RemoteReader) (s : Session) (qs : List Request) : Set Nat :=
  {i | ∃ t ∈ transitions r.step s qs, r.Wants t i}

/-- A run without ranges. -/
theorem RemoteReader.run_takes (hm : r.supportsRange = false) (h : StreamState r s)
    (qs : List Request) : StreamState r (final r.step s qs) ∧
      ((∀ t ∈ transitions r.step s qs, ¬StreamFailed t) →
        TakenRead r s (final r.step s qs) (r.wanted s qs)) := by
  induction qs generalizing s with
  | nil => exact ⟨h, fun _ => ⟨id, fun n => by simp [RemoteReader.wanted, transitions, final]⟩⟩
  | cons q qs ih =>
    obtain ⟨hstep, htaken⟩ := RemoteReader.readAt_takes hm h q
    obtain ⟨hrun, hrest⟩ := ih hstep
    refine ⟨hrun, fun hintact => ?_⟩
    have hall := (htaken (hintact _ (List.mem_cons_self ..))).trans
      (hrest fun t ht => hintact t (List.mem_cons_of_mem _ ht))
    have hwanted : r.wanted s (q :: qs) =
        {i | r.Wants (r.transition s q) i} ∪ r.wanted (r.step s q).2 qs := by
      ext i
      simp [RemoteReader.wanted, transitions, RemoteReader.transition]
    rw [hwanted]
    exact hall

end Streaming

/-- What a reader fetches over a run. -/
structure Lazy (r : RemoteReader) (s : Session) (qs : List Request) : Prop where
  /-- A range is asked for only for a chunk that the read overlaps and that is missing. -/
  asked : r.supportsRange = true → ∀ t ∈ transitions r.step s qs,
    ∃ new, Asked r t.before t.after new ∧ ∀ i ∈ new, t.request.Overlaps i
  fetchedOnce : r.supportsRange = true → ∀ i, r.fetched (final r.step s qs) i ≤ 1
  openedOnce : r.supportsRange = false → r.opened (final r.step s qs) ≤ 1
  produced : r.supportsRange = false → ∀ i < (final r.step s qs).state.streamed,
    Present (final r.step s qs) i
  /-- While the stream has not failed, the chunks up to the last wanted one were taken. -/
  consumed : r.supportsRange = false → (∀ t ∈ transitions r.step s qs, ¬StreamFailed t) →
    (r.wanted s qs = ∅ ∧ Consumed r (final r.step s qs) 0) ∨
      ∃ m, IsGreatest (r.wanted s qs) m ∧ Consumed r (final r.step s qs) (m + 1)
  downloaded : (final r.step s qs).state.downloaded ≤ (r.size + chunk - 1) / chunk

section

variable {r : RemoteReader} {s : Session} {qs : List Request}

/-- The counter stands behind the last wanted chunk. -/
theorem TakenRead.greatest {t : Session} {wanted : Set Nat} (h : TakenRead r s t wanted)
    (hs : s.state.streamed = 0) : (wanted = ∅ ∧ t.state.streamed = 0) ∨
      ∃ m, IsGreatest wanted m ∧ t.state.streamed = m + 1 := by
  have hreached : ∀ n, n < t.state.streamed ↔ ∃ i ∈ wanted, n ≤ i := by
    intro n
    rw [h.reached, hs]
    simp
  cases hk : t.state.streamed with
  | zero =>
    refine Or.inl ⟨Set.eq_empty_of_forall_notMem fun i hi => ?_, rfl⟩
    have hlt := (hreached i).mpr ⟨i, hi, Nat.le_refl i⟩
    rw [hk] at hlt
    exact Nat.not_lt_zero i hlt
  | succ m =>
    have hbound : ∀ i ∈ wanted, i ≤ m := by
      intro i hi
      have hlt := (hreached i).mpr ⟨i, hi, Nat.le_refl i⟩
      omega
    obtain ⟨i, hi, hle⟩ := (hreached m).mp (by omega)
    have heq : i = m := Nat.le_antisymm (hbound i hi) hle
    exact Or.inr ⟨m, ⟨heq ▸ hi, hbound⟩, rfl⟩

/-- No more chunks are streamed than there are. -/
theorem StreamState.streamed_le_count (h : StreamState r s) :
    s.state.streamed ≤ (r.size + chunk - 1) / chunk := by
  by_contra hgt
  obtain ⟨c, hc⟩ := h.produced _ (Nat.lt_of_not_le hgt)
  have hlt := (List.getElem?_eq_some_iff.mp hc).1
  rw [h.count] at hlt
  exact Nat.lt_irrefl _ hlt

/-- The session of a reader that was just built. -/
theorem build_start {fetcher : Fetcher} {cache : Option DiskCache} {st : State}
    (h : build fetcher cache = .ok (r, st)) (disk : CacheDir) :
    RangeState r ⟨st, disk, []⟩ ∧ StreamState r ⟨st, disk, []⟩ ∧ st.stream = none ∧
      st.streamed = 0 := by
  cases hp : fetcher.probe with
  | error e =>
    rw [build, hp] at h
    cases h
  | ok probe =>
    obtain ⟨rfl, _, rfl⟩ := build_eq hp h
    exact ⟨⟨List.length_replicate, fun _ => Nat.zero_le 1, fun _ hi => absurd hi (Nat.lt_irrefl 0),
      Nat.zero_le _⟩, ⟨List.length_replicate, fun _ => ⟨rfl, rfl⟩, Nat.zero_le 1,
        fun _ hi => absurd hi (Nat.not_lt_zero _), rfl⟩, rfl, rfl⟩

end

/-- Over any run, with any server and any failures, the reader fetches nothing that it
does not miss, and nothing twice. -/
theorem reads_are_lazy {fetcher : Fetcher} {cache : Option DiskCache} {disk : CacheDir}
    {r : RemoteReader} {st : State} (hbuild : build fetcher cache = .ok (r, st))
    (qs : List Request) : Lazy r ⟨st, disk, []⟩ qs := by
  obtain ⟨hrange, hstream, hclosed, hzero⟩ := build_start hbuild disk
  cases hm : r.supportsRange with
  | true =>
    have hall : ∀ t ∈ transitions r.step ⟨st, disk, []⟩ qs, RangeState r t.before ∧
        RangeState r t.after ∧
          ∃ new, Asked r t.before t.after new ∧ ∀ i ∈ new, t.request.Overlaps i := by
      apply forall_transitions (G := fun _ _ => True)
      · exact fun s q hs _ => RemoteReader.readAt_asks hm hs q
      · exact hrange
      · exact fun _ _ => trivial
    have hfinal : RangeState r (final r.step ⟨st, disk, []⟩ qs) :=
      final_of_step (I := RangeState r) (G := fun _ _ => True)
        (fun s q hs _ => (RemoteReader.readAt_asks hm hs q).1) hrange (fun _ _ => trivial)
    refine ⟨fun _ t ht => (hall t ht).2.2, fun _ => hfinal.fetched, ?_, ?_, ?_, ?_⟩
    · intro hno
      cases hm.symm.trans hno
    · intro hno
      cases hm.symm.trans hno
    · intro hno
      cases hm.symm.trans hno
    · exact hfinal.downloaded.trans (List.countP_le_length.trans (Nat.le_of_eq hfinal.count))
  | false =>
    obtain ⟨hfinal, htaken⟩ := RemoteReader.run_takes hm hstream qs
    refine ⟨?_, ?_, fun _ => hfinal.opened, fun _ => hfinal.produced, fun _ hintact => ?_, ?_⟩
    · intro hyes
      cases hm.symm.trans hyes
    · intro hyes
      cases hm.symm.trans hyes
    · have hrun := htaken hintact
      have hstart : Consumed r ⟨st, disk, []⟩ st.streamed := by
        refine ⟨fun _ => hzero, fun current hcurrent => ?_⟩
        cases hclosed.symm.trans hcurrent
      have hconsumed := hrun.consumed hstart
      rcases hrun.greatest hzero with ⟨hempty, hnone⟩ | ⟨m, hm, hsome⟩
      · exact Or.inl ⟨hempty, hnone ▸ hconsumed⟩
      · exact Or.inr ⟨m, hm, hsome ▸ hconsumed⟩
    · rw [hfinal.downloaded]
      exact hfinal.streamed_le_count

/-- A stream of three bytes in two pieces. -/
def pieces : Stream := [.piece 1 [2], .piece 3 []]

/-- A server without ranges that offers it. -/
def pieceFetcher : Fetcher where
  probe := .ok ⟨3, false⟩
  fetchRange _ _ _ := .error (.http [])
  fetchAll _ := .ok pieces

/-- Three reads over a server without ranges. -/
theorem reads_are_lazy_three_bytes :
    Lazy ⟨pieceFetcher, 3, false, none⟩
      ⟨⟨List.replicate ((3 + chunk - 1) / chunk) none, none, 0, 0⟩, fun _ => none, []⟩
      [⟨0, 2⟩, ⟨1, 5⟩, ⟨2, 1⟩] :=
  reads_are_lazy (build_ok (rfl : pieceFetcher.probe = .ok ⟨3, false⟩) (Nat.succ_ne_zero 2)) _

section Refused

/-! A read that is refused takes nothing, though it overlaps chunks that are missing. -/

/-- As long as the stream has not failed, the chunks up to the last one that any read
overlapped while it was missing were taken. -/
def ConsumedAsMissed (r : RemoteReader) (s : Session) (qs : List Request) : Prop :=
  (∀ t ∈ transitions r.step s qs, ¬StreamFailed t) →
    ∀ m, IsGreatest {i | ∃ t ∈ transitions r.step s qs,
      t.request.Overlaps i ∧ r.Needs t.before i} m → Consumed r (final r.step s qs) (m + 1)

/-- A server without ranges that refuses the first attempt to open its stream. -/
def shyFetcher : Fetcher where
  probe := .ok ⟨3, false⟩
  fetchRange _ _ _ := .error (.http [])
  fetchAll k := if k = 0 then .error (.http "refused".toList) else .ok pieces

/-- The reader's session with no chunk and no file. -/
def threeStart : Session :=
  ⟨⟨List.replicate ((3 + chunk - 1) / chunk) none, none, 0, 0⟩, fun _ => none, []⟩

/-- The first chunk alone is needed. -/
private theorem threeStart_needs (fetcher : Fetcher) {i : Nat} :
    RemoteReader.Needs ⟨fetcher, 3, false, none⟩ threeStart i ↔ i = 0 := by
  have hchunk : 3 ≤ chunk := by
    unfold chunk
    decide
  have hslot : threeStart.state.chunks[i]? = some none ↔ i * chunk < 3 := by
    rw [← lt_chunks_iff, threeStart, List.getElem?_replicate]
    split <;> simp_all
  rw [RemoteReader.Needs, hslot]
  constructor
  · rintro ⟨hlt, -⟩
    by_contra hne
    have := Nat.le_mul_of_pos_left chunk (Nat.pos_of_ne_zero hne)
    omega
  · rintro rfl
    exact ⟨by omega, rfl⟩

private theorem not_consumedAsMissed {fetcher : Fetcher} {len : Nat} (hlen : 0 < len)
    (hread : Yields (RemoteReader.readAt ⟨fetcher, 3, false, none⟩ 0 len) (fun _ _ => False)
      (fun _ t => t.state.stream = none) threeStart) :
    ¬ConsumedAsMissed ⟨fetcher, 3, false, none⟩ threeStart [⟨0, len⟩] := by
  intro h
  obtain ⟨f, -, hnone⟩ := hread.raises
  have hintact : ∀ t ∈ transitions (RemoteReader.step ⟨fetcher, 3, false, none⟩) threeStart
      [⟨0, len⟩], ¬StreamFailed t := by
    rintro t ht ⟨hopen, -⟩
    cases List.mem_singleton.mp ht
    rw [show (RemoteReader.step ⟨fetcher, 3, false, none⟩ threeStart ⟨0, len⟩).2.state.stream = none
      from hnone] at hopen
    cases hopen
  have hgreatest : IsGreatest {i | ∃ t ∈ transitions
      (RemoteReader.step ⟨fetcher, 3, false, none⟩) threeStart [⟨0, len⟩],
      t.request.Overlaps i ∧ RemoteReader.Needs ⟨fetcher, 3, false, none⟩ t.before i} 0 := by
    constructor
    · refine ⟨_, List.mem_singleton_self _, ⟨0, Nat.le_refl 0, ?_, Nat.zero_div _⟩,
        (threeStart_needs fetcher).mpr rfl⟩
      exact Nat.lt_of_lt_of_eq hlen (Nat.zero_add len).symm
    · rintro i ⟨t, ht, -, hneeds⟩
      cases List.mem_singleton.mp ht
      exact Nat.le_of_eq ((threeStart_needs fetcher).mp hneeds)
  exact absurd ((h hintact 0 hgreatest).closed hnone) (Nat.succ_ne_zero 0)

/-- A read that leaves the image, and a read for which no stream could be opened. -/
theorem refused_reads_take_nothing :
    ¬ConsumedAsMissed ⟨pieceFetcher, 3, false, none⟩ threeStart [⟨0, 4⟩] ∧
      ¬ConsumedAsMissed ⟨shyFetcher, 3, false, none⟩ threeStart [⟨0, 1⟩] := by
  constructor
  · refine not_consumedAsMissed (Nat.succ_pos 3) ?_
    rw [RemoteReader.readAt, show checkBounds 3 0 4 = .error (.outOfBounds 0 4 3) from rfl]
    exact rfl
  · refine not_consumedAsMissed Nat.one_pos ?_
    rw [RemoteReader.readAt, show checkBounds 3 0 1 = .ok () from rfl]
    simp only [Nat.one_ne_zero, ite_false, Nat.zero_add, Nat.sub_self, Nat.zero_div, Nat.sub_zero,
      List.range'_one, List.forM_cons, List.forM_nil, yields_bind]
    rw [RemoteReader.ensure, yields_bind, yields_get, ((threeStart_needs shyFetcher).mpr rfl).1]
    exact rfl

end Refused

end BootExtractor.Remote
