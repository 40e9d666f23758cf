import BootExtractor.Source.RemoteRange

/-!
# Reading without ranges

Chunks come off one forward stream. The reader counts how many it has taken and
trusts that the stream stands at the start of the next one. That holds as long as
the stream fails only between chunks: a failure inside a chunk loses the bytes
already taken, while the stream is kept and goes on behind them.
-/

namespace BootExtractor.Remote

open Effect Bytes Runs

/-- Every failure the stream still has in front of position `limit` strikes at a
chunk boundary. The position is counted from the end of the body. -/
def ErrorsAlign (size limit : Nat) : Stream → Prop
  | [] => True
  | .piece _ _ :: more => ErrorsAlign size limit more
  | .ioError _ :: more =>
    (size - (Stream.bytes more).length < limit →
      (size - (Stream.bytes more).length) % chunk = 0) ∧ ErrorsAlign size limit more

section Stream

/-- A read splits the coming bytes into the delivered ones and the remaining ones. -/
theorem Stream.read_ok {cap : Nat} {stream rest : Stream} {data : Bytes}
    (h : stream.read cap = (.ok data, rest)) :
    stream.bytes = data ++ rest.bytes ∧ data.length ≤ cap := by
  cases stream with
  | nil => cases h; exact ⟨rfl, Nat.zero_le _⟩
  | cons item more =>
    cases item with
    | ioError msg => cases h
    | piece b bs =>
      simp only [Stream.read, Prod.mk.injEq, Except.ok.injEq] at h
      obtain ⟨rfl, rfl⟩ := h
      refine ⟨?_, List.length_take_le _ _⟩
      rw [Stream.bytes]
      conv_lhs => rw [← List.take_append_drop cap (b :: bs), List.append_assoc]
      cases hd : (b :: bs).drop cap with
      | nil => rfl
      | cons c cs => rfl

/-- A failing read delivers nothing. -/
theorem Stream.read_error {cap : Nat} {stream rest : Stream} {msg : Str}
    (h : stream.read cap = (.error msg, rest)) : stream = .ioError msg :: rest := by
  cases stream with
  | nil => cases h
  | cons item more => cases item <;> cases h; rfl

/-- Only a stream that delivers nothing more can return an empty read. -/
theorem Stream.read_empty {cap : Nat} (hcap : 0 < cap) {stream rest : Stream}
    (h : stream.read cap = (.ok [], rest)) : stream.bytes = [] := by
  cases stream with
  | nil => rfl
  | cons item more =>
    cases item with
    | ioError msg => cases h
    | piece b bs =>
      simp only [Stream.read, Prod.mk.injEq, Except.ok.injEq, List.take_eq_nil_iff,
        List.cons_ne_nil, or_false] at h
      omega

/-- Reading leaves the failures that are still to come where they are. -/
theorem ErrorsAlign.read {size limit cap : Nat} {stream rest : Stream} {data : Bytes}
    (hs : ErrorsAlign size limit stream) (h : stream.read cap = (.ok data, rest)) :
    ErrorsAlign size limit rest := by
  cases stream with
  | nil => cases h; exact hs
  | cons item more =>
    cases item with
    | ioError msg => cases h
    | piece b bs =>
      simp only [Stream.read, Prod.mk.injEq] at h
      obtain ⟨-, rfl⟩ := h
      cases (b :: bs).drop cap <;> exact hs

/-- Filling a chunk from a stream that stands at its start and fails at most there.
Either the whole chunk is read, or nothing of it is taken from the stream. -/
theorem readFull_aligned {body : Bytes} {p want : Nat} {stream : Stream} {filled : Bytes}
    (hp : p % chunk = 0) (hwc : want ≤ chunk) (hwb : p + want ≤ body.length)
    (hf : filled = slice body p filled.length) (hfl : filled.length ≤ want)
    (hs : stream.bytes = body.drop (p + filled.length))
    (ha : ErrorsAlign body.length (p + want) stream) :
    (∃ rest, readFull stream want filled = (.ok (slice body p want), rest) ∧
      rest.bytes = body.drop (p + want) ∧
      ∀ limit, ErrorsAlign body.length limit stream → ErrorsAlign body.length limit rest) ∨
    ∃ e rest, readFull stream want filled = (.error e, rest) ∧ filled = [] ∧
      rest.bytes = stream.bytes := by
  induction hk : want - filled.length using Nat.strong_induction_on generalizing stream filled with
  | _ k ih =>
  rw [readFull]
  by_cases hlt : filled.length < want
  · rw [if_pos hlt]
    cases hr : stream.read (want - filled.length) with
    | mk res rest =>
      cases res with
      | error msg =>
        right
        have hst := Stream.read_error hr
        subst hst
        refine ⟨_, rest, rfl, ?_, rfl⟩
        -- the failure is inside the chunk unless nothing of it was taken
        have hpos : body.length - (Stream.bytes rest).length = p + filled.length := by
          rw [Stream.bytes] at hs
          rw [hs, List.length_drop]
          omega
        have hal := ha.1 (by omega)
        rw [hpos, Nat.add_mod, hp, Nat.zero_add, Nat.mod_mod, Nat.mod_eq_of_lt (by omega)] at hal
        exact List.length_eq_zero_iff.mp hal
      | ok data =>
        cases data with
        | nil =>
          have := Stream.read_empty (by omega) hr
          rw [hs, List.drop_eq_nil_iff] at this
          omega
        | cons b bs =>
          obtain ⟨hsplit, hcap⟩ := Stream.read_ok hr
          have hlen : (filled ++ b :: bs).length = filled.length + (b :: bs).length :=
            List.length_append
          have hpart : b :: bs = slice body (p + filled.length) (b :: bs).length := by
            rw [slice, ← hs, hsplit, List.take_left]
          have hfilled : filled ++ b :: bs = slice body p (filled ++ b :: bs).length := by
            rw [hlen, slice_add, ← hf, ← hpart]
          have hrest : rest.bytes = body.drop (p + (filled ++ b :: bs).length) := by
            have := congrArg (List.drop (b :: bs).length) hsplit
            rw [List.drop_left, hs, List.drop_drop] at this
            rw [← this, hlen, Nat.add_assoc]
          have hpos : 0 < (b :: bs).length := Nat.succ_pos _
          rcases ih (want - (filled ++ b :: bs).length) (by omega) hfilled (by omega) hrest
            (ha.read hr) rfl with ⟨rest', hok, hb, hal⟩ | ⟨e, rest', _, hnil, _⟩
          · exact Or.inl ⟨rest', hok, hb, fun limit hl => hal limit (hl.read hr)⟩
          · exact absurd hnil (by simp)
  · rw [if_neg hlt]
    have he : filled.length = want := by omega
    left
    exact ⟨stream, by rw [hf, he], by rw [hs, he], fun _ h => h⟩

/-- Filling an empty buffer with the chunk the stream stands at. -/
theorem readFull_chunk {body : Bytes} {p want : Nat} {stream : Stream}
    (hp : p % chunk = 0) (hwc : want ≤ chunk) (hwb : p + want ≤ body.length)
    (hs : stream.bytes = body.drop p) (ha : ErrorsAlign body.length (p + want) stream) :
    (∃ rest, readFull stream want [] = (.ok (slice body p want), rest) ∧
      rest.bytes = body.drop (p + want) ∧
      ∀ limit, ErrorsAlign body.length limit stream → ErrorsAlign body.length limit rest) ∨
    ∃ e rest, readFull stream want [] = (.error e, rest) ∧ rest.bytes = stream.bytes := by
  rcases readFull_aligned hp hwc hwb (slice_zero_length _ _).symm
    (Nat.zero_le _) (by rw [List.length_nil, Nat.add_zero]; exact hs) ha with
    h | ⟨e, rest, herr, -, hb⟩
  · exact Or.inl h
  · exact Or.inr ⟨e, rest, herr, hb⟩

end Stream

/-- The stream stands at the start of the next chunk, and all chunks in front of it
are in memory. -/
structure InStep (body : Bytes) (s : Session) : Prop where
  position : ∀ stream, s.state.stream = some stream →
    stream.bytes = body.drop (s.state.streamed * chunk)
  produced : ∀ i < s.state.streamed, Present s i

/-- The stream the next chunk will come from: the open one, or the one that opening
would give now. -/
def RemoteReader.nextStream (r : RemoteReader) (s : Session) : Option Stream :=
  match s.state.stream with
  | some stream => some stream
  | none => (r.fetcher.fetchAll (s.calls (· matches .fetchAll))).toOption

/-- Chunk `idx` is neither in memory nor validly on disk, so a read has to stream it. -/
def RemoteReader.Needs (r : RemoteReader) (s : Session) (idx : Nat) : Prop :=
  s.state.chunks[idx]? = some none ∧ r.cached s.disk idx = none

/-- The stream does not fail inside a chunk up to chunk `idx`. -/
def RemoteReader.CleanTo (r : RemoteReader) (s : Session) (idx : Nat) : Prop :=
  ∀ stream, r.nextStream s = some stream →
    ErrorsAlign r.size (min ((idx + 1) * chunk) r.size) stream

/-- The request passes the bounds check. -/
def RemoteReader.InBounds (r : RemoteReader) (q : Request) : Prop :=
  checkBounds r.size q.offset q.len = .ok ()

/-- Before the request, the stream has no failure inside the chunks that the request
still has to stream. An empty request and one that is refused stream nothing. -/
def RemoteReader.NoMidChunkError (r : RemoteReader) (s : Session) (q : Request) : Prop :=
  0 < q.len → r.InBounds q → ∀ idx, q.offset / chunk ≤ idx →
    idx ≤ (q.offset + q.len - 1) / chunk → r.Needs s idx → r.CleanTo s idx

section Streaming

variable {body : Bytes} {r : RemoteReader}

/-- Alignment up to a limit is alignment up to a lower one. -/
theorem ErrorsAlign.mono {size limit limit' : Nat} {stream : Stream}
    (h : ErrorsAlign size limit stream) (hl : limit' ≤ limit) : ErrorsAlign size limit' stream := by
  induction stream with
  | nil => trivial
  | cons item more ih =>
    cases item with
    | piece b bs => exact ih h
    | ioError msg => exact ⟨fun hlt => h.1 (by omega), ih h.2⟩

/-- What streaming one more chunk leaves behind. -/
structure Streams (body : Bytes) (r : RemoteReader) (s t : Session) : Prop where
  grows : Grows body s t
  inStep : InStep body t
  /-- Failures that were aligned still are. -/
  clean : ∀ idx, r.CleanTo s idx → r.CleanTo t idx

/-- Stretches of a session join. -/
theorem Streams.trans {s t u : Session} (h : Streams body r s t) (k : Streams body r t u) :
    Streams body r s u :=
  ⟨h.grows.trans k.grows, k.inStep, fun idx hc => k.clean idx (h.clean idx hc)⟩

/-- One pass of the loop: the next chunk is stored and the stream moves behind it, or
an ordinary error leaves reader and stream in step. -/
theorem RemoteReader.streamOne_spec (hr : r.size = body.length) {s : Session} {stream : Stream}
    (hs : TrueChunks body s) (hi : InStep body s) (ho : s.state.stream = some stream)
    (hlt : s.state.streamed < chunkCount body) (hc : r.CleanTo s s.state.streamed) :
    Yields r.streamOne
      (fun _ t => Streams body r s t ∧ t.state.streamed = s.state.streamed + 1 ∧
        t.state.stream.isSome)
      (fun f t => Grows body s t ∧ f.IsErr ∧ InStep body t) s := by
  have hlen : r.chunkLen s.state.streamed = (chunkOf body s.state.streamed).length :=
    r.chunkLen_eq hr _
  have hpos := lt_chunkCount.mp hlt
  have hwant : s.state.streamed * chunk + r.chunkLen s.state.streamed =
      min ((s.state.streamed + 1) * chunk) r.size := by
    rw [hlen, length_chunkOf, hr, Nat.succ_mul]
    omega
  have hchunk : slice body (s.state.streamed * chunk) (r.chunkLen s.state.streamed) =
      chunkOf body s.state.streamed := by
    rw [hlen, chunkOf, length_slice, slice, slice, List.take_eq_take_iff, List.length_drop]
    omega
  have hclean : ErrorsAlign r.size (min ((s.state.streamed + 1) * chunk) r.size) stream :=
    hc stream (by simp only [RemoteReader.nextStream, ho])
  have hlim : ErrorsAlign body.length
      (s.state.streamed * chunk + r.chunkLen s.state.streamed) stream := by
    rw [hwant, ← hr]
    exact hclean
  have hfull := readFull_chunk (Nat.mul_mod_left s.state.streamed chunk)
    (by rw [hlen, length_chunkOf]; exact Nat.min_le_right _ _) (by rw [hwant, hr]; omega)
    (hi.position stream ho) hlim
  rw [RemoteReader.streamOne, yields_bind, yields_get, ho]
  rcases hfull with ⟨rest, hok, hb, hal⟩ | ⟨e, rest, herr, hb⟩
  · simp only [hok, yields_bind, yields_modifyState]
    let put : Session := { s with state := { s.state with stream := some rest } }
    have hput : Grows body s put := Grows.of_eq rfl rfl
    refine (RemoteReader.store_spec (s := put) (hs.count ▸ hlt) hchunk).mono
      (fun _ t ht => ?_) (fun _ _ h => h.elim)
    obtain ⟨hg, hp, hst, hsd⟩ := ht
    refine ⟨⟨(hput.trans hg).trans (Grows.of_eq rfl rfl), ⟨?_, ?_⟩, ?_⟩, ?_, ?_⟩
    · intro stream' he
      have : rest = stream' := Option.some.inj (hst.symm.trans he)
      rw [← this, hb, hwant, hr]
      show _ = body.drop ((t.state.streamed + 1) * chunk)
      rw [show t.state.streamed = s.state.streamed from hsd]
      by_cases hle : (s.state.streamed + 1) * chunk ≤ body.length
      · rw [Nat.min_eq_left hle]
      · rw [Nat.min_eq_right (by omega), List.drop_length, eq_comm, List.drop_eq_nil_iff]
        omega
    · intro i hlti
      have hlti : i < t.state.streamed + 1 := hlti
      rw [show t.state.streamed = s.state.streamed from hsd] at hlti
      rcases Nat.lt_succ_iff_lt_or_eq.mp hlti with hlti | rfl
      · exact (hput.trans hg).present (hi.produced i hlti)
      · exact hp
    · intro idx hcl stream' he
      have : rest = stream' := by
        simp only [RemoteReader.nextStream, hst] at he
        exact Option.some.inj he
      rw [← this]
      have hcs := hcl stream (by simp only [RemoteReader.nextStream, ho])
      rw [hr] at hcs ⊢
      exact hal _ hcs
    · show t.state.streamed + 1 = _
      rw [hsd]
    · simp only [hst, Option.isSome_some, put]
  · simp only [herr, yields_bind, yields_modifyState]
    refine ⟨Grows.of_eq rfl rfl, Fault.isErr_err _, ⟨?_, ?_⟩⟩
    · intro stream' he
      cases he
      exact hb.trans (hi.position stream ho)
    · exact hi.produced

/-- A stream that is clean up to a chunk is clean up to any earlier one. -/
theorem RemoteReader.CleanTo.mono {s : Session} {idx idx' : Nat} (h : r.CleanTo s idx)
    (hle : idx' ≤ idx) : r.CleanTo s idx' := by
  intro stream hs
  have := Nat.mul_le_mul_right chunk (Nat.succ_le_succ hle)
  exact (h stream hs).mono (by simp only [Nat.succ_eq_add_one] at this; omega)

/-- Opening the stream, when it is not open yet. -/
theorem RemoteReader.openStream_spec
    (hf : ∀ k stream, r.fetcher.fetchAll k = .ok stream → stream.bytes = body)
    {s : Session} (hi : InStep body s) :
    Yields r.openStream
      (fun _ t => Streams body r s t ∧ t.state.stream.isSome)
      (fun f t => Grows body s t ∧ f.IsErr ∧ InStep body t) s := by
  rw [RemoteReader.openStream, yields_bind, yields_get]
  cases ho : s.state.stream with
  | some stream =>
    refine ⟨⟨Grows.refl body s, hi, fun _ h => h⟩, ?_⟩
    rw [ho]
    rfl
  | none =>
    simp only [Option.isNone_none, ite_true, RemoteReader.fetchAll, yields_bind, yields_get,
      yields_note]
    cases hk : r.fetcher.fetchAll (s.calls (· matches .fetchAll)) with
    | error e => exact ⟨Grows.of_eq rfl rfl, Fault.isErr_err e, ⟨hi.position, hi.produced⟩⟩
    | ok stream =>
      simp only [yields_pure, yields_modifyState]
      refine ⟨⟨Grows.of_eq rfl rfl, ⟨?_, ?_⟩, ?_⟩, rfl⟩
      · intro stream' he
        rw [Option.some.inj he.symm, hf _ _ hk]
        exact (by rw [Nat.zero_mul, List.drop_zero] : body = body.drop (0 * chunk))
      · exact fun i hlt => absurd hlt (Nat.not_lt_zero i)
      · intro idx hc stream' he
        refine hc stream' ?_
        rw [RemoteReader.nextStream, ho, hk]
        exact he

/-- The streaming loop ends behind chunk `idx`. -/
theorem RemoteReader.streamTo_spec (hr : r.size = body.length) {idx : Nat}
    (hidx : idx < chunkCount body) (fuel : Nat) : ∀ s, TrueChunks body s → InStep body s →
    s.state.stream.isSome → r.CleanTo s idx → idx + 1 ≤ s.state.streamed + fuel →
    Yields (r.streamTo idx fuel)
      (fun _ t => Streams body r s t ∧ idx < t.state.streamed)
      (fun f t => Grows body s t ∧ f.IsErr ∧ InStep body t) s := by
  induction fuel with
  | zero =>
    intro s _ hi _ _ hle
    exact ⟨⟨Grows.refl body s, hi, fun _ h => h⟩, by omega⟩
  | succ fuel ih =>
    intro s hs hi ho hc hle
    rw [RemoteReader.streamTo, yields_bind, yields_get]
    by_cases hpass : s.state.streamed ≤ idx
    · rw [if_pos hpass, yields_bind]
      obtain ⟨stream, hst⟩ := Option.isSome_iff_exists.mp ho
      refine (RemoteReader.streamOne_spec hr hs hi hst (by omega) (hc.mono hpass)).mono
        (fun _ t ht => ?_) (fun _ _ h => h)
      obtain ⟨hst, hsd, hto⟩ := ht
      refine (ih t (hst.grows.trueChunks hs) hst.inStep hto (hst.clean idx hc) (by omega)).mono
        (fun _ u hu => ⟨hst.trans hu.1, hu.2⟩)
        (fun _ u hu => ⟨hst.grows.trans hu.1, hu.2⟩)
    · rw [if_neg hpass]
      exact ⟨⟨Grows.refl body s, hi, fun _ h => h⟩, by omega⟩

/-- A chunk that is still needed later was needed before. -/
theorem RemoteReader.Needs.of_grows (hr : r.size = body.length) {s t : Session}
    (hs : TrueChunks body s) (hg : Grows body s t) {idx : Nat} (h : r.Needs t idx) :
    r.Needs s idx := by
  obtain ⟨hm, hd⟩ := h
  refine ⟨?_, ?_⟩
  · rcases hg.memory idx with he | he
    · exact he ▸ hm
    · rw [hm] at he
      cases he
  · by_contra hsome
    obtain ⟨data, hdata⟩ := Option.ne_none_iff_exists'.mp hsome
    simp only [RemoteReader.cached, Option.bind_eq_some_iff, load] at hdata
    obtain ⟨cache, hcache, hload⟩ := hdata
    cases hfile : s.disk (.chunk idx) with
    | none => simp only [hfile, reduceCtorEq] at hload
    | some c =>
      simp only [hfile] at hload
      split at hload
      · rename_i hlen
        have hkept := hg.kept_file hs hfile (hlen.trans (r.chunkLen_eq hr idx))
        simp only [RemoteReader.cached, hcache, Option.bind_some, load, hkept, hlen, ite_true,
          reduceCtorEq] at hd
      · cases hload

/-- The invariant of the read loop: in step, and the chunks of the request that are
still to be streamed can be streamed without a failure inside a chunk. -/
def Ready (body : Bytes) (r : RemoteReader) (q : Request) (s : Session) : Prop :=
  InStep body s ∧ r.NoMidChunkError s q

/-- One request without range support. -/
theorem RemoteReader.readAt_stream (hr : r.size = body.length) (hm : r.supportsRange = false)
    (hf : ∀ k stream, r.fetcher.fetchAll k = .ok stream → stream.bytes = body)
    {s : Session} (hs : TrueChunks body s) (hi : InStep body s) (q : Request)
    (hq : r.NoMidChunkError s q) :
    Yields (r.readAt q.offset q.len)
      (fun buf t => Grows body s t ∧ InStep body t ∧ q.offset + q.len ≤ body.length ∧
        buf = slice body q.offset q.len)
      (fun f t => Grows body s t ∧ InStep body t ∧ f.IsErr) s := by
  refine RemoteReader.readAt_spec hr (I := Ready body r q) hs ⟨hi, hq⟩ (fun _ h => h.1)
    (fun hpos hin idx hfst hlst hidx => ?_)
  refine RemoteReader.ensure_spec hr hidx ?_ ?_
  · intro u v hu hiu hg hst hsd hlog
    refine ⟨⟨?_, ?_⟩, ?_⟩
    · intro stream he
      rw [hsd]
      exact hiu.1.position stream (hst ▸ he)
    · exact fun i hlt => hg.present (hiu.1.produced i (hsd ▸ hlt))
    · intro _ _ j hj1 hj2 hneed stream he
      refine hiu.2 hpos hin j hj1 hj2 (hneed.of_grows hr hu hg) stream ?_
      rw [RemoteReader.nextStream, Session.calls, hst, hlog] at he
      exact he
  · intro u hu hiu hslot hmiss
    rw [hm, if_neg (by decide), RemoteReader.ensureStreamed, yields_bind]
    refine (RemoteReader.openStream_spec hf hiu.1).mono (fun _ v hv => ?_) (fun _ _ h => h)
    obtain ⟨hv, hopen⟩ := hv
    rw [yields_bind, yields_get]
    have hclean : r.CleanTo v idx :=
      hv.clean idx (hiu.2 hpos hin idx hfst hlst ⟨hslot, hmiss⟩)
    refine (RemoteReader.streamTo_spec hr hidx _ v (hv.grows.trueChunks hu) hv.inStep hopen hclean
      (by omega)).mono (fun _ w hw => ?_) (fun _ w hw => ⟨hv.grows.trans hw.1, hw.2⟩)
    have hall := hv.trans hw.1
    refine ⟨hall.grows, hall.inStep.produced idx hw.2, hall.inStep, ?_⟩
    exact fun _ _ j hj1 hj2 hneed =>
      hall.clean j (hiu.2 hpos hin j hj1 hj2 (hneed.of_grows hr hu hall.grows))

end Streaming

/-- All chunks that the session holds, in memory or on disk, are the body's. -/
def HoldsBody (body : Bytes) (s : Session) : Prop :=
  (∀ (i : Nat) (c : Bytes), s.state.chunks[i]? = some (some c) → c = chunkOf body i) ∧
    ∀ (i : Nat) (c : Bytes), s.disk (.chunk i) = some c → c = chunkOf body i

/-- The chunks that are held stay those of the body. -/
theorem Grows.holdsBody {body : Bytes} {s t : Session} (h : Grows body s t)
    (hs : TrueChunks body s) (hb : HoldsBody body s) : HoldsBody body t := by
  refine ⟨(h.trueChunks hs).memory, fun i c hc => ?_⟩
  rcases h.disk i with he | he
  · exact hb.2 i c (he ▸ hc)
  · rw [he] at hc
    exact (Option.some.inj hc).symm

/-- What a read without ranges promises: an answer is exactly the body's bytes, and
no chunk that was stored differs from the body. -/
structure StreamRead (body : Bytes) (t : Transition Session Request (Except Fault Bytes)) :
    Prop where
  exact_ : ∀ buf, t.answer = .ok buf →
    t.request.offset + t.request.len ≤ body.length ∧
      buf = slice body t.request.offset t.request.len
  stored : HoldsBody body t.after

/-- Over any run without range support, as long as the stream never fails inside a
chunk that a request still has to stream, every answer is exact and every stored
chunk is the body's, whatever else fails. -/
theorem stream_reads_exact {body : Bytes} {fetcher : Fetcher} {cache : Option DiskCache}
    {disk : CacheDir} {r : RemoteReader} {st : State}
    (hprobe : fetcher.probe = .ok ⟨body.length, false⟩)
    (hbuild : build fetcher cache = .ok (r, st))
    (hstream : ∀ k stream, fetcher.fetchAll k = .ok stream → stream.bytes = body)
    (hdisk : ∀ i c, disk (.chunk i) = some c → c = chunkOf body i)
    (qs : List Request)
    (hclean : ∀ t ∈ transitions r.step ⟨st, disk, []⟩ qs, r.NoMidChunkError t.before t.request) :
    ∀ t ∈ transitions r.step ⟨st, disk, []⟩ qs, StreamRead body t := by
  obtain ⟨rfl, _, rfl⟩ := build_eq hprobe hbuild
  intro t ht
  refine (forall_transitions
    (I := fun s => TrueChunks body s ∧ InStep body s ∧ HoldsBody body s)
    (G := fun s q => RemoteReader.NoMidChunkError ⟨fetcher, body.length, false, cache⟩ s q)
    (R := StreamRead body) (fun s q hs hq => ?_) ?_ hclean t ht).2.2
  · obtain ⟨htrue, hstep, hholds⟩ := hs
    have hread := yields_iff.mp (RemoteReader.readAt_stream
      (r := ⟨fetcher, body.length, false, cache⟩) rfl rfl hstream htrue hstep q hq)
    cases ha : answer (RemoteReader.readAt ⟨fetcher, body.length, false, cache⟩ q.offset q.len) s
      with
    | ok buf =>
      rw [ha] at hread
      obtain ⟨hg, hst, hin, hbuf⟩ := hread
      refine ⟨⟨hg.trueChunks htrue, hst, hg.holdsBody htrue hholds⟩, ?_,
        hg.holdsBody htrue hholds⟩
      intro buf' he
      cases ha.symm.trans he
      exact ⟨hin, hbuf⟩
    | error f =>
      rw [ha] at hread
      obtain ⟨hg, hst, -⟩ := hread
      refine ⟨⟨hg.trueChunks htrue, hst, hg.holdsBody htrue hholds⟩, ?_,
        hg.holdsBody htrue hholds⟩
      intro buf he
      cases ha.symm.trans he
  · refine ⟨trueChunks_start (fun i c hc _ => hdisk i c hc), ⟨?_, ?_⟩, ?_, hdisk⟩
    · intro stream he
      cases he
    · exact fun i hlt => absurd hlt (Nat.not_lt_zero i)
    · intro i c hc
      rw [List.getElem?_replicate] at hc
      split at hc <;> cases hc

section Late

/-! A body of one full chunk and one more byte, over streams that fail once: at the boundary
of the two chunks, and inside the first one. -/

private theorem two_le_chunk : 2 ≤ chunk := by
  unfold chunk
  decide

/-- A body of one full chunk of zeroes and one further byte. -/
def lateBody : Bytes := List.replicate chunk 0 ++ [1]

/-- The reader over a server without ranges that offers a stream of that body. -/
def lateReader (stream : Stream) : RemoteReader where
  fetcher :=
    { probe := .ok ⟨lateBody.length, false⟩
      fetchRange := fun _ _ _ => .error (.http [])
      fetchAll := fun _ => .ok stream }
  size := lateBody.length
  supportsRange := false
  cache := none

/-- The reader's session with no chunk and no file. -/
def lateSession : Session := ⟨⟨[none, none], none, 0, 0⟩, fun _ => none, []⟩

private theorem length_lateBody : lateBody.length = chunk + 1 := by
  rw [lateBody, List.length_append, List.length_replicate, List.length_singleton]

private theorem lateReader_chunkLen (stream : Stream) :
    (lateReader stream).chunkLen 0 = chunk ∧ (lateReader stream).chunkLen 1 = 1 := by
  have hsize : (lateReader stream).size = chunk + 1 := length_lateBody
  have htwo := two_le_chunk
  rw [RemoteReader.chunkLen, RemoteReader.chunkLen, hsize]
  omega

private theorem lateReader_build (stream : Stream) :
    build (lateReader stream).fetcher none = .ok (lateReader stream, lateSession.state) := by
  have hcount : (lateBody.length + chunk - 1) / chunk = 2 := by
    rw [length_lateBody, show chunk + 1 + chunk - 1 = 2 * chunk by omega,
      Nat.mul_div_cancel _ chunk_pos]
  have hp : (lateReader stream).fetcher.probe = .ok ⟨lateBody.length, false⟩ := rfl
  have h0 : lateBody.length ≠ 0 := by
    rw [length_lateBody]
    exact Nat.succ_ne_zero _
  rw [build_ok hp h0, hcount]
  rfl

/-- Reading one byte of a chunk that is not there comes down to streaming that chunk. -/
theorem lateReader_readAt {Q : Bytes → Session → Prop} {E : Fault → Session → Prop}
    {stream : Stream} {s : Session} {pos idx : Nat} (hpos : pos < lateBody.length)
    (hidx : pos / chunk = idx) (hslot : s.state.chunks[idx]? = some none)
    (h : Yields ((lateReader stream).ensureStreamed idx)
      (fun _ t => ∃ buf, copyOut t.state.chunks pos 1 = .ok buf ∧ Q buf t) E s) :
    Yields ((lateReader stream).readAt pos 1) Q E s := by
  have hb : checkBounds (lateReader stream).size pos 1 = .ok () := by
    have hsize : (lateReader stream).size = lateBody.length := rfl
    rw [checkBounds_eq (by rw [hsize, length_lateBody]; unfold chunk; decide), hsize,
      if_pos (by omega)]
  rw [RemoteReader.readAt, hb]
  simp only [Nat.one_ne_zero, ite_false, yields_bind, Nat.add_sub_cancel, hidx,
    Nat.add_sub_cancel_left, List.range'_one, List.forM_cons, List.forM_nil]
  rw [RemoteReader.ensure, yields_bind, yields_get, hslot]
  refine Yields.mono h (fun _ t ht => ?_) (fun _ _ h => h)
  obtain ⟨buf, hcopy, hq⟩ := ht
  rw [yields_pure, yields_bind, yields_get, hcopy]
  exact hq

/-- The stream is opened, unless it is open. -/
theorem lateReader_ensureStreamed {E : Fault → Session → Prop} {stream : Stream} {idx : Nat}
    {Q : Unit → Session → Prop} {s : Session}
    (h : ∀ t, s.state.stream.isSome ∧ t = s ∨
        s.state.stream = none ∧ t.state.chunks = s.state.chunks ∧
          t.state.stream = some stream ∧ t.state.streamed = 0 →
      Yields ((lateReader stream).streamTo idx (idx + 1 - t.state.streamed)) Q E t) :
    Yields ((lateReader stream).ensureStreamed idx) Q E s := by
  rw [RemoteReader.ensureStreamed, yields_bind, RemoteReader.openStream, yields_bind, yields_get]
  cases hopen : s.state.stream with
  | some current =>
    simp only [Option.isNone_some, Bool.false_eq_true, ite_false, yields_pure, yields_bind,
      yields_get]
    exact h s (Or.inl ⟨by rw [hopen]; rfl, rfl⟩)
  | none =>
    have hfetch : ∀ k, (lateReader stream).fetcher.fetchAll k = .ok stream := fun _ => rfl
    let opened : Session :=
      ⟨{ s.state with stream := some stream, streamed := 0 }, s.disk, s.log ++ [.fetchAll]⟩
    simp only [Option.isNone_none, ite_true, RemoteReader.fetchAll, yields_bind, yields_get,
      yields_note, yields_pure, yields_modifyState, hfetch]
    exact h opened (Or.inr ⟨hopen, rfl, rfl, rfl⟩)

/-- A chunk that the stream has is stored. -/
theorem lateReader_streamOne {stream current rest : Stream} {s : Session} {buf : Bytes}
    (hs : s.state.stream = some current)
    (hread : readFull current ((lateReader stream).chunkLen s.state.streamed) [] =
      (.ok buf, rest)) (hi : s.state.streamed < s.state.chunks.length) :
    Yields (lateReader stream).streamOne
      (fun _ t => t.state.chunks = s.state.chunks.set s.state.streamed (some buf) ∧
        t.state.stream = some rest ∧ t.state.streamed = s.state.streamed + 1)
      (fun _ _ => False) s := by
  have hcache : (lateReader stream).cache = none := rfl
  rw [RemoteReader.streamOne, yields_bind, yields_get, hs]
  simp only [hread, yields_bind, yields_modifyState, RemoteReader.store,
    RemoteReader.storeCached, hcache, yields_pure, putChunk, yields_get, if_pos hi,
    yields_note, and_self]

/-- A chunk that the stream fails to deliver is not; the stream goes on behind the failure. -/
theorem lateReader_streamOne_error {stream current rest : Stream} {s : Session} {e : Error}
    (hs : s.state.stream = some current)
    (hread : readFull current ((lateReader stream).chunkLen s.state.streamed) [] =
      (.error e, rest)) :
    Yields (lateReader stream).streamOne (fun _ _ => False)
      (fun _ t => t.state.chunks = s.state.chunks ∧ t.state.stream = some rest ∧
        t.state.streamed = s.state.streamed) s := by
  rw [RemoteReader.streamOne, yields_bind, yields_get, hs]
  simp only [hread, yields_bind, yields_modifyState, yields_throw, and_self]

/-- One pass of the streaming loop. -/
theorem lateReader_streamTo {Q : Unit → Session → Prop} {E : Fault → Session → Prop}
    {stream : Stream} {s : Session} {idx fuel : Nat} (hs : s.state.streamed ≤ idx)
    (h : Yields (lateReader stream).streamOne
      (fun _ t => Yields ((lateReader stream).streamTo idx fuel) Q E t) E s) :
    Yields ((lateReader stream).streamTo idx (fuel + 1)) Q E s := by
  rw [RemoteReader.streamTo, yields_bind, yields_get, if_pos hs, yields_bind]
  exact h

/-- A piece that just fills the buffer. -/
theorem readFull_piece {first : UInt8} {data : Bytes} {rest : Stream} {len : Nat}
    (h : (first :: data).length = len) :
    readFull (.piece first data :: rest) len [] = (.ok (first :: data), rest) := by
  rw [readFull, if_pos (by rw [← h]; exact Nat.succ_pos _)]
  simp only [Stream.read, List.length_nil, Nat.sub_zero, ← h, List.take_length, List.drop_length,
    List.nil_append]
  rw [readFull, if_neg (Nat.lt_irrefl _)]

/-- A failure in front of the chunk. -/
theorem readFull_failure {msg : Str} {rest : Stream} {len : Nat} (h : 0 < len) :
    readFull (.ioError msg :: rest) len [] =
      (.error (.http ("stream read: ".toList ++ msg)), rest) := by
  rw [readFull, List.length_nil, if_pos h]
  rfl

/-- A single byte is copied from its chunk. -/
theorem copyOut_byte {chunks : List (Option Bytes)} {pos : Nat} {data : Bytes} {b : UInt8}
    (hslot : chunks[pos / chunk]? = some (some data)) (hbyte : data[pos % chunk]? = some b) :
    copyOut chunks pos 1 = .ok [b] := by
  obtain ⟨hlt, hget⟩ := List.getElem?_eq_some_iff.mp hbyte
  have hone : min (data.length - pos % chunk) 1 = 1 := by omega
  have hslice : slice data (pos % chunk) 1 = [b] := by
    rw [slice, List.drop_eq_getElem_cons hlt, hget]
    rfl
  have hend : copyOut chunks (pos + 1) 0 = .ok [] := by rw [copyOut, dif_pos rfl]
  rw [copyOut, dif_neg Nat.one_ne_zero, hslot]
  simp only [hone, if_neg (Nat.not_lt.mpr (Nat.le_of_lt hlt)), Nat.one_ne_zero, dite_false,
    Nat.sub_self, hend, hslice]
  rfl

end Late

section Boundary

/-! A failure between the two chunks. Nothing is lost, and the next read goes on behind it. -/

/-- A stream that fails once, behind the first chunk. -/
def boundaryStream : Stream :=
  [.piece 0 (List.replicate (chunk - 1) 0), .ioError "reset".toList, .piece 1 []]

private theorem zero_cons_replicate : (0 : UInt8) :: List.replicate (chunk - 1) 0 =
    List.replicate chunk 0 := by
  have htwo := two_le_chunk
  rw [← List.replicate_succ, Nat.sub_add_cancel (by omega)]

private theorem boundaryStream_bytes : Stream.bytes boundaryStream = lateBody := by
  have hbytes : Stream.bytes boundaryStream =
      (0 :: List.replicate (chunk - 1) 0) ++ [1] := rfl
  rw [hbytes, zero_cons_replicate, lateBody]

/-- The first chunk is stored, and the stream stands in front of the second one. -/
structure AtBoundary (s : Session) : Prop where
  chunks : s.state.chunks = [some (List.replicate chunk 0), none]
  stream : s.state.stream = some [.piece 1 []]
  streamed : s.state.streamed = 1

private theorem lt_length_lateBody : chunk < lateBody.length := by
  rw [length_lateBody]
  exact Nat.lt_succ_self chunk

/-- The first attempt stores the first chunk and fails behind it. -/
theorem boundary_first : Yields ((lateReader boundaryStream).readAt chunk 1) (fun _ _ => False)
    (fun _ t => AtBoundary t) lateSession := by
  obtain ⟨hlen, hlen'⟩ := lateReader_chunkLen boundaryStream
  refine lateReader_readAt lt_length_lateBody (Nat.div_self chunk_pos) rfl ?_
  refine lateReader_ensureStreamed fun t ht => ?_
  obtain ⟨hsome, -⟩ | ⟨-, hchunks, hstream, hzero⟩ := ht
  · cases hsome
  have hread : readFull boundaryStream ((lateReader boundaryStream).chunkLen t.state.streamed) [] =
      (.ok (List.replicate chunk 0), [.ioError "reset".toList, .piece 1 []]) := by
    have hfill : (0 :: List.replicate (chunk - 1) (0 : UInt8)).length = chunk := by
      rw [zero_cons_replicate, List.length_replicate]
    rw [hzero, hlen, ← zero_cons_replicate]
    exact readFull_piece hfill
  rw [hzero]
  refine lateReader_streamTo (by omega) ((lateReader_streamOne hstream hread ?_).mono
    (fun _ u hu => ?_) fun _ _ h => h.elim)
  · rw [hchunks, hzero]
    exact Nat.two_pos
  · obtain ⟨huchunks, hustream, hustreamed⟩ := hu
    rw [hzero] at huchunks hustreamed
    have hread' : readFull [.ioError "reset".toList, .piece 1 []]
        ((lateReader boundaryStream).chunkLen u.state.streamed) [] =
          (.error (.http ("stream read: ".toList ++ "reset".toList)), [.piece 1 []]) := by
      rw [hustreamed, hlen']
      exact readFull_failure Nat.one_pos
    refine lateReader_streamTo (by omega) ((lateReader_streamOne_error hustream hread').mono
      (fun _ _ h => h.elim) fun _ v hv => ?_)
    refine ⟨hv.1.trans ?_, hv.2.1, hv.2.2.trans hustreamed⟩
    rw [huchunks, hchunks]
    rfl

/-- The second attempt reads the second chunk. -/
theorem boundary_second {s : Session} (hs : AtBoundary s) :
    Yields ((lateReader boundaryStream).readAt chunk 1) (fun buf _ => buf = [1])
      (fun _ _ => False) s := by
  obtain ⟨-, hlen⟩ := lateReader_chunkLen boundaryStream
  have hslot : s.state.chunks[1]? = some none := by rw [hs.chunks]; rfl
  refine lateReader_readAt lt_length_lateBody (Nat.div_self chunk_pos) hslot ?_
  refine lateReader_ensureStreamed fun t ht => ?_
  obtain ⟨-, rfl⟩ | ⟨hnone, -⟩ := ht
  · have hread : readFull [.piece 1 []] ((lateReader boundaryStream).chunkLen t.state.streamed) [] =
        (.ok [1], []) := by
      rw [hs.streamed, hlen]
      exact readFull_piece rfl
    rw [hs.streamed]
    refine lateReader_streamTo (Nat.le_of_eq hs.streamed)
      ((lateReader_streamOne hs.stream hread ?_).mono (fun _ u hu => ?_) fun _ _ h => h.elim)
    · rw [hs.chunks, hs.streamed]
      exact Nat.one_lt_two
    · refine ⟨[1], @copyOut_byte _ _ [1] _ ?_ ?_, rfl⟩
      · rw [hu.1, hs.chunks, hs.streamed, Nat.div_self chunk_pos]
        rfl
      · rw [Nat.mod_self]
        rfl
  · rw [hs.stream] at hnone
    cases hnone

/-- The stream fails behind the first chunk only. -/
theorem boundaryStream_aligned (limit : Nat) :
    ErrorsAlign lateBody.length limit boundaryStream := by
  have hpos : lateBody.length - (Stream.bytes [.piece 1 []]).length = chunk := by
    have hone : (Stream.bytes [.piece 1 []]).length = 1 := rfl
    rw [hone, length_lateBody, Nat.add_sub_cancel]
  rw [boundaryStream, ErrorsAlign, ErrorsAlign, hpos, Nat.mod_self]
  exact ⟨fun _ => rfl, trivial⟩

/-- The second of two equal reads is exact, after the first one has failed between two chunks. -/
theorem stream_reads_behind_boundary :
    (transitions (lateReader boundaryStream).step lateSession
      [⟨chunk, 1⟩, ⟨chunk, 1⟩]).Forall (StreamRead lateBody) ∧
    (transitions (lateReader boundaryStream).step lateSession
      [⟨chunk, 1⟩, ⟨chunk, 1⟩]).map (·.answer.toOption) = [none, some [1]] := by
  obtain ⟨f, hfirst, hat⟩ := boundary_first.raises
  obtain ⟨buf, hsecond, hbuf⟩ := (boundary_second hat).returns
  rw [hbuf] at hsecond
  constructor
  · rw [List.forall_iff_forall_mem]
    have hprobe : (lateReader boundaryStream).fetcher.probe = .ok ⟨lateBody.length, false⟩ := rfl
    refine stream_reads_exact hprobe (lateReader_build boundaryStream) ?_ ?_ _ ?_
    · intro k stream h
      obtain rfl := Except.ok.inj h
      exact boundaryStream_bytes
    · intro i c h
      cases h
    · intro t ht _ _ idx _ _ _ stream he
      obtain rfl | ht := List.mem_cons.mp ht
      · obtain rfl := Option.some.inj he
        exact boundaryStream_aligned _
      · obtain rfl := List.mem_singleton.mp ht
        have hnext : (lateReader boundaryStream).nextStream
            (after ((lateReader boundaryStream).readAt chunk 1) lateSession) =
              some [.piece 1 []] := by
          rw [RemoteReader.nextStream, hat.stream]
        obtain rfl := Option.some.inj (hnext.symm.trans he)
        exact trivial
  · have hnone := congrArg Except.toOption hfirst
    have hsome := congrArg Except.toOption hsecond
    exact congrArg₂ (fun x y => [x, y]) hnone hsome

end Boundary

section MidChunkError

/-! A failure inside a chunk. The reader keeps the stream and its counter, so the next
read takes the bytes behind the failure for the start of the chunk. -/

/-- What a stream of the body still does after a failure behind its first byte. -/
def lateRest : Stream := [.piece 0 (List.replicate (chunk - 2) 0 ++ [1])]

/-- The whole stream. -/
def lateStream : Stream := .piece 0 [] :: .ioError "reset".toList :: lateRest

private theorem lateStream_bytes : Stream.bytes lateStream = lateBody := by
  obtain ⟨k, hk⟩ := Nat.exists_eq_add_of_le' two_le_chunk
  have hk2 : chunk - 2 = k := by omega
  simp only [Stream.bytes, lateStream, lateRest, lateBody, hk2]
  rw [hk]
  simp [List.replicate_succ]

/-- Nothing is stored, and the stream stands behind the first byte. -/
structure Shifted (s : Session) : Prop where
  chunks : s.state.chunks = [none, none]
  stream : s.state.stream = some lateRest
  streamed : s.state.streamed = 0

/-- The first attempt fails behind the first byte and keeps the stream. -/
theorem lateReader_first : Yields ((lateReader lateStream).readAt (chunk - 1) 1)
    (fun _ _ => False) (fun _ t => Shifted t) lateSession := by
  have htwo := two_le_chunk
  obtain ⟨hlen, -⟩ := lateReader_chunkLen lateStream
  have hpos : chunk - 1 < lateBody.length := by
    rw [length_lateBody]
    omega
  refine lateReader_readAt hpos (Nat.div_eq_of_lt (by omega)) rfl ?_
  refine lateReader_ensureStreamed fun t ht => ?_
  obtain ⟨hsome, -⟩ | ⟨-, hchunks, hstream, hzero⟩ := ht
  · cases hsome
  have hread : readFull lateStream ((lateReader lateStream).chunkLen t.state.streamed) [] =
      (.error (.http ("stream read: ".toList ++ "reset".toList)), lateRest) := by
    obtain ⟨k, hk⟩ := Nat.exists_eq_add_of_le' two_le_chunk
    rw [hzero, hlen, hk, lateStream, readFull, if_pos (by simp)]
    simp only [List.length_nil, Nat.sub_zero, Stream.read, List.take_succ_cons, List.take_nil,
      List.drop_succ_cons, List.drop_nil]
    rw [readFull, if_pos (by simp)]
    rfl
  rw [hzero]
  refine lateReader_streamTo (by omega) ((lateReader_streamOne_error hstream hread).mono
    (fun _ _ h => h.elim) fun _ u hu => ?_)
  exact ⟨hu.1.trans hchunks, hu.2.1, hu.2.2.trans hzero⟩

/-- The second attempt takes the bytes behind the failure for the first chunk. -/
theorem lateReader_second {s : Session} (hs : Shifted s) :
    Yields ((lateReader lateStream).readAt (chunk - 1) 1) (fun buf _ => buf = [1])
      (fun _ _ => False) s := by
  have htwo := two_le_chunk
  obtain ⟨hlen, -⟩ := lateReader_chunkLen lateStream
  have hpos : chunk - 1 < lateBody.length := by
    rw [length_lateBody]
    omega
  have hidx : (chunk - 1) / chunk = 0 := Nat.div_eq_of_lt (by omega)
  have hslot : s.state.chunks[0]? = some none := by rw [hs.chunks]; rfl
  let shifted : Bytes := 0 :: (List.replicate (chunk - 2) 0 ++ [1])
  have hlength : shifted.length = chunk := by
    rw [List.length_cons, List.length_append, List.length_replicate, List.length_singleton]
    omega
  refine lateReader_readAt hpos hidx hslot ?_
  refine lateReader_ensureStreamed fun t ht => ?_
  obtain ⟨-, rfl⟩ | ⟨hnone, -⟩ := ht
  · have hread : readFull lateRest ((lateReader lateStream).chunkLen t.state.streamed) [] =
        (.ok shifted, []) := by
      rw [hs.streamed, hlen]
      exact readFull_piece hlength
    rw [hs.streamed]
    refine lateReader_streamTo (Nat.le_of_eq hs.streamed)
      ((lateReader_streamOne hs.stream hread ?_).mono (fun _ u hu => ?_) fun _ _ h => h.elim)
    · rw [hs.chunks, hs.streamed]
      exact Nat.two_pos
    · refine ⟨[1], @copyOut_byte _ _ shifted _ ?_ ?_, rfl⟩
      · rw [hu.1, hs.chunks, hs.streamed, hidx]
        rfl
      · have hlast : chunk - 1 = (0 :: List.replicate (chunk - 2) (0 : UInt8)).length := by
          rw [List.length_cons, List.length_replicate]
          omega
        have happend : shifted = (0 :: List.replicate (chunk - 2) 0) ++ [1] := rfl
        rw [Nat.mod_eq_of_lt (by omega), happend, hlast, List.getElem?_concat_length]
  · rw [hs.stream] at hnone
    cases hnone

/-- With a failure inside a chunk, a later read answers with wrong bytes: a run of two
equal requests, of which the second one succeeds. -/
theorem stream_read_wrong_after_mid_chunk_error :
    ¬∀ (body : Bytes) (fetcher : Fetcher) (cache : Option DiskCache) (disk : CacheDir)
      (r : RemoteReader) (st : State) (qs : List Request),
      fetcher.probe = .ok ⟨body.length, false⟩ →
      build fetcher cache = .ok (r, st) →
      (∀ k stream, fetcher.fetchAll k = .ok stream → stream.bytes = body) →
      (∀ i c, disk (.chunk i) = some c → c = chunkOf body i) →
      ∀ t ∈ transitions r.step ⟨st, disk, []⟩ qs, StreamRead body t := by
  intro hall
  have hrun := hall lateBody (lateReader lateStream).fetcher none (fun _ => none)
    (lateReader lateStream) lateSession.state [⟨chunk - 1, 1⟩, ⟨chunk - 1, 1⟩] rfl
    (lateReader_build lateStream)
    (fun k stream h => by cases h; exact lateStream_bytes) (fun i c h => by cases h)
  obtain ⟨f, -, hfirst⟩ := lateReader_first.raises
  obtain ⟨buf, hsecond, hbuf⟩ := (lateReader_second hfirst).returns
  rw [hbuf] at hsecond
  have hread := hrun _ (List.mem_cons_of_mem _ (List.mem_cons_self ..))
  have hexact := (hread.exact_ [1] hsecond).2
  have hzero : slice lateBody (chunk - 1) 1 = [0] := by
    obtain ⟨k, hk⟩ := Nat.exists_eq_add_of_le' two_le_chunk
    rw [lateBody, slice, hk, Nat.add_succ_sub_one, List.replicate_succ',
      List.append_assoc, List.drop_append_of_le_length (by rw [List.length_replicate]),
      List.drop_of_length_le (by rw [List.length_replicate])]
    rfl
  exact absurd (hexact.trans hzero) (by decide)

end MidChunkError

end BootExtractor.Remote
