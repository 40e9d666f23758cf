import BootExtractor.Source.Remote

/-!
# True chunks

Reads are judged against the body, a flat byte string. A call on the reader only
fills slots and files with the body's own chunks; whatever was true before stays
true, and a request whose chunks are all present copies out exactly its bytes.
-/

namespace BootExtractor.Remote

open Effect Bytes

/-- A chunk is not empty. -/
theorem chunk_pos : 0 < chunk := by
  unfold chunk
  decide

/-- The bytes of one chunk of the body; the last one is short. -/
def chunkOf (body : Bytes) (idx : Nat) : Bytes := slice body (idx * chunk) chunk

/-- Every chunk is full but the last. -/
theorem length_chunkOf (body : Bytes) (idx : Nat) :
    (chunkOf body idx).length = min (body.length - idx * chunk) chunk := by
  rw [chunkOf, length_slice, Nat.min_comm]

/-- The expected length of a chunk is the length of the body's chunk. -/
theorem RemoteReader.chunkLen_eq {r : RemoteReader} {body : Bytes} (hr : r.size = body.length)
    (idx : Nat) : r.chunkLen idx = (chunkOf body idx).length := by
  rw [length_chunkOf, RemoteReader.chunkLen, hr]

/-- Number of chunks of the body. -/
def chunkCount (body : Bytes) : Nat := (body.length + chunk - 1) / chunk

/-- The chunks are those that begin inside of the body. -/
theorem lt_chunkCount {body : Bytes} {idx : Nat} :
    idx < chunkCount body ↔ idx * chunk < body.length := by
  rw [chunkCount, ← Nat.succ_le_iff, Nat.le_div_iff_mul_le chunk_pos, Nat.succ_mul]
  have := chunk_pos
  omega

/-- Chunk `idx` is in memory. -/
def Present (s : Session) (idx : Nat) : Prop := ∃ c, s.state.chunks[idx]? = some (some c)

/-- Memory, and every file of a chunk's expected length, hold chunks of the body. -/
structure TrueChunks (body : Bytes) (s : Session) : Prop where
  /-- There is a slot for every chunk. -/
  count : s.state.chunks.length = chunkCount body
  /-- A filled slot holds its chunk. -/
  memory : ∀ i c, s.state.chunks[i]? = some (some c) → c = chunkOf body i
  /-- A file that a load would accept holds its chunk. -/
  disk : ∀ i c, s.disk (.chunk i) = some c → c.length = (chunkOf body i).length → c = chunkOf body i

/-- From `s` to `t`, slots and files were at most overwritten by true chunks. -/
structure Grows (body : Bytes) (s t : Session) : Prop where
  count : t.state.chunks.length = s.state.chunks.length
  memory : ∀ i, t.state.chunks[i]? = s.state.chunks[i]? ∨
    t.state.chunks[i]? = some (some (chunkOf body i))
  disk : ∀ i, t.disk (.chunk i) = s.disk (.chunk i) ∨ t.disk (.chunk i) = some (chunkOf body i)

namespace Grows

variable {body : Bytes} {s t u : Session}

/-- No time passes between a session and itself. -/
theorem refl (body : Bytes) (s : Session) : Grows body s s :=
  ⟨rfl, fun _ => Or.inl rfl, fun _ => Or.inl rfl⟩

/-- Stretches of a session join. -/
theorem trans (h : Grows body s t) (k : Grows body t u) : Grows body s u where
  count := k.count.trans h.count
  memory i := (k.memory i).elim (fun e => e ▸ h.memory i) Or.inr
  disk i := (k.disk i).elim (fun e => e ▸ h.disk i) Or.inr

/-- A change of the log or of the counters is no change of the chunks. -/
theorem of_eq (hc : t.state.chunks = s.state.chunks) (hd : t.disk = s.disk) : Grows body s t :=
  ⟨by rw [hc], fun _ => Or.inl (by rw [hc]), fun _ => Or.inl (by rw [hd])⟩

/-- A chunk that is held stays held. -/
theorem present (h : Grows body s t) {i : Nat} (hp : Present s i) : Present t i := by
  obtain ⟨c, hc⟩ := hp
  rcases h.memory i with he | he
  · exact ⟨c, he.trans hc⟩
  · exact ⟨_, he⟩

/-- Growth keeps the truth of memory and disk. -/
theorem trueChunks (h : Grows body s t) (hs : TrueChunks body s) : TrueChunks body t where
  count := h.count.trans hs.count
  memory i c hc := by
    rcases h.memory i with he | he
    · exact hs.memory i c (he ▸ hc)
    · rw [he] at hc
      exact (Option.some.inj (Option.some.inj hc)).symm
  disk i c hc hl := by
    rcases h.disk i with he | he
    · exact hs.disk i c (he ▸ hc) hl
    · rw [he] at hc
      exact (Option.some.inj hc).symm

/-- A cached chunk stays as it is. -/
theorem kept (h : Grows body s t) (hs : TrueChunks body s) {i : Nat} {c : Bytes}
    (hc : s.state.chunks[i]? = some (some c)) : t.state.chunks[i]? = some (some c) := by
  rcases h.memory i with he | he
  · exact he.trans hc
  · rw [he, hs.memory i c hc]

/-- A file that a load would accept stays as it is. -/
theorem kept_file (h : Grows body s t) (hs : TrueChunks body s) {i : Nat} {c : Bytes}
    (hc : s.disk (.chunk i) = some c) (hl : c.length = (chunkOf body i).length) :
    t.disk (.chunk i) = some c := by
  rcases h.disk i with he | he
  · exact he.trans hc
  · rw [he, hs.disk i c hc hl]

end Grows

section Storing

variable {body : Bytes} {r : RemoteReader}

/-- Noting a call succeeds. -/
@[simp] theorem yields_note {Q : PUnit → Session → Prop} {E : Fault → Session → Prop}
    {c : Call} {s : Session} :
    Yields (note c) Q E s ↔ Q ⟨⟩ { s with log := s.log ++ [c] } := Iff.rfl

/-- Changing the state succeeds. -/
@[simp] theorem yields_modifyState {Q : PUnit → Session → Prop} {E : Fault → Session → Prop}
    {f : State → State} {s : Session} :
    Yields (modifyState f) Q E s ↔ Q ⟨⟩ { s with state := f s.state } := Iff.rfl

/-- A store touches one chunk file at most, and writes the given bytes to it. -/
theorem diskAfter_chunk (disk : CacheDir) (idx : Nat) (data : Bytes) (stop : StoreStop) (i : Nat) :
    diskAfter disk idx data stop (.chunk i) = disk (.chunk i) ∨
      i = idx ∧ diskAfter disk idx data stop (.chunk i) = some data := by
  cases stop with
  | mkdir => exact Or.inl rfl
  | write written => exact Or.inl (by simp [diskAfter])
  | rename => exact Or.inl (by simp [diskAfter])
  | done =>
    by_cases hi : i = idx
    · exact Or.inr ⟨hi, by simp [diskAfter, hi]⟩
    · exact Or.inl (by simp [diskAfter, hi])

/-- Filling a slot with its chunk. -/
theorem putChunk_spec {s : Session} {idx : Nat} {data : Bytes}
    (hi : idx < s.state.chunks.length) (hd : data = chunkOf body idx) :
    Yields (putChunk idx data)
      (fun _ t => Grows body s t ∧ Present t idx ∧ t.state.stream = s.state.stream ∧
        t.state.streamed = s.state.streamed ∧ t.disk = s.disk ∧ t.log = s.log)
      (fun _ _ => False) s := by
  simp only [putChunk, yields_bind, yields_get, if_pos hi, yields_modifyState]
  refine ⟨⟨?_, ?_, fun _ => Or.inl rfl⟩, ⟨data, ?_⟩, trivial, trivial, trivial, trivial⟩
  · simp only [List.length_set]
  · intro i
    by_cases he : idx = i
    · subst he
      exact Or.inr (by simp only [List.getElem?_set_self hi, hd])
    · exact Or.inl (by simp only [List.getElem?_set_ne he])
  · simp only [List.getElem?_set_self hi]

/-- Storing a downloaded chunk that is the body's. -/
theorem RemoteReader.store_spec {s : Session} {idx : Nat} {data : Bytes}
    (hi : idx < s.state.chunks.length) (hd : data = chunkOf body idx) :
    Yields (r.store idx data)
      (fun _ t => Grows body s t ∧ Present t idx ∧ t.state.stream = s.state.stream ∧
        t.state.streamed = s.state.streamed) (fun _ _ => False) s := by
  have hdisk : Yields (r.storeCached idx data)
      (fun _ t => Grows body s t ∧ t.state = s.state) (fun _ _ => False) s := by
    unfold RemoteReader.storeCached
    cases r.cache with
    | none => exact ⟨Grows.refl body s, rfl⟩
    | some cache =>
      simp only [DiskCache.store, yields_bind, yields_get, yields_note, yields_modify]
      refine ⟨⟨rfl, fun _ => Or.inl rfl, fun i => ?_⟩, trivial⟩
      refine (diskAfter_chunk s.disk idx data _ i).imp_right fun hstored => ?_
      obtain ⟨rfl, he⟩ := hstored
      exact he.trans (by rw [hd])
  simp only [RemoteReader.store, yields_bind]
  refine hdisk.mono (fun _ t ht => ?_) (fun _ _ h => h)
  obtain ⟨hg, hst⟩ := ht
  rw [yields_bind]
  refine (putChunk_spec (by rw [hst]; exact hi) hd).mono (fun _ u hu => ?_) (fun _ _ h => h)
  obtain ⟨hg', hp, hs1, hs2, _⟩ := hu
  simp only [yields_bind, yields_modifyState, yields_get, yields_note]
  refine ⟨hg.trans (hg'.trans (Grows.of_eq rfl rfl)), hp, ?_, ?_⟩
  · simp only [hs1, hst]
  · simp only [hs2, hst]

/-- A loaded chunk is the body's. -/
theorem RemoteReader.cached_eq {s : Session} (hr : r.size = body.length)
    (hs : TrueChunks body s) {idx : Nat} {data : Bytes} (h : r.cached s.disk idx = some data) :
    data = chunkOf body idx := by
  simp only [RemoteReader.cached, Option.bind_eq_some_iff, load] at h
  obtain ⟨_, _, h⟩ := h
  cases hc : s.disk (.chunk idx) with
  | none => simp only [hc, reduceCtorEq] at h
  | some c =>
    simp only [hc] at h
    split at h
    · rename_i hl
      cases h
      exact hs.disk idx _ hc (hl.trans (RemoteReader.chunkLen_eq hr idx))
    · cases h

end Storing

section Copying

variable {body : Bytes}

/-- With all its chunks present and true, a request inside the body copies its bytes. -/
theorem copyOut_eq {s : Session} (hs : TrueChunks body s) (len : Nat) : ∀ pos,
    pos + len ≤ body.length →
    (∀ i, pos / chunk ≤ i → i * chunk < pos + len → Present s i) →
    copyOut s.state.chunks pos len = .ok (slice body pos len) := by
  induction len using Nat.strong_induction_on with
  | _ len ih =>
    intro pos hb hp
    rw [copyOut]
    by_cases h0 : len = 0
    · simp [h0]
    have hdm := Nat.div_add_mod' pos chunk
    have hmod := Nat.mod_lt pos chunk_pos
    obtain ⟨c, hc⟩ := hp (pos / chunk) le_rfl (by omega)
    have hce := hs.memory _ c hc
    have hcl : c.length = min (body.length - pos / chunk * chunk) chunk := by
      rw [hce, length_chunkOf]
    have hw : pos % chunk < c.length := by omega
    rw [dif_neg h0, hc]
    simp only [Nat.not_lt_of_lt hw, ite_false]
    have hn : min (c.length - pos % chunk) len ≠ 0 := by omega
    rw [dif_neg hn]
    generalize hk : min (c.length - pos % chunk) len = n at hn ⊢
    have hnl : n ≤ len := by omega
    have hrest := ih (len - n) (by omega) (pos + n) (by omega) (fun i hi hlt => by
      refine hp i ((Nat.div_le_div_right (Nat.le_add_right pos n)).trans hi) (by omega))
    rw [hrest]
    simp only [Except.bind, bind, Except.ok.injEq]
    have hpart : slice c (pos % chunk) n = slice body pos n := by
      rw [hce, chunkOf, slice_slice (by omega), hdm]
    rw [hpart, ← slice_add, Nat.add_sub_cancel' hnl]

/-- What a request needs of `ensure`: from a state with the invariant it keeps it,
fills only with true chunks, and leaves the chunk present. -/
def EnsuresChunk (body : Bytes) (I : Session → Prop) (E : Session → Prop) (x : ReaderM Unit)
    (idx : Nat) : Prop :=
  ∀ s, TrueChunks body s → I s →
    Yields x (fun _ t => Grows body s t ∧ Present t idx ∧ I t)
      (fun f t => Grows body s t ∧ f.IsErr ∧ E t) s

/-- `ensure` is settled by its network branch: memory and disk cache are the same in
both modes. The invariant may look at the stream, which they leave alone. -/
theorem RemoteReader.ensure_spec {r : RemoteReader} (hr : r.size = body.length)
    {I E : Session → Prop} {idx : Nat} (hidx : idx < chunkCount body)
    (hI : ∀ s t, TrueChunks body s → I s → Grows body s t → t.state.stream = s.state.stream →
      t.state.streamed = s.state.streamed → t.log = s.log → I t)
    (hmiss : ∀ s, TrueChunks body s → I s → s.state.chunks[idx]? = some none →
      r.cached s.disk idx = none →
      Yields (if r.supportsRange then r.ensureRange idx else r.ensureStreamed idx)
        (fun _ t => Grows body s t ∧ Present t idx ∧ I t)
        (fun f t => Grows body s t ∧ f.IsErr ∧ E t) s) :
    EnsuresChunk body I E (r.ensure idx) idx := by
  intro s hs hi
  have hlt : idx < s.state.chunks.length := hs.count ▸ hidx
  simp only [RemoteReader.ensure, yields_bind, yields_get]
  cases hslot : s.state.chunks[idx]? with
  | none => rw [List.getElem?_eq_none_iff] at hslot; omega
  | some slot =>
    cases slot with
    | some c => exact ⟨Grows.refl body s, ⟨c, hslot⟩, hi⟩
    | none =>
      cases hc : r.cached s.disk idx with
      | none => exact hmiss s hs hi hslot hc
      | some data =>
        refine (putChunk_spec hlt (RemoteReader.cached_eq hr hs hc)).mono
          (fun _ t ht => ?_) (fun _ _ h => h.elim)
        obtain ⟨hg, hp, hst, hsd, _, hlog⟩ := ht
        exact ⟨hg, hp, hI s t hs hi hg hst hsd hlog⟩

/-- The read loop over any way of ensuring chunks: a value is exactly the requested
part of the body, everything else is an ordinary error. -/
theorem RemoteReader.readAt_spec {r : RemoteReader} (hr : r.size = body.length)
    {I E : Session → Prop} {offset len : Nat} {s : Session} (hs : TrueChunks body s)
    (hi : I s) (hie : ∀ t, I t → E t)
    (hens : 0 < len → checkBounds r.size offset len = .ok () → ∀ idx, offset / chunk ≤ idx →
      idx ≤ (offset + len - 1) / chunk → idx < chunkCount body →
        EnsuresChunk body I E (r.ensure idx) idx) :
    Yields (r.readAt offset len)
      (fun buf t => Grows body s t ∧ E t ∧ offset + len ≤ body.length ∧
        buf = slice body offset len)
      (fun f t => Grows body s t ∧ E t ∧ f.IsErr) s := by
  rw [RemoteReader.readAt]
  cases hb : checkBounds r.size offset len with
  | error e => exact ⟨Grows.refl body s, hie s hi, Fault.isErr_err e⟩
  | ok u =>
    have hin : offset + len ≤ body.length := hr ▸ checkBounds_ok hb
    by_cases h0 : len = 0
    · simp only [h0, ite_true]
      exact ⟨Grows.refl body s, hie s hi, by omega, rfl⟩
    simp only [if_neg h0, yields_bind]
    let J : List Nat → Session → Prop := fun done t =>
      Grows body s t ∧ I t ∧ ∀ i ∈ done, Present t i
    generalize hxs : List.range' (offset / chunk)
      ((offset + len - 1) / chunk + 1 - offset / chunk) = idxs
    have hloop : Yields (forM idxs r.ensure) (fun _ => J idxs)
        (fun f t => Grows body s t ∧ E t ∧ f.IsErr) s := by
      apply yields_forM
      · intro done idx rest t he ht
        obtain ⟨hg, hit, hpres⟩ := ht
        have hmem : idx ∈ idxs := by simp [he]
        rw [← hxs, List.mem_range'_1] at hmem
        have hlast : idx * chunk ≤ offset + len - 1 :=
          (Nat.mul_le_mul_right chunk (by omega : idx ≤ (offset + len - 1) / chunk)).trans
            (Nat.div_mul_le_self _ _)
        have hcount : idx < chunkCount body := lt_chunkCount.mpr (by omega)
        apply (hens (Nat.pos_of_ne_zero h0) hb idx hmem.1 (by omega) hcount t (hg.trueChunks hs)
          hit).mono
        · rintro _ u ⟨hgu, hpu, hiu⟩
          refine ⟨hg.trans hgu, hiu, fun i hmi => ?_⟩
          rcases List.mem_append.mp hmi with hmi | hmi
          · exact hgu.present (hpres i hmi)
          · rw [List.mem_singleton.mp hmi]
            exact hpu
        · rintro f u ⟨hgu, hfu, heu⟩
          exact ⟨hg.trans hgu, heu, hfu⟩
      · exact ⟨Grows.refl body s, hi, fun i hmi => absurd hmi (List.not_mem_nil)⟩
    refine hloop.mono (fun _ t ht => ?_) (fun _ _ h => h)
    obtain ⟨hg, hit, hpres⟩ := ht
    have hcopy : copyOut t.state.chunks offset len = .ok (slice body offset len) := by
      refine copyOut_eq (hg.trueChunks hs) len offset hin (fun i hi1 hi2 => hpres i ?_)
      rw [← hxs, List.mem_range'_1]
      have : i ≤ (offset + len - 1) / chunk := by
        rw [Nat.le_div_iff_mul_le chunk_pos]
        omega
      omega
    simp only [yields_bind, yields_get, hcopy, yields_pure]
    exact ⟨hg, hie t hit, hin, trivial⟩

end Copying

end BootExtractor.Remote
