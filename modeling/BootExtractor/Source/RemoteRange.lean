import BootExtractor.Source.RemoteChunks

/-!
# Range mode refines a flat byte array

Each missing chunk costs one range request. An answer of the wrong length is
refused, so whatever the fetcher returns, only true chunks are stored.
-/

namespace BootExtractor.Remote

open Effect Bytes Runs

/-- A range answer is the requested range, has another length, or is an error. -/
def Fetcher.Ranged (fetcher : Fetcher) (body : Bytes) : Prop :=
  ∀ k start end_ data, fetcher.fetchRange k start end_ = .ok data →
    data = slice body start (end_ - start) ∨ data.length ≠ end_ - start

section

variable {body : Bytes} {r : RemoteReader}

/-- The range branch stores the body's chunk or fails without storing anything. -/
theorem RemoteReader.ensureRange_spec (hr : r.size = body.length) (hf : r.fetcher.Ranged body)
    {idx : Nat} {s : Session} (hi : idx < s.state.chunks.length) :
    Yields (r.ensureRange idx) (fun _ t => Grows body s t ∧ Present t idx)
      (fun f t => Grows body s t ∧ f.IsErr) s := by
  simp only [RemoteReader.ensureRange, RemoteReader.fetchRange, yields_bind, yields_get,
    yields_note]
  let noted : Session :=
    { s with log := s.log ++ [.fetchRange (idx * chunk) (idx * chunk + r.chunkLen idx)] }
  have hsame : Grows body s noted := Grows.of_eq rfl rfl
  split
  · rename_i data hd
    by_cases hl : data.length = r.chunkLen idx
    · have hchunk : data = chunkOf body idx := by
        rcases hf _ _ _ data hd with he | he
        · rw [he, Nat.add_sub_cancel_left, r.chunkLen_eq hr, chunkOf, length_slice, slice, slice,
            List.take_eq_take_iff, List.length_drop]
          omega
        · omega
      simp only [yields_pure, hl, ne_eq, not_true_eq_false, ite_false]
      refine (RemoteReader.store_spec (s := noted) hi hchunk).mono (fun _ t ht => ?_)
        (fun _ _ h => h.elim)
      exact ⟨hsame.trans ht.1, ht.2.1⟩
    · simp only [yields_pure, ne_eq, hl, not_false_eq_true, ite_true, yields_throw]
      exact ⟨hsame, Fault.isErr_err _⟩
  · exact ⟨hsame, Fault.isErr_err _⟩

/-- One request in range mode. -/
theorem RemoteReader.readAt_range (hr : r.size = body.length) (hm : r.supportsRange = true)
    (hf : r.fetcher.Ranged body) {s : Session} (hs : TrueChunks body s) (offset len : Nat) :
    Yields (r.readAt offset len)
      (fun buf t => Grows body s t ∧ True ∧ offset + len ≤ body.length ∧
        buf = slice body offset len)
      (fun f t => Grows body s t ∧ True ∧ f.IsErr) s := by
  refine RemoteReader.readAt_spec hr (I := fun _ => True) (E := fun _ => True) hs trivial
    (fun _ h => h) (fun _ _ idx _ _ hidx => ?_)
  refine RemoteReader.ensure_spec hr hidx (fun _ _ _ _ _ _ _ _ => trivial)
    (fun u hu _ _ _ => ?_)
  rw [if_pos hm]
  exact (RemoteReader.ensureRange_spec hr hf (hu.count ▸ hidx)).mono
    (fun _ t ht => ⟨ht.1, ht.2, trivial⟩) (fun f t ht => ⟨ht.1, ht.2, trivial⟩)

end

/-- What range mode promises about one request. -/
structure RangeRead (body : Bytes) (t : Transition Session Request (Except Fault Bytes)) :
    Prop where
  /-- An answer is the requested part of the body, which is inside it. -/
  exact_ : ∀ buf, t.answer = .ok buf → t.request.offset + t.request.len ≤ body.length ∧
    buf = slice body t.request.offset t.request.len
  /-- A request that leaves the body is refused. -/
  outside : body.length < t.request.offset + t.request.len → ∃ e, t.answer = .error (.err e)
  /-- No index is out of range and no loop hangs: every failure is an ordinary error. -/
  noPanic : ∀ f, t.answer = .error f → f.IsErr
  /-- Chunks in memory stay as they are. -/
  memory : ∀ (i : Nat) (c : Bytes), t.before.state.chunks[i]? = some (some c) →
    t.after.state.chunks[i]? = some (some c)
  /-- Valid chunk files stay as they are. -/
  disk : ∀ (i : Nat) (c : Bytes), t.before.disk (.chunk i) = some c →
    c.length = (chunkOf body i).length →
    t.after.disk (.chunk i) = some c

/-- Building over an endpoint that is not empty. -/
theorem build_ok {fetcher : Fetcher} {cache : Option DiskCache} {probe : Probe}
    (hp : fetcher.probe = .ok probe) (h0 : probe.size ≠ 0) :
    build fetcher cache = .ok (⟨fetcher, probe.size, probe.supportsRange, cache⟩,
      ⟨List.replicate ((probe.size + chunk - 1) / chunk) none, none, 0, 0⟩) := by
  simp only [build, hp, bind, Except.bind, h0, ite_false]

/-- A built reader starts with no chunk in memory. -/
theorem build_eq {fetcher : Fetcher} {cache : Option DiskCache} {r : RemoteReader} {st : State}
    {probe : Probe} (hp : fetcher.probe = .ok probe) (h : build fetcher cache = .ok (r, st)) :
    r = ⟨fetcher, probe.size, probe.supportsRange, cache⟩ ∧ 0 < probe.size ∧
      st = ⟨List.replicate ((probe.size + chunk - 1) / chunk) none, none, 0, 0⟩ := by
  simp only [build, hp, bind, Except.bind] at h
  split at h
  · cases h
  · cases h
    exact ⟨rfl, by omega, rfl⟩

/-- The first session of a reader over the body. -/
theorem trueChunks_start {body : Bytes} {disk : CacheDir} {stream : Option Stream}
    (hdisk : ∀ i c, disk (.chunk i) = some c → c.length = (chunkOf body i).length →
      c = chunkOf body i) :
    TrueChunks body
      ⟨⟨List.replicate ((body.length + chunk - 1) / chunk) none, stream, 0, 0⟩, disk, []⟩ where
  count := List.length_replicate
  memory i c hc := by
    rw [List.getElem?_replicate] at hc
    split at hc <;> cases hc
  disk := hdisk

/-- Over any run in range mode, with any fetch results and any failures, every read
is refused or answers exactly the body's bytes, and cached chunks are never lost. -/
theorem range_reads_refine_body {body : Bytes} {fetcher : Fetcher} {cache : Option DiskCache}
    {disk : CacheDir} {r : RemoteReader} {st : State}
    (hprobe : fetcher.probe = .ok ⟨body.length, true⟩)
    (hbuild : build fetcher cache = .ok (r, st))
    (hfetch : fetcher.Ranged body)
    (hdisk : ∀ i c, disk (.chunk i) = some c → c.length = (chunkOf body i).length →
      c = chunkOf body i)
    (qs : List Request) :
    ∀ t ∈ transitions r.step ⟨st, disk, []⟩ qs, RangeRead body t := by
  obtain ⟨rfl, _, rfl⟩ := build_eq hprobe hbuild
  intro t ht
  refine (forall_transitions (I := TrueChunks body) (G := fun _ _ => True)
    (R := RangeRead body) (fun s q hs _ => ?_) (trueChunks_start hdisk) (fun _ _ => trivial)
    t ht).2.2
  have hread := yields_iff.mp
    (RemoteReader.readAt_range (r := ⟨fetcher, body.length, true, cache⟩) rfl rfl hfetch hs
      q.offset q.len)
  cases ha : answer (RemoteReader.readAt ⟨fetcher, body.length, true, cache⟩ q.offset q.len) s with
  | ok buf =>
    rw [ha] at hread
    obtain ⟨hg, -, hin, hbuf⟩ := hread
    refine ⟨hg.trueChunks hs, ⟨?_, fun hout => absurd hin (by exact Nat.not_le.mpr hout), ?_,
      fun _ _ => hg.kept hs, fun _ _ => hg.kept_file hs⟩⟩
    · intro buf' he
      cases ha.symm.trans he
      exact ⟨hin, hbuf⟩
    · intro f he
      cases ha.symm.trans he
  | error f =>
    rw [ha] at hread
    obtain ⟨hg, -, herr⟩ := hread
    refine ⟨hg.trueChunks hs, ⟨?_, fun _ => ?_, ?_, fun _ _ => hg.kept hs,
      fun _ _ => hg.kept_file hs⟩⟩
    · intro buf he
      cases ha.symm.trans he
    · cases f with
      | err e => exact ⟨e, ha⟩
      | panic => exact herr.elim
      | spin => exact herr.elim
    · intro f' he
      cases ha.symm.trans he
      exact herr

/-- A server with ranges over three bytes, whose second answer is cut short. -/
def rangeFetcher : Fetcher where
  probe := .ok ⟨3, true⟩
  fetchRange k start end_ :=
    if k = 1 then .ok [] else .ok (slice [1, 2, 3] start (end_ - start))
  fetchAll _ := .error (.http [])

/-- Two requests over that server, the second one reaching outside. -/
theorem range_reads_refine_three_bytes :
    (transitions (RemoteReader.step ⟨rangeFetcher, 3, true, none⟩)
      ⟨⟨List.replicate ((3 + chunk - 1) / chunk) none, none, 0, 0⟩, fun _ => none, []⟩
      [⟨0, 2⟩, ⟨1, 5⟩]).Forall (RangeRead [1, 2, 3]) := by
  rw [List.forall_iff_forall_mem]
  refine range_reads_refine_body rfl
    (build_ok (rfl : rangeFetcher.probe = .ok ⟨3, true⟩) (Nat.succ_ne_zero 2)) ?_ ?_ _
  · intro k start end_ data h
    simp only [rangeFetcher] at h
    split at h
    · cases h
      by_cases he : end_ - start = 0
      · exact Or.inl (by rw [he]; rfl)
      · exact Or.inr (fun hl => he hl.symm)
    · cases h
      exact Or.inl rfl
  · intro i c h
    cases h

end BootExtractor.Remote
