import BootExtractor.Source.RemoteLazy

/-!
# What the disk cache saves

While every store succeeds, each chunk in memory has its file. A process that comes later finds
there what the earlier one has read, and answers the same requests without a single call on
the outside, whatever the server would say by then.
-/

namespace BootExtractor.Remote

open Effect Bytes Runs

/-- The chunk has its file. -/
def OnDisk (body : Bytes) (s : Session) (idx : Nat) : Prop :=
  s.disk (.chunk idx) = some (chunkOf body idx)

/-- Every chunk in memory has its file. -/
def Backed (body : Bytes) (s : Session) : Prop := ∀ i, Present s i → OnDisk body s i

/-- Every store of the cache gets to its end. -/
def DiskCache.Stores (cache : DiskCache) : Prop := ∀ k, cache.stop k = .done

section Backing

variable {body : Bytes} {r : RemoteReader} {s t : Session} {idx : Nat}

/-- What is on disk depends on the disk alone. -/
theorem OnDisk.of_disk (h : OnDisk body s idx) (hdisk : t.disk = s.disk) : OnDisk body t idx :=
  (congrFun hdisk _).trans h

/-- A chunk on disk stays there. -/
theorem Grows.onDisk (h : Grows body s t) {i : Nat} (hi : OnDisk body s i) : OnDisk body t i := by
  rcases h.disk i with he | he
  · exact he.trans hi
  · exact he

/-- A file of a chunk is one that a load accepts. -/
theorem RemoteReader.cached_onDisk {cache : DiskCache} (hr : r.size = body.length)
    (hc : r.cache = some cache) (h : OnDisk body s idx) :
    r.cached s.disk idx = some (chunkOf body idx) := by
  have hlen : (chunkOf body idx).length = r.chunkLen idx := (r.chunkLen_eq hr idx).symm
  rw [RemoteReader.cached, hc, Option.bind_some, load, h]
  exact if_pos hlen

/-- A loaded chunk has its file. -/
theorem onDisk_of_cached (hr : r.size = body.length) (hs : TrueChunks body s) {data : Bytes}
    (h : r.cached s.disk idx = some data) : OnDisk body s idx := by
  have hdata := RemoteReader.cached_eq hr hs h
  simp only [RemoteReader.cached, Option.bind_eq_some_iff, load] at h
  obtain ⟨_, _, h⟩ := h
  cases hc : s.disk (.chunk idx) with
  | none => simp only [hc, reduceCtorEq] at h
  | some c =>
    simp only [hc] at h
    split at h
    · cases h
      rw [OnDisk, hc, hdata]
    · cases h

/-- A chunk more in memory, with its file. -/
theorem Backed.set {data : Bytes} (h : Backed body s)
    (hchunks : t.state.chunks = s.state.chunks.set idx (some data))
    (hdisk : ∀ i, i ≠ idx → t.disk (.chunk i) = s.disk (.chunk i)) (hfile : OnDisk body t idx) :
    Backed body t := by
  rintro i ⟨c, hc⟩
  by_cases heq : i = idx
  · exact heq ▸ hfile
  · rw [hchunks, List.getElem?_set_ne (Ne.symm heq)] at hc
    exact (hdisk i heq).trans (h i ⟨c, hc⟩)

/-- A store that gets to its end writes the file. -/
theorem RemoteReader.store_writes {cache : DiskCache} (hc : r.cache = some cache)
    (hstores : cache.Stores) {data : Bytes} (hi : idx < s.state.chunks.length) :
    Yields (r.store idx data) (fun _ t => t.disk (.chunk idx) = some data)
      (fun _ _ => False) s := by
  simp only [RemoteReader.store, RemoteReader.storeCached, hc, DiskCache.store, putChunk,
    yields_bind, yields_get, yields_note, yields_modify, if_pos hi, yields_modifyState, hstores _,
    diskAfter, Function.update_self]

/-- A range answer of the right length is the chunk. -/
theorem Fetcher.Ranged.chunk_eq (hr : r.size = body.length) (hf : r.fetcher.Ranged body)
    {k : Nat} {data : Bytes}
    (hd : r.fetcher.fetchRange k (idx * chunk) (idx * chunk + r.chunkLen idx) = .ok data)
    (hl : data.length = r.chunkLen idx) : data = chunkOf body idx := by
  have hlen := r.chunkLen_eq hr idx
  rcases hf _ _ _ data hd with he | he
  · rw [he, Nat.add_sub_cancel_left, hlen, chunkOf, length_slice, slice, slice,
      List.take_eq_take_iff, List.length_drop]
    omega
  · omega

/-- The range branch keeps memory backed. -/
theorem RemoteReader.ensureRange_backed {cache : DiskCache} (hr : r.size = body.length)
    (hf : r.fetcher.Ranged body) (hc : r.cache = some cache) (hstores : cache.Stores)
    (hb : Backed body s) (hi : idx < s.state.chunks.length) :
    Yields (r.ensureRange idx) (fun _ t => Backed body t) (fun _ t => Backed body t) s := by
  simp only [RemoteReader.ensureRange, RemoteReader.fetchRange, yields_bind, yields_get,
    yields_note]
  split
  · rename_i data hd
    by_cases hl : data.length = r.chunkLen idx
    · simp only [yields_pure, hl, ne_eq, not_true_eq_false, ite_false]
      let noted : Session :=
        { s with log := s.log ++ [.fetchRange (idx * chunk) (idx * chunk + r.chunkLen idx)] }
      have hi : idx < noted.state.chunks.length := hi
      have hb : Backed body noted := hb
      refine ((RemoteReader.store_stored hi).and (RemoteReader.store_writes hc hstores hi)).mono ?_
        (fun _ _ h => h.1.elim)
      rintro _ t ⟨hstored, hfile⟩
      refine hb.set hstored.chunks hstored.disk ?_
      rw [OnDisk, hfile, hf.chunk_eq hr hd hl]
    · simp only [yields_pure, ne_eq, hl, not_false_eq_true, ite_true, yields_throw]
      exact hb
  · exact hb

/-- And so does every way to a chunk in range mode. -/
theorem RemoteReader.ensure_backed {cache : DiskCache} (hr : r.size = body.length)
    (hm : r.supportsRange = true) (hf : r.fetcher.Ranged body) (hc : r.cache = some cache)
    (hstores : cache.Stores) (hs : TrueChunks body s) (hb : Backed body s) :
    Yields (r.ensure idx) (fun _ t => (Grows body s t ∧ Present t idx) ∧ Backed body t)
      (fun _ t => Grows body s t ∧ Backed body t) s := by
  simp only [RemoteReader.ensure, yields_bind, yields_get]
  cases hslot : s.state.chunks[idx]? with
  | none => exact ⟨Grows.refl body s, hb⟩
  | some slot =>
    have hi : idx < s.state.chunks.length := (List.getElem?_eq_some_iff.mp hslot).1
    cases slot with
    | some c => exact ⟨⟨Grows.refl body s, c, hslot⟩, hb⟩
    | none =>
      cases hcached : r.cached s.disk idx with
      | some data =>
        have hdata := RemoteReader.cached_eq hr hs hcached
        have hfile := onDisk_of_cached hr hs hcached
        refine ((putChunk_spec hi hdata).and (putChunk_sets hi)).mono ?_ (fun _ _ h => h.1.elim)
        rintro _ t ⟨⟨hg, hp, -⟩, rfl⟩
        exact ⟨⟨hg, hp⟩, hb.set rfl (fun _ _ => rfl) hfile⟩
      | none =>
        simp only [if_pos hm]
        refine ((RemoteReader.ensureRange_spec hr hf hi).and
          (RemoteReader.ensureRange_backed hr hf hc hstores hb hi)).mono (fun _ _ h => h) ?_
        exact fun _ _ h => ⟨h.1.1, h.2⟩

/-- What a read of the first process leaves: the chunks of a request that was answered are in
memory, and all in memory have their files. -/
theorem RemoteReader.readAt_backed {cache : DiskCache} (hr : r.size = body.length)
    (hm : r.supportsRange = true) (hf : r.fetcher.Ranged body) (hc : r.cache = some cache)
    (hstores : cache.Stores) (hs : TrueChunks body s) (hb : Backed body s) (q : Request) :
    Yields (r.readAt q.offset q.len)
      (fun _ t => (Grows body s t ∧ Backed body t) ∧
        ∀ i, r.InBounds q → q.Overlaps i → Present t i)
      (fun _ t => Grows body s t ∧ Backed body t) s := by
  have hread := RemoteReader.readAt_loop (r := r) (q := q) (s := s)
    (J := fun done t => (Grows body s t ∧ Backed body t) ∧ ∀ i ∈ done, Present t i)
    (E := fun _ t => Grows body s t ∧ Backed body t)
    ⟨⟨Grows.refl body s, hb⟩, fun i hi => absurd hi List.not_mem_nil⟩ (by
      rintro done idx t - - - ⟨⟨hg, hbt⟩, hdone⟩
      refine (RemoteReader.ensure_backed hr hm hf hc hstores (hg.trueChunks hs) hbt).mono ?_ ?_
      · rintro _ u ⟨⟨hgu, hp⟩, hbu⟩
        refine ⟨⟨hg.trans hgu, hbu⟩, fun i hi => ?_⟩
        rcases List.mem_append.mp hi with hi | hi
        · exact hgu.present (hdone i hi)
        · exact List.mem_singleton.mp hi ▸ hp
      · rintro _ u ⟨hgu, hbu⟩
        exact ⟨hg.trans hgu, hbu⟩)
  refine hread.mono ?_ ?_
  · rintro _ t ⟨idxs, ⟨hkept, hdone⟩, hmem⟩
    exact ⟨hkept, fun i hin hover => hdone i ((hmem i).mpr ⟨hin, hover⟩)⟩
  · rintro _ t (⟨idxs, ⟨hkept, -⟩, -⟩ | hkept)
    · exact hkept
    · exact hkept

/-- An answered request is one within the image. -/
theorem RemoteReader.inBounds_of_ok {q : Request} {buf : Bytes} (h : (r.step s q).1 = .ok buf) :
    r.InBounds q := by
  cases hb : checkBounds r.size q.offset q.len with
  | ok u => exact hb
  | error e =>
    have hrefused : r.readAt q.offset q.len = throw (.err e) := by rw [RemoteReader.readAt, hb]
    rw [RemoteReader.step, hrefused] at h
    cases h

/-- A step of the first process. -/
theorem RemoteReader.step_backed {cache : DiskCache} (hr : r.size = body.length)
    (hm : r.supportsRange = true) (hf : r.fetcher.Ranged body) (hc : r.cache = some cache)
    (hstores : cache.Stores) (hs : TrueChunks body s) (hb : Backed body s) (q : Request) :
    Grows body s (r.step s q).2 ∧ Backed body (r.step s q).2 ∧
      ∀ buf, (r.step s q).1 = .ok buf → ∀ i, q.Overlaps i → OnDisk body (r.step s q).2 i := by
  have hread := yields_iff.mp (RemoteReader.readAt_backed hr hm hf hc hstores hs hb q)
  have hanswer : (r.step s q).1 = answer (r.readAt q.offset q.len) s := rfl
  have hafter : (r.step s q).2 = after (r.readAt q.offset q.len) s := rfl
  cases ha : answer (r.readAt q.offset q.len) s with
  | ok buf =>
    rw [ha] at hread
    obtain ⟨⟨hg, hbacked⟩, hpresent⟩ := hread
    have hin : r.InBounds q := RemoteReader.inBounds_of_ok (hanswer.trans ha)
    exact ⟨hg, hbacked, fun _ _ i hi => hbacked i (hpresent i hin hi)⟩
  | error f =>
    rw [ha] at hread
    refine ⟨hread.1, hread.2, fun buf hbuf => ?_⟩
    cases ha.symm.trans (hanswer.symm.trans hbuf)

/-- The run of the first process: what it has answered has its files at the end. -/
theorem RemoteReader.run_backed {cache : DiskCache} (hr : r.size = body.length)
    (hm : r.supportsRange = true) (hf : r.fetcher.Ranged body) (hc : r.cache = some cache)
    (hstores : cache.Stores) (hs : TrueChunks body s) (hb : Backed body s) (qs : List Request) :
    Grows body s (final r.step s qs) ∧
      ∀ t ∈ transitions r.step s qs, ∀ buf, t.answer = .ok buf →
        ∀ i, t.request.Overlaps i → OnDisk body (final r.step s qs) i := by
  induction qs generalizing s with
  | nil => exact ⟨Grows.refl body s, fun t ht => absurd ht List.not_mem_nil⟩
  | cons q qs ih =>
    obtain ⟨hg, hbacked, hstep⟩ := RemoteReader.step_backed hr hm hf hc hstores hs hb q
    obtain ⟨hmore, hrun⟩ := ih (hg.trueChunks hs) hbacked
    refine ⟨hg.trans hmore, fun t ht buf hbuf i hi => ?_⟩
    rcases List.mem_cons.mp ht with rfl | ht
    · exact hmore.onDisk (hstep buf hbuf i hi)
    · exact hrun t ht buf hbuf i hi

end Backing

section Replaying

variable {body : Bytes} {r : RemoteReader} {s t : Session} {idx : Nat}

/-- A chunk with a file, or in memory, costs no call. -/
theorem RemoteReader.ensure_hit {cache : DiskCache} (hr : r.size = body.length)
    (hc : r.cache = some cache) (hs : TrueChunks body s) (hidx : idx < chunkCount body)
    (h : OnDisk body s idx) :
    Yields (r.ensure idx) (fun _ t => Grows body s t ∧ Present t idx ∧ t.log = s.log)
      (fun _ _ => False) s := by
  simp only [RemoteReader.ensure, yields_bind, yields_get]
  cases hslot : s.state.chunks[idx]? with
  | none =>
    rw [List.getElem?_eq_none_iff, hs.count] at hslot
    omega
  | some slot =>
    cases slot with
    | some c => exact ⟨Grows.refl body s, ⟨c, hslot⟩, rfl⟩
    | none =>
      simp only [RemoteReader.cached_onDisk hr hc h]
      refine (putChunk_spec (List.getElem?_eq_some_iff.mp hslot).1 rfl).mono ?_ (fun _ _ h => h)
      rintro _ t ⟨hg, hp, -, -, -, hlog⟩
      exact ⟨hg, hp, hlog⟩

/-- A request whose chunks have their files is answered without a call. -/
theorem RemoteReader.readAt_hit {cache : DiskCache} (hr : r.size = body.length)
    (hc : r.cache = some cache) (hs : TrueChunks body s) {q : Request} (hin : r.InBounds q)
    (h : ∀ i, q.Overlaps i → OnDisk body s i) :
    Yields (r.readAt q.offset q.len)
      (fun buf t => Grows body s t ∧ t.log = s.log ∧ buf = slice body q.offset q.len)
      (fun _ _ => False) s := by
  have hb : checkBounds r.size q.offset q.len = .ok () := hin
  have hend : q.offset + q.len ≤ body.length := hr ▸ checkBounds_ok hb
  rw [RemoteReader.readAt, hb]
  by_cases h0 : q.len = 0
  · simp only [h0, ite_true]
    exact ⟨Grows.refl body s, rfl, rfl⟩
  simp only [if_neg h0, yields_bind]
  have hpos : 0 < q.len := Nat.pos_of_ne_zero h0
  generalize hxs : List.range' (q.offset / chunk)
    ((q.offset + q.len - 1) / chunk + 1 - q.offset / chunk) = idxs
  have hmem : ∀ i, i ∈ idxs ↔ q.Overlaps i := by
    intro i
    rw [← hxs, List.mem_range'_1, overlaps_iff hpos]
    omega
  have hcount : ∀ i, q.Overlaps i → i < chunkCount body := by
    rintro i ⟨pos, -, hlt, rfl⟩
    have hle := Nat.div_mul_le_self pos chunk
    exact lt_chunkCount.mpr (by omega)
  have hloop : Yields (forM idxs r.ensure)
      (fun _ t => (Grows body s t ∧ t.log = s.log) ∧ ∀ i ∈ idxs, Present t i)
      (fun _ _ => False) s := by
    refine @yields_forM _ _ _ idxs r.ensure
      (fun done t => (Grows body s t ∧ t.log = s.log) ∧ ∀ i ∈ done, Present t i) _ ?_ _
      ⟨⟨Grows.refl body s, rfl⟩, fun i hi => absurd hi List.not_mem_nil⟩
    rintro done idx rest t he ⟨⟨hg, hlog⟩, hdone⟩
    have hover : q.Overlaps idx := (hmem idx).mp (by simp [he])
    refine (RemoteReader.ensure_hit hr hc (hg.trueChunks hs) (hcount idx hover)
      (hg.onDisk (h idx hover))).mono ?_ (fun _ _ h => h)
    rintro _ u ⟨hgu, hp, hlogu⟩
    refine ⟨⟨hg.trans hgu, hlogu.trans hlog⟩, fun i hi => ?_⟩
    rcases List.mem_append.mp hi with hi | hi
    · exact hgu.present (hdone i hi)
    · exact List.mem_singleton.mp hi ▸ hp
  refine hloop.mono ?_ (fun _ _ h => h)
  rintro _ t ⟨⟨hg, hlog⟩, hpresent⟩
  have hcopy : copyOut t.state.chunks q.offset q.len = .ok (slice body q.offset q.len) := by
    refine copyOut_eq (hg.trueChunks hs) q.len q.offset hend fun i hlo hhi => hpresent i ?_
    rw [hmem, overlaps_iff hpos, Nat.le_div_iff_mul_le chunk_pos]
    omega
  simp only [yields_bind, yields_get, hcopy, yields_pure]
  exact ⟨hg, hlog, trivial⟩

/-- The run of a later process over files that are there. -/
theorem RemoteReader.run_hit {cache : DiskCache} (hr : r.size = body.length)
    (hc : r.cache = some cache) (hs : TrueChunks body s) {qs : List Request}
    (h : ∀ q ∈ qs, r.InBounds q ∧ ∀ i, q.Overlaps i → OnDisk body s i) :
    (final r.step s qs).log = s.log ∧ ∀ t ∈ transitions r.step s qs,
      t.answer = .ok (slice body t.request.offset t.request.len) := by
  induction qs generalizing s with
  | nil => exact ⟨rfl, fun t ht => absurd ht List.not_mem_nil⟩
  | cons q qs ih =>
    obtain ⟨⟨hin, hfiles⟩, hlater⟩ := List.forall_mem_cons.mp h
    have hread := yields_iff.mp (RemoteReader.readAt_hit hr hc hs hin hfiles)
    have hanswer : (r.step s q).1 = answer (r.readAt q.offset q.len) s := rfl
    cases ha : answer (r.readAt q.offset q.len) s with
    | error f =>
      rw [ha] at hread
      exact hread.elim
    | ok buf =>
      rw [ha] at hread
      obtain ⟨hg, hlog, rfl⟩ := hread
      obtain ⟨hlog', hrun⟩ := ih (s := (r.step s q).2) (hg.trueChunks hs) fun q' hq' =>
        ⟨(hlater q' hq').1, fun i hi => hg.onDisk ((hlater q' hq').2 i hi)⟩
      refine ⟨hlog'.trans hlog, fun t ht => ?_⟩
      rcases List.mem_cons.mp ht with rfl | ht
      · exact hanswer.trans ha
      · exact hrun t ht

end Replaying

/-- What one process has read over a cache that stores, a later one over the same directory
answers from there: it makes no call at all, whatever its fetcher would have returned. -/
theorem replay_makes_no_call {body : Bytes} {fetcher fetcher' : Fetcher} {cache cache' : DiskCache}
    {disk : CacheDir} {r r' : RemoteReader} {st st' : State} {ranges : Bool}
    (hprobe : fetcher.probe = .ok ⟨body.length, true⟩)
    (hbuild : build fetcher (some cache) = .ok (r, st)) (hfetch : fetcher.Ranged body)
    (hstores : cache.Stores)
    (hdisk : ∀ i c, disk (.chunk i) = some c → c.length = (chunkOf body i).length →
      c = chunkOf body i)
    (hprobe' : fetcher'.probe = .ok ⟨body.length, ranges⟩)
    (hbuild' : build fetcher' (some cache') = .ok (r', st')) {qs qs' : List Request}
    (hread : ∀ q ∈ qs', r'.InBounds q ∧ ∀ i, q.Overlaps i →
      ∃ t ∈ transitions r.step ⟨st, disk, []⟩ qs, (∃ buf, t.answer = .ok buf) ∧
        t.request.Overlaps i) :
    (final r'.step ⟨st', (final r.step ⟨st, disk, []⟩ qs).disk, []⟩ qs').log = [] ∧
      ∀ t ∈ transitions r'.step ⟨st', (final r.step ⟨st, disk, []⟩ qs).disk, []⟩ qs',
        t.answer = .ok (slice body t.request.offset t.request.len) := by
  obtain ⟨rfl, -, rfl⟩ := build_eq hprobe hbuild
  obtain ⟨rfl, -, rfl⟩ := build_eq hprobe' hbuild'
  have hstart := @trueChunks_start body disk none hdisk
  have hempty : Backed body ⟨⟨List.replicate ((body.length + chunk - 1) / chunk) none, none, 0, 0⟩,
      disk, []⟩ := by
    rintro i ⟨c, hc⟩
    rw [List.getElem?_replicate] at hc
    split at hc <;> cases hc
  obtain ⟨hgrows, hfiles⟩ := RemoteReader.run_backed (r := ⟨fetcher, body.length, true, some cache⟩)
    rfl rfl hfetch rfl hstores hstart hempty qs
  have hlater := @trueChunks_start body _ none (hgrows.trueChunks hstart).disk
  refine RemoteReader.run_hit (r := ⟨fetcher', body.length, ranges, some cache'⟩) rfl rfl hlater
    fun q hq => ⟨(hread q hq).1, fun i hi => ?_⟩
  obtain ⟨t, ht, ⟨buf, hbuf⟩, hover⟩ := (hread q hq).2 i hi
  exact OnDisk.of_disk (hfiles t ht buf hbuf i hover) rfl

/-- A server that is lost after probing. -/
def lostFetcher (ranges : Bool) : Fetcher where
  probe := .ok ⟨3, ranges⟩
  fetchRange _ _ _ := .error (.http "lost".toList)
  fetchAll _ := .error (.http "lost".toList)

/-- A directory that has the only chunk of three bytes. -/
def threeBytesOnDisk : CacheDir := fun f => if f = .chunk 0 then some [1, 2, 3] else none

private theorem three_le_chunk : 3 ≤ chunk := by
  rw [chunk]
  decide

private theorem chunkOf_three : chunkOf [1, 2, 3] 0 = [1, 2, 3] := by
  rw [chunkOf, Nat.zero_mul, slice_zero_offset, List.take_of_length_le three_le_chunk]

private theorem threeBytesOnDisk_true (i : Nat) (c : Bytes)
    (h : threeBytesOnDisk (.chunk i) = some c) :
    i = 0 ∧ c = chunkOf [1, 2, 3] i := by
  obtain ⟨hi, hc⟩ := Option.ite_none_right_eq_some.mp h
  cases hi
  exact ⟨rfl, by rw [chunkOf_three, Option.some.inj hc]⟩

private theorem overlaps_three {q : Request} (hq : q.offset + q.len ≤ 3) {i : Nat}
    (h : q.Overlaps i) :
    i = 0 := by
  obtain ⟨pos, -, hlt, rfl⟩ := h
  have hle := three_le_chunk
  exact Nat.div_eq_of_lt (by omega)

/-- The second process asks for a byte more than the first one, of the same chunk. -/
theorem replay_makes_no_call_three_bytes :
    (final (RemoteReader.step ⟨lostFetcher false, 3, false, some ⟨fun _ => .mkdir⟩⟩)
      ⟨⟨List.replicate ((3 + chunk - 1) / chunk) none, none, 0, 0⟩,
        (final (RemoteReader.step ⟨lostFetcher true, 3, true, some ⟨fun _ => .done⟩⟩)
          ⟨⟨List.replicate ((3 + chunk - 1) / chunk) none, none, 0, 0⟩, threeBytesOnDisk, []⟩
          [⟨0, 2⟩]).disk, []⟩ [⟨1, 2⟩]).log = [] ∧
    ∀ t ∈ transitions (RemoteReader.step ⟨lostFetcher false, 3, false, some ⟨fun _ => .mkdir⟩⟩)
      ⟨⟨List.replicate ((3 + chunk - 1) / chunk) none, none, 0, 0⟩,
        (final (RemoteReader.step ⟨lostFetcher true, 3, true, some ⟨fun _ => .done⟩⟩)
          ⟨⟨List.replicate ((3 + chunk - 1) / chunk) none, none, 0, 0⟩, threeBytesOnDisk, []⟩
          [⟨0, 2⟩]).disk, []⟩ [⟨1, 2⟩],
      t.answer = .ok (slice [1, 2, 3] t.request.offset t.request.len) := by
  have htrue : ∀ i c, threeBytesOnDisk (.chunk i) = some c →
      c.length = (chunkOf [1, 2, 3] i).length → c = chunkOf [1, 2, 3] i :=
    fun i c h _ => (threeBytesOnDisk_true i c h).2
  have hstart : TrueChunks [1, 2, 3] ⟨⟨List.replicate ((3 + chunk - 1) / chunk) none, none, 0, 0⟩,
      threeBytesOnDisk, []⟩ := trueChunks_start htrue
  have hhit := yields_iff.mp (RemoteReader.readAt_hit (q := ⟨0, 2⟩)
    (r := ⟨lostFetcher true, 3, true, some ⟨fun _ => .done⟩⟩) rfl rfl hstart rfl fun i hi => by
      rw [overlaps_three (by decide) hi, OnDisk, chunkOf_three]
      rfl)
  have hfetch : (lostFetcher true).Ranged [1, 2, 3] := fun k start end_ data h => by cases h
  have hstores : DiskCache.Stores ⟨fun _ => .done⟩ := fun _ => rfl
  refine replay_makes_no_call
    (rfl : (lostFetcher true).probe = .ok ⟨3, true⟩) (build_ok rfl (Nat.succ_ne_zero 2))
    hfetch hstores htrue
    (rfl : (lostFetcher false).probe = .ok ⟨3, false⟩) (build_ok rfl (Nat.succ_ne_zero 2)) ?_
  intro q hq
  obtain rfl := List.mem_singleton.mp hq
  refine ⟨rfl, fun i hi => ⟨_, List.mem_singleton_self _, ?_, ?_⟩⟩
  · split at hhit
    · rename_i buf hbuf
      exact ⟨buf, hbuf⟩
    · exact hhit.elim
  · rw [overlaps_three (by decide) hi]
    exact ⟨0, Nat.le_refl 0, by decide, Nat.zero_div _⟩

end BootExtractor.Remote
