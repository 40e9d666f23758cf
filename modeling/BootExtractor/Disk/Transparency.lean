import BootExtractor.Disk.Overlay

/-!
# The cache does not show

A read is answered from the cache or from the host. While descriptors with the same
host offset inflate alike, the answer is that of an image that was just opened, and in
any image the cache is bounded and holds whole clusters.
-/

namespace BootExtractor.Disk

open Effect Bytes

/-- Whether a read of the host fails does not depend on the time. -/
def Host.Steady (h : Host) : Prop :=
  ∀ time time' offset len, h.fault time offset len = h.fault time' offset len

namespace Qcow2

/-- What inflating the cluster of a descriptor comes to without a cache. -/
def outcome (q : Qcow2) (z : Inflater) (offset csize : Nat) : Except Fault Bytes :=
  match q.host.answer 0 offset (min csize (q.host.size - offset)) with
  | .error e => .error (.err e)
  | .ok comp => z.cluster q.clusterSize offset comp

/-- Compressed descriptors that share a host offset inflate to the same cluster, or not at
all. -/
def Agrees (q : Qcow2) (z : Inflater) : Prop :=
  ∀ c c' offset csize csize', q.mapping c = some (.compressed offset csize) →
    q.mapping c' = some (.compressed offset csize') →
    ∀ data, q.outcome z offset csize = .ok data → q.outcome z offset csize' = .ok data

/-- Every cached cluster is what some descriptor of the image inflates to. -/
def CacheHolds (q : Qcow2) (z : Inflater) (cache : Cache) : Prop :=
  ∀ offset data, (offset, data) ∈ cache →
    ∃ c csize, q.mapping c = some (.compressed offset csize) ∧
      q.outcome z offset csize = .ok data

/-- A bounded cache of whole clusters. -/
structure CacheSized (q : Qcow2) (cache : Cache) : Prop where
  length_le : cache.length ≤ cacheClusters
  whole : ∀ entry ∈ cache, entry.2.length = q.clusterSize

end Qcow2

namespace DiskImage

/-- The qcow2 image at a layer of a chain. -/
def layer? : DiskImage → Nat → Option Qcow2
  | raw _, _ => none
  | qcow2 q, 0 => some q
  | qcow2 _, _ + 1 => none
  | overlay q _, 0 => some q
  | overlay _ backing, n + 1 => backing.layer? n

/-- All hosts of a chain are steady. -/
def Steady : DiskImage → Prop
  | raw h => h.Steady
  | qcow2 q => q.host.Steady
  | overlay q backing => q.host.Steady ∧ backing.Steady

/-- In every layer, descriptors that share a host offset inflate alike. -/
def Agrees (z : Inflater) (img : DiskImage) : Prop :=
  ∀ n q, img.layer? n = some q → q.Agrees z

end DiskImage

/-- A condition on the cache of every qcow2 layer. -/
def EachCache (layers : Nat → Option Qcow2) (C : Qcow2 → Cache → Prop) (s : Session) : Prop :=
  ∀ n q, layers n = some q → C q (s.caches n)

/-- The caches hold what the descriptors of their images inflate to. -/
abbrev Holds (layers : Nat → Option Qcow2) (z : Inflater) : Session → Prop :=
  EachCache layers fun q cache => q.CacheHolds z cache

/-- The caches are bounded and hold whole clusters. -/
abbrev Sized (layers : Nat → Option Qcow2) : Session → Prop :=
  EachCache layers fun q cache => q.CacheSized cache

section Caches

variable {layers : Nat → Option Qcow2} {C : Qcow2 → Cache → Prop} {s : Session} {layer : Nat}
  {q : Qcow2} {z : Inflater}

/-- Remembering a cluster keeps a condition that it keeps on its own cache. -/
theorem EachCache.remember (hq : layers layer = some q) {offset : Nat} {data : Bytes}
    (hpush : ∀ cache, C q cache → C q (Qcow2.push cache (offset, data)))
    (h : EachCache layers C s) :
    EachCache layers C (after (Qcow2.remember layer offset data) s) := by
  intro n q' hn
  have hcaches : (after (Qcow2.remember layer offset data) s).caches =
      Function.update s.caches layer (Qcow2.push (s.caches layer) (offset, data)) := rfl
  rw [hcaches]
  by_cases heq : n = layer
  · subst heq
    rw [hq] at hn
    cases hn
    rw [Function.update_self]
    exact hpush _ (h n q hq)
  · rw [Function.update_of_ne heq]
    exact h n q' hn

private theorem mem_push {cache : Cache} {entry e : Nat × Bytes} (h : e ∈ Qcow2.push cache entry) :
    e ∈ cache ∨ e = entry := by
  rcases List.mem_append.mp h with hold | hnew
  · left
    split at hold
    · exact List.mem_of_mem_tail hold
    · exact hold
  · exact Or.inr (List.mem_singleton.mp hnew)

/-- A decoding that gave a cluster may be cached. -/
theorem CacheHolds.push {cache : Cache} {c offset csize : Nat} {data : Bytes}
    (hm : q.mapping c = some (.compressed offset csize))
    (hd : q.outcome z offset csize = .ok data) (h : q.CacheHolds z cache) :
    q.CacheHolds z (Qcow2.push cache (offset, data)) := by
  intro o d hmem
  rcases mem_push hmem with hold | hnew
  · exact h o d hold
  · obtain ⟨rfl, rfl⟩ := Prod.mk.inj hnew
    exact ⟨c, csize, hm, hd⟩

/-- A full cluster may be cached. -/
theorem CacheSized.push {cache : Cache} {offset : Nat} {data : Bytes}
    (hd : data.length = q.clusterSize) (h : q.CacheSized cache) :
    q.CacheSized (Qcow2.push cache (offset, data)) := by
  constructor
  · have hle := h.length_le
    have hpos : 0 < cacheClusters := by decide
    unfold Qcow2.push
    split
    · rw [List.length_append, List.length_tail, List.length_singleton]
      omega
    · rw [List.length_append, List.length_singleton]
      omega
  · intro entry hmem
    rcases mem_push hmem with hold | rfl
    · exact h.whole entry hold
    · exact hd

end Caches

section Uniform

variable {layers : Nat → Option Qcow2} {C : Qcow2 → Cache → Prop} {z : Inflater} {layer : Nat}
  {q : Qcow2}

private theorem report_settles {ε α : Type} (event : Bool → Event) (f : ε → Fault)
    (result : Except ε α) :
    Settles (EachCache layers C) (report event f result) (result.mapError f) := by
  intro s hs
  cases result with
  | ok a => exact ⟨rfl, hs⟩
  | error e => exact ⟨rfl, hs⟩

/-- A steady host answers as it would at the start. -/
theorem Host.readAt_settles {h : Host} (hh : h.Steady) (layer offset len : Nat) :
    Settles (EachCache layers C) (h.readAt layer offset len)
      ((h.answer 0 offset len).mapError .err) := by
  intro s hs
  have hsteady : h.answer s.log.length offset len = h.answer 0 offset len := by
    rw [Host.answer, Host.answer, hh s.log.length 0]
  have hread : h.readAt layer offset len s =
      report (.read layer offset len) Fault.err (h.answer s.log.length offset len) s := rfl
  have hsettles : Settles (EachCache layers C) _ _ :=
    report_settles (.read layer offset len) Fault.err (h.answer 0 offset len)
  have hreport := hsettles s hs
  rw [hsteady] at hread
  unfold Effect.answer after at hreport ⊢
  rwa [hread]

/-- A steady host answers alike in every session. -/
theorem Host.readAt_uniform {h : Host} (hh : h.Steady) (layer offset len : Nat) :
    Uniform (EachCache layers C) (h.readAt layer offset len) fun buf =>
      h.answer 0 offset len = .ok buf := by
  refine ⟨_, ?_, readAt_settles hh layer offset len⟩
  intro buf hbuf
  cases hanswer : h.answer 0 offset len with
  | error e =>
    rw [hanswer] at hbuf
    cases hbuf
  | ok b =>
    rw [hanswer] at hbuf
    cases hbuf
    rfl

/-- The tables are read alike under all caches. -/
private theorem mapCluster_uniform (hh : q.host.Steady) (p : Nat) :
    Uniform (EachCache layers C) (q.mapCluster layer p) fun m =>
      q.mapping (p / q.width) = some m := by
  unfold Qcow2.mapCluster
  simp only [Qcow2.table_eq]
  have hindex : (p >>> q.clusterBits) % (q.clusterSize / 8) = p / q.width % q.fanout := by
    rw [Qcow2.clusterSize_eq, Nat.shiftRight_eq_div_pow]
    rfl
  rw [hindex]
  split
  · rename_i htable
    apply Uniform.pure
    rw [Qcow2.mapping, Qcow2.descriptor, if_pos htable]
    simp [Qcow2.meaning, Bits.field]
  · rename_i htable
    refine (Host.readAt_uniform hh layer _ 8).map ?_
    intro buf hbuf
    obtain ⟨hrange, rfl⟩ := Host.answer_ok hbuf
    have hin : q.table (p / q.width) + p / q.width % q.fanout * 8 + 8 ≤
        q.host.content.length := by
      rcases hrange with h0 | hle
      · omega
      · exact hle
    rw [Qcow2.mapping, Qcow2.descriptor, if_neg htable, get?, if_pos hin]
    simp only [Option.map_some, Qcow2.decodeEntry_eq]

/-- Inflating a cluster comes to its outcome, and only that is remembered. -/
theorem inflateCluster_settles (hq : layers layer = some q) (hh : q.host.Steady)
    {c offset csize : Nat} (hm : q.mapping c = some (.compressed offset csize)) :
    Settles (Holds layers z) (q.inflateCluster z layer offset csize)
      (q.outcome z offset csize) := by
  have hremember : ∀ data, q.outcome z offset csize = .ok data →
      Settles (Holds layers z) (do Qcow2.remember layer offset data; pure data) (.ok data) := by
    intro data hdata s hs
    exact ⟨rfl, EachCache.remember hq (fun cache => CacheHolds.push hm hdata) hs⟩
  unfold Qcow2.inflateCluster
  have hread : Settles (Holds layers z) _ _ :=
    Host.readAt_settles hh layer offset (min csize (q.host.size - offset))
  cases hanswer : q.host.answer 0 offset (min csize (q.host.size - offset)) with
  | error e =>
    rw [hanswer] at hread
    have houtcome : q.outcome z offset csize = .error (.err e) := by
      rw [Qcow2.outcome, hanswer]
    rw [houtcome]
    exact hread.bind (g := fun _ => .error (.err e)) fun _ h => (by cases h)
  | ok comp =>
    rw [hanswer] at hread
    have houtcome : q.outcome z offset csize = z.cluster q.clusterSize offset comp := by
      rw [Qcow2.outcome, hanswer]
    have hreport : Settles (Holds layers z) _ _ :=
      report_settles (.inflate layer offset) id (z.cluster q.clusterSize offset comp)
    refine hread.bind (g := fun _ => q.outcome z offset csize) ?_
    rintro _ ⟨⟩
    rw [houtcome]
    cases hcluster : z.cluster q.clusterSize offset comp with
    | error f =>
      rw [hcluster] at hreport
      exact hreport.bind (g := fun _ => .error f) fun _ h => (by cases h)
    | ok data =>
      rw [hcluster] at hreport
      refine hreport.bind (g := fun _ => .ok data) ?_
      rintro _ ⟨⟩
      exact hremember _ (houtcome.trans hcluster)

/-- `decompress_cluster` comes to the outcome of its descriptor, cached or not. -/
theorem decompressCluster_settles (hq : layers layer = some q) (hh : q.host.Steady)
    (hagrees : q.Agrees z) {c offset csize : Nat}
    (hm : q.mapping c = some (.compressed offset csize)) :
    Settles (Holds layers z) (q.decompressCluster z layer offset csize)
      (q.outcome z offset csize) := by
  intro s hs
  have hget : (EStateM.get : DiskM Session) s = .ok s s := rfl
  unfold answer after
  cases hfind : (s.caches layer).find? (fun entry => entry.1 == offset) with
  | none =>
    have hrun : q.decompressCluster z layer offset csize s =
        q.inflateCluster z layer offset csize s := by
      simp only [Qcow2.decompressCluster, bind, EStateM.bind, get, getThe, MonadStateOf.get, hget,
        hfind]
    rw [hrun]
    exact inflateCluster_settles hq hh hm s hs
  | some entry =>
    obtain ⟨o, data⟩ := entry
    have hrun : q.decompressCluster z layer offset csize s = (pure data : DiskM Bytes) s := by
      simp only [Qcow2.decompressCluster, bind, EStateM.bind, get, getThe, MonadStateOf.get, hget,
        hfind]
    rw [hrun]
    have ho : o = offset := by simpa using List.find?_some hfind
    subst ho
    obtain ⟨c', csize', hm', hd⟩ := hs layer q hq o data (List.mem_of_find?_eq_some hfind)
    rw [hagrees c' c o csize' csize hm' hm data hd]
    exact ⟨rfl, hs⟩

private theorem readBacking_uniform {I : Session → Prop} {backing : Option Reader}
    (hb : ∀ b, backing = some b → ∀ offset len, Uniform I (b.readAt offset len) fun _ => True)
    (offset len : Nat) : Uniform I (Qcow2.readBacking backing offset len) fun _ => True := by
  unfold Qcow2.readBacking
  split
  · exact .pure trivial
  · rename_i b
    simp only
    split
    · exact (hb b rfl offset _).map fun _ _ => trivial
    · exact .pure trivial

variable {backing : Option Reader}

/-- A chunk is read alike under all true caches. -/
private theorem readChunk_uniform (hq : layers layer = some q) (hh : q.host.Steady)
    (hagrees : q.Agrees z)
    (hb : ∀ b, backing = some b → ∀ offset len,
      Uniform (Holds layers z) (b.readAt offset len) fun _ => True) (pos within chunk : Nat) :
    Uniform (Holds layers z) (q.readChunk z layer backing pos within chunk) fun _ => True := by
  refine (mapCluster_uniform hh (pos - within)).bind fun m hm => ?_
  cases m with
  | data host =>
    exact ⟨_, fun _ _ => trivial, Host.readAt_settles hh layer (host + within) chunk⟩
  | zero => exact .pure trivial
  | unallocated => exact readBacking_uniform hb pos chunk
  | compressed offset csize =>
    have hdecompress : Uniform (Holds layers z) (q.decompressCluster z layer offset csize)
        fun _ => True :=
      ⟨_, fun _ _ => trivial, decompressCluster_settles hq hh hagrees hm⟩
    refine hdecompress.bind fun data _ => ?_
    obtain ⟨r, _, hsettles⟩ := Uniform.ofExcept (I := Holds layers z) id
      (Qcow2.sub data within chunk)
    exact ⟨r, fun _ _ => trivial, hsettles⟩

/-- The loop, by induction on the passes left. -/
theorem readLoop_uniform (hq : layers layer = some q) (hh : q.host.Steady) (hagrees : q.Agrees z)
    (hb : ∀ b, backing = some b → ∀ offset len,
      Uniform (Holds layers z) (b.readAt offset len) fun _ => True) (fuel pos len : Nat) :
    Uniform (Holds layers z) (q.readLoop z layer backing fuel pos len) fun _ => True := by
  induction fuel generalizing pos len with
  | zero =>
    cases len with
    | zero => exact .pure trivial
    | succ len => exact .throw _
  | succ fuel ih =>
    cases len with
    | zero => exact .pure trivial
    | succ len =>
      refine (readChunk_uniform hq hh hagrees hb pos _ _).bind fun head _ => ?_
      exact (ih _ _).bind fun tail _ => .pure trivial

/-- A layer is read alike under all true caches. -/
theorem Qcow2.readAt_uniform (hq : layers layer = some q) (hh : q.host.Steady)
    (hagrees : q.Agrees z) (hb : ∀ b, backing = some b → ∀ offset len,
      Uniform (Holds layers z) (b.readAt offset len) fun _ => True) (offset len : Nat) :
    Uniform (Holds layers z) (q.readAt z layer backing offset len) fun _ => True := by
  refine (Uniform.ofExcept Fault.err _).bind fun _ _ => ?_
  exact readLoop_uniform hq hh hagrees hb len offset len

end Uniform

section Frames

variable {F : Frame Fault Session} {I : Session → Prop} {z : Inflater} {layer : Nat} {q : Qcow2}
  {backing : Option Reader}

private theorem ofExcept_ensures {ε α : Type} (hfails : ∀ e s, F.fails e s s) (f : ε → Fault)
    (x : Except ε α) : Ensures F I (ofExcept f x) fun a => x = .ok a := by
  intro s hs
  rw [yields_ofExcept]
  exact ⟨fun a ha => ⟨F.refl s, hs, ha⟩, fun e _ => ⟨hfails _ s, hs⟩⟩

/-- Mapping a cluster does what a read of the host does, and answers as the tables say. -/
theorem mapCluster_ensures
    (hread : ∀ offset len, Ensures F I (q.host.readAt layer offset len) fun _ => True) (p : Nat) :
    Ensures F I (q.mapCluster layer p) fun m => q.mapping (p / q.width) = some m := by
  have hmap : Ensures F I (q.mapCluster layer p) fun _ => True := by
    rw [Qcow2.mapCluster]
    split
    · exact .pure trivial
    · exact (hread _ 8).map fun _ _ => trivial
  have hspec : Truthful (fun _ => True) layer (q.mapCluster layer p) fun m =>
      q.mapping (p / q.width) = some m := Qcow2.mapCluster_truthful (fun _ _ _ _ => trivial) p
  intro s hs
  refine ((hmap s hs).and (hspec s trivial)).mono ?_ ?_
  · rintro m t ⟨⟨hst, ht, -⟩, -, -, hm⟩
    exact ⟨hst, ht, hm⟩
  · rintro e t ⟨hst, -⟩
    exact hst

/-- A part of a request does what its host reads, its compressed clusters and its backing file
do. -/
theorem readChunk_ensures (hfails : ∀ e s, F.fails e s s)
    (hread : ∀ offset len, Ensures F I (q.host.readAt layer offset len) fun _ => True)
    (hinflate : ∀ c offset csize, q.mapping c = some (.compressed offset csize) →
      Ensures F I (q.decompressCluster z layer offset csize) fun _ => True)
    (hb : ∀ b, backing = some b → ∀ offset len, Ensures F I (b.readAt offset len) fun _ => True)
    (pos within chunk : Nat) :
    Ensures F I (q.readChunk z layer backing pos within chunk) fun _ => True := by
  refine (mapCluster_ensures hread _).bind fun m hm => ?_
  cases m with
  | data host => exact hread _ chunk
  | zero => exact .pure trivial
  | unallocated =>
    change Ensures F I (Qcow2.readBacking backing pos chunk) _
    unfold Qcow2.readBacking
    split
    · exact .pure trivial
    · rename_i b
      simp only
      split
      · exact (hb b rfl pos _).map fun _ _ => trivial
      · exact .pure trivial
  | compressed offset csize =>
    refine (hinflate _ offset csize hm).bind fun data _ => ?_
    exact (ofExcept_ensures hfails id _).mono fun _ _ => trivial

/-- The loop, by induction on the passes left. -/
theorem readLoop_ensures (hfails : ∀ e s, F.fails e s s)
    (hchunk : ∀ pos within chunk,
      Ensures F I (q.readChunk z layer backing pos within chunk) fun _ => True)
    (fuel pos len : Nat) :
    Ensures F I (q.readLoop z layer backing fuel pos len) fun _ => True := by
  induction fuel generalizing pos len with
  | zero =>
    cases len with
    | zero => exact .pure trivial
    | succ len => exact fun s hs => ⟨hfails _ s, hs⟩
  | succ fuel ih =>
    cases len with
    | zero => exact .pure trivial
    | succ len =>
      refine (hchunk pos _ _).bind fun head _ => ?_
      exact (ih _ _).bind fun tail _ => .pure trivial

/-- A read keeps what its host reads and its decodings keep. -/
theorem Qcow2.readAt_ensures (hfails : ∀ e s, F.fails e s s)
    (hread : ∀ offset len, Ensures F I (q.host.readAt layer offset len) fun _ => True)
    (hinflate : ∀ c offset csize, q.mapping c = some (.compressed offset csize) →
      Ensures F I (q.decompressCluster z layer offset csize) fun _ => True)
    (hb : ∀ b, backing = some b → ∀ offset len, Ensures F I (b.readAt offset len) fun _ => True)
    (offset len : Nat) : Ensures F I (q.readAt z layer backing offset len) fun _ => True := by
  refine (ofExcept_ensures hfails Fault.err _).bind fun _ _ => ?_
  exact Disk.readLoop_ensures hfails (readChunk_ensures hfails hread hinflate hb) len offset len

/-- A read of a chain does what the reads of its hosts and its compressed clusters do, by
induction on the layers. -/
theorem DiskImage.readAt_ensures {img : DiskImage} {base : Nat} (hfails : ∀ e s, F.fails e s s)
    (hread : ∀ (h : Host) n offset len, Ensures F I (h.readAt (base + n) offset len) fun _ => True)
    (hinflate : ∀ n q, img.layer? n = some q → ∀ c offset csize,
      q.mapping c = some (.compressed offset csize) →
        Ensures F I (q.decompressCluster z (base + n) offset csize) fun _ => True)
    (offset len : Nat) : Ensures F I (img.readAt z base offset len) fun _ => True := by
  induction img generalizing base offset len with
  | raw h => exact hread h 0 offset len
  | qcow2 q =>
    exact Qcow2.readAt_ensures hfails (hread q.host 0) (hinflate 0 q rfl)
      (fun b hb => (by cases hb)) offset len
  | overlay q backing ih =>
    refine Qcow2.readAt_ensures hfails (hread q.host 0) (hinflate 0 q rfl) ?_ offset len
    rintro b ⟨⟩ offset len
    have hnext : ∀ n, base + 1 + n = base + (n + 1) := fun n => by omega
    refine ih (fun h n => ?_) (fun n q' hq' => ?_) offset len
    · rw [hnext]
      exact hread h (n + 1)
    · rw [hnext]
      exact hinflate (n + 1) q' hq'

end Frames

section Sized

variable {layers : Nat → Option Qcow2} {z : Inflater} {layer : Nat} {q : Qcow2}

/-- A frame in which everything is allowed. -/
def anyFrame : Frame Fault Session where
  step _ _ := True
  fails _ _ _ := True
  refl _ := trivial
  trans _ _ := trivial
  fails_of_step _ _ := trivial

/-- The computation keeps the caches bounded, and answers with an `R`. -/
abbrev KeepsSized {α : Type} (layers : Nat → Option Qcow2) (x : DiskM α) (R : α → Prop) : Prop :=
  Ensures anyFrame (Sized layers) x R

/-- A host read leaves the caches alone. -/
theorem Host.readAt_keepsSized (h : Host) (layer offset len : Nat) :
    KeepsSized layers (h.readAt layer offset len) fun _ => True :=
  (h.readAt_ensures (fun _ hs => ⟨trivial, hs⟩) (fun _ _ hs => ⟨trivial, hs⟩)).mono
    fun _ _ => trivial

/-- Decoding a cluster keeps the caches' entries full. -/
private theorem inflateCluster_keepsSized (hq : layers layer = some q) (offset csize : Nat) :
    KeepsSized layers (q.inflateCluster z layer offset csize) fun _ => True := by
  refine (q.host.readAt_keepsSized layer offset _).bind fun comp _ => ?_
  refine (report_ensures (fun _ hs => ⟨trivial, hs⟩) fun _ _ _ hs => ⟨trivial, hs⟩).bind ?_
  intro data hdata
  have hlen := z.length_cluster hdata
  have hremember : KeepsSized layers (Qcow2.remember layer offset data) fun _ => True := by
    intro s hs
    have hpush : ∀ cache, q.CacheSized cache → q.CacheSized (Qcow2.push cache (offset, data)) :=
      fun _ => CacheSized.push hlen
    have hkeep := EachCache.remember hq hpush hs
    rw [Qcow2.remember, yields_modify]
    exact ⟨trivial, hkeep, trivial⟩
  exact hremember.bind fun _ _ => .pure trivial

private theorem decompressCluster_keepsSized (hq : layers layer = some q) (offset csize : Nat) :
    KeepsSized layers (q.decompressCluster z layer offset csize) fun _ => True := by
  intro s hs
  rw [Qcow2.decompressCluster, yields_bind, yields_get]
  split
  · exact ⟨trivial, hs, trivial⟩
  · exact inflateCluster_keepsSized hq offset csize s hs

end Sized

namespace DiskImage

variable {z : Inflater} {layers : Nat → Option Qcow2}

/-- An image is read alike under all true caches. -/
theorem readAt_uniform {img : DiskImage} {layer : Nat}
    (hplace : ∀ n, layers (layer + n) = img.layer? n) (hsteady : img.Steady)
    (hagrees : img.Agrees z) (offset len : Nat) :
    Uniform (Holds layers z) (img.readAt z layer offset len) fun _ => True := by
  induction img generalizing layer offset len with
  | raw h =>
    exact ⟨_, fun _ _ => trivial, Host.readAt_settles hsteady layer offset len⟩
  | qcow2 q =>
    exact Qcow2.readAt_uniform (hplace 0) hsteady (hagrees 0 q rfl) (fun b h => (by cases h))
      offset len
  | overlay q backing ih =>
    refine Qcow2.readAt_uniform (hplace 0) hsteady.1 (hagrees 0 q rfl) ?_ offset len
    rintro b ⟨⟩ offset len
    refine ih (fun n => ?_) hsteady.2 (fun n q' => hagrees (n + 1) q') offset len
    rw [Nat.add_assoc, Nat.add_comm 1 n]
    exact hplace (n + 1)

private theorem readAt_keepsSized {img : DiskImage} {layer : Nat}
    (hplace : ∀ n, layers (layer + n) = img.layer? n) (offset len : Nat) :
    KeepsSized layers (img.readAt z layer offset len) fun _ => True := by
  refine readAt_ensures (fun _ _ => trivial) (fun h n => h.readAt_keepsSized (layer + n)) ?_
    offset len
  intro n q hq c offset csize _
  exact decompressCluster_keepsSized ((hplace n).trans hq) offset csize

/-- What holds of the empty cache holds of fresh caches. -/
theorem eachCache_fresh {C : Qcow2 → Cache → Prop} (hC : ∀ q, C q []) :
    EachCache layers C .fresh := fun _ q _ => hC q

/-- After any history of reads, a chain over hosts that fail in the same places at any time
answers as one that was just opened, where descriptors with the same host offset inflate alike.
In any chain the caches are bounded and hold whole clusters. -/
theorem cache_transparent (z : Inflater) (img : DiskImage) (history : List (Nat × Nat)) :
    (img.Steady → img.Agrees z → ∀ offset len,
      (img.step z (img.reached z history) (offset, len)).1 =
        (img.step z .fresh (offset, len)).1) ∧
    ∀ n q, img.layer? n = some q → q.CacheSized ((img.reached z history).caches n) := by
  have hplace : ∀ n, img.layer? (0 + n) = img.layer? n := fun n => by rw [Nat.zero_add]
  constructor
  · intro hsteady hagrees offset len
    have hfresh : Holds img.layer? z .fresh := eachCache_fresh fun q _ _ h => (by cases h)
    have hreached : Holds img.layer? z (img.reached z history) := by
      apply Runs.final_of_step (I := Holds img.layer? z) (G := fun _ _ => True)
      · intro s r hs _
        exact (readAt_uniform hplace hsteady hagrees r.1 r.2).keeps hs
      · exact hfresh
      · exact fun _ _ => trivial
    exact (readAt_uniform hplace hsteady hagrees offset len).same hreached hfresh
  · have hfresh : Sized img.layer? .fresh :=
      eachCache_fresh fun q => ⟨Nat.zero_le _, by simp⟩
    apply Runs.final_of_step (I := Sized img.layer?) (G := fun _ _ => True)
    · intro s r hs _
      have h := yields_iff.mp (readAt_keepsSized (z := z) hplace r.1 r.2 s hs)
      simp only [step]
      split at h
      · exact h.2.1
      · exact h.2
    · exact hfresh
    · exact fun _ _ => trivial

/-- Descriptors with one length for each host offset inflate alike. -/
theorem Unambiguous.agrees {img : DiskImage} (hu : img.Unambiguous) : img.Agrees z := by
  intro n q hn c c' offset csize csize' hm hm' data hdata
  have hq : q.Unambiguous := by
    induction img generalizing n with
    | raw h => cases hn
    | qcow2 q' =>
      cases n with
      | zero =>
        cases hn
        exact hu
      | succ n => cases hn
    | overlay q' backing ih =>
      cases n with
      | zero =>
        cases hn
        exact hu.1
      | succ n => exact ih hu.2 n hn
  rw [← hq c c' offset csize csize' hm hm']
  exact hdata

/-- The second of two descriptors of one cluster is read from the cache, once the first has
been read: it is not inflated again. -/
theorem cache_transparent_mixed :
    (mixedOverlay.reached repeatInflater [(2048, 1), (1535, 2)]).log.count
      (.inflate 0 1536 true) = 1 ∧
    (mixedOverlay.step repeatInflater (mixedOverlay.reached repeatInflater [(2048, 1)])
        (1535, 2)).1 =
      (mixedOverlay.step repeatInflater .fresh (1535, 2)).1 ∧
    mixedImage.CacheSized ((mixedOverlay.reached repeatInflater [(2048, 1)]).caches 0) := by
  have hsteady : mixedOverlay.Steady := ⟨fun _ _ _ _ => rfl, fun _ _ _ _ => rfl⟩
  obtain ⟨hsame, hsized⟩ := cache_transparent repeatInflater mixedOverlay [(2048, 1)]
  refine ⟨by decide +kernel, ?_, hsized 0 mixedImage rfl⟩
  exact hsame hsteady (Unambiguous.agrees mixedOverlay_unambiguous) 1535 2

/-- A decoder that needs 600 bytes for a cluster. -/
def hungryInflater : Inflater where
  State := Unit
  init := ()
  decompress _ input room :=
    if 600 ≤ input.length then .ok ⟨(), 600, zeroes room, .streamEnd⟩
    else .ok ⟨(), 0, [], .bufError⟩
  consumed_le _ _ _ r h := by
    split at h
    · cases h
      assumption
    · cases h
      exact Nat.zero_le _
  produced_le _ _ _ r h := by
    split at h
    · cases h
      exact Nat.le_of_eq List.length_replicate
    · cases h
      exact Nat.zero_le _

/-- An image of two compressed clusters at one host offset, one of them with half the bytes. -/
def sharedOffset : DiskImage :=
  qcow2 ⟨⟨zeroes 512 ++ [0x40, 0, 0, 0, 0, 0, 4, 0] ++ [0x60, 0, 0, 0, 0, 0, 4, 0] ++ zeroes 1520,
    fun _ _ _ => none⟩, 1024, 9, [512], none, by decide, bits_ge, bits_le⟩

/-- The shorter cluster cannot be inflated, but it is read once the longer one was read. -/
theorem shared_offset_shows : sharedOffset.Steady ∧
    (sharedOffset.step hungryInflater (sharedOffset.reached hungryInflater [(512, 512)])
      (0, 512)).1 ≠ (sharedOffset.step hungryInflater .fresh (0, 512)).1 := by
  constructor
  · exact fun _ _ _ _ => rfl
  · decide +kernel

end DiskImage

end BootExtractor.Disk
