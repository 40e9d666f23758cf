import BootExtractor.Disk.Guest

/-!
# Reads show the guest disk

A computation on a chain is truthful if it answers with what the chain holds or
fails after something it asked for failed, and in both cases leaves only true
clusters in the caches of its layers. Truthfulness composes along the program; the
chunk loop and then the chain are inductions over it.
-/

namespace BootExtractor.Disk

open Effect Bytes

/-- Between two states something was asked for and failed. -/
def FailedSince (s t : Session) : Prop :=
  ∃ events, t.log = s.log ++ events ∧ ∃ e ∈ events, e.failed

/-- The log of `s` is the beginning of the log of `t`, and layers above `layer` kept
their caches. -/
structure Follows (layer : Nat) (s t : Session) : Prop where
  log : s.log <+: t.log
  above : ∀ k < layer, t.caches k = s.caches k

namespace Follows

variable {layer : Nat} {s t u : Session}

/-- No time passes between a session and itself. -/
theorem refl (layer : Nat) (s : Session) : Follows layer s s :=
  ⟨List.prefix_rfl, fun _ _ => rfl⟩

/-- Stretches of a session join. -/
theorem trans (h : Follows layer s t) (k : Follows layer t u) : Follows layer s u :=
  ⟨h.log.trans k.log, fun i hi => (k.above i hi).trans (h.above i hi)⟩

private theorem of_le {layer' : Nat} (h : Follows layer' s t) (hl : layer ≤ layer') :
    Follows layer s t :=
  ⟨h.log, fun k hk => h.above k (by omega)⟩

/-- A failure in a later stretch is one of the whole. -/
theorem failedSince (h : Follows layer s t) (k : FailedSince t u) : FailedSince s u := by
  obtain ⟨first, hfirst⟩ := h.log
  obtain ⟨second, hsecond, e, he, hf⟩ := k
  exact ⟨first ++ second, by rw [hsecond, ← hfirst, List.append_assoc], e,
    List.mem_append_right _ he, hf⟩

end Follows

/-- What a layer may do: extend the log and change the caches from its own on. An
error is one that the caller sees, and comes after a failure. -/
def frame (layer : Nat) : Frame Fault Session where
  step := Follows layer
  fails f s t := Follows layer s t ∧ f.IsErr ∧ FailedSince s t
  refl := .refl layer
  trans := .trans
  fails_of_step := fun hst ⟨htu, hf, hfail⟩ => ⟨hst.trans htu, hf, hst.failedSince hfail⟩

/-- The computation answers with an `R` or fails after a failure, and keeps the invariant. -/
abbrev Truthful {α : Type} (I : Session → Prop) (layer : Nat) (x : DiskM α) (R : α → Prop) :
    Prop :=
  Ensures (frame layer) I x R

/-- An invariant that depends on the caches from a layer on, and on nothing else. -/
def Local (layer : Nat) (I : Session → Prop) : Prop :=
  ∀ s t, (∀ k, layer ≤ k → t.caches k = s.caches k) → I s → I t

/-- A computation on the layers below keeps the cache of this layer. -/
theorem Truthful.below {α : Type} {I : Session → Prop} {layer : Nat} {x : DiskM α}
    {R : α → Prop} {C : Cache → Prop} (h : Truthful I (layer + 1) x R) :
    Truthful (fun s => C (s.caches layer) ∧ I s) layer x R := by
  have hkept {s t : Session} (hst : Follows (layer + 1) s t) (hc : C (s.caches layer)) :
      C (t.caches layer) := by
    rw [hst.above layer (Nat.lt_succ_self _)]
    exact hc
  apply Ensures.widen h
  · intro s t hst
    exact ⟨hst.of_le (Nat.le_succ _), hkept hst⟩
  · rintro f s t ⟨hst, hf⟩
    exact ⟨⟨hst.of_le (Nat.le_succ _), hf⟩, hkept hst⟩

/-- A layer may record an event, and a failed one excuses an error. -/
theorem follows_noted (layer : Nat) (s : Session) (e : Event) : Follows layer s (s.noted e) :=
  ⟨List.prefix_append _ _, fun _ _ => rfl⟩

private theorem failedSince_noted (s : Session) {e : Event} (he : e.failed) :
    FailedSince s (s.noted e) :=
  ⟨[e], rfl, e, List.mem_singleton_self _, he⟩

/-- A reported result is truthful, since its failure is on record. -/
theorem report_truthful {ε α : Type} {I : Session → Prop} {layer : Nat} (hI : Local layer I)
    {event : Bool → Event} (hevent : (event false).failed) {f : ε → Fault} {result : Except ε α}
    (hf : ∀ e, result = .error e → (f e).IsErr) :
    Truthful I layer (report event f result) fun a => result = .ok a := by
  apply report_ensures
  · intro s hs
    exact ⟨follows_noted layer s _, hI s _ (fun _ _ => rfl) hs⟩
  · intro s e he hs
    exact ⟨⟨follows_noted layer s _, hf e he, failedSince_noted s hevent⟩,
      hI s _ (fun _ _ => rfl) hs⟩

/-- A host read gives the bytes that the host has there. -/
theorem Host.readAt_truthful {I : Session → Prop} {layer : Nat} (hI : Local layer I) (h : Host)
    (offset len : Nat) :
    Truthful I layer (h.readAt layer offset len) fun buf =>
      (len = 0 ∨ offset + len ≤ h.size) ∧ buf = slice h.content offset len := by
  apply Host.readAt_ensures
  · intro s hs
    exact ⟨follows_noted layer s _, hI s _ (fun _ _ => rfl) hs⟩
  · intro s e hs
    exact ⟨⟨follows_noted layer s _, trivial, failedSince_noted s rfl⟩,
      hI s _ (fun _ _ => rfl) hs⟩

/-- The bytes at `offset` of a disk, as far as it has them. -/
def Shows (byte : Nat → Option UInt8) (offset len : Nat) (buf : Bytes) : Prop :=
  buf.length = len ∧ ∀ i < len, buf[i]? = byte (offset + i)

namespace Shows

variable {byte : Nat → Option UInt8} {offset m n : Nat} {a b : Bytes}

/-- The empty buffer shows an empty stretch. -/
theorem nil (byte : Nat → Option UInt8) (offset : Nat) : Shows byte offset 0 [] :=
  ⟨rfl, fun _ hi => by omega⟩

/-- Neighbouring parts join. -/
theorem append (ha : Shows byte offset m a) (hb : Shows byte (offset + m) n b) :
    Shows byte offset (m + n) (a ++ b) := by
  refine ⟨by rw [List.length_append, ha.1, hb.1], fun i hi => ?_⟩
  by_cases him : i < m
  · rw [List.getElem?_append_left (by rw [ha.1]; exact him)]
    exact ha.2 i him
  · rw [List.getElem?_append_right (by rw [ha.1]; omega), ha.1, hb.2 (i - m) (by omega)]
    congr 1
    omega

/-- A disk shows one byte string at a place. -/
theorem unique (ha : Shows byte offset n a) (hb : Shows byte offset n b) : a = b := by
  apply List.ext_getElem?
  intro i
  by_cases hi : i < n
  · rw [ha.2 i hi, hb.2 i hi]
  · have hla := ha.1
    have hlb := hb.1
    rw [List.getElem?_eq_none (by omega), List.getElem?_eq_none (by omega)]

/-- A part of a byte string, as a disk with these bytes shows it. -/
theorem slice {data : Bytes} {start : Nat} (hlen : start + n ≤ data.length)
    (h : ∀ i < n, byte (offset + i) = data[start + i]?) :
    Shows byte offset n (slice data start n) := by
  refine ⟨length_slice_of_le hlen, fun i hi => ?_⟩
  rw [getElem?_slice, if_pos hi, h i hi]

/-- Zeroes show a stretch of zeroes. -/
theorem zeroes (h : ∀ i < n, byte (offset + i) = some 0) : Shows byte offset n (zeroes n) := by
  refine ⟨List.length_replicate, fun i hi => ?_⟩
  rw [Disk.zeroes, List.getElem?_replicate, if_pos hi, h i hi]

end Shows

namespace Inflater

variable (z : Inflater)

/-- Enough passes end the decoding loop, with a result or an error. -/
theorem run_isErr {comp : Bytes} {clusterSize fuel inPos : Nat} {st : z.State} {out : Bytes}
    {f : Fault} (hin : inPos ≤ comp.length) (hout : out.length ≤ clusterSize)
    (hfuel : (comp.length - inPos) + (clusterSize - out.length) < fuel)
    (h : z.run comp clusterSize fuel st inPos out = .error f) : f.IsErr := by
  induction fuel generalizing st inPos out with
  | zero => omega
  | succ fuel ih =>
    rw [run] at h
    split at h
    · cases hd : z.decompress st (comp.drop inPos) (clusterSize - out.length) with
      | error e =>
        simp only [hd] at h
        cases h
        trivial
      | ok r =>
        simp only [hd] at h
        have hc := z.consumed_le _ _ _ _ hd
        have hp := z.produced_le _ _ _ _ hd
        rw [List.length_drop] at hc
        split at h
        · cases h
        · rename_i hgoes
          have hmoves : 0 < r.consumed + r.produced.length := by
            rcases Nat.eq_zero_or_pos r.consumed with h0 | hpos
            · have hne : r.produced ≠ [] := fun he => hgoes (Or.inr ⟨h0, he⟩)
              have := List.length_pos_iff.mpr hne
              omega
            · omega
          refine ih (by omega) ?_ ?_ h
          · rw [List.length_append]
            omega
          · rw [List.length_append]
            omega
    · cases h

/-- A cluster that does not decode is reported as an error. -/
private theorem cluster_isErr {clusterSize offset : Nat} {comp : Bytes} {f : Fault}
    (h : z.cluster clusterSize offset comp = .error f) : f.IsErr := by
  unfold cluster at h
  split at h
  · rename_i f' hrun
    cases h
    exact z.run_isErr (Nat.zero_le _) (Nat.zero_le _)
      (by rw [List.length_nil]; omega) hrun
  · split at h
    · cases h
      trivial
    · cases h

/-- A decoded cluster is as long as a cluster. -/
theorem length_cluster {clusterSize offset : Nat} {comp out : Bytes}
    (h : z.cluster clusterSize offset comp = .ok out) : out.length = clusterSize := by
  unfold cluster at h
  split at h
  · cases h
  · split at h
    · cases h
    · cases h
      exact not_not.mp ‹_›

end Inflater

namespace Qcow2

variable {q : Qcow2} {z : Inflater} {layer : Nat} {P : Session → Prop}

/-- Every cached cluster is the inflated cluster of a descriptor of the image. -/
def CacheTrue (q : Qcow2) (z : Inflater) (cache : Cache) : Prop :=
  ∀ offset data, (offset, data) ∈ cache →
    ∃ c csize, q.mapping c = some (.compressed offset csize) ∧
      q.inflated z offset csize = some data

/-- The invariant of a layer: its own cache, and whatever the layers below keep. -/
def Inv (q : Qcow2) (z : Inflater) (layer : Nat) (P : Session → Prop) (s : Session) : Prop :=
  q.CacheTrue z (s.caches layer) ∧ P s

/-- The invariant of a layer does not speak of the layers above it. -/
theorem inv_local (hP : Local (layer + 1) P) : Local layer (q.Inv z layer P) := by
  rintro s t hst ⟨hc, hp⟩
  constructor
  · rw [hst layer (Nat.le_refl _)]
    exact hc
  · exact hP s t (fun k hk => hst k (by omega)) hp

/-- A decoded cluster may be cached. -/
theorem CacheTrue.push {cache : Cache} {offset csize c : Nat} {data : Bytes}
    (h : q.CacheTrue z cache) (hm : q.mapping c = some (.compressed offset csize))
    (hd : q.inflated z offset csize = some data) : q.CacheTrue z (push cache (offset, data)) := by
  intro o d hmem
  rcases List.mem_append.mp hmem with hold | hnew
  · apply h o d
    split at hold
    · exact List.mem_of_mem_tail hold
    · exact hold
  · obtain ⟨rfl, rfl⟩ := Prod.mk.inj (List.mem_singleton.mp hnew)
    exact ⟨c, csize, hm, hd⟩

/-- What a descriptor decodes to is as long as a cluster. -/
theorem length_inflated {offset csize : Nat} {data : Bytes}
    (h : q.inflated z offset csize = some data) : data.length = q.width := by
  unfold inflated at h
  cases hc : z.cluster q.clusterSize offset
      (slice q.host.content offset (min csize (q.host.size - offset))) with
  | error f =>
    rw [hc] at h
    cases h
  | ok out =>
    rw [hc] at h
    cases h
    rw [z.length_cluster hc, clusterSize_eq]

/-- `map_cluster` finds the mapping of the cluster at hand. -/
theorem mapCluster_truthful {I : Session → Prop} (hI : Local layer I) (p : Nat) :
    Truthful I layer (q.mapCluster layer p) fun m => q.mapping (p / q.width) = some m := by
  unfold mapCluster
  simp only [table_eq]
  have hindex : (p >>> q.clusterBits) % (q.clusterSize / 8) = p / q.width % q.fanout := by
    rw [clusterSize_eq, Nat.shiftRight_eq_div_pow]
    rfl
  rw [hindex]
  split
  · rename_i htable
    apply Ensures.pure
    rw [mapping, descriptor, if_pos htable]
    simp [meaning, Bits.field]
  · rename_i htable
    refine (q.host.readAt_truthful hI _ 8).map ?_
    rintro buf ⟨hrange, rfl⟩
    have hin : q.table (p / q.width) + p / q.width % q.fanout * 8 + 8 ≤
        q.host.content.length := by
      rcases hrange with h0 | hle
      · omega
      · exact hle
    rw [mapping, descriptor, if_neg htable, get?, if_pos hin]
    simp only [Option.map_some, decodeEntry_eq]

/-- Remembering the inflated cluster of a descriptor keeps the cache true. -/
theorem remember_truthful (hP : Local (layer + 1) P) {c offset csize : Nat} {data : Bytes}
    (hm : q.mapping c = some (.compressed offset csize))
    (hd : q.inflated z offset csize = some data) :
    Truthful (q.Inv z layer P) layer (remember layer offset data) fun _ => True := by
  rintro s ⟨hc, hp⟩
  have hself : Function.update s.caches layer (push (s.caches layer) (offset, data)) layer =
      push (s.caches layer) (offset, data) := Function.update_self _ _ _
  have hother : ∀ k ≠ layer,
      Function.update s.caches layer (push (s.caches layer) (offset, data)) k = s.caches k :=
    fun k hk => Function.update_of_ne hk _ _
  rw [remember, yields_modify]
  refine ⟨⟨List.prefix_rfl, fun k hk => hother k (by omega)⟩, ⟨?_, ?_⟩, trivial⟩
  · have hpush := hc.push hm hd
    rwa [← hself] at hpush
  · exact hP s _ (fun k hk => hother k (by omega)) hp

/-- Decoding a cluster, cached or not, gives what its descriptor decodes to. -/
private theorem inflateCluster_truthful (hP : Local (layer + 1) P) {c offset csize : Nat}
    (hm : q.mapping c = some (.compressed offset csize)) :
    Truthful (q.Inv z layer P) layer (q.inflateCluster z layer offset csize) fun data =>
      q.inflated z offset csize = some data := by
  have hI := inv_local (q := q) (z := z) hP
  refine (q.host.readAt_truthful hI offset _).bind ?_
  rintro comp ⟨_, rfl⟩
  refine (report_truthful hI rfl fun f hf => z.cluster_isErr hf).bind fun data hdata => ?_
  have hd : q.inflated z offset csize = some data := by
    rw [inflated, hdata]
    rfl
  exact (remember_truthful hP hm hd).bind fun _ _ => .pure hd

/-- `decompress_cluster`, from the cache or from the host, gives the inflated cluster. Here
ambiguous descriptors would be served from each other's cache entries. -/
theorem decompressCluster_truthful (hq : q.Unambiguous) (hP : Local (layer + 1) P)
    {c offset csize : Nat} (hm : q.mapping c = some (.compressed offset csize)) :
    Truthful (q.Inv z layer P) layer (q.decompressCluster z layer offset csize) fun data =>
      q.inflated z offset csize = some data := by
  intro s hs
  rw [decompressCluster, yields_bind, yields_get]
  cases hfind : (s.caches layer).find? (fun entry => entry.1 == offset) with
  | none => exact q.inflateCluster_truthful hP hm s hs
  | some entry =>
    obtain ⟨o, data⟩ := entry
    have ho : o = offset := by simpa using List.find?_some hfind
    subst ho
    obtain ⟨c', csize', hm', hd⟩ := hs.1 o data (List.mem_of_find?_eq_some hfind)
    obtain rfl := hq c c' o csize csize' hm hm'
    exact ⟨.refl _ _, hs, hd⟩

/-- What a backing reader must do for the layer above it. -/
structure Backs (b : Reader) (v : View) (layer : Nat) (P : Session → Prop) : Prop where
  size : b.size = v.size
  readAt : ∀ offset len, offset + len ≤ v.size →
    Truthful P layer (b.readAt offset len) (Shows v.byte offset len)

/-- A backing file, if there is one, and what it holds. -/
def BackedBy (backing : Option Reader) (below : Option View) (layer : Nat)
    (P : Session → Prop) : Prop :=
  match backing, below with
  | none, none => True
  | some b, some v => Backs b v layer P
  | _, _ => False

/-- `read_backing` shows the disk below, with zeroes past its end. -/
theorem readBacking_truthful {backing : Option Reader} {below : Option View}
    (hb : BackedBy backing below (layer + 1) P) (offset len : Nat) :
    Truthful (q.Inv z layer P) layer (readBacking backing offset len)
      (Shows (View.below below) offset len) := by
  match backing, below, hb with
  | none, none, _ => exact .pure (.zeroes fun _ _ => rfl)
  | some b, some v, hb =>
    have hpast : ∀ p, v.size ≤ p → View.below (some v) p = some 0 :=
      fun p hp => if_neg (by omega)
    simp only [readBacking, hb.size]
    split
    · rename_i hn
      have hread := hb.readAt offset (min len (v.size - offset)) (by omega)
      refine (hread.below (C := q.CacheTrue z)).map fun head hhead => ?_
      have hshown : Shows (View.below (some v)) offset (min len (v.size - offset)) head :=
        ⟨hhead.1, fun i hi => (hhead.2 i hi).trans (if_pos (by omega)).symm⟩
      have hrest : Shows (View.below (some v)) (offset + min len (v.size - offset))
          (len - min len (v.size - offset)) (zeroes (len - min len (v.size - offset))) :=
        .zeroes fun i hi => hpast _ (by omega)
      have hall := hshown.append hrest
      rwa [Nat.add_sub_cancel' (Nat.min_le_left _ _)] at hall
    · rename_i hn
      apply Ensures.pure
      have h0 : len - min len (v.size - offset) = len := by omega
      rw [h0]
      exact .zeroes fun i hi => hpast _ (by omega)

section Reading

variable {backing : Option Reader} {below : Option View}

/-- Inside one cluster the position only moves the offset into it. -/
theorem within_add {pos chunk i : Nat} (hchunk : chunk ≤ q.width - pos % q.width)
    (hi : i < chunk) :
    (pos + i) / q.width = pos / q.width ∧ (pos + i) % q.width = pos % q.width + i := by
  have hw := q.width_pos
  have hlt := Nat.mod_lt pos hw
  have hsplit := Nat.div_add_mod pos q.width
  have hpos : pos + i = pos % q.width + i + q.width * (pos / q.width) := by omega
  constructor
  · rw [hpos, Nat.add_mul_div_left _ _ hw, Nat.div_eq_of_lt (by omega), Nat.zero_add]
  · rw [hpos, Nat.add_mul_mod_self_left, Nat.mod_eq_of_lt (by omega)]

/-- One pass of the loop: whatever the mapping of the cluster, its guest bytes. -/
theorem readChunk_truthful (hq : q.Unambiguous) (hP : Local (layer + 1) P)
    (hb : BackedBy backing below (layer + 1) P) {pos chunk : Nat}
    (hchunk : chunk ≤ q.width - pos % q.width) :
    Truthful (q.Inv z layer P) layer
      (q.readChunk z layer backing pos (pos % q.width) chunk)
      (Shows (q.byte z below) pos chunk) := by
  have hI := inv_local (q := q) (z := z) hP
  have hstart : (pos - pos % q.width) / q.width = pos / q.width := by
    rw [Nat.div_eq_sub_mod_div (m := pos)]
  have hbyte {m : Mapping} (hm : q.mapping (pos / q.width) = some m) (i : Nat) (hi : i < chunk) :
      q.mapping ((pos + i) / q.width) = some m ∧ (pos + i) % q.width = pos % q.width + i := by
    obtain ⟨hdiv, hmod⟩ := within_add hchunk hi
    exact ⟨by rw [hdiv, hm], hmod⟩
  refine (q.mapCluster_truthful hI _).bind fun m hm => ?_
  rw [hstart] at hm
  cases m with
  | data host =>
    refine (q.host.readAt_truthful hI _ chunk).mono ?_
    rintro buf ⟨hrange, rfl⟩
    rcases Nat.eq_zero_or_pos chunk with rfl | hpos
    · exact .nil _ _
    · have hle : host + pos % q.width + chunk ≤ q.host.content.length :=
        hrange.resolve_left (by omega)
      refine .slice hle fun i hi => ?_
      obtain ⟨hmap, hmod⟩ := hbyte hm i hi
      simp only [byte, hmap, hmod, Nat.add_assoc]
  | zero =>
    refine .pure (.zeroes fun i hi => ?_)
    simp only [byte, (hbyte hm i hi).1]
  | unallocated =>
    refine (readBacking_truthful hb pos chunk).mono ?_
    rintro buf ⟨hlen, hshow⟩
    refine ⟨hlen, fun i hi => (hshow i hi).trans ?_⟩
    simp only [byte, (hbyte hm i hi).1]
  | compressed offset csize =>
    refine (q.decompressCluster_truthful hq hP hm).bind fun data hdata => ?_
    have hlen := length_inflated hdata
    have hlt := Nat.mod_lt pos q.width_pos
    rw [sub, if_pos (by omega)]
    refine .pure (.slice (by omega) fun i hi => ?_)
    obtain ⟨hmap, hmod⟩ := hbyte hm i hi
    simp only [byte, hmap, hmod, hdata, Option.bind_some]

/-- The loop, by induction on the passes left. -/
theorem readLoop_truthful (hq : q.Unambiguous) (hP : Local (layer + 1) P)
    (hb : BackedBy backing below (layer + 1) P) {fuel pos len : Nat} (hfuel : len ≤ fuel) :
    Truthful (q.Inv z layer P) layer (q.readLoop z layer backing fuel pos len)
      (Shows (q.byte z below) pos len) := by
  induction fuel generalizing pos len with
  | zero =>
    obtain rfl : len = 0 := by omega
    exact .pure (.nil _ _)
  | succ fuel ih =>
    cases len with
    | zero => exact .pure (.nil _ _)
    | succ len =>
      have hlt := Nat.mod_lt pos q.width_pos
      rw [readLoop, clusterSize_eq]
      have hle : min (q.width - pos % q.width) (len + 1) ≤ q.width - pos % q.width :=
        Nat.min_le_left _ _
      refine (readChunk_truthful hq hP hb hle).bind fun head hhead => ?_
      refine (ih (by omega)).bind fun tail htail => .pure ?_
      have hall := hhead.append htail
      rwa [Nat.add_sub_cancel' (Nat.min_le_right _ _)] at hall

/-- A request inside the disk is answered truthfully. -/
theorem readAt_truthful (hq : q.Unambiguous) (hP : Local (layer + 1) P)
    (hb : BackedBy backing below (layer + 1) P) {offset len : Nat}
    (hlen : offset + len ≤ q.virtualSize) :
    Truthful (q.Inv z layer P) layer (q.readAt z layer backing offset len)
      (Shows (q.byte z below) offset len) := by
  rw [readAt, checkBounds_eq q.virtualSize_lt, if_pos hlen]
  exact q.readLoop_truthful hq hP hb (Nat.le_refl _)

/-- A request past the end is refused and changes nothing. -/
theorem readAt_refuses {offset len : Nat} (hlen : q.virtualSize < offset + len) (s : Session) :
    q.readAt z layer backing offset len s =
      .error (.err (.outOfBounds offset len q.virtualSize)) s := by
  rw [readAt, checkBounds_eq q.virtualSize_lt, if_neg (by omega)]
  rfl

end Reading

end Qcow2

namespace DiskImage

variable {z : Inflater}

/-- The caches of all layers of a chain are true. -/
def CachesTrue (z : Inflater) : DiskImage → Nat → Session → Prop
  | raw _, _ => fun _ => True
  | qcow2 q, layer => q.Inv z layer fun _ => True
  | overlay q backing, layer => q.Inv z layer (backing.CachesTrue z (layer + 1))

/-- The truth of the caches below a layer does not depend on the layers above. -/
theorem cachesTrue_local (img : DiskImage) (layer : Nat) :
    Local layer (img.CachesTrue z layer) := by
  induction img generalizing layer with
  | raw h => exact fun _ _ _ _ => trivial
  | qcow2 q => exact Qcow2.inv_local fun _ _ _ _ => trivial
  | overlay q backing ih => exact Qcow2.inv_local (ih (layer + 1))

/-- Empty caches are true. -/
theorem cachesTrue_fresh (img : DiskImage) (layer : Nat) : img.CachesTrue z layer .fresh := by
  induction img generalizing layer with
  | raw h => trivial
  | qcow2 q => exact ⟨fun _ _ h => (List.not_mem_nil h).elim, trivial⟩
  | overlay q backing ih => exact ⟨fun _ _ h => (List.not_mem_nil h).elim, ih (layer + 1)⟩

/-- A request inside a chain shows its guest disk, by induction on the chain. -/
theorem readAt_truthful {img : DiskImage} (hu : img.Unambiguous) {layer offset len : Nat}
    (hlen : offset + len ≤ img.size) :
    Truthful (img.CachesTrue z layer) layer (img.readAt z layer offset len)
      (Shows (img.view z).byte offset len) := by
  induction img generalizing layer offset len with
  | raw h =>
    refine (h.readAt_truthful (cachesTrue_local (raw h) layer) offset len).mono ?_
    rintro buf ⟨_, rfl⟩
    exact .slice hlen fun i hi => rfl
  | qcow2 q =>
    have hb : Qcow2.BackedBy none none (layer + 1) fun _ => True := trivial
    exact Qcow2.readAt_truthful hu (fun _ _ _ _ => trivial) hb hlen
  | overlay q backing ih =>
    have hread : Qcow2.Backs ⟨backing.size, backing.readAt z (layer + 1)⟩ (backing.view z)
        (layer + 1) (backing.CachesTrue z (layer + 1)) :=
      ⟨(view_size z backing).symm, fun _ _ hle => ih hu.2 (by rwa [view_size] at hle)⟩
    have hb : Qcow2.BackedBy (some ⟨backing.size, backing.readAt z (layer + 1)⟩)
      (some (backing.view z)) (layer + 1) (backing.CachesTrue z (layer + 1)) := hread
    exact Qcow2.readAt_truthful hu.1 (cachesTrue_local backing (layer + 1)) hb hlen

/-- A request past the end gives an error, or nothing when nothing was asked of a raw file. -/
theorem readAt_past {img : DiskImage} {layer offset len : Nat} (hlen : img.size < offset + len)
    {s : Session} (hs : img.CachesTrue z layer s) :
    Yields (img.readAt z layer offset len)
      (fun buf t => img.CachesTrue z layer t ∧ len = 0 ∧ buf = [])
      (fun f t => img.CachesTrue z layer t ∧ f.IsErr) s := by
  cases img with
  | raw h =>
    refine (h.readAt_truthful (cachesTrue_local (raw h) layer) offset len s hs).mono ?_ ?_
    · rintro buf t ⟨_, ht, hrange, rfl⟩
      have h0 : len = 0 := hrange.resolve_right (Nat.not_le.mpr hlen)
      subst h0
      exact ⟨ht, rfl, rfl⟩
    · rintro f t ⟨⟨_, hf, _⟩, ht⟩
      exact ⟨ht, hf⟩
  | qcow2 q =>
    rw [readAt, Yields, Qcow2.readAt_refuses hlen]
    exact ⟨hs, trivial⟩
  | overlay q backing =>
    rw [readAt, Yields, Qcow2.readAt_refuses hlen]
    exact ⟨hs, trivial⟩

/-- What every request on a chain with true caches comes to. -/
theorem readAt_spec {img : DiskImage} (hu : img.Unambiguous) {layer : Nat} {s : Session}
    (hs : img.CachesTrue z layer s) (offset len : Nat) :
    Yields (img.readAt z layer offset len)
      (fun buf t => img.CachesTrue z layer t ∧ Shows (img.view z).byte offset len buf)
      (fun f t => img.CachesTrue z layer t ∧ f.IsErr ∧
        (img.size < offset + len ∨ FailedSince s t)) s := by
  rcases Nat.lt_or_ge img.size (offset + len) with hlt | hle
  · refine (readAt_past hlt hs).mono ?_ ?_
    · rintro buf t ⟨ht, rfl, rfl⟩
      exact ⟨ht, .nil _ _⟩
    · rintro f t ⟨ht, hf⟩
      exact ⟨ht, hf, Or.inl hlt⟩
  · refine (readAt_truthful hu hle s hs).mono ?_ ?_
    · rintro buf t ⟨_, ht, hshow⟩
      exact ⟨ht, hshow⟩
    · rintro f t ⟨⟨_, hf, hfail⟩, ht⟩
      exact ⟨ht, hf, Or.inr hfail⟩

/-- A request, by offset and length, as a step of a run on the top layer. -/
def step (z : Inflater) (img : DiskImage) (s : Session) (r : Nat × Nat) :
    Except Fault Bytes × Session :=
  (answer (img.readAt z 0 r.1 r.2) s, after (img.readAt z 0 r.1 r.2) s)

/-- The session after a history of requests on a chain that was just opened. -/
def reached (z : Inflater) (img : DiskImage) (history : List (Nat × Nat)) : Session :=
  Runs.final (img.step z) .fresh history

/-- No request makes a cache untrue. -/
theorem step_cachesTrue {img : DiskImage} (hu : img.Unambiguous) {s : Session}
    (hs : img.CachesTrue z 0 s) (r : Nat × Nat) : img.CachesTrue z 0 (img.step z s r).2 := by
  have h := yields_iff.mp (readAt_spec hu hs r.1 r.2)
  simp only [step]
  split at h
  · exact h.1
  · exact h.1

/-- The caches are true after any reads. -/
theorem reached_cachesTrue {img : DiskImage} (hu : img.Unambiguous)
    (history : List (Nat × Nat)) : img.CachesTrue z 0 (img.reached z history) := by
  apply Runs.final_of_step (I := img.CachesTrue z 0) (G := fun _ _ => True)
  · intro s r hs _
    exact step_cachesTrue hu hs r
  · exact cachesTrue_fresh img 0
  · exact fun _ _ => trivial

/-- A read that succeeds shows the guest. -/
theorem shows_of_ok {img : DiskImage} (hu : img.Unambiguous) {s : Session}
    (hs : img.CachesTrue z 0 s) {offset len : Nat} {buf : Bytes}
    (h : (img.step z s (offset, len)).1 = .ok buf) : Shows (img.view z).byte offset len buf := by
  have hspec := yields_iff.mp (readAt_spec hu hs offset len)
  simp only [step] at h
  rw [h] at hspec
  exact hspec.2

/-- After any history of requests, a chain reads as the pointwise overlay of its layers,
and an error has a reason. Reading two neighbouring parts one after the other gives what
reading them at once gives. -/
theorem reads_show_guest (z : Inflater) (img : DiskImage) (hu : img.Unambiguous)
    (history : List (Nat × Nat)) (offset len : Nat) :
    (∀ buf, (img.step z (img.reached z history) (offset, len)).1 = .ok buf →
      buf.length = len ∧ ∀ i < len, buf[i]? = (img.view z).byte (offset + i)) ∧
    (∀ f, (img.step z (img.reached z history) (offset, len)).1 = .error f →
      f.IsErr ∧ (img.size < offset + len ∨
        FailedSince (img.reached z history)
          (img.step z (img.reached z history) (offset, len)).2)) ∧
    ∀ more first second both history',
      (img.step z (img.reached z history) (offset, len)).1 = .ok first →
      (img.step z (img.reached z (history ++ [(offset, len)])) (offset + len, more)).1 =
        .ok second →
      (img.step z (img.reached z history') (offset, len + more)).1 = .ok both →
      first ++ second = both := by
  have hs := reached_cachesTrue (z := z) hu history
  refine ⟨fun buf hbuf => shows_of_ok hu hs hbuf, ?_, ?_⟩
  · intro f hf
    have hspec := yields_iff.mp (readAt_spec hu hs offset len)
    simp only [step] at hf
    rw [hf] at hspec
    exact hspec.2
  · intro more first second both history' hfirst hsecond hboth
    have h₁ := shows_of_ok hu hs hfirst
    have h₂ := shows_of_ok hu (reached_cachesTrue hu _) hsecond
    exact (h₁.append h₂).unique (shows_of_ok hu (reached_cachesTrue hu _) hboth)

/-- A decoder that repeats the first byte it is given. -/
def repeatInflater : Inflater where
  State := Unit
  init := ()
  decompress _ input room :=
    if input = [] then .ok ⟨(), 0, [], .bufError⟩
    else .ok ⟨(), 1, List.replicate room (input.headD 0), .streamEnd⟩
  consumed_le _ input _ r h := by
    split at h
    · cases h
      exact Nat.zero_le _
    · cases h
      exact List.length_pos_iff.mpr ‹_›
  produced_le _ _ _ r h := by
    split at h
    · cases h
      exact Nat.zero_le _
    · cases h
      exact Nat.le_of_eq List.length_replicate

/-- The smallest cluster size is allowed. -/
theorem bits_ge : 9 ≤ 9 := Nat.le_refl 9

/-- And not too large. -/
theorem bits_le : 9 ≤ 21 := by decide

/-- The entries of an L2 table: one that is open, a cluster of the file, one of zeroes, and two
that are the same compressed one. -/
def mixedEntries : List Nat := [0, 2 ^ 63 + 1024, 2 ^ 63 + 1, 2 ^ 62 + 1536, 2 ^ 62 + 1536]

/-- A file with that table: the header, the name of the backing file and the L1 table, the L2
table, a cluster of sevens, and three bytes that inflate to a cluster. -/
def mixedFile : Bytes :=
  List.flatten [magic, toBe 4 2, toBe 8 72, toBe 4 8, toBe 4 9, toBe 8 2560, toBe 4 0, toBe 4 1,
    toBe 8 80, zeroes 24, [0x62, 0x61, 0x73, 0x65, 0x2e, 0x69, 0x6d, 0x67], toBe 8 (2 ^ 63 + 512),
    zeroes 424, mixedEntries.flatMap (toBe 8), zeroes 472, List.replicate 512 7, [9, 9, 9]]

/-- The image in that file. -/
def mixedImage : Qcow2 :=
  ⟨⟨mixedFile, fun _ _ _ => none⟩, 2560, 9, [2 ^ 63 + 512], some "base.img".toList, by decide,
    bits_ge, bits_le⟩

/-- A backing file that ends in the open cluster. -/
def mixedBase : Host := ⟨[5, 6], fun _ _ _ => none⟩

/-- The image over its backing file. -/
def mixedOverlay : DiskImage := overlay mixedImage (raw mixedBase)

/-- The image has all kinds of clusters, and the compressed ones are the same. -/
theorem mixedImage_mapping (c : Nat) : mixedImage.mapping c ∈
    [some .unallocated, some (.data 1024), some .zero, some (.compressed 1536 512)] := by
  refine mixedImage.mapping_of_one_table (P := (· ∈ _)) (Nat.le_refl 1) ?_ (by decide) c
  have hall : ∀ c < 64, mixedImage.mapping c ∈
      [some .unallocated, some (.data 1024), some .zero, some (.compressed 1536 512)] := by
    decide +kernel
  exact hall

/-- That image's compressed clusters are the same. -/
theorem mixedImage_unambiguous : mixedImage.Unambiguous := by
  have hlength {c offset csize : Nat}
      (h : mixedImage.mapping c = some (.compressed offset csize)) : csize = 512 := by
    have hmem := mixedImage_mapping c
    rw [h] at hmem
    simp only [List.mem_cons, Option.some.injEq, reduceCtorEq, Mapping.compressed.injEq,
      List.not_mem_nil, or_false, false_or] at hmem
    exact hmem.2
  exact fun c c' offset csize csize' h h' => (hlength h).trans (hlength h').symm

/-- So are those of the overlay. -/
theorem mixedOverlay_unambiguous : mixedOverlay.Unambiguous := ⟨mixedImage_unambiguous, trivial⟩

/-- After a read over the end of the backing file and one of a compressed cluster, a read of a
plain cluster, a zero one and the other compressed one, which is in the cache. -/
theorem reads_show_guest_mixed :
    (mixedOverlay.view repeatInflater).byte (1023 + 0) = some 7 ∧
    (mixedOverlay.view repeatInflater).byte (1023 + 1) = some 0 ∧
    (mixedOverlay.view repeatInflater).byte (1023 + 513) = some 9 := by
  have hread : (mixedOverlay.step repeatInflater
      (mixedOverlay.reached repeatInflater [(0, 3), (2048, 1)]) (1023, 514)).1 =
        .ok ([7] ++ zeroes 512 ++ [9]) := by
    decide +kernel
  have hbyte := ((reads_show_guest repeatInflater mixedOverlay mixedOverlay_unambiguous
    [(0, 3), (2048, 1)] 1023 514).1 _ hread).2
  refine ⟨(hbyte 0 (by decide)).symm.trans ?_, (hbyte 1 (by decide)).symm.trans ?_,
    (hbyte 513 (by decide)).symm.trans ?_⟩
  all_goals decide +kernel

end DiskImage

end BootExtractor.Disk
