import BootExtractor.Disk.Transparency

/-!
# Looking for compressed clusters

The whole tables are searched entry by entry, while reading follows one guest offset
at a time. Both see the same entries, so an image without a compressed entry never
asks the decoder.
-/

namespace BootExtractor.Disk

open Effect Bytes

namespace Qcow2

/-- `Qcow2::has_compressed_clusters`. -/
def hasCompressedClusters (q : Qcow2) (layer : Nat) : DiskM Bool := go q.l1
where
  /-- The L1 entries left. -/
  go : List Nat → DiskM Bool
    | [] => pure false
    | l1Entry :: rest =>
      let l2Table := l1Entry &&& l1OffsetMask
      if l2Table = 0 then go rest
      else do
        let l2 ← q.host.readAt layer l2Table q.clusterSize
        if (be64s l2).any fun entry => entry &&& l2Compressed ≠ 0 then pure true else go rest

/-- The L2 entry of a cluster can be read and says that it is compressed. -/
def Compressed (q : Qcow2) (c : Nat) : Prop :=
  ∃ offset csize, q.mapping c = some (.compressed offset csize)

/-- The bytes are there, and no read of some of them ever fails. -/
def ReadableAt (q : Qcow2) (offset : Nat) : Prop :=
  offset + q.clusterSize ≤ q.host.size ∧
    ∀ time off len, offset ≤ off → off + len ≤ offset + q.clusterSize →
      q.host.fault time off len = none

/-- Every L1 entry that is not zero points at a table that can be read. -/
def TablesReadable (q : Qcow2) : Prop :=
  ∀ l1Entry ∈ q.l1, l1Entry &&& l1OffsetMask ≠ 0 → q.ReadableAt (l1Entry &&& l1OffsetMask)

section Search

variable {q : Qcow2} {layer : Nat}

private theorem width_eq (q : Qcow2) : q.width = q.fanout * 8 := by
  have hge := q.clusterBits_ge
  have hsplit : 2 ^ q.clusterBits = 2 ^ (q.clusterBits - 3) * 2 ^ 3 := by
    rw [← Nat.pow_add, Nat.sub_add_cancel (by omega)]
  rw [fanout, width, hsplit]
  exact (congrArg (· * 8) (Nat.mul_div_cancel _ (show 0 < 2 ^ 3 by decide))).symm

/-- An entry is a descriptor exactly if its flag is set. -/
private theorem meaning_compressed (q : Qcow2) (d : Nat) :
    (∃ offset csize, q.meaning d = .compressed offset csize) ↔ d &&& l2Compressed ≠ 0 := by
  rw [show (d &&& l2Compressed ≠ 0 ↔ Bits.field d 62 1 = 1) from Bits.land_bit d 62, meaning]
  constructor
  · rintro ⟨offset, csize, h⟩
    by_contra hbit
    rw [if_neg hbit] at h
    split at h
    · cases h
    · simp only at h
      split at h <;> cases h
  · intro hbit
    exact ⟨_, _, if_pos hbit⟩

/-- The clusters of an L1 entry are mapped by its table. -/
theorem table_of_entry {i j l1Entry : Nat} (hi : q.l1[i]? = some l1Entry) (hj : j < q.fanout) :
    q.table (i * q.fanout + j) = l1Entry &&& l1OffsetMask ∧ (i * q.fanout + j) % q.fanout = j := by
  have hdiv : (i * q.fanout + j) / q.fanout = i := by
    rw [Nat.add_comm, Nat.add_mul_div_right _ _ q.fanout_pos, Nat.div_eq_of_lt hj, Nat.zero_add]
  have hmod : (i * q.fanout + j) % q.fanout = j := by
    rw [Nat.add_comm, Nat.add_mul_mod_self_right, Nat.mod_eq_of_lt hj]
  refine ⟨?_, hmod⟩
  rw [table, hdiv, hi, Option.getD_some]
  exact (Bits.land_mask l1Entry 9 47).symm

/-- A cluster of a missing table is not compressed. -/
theorem not_compressed_of_table {c : Nat} (h : q.table c = 0) : ¬ q.Compressed c := by
  rintro ⟨offset, csize, hmap⟩
  rw [mapping, descriptor, if_pos h, Option.map_some] at hmap
  have hbit := (meaning_compressed q 0).mp ⟨offset, csize, Option.some.inj hmap⟩
  exact hbit (Nat.zero_and _)

/-- A cluster of a table is compressed if its entry in the table says so. -/
theorem compressed_iff {i j l1Entry : Nat} (hi : q.l1[i]? = some l1Entry) (hj : j < q.fanout)
    (hne : l1Entry &&& l1OffsetMask ≠ 0)
    (hsize : (l1Entry &&& l1OffsetMask) + q.clusterSize ≤ q.host.size) :
    q.Compressed (i * q.fanout + j) ↔
      be (slice (slice q.host.content (l1Entry &&& l1OffsetMask) q.clusterSize) (j * 8) 8) &&&
        l2Compressed ≠ 0 := by
  obtain ⟨htable, hmod⟩ := table_of_entry hi hj
  have hle : j * 8 + 8 ≤ q.clusterSize := by
    rw [clusterSize_eq, width_eq]
    omega
  have hin : (l1Entry &&& l1OffsetMask) + j * 8 + 8 ≤ q.host.content.length := by
    have : q.host.size = q.host.content.length := rfl
    omega
  have hdescriptor : q.descriptor (i * q.fanout + j) =
      some (be (slice q.host.content ((l1Entry &&& l1OffsetMask) + j * 8) 8)) := by
    rw [descriptor, htable, if_neg hne, hmod, get?, if_pos hin]
    rfl
  rw [slice_slice hle, ← meaning_compressed q, Compressed, mapping, hdescriptor, Option.map_some]
  simp only [Option.some.injEq]

/-- The entries of a whole table. -/
theorem any_be64s {table : Bytes} (hlen : table.length = q.clusterSize) :
    ((be64s table).any fun entry => entry &&& l2Compressed ≠ 0) = true ↔
      ∃ j < q.fanout, be (slice table (j * 8) 8) &&& l2Compressed ≠ 0 := by
  have hcount : table.length / 8 = q.fanout := by rw [hlen, clusterSize_eq, fanout]
  rw [be64s, hcount, List.any_map, List.any_eq_true]
  simp only [List.mem_range, Function.comp_apply, decide_eq_true_eq]

/-- Without a compressed cluster of the first entry left the other ones decide. -/
theorem exists_entry_iff {k : Nat} (hno : ∀ j < q.fanout, ¬ q.Compressed (k * q.fanout + j)) :
    (∃ i, k ≤ i ∧ i < q.l1.length ∧ ∃ j < q.fanout, q.Compressed (i * q.fanout + j)) ↔
      ∃ i, k + 1 ≤ i ∧ i < q.l1.length ∧ ∃ j < q.fanout, q.Compressed (i * q.fanout + j) := by
  constructor
  · rintro ⟨i, hk, hi, j, hj, hcompressed⟩
    rcases Nat.eq_or_lt_of_le hk with rfl | hlt
    · exact absurd hcompressed (hno j hj)
    · exact ⟨i, hlt, hi, j, hj, hcompressed⟩
  · rintro ⟨i, hk, hi, hj⟩
    exact ⟨i, Nat.le_of_succ_le hk, hi, hj⟩

/-- The search answers whether one of the entries that are left is compressed. -/
theorem go_spec (entries : List Nat) (k : Nat) (h : entries = q.l1.drop k) :
    Ensures anyFrame (fun _ => True) (hasCompressedClusters.go q layer entries) fun b =>
      b = true ↔
        ∃ i, k ≤ i ∧ i < q.l1.length ∧ ∃ j < q.fanout, q.Compressed (i * q.fanout + j) := by
  induction entries generalizing k with
  | nil =>
    have hlen : q.l1.length ≤ k := List.drop_eq_nil_iff.mp h.symm
    refine .pure ⟨fun hfalse => absurd hfalse Bool.false_ne_true, ?_⟩
    rintro ⟨i, hk, hi, -⟩
    omega
  | cons l1Entry rest ih =>
    have hget : q.l1[k]? = some l1Entry := by
      rw [← List.head?_drop, ← h]
      rfl
    have hklen : k < q.l1.length := (List.getElem?_eq_some_iff.mp hget).1
    have hrest : rest = q.l1.drop (k + 1) := by
      rw [← List.tail_drop, ← h]
      rfl
    rw [hasCompressedClusters.go]
    split
    · rename_i hzero
      refine (ih (k + 1) hrest).mono fun b hb => hb.trans (exists_entry_iff fun j hj => ?_).symm
      exact not_compressed_of_table ((table_of_entry hget hj).1.trans hzero)
    · rename_i hne
      have hread : Ensures anyFrame (fun _ => True)
          (q.host.readAt layer (l1Entry &&& l1OffsetMask) q.clusterSize) _ :=
        q.host.readAt_ensures (fun _ _ => ⟨trivial, trivial⟩) fun _ _ _ => ⟨trivial, trivial⟩
      refine hread.bind ?_
      rintro table ⟨hrange, rfl⟩
      have hpos : 0 < q.clusterSize := by
        rw [clusterSize_eq]
        exact q.width_pos
      have hsize : (l1Entry &&& l1OffsetMask) + q.clusterSize ≤ q.host.size :=
        hrange.resolve_left (Nat.ne_of_gt hpos)
      have hany := @any_be64s q _ (length_slice_of_le hsize)
      split
      · rename_i hfound
        obtain ⟨j, hj, hbit⟩ := hany.mp hfound
        refine .pure ⟨fun _ => ?_, fun _ => rfl⟩
        exact ⟨k, Nat.le_refl k, hklen, j, hj, (compressed_iff hget hj hne hsize).mpr hbit⟩
      · rename_i hnone
        refine (ih (k + 1) hrest).mono fun b hb => hb.trans
          (exists_entry_iff fun j hj hcompressed => hnone ?_).symm
        exact hany.mpr ⟨j, hj, (compressed_iff hget hj hne hsize).mp hcompressed⟩

/-- If the search returns, it answers whether any cluster of the image is compressed. -/
theorem hasCompressedClusters_spec (q : Qcow2) (layer : Nat) :
    Ensures anyFrame (fun _ => True) (q.hasCompressedClusters layer) fun b =>
      b = true ↔ ∃ i < q.l1.length, ∃ j < q.fanout, q.Compressed (i * q.fanout + j) := by
  refine (go_spec q.l1 0 rfl).mono fun b hb => ?_
  simpa only [Nat.zero_le, true_and] using hb

/-- No cluster past the L1 table is compressed. -/
theorem lt_of_compressed {c : Nat} (h : q.Compressed c) : c / q.fanout < q.l1.length := by
  by_contra hge
  refine not_compressed_of_table ?_ h
  rw [table, List.getElem?_eq_none (Nat.le_of_not_lt hge)]
  rfl

/-- A host that does not fail hands out the bytes in range. -/
theorem readAt_returns {h : Host} {offset len : Nat} {s : Session}
    (hfault : h.fault s.log.length offset len = none) (hrange : offset + len ≤ h.size) :
    ∃ t, h.readAt layer offset len s = .ok (slice h.content offset len) t := by
  have hanswer : h.answer s.log.length offset len = .ok (slice h.content offset len) := by
    rw [Host.answer, hfault]
    exact if_pos (Or.inr hrange)
  refine ⟨s.noted (.read layer offset len true), ?_⟩
  have hrun : h.readAt layer offset len s =
      report (.read layer offset len) .err (h.answer s.log.length offset len) s := rfl
  rw [hrun, hanswer]
  rfl

/-- The search returns if the tables can be read. -/
theorem go_returns (h : q.TablesReadable) (entries : List Nat) (hsub : ∀ e ∈ entries, e ∈ q.l1)
    (s : Session) : ∃ b t, hasCompressedClusters.go q layer entries s = .ok b t := by
  induction entries generalizing s with
  | nil => exact ⟨false, s, rfl⟩
  | cons l1Entry rest ih =>
    have hmore := ih fun e he => hsub e (List.mem_cons_of_mem _ he)
    rw [hasCompressedClusters.go]
    split
    · exact hmore s
    · rename_i hne
      obtain ⟨hsize, hfault⟩ := h l1Entry (hsub _ List.mem_cons_self) hne
      obtain ⟨t, ht⟩ := @readAt_returns layer q.host _ _ s
        (hfault s.log.length _ _ (Nat.le_refl _) (Nat.le_refl _)) hsize
      simp only [bind, EStateM.bind, ht]
      split
      · exact ⟨true, t, rfl⟩
      · exact hmore t

/-- Mapping returns if the tables can be read. -/
theorem mapCluster_returns (h : q.TablesReadable) (p : Nat) (s : Session) :
    ∃ m t, q.mapCluster layer p s = .ok m t := by
  rw [mapCluster]
  split
  · exact ⟨_, s, rfl⟩
  · rename_i hne
    cases hget : q.l1[(p >>> q.clusterBits) / (q.clusterSize / 8)]? with
    | none =>
      rw [hget] at hne
      exact absurd (Nat.zero_and _) hne
    | some l1Entry =>
      rw [hget, Option.getD_some] at hne
      obtain ⟨hsize, hfault⟩ := h l1Entry (List.mem_of_getElem? hget) hne
      have hindex : (p >>> q.clusterBits) % (q.clusterSize / 8) < q.fanout := by
        rw [clusterSize_eq]
        exact Nat.mod_lt _ q.fanout_pos
      have hle : (p >>> q.clusterBits) % (q.clusterSize / 8) * 8 + 8 ≤ q.clusterSize := by
        have hwidth := width_eq q
        rw [← clusterSize_eq] at hwidth
        omega
      obtain ⟨t, ht⟩ := @readAt_returns layer q.host
        ((l1Entry &&& l1OffsetMask) + (p >>> q.clusterBits) % (q.clusterSize / 8) * 8) 8 s
        (hfault _ _ _ (Nat.le_add_right _ _) (by omega)) (by omega)
      simp only [Functor.map, EStateM.map, Option.getD_some, ht]
      exact ⟨_, t, rfl⟩

private theorem mapCluster_spec (q : Qcow2) (layer p : Nat) :
    Truthful (fun _ => True) layer (q.mapCluster layer p) fun m =>
      q.mapping (p / q.width) = some m :=
  mapCluster_truthful (fun _ _ _ _ => trivial) p

/-- Mapping yields a compressed cluster exactly where there is one. -/
theorem mapCluster_compressed_iff (h : q.TablesReadable) (c : Nat) (s : Session) :
    (∃ offset csize t,
      q.mapCluster layer (c * q.clusterSize) s = .ok (.compressed offset csize) t) ↔
      q.Compressed c := by
  have hindex : c * q.clusterSize / q.width = c := by
    rw [clusterSize_eq, Nat.mul_div_cancel _ q.width_pos]
  constructor
  · rintro ⟨offset, csize, t, hrun⟩
    have hmap := ((mapCluster_spec q layer (c * q.clusterSize)) s trivial).of_ok hrun
    rw [hindex] at hmap
    exact ⟨offset, csize, hmap.2.2⟩
  · rintro ⟨offset, csize, hmap⟩
    obtain ⟨m, t, hrun⟩ := @mapCluster_returns q layer h (c * q.clusterSize) s
    have hm := ((mapCluster_spec q layer (c * q.clusterSize)) s trivial).of_ok hrun
    rw [hindex, hmap] at hm
    exact ⟨offset, csize, t, by rw [hrun, Option.some.inj hm.2.2]⟩

end Search

end Qcow2

/-- A call of the decoder for a layer. -/
def Event.Inflates (layer : Nat) : Event → Prop
  | .inflate l _ _ => l = layer
  | _ => False

/-- The log has grown by other events than calls of the decoder for a layer. -/
def Undecoded (layer : Nat) (s t : Session) : Prop :=
  ∃ events, t.log = s.log ++ events ∧ ∀ e ∈ events, ¬ e.Inflates layer

namespace Undecoded

variable {layer : Nat} {s t v : Session}

/-- Nothing was decoded in no time. -/
theorem refl (layer : Nat) (s : Session) : Undecoded layer s s :=
  ⟨[], (List.append_nil _).symm, fun _ h => absurd h List.not_mem_nil⟩

/-- Stretches in which nothing was decoded join. -/
theorem trans (h : Undecoded layer s t) (k : Undecoded layer t v) : Undecoded layer s v := by
  obtain ⟨first, hfirst, hf⟩ := h
  obtain ⟨second, hsecond, hs⟩ := k
  refine ⟨first ++ second, by rw [hsecond, hfirst, List.append_assoc], fun e he => ?_⟩
  rcases List.mem_append.mp he with h | h
  · exact hf e h
  · exact hs e h

/-- Any event but a decoding leaves the layer undecoded. -/
theorem noted {e : Event} (h : ¬ e.Inflates layer) (s : Session) :
    Undecoded layer s (s.noted e) := by
  refine ⟨[e], rfl, fun e' he => ?_⟩
  rwa [List.mem_singleton.mp he]

end Undecoded

/-- Everything but calls of the decoder for a layer. -/
def undecodedFrame (layer : Nat) : Frame Fault Session where
  step := Undecoded layer
  fails _ := Undecoded layer
  refl := .refl layer
  trans := .trans
  fails_of_step := .trans

/-- The computation never calls the decoder for a layer, and answers with an `R`. -/
abbrev NeverDecodes {α : Type} (layer : Nat) (x : DiskM α) (R : α → Prop) : Prop :=
  Ensures (undecodedFrame layer) (fun _ => True) x R

section Undecoded

variable {q : Qcow2} {z : Inflater} {layer base : Nat}

/-- A host read decodes nothing. -/
theorem Host.readAt_neverDecodes (h : Host) (base offset len : Nat) :
    NeverDecodes layer (h.readAt base offset len) fun _ => True :=
  (h.readAt_ensures (fun s _ => ⟨Undecoded.noted id s, trivial⟩)
    fun s _ _ => ⟨Undecoded.noted id s, trivial⟩).mono fun _ _ => trivial

/-- The decoder is called for the layer of the image alone. -/
theorem decompressCluster_neverDecodes (h : base ≠ layer) (offset csize : Nat) :
    NeverDecodes layer (q.decompressCluster z base offset csize) fun _ => True := by
  have hnoted (ok : Bool) (s : Session) : Undecoded layer s (s.noted (.inflate base offset ok)) :=
    .noted (show ¬ (Event.inflate base offset ok).Inflates layer from h) s
  have hinflate : NeverDecodes layer (q.inflateCluster z base offset csize) fun _ => True := by
    refine (q.host.readAt_neverDecodes base offset _).bind fun comp _ => ?_
    refine (report_ensures (fun s _ => ⟨hnoted true s, trivial⟩) fun s _ _ _ =>
      ⟨hnoted false s, trivial⟩).bind fun data _ => ?_
    have hremember : NeverDecodes layer (Qcow2.remember base offset data) fun _ => True := by
      intro s _
      rw [Qcow2.remember, yields_modify]
      exact ⟨⟨[], (List.append_nil _).symm, fun _ he => absurd he List.not_mem_nil⟩, trivial,
        trivial⟩
    exact hremember.bind fun _ _ => .pure trivial
  intro s hs
  rw [Qcow2.decompressCluster, yields_bind, yields_get]
  split
  · exact ⟨.refl _ _, hs, trivial⟩
  · exact hinflate s hs

end Undecoded

namespace DiskImage

/-- A layer without a compressed cluster never asks the decoder, wherever it is in a chain. -/
theorem readAt_neverDecodes {z : Inflater} {img : DiskImage} {layer base : Nat}
    (h : ∀ n q, base + n = layer → img.layer? n = some q → ∀ c, ¬ q.Compressed c)
    (offset len : Nat) : NeverDecodes layer (img.readAt z base offset len) fun _ => True := by
  refine readAt_ensures (fun _ s => Undecoded.refl layer s)
    (fun host n => host.readAt_neverDecodes (base + n)) ?_ offset len
  intro n q hq c offset csize hm
  exact decompressCluster_neverDecodes (fun heq => h n q heq hq c ⟨offset, csize, hm⟩) offset csize

/-- With tables that can be read, the search finds a compressed cluster exactly if mapping finds
one, and without one no read of that layer calls the decoder. -/
theorem hasCompressedClusters_exact (q : Qcow2) (layer : Nat)
    (hcover : q.l1.length * (q.clusterSize / 8) * q.clusterSize ≤ 2 ^ 64)
    (htables : q.TablesReadable) (s : Session) :
    ∃ b t, q.hasCompressedClusters layer s = .ok b t ∧
      (∀ s', b = true ↔ ∃ i < q.l1.length, ∃ j < q.clusterSize / 8,
        (i * (q.clusterSize / 8) + j) * q.clusterSize < 2 ^ 64 ∧
        ∃ offset csize t', q.mapCluster layer ((i * (q.clusterSize / 8) + j) * q.clusterSize) s' =
          .ok (.compressed offset csize) t') ∧
      (b = false → ∀ z (img : DiskImage) base n, base + n = layer → img.layer? n = some q →
        ∀ offset len s', Undecoded layer s' (after (img.readAt z base offset len) s')) := by
  obtain ⟨b, t, hrun⟩ := @Qcow2.go_returns q layer htables q.l1 (fun _ h => h) s
  have hspec := ((q.hasCompressedClusters_spec layer s trivial).of_ok hrun).2.2
  have hfanout : q.clusterSize / 8 = q.fanout := by rw [Qcow2.clusterSize_eq, Qcow2.fanout]
  rw [hfanout] at hcover ⊢
  refine ⟨b, t, hrun, fun s' => ?_, ?_⟩
  · rw [hspec]
    constructor
    · rintro ⟨i, hi, j, hj, hcompressed⟩
      refine ⟨i, hi, j, hj, ?_, (Qcow2.mapCluster_compressed_iff htables _ s').mpr hcompressed⟩
      have hindex : i * q.fanout + j < q.l1.length * q.fanout :=
        calc i * q.fanout + j < (i + 1) * q.fanout := by rw [Nat.succ_mul]; omega
          _ ≤ q.l1.length * q.fanout := Nat.mul_le_mul_right _ hi
      have hpos : 0 < q.clusterSize := by
        rw [Qcow2.clusterSize_eq]
        exact q.width_pos
      exact Nat.lt_of_lt_of_le (Nat.mul_lt_mul_of_pos_right hindex hpos) hcover
    · rintro ⟨i, hi, j, hj, -, hmap⟩
      exact ⟨i, hi, j, hj, (Qcow2.mapCluster_compressed_iff htables _ s').mp hmap⟩
  · intro hfalse z img base n hbase hlayer offset len s'
    have hno : ∀ c, ¬ q.Compressed c := by
      intro c hc
      have hb : b = true := hspec.mpr ⟨c / q.fanout, Qcow2.lt_of_compressed hc, c % q.fanout,
        Nat.mod_lt _ q.fanout_pos, by rwa [Nat.div_add_mod']⟩
      rw [hfalse] at hb
      cases hb
    have hnever : NeverDecodes layer (img.readAt z base offset len) fun _ => True := by
      refine readAt_neverDecodes (fun m q' hm hq' => ?_) offset len
      have hmn : m = n := by omega
      rw [hmn, hlayer] at hq'
      cases hq'
      exact hno
    have hyields := hnever s' trivial
    unfold after
    cases hrun' : img.readAt z base offset len s' with
    | ok data u => exact (hyields.of_ok hrun').1
    | error e u => exact (hyields.of_error hrun').1

private theorem second_size_lt : 1024 < 2 ^ 64 := by decide

/-- An image of two clusters, the second of them compressed. -/
def secondCompressed : Qcow2 :=
  ⟨⟨zeroes 520 ++ [0x40, 0, 0, 0, 0, 0, 4, 0] ++ zeroes 1520, fun _ _ _ => none⟩, 1024, 9, [512],
    none, second_size_lt, bits_ge, bits_le⟩

/-- An image whose second cluster is compressed. -/
theorem hasCompressedClusters_exact_second :
    ∃ b t, secondCompressed.hasCompressedClusters 0 .fresh = .ok b t ∧
      (∀ s', b = true ↔ ∃ i < 1, ∃ j < 64, (i * 64 + j) * 512 < 2 ^ 64 ∧ ∃ offset csize t',
        secondCompressed.mapCluster 0 ((i * 64 + j) * 512) s' =
          .ok (.compressed offset csize) t') ∧
      (b = false → ∀ z (img : DiskImage) base n, base + n = 0 →
        img.layer? n = some secondCompressed → ∀ offset len s',
          Undecoded 0 s' (after (img.readAt z base offset len) s')) := by
  have htables : secondCompressed.TablesReadable := by
    intro l1Entry hmem _
    rw [List.mem_singleton.mp hmem]
    exact ⟨by decide +kernel, fun _ _ _ _ _ => rfl⟩
  exact hasCompressedClusters_exact secondCompressed 0 (by decide) htables .fresh

end DiskImage

end BootExtractor.Disk
