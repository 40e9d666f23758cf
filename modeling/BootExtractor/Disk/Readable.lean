import BootExtractor.Disk.Overlay

/-!
# When a read succeeds

Over hosts that never fail, a request on a chain of images is answered exactly if every
byte that it asks for exists: its descriptor can be read, its cluster is in the file or
inflates, and what a layer leaves open exists below. No history changes that.
-/

namespace BootExtractor.Disk

open Effect Bytes

/-- A host that never fails by itself. -/
def Host.Honest (h : Host) : Prop := ∀ time offset len, h.fault time offset len = none

/-- Every host of a chain is honest. -/
def DiskImage.Honest : DiskImage → Prop
  | .raw h => h.Honest
  | .qcow2 q => q.host.Honest
  | .overlay q backing => q.host.Honest ∧ backing.Honest

/-- The bytes of a part of a disk exist. -/
def Whole (byte : Nat → Option UInt8) (offset len : Nat) : Prop :=
  ∀ i < len, (byte (offset + i)).isSome

namespace Whole

variable {byte : Nat → Option UInt8} {offset m n : Nat}

/-- The front of a whole stretch is whole. -/
theorem left (h : Whole byte offset (m + n)) : Whole byte offset m :=
  fun i hi => h i (Nat.lt_of_lt_of_le hi (Nat.le_add_right m n))

/-- The back of a whole stretch is whole. -/
theorem right (h : Whole byte offset (m + n)) : Whole byte (offset + m) n := by
  intro i hi
  rw [Nat.add_assoc]
  exact h (m + i) (Nat.add_lt_add_left hi m)

/-- What is shown exists. -/
theorem of_shows {buf : Bytes} (h : Shows byte offset n buf) : Whole byte offset n := by
  intro i hi
  rw [← h.2 i hi, List.getElem?_eq_getElem (h.1.symm ▸ hi)]
  rfl

end Whole

/-- An honest host answers every read in range. -/
theorem Host.readAt_returns {I : Session → Prop} {h : Host} (hh : h.Honest)
    {layer offset len : Nat} (hrange : len = 0 ∨ offset + len ≤ h.size) :
    Returns I (h.readAt layer offset len) := by
  intro s _
  have hanswer : h.answer s.log.length offset len = .ok (slice h.content offset len) := by
    rw [Host.answer, hh]
    exact if_pos hrange
  have hrun : h.readAt layer offset len s =
      report (.read layer offset len) .err (h.answer s.log.length offset len) s := rfl
  rw [hrun, hanswer]
  exact ⟨_, _, rfl⟩

namespace Qcow2

variable {q : Qcow2} {z : Inflater} {layer : Nat} {P I : Session → Prop}

section Clusters

/-- A cluster whose descriptor exists is mapped. -/
theorem mapCluster_answers (hh : q.host.Honest) {p : Nat}
    (hm : (q.mapping (p / q.width)).isSome) : Returns I (q.mapCluster layer p) := by
  unfold mapCluster
  simp only [table_eq]
  have hindex : (p >>> q.clusterBits) % (q.clusterSize / 8) = p / q.width % q.fanout := by
    rw [clusterSize_eq, Nat.shiftRight_eq_div_pow]
    rfl
  rw [hindex]
  split
  · exact .pure _
  · rename_i htable
    refine (Host.readAt_returns hh (Or.inr ?_)).map _
    rw [mapping, descriptor, if_neg htable, Option.isSome_map, Option.isSome_map, get?] at hm
    split at hm
    · rename_i hin
      exact hin
    · cases hm

/-- A cluster that decodes is handed out. -/
private theorem inflateCluster_answers (hh : q.host.Honest) (hP : Local (layer + 1) P)
    {offset csize : Nat} {data : Bytes} (hd : q.inflated z offset csize = some data) :
    Returns (q.Inv z layer P) (q.inflateCluster z layer offset csize) := by
  have hI := inv_local (q := q) (z := z) hP
  have hrange : min csize (q.host.size - offset) = 0 ∨
      offset + min csize (q.host.size - offset) ≤ q.host.size := by omega
  refine (Host.readAt_returns hh hrange).bind (q.host.readAt_truthful hI offset _) ?_
  rintro comp ⟨_, rfl⟩
  have hcluster : z.cluster q.clusterSize offset
      (slice q.host.content offset (min csize (q.host.size - offset))) = .ok data := by
    unfold inflated at hd
    cases hc : z.cluster q.clusterSize offset
        (slice q.host.content offset (min csize (q.host.size - offset))) with
    | error f =>
      rw [hc] at hd
      cases hd
    | ok out =>
      rw [hc] at hd
      cases hd
      rfl
  rw [hcluster]
  exact fun s _ => ⟨_, _, rfl⟩

/-- A compressed cluster that inflates is read, from the cache or from the host. -/
theorem decompressCluster_answers (hh : q.host.Honest) (hP : Local (layer + 1) P)
    {offset csize : Nat} {data : Bytes} (hd : q.inflated z offset csize = some data) :
    Returns (q.Inv z layer P) (q.decompressCluster z layer offset csize) := by
  intro s hs
  have hget : (EStateM.get : DiskM Session) s = .ok s s := rfl
  simp only [decompressCluster, bind, EStateM.bind, get, getThe, MonadStateOf.get, hget]
  cases (s.caches layer).find? (fun entry => entry.1 == offset) with
  | none => exact inflateCluster_answers hh hP hd s hs
  | some entry => exact ⟨_, _, rfl⟩

/-- What a backing reader must answer for the layer above it. -/
def Answers (b : Reader) (v : View) (P : Session → Prop) : Prop :=
  ∀ offset len, offset + len ≤ v.size → Whole v.byte offset len → Returns P (b.readAt offset len)

/-- A backing file, if there is one, answers where it has bytes. -/
def AnsweredBy (backing : Option Reader) (below : Option View) (P : Session → Prop) : Prop :=
  match backing, below with
  | none, none => True
  | some b, some v => b.size = v.size ∧ Answers b v P
  | _, _ => False

/-- A whole stretch below is read. -/
private theorem readBacking_answers {backing : Option Reader} {below : Option View}
    (hb : AnsweredBy backing below P) {offset len : Nat}
    (he : Whole (View.below below) offset len) :
    Returns (q.Inv z layer P) (readBacking backing offset len) := by
  match backing, below, hb with
  | none, none, _ => exact .pure _
  | some b, some v, ⟨hsize, hanswers⟩ =>
    simp only [readBacking, hsize]
    split
    · have hin : offset + min len (v.size - offset) ≤ v.size := by omega
      have hthere : Whole v.byte offset (min len (v.size - offset)) := by
        intro i hi
        have hbyte := he i (by omega)
        rw [View.below, if_pos (by omega)] at hbyte
        exact hbyte
      exact ((hanswers _ _ hin hthere).weaken fun s hs => hs.2).map _
    · exact .pure _

end Clusters

section Reading

variable {backing : Option Reader} {below : Option View}

/-- One pass of the loop answers if its bytes exist. The last byte of the pass says that
all of a plain cluster that is needed is in the file. -/
theorem readChunk_answers (hq : q.Unambiguous) (hh : q.host.Honest) (hP : Local (layer + 1) P)
    (hb : AnsweredBy backing below P) {pos chunk : Nat}
    (hpos : 0 < chunk) (hchunk : chunk ≤ q.width - pos % q.width)
    (he : Whole (q.byte z below) pos chunk) :
    Returns (q.Inv z layer P) (q.readChunk z layer backing pos (pos % q.width) chunk) := by
  have hI := inv_local (q := q) (z := z) hP
  have hstart : (pos - pos % q.width) / q.width = pos / q.width := by
    rw [Nat.div_eq_sub_mod_div (m := pos)]
  have hmapped : (q.mapping (pos / q.width)).isSome := by
    have hfirst := he 0 hpos
    rw [Nat.add_zero, byte] at hfirst
    cases hm : q.mapping (pos / q.width) with
    | none =>
      rw [hm] at hfirst
      cases hfirst
    | some m => rfl
  have hbyte {m : Mapping} (hm : q.mapping (pos / q.width) = some m) (i : Nat) (hi : i < chunk) :
      q.mapping ((pos + i) / q.width) = some m ∧ (pos + i) % q.width = pos % q.width + i := by
    obtain ⟨hdiv, hmod⟩ := q.within_add hchunk hi
    exact ⟨by rw [hdiv, hm], hmod⟩
  refine (mapCluster_answers hh (by rwa [hstart])).bind (q.mapCluster_truthful hI _) fun m hm => ?_
  rw [hstart] at hm
  cases m with
  | data host =>
    refine Host.readAt_returns hh (Or.inr ?_)
    obtain ⟨hmap, hmod⟩ := hbyte hm (chunk - 1) (by omega)
    have hlast := he (chunk - 1) (by omega)
    simp only [byte, hmap, hmod] at hlast
    obtain ⟨b, hlast⟩ := Option.isSome_iff_exists.mp hlast
    obtain ⟨hlt, _⟩ := List.getElem?_eq_some_iff.mp hlast
    rw [Host.size]
    omega
  | zero => exact .pure _
  | unallocated =>
    refine readBacking_answers hb fun i hi => ?_
    have hthere := he i hi
    simp only [byte, (hbyte hm i hi).1] at hthere
    exact hthere
  | compressed offset csize =>
    obtain ⟨hmap, _⟩ := hbyte hm 0 hpos
    have hthere := he 0 hpos
    simp only [byte, hmap] at hthere
    cases hd : q.inflated z offset csize with
    | none =>
      rw [hd] at hthere
      cases hthere
    | some data =>
      refine (decompressCluster_answers hh hP hd).bind
        (q.decompressCluster_truthful hq hP hm) fun data' hdata' => ?_
      have hlen := length_inflated hdata'
      have hlt := Nat.mod_lt pos q.width_pos
      rw [sub, if_pos (by omega)]
      exact .pure _

/-- The loop, by induction on the passes left. -/
theorem readLoop_answers (hq : q.Unambiguous) (hh : q.host.Honest) (hP : Local (layer + 1) P)
    (hb : AnsweredBy backing below P) (ht : BackedBy backing below (layer + 1) P)
    {fuel pos len : Nat} (hfuel : len ≤ fuel) (he : Whole (q.byte z below) pos len) :
    Returns (q.Inv z layer P) (q.readLoop z layer backing fuel pos len) := by
  induction fuel generalizing pos len with
  | zero =>
    obtain rfl : len = 0 := by omega
    exact .pure _
  | succ fuel ih =>
    cases len with
    | zero => exact .pure _
    | succ len =>
      have hlt := Nat.mod_lt pos q.width_pos
      rw [readLoop, clusterSize_eq]
      have hle : min (q.width - pos % q.width) (len + 1) ≤ q.width - pos % q.width :=
        Nat.min_le_left _ _
      rw [← Nat.add_sub_cancel' (Nat.min_le_right (q.width - pos % q.width) (len + 1))] at he
      refine (readChunk_answers hq hh hP hb (by omega) hle he.left).bind
        (q.readChunk_truthful hq hP ht hle) fun head _ => ?_
      exact (ih (by omega) he.right).bind (q.readLoop_truthful hq hP ht (by omega))
        fun tail _ => .pure _

/-- A layer answers every whole read inside of it. -/
theorem readAt_answers (hq : q.Unambiguous) (hh : q.host.Honest) (hP : Local (layer + 1) P)
    (hb : AnsweredBy backing below P) (ht : BackedBy backing below (layer + 1) P)
    {offset len : Nat} (hlen : offset + len ≤ q.virtualSize)
    (he : Whole (q.byte z below) offset len) :
    Returns (q.Inv z layer P) (q.readAt z layer backing offset len) := by
  rw [readAt, checkBounds_eq q.virtualSize_lt, if_pos hlen]
  exact readLoop_answers hq hh hP hb ht (Nat.le_refl _) he

end Reading

end Qcow2

namespace DiskImage

variable {z : Inflater}

/-- A request is answered if its bytes exist, by induction on the chain. -/
theorem readAt_answers {img : DiskImage} (hu : img.Unambiguous) (hh : img.Honest)
    {layer offset len : Nat} (hlen : offset + len ≤ img.size)
    (he : Whole (img.view z).byte offset len) :
    Returns (img.CachesTrue z layer) (img.readAt z layer offset len) := by
  induction img generalizing layer offset len with
  | raw h => exact Host.readAt_returns hh (Or.inr hlen)
  | qcow2 q =>
    have hb : Qcow2.AnsweredBy none none fun _ => True := trivial
    have ht : Qcow2.BackedBy none none (layer + 1) fun _ => True := trivial
    exact Qcow2.readAt_answers hu hh (fun _ _ _ _ => trivial) hb ht hlen he
  | overlay q backing ih =>
    have hsize : backing.size = (backing.view z).size := (view_size z backing).symm
    have hb : Qcow2.AnsweredBy (some ⟨backing.size, backing.readAt z (layer + 1)⟩)
        (some (backing.view z)) (backing.CachesTrue z (layer + 1)) :=
      ⟨hsize, fun _ _ hle hthere => ih hu.2 hh.2 (by rwa [view_size] at hle) hthere⟩
    have hread : Qcow2.Backs ⟨backing.size, backing.readAt z (layer + 1)⟩ (backing.view z)
        (layer + 1) (backing.CachesTrue z (layer + 1)) :=
      ⟨hsize, fun _ _ hle => readAt_truthful hu.2 (by rwa [view_size] at hle)⟩
    have ht : Qcow2.BackedBy (some ⟨backing.size, backing.readAt z (layer + 1)⟩)
      (some (backing.view z)) (layer + 1) (backing.CachesTrue z (layer + 1)) := hread
    exact Qcow2.readAt_answers hu.1 hh.1 (cachesTrue_local backing (layer + 1)) hb ht hlen he

/-- What is asked past the end is not answered. -/
theorem size_of_ok {img : DiskImage} {s : Session} (hs : img.CachesTrue z 0 s)
    {offset len : Nat} (hpos : 0 < len) {buf : Bytes}
    (h : (img.step z s (offset, len)).1 = .ok buf) : offset + len ≤ img.size := by
  rcases Nat.lt_or_ge img.size (offset + len) with hlt | hle
  · obtain ⟨_, hzero, _⟩ := (readAt_past hlt hs).of_ok (eq_ok_of_answer h)
    omega
  · exact hle

/-- Over honest hosts and after any history, a request is answered exactly if it lies in the
disk and all of its bytes exist. -/
theorem reads_answered_iff (z : Inflater) (img : DiskImage) (hu : img.Unambiguous)
    (hh : img.Honest) (history : List (Nat × Nat)) (offset len : Nat) (hpos : 0 < len) :
    (∃ buf, (img.step z (img.reached z history) (offset, len)).1 = .ok buf) ↔
      offset + len ≤ img.size ∧ ∀ i < len, ((img.view z).byte (offset + i)).isSome := by
  have hs := reached_cachesTrue (z := z) hu history
  constructor
  · rintro ⟨buf, hbuf⟩
    exact ⟨size_of_ok hs hpos hbuf, Whole.of_shows (shows_of_ok hu hs hbuf)⟩
  · rintro ⟨hlen, hwhole⟩
    exact (readAt_answers hu hh hlen hwhole).answers hs

/-- After a read over the end of the backing file, one from a zero cluster into a compressed
one. -/
theorem reads_answered_iff_mixed :
    ∃ buf, (mixedOverlay.step repeatInflater (mixedOverlay.reached repeatInflater [(0, 3)])
      (1534, 4)).1 = .ok buf := by
  have hh : mixedOverlay.Honest := ⟨fun _ _ _ => rfl, fun _ _ _ => rfl⟩
  refine (reads_answered_iff repeatInflater mixedOverlay mixedOverlay_unambiguous hh [(0, 3)]
    1534 4 (by decide)).mpr ⟨by decide, ?_⟩
  have hall : ∀ i < 4, ((mixedOverlay.view repeatInflater).byte (1534 + i)).isSome := by
    decide +kernel
  exact hall

end DiskImage

end BootExtractor.Disk
