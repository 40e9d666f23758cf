import BootExtractor.Disk.Guest
import BootExtractor.Source.Locator

/-!
# Opening a chain of images

The opener follows backing references from one image to the next until an image has
none, up to a fixed depth. What it opens is a path along these references, so its
length is bounded whatever the images say, and a path that starts at a URL stays
on URLs.
-/

namespace BootExtractor.Disk

open Effect Bytes

/-- What opening a file or a URL gives. -/
structure World where
  file : Str → Except Error Host
  remote : Str → Except Error Host

/-- `source::open`. -/
def World.source (w : World) (locator : Str) : Except Error Host :=
  if isUrl locator then w.remote locator else w.file locator

/-- The longest chain that is followed. -/
def maxBackingDepth : Nat := 8

/-- The first four bytes of a source; an image shorter than that is treated as raw. -/
def sniff (src : Host) (layer : Nat) : DiskM Bytes :=
  if src.size ≥ 4 then src.readAt layer 0 4 else pure (zeroes 4)

/-- An error from below with the locator it came from. -/
def backingError (locator : Str) : Fault → Fault
  | .err e => .err (.qcow2 ("opening backing file ".toList ++ locator ++ ": ".toList ++ e.display))
  | .panic => .panic
  | .spin => .spin

namespace DiskImage

/-- `DiskImage::open_at_depth`. -/
def openAtDepth (w : World) (locator : Str) (depth : Nat) : DiskM DiskImage :=
  if _ : depth > maxBackingDepth then
    throw (.err (.qcow2 "backing file chain too deep (loop?)".toList))
  else do
    let src ← report (.opened locator) .err (w.source locator)
    let start ← sniff src depth
    if start ≠ magic then pure (raw src)
    else
      let q ← Qcow2.open src depth
      match q.backingName with
      | none => pure (qcow2 q)
      | some name =>
        let backingLocator := resolveRelative locator name
        let backing ←
          mapError (backingError backingLocator) (openAtDepth w backingLocator (depth + 1))
        pure (overlay q backing)
termination_by maxBackingDepth + 1 - depth

/-- `DiskImage::open`. -/
def «open» (w : World) (locator : Str) : DiskM DiskImage := openAtDepth w locator 0

end DiskImage

/-- The backing reference in the header of an image, if it is a qcow2 image with one. -/
def backingRef (content : Bytes) : Option Str :=
  if content.take 4 = magic ∧ field content 8 8 ≠ 0 ∧ field content 16 4 > 0 then
    some (Utf8.fromLossy (slice content (field content 8 8) (field content 16 4)))
  else none

/-- The locators from one image to an image without a backing reference. -/
inductive Chain (w : World) : Str → List Str → Prop where
  | last {locator : Str} {h : Host} (hopen : w.source locator = .ok h)
      (href : backingRef h.content = none) : Chain w locator [locator]
  | hop {locator name : Str} {rest : List Str} {h : Host} (hopen : w.source locator = .ok h)
      (href : backingRef h.content = some name)
      (hrest : Chain w (resolveRelative locator name) rest) : Chain w locator (locator :: rest)

/-- The locators met on the way from one image, wherever the way ends. -/
inductive Trail (w : World) : Str → List Str → Prop where
  | none (locator : Str) : Trail w locator []
  | one (locator : Str) : Trail w locator [locator]
  | hop {locator name : Str} {rest : List Str} {h : Host} (hopen : w.source locator = .ok h)
      (href : backingRef h.content = some name)
      (hrest : Trail w (resolveRelative locator name) rest) : Trail w locator (locator :: rest)

/-- The files of a chain are a trail. -/
theorem Chain.trail {w : World} {locator : Str} {path : List Str} (h : Chain w locator path) :
    Trail w locator path := by
  induction h with
  | last _ _ => exact .one _
  | hop hopen href _ ih => exact .hop hopen href ih

/-- A trail that starts at a URL stays on URLs. -/
theorem Trail.isUrl {w : World} {locator : Str} {path : List Str} (h : Trail w locator path)
    (hurl : isUrl locator) : ∀ l ∈ path, isUrl l := by
  induction h with
  | none locator => exact fun _ hl => (List.not_mem_nil hl).elim
  | one locator =>
    intro l hl
    rwa [List.mem_singleton.mp hl]
  | hop _ _ _ ih =>
    rintro l (_ | ⟨_, hl⟩)
    · exact hurl
    · exact ih (isUrl_resolveRelative hurl _) l hl

/-- The locator of an event, if it is an opening. -/
def Event.locator : Event → Option Str
  | .opened locator _ => some locator
  | .read .. => none
  | .inflate .. => none

/-- The locators opened in a log. -/
def locators (events : List Event) : List Str := events.filterMap Event.locator

private theorem locators_append (a b : List Event) : locators (a ++ b) = locators a ++ locators b :=
  List.filterMap_append

/-- Between two states exactly these locators were opened. -/
def Opened (path : List Str) (s t : Session) : Prop :=
  ∃ events, t.log = s.log ++ events ∧ locators events = path

/-- Files opened one after the other. -/
theorem Opened.trans {p r : List Str} {s t u : Session} (h : Opened p s t) (k : Opened r t u) :
    Opened (p ++ r) s u := by
  obtain ⟨a, ha, rfl⟩ := h
  obtain ⟨b, hb, rfl⟩ := k
  exact ⟨a ++ b, by rw [hb, ha, List.append_assoc], locators_append a b⟩

/-- Nothing is opened; an error is one that the caller sees. -/
def quiet : Frame Fault Session where
  step := Opened []
  fails f s t := Opened [] s t ∧ f.IsErr
  refl _ := ⟨[], (List.append_nil _).symm, rfl⟩
  trans h k := h.trans k
  fails_of_step h k := ⟨h.trans k.1, k.2⟩

/-- The computation opens nothing, and answers with an `R` or returns an error. -/
abbrev Quiet {α : Type} (x : DiskM α) (R : α → Prop) : Prop := Ensures quiet (fun _ => True) x R

private theorem opened_read (s : Session) (layer offset len : Nat) (ok : Bool) :
    Opened [] s (s.noted (.read layer offset len ok)) := ⟨[_], rfl, rfl⟩

/-- A host read opens no file. -/
theorem Host.readAt_quiet (h : Host) (layer offset len : Nat) :
    Quiet (h.readAt layer offset len) fun buf =>
      (len = 0 ∨ offset + len ≤ h.size) ∧ buf = slice h.content offset len := by
  apply Host.readAt_ensures
  · intro s _
    exact ⟨opened_read s _ _ _ _, trivial⟩
  · intro s e _
    exact ⟨⟨opened_read s _ _ _ _, trivial⟩, trivial⟩

/-- A pure check in front of a computation. -/
theorem ofExcept_quiet {α : Type} (x : Except Error α) :
    Quiet (ofExcept .err x) fun a => x = .ok a := by
  intro s _
  rw [yields_ofExcept]
  constructor
  · intro a ha
    exact ⟨quiet.refl s, trivial, ha⟩
  · intro e he
    exact ⟨⟨quiet.refl s, trivial⟩, trivial⟩

/-- Fields of the header are fields of the file. -/
theorem field_take {content : Bytes} {off len : Nat} (h : off + len ≤ 72) :
    field (slice content 0 72) off len = field content off len := by
  rw [field, slice_slice h, Nat.zero_add, field]

/-- A header field is bounded by its width. -/
theorem field_lt (hdr : Bytes) (off len : Nat) : field hdr off len < 256 ^ len := by
  have h := le_lt (slice hdr off len).reverse
  have hlen : (slice hdr off len).reverse.length ≤ len := by
    rw [List.length_reverse, length_slice]
    exact Nat.min_le_left _ _
  exact Nat.lt_of_lt_of_le h (Nat.pow_le_pow_right (by decide) hlen)

/-- Headers that pass have a cluster size in range. -/
theorem checkHeader_ok {crypt incompatible clusterBits : Nat}
    (h : checkHeader crypt incompatible clusterBits = .ok ()) :
    9 ≤ clusterBits ∧ clusterBits ≤ 21 := by
  unfold checkHeader at h
  repeat' split at h
  all_goals first | cases h; omega | cases h

private theorem checkVersion_ok {hdr : Bytes} {version : Nat} (h : checkVersion hdr = .ok version) :
    hdr.take 4 = magic := by
  unfold checkVersion at h
  split at h
  · cases h
  · exact not_not.mp ‹_›

private theorem readIncompatible_quiet (host : Host) (layer version : Nat) :
    Quiet (readIncompatible host layer version) fun _ => True := by
  unfold readIncompatible
  split
  · exact (host.readAt_quiet layer 72 8).map fun _ _ => trivial
  · exact .pure trivial

/-- The name is read as the header says. -/
theorem readBackingName_quiet (host : Host) (layer offset size : Nat) :
    Quiet (readBackingName host layer offset size) fun name =>
      name = if offset ≠ 0 ∧ size > 0 then
        some (Utf8.fromLossy (slice host.content offset size)) else none := by
  unfold readBackingName
  split
  · split
    · intro s _
      exact ⟨⟨quiet.refl s, trivial⟩, trivial⟩
    · refine (host.readAt_quiet layer offset size).map ?_
      rintro buf ⟨_, rfl⟩
      rfl
  · exact .pure rfl

/-- An opened image has the backing reference of its file. -/
theorem Qcow2.open_quiet (host : Host) (layer : Nat) :
    Quiet (Qcow2.open host layer) fun q => q.backingName = backingRef host.content := by
  refine (host.readAt_quiet layer 0 72).bind ?_
  rintro hdr ⟨_, rfl⟩
  refine (ofExcept_quiet _).bind fun version hversion => ?_
  refine (readIncompatible_quiet host layer version).bind fun incompatible _ => ?_
  refine (ofExcept_quiet _).bind fun _ hheader => ?_
  refine (readBackingName_quiet host layer _ _).bind fun name hname => ?_
  refine (host.readAt_quiet layer _ _).bind fun l1Raw _ => ?_
  have hbits := checkHeader_ok hheader
  have hsize : field (slice host.content 0 72) 24 8 < 2 ^ 64 := field_lt _ _ _
  rw [dif_pos ⟨hsize, hbits⟩]
  have hmagic : host.content.take 4 = magic := by
    have h := checkVersion_ok hversion
    rwa [slice_zero_offset, List.take_take] at h
  have hread : name = backingRef host.content := by
    rw [hname, backingRef, field_take (by decide), field_take (by decide)]
    simp only [hmagic, true_and]
  exact .pure hread

/-- The first bytes tell whether the file can have a backing reference. -/
theorem sniff_quiet (src : Host) (layer : Nat) :
    Quiet (sniff src layer) fun start => start ≠ magic → backingRef src.content = none := by
  unfold sniff
  split
  · refine (src.readAt_quiet layer 0 4).mono ?_
    rintro buf ⟨_, rfl⟩ hne
    rw [backingRef, if_neg]
    exact fun h => hne h.1
  · rename_i hsmall
    apply Ensures.pure
    intro _
    rw [backingRef, if_neg]
    intro h
    have hlen := congrArg List.length h.1
    rw [List.length_take] at hlen
    simp only [Host.size] at hsmall
    have : magic.length = 4 := rfl
    omega

namespace DiskImage

variable {w : World}

/-- What following the chain from a locator comes to: the opener has opened the whole chain,
or some of the way and it returns an error. Each level of the recursion opens one locator. -/
theorem openAtDepth_spec (locator : Str) (depth : Nat) (s : Session) :
    Yields (openAtDepth w locator depth)
      (fun _ t => ∃ path, Opened path s t ∧ Chain w locator path ∧
        path.length + depth ≤ maxBackingDepth + 1)
      (fun f t => f.IsErr ∧ ∃ path, Opened path s t ∧ Trail w locator path ∧
        path.length ≤ maxBackingDepth + 1 - depth) s := by
  induction hn : maxBackingDepth + 1 - depth generalizing locator depth s with
  | zero =>
    rw [openAtDepth, dif_pos (by omega), yields_throw]
    exact ⟨trivial, [], quiet.refl s, .none _, Nat.le_refl _⟩
  | succ n ih =>
    rw [openAtDepth, dif_neg (by omega), yields_bind, report, yields_bind, note, yields_modify,
      yields_ofExcept]
    have hsingle : [locator].length = 1 := rfl
    have hopened (ok : Bool) : Opened [locator] s (s.noted (.opened locator ok)) := ⟨[_], rfl, rfl⟩
    constructor
    · intro src hsrc
      have hone {t : Session} (ht : Opened [] (s.noted (.opened locator true)) t) :
          Opened [locator] s t := (hopened true).trans ht
      rw [hsrc, yields_bind]
      refine (sniff_quiet src depth _ trivial).mono ?_ ?_
      · rintro start t ⟨hst, _, hstart⟩
        by_cases hmagic : start ≠ magic
        · rw [if_pos hmagic, yields_pure]
          exact ⟨[locator], hone hst, .last hsrc (hstart hmagic), by omega⟩
        · rw [if_neg hmagic, yields_bind]
          refine (Qcow2.open_quiet src depth t trivial).mono ?_ ?_
          · rintro q u ⟨htu, _, hname⟩
            have hu := hone (hst.trans htu)
            cases hq : q.backingName with
            | none =>
              rw [yields_pure]
              exact ⟨[locator], hu, .last hsrc (hname ▸ hq), by omega⟩
            | some name =>
              have href : backingRef src.content = some name := hname ▸ hq
              simp only [yields_bind, yields_mapError]
              refine (ih (resolveRelative locator name) (depth + 1) u (by omega)).mono ?_ ?_
              · rintro img v ⟨path, huv, hchain, hlen⟩
                exact ⟨locator :: path, hu.trans huv, .hop hsrc href hchain,
                  by rw [List.length_cons]; omega⟩
              · rintro f v ⟨hf, path, huv, htrail, hlen⟩
                refine ⟨?_, locator :: path, hu.trans huv, .hop hsrc href htrail,
                  by rw [List.length_cons]; omega⟩
                cases f with
                | err e => trivial
                | panic => exact hf
                | spin => exact hf
          · rintro f u ⟨⟨htu, hf⟩, _⟩
            exact ⟨hf, [locator], hone (hst.trans htu), .one _, by omega⟩
      · rintro f t ⟨⟨hst, hf⟩, _⟩
        exact ⟨hf, [locator], hone hst, .one _, by omega⟩
    · intro e he
      rw [he]
      exact ⟨trivial, [locator], hopened false, .one _, by omega⟩

/-- Opening always comes to an end, with an image or an error that the caller sees, after
opening nine locators at most. It fails unless the backing references lead to an image
without one in eight hops at most, and from a URL it opens only URLs. -/
theorem open_follows_bounded_chain (w : World) (locator : Str) (s : Session) :
    (∀ f, answer (DiskImage.open w locator) s = .error f → ∃ e, f = .err e) ∧
    (∃ path, Opened path s (after (DiskImage.open w locator) s) ∧ Trail w locator path ∧
      path.length ≤ 9 ∧ (isUrl locator → ∀ l ∈ path, isUrl l)) ∧
    ((¬ ∃ path, Chain w locator path ∧ path.length ≤ 8 + 1) →
      ∃ e, answer (DiskImage.open w locator) s = .error (.err e)) := by
  have hspec := yields_iff.mp (openAtDepth_spec (w := w) locator 0 s)
  have hmax : maxBackingDepth = 8 := rfl
  unfold DiskImage.open
  cases hans : answer (openAtDepth w locator 0) s with
  | ok img =>
    rw [hans] at hspec
    obtain ⟨path, hopened, hchain, hlen⟩ := hspec
    have hnine : path.length ≤ 9 := by omega
    have htrail := hchain.trail
    refine ⟨?_, ⟨path, hopened, htrail, hnine, htrail.isUrl⟩, fun hno => ?_⟩
    · intro f hf
      cases hf
    · exact absurd ⟨path, hchain, hnine⟩ hno
  | error f =>
    rw [hans] at hspec
    obtain ⟨hf, path, hopened, htrail, hlen⟩ := hspec
    have herr : ∃ e, f = .err e := by
      cases f with
      | err e => exact ⟨e, rfl⟩
      | panic => exact hf.elim
      | spin => exact hf.elim
    refine ⟨?_, ⟨path, hopened, htrail, by omega, htrail.isUrl⟩, fun _ => ?_⟩
    · intro f' hf'
      cases hf'
      exact herr
    · obtain ⟨e, rfl⟩ := herr
      exact ⟨e, rfl⟩

end DiskImage

end BootExtractor.Disk
