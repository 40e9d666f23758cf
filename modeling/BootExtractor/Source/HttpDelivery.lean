import BootExtractor.Source.HttpResponse

/-!
# What a connection delivers of a body

A connection may deliver a part of a response only, with failures between its bytes. What
the reader then hands out is a part of the body, in all three framings; over a connection
that delivers the whole response it is the body.
-/

namespace BootExtractor.Http

/-- Whatever the reader still hands out is a prefix of `coming`. -/
inductive Within : BodyReader → Bytes → Prop where
  | ended {b : BodyReader} (hended : b.done = true ∨ b.reader.rest = []) (coming : Bytes) :
      Within b coming
  | raw {b : BodyReader} {coming : Bytes} (hframing : b.framing ≠ .chunked)
      (hrest : b.reader.rest <+: coming) : Within b coming
  | chunk {b : BodyReader} {data sep : Bytes} {body : ChunkedBody} (hframing : b.framing = .chunked)
      (hsep : sep = [] ∨ sep = crlf) (hleft : b.chunkLeft = data.length)
      (hrest : b.reader.rest <+: data ++ (sep ++ body.encode)) : Within b (data ++ body.data)

/-- A read took `out` off what is coming, and no more than it was asked for. -/
structure Handed (b' : BodyReader) (cap : Nat) (coming out : Bytes) : Prop where
  rest : ∃ coming', coming = out ++ coming' ∧ Within b' coming'
  length_le : out.length ≤ cap

section Lines

/-- The loop over blank lines ends with the next line of the bytes to come. -/
theorem nextLine_ok {fuel : Nat} {r r' : BufReader} {line : Str}
    (h : nextLine fuel r = some (.ok line, r')) :
    ∃ raw, scanLine r.rest = some (raw, r'.rest) ∧ line = Utf8.fromLossy raw := by
  induction fuel generalizing r with
  | zero => cases h
  | succ fuel ih =>
    rw [nextLine] at h
    cases hread : r.readLine [] with
    | mk res r₁ =>
      cases res with
      | error msg =>
        simp only [readCrlfLine, hread] at h
        cases h
      | ok raw =>
        obtain ⟨hraw, hrest⟩ := BufReader.readLine_ok hread
        rw [List.nil_append] at hraw
        simp only [readCrlfLine, hread] at h
        have hblank : Utf8.fromLossy (stripBreaks raw) = [] ↔ stripBreaks raw = [] :=
          Utf8.fromLossy_eq_nil
        cases hline : Utf8.fromLossy (stripBreaks raw) with
        | nil =>
          rw [hline] at h
          obtain ⟨next, hscan, heq⟩ := ih h
          refine ⟨next, ?_, heq⟩
          rw [scanLine]
          by_cases hne : r.rest = []
          · rw [hne, splitLine] at hrest
            rw [hrest, scanLine, dif_pos rfl] at hscan
            cases hscan
          · rw [dif_neg hne, if_pos (hraw ▸ hblank.mp hline), ← hrest, hscan]
        | cons c cs =>
          rw [hline] at h
          obtain ⟨hok, rfl⟩ := Prod.mk.inj (Option.some.inj h)
          have hstrip : stripBreaks raw ≠ [] := by
            intro he
            rw [hblank.mpr he] at hline
            cases hline
          have hne : r.rest ≠ [] := by
            intro he
            rw [he] at hraw
            exact hstrip (by rw [hraw]; rfl)
          refine ⟨stripBreaks raw, ?_, (Except.ok.inj hok).symm.trans hline.symm⟩
          rw [scanLine, dif_neg hne, if_neg (hraw ▸ hstrip), hraw, hrest]

/-- A line in a part of the bytes is the line there, or the last thing in the part. -/
theorem scanLine_prefix {w w' raw more : Bytes} (hw : w <+: w')
    (h : scanLine w = some (raw, more)) :
    more = [] ∨ ∃ more', scanLine w' = some (raw, more') ∧ more <+: more' := by
  induction hk : w.length using Nat.strong_induction_on generalizing w w' with
  | _ k ih =>
  rw [scanLine] at h
  split at h
  · cases h
  rename_i hne
  have hshort := splitLine_shorter hne
  obtain ⟨t, rfl⟩ := hw
  have hne' : w ++ t ≠ [] := fun he => hne (List.append_eq_nil_iff.mp he).1
  by_cases hmem : 10 ∈ w
  · have hsplit := splitLine_of_mem hmem t
    have hfirst : (splitLine (w ++ t)).1 = (splitLine w).1 := by rw [hsplit]
    have hsecond : (splitLine w).2 <+: (splitLine (w ++ t)).2 := by
      rw [hsplit]
      exact List.prefix_append _ _
    rw [scanLine, dif_neg hne', hfirst]
    split at h
    · rename_i hblank
      rw [if_pos hblank]
      exact ih _ (hk ▸ hshort) hsecond h rfl
    · rename_i hline
      cases h
      rw [if_neg hline]
      exact Or.inr ⟨_, rfl, hsecond⟩
  · left
    have hsplit := splitLine_of_notMem hmem []
    rw [List.append_nil] at hsplit
    have hnil : (splitLine w).2 = [] := by
      rw [hsplit]
      rfl
    split at h
    · rw [hnil, scanLine, dif_pos rfl] at h
      cases h
    · cases h
      exact hnil

end Lines

section Raw

variable {b b' : BodyReader} {fuel cap : Nat} {out : Bytes}

/-- Without chunks the bytes handed out are those that come. -/
theorem read_raw (hframing : b.framing ≠ .chunked)
    (h : b.read fuel cap = some (.ok out, b')) :
    b'.framing = b.framing ∧ b.reader.rest = out ++ b'.reader.rest ∧ out.length ≤ cap := by
  unfold BodyReader.read at h
  split at h
  · cases h
    exact ⟨rfl, rfl, Nat.zero_le _⟩
  · split at h
    · split at h
      · cases h
        exact ⟨rfl, rfl, Nat.zero_le _⟩
      · split at h
        · cases h
        · rename_i data r hread
          cases h
          obtain ⟨hrest, hlen⟩ := BufReader.read_ok hread
          exact ⟨rfl, hrest, hlen.trans (Nat.min_le_left _ _)⟩
    · split at h
      · cases h
      · rename_i data r hread
        cases h
        obtain ⟨hrest, hlen⟩ := BufReader.read_ok hread
        exact ⟨rfl, hrest, hlen⟩
    · rename_i hchunked
      exact absurd hchunked hframing

private theorem readData_ok (h : b.readData cap = (.ok out, b')) :
    b.reader.rest = out ++ b'.reader.rest ∧ out.length ≤ cap ∧ out.length ≤ b.chunkLeft ∧
      b'.chunkLeft = b.chunkLeft - out.length ∧ b'.framing = b.framing := by
  unfold BodyReader.readData at h
  split at h
  · cases h
  · rename_i data r hread
    cases h
    obtain ⟨hrest, hlen⟩ := BufReader.read_ok hread
    exact ⟨hrest, hlen.trans (Nat.min_le_left _ _), hlen.trans (Nat.min_le_right _ _), rfl, rfl⟩

/-- A chunk is handed out from its front. -/
theorem handed_of_readData {data sep : Bytes} {body : ChunkedBody}
    (hframing : b.framing = .chunked) (hsep : sep = [] ∨ sep = crlf)
    (hleft : b.chunkLeft = data.length)
    (hrest : b.reader.rest <+: data ++ (sep ++ body.encode))
    (h : b.readData cap = (.ok out, b')) : Handed b' cap (data ++ body.data) out := by
  obtain ⟨hsplit, hcap, hlen, hleft', hframing'⟩ := readData_ok h
  rw [hsplit] at hrest
  have hout : out <+: data := by
    have hfront : out <+: data ++ (sep ++ body.encode) := (List.prefix_append _ _).trans hrest
    exact List.prefix_of_prefix_length_le hfront (List.prefix_append _ _) (hleft ▸ hlen)
  obtain ⟨more, rfl⟩ := hout
  rw [List.append_assoc] at hrest
  refine ⟨⟨more ++ body.data, List.append_assoc _ _ _, ?_⟩, hcap⟩
  refine .chunk (hframing'.trans hframing) hsep ?_ ((List.prefix_append_right_inj _).mp hrest)
  rw [hleft', hleft, List.length_append, Nat.add_sub_cancel_left]

/-- In front of a size line the next chunk begins, unless the connection ends with it. -/
theorem handed_of_readChunked {body : ChunkedBody} {sep : Bytes} (hframing : b.framing = .chunked)
    (hsep : sep = [] ∨ sep = crlf) (hleft : b.chunkLeft = 0)
    (hrest : b.reader.rest <+: sep ++ body.encode)
    (h : b.readChunked fuel cap = some (.ok out, b')) : Handed b' cap body.data out := by
  rw [BodyReader.readChunked, if_pos hleft] at h
  split at h
  · cases h
  · cases h
  rename_i line r hnext
  obtain ⟨raw, hscan, rfl⟩ := nextLine_ok hnext
  split at h
  · cases h
  rename_i size hsize
  split at h
  · cases h
    exact ⟨⟨_, rfl, .ended (Or.inl rfl) _⟩, Nat.zero_le _⟩
  rename_i hzero
  have hdata := Option.some.inj h
  obtain hend | ⟨more', hwhole, hmore⟩ := scanLine_prefix hrest hscan
  · obtain ⟨hsplit, hcap, -⟩ := readData_ok hdata
    obtain ⟨hout, hover⟩ := List.append_eq_nil_iff.mp (hsplit.symm.trans hend)
    rw [hout] at hcap ⊢
    exact ⟨⟨_, rfl, .ended (Or.inr hover) _⟩, hcap⟩
  · have hbody : scanLine body.encode = some (raw, more') := by
      rw [← hwhole]
      rcases hsep with rfl | rfl
      · rfl
      · exact (scanLine_crlf _).symm
    obtain ⟨chunks, last, hlast, trailer⟩ := body
    cases chunks with
    | nil =>
      rw [ChunkedBody.encode, List.flatMap_nil, List.nil_append,
        scanLine_line last.text_ne_nil last.text_line] at hbody
      obtain ⟨rfl, -⟩ := Prod.mk.inj (Option.some.inj hbody)
      rw [last.chunkSize_text (by rw [hlast]; decide), hlast] at hsize
      exact absurd (Except.ok.inj hsize).symm hzero
    | cons c cs =>
      rw [ChunkedBody.encode_cons, scanLine_line c.size.text_ne_nil c.size.text_line] at hbody
      obtain ⟨rfl, rfl⟩ := Prod.mk.inj (Option.some.inj hbody)
      rw [c.size.chunkSize_text (by rw [c.size_eq]; exact c.length_lt), c.size_eq] at hsize
      have hsize := Except.ok.inj hsize
      rw [ChunkedBody.data_cons]
      exact handed_of_readData (b := { b with reader := r, chunkLeft := size }) hframing
        (Or.inr rfl) hsize.symm hmore hdata

/-- Where nothing more comes nothing is handed out. -/
theorem readChunked_end (hrest : b.reader.rest = [])
    (h : b.readChunked fuel cap = some (.ok out, b')) :
    out ++ b'.reader.rest = [] ∧ out.length ≤ cap := by
  rw [BodyReader.readChunked] at h
  split at h
  · split at h
    · cases h
    · cases h
    rename_i line r hnext
    obtain ⟨raw, hscan, -⟩ := nextLine_ok hnext
    rw [hrest, scanLine, dif_pos rfl] at hscan
    cases hscan
  · obtain ⟨hsplit, hcap, -⟩ := readData_ok (Option.some.inj h)
    exact ⟨hsplit.symm.trans hrest, hcap⟩

end Raw

section Parts

variable {b b' : BodyReader} {fuel : Nat} {coming : Bytes}

/-- One read keeps to what is coming. -/
theorem Within.read (h : Within b coming) {cap : Nat} {out : Bytes}
    (hread : b.read fuel cap = some (.ok out, b')) : Handed b' cap coming out := by
  by_cases hskip : b.done = true ∨ cap = 0
  · rw [BodyReader.read, if_pos hskip] at hread
    cases hread
    exact ⟨⟨coming, rfl, h⟩, Nat.zero_le _⟩
  by_cases hframing : b.framing = .chunked
  · rw [BodyReader.read, if_neg hskip, hframing] at hread
    cases h with
    | ended hover =>
      have hrest := hover.resolve_left fun hdone => hskip (Or.inl hdone)
      obtain ⟨hsplit, hcap⟩ := readChunked_end hrest hread
      obtain ⟨rfl, hover'⟩ := List.append_eq_nil_iff.mp hsplit
      exact ⟨⟨coming, rfl, .ended (Or.inr hover') _⟩, hcap⟩
    | raw hraw => exact absurd hframing hraw
    | @chunk data sep body _ hsep hleft hrest =>
      by_cases hzero : b.chunkLeft = 0
      · obtain rfl : data = [] := List.length_eq_zero_iff.mp (hleft.symm.trans hzero)
        exact handed_of_readChunked hframing hsep hzero hrest hread
      · simp only [BodyReader.readChunked, if_neg hzero] at hread
        exact handed_of_readData hframing hsep hleft hrest (Option.some.inj hread)
  · obtain ⟨hframing', hsplit, hcap⟩ := read_raw hframing hread
    cases h with
    | ended hover =>
      have hrest := hover.resolve_left fun hdone => hskip (Or.inl hdone)
      obtain ⟨rfl, hover'⟩ := List.append_eq_nil_iff.mp (hsplit.symm.trans hrest)
      exact ⟨⟨coming, rfl, .ended (Or.inr hover') _⟩, hcap⟩
    | raw _ hrest =>
      rw [hsplit] at hrest
      obtain ⟨more, hmore⟩ := hrest
      rw [List.append_assoc] at hmore
      refine ⟨⟨_, hmore.symm, .raw (hframing' ▸ hframing) (List.prefix_append _ _)⟩, hcap⟩
    | chunk hchunked => exact absurd hchunked hframing

/-- A buffer that is filled holds the front of what is coming. -/
theorem Within.readFull (h : Within b coming) {want : Nat} {filled buf : Bytes}
    (hle : filled.length ≤ want) (hread : b.readFull fuel want filled = some (.full buf, b')) :
    buf.length = want ∧ ∃ more, buf = filled ++ more ∧ more <+: coming := by
  induction hk : want - filled.length using Nat.strong_induction_on
    generalizing b coming filled with
  | _ k ih =>
  rw [BodyReader.readFull] at hread
  split at hread
  · split at hread
    · cases hread
    · cases hread
    · cases hread
    · rename_i hlt x xs b₁ hone
      obtain ⟨⟨coming', rfl, hwithin⟩, hcap⟩ := h.read hone
      have hlen : (filled ++ x :: xs).length = filled.length + (x :: xs).length :=
        List.length_append
      have hpos : 0 < (x :: xs).length := Nat.succ_pos _
      obtain ⟨hbuf, more, rfl, hmore⟩ := ih _ (by omega) hwithin (by omega) hread rfl
      refine ⟨hbuf, x :: xs ++ more, List.append_assoc _ _ _, ?_⟩
      exact (List.prefix_append_right_inj _).mpr hmore
  · cases hread
    exact ⟨by omega, [], (List.append_nil _).symm, List.nil_prefix⟩

/-- Whatever the buffers, a run of reads hands out the front of what is coming. -/
theorem Within.reads (h : Within b coming) {caps : List Nat} {outs : List Bytes}
    (hreads : BodyReader.reads fuel b caps = some (outs.map .ok, b')) :
    outs.flatten <+: coming := by
  induction caps generalizing b coming outs with
  | nil =>
    obtain ⟨houts, -⟩ := Prod.mk.inj (Option.some.inj hreads)
    rw [List.map_eq_nil_iff.mp houts.symm]
    exact List.nil_prefix
  | cons cap caps ih =>
    obtain ⟨⟨res, b₁⟩, hone, hrest⟩ := Option.bind_eq_some_iff.mp hreads
    obtain ⟨⟨more, b₂⟩, hmore, heq⟩ := Option.bind_eq_some_iff.mp hrest
    obtain ⟨houts, rfl⟩ := Prod.mk.inj (Option.some.inj heq)
    obtain ⟨out, outs, rfl, rfl, rfl⟩ := List.map_eq_cons_iff.mp houts.symm
    obtain ⟨⟨coming', rfl, hwithin⟩, -⟩ := h.read hone
    rw [List.flatten_cons]
    exact (List.prefix_append_right_inj _).mpr (ih hwithin hmore)

end Parts

/-- The reader will hand out all of `coming`. -/
inductive Ready : BodyReader → Bytes → Prop where
  | raw {b : BodyReader} {coming : Bytes} (hframing : b.framing ≠ .chunked)
      (hclean : b.reader.Clean) (hopen : b.done = false) (hrest : b.reader.rest = coming)
      (hleft : ∀ n, b.framing = .length n → b.left = coming.length) : Ready b coming
  | chunked {b : BodyReader} {coming : Bytes} (hcoming : Coming b coming) : Ready b coming

/-- A body with a length is not chunked. -/
theorem Framing.length_ne_chunked (n : Nat) : Framing.length n ≠ .chunked := by
  intro h
  cases h

/-- A body up to the end is not chunked. -/
theorem Framing.toEnd_ne_chunked : Framing.toEnd ≠ .chunked := by
  intro h
  cases h

/-- A body up to the end has no length. -/
theorem Framing.toEnd_ne_length (n : Nat) : Framing.toEnd ≠ .length n := by
  intro h
  cases h

section Whole

variable {b : BodyReader} {coming : Bytes}

/-- As long as something is coming a read hands some of it out. -/
theorem Ready.read (h : Ready b coming) (hne : coming ≠ []) {cap : Nat} (hcap : 0 < cap) :
    ∃ bound out b' coming', (∀ fuel, bound ≤ fuel → b.read fuel cap = some (.ok out, b')) ∧
      out ≠ [] ∧ coming = out ++ coming' ∧ Ready b' coming' := by
  cases h with
  | chunked hcoming =>
    obtain ⟨out, ⟨b', coming', hread, hsplit, hcoming'⟩, hended⟩ := hcoming.read hcap
    exact ⟨b.reader.rest.length + 1, out, b', coming', fun fuel hfuel => hread fuel hfuel,
      fun he => hne (hended he), hsplit, .chunked hcoming'⟩
  | raw hframing hclean hopen hrest hleft =>
    have hskip : ¬(b.done = true ∨ cap = 0) := by
      rw [hopen]
      exact not_or.mpr ⟨Bool.false_ne_true, Nat.ne_of_gt hcap⟩
    cases hb : b.framing with
    | chunked => exact absurd hb hframing
    | length n =>
      have hleft := hleft n hb
      have hpos : 0 < b.left := hleft ▸ List.length_pos_of_ne_nil hne
      obtain ⟨out, r, hread, hclean', hsplit, -, hend⟩ :=
        BufReader.read_clean hclean (Nat.lt_min.mpr ⟨hcap, hpos⟩)
      have hout : out ≠ [] := fun he => hne (hrest.symm.trans (hend he))
      rw [hrest] at hsplit
      refine ⟨0, out, ⟨r, .length n, b.left - out.length, b.chunkLeft, false⟩, r.rest,
        fun fuel _ => ?_, hout, hsplit, .raw (Framing.length_ne_chunked n) hclean' rfl rfl
          fun _ _ => ?_⟩
      · rw [BodyReader.read, if_neg hskip, hb]
        simp only [if_neg (Nat.ne_of_gt hpos), hread, List.isEmpty_eq_false_iff.mpr hout]
      · change b.left - out.length = r.rest.length
        rw [hleft, hsplit, List.length_append, Nat.add_sub_cancel_left]
    | toEnd =>
      obtain ⟨out, r, hread, hclean', hsplit, -, hend⟩ := BufReader.read_clean hclean hcap
      have hout : out ≠ [] := fun he => hne (hrest.symm.trans (hend he))
      rw [hrest] at hsplit
      refine ⟨0, out, ⟨r, .toEnd, b.left, b.chunkLeft, false⟩, r.rest, fun fuel _ => ?_, hout,
        hsplit, .raw Framing.toEnd_ne_chunked hclean' rfl rfl
          fun n h => absurd h (Framing.toEnd_ne_length n)⟩
      rw [BodyReader.read, if_neg hskip, hb]
      simp only [hread, List.isEmpty_eq_false_iff.mpr hout]

/-- A buffer is filled if enough is coming. -/
theorem Ready.readFull (h : Ready b coming) {want : Nat} {filled : Bytes}
    (hlen : want - filled.length ≤ coming.length) :
    ∃ bound buf b', ∀ fuel, bound ≤ fuel → b.readFull fuel want filled = some (.full buf, b') := by
  induction hk : want - filled.length using Nat.strong_induction_on
    generalizing b coming filled with
  | _ k ih =>
  by_cases hlt : filled.length < want
  · have hne : coming ≠ [] := by
      rintro rfl
      rw [List.length_nil] at hlen
      omega
    obtain ⟨bound, out, b₁, coming', hread, hout, hsplit, hready⟩ :=
      h.read hne (Nat.sub_pos_of_lt hlt)
    obtain ⟨x, xs, rfl⟩ := List.exists_cons_of_ne_nil hout
    have hlen' : (filled ++ x :: xs).length = filled.length + (x :: xs).length :=
      List.length_append
    have hpos : 0 < (x :: xs).length := Nat.succ_pos _
    rw [hsplit, List.length_append] at hlen
    obtain ⟨bound', buf, b', hfull⟩ := ih (want - (filled ++ x :: xs).length) (by omega) hready
      (by omega) rfl
    refine ⟨max bound bound', buf, b', fun fuel hfuel => ?_⟩
    rw [BodyReader.readFull, if_pos hlt, hread fuel (by omega)]
    exact hfull fuel (by omega)
  · refine ⟨0, filled, b, fun fuel _ => ?_⟩
    rw [BodyReader.readFull, if_neg hlt]

end Whole

section Framing

variable {resp : Response} {name : Str} {kind : Str → Prop}

/-- A header is looked up by its name, whatever its case. -/
theorem headerOf_eq (resp : Response) (name : Str) : headerOf resp.headers name =
    (resp.fields.find? fun f => Str.eqIgnoreAsciiCase f.name name).map fun f =>
      Str.trim (Utf8.fromLossy f.value) := by
  rw [headerOf, Response.headers, List.find?_map, Option.map_map]
  rfl

/-- A header that is not sent is not found. -/
theorem Response.Lacks.headerOf (h : resp.Lacks name) : headerOf resp.headers name = none := by
  rw [headerOf_eq, Option.map_eq_none_iff, List.find?_eq_none]
  exact h

/-- A text in a field is what the reader of the headers sees. -/
theorem HeaderField.HasText.trim {f : HeaderField} {text : Str} (h : f.HasText text)
    (hvisible : ∀ c ∈ text, isVisible c) : Str.trim (Utf8.fromLossy f.value) = text := by
  obtain ⟨before, after, hblank, hvalue⟩ := h
  have hascii : ∀ c ∈ before ++ text ++ after, c.toNat < 0x80 := by
    intro c hc
    rw [List.append_assoc, List.mem_append, List.mem_append] at hc
    have hcase : isVisible c ∨ c = ' ' ∨ c = '\t' := by
      rcases hc with hc | hc | hc
      · exact Or.inr (hblank c (List.mem_append_left _ hc))
      · exact Or.inl (hvisible c hc)
      · exact Or.inr (hblank c (List.mem_append_right _ hc))
    rcases hcase with hc | rfl | rfl
    · exact Nat.lt_trans (isVisible_iff.mp hc).2 (by decide)
    · decide
    · decide
  have hspace : ∀ c ∈ before ++ after, Str.isWhitespace c = true := by
    intro c hc
    rcases hblank c hc with rfl | rfl <;> rfl
  have hdecoded := fromLossy_asciiBytes hascii []
  have hnil : Utf8.fromLossy [] = [] := rfl
  rw [List.append_nil, hnil, List.append_nil] at hdecoded
  rw [hvalue, hdecoded]
  exact Str.trim_between (fun c hc => hspace c (List.mem_append_left _ hc))
    (fun c hc => not_isWhitespace_of_isVisible (hvisible c hc))
    (fun c hc => hspace c (List.mem_append_right _ hc))

/-- A header that is sent is found with a text of its kind. -/
theorem Response.Declares.headerOf (h : resp.Declares name kind)
    (hvisible : ∀ text, kind text → ∀ c ∈ text, isVisible c) :
    ∃ text, kind text ∧ headerOf resp.headers name = some text := by
  obtain ⟨f, hmem, hnamed⟩ := h.exists_field
  have hsome : (resp.fields.find? fun f => Str.eqIgnoreAsciiCase f.name name).isSome :=
    List.find?_isSome.mpr ⟨f, hmem, hnamed⟩
  obtain ⟨g, hg⟩ := Option.isSome_iff_exists.mp hsome
  have hfound := List.find?_some hg
  obtain ⟨text, hkind, htext⟩ := h.text g (List.mem_of_find?_eq_some hg) hfound
  refine ⟨text, hkind, ?_⟩
  rw [headerOf_eq, hg, Option.map_some, htext.trim (hvisible text hkind)]

/-- A number with leading zeroes is made of digits. -/
theorem isDigit_of_zeros {zeros n : Nat} :
    ∀ c ∈ List.replicate zeros '0' ++ Str.dec n, c.isDigit = true := by
  intro c hc
  rcases List.mem_append.mp hc with hc | hc
  · rw [List.eq_of_mem_replicate hc]
    rfl
  · exact Str.isDigit_of_mem_dec hc

/-- Leading zeroes do not count. -/
theorem parseUsize_zeros (zeros n : Nat) :
    Str.parseUsize (List.replicate zeros '0' ++ Str.dec n) =
      if n < 2 ^ 64 then some n else none := by
  have hne : List.replicate zeros '0' ++ Str.dec n ≠ [] :=
    fun h => Str.dec_ne_nil n (List.append_eq_nil_iff.mp h).2
  have hvalue : Nat.ofDigitChars 10 (Str.dec n) 0 = n := Nat.ofDigitChars_ten_toDigits
  rw [Str.parseUsize_digits hne isDigit_of_zeros, Nat.ofDigitChars_append,
    Nat.ofDigitChars_replicate_zero,
    Nat.mul_zero, hvalue]

/-- A status whose responses have a body. -/
abbrev HasBody (status : Nat) : Prop := ¬(status = 204 ∨ status = 304)

variable {status : Nat}

/-- The framing that the headers of a response announce is that of its body. A length beyond
64 bits is none, and the body then goes to the end of the connection. -/
theorem framingOf_headers (h : resp.Framed) (hbody : HasBody status) :
    match resp.body with
    | .length data => framingOf resp.headers status = .length data.length ∨
        framingOf resp.headers status = .toEnd
    | .chunked _ => framingOf resp.headers status = .chunked
    | .close _ => framingOf resp.headers status = .toEnd := by
  unfold Response.Framed at h
  cases hkind : resp.body with
  | length data =>
    rw [hkind] at h
    obtain ⟨hlacks, hlength⟩ := h
    obtain ⟨text, ⟨zeros, rfl⟩, hheader⟩ := hlength.headerOf fun text htext c hc => by
      obtain ⟨zeros, rfl⟩ := htext
      exact isVisible_of_isDigit (isDigit_of_zeros c hc)
    have htrim : Str.trim (List.replicate zeros '0' ++ Str.dec data.length) =
        List.replicate zeros '0' ++ Str.dec data.length :=
      Str.trim_eq_self fun c hc =>
        not_isWhitespace_of_isVisible (isVisible_of_isDigit (isDigit_of_zeros c hc))
    simp only [framingOf, hlacks.headerOf, Option.any_none, hheader, Option.bind_some, htrim,
      parseUsize_zeros]
    by_cases hfit : data.length < 2 ^ 64
    · rw [if_pos hfit]
      exact Or.inl rfl
    · rw [if_neg hfit]
      exact Or.inr (if_neg hbody)
  | chunked body =>
    rw [hkind] at h
    obtain ⟨text, hchunked, hheader⟩ := Response.Declares.headerOf h fun _ hspelling =>
      isVisible_of_spelling hspelling (Str.forall_of_all rfl)
    simp only [framingOf, hheader, Option.any_some, hchunked, if_true]
  | close data =>
    rw [hkind] at h
    simp only [framingOf, h.1.headerOf, h.2.headerOf, Option.any_none, Option.bind_none]
    exact if_neg hbody

variable {r : BufReader}

/-- What is handed out of a response, or of a part of one, is a part of its body. -/
theorem within_intoBody (h : resp.Framed) (hbody : HasBody status)
    (hrest : r.rest <+: resp.body.wire) :
    Within (intoBody r (framingOf resp.headers status)) resp.body.data := by
  have hframing := framingOf_headers h hbody
  cases hkind : resp.body with
  | length data =>
    rw [hkind] at hframing hrest
    refine .raw ?_ hrest
    change framingOf resp.headers status ≠ .chunked
    rcases hframing with heq | heq
    · rw [heq]
      exact Framing.length_ne_chunked _
    · rw [heq]
      exact Framing.toEnd_ne_chunked
  | chunked body =>
    rw [hkind] at hframing hrest
    exact @Within.chunk _ [] _ body hframing (Or.inl rfl) (by rw [hframing]; rfl) hrest
  | close data =>
    rw [hkind] at hframing hrest
    refine .raw ?_ hrest
    change framingOf resp.headers status ≠ .chunked
    rw [hframing]
    exact Framing.toEnd_ne_chunked

/-- Of a whole response the whole body is handed out. -/
theorem ready_intoBody (h : resp.Framed) (hbody : HasBody status) (hclean : r.Clean)
    (hrest : r.rest = resp.body.wire) :
    Ready (intoBody r (framingOf resp.headers status)) resp.body.data := by
  have hframing := framingOf_headers h hbody
  cases hkind : resp.body with
  | length data =>
    rw [hkind] at hframing hrest
    rcases hframing with heq | heq
    · rw [heq]
      exact .raw (Framing.length_ne_chunked _) hclean rfl hrest fun _ _ => rfl
    · rw [heq]
      exact .raw Framing.toEnd_ne_chunked hclean rfl hrest
        fun n h => absurd h (Framing.toEnd_ne_length n)
  | chunked body =>
    rw [hkind] at hframing hrest
    rw [hframing]
    exact .chunked (@Coming.chunk _ [] _ body ⟨rfl, hclean, rfl⟩ (Or.inl rfl) rfl hrest)
  | close data =>
    rw [hkind] at hframing hrest
    rw [hframing]
    exact .raw Framing.toEnd_ne_chunked hclean rfl hrest
      fun n h => absurd h (Framing.toEnd_ne_length n)

end Framing

end BootExtractor.Http
