import BootExtractor.Source.HttpBody

/-!
# Responses that end early

A response may be cut anywhere. Inside a chunk the reader sees the end and says so.
Between two chunks it waits for a size line: the end of the transport looks like one
more blank line to it, and it never returns.
-/

namespace BootExtractor.Http

/-- The bytes end where a size line should stand: what comes before are whole chunks, and
lines that are no sizes. -/
inductive EndsBetween : Bytes → Prop where
  | blank {w : Bytes} (hscan : scanLine w = none) : EndsBetween w
  | bad {w line more : Bytes} {e : IoError} (hscan : scanLine w = some (line, more))
      (hsize : chunkSize (Utf8.fromLossy line) = .error e) (h : EndsBetween more) : EndsBetween w
  | chunk {w line more : Bytes} {size : Nat} (hscan : scanLine w = some (line, more))
      (hsize : chunkSize (Utf8.fromLossy line) = .ok size) (hpos : 0 < size)
      (hle : size ≤ more.length) (h : EndsBetween (more.drop size)) : EndsBetween w

/-- The same of a reader that may be inside a chunk. -/
structure Hangs (b : BodyReader) : Prop where
  hle : b.chunkLeft ≤ b.reader.rest.length
  ends : EndsBetween (b.reader.rest.drop b.chunkLeft)

section Steps

variable {b b' : BodyReader} {cap : Nat} {data : Bytes}

/-- More fuel finds the same line. -/
private theorem nextLine_mono {fuel fuel' : Nat} {r : BufReader}
    {res : Except IoError Str × BufReader}
    (h : nextLine fuel r = some res) (hle : fuel ≤ fuel') : nextLine fuel' r = some res := by
  induction fuel generalizing r fuel' with
  | zero => cases h
  | succ fuel ih =>
    cases fuel' with
    | zero => exact absurd hle (Nat.not_succ_le_zero _)
    | succ fuel' =>
      rw [nextLine] at h ⊢
      split at h
      · exact h
      · exact ih h (Nat.le_of_succ_le_succ hle)
      · exact h

/-- More steps change nothing about a read that returns. -/
theorem read_mono {fuel fuel' : Nat} {res : Except IoError Bytes × BodyReader}
    (h : b.read fuel cap = some res) (hle : fuel ≤ fuel') : b.read fuel' cap = some res := by
  rw [BodyReader.read] at h ⊢
  split at h
  · rename_i hskip
    rwa [if_pos hskip]
  rename_i hskip
  rw [if_neg hskip]
  split at h
  · exact h
  · exact h
  · rw [BodyReader.readChunked] at h ⊢
    split at h
    · rename_i hleft
      rw [if_pos hleft]
      cases hline : nextLine fuel b.reader with
      | none =>
        rw [hline] at h
        cases h
      | some line =>
        rw [hline] at h
        rw [nextLine_mono hline hle]
        exact h
    · rename_i hleft
      rwa [if_neg hleft]

/-- Reading on neither causes nor cures a hang. -/
private theorem hangs_iff_of_took (h : Took b b' cap data) : Hangs b' ↔ Hangs b := by
  have hlen := congrArg List.length h.rest
  have hdata := h.length_le
  rw [List.length_append] at hlen
  have hdrop : b'.reader.rest.drop b'.chunkLeft = b.reader.rest.drop b.chunkLeft := by
    rw [h.rest, h.chunkLeft, List.drop_append, List.drop_of_length_le hdata, List.nil_append]
  have hle : b'.chunkLeft ≤ b'.reader.rest.length ↔ b.chunkLeft ≤ b.reader.rest.length := by
    rw [h.chunkLeft]
    omega
  constructor
  · rintro ⟨hin, hends⟩
    exact ⟨hle.mp hin, hdrop ▸ hends⟩
  · rintro ⟨hin, hends⟩
    exact ⟨hle.mpr hin, hdrop.symm ▸ hends⟩

private theorem hangs_iff_of_between (h : b.chunkLeft = 0) :
    Hangs b ↔ EndsBetween b.reader.rest := by
  constructor
  · rintro ⟨-, hends⟩
    rwa [h, List.drop_zero] at hends
  · intro hends
    refine ⟨by rw [h]; exact Nat.zero_le _, ?_⟩
    rwa [h, List.drop_zero]

/-- A reader that will not hang. -/
def Safe (b : BodyReader) : Prop := b.done = true ∨ Open b ∧ ¬Hangs b

/-- A read of it returns, and it stays so. -/
theorem Safe.read (h : Safe b) (cap : Nat) : ∃ res b', (∃ bound, ∀ fuel, bound ≤ fuel →
    b.read fuel cap = some (res, b')) ∧ Safe b' := by
  rcases h with hdone | ⟨hopen, hsafe⟩
  · exact ⟨_, b, ⟨0, fun fuel _ => read_of_done hdone fuel cap⟩, Or.inl hdone⟩
  by_cases hcap : cap = 0
  · exact ⟨_, b, ⟨0, fun _ _ => if_pos (Or.inr hcap)⟩, Or.inr ⟨hopen, hsafe⟩⟩
  have hcap := Nat.pos_of_ne_zero hcap
  by_cases hleft : b.chunkLeft = 0
  · rw [hangs_iff_of_between hleft] at hsafe
    cases hscan : scanLine b.reader.rest with
    | none => exact absurd (.blank hscan) hsafe
    | some lines =>
      obtain ⟨line, more⟩ := lines
      obtain ⟨r, hclean, hrest, hloop⟩ := read_line hopen hcap hleft hscan
      cases hsize : chunkSize (Utf8.fromLossy line) with
      | error e =>
        refine ⟨.error e, { b with reader := r }, ⟨b.reader.rest.length + 1, fun fuel hfuel => ?_⟩,
          Or.inr ⟨⟨hopen.framing, hclean, hopen.notDone⟩, fun hangs => hsafe ?_⟩⟩
        · rw [hloop fuel hfuel, hsize]
        have hends := (hangs_iff_of_between (b := { b with reader := r }) hleft).mp hangs
        exact .bad hscan hsize (hrest ▸ hends)
      | ok size =>
        by_cases hzero : size = 0
        · refine ⟨.ok [], { b with reader := r, done := true },
            ⟨b.reader.rest.length + 1, fun fuel hfuel => ?_⟩, Or.inl rfl⟩
          rw [hloop fuel hfuel, hsize]
          exact if_pos hzero
        · have hpos := Nat.pos_of_ne_zero hzero
          obtain ⟨b₁, data, b', hread, hrest₁, hleft₁, htook, -⟩ :=
            read_next hopen hcap hleft hscan hsize hpos
          refine ⟨_, b', ⟨_, hread⟩, Or.inr ⟨htook.opened, fun hangs => hsafe ?_⟩⟩
          obtain ⟨hle, hends⟩ := (hangs_iff_of_took htook).mp hangs
          rw [hrest₁, hleft₁] at hle hends
          exact .chunk hscan hsize hpos hle hends
  · obtain ⟨data, b', hread, htook⟩ := read_inside hopen hcap (Nat.pos_of_ne_zero hleft)
    refine ⟨_, b', ⟨0, fun fuel _ => hread fuel⟩, Or.inr ⟨htook.opened, fun hangs => hsafe ?_⟩⟩
    exact (hangs_iff_of_took htook).mp hangs

/-- A safe body is read by any number of reads. -/
theorem Safe.reads (h : Safe b) (caps : List Nat) :
    ∃ bound, ∀ fuel, bound ≤ fuel → ∃ res, b.reads fuel caps = some res := by
  induction caps generalizing b with
  | nil => exact ⟨0, fun _ _ => ⟨_, rfl⟩⟩
  | cons cap caps ih =>
    obtain ⟨res, b', ⟨bound, hread⟩, hsafe⟩ := h.read cap
    obtain ⟨bound', hreads⟩ := ih hsafe
    refine ⟨max bound bound', fun fuel hfuel => ?_⟩
    obtain ⟨⟨more, b''⟩, hmore⟩ := hreads fuel (by omega)
    refine ⟨(res :: more, b''), ?_⟩
    rw [BodyReader.reads, hread fuel (by omega)]
    exact congrArg (· >>= fun p => some (res :: p.1, p.2)) hmore

/-- A safe body fills a buffer. -/
theorem Safe.readFull (h : Safe b) (want : Nat) (filled : Bytes) :
    ∃ bound, ∀ fuel, bound ≤ fuel → ∃ res, b.readFull fuel want filled = some res := by
  induction hk : want - filled.length using Nat.strong_induction_on generalizing b filled with
  | _ k ih =>
  by_cases hlt : filled.length < want
  · obtain ⟨res, b', ⟨bound, hread⟩, hsafe⟩ := h.read (want - filled.length)
    have hstep : ∀ fuel, bound ≤ fuel → b.readFull fuel want filled =
        match res with
        | .error e => some (.failed e, b')
        | .ok [] => some (.ended, b')
        | .ok (x :: xs) => b'.readFull fuel want (filled ++ x :: xs) := by
      intro fuel hfuel
      rw [BodyReader.readFull, if_pos hlt, hread fuel hfuel]
      split <;> rename_i heq <;> cases heq <;> rfl
    cases res with
    | error e => exact ⟨bound, fun fuel hfuel => ⟨_, hstep fuel hfuel⟩⟩
    | ok data =>
      cases data with
      | nil => exact ⟨bound, fun fuel hfuel => ⟨_, hstep fuel hfuel⟩⟩
      | cons x xs =>
        have hless : want - (filled ++ x :: xs).length < k := by
          rw [← hk, List.length_append, List.length_cons]
          omega
        obtain ⟨bound', hrest⟩ := ih _ hless hsafe (filled ++ x :: xs) rfl
        refine ⟨max bound bound', fun fuel hfuel => ?_⟩
        obtain ⟨res, hres⟩ := hrest fuel (by omega)
        exact ⟨res, (hstep fuel (by omega)).trans hres⟩
  · refine ⟨0, fun fuel _ => ⟨(.full filled, b), ?_⟩⟩
    rw [BodyReader.readFull, if_neg hlt]

/-- A read that returns at all returns what it returns in the end. -/
theorem read_eq_of_bound {res : Except IoError Bytes × BodyReader} {bound : Nat}
    (h : ∀ fuel, bound ≤ fuel → b.read fuel cap = some res) (fuel : Nat) :
    b.read fuel cap = none ∨ b.read fuel cap = some res := by
  cases hread : b.read fuel cap with
  | none => exact Or.inl rfl
  | some res' =>
    have hlater := read_mono hread (Nat.le_max_left fuel bound)
    rw [h _ (Nat.le_max_right fuel bound)] at hlater
    exact Or.inr hlater.symm

/-- A reader that hangs comes to the read that does not return, byte by byte. -/
theorem Hangs.reads (h : Hangs b) (hopen : Open b) :
    ∃ caps, ∀ fuel, b.reads fuel caps = none := by
  induction hk : b.reader.rest.length using Nat.strong_induction_on generalizing b with
  | _ k ih =>
  have hnext : ∀ {res b'}, (∃ bound, ∀ fuel, bound ≤ fuel → b.read fuel 1 = some (res, b')) →
      Hangs b' → Open b' → b'.reader.rest.length < k →
        ∃ caps, ∀ fuel, b.reads fuel caps = none := by
    rintro res b' ⟨bound, hread⟩ hangs hopen' hshort
    obtain ⟨caps, hcaps⟩ := ih _ hshort hangs hopen' rfl
    refine ⟨1 :: caps, fun fuel => ?_⟩
    rw [BodyReader.reads]
    rcases read_eq_of_bound hread fuel with hnone | hsome
    · rw [hnone]
      rfl
    · rw [hsome]
      exact congrArg (· >>= fun p => some (res :: p.1, p.2)) (hcaps fuel)
  by_cases hleft : b.chunkLeft = 0
  · have hends := (hangs_iff_of_between hleft).mp h
    cases hends with
    | blank hscan =>
      refine ⟨[1], fun fuel => ?_⟩
      rw [BodyReader.reads, read_blank hopen Nat.one_pos hleft hscan]
      rfl
    | @bad _ line more e hscan hsize hmore =>
      obtain ⟨r, hclean, hrest, hloop⟩ := read_line hopen Nat.one_pos hleft hscan
      have hangs : Hangs { b with reader := r } :=
        (hangs_iff_of_between (b := { b with reader := r }) hleft).mpr (hrest.symm ▸ hmore)
      have hread : ∀ fuel, b.reader.rest.length + 1 ≤ fuel →
          b.read fuel 1 = some (.error e, { b with reader := r }) := by
        intro fuel hfuel
        rw [hloop fuel hfuel, hsize]
      refine hnext ⟨_, hread⟩ hangs ⟨hopen.framing, hclean, hopen.notDone⟩ ?_
      rw [hrest, ← hk]
      exact scanLine_shorter hscan
    | @chunk _ line more size hscan hsize hpos hle hmore =>
      obtain ⟨b₁, data, b', hread, hrest₁, hleft₁, htook, -⟩ :=
        read_next hopen Nat.one_pos hleft hscan hsize hpos
      have hangs₁ : Hangs b₁ :=
        ⟨by rw [hleft₁, hrest₁]; exact hle, by rw [hleft₁, hrest₁]; exact hmore⟩
      refine hnext ⟨_, hread⟩ ((hangs_iff_of_took htook).mpr hangs₁) htook.opened ?_
      have hshort := scanLine_shorter hscan
      have hlen := congrArg List.length htook.rest
      rw [List.length_append, hrest₁] at hlen
      omega
  · obtain ⟨data, b', hread, htook⟩ := read_inside hopen Nat.one_pos (Nat.pos_of_ne_zero hleft)
    refine hnext ⟨0, fun fuel _ => hread fuel⟩ ((hangs_iff_of_took htook).mpr h) htook.opened ?_
    have hlen := congrArg List.length htook.rest
    have hin := h.hle
    rw [List.length_append] at hlen
    have hdata : data ≠ [] := fun he => by
      rw [htook.ended he] at hin
      exact hleft (Nat.le_zero.mp hin)
    have hpos := List.length_pos_of_ne_nil hdata
    omega

end Steps

/-- Every read of a chunked response returns, and so does filling a buffer from it. -/
structure Terminates (reader : BufReader) : Prop where
  reads : ∀ caps, ∃ fuel res, (intoBody reader .chunked).reads fuel caps = some res
  readFull : ∀ want, ∃ fuel res, (intoBody reader .chunked).readFull fuel want [] = some res

private theorem not_terminates_of_endsBetween {reader : BufReader} (hclean : reader.Clean)
    (h : EndsBetween reader.rest) : ¬Terminates reader := by
  intro hterminates
  have hangs : Hangs (intoBody reader .chunked) := (hangs_iff_of_between rfl).mpr h
  obtain ⟨caps, hcaps⟩ := hangs.reads ⟨rfl, hclean, rfl⟩
  obtain ⟨fuel, res, hres⟩ := hterminates.reads caps
  cases (hcaps fuel).symm.trans hres

/-- The reader of a chunked response terminates exactly if the response does not end where
a size line should stand. -/
theorem terminates_iff {reader : BufReader} (hclean : reader.Clean) :
    Terminates reader ↔ ¬EndsBetween reader.rest := by
  constructor
  · exact fun hterminates hends => not_terminates_of_endsBetween hclean hends hterminates
  · intro hends
    have hsafe : Safe (intoBody reader .chunked) :=
      Or.inr ⟨⟨rfl, hclean, rfl⟩, fun hangs => hends ((hangs_iff_of_between rfl).mp hangs)⟩
    constructor
    · intro caps
      obtain ⟨bound, hreads⟩ := hsafe.reads caps
      exact ⟨bound, hreads bound (Nat.le_refl bound)⟩
    · intro want
      obtain ⟨bound, hfull⟩ := hsafe.readFull want []
      exact ⟨bound, hfull bound (Nat.le_refl bound)⟩

/-- A response with a chunk of five bytes and the last chunk. -/
def helloReader : BufReader where
  buffered := []
  inner := [.piece 0x35 (crlf ++ [0x68, 0x65, 0x6c, 0x6c, 0x6f]),
    .piece 0x0d ([0x0a, 0x30] ++ crlf ++ crlf)]

/-- A response does not end between chunks if it goes on with the last one. -/
theorem not_endsBetween_of_last {w more : Bytes} (hscan : scanLine w = some ([0x30], more)) :
    ¬EndsBetween w := by
  have hzero : chunkSize (Utf8.fromLossy [0x30]) = .ok 0 := rfl
  intro hends
  cases hends with
  | blank hblank => cases hscan.symm.trans hblank
  | bad hline hsize _ =>
    cases hscan.symm.trans hline
    cases hzero.symm.trans hsize
  | chunk hline hsize hpos _ _ =>
    cases hscan.symm.trans hline
    cases hzero.symm.trans hsize
    exact Nat.lt_irrefl 0 hpos

/-- A body of one chunk ends. -/
theorem helloReader_terminates : Terminates helloReader := by
  have hclean : helloReader.Clean := by
    intro msg h
    simp [helloReader] at h
  refine (terminates_iff hclean).mpr fun hends => ?_
  have hscan : scanLine helloReader.rest = some ([0x35],
      [0x68, 0x65, 0x6c, 0x6c, 0x6f] ++ crlf ++ [0x30] ++ crlf ++ crlf) := by
    decide +kernel
  have hfive : chunkSize (Utf8.fromLossy [0x35]) = .ok 5 := rfl
  cases hends with
  | blank hblank => cases hscan.symm.trans hblank
  | bad hline hsize _ =>
    cases hscan.symm.trans hline
    cases hfive.symm.trans hsize
  | chunk hline hsize _ _ hmore =>
    cases hscan.symm.trans hline
    cases hfive.symm.trans hsize
    have hlast : scanLine (crlf ++ [0x30] ++ crlf ++ crlf) = some ([0x30], crlf) := by
      decide +kernel
    exact not_endsBetween_of_last hlast hmore

/-- Whole chunks of `n` bytes together, and then the end. -/
inductive WholeChunks : Bytes → Nat → Prop where
  | blank {w : Bytes} (hscan : scanLine w = none) : WholeChunks w 0
  | chunk {w line more : Bytes} {size n : Nat} (hscan : scanLine w = some (line, more))
      (hsize : chunkSize (Utf8.fromLossy line) = .ok size) (hpos : 0 < size)
      (hle : size ≤ more.length) (h : WholeChunks (more.drop size) n) : WholeChunks w (size + n)

/-- The same of a reader that may be inside a chunk. -/
structure FallsShort (b : BodyReader) (n : Nat) : Prop where
  opened : Open b
  hle : b.chunkLeft ≤ b.reader.rest.length
  whole : ∃ m, WholeChunks (b.reader.rest.drop b.chunkLeft) m ∧ n = b.chunkLeft + m

/-- Reading brings the early end nearer. -/
theorem FallsShort.took {b b' : BodyReader} {cap n : Nat} {data : Bytes} (h : FallsShort b n)
    (htook : Took b b' cap data) (hleft : 0 < b.chunkLeft) :
    FallsShort b' (n - data.length) ∧ data ≠ [] ∧ data.length ≤ n := by
  obtain ⟨-, hle, m, hm, rfl⟩ := h
  have hlen := congrArg List.length htook.rest
  have hdata := htook.length_le
  rw [List.length_append] at hlen
  refine ⟨⟨htook.opened, ?_, m, ?_, ?_⟩, ?_, by omega⟩
  · rw [htook.chunkLeft]
    omega
  · rw [htook.rest, List.drop_append, List.drop_of_length_le hdata, List.nil_append] at hm
    rwa [htook.chunkLeft]
  · rw [htook.chunkLeft]
    omega
  · rintro rfl
    rw [htook.ended rfl] at hle
    exact absurd hle (Nat.not_le.mpr hleft)

/-- Filling a buffer that needs more than the whole chunks that came never ends. -/
theorem FallsShort.readFull {b : BodyReader} {n : Nat} (h : FallsShort b n) {want : Nat}
    {filled : Bytes} (hlt : filled.length + n < want) (fuel : Nat) :
    b.readFull fuel want filled = none := by
  induction hk : want - filled.length using Nat.strong_induction_on generalizing b n filled with
  | _ k ih =>
  have hcap : 0 < want - filled.length := by omega
  have hnext : ∀ {b₁ b' : BodyReader} {data : Bytes}, FallsShort b₁ n → 0 < b₁.chunkLeft →
      Took b₁ b' (want - filled.length) data →
      (∃ bound, ∀ fuel, bound ≤ fuel →
        b.read fuel (want - filled.length) = some (.ok data, b')) →
      b.readFull fuel want filled = none := by
    rintro b₁ b' data hb₁ hleft htook ⟨bound, hread⟩
    obtain ⟨hb', hne, hle⟩ := hb₁.took htook hleft
    rw [BodyReader.readFull, if_pos (by omega)]
    rcases read_eq_of_bound hread fuel with hnone | hsome
    · rw [hnone]
    · cases data with
      | nil => exact absurd rfl hne
      | cons x xs =>
        rw [hsome]
        have hlen : (filled ++ x :: xs).length = filled.length + (x :: xs).length :=
          List.length_append
        have hpos : 0 < (x :: xs).length := Nat.succ_pos _
        exact ih _ (by omega) hb' (by omega) rfl
  by_cases hleft : b.chunkLeft = 0
  · obtain ⟨m, hm, hn⟩ := h.whole
    rw [hleft, List.drop_zero] at hm
    rw [hleft, Nat.zero_add] at hn
    subst hn
    cases hm with
    | blank hscan =>
      rw [BodyReader.readFull, if_pos (by omega), read_blank h.opened hcap hleft hscan]
    | @chunk _ line more size m hscan hsize hpos hle hmore =>
      obtain ⟨b₁, data, b', hread, hrest₁, hleft₁, htook, hopen₁⟩ :=
        read_next h.opened hcap hleft hscan hsize hpos
      have hb₁ : FallsShort b₁ (size + m) :=
        ⟨hopen₁, by rw [hleft₁, hrest₁]; exact hle, m, by rw [hleft₁, hrest₁]; exact hmore,
          by rw [hleft₁]⟩
      exact hnext hb₁ (hleft₁ ▸ hpos) htook ⟨_, hread⟩
  · have hpos := Nat.pos_of_ne_zero hleft
    obtain ⟨data, b', hread, htook⟩ := read_inside h.opened hcap hpos
    exact hnext h hpos htook ⟨0, fun fuel _ => hread fuel⟩

/-- A response that was cut in front of its last size line. -/
def cutReader : BufReader where
  buffered := []
  inner := [.piece 0x35 (crlf ++ [0x68, 0x65, 0x6c, 0x6c, 0x6f] ++ crlf)]

private theorem cutReader_clean : cutReader.Clean := by
  intro msg h
  cases List.mem_singleton.mp h

private theorem cutReader_whole : WholeChunks cutReader.rest 5 := by
  have hne : [0x35] ≠ ([] : Bytes) := List.cons_ne_nil _ _
  have hscan := scanLine_line hne (by decide +kernel) ([0x68, 0x65, 0x6c, 0x6c, 0x6f] ++ crlf)
  have hsize : chunkSize (Utf8.fromLossy [0x35]) = .ok 5 := rfl
  have hend : WholeChunks (([0x68, 0x65, 0x6c, 0x6c, 0x6f] ++ crlf).drop 5) 0 :=
    .blank (scanLine_eq_none_iff.mpr (by decide +kernel))
  exact .chunk hscan hsize (by decide) (by decide) hend

/-- A stream of whole chunks ends between two of them. -/
theorem EndsBetween.of_whole {w : Bytes} {n : Nat} (h : WholeChunks w n) : EndsBetween w := by
  induction h with
  | blank hscan => exact .blank hscan
  | chunk hscan hsize hpos hle _ ih => exact .chunk hscan hsize hpos hle ih

/-- Reading it does not terminate, and neither does fetching a range of six bytes. -/
theorem cutReader_hangs : ¬Terminates cutReader ∧
    ∀ fuel, (intoBody cutReader .chunked).readFull fuel 6 [] = none := by
  constructor
  · exact not_terminates_of_endsBetween cutReader_clean (.of_whole cutReader_whole)
  · intro fuel
    have hshort : FallsShort (intoBody cutReader .chunked) 5 :=
      ⟨⟨rfl, cutReader_clean, rfl⟩, Nat.zero_le _, 5, cutReader_whole, rfl⟩
    exact hshort.readFull (by decide) fuel

end BootExtractor.Http
