import BootExtractor.Lib.Hex
import BootExtractor.Lib.Utf8
import BootExtractor.Source.BufReader

/-!
# Response bodies

The reader that turns the bytes of a response into those of its body. The loop that
skips blank lines in front of a chunk size has no bound of its own, so its reads take
`fuel` and give nothing when that runs out.
-/

namespace BootExtractor.Http

/-- What a read of a body can fail with. -/
inductive IoError where
  | transport (msg : Str)
  | badChunkSize (sizeHex : Str)
  deriving DecidableEq, Repr

/-- How the end of a body is known. -/
inductive Framing where
  | length (n : Nat)
  | chunked
  /-- Read until the connection closes. -/
  | toEnd
  deriving DecidableEq, Repr

/-- A body that is being read. -/
structure BodyReader where
  reader : BufReader
  framing : Framing
  /-- Remaining bytes for `length`. -/
  left : Nat
  /-- Remaining bytes in the current chunk for `chunked`. -/
  chunkLeft : Nat
  done : Bool

/-- `into_body`. -/
def intoBody (reader : BufReader) (framing : Framing) : BodyReader where
  reader := reader
  framing := framing
  left := match framing with
    | .length n => n
    | _ => 0
  chunkLeft := 0
  done := false

/-- Carriage return or line feed. -/
def isBreak (b : UInt8) : Bool := b == 10 || b == 13

/-- The end of a line. -/
def crlf : Bytes := [13, 10]

/-- A line without what ends it. -/
def stripBreaks (raw : Bytes) : Bytes := raw.rdropWhile isBreak

/-- `read_crlf_line`. -/
def readCrlfLine (r : BufReader) : Except IoError Str × BufReader :=
  match r.readLine [] with
  | (.error msg, r) => (.error (.transport msg), r)
  | (.ok raw, r) => (.ok (Utf8.fromLossy (stripBreaks raw)), r)

/-- The loop that skips a trailing CRLF from a prior chunk, at most `fuel` lines. -/
def nextLine : Nat → BufReader → Option (Except IoError Str × BufReader)
  | 0, _ => none
  | fuel + 1, r =>
    match readCrlfLine r with
    | (.error e, r) => some (.error e, r)
    | (.ok [], r) => nextLine fuel r
    | (.ok (c :: cs), r) => some (.ok (c :: cs), r)

/-- The number in a chunk-size line. -/
def chunkSize (line : Str) : Except IoError Nat :=
  let sizeHex := Str.trim ((Str.split ';' line).headD [])
  match Str.parseHex sizeHex with
  | some size => .ok size
  | none => .error (.badChunkSize sizeHex)

namespace BodyReader

/-- The part of `read_chunked` behind the chunk-size line. -/
def readData (b : BodyReader) (cap : Nat) : Except IoError Bytes × BodyReader :=
  match b.reader.read (min cap b.chunkLeft) with
  | (.error msg, r) => (.error (.transport msg), { b with reader := r })
  | (.ok data, r) => (.ok data, { b with reader := r, chunkLeft := b.chunkLeft - data.length })

/-- `read_chunked`. -/
def readChunked (fuel : Nat) (b : BodyReader) (cap : Nat) :
    Option (Except IoError Bytes × BodyReader) :=
  if b.chunkLeft = 0 then
    match nextLine fuel b.reader with
    | none => none
    | some (.error e, r) => some (.error e, { b with reader := r })
    | some (.ok line, r) =>
      match chunkSize line with
      | .error e => some (.error e, { b with reader := r })
      | .ok size =>
        if size = 0 then some (.ok [], { b with reader := r, done := true })
        else some (readData { b with reader := r, chunkLeft := size } cap)
  else some (b.readData cap)

/-- `Read::read` with a buffer of `cap` bytes. -/
def read (fuel : Nat) (b : BodyReader) (cap : Nat) :
    Option (Except IoError Bytes × BodyReader) :=
  if b.done ∨ cap = 0 then some (.ok [], b)
  else
    match b.framing with
    | .length _ =>
      if b.left = 0 then some (.ok [], { b with done := true })
      else
        match b.reader.read (min cap b.left) with
        | (.error msg, r) => some (.error (.transport msg), { b with reader := r })
        | (.ok data, r) =>
          some (.ok data, { b with
            reader := r, done := data.isEmpty, left := b.left - data.length })
    | .toEnd =>
      match b.reader.read cap with
      | (.error msg, r) => some (.error (.transport msg), { b with reader := r })
      | (.ok data, r) => some (.ok data, { b with reader := r, done := data.isEmpty })
    | .chunked => b.readChunked fuel cap

/-- A read with a buffer for each of `caps`, one after the other. -/
def reads (fuel : Nat) : BodyReader → List Nat → Option (List (Except IoError Bytes) × BodyReader)
  | b, [] => some ([], b)
  | b, cap :: caps => do
    let (res, b) ← b.read fuel cap
    let (more, b) ← reads fuel b caps
    some (res :: more, b)

/-- A run of reads that begins with a read. -/
theorem reads_cons {fuel cap : Nat} {caps : List Nat} {b b' b'' : BodyReader}
    {res : Except IoError Bytes} {more : List (Except IoError Bytes)}
    (h : b.read fuel cap = some (res, b')) (hmore : reads fuel b' caps = some (more, b'')) :
    reads fuel b (cap :: caps) = some (res :: more, b'') := by
  simp only [reads, h, hmore, Option.bind_eq_bind, Option.bind_some]

/-- What `read_full` returns. -/
inductive Filled where
  | full (buf : Bytes)
  /-- "body ended before expected length" -/
  | ended
  /-- "read body: .." -/
  | failed (e : IoError)
  deriving DecidableEq, Repr

/-- `read_full`: read until the buffer of `want` bytes is full; `filled` is what is in it. -/
def readFull (fuel : Nat) (b : BodyReader) (want : Nat) (filled : Bytes) :
    Option (Filled × BodyReader) :=
  if filled.length < want then
    match b.read fuel (want - filled.length) with
    | none => none
    | some (.error e, b) => some (.failed e, b)
    | some (.ok [], b) => some (.ended, b)
    | some (.ok (x :: xs), b) => readFull fuel b want (filled ++ x :: xs)
  else some (.full filled, b)
termination_by want - filled.length
decreasing_by simp only [List.length_append, List.length_cons]; omega

end BodyReader

/-- A line takes at least one byte. -/
theorem splitLine_shorter {w : Bytes} (h : w ≠ []) : (splitLine w).2.length < w.length := by
  have hsplit := congrArg List.length (splitLine_append w)
  have hpos : 0 < (splitLine w).1.length := by
    cases w with
    | nil => exact absurd rfl h
    | cons b bs =>
      rw [splitLine]
      split <;> exact Nat.succ_pos _
  rw [List.length_append] at hsplit
  omega

/-- The next line that is not blank, and what follows it. -/
def scanLine (w : Bytes) : Option (Bytes × Bytes) :=
  if _h : w = [] then none
  else if stripBreaks (splitLine w).1 = [] then scanLine (splitLine w).2
  else some (stripBreaks (splitLine w).1, (splitLine w).2)
termination_by w.length
decreasing_by exact splitLine_shorter _h

/-- A line is empty exactly if it is made of breaks. -/
theorem stripBreaks_eq_nil {raw : Bytes} : stripBreaks raw = [] ↔ ∀ b ∈ raw, isBreak b = true :=
  List.rdropWhile_eq_nil_iff

/-- Line breaks to the end hold no line. -/
theorem scanLine_eq_none_iff {w : Bytes} : scanLine w = none ↔ ∀ b ∈ w, isBreak b = true := by
  induction hk : w.length using Nat.strong_induction_on generalizing w with
  | _ k ih =>
  rw [scanLine]
  split
  · rename_i h
    simp [h]
  · rename_i hne
    have hsplit := splitLine_append w
    split
    · rename_i hblank
      rw [ih _ (hk ▸ splitLine_shorter hne) rfl]
      have hall := stripBreaks_eq_nil.mp hblank
      constructor
      · intro h b hb
        rw [← hsplit, List.mem_append] at hb
        exact hb.elim (hall b) (h b)
      · intro h b hb
        exact h b (by rw [← hsplit]; exact List.mem_append_right _ hb)
    · rename_i hline
      refine ⟨fun h => (by cases h), fun h => absurd (stripBreaks_eq_nil.mpr fun b hb => ?_) hline⟩
      exact h b (by rw [← hsplit]; exact List.mem_append_left _ hb)

/-- A line that is found takes at least one byte. -/
theorem scanLine_shorter {w line more : Bytes} (h : scanLine w = some (line, more)) :
    more.length < w.length := by
  induction hk : w.length using Nat.strong_induction_on generalizing w with
  | _ k ih =>
  rw [scanLine] at h
  split at h
  · cases h
  rename_i hne
  have hshort := splitLine_shorter hne
  split at h
  · have hmore := ih _ (hk ▸ hshort) h rfl
    omega
  · cases h
    omega

/-- A line ends at its break. -/
theorem splitLine_text {text : Bytes} (hline : ∀ b ∈ text, isBreak b = false) (more : Bytes) :
    splitLine (text ++ (crlf ++ more)) = (text ++ crlf, more) := by
  have hten : 10 ∉ text := fun h => by cases hline 10 h
  rw [splitLine_of_notMem hten]
  rfl

/-- The break is taken off. -/
theorem stripBreaks_text {text : Bytes} (hline : ∀ b ∈ text, isBreak b = false) :
    stripBreaks (text ++ crlf) = text := by
  have hcrlf : text ++ crlf = text ++ [13] ++ [10] := by simp [crlf]
  rw [stripBreaks, hcrlf, List.rdropWhile_concat_pos _ _ _ rfl,
    List.rdropWhile_concat_pos _ _ _ rfl, List.rdropWhile_eq_self_iff]
  intro h
  exact Bool.eq_false_iff.mp (hline _ (List.getLast_mem h))

/-- A line that is not empty is found. -/
theorem scanLine_line {text : Bytes} (hne : text ≠ []) (hline : ∀ b ∈ text, isBreak b = false)
    (more : Bytes) : scanLine (text ++ crlf ++ more) = some (text, more) := by
  rw [List.append_assoc, scanLine, dif_neg (by simp [hne]), splitLine_text hline,
    if_neg (by rw [stripBreaks_text hline]; exact hne), stripBreaks_text hline]

/-- An empty line is skipped. -/
theorem scanLine_crlf (w : Bytes) : scanLine (crlf ++ w) = scanLine w := by
  rw [scanLine, dif_neg (by simp [crlf])]
  exact if_pos rfl

section Reading

variable {r : BufReader}

private theorem readCrlfLine_clean (h : r.Clean) :
    ∃ r', readCrlfLine r = (.ok (Utf8.fromLossy (stripBreaks (splitLine r.rest).1)), r') ∧
      r'.Clean ∧ r'.rest = (splitLine r.rest).2 := by
  obtain ⟨r', hline, hclean, hrest⟩ := BufReader.readLine_clean h []
  refine ⟨r', ?_, hclean, hrest⟩
  rw [readCrlfLine, hline, List.nil_append]

/-- In front of nothing but line breaks the loop never ends. -/
theorem nextLine_none (h : r.Clean) (hscan : scanLine r.rest = none) (fuel : Nat) :
    nextLine fuel r = none := by
  induction fuel generalizing r with
  | zero => rfl
  | succ fuel ih =>
    obtain ⟨r', hline, hclean, hrest⟩ := readCrlfLine_clean h
    have hall := scanLine_eq_none_iff.mp hscan
    have hsplit := splitLine_append r.rest
    have hblank : stripBreaks (splitLine r.rest).1 = [] := by
      refine stripBreaks_eq_nil.mpr fun b hb => hall b ?_
      rw [← hsplit]
      exact List.mem_append_left _ hb
    rw [nextLine, hline, hblank]
    refine ih hclean (scanLine_eq_none_iff.mpr fun b hb => hall b ?_)
    rw [hrest] at hb
    rw [← hsplit]
    exact List.mem_append_right _ hb

/-- In front of a line that is not blank it ends with that line. -/
theorem nextLine_some (h : r.Clean) {line more : Bytes}
    (hscan : scanLine r.rest = some (line, more)) :
    ∃ r', r'.Clean ∧ r'.rest = more ∧
      ∀ fuel, r.rest.length < fuel → nextLine fuel r = some (.ok (Utf8.fromLossy line), r') := by
  induction hk : r.rest.length using Nat.strong_induction_on generalizing r with
  | _ k ih =>
  obtain ⟨r', hline, hclean, hrest⟩ := readCrlfLine_clean h
  rw [scanLine] at hscan
  split at hscan
  · cases hscan
  rename_i hne
  split at hscan
  · rename_i hblank
    have hshort := splitLine_shorter hne
    rw [← hrest] at hscan hshort
    obtain ⟨r'', hclean', hrest', hloop⟩ := ih _ (hk ▸ hshort) hclean hscan rfl
    refine ⟨r'', hclean', hrest', fun fuel hfuel => ?_⟩
    cases fuel with
    | zero => exact absurd hfuel (Nat.not_lt_zero _)
    | succ fuel =>
      rw [nextLine, hline, hblank]
      exact hloop fuel (by omega)
  · rename_i hnonblank
    cases hscan
    refine ⟨r', hclean, hrest, fun fuel hfuel => ?_⟩
    cases fuel with
    | zero => exact absurd hfuel (Nat.not_lt_zero _)
    | succ fuel =>
      rw [nextLine, hline]
      cases htext : Utf8.fromLossy (stripBreaks (splitLine r.rest).1) with
      | nil => exact absurd (Utf8.fromLossy_eq_nil.mp htext) hnonblank
      | cons c cs => rfl

end Reading

/-- A chunked body over a transport without failures that has not come to its end. -/
structure Open (b : BodyReader) : Prop where
  framing : b.framing = .chunked
  clean : b.reader.Clean
  notDone : b.done = false

/-- A read that took `data` out of the current chunk. -/
structure Took (b b' : BodyReader) (cap : Nat) (data : Bytes) : Prop where
  opened : Open b'
  rest : b.reader.rest = data ++ b'.reader.rest
  length_le_cap : data.length ≤ cap
  length_le : data.length ≤ b.chunkLeft
  chunkLeft : b'.chunkLeft = b.chunkLeft - data.length
  ended : data = [] → b.reader.rest = []

section Bodies

variable {b : BodyReader} {cap : Nat}

private theorem readData_took (h : Open b) (hcap : 0 < cap) (hleft : 0 < b.chunkLeft) :
    ∃ data b', b.readData cap = (.ok data, b') ∧ Took b b' cap data := by
  have hwant : 0 < min cap b.chunkLeft := Nat.lt_min.mpr ⟨hcap, hleft⟩
  obtain ⟨data, r, hread, hclean, hrest, hlen, hended⟩ := BufReader.read_clean h.clean hwant
  refine ⟨data, { b with reader := r, chunkLeft := b.chunkLeft - data.length }, ?_, ?_⟩
  · rw [BodyReader.readData, hread]
  · exact ⟨⟨h.framing, hclean, h.notDone⟩, hrest, hlen.trans (Nat.min_le_left _ _),
      hlen.trans (Nat.min_le_right _ _), rfl, hended⟩

/-- A body that is done gives nothing. -/
theorem read_of_done (h : b.done = true) (fuel cap : Nat) :
    b.read fuel cap = some (.ok [], b) :=
  if_pos (Or.inl h)

private theorem read_of_open (h : Open b) (hcap : 0 < cap) (fuel : Nat) :
    b.read fuel cap = b.readChunked fuel cap := by
  have hskip : ¬(b.done = true ∨ cap = 0) := by
    rw [h.notDone]
    simp only [Bool.false_eq_true, false_or]
    exact Nat.ne_of_gt hcap
  rw [BodyReader.read, if_neg hskip, h.framing]

/-- Inside a chunk. -/
theorem read_inside (h : Open b) (hcap : 0 < cap) (hleft : 0 < b.chunkLeft) :
    ∃ data b', (∀ fuel, b.read fuel cap = some (.ok data, b')) ∧ Took b b' cap data := by
  obtain ⟨data, b', hread, htook⟩ := readData_took h hcap hleft
  refine ⟨data, b', fun fuel => ?_, htook⟩
  rw [read_of_open h hcap, BodyReader.readChunked, if_neg (Nat.ne_of_gt hleft), hread]

/-- Between chunks, with no line to come. -/
theorem read_blank (h : Open b) (hcap : 0 < cap) (hleft : b.chunkLeft = 0)
    (hscan : scanLine b.reader.rest = none) (fuel : Nat) : b.read fuel cap = none := by
  rw [read_of_open h hcap, BodyReader.readChunked, if_pos hleft, nextLine_none h.clean hscan]

/-- Between chunks, in front of a line. -/
theorem read_line (h : Open b) (hcap : 0 < cap) (hleft : b.chunkLeft = 0) {line more : Bytes}
    (hscan : scanLine b.reader.rest = some (line, more)) :
    ∃ r, r.Clean ∧ r.rest = more ∧ ∀ fuel, b.reader.rest.length < fuel →
      b.read fuel cap = match chunkSize (Utf8.fromLossy line) with
        | .error e => some (.error e, { b with reader := r })
        | .ok size =>
          if size = 0 then some (.ok [], { b with reader := r, done := true })
          else some (BodyReader.readData { b with reader := r, chunkLeft := size } cap) := by
  obtain ⟨r, hclean, hrest, hloop⟩ := nextLine_some h.clean hscan
  refine ⟨r, hclean, hrest, fun fuel hfuel => ?_⟩
  rw [read_of_open h hcap, BodyReader.readChunked, if_pos hleft, hloop fuel hfuel]

/-- In front of the size line of a chunk that is not empty, a read takes from that chunk. -/
theorem read_next (h : Open b) (hcap : 0 < cap) (hleft : b.chunkLeft = 0) {line more : Bytes}
    (hscan : scanLine b.reader.rest = some (line, more)) {size : Nat}
    (hsize : chunkSize (Utf8.fromLossy line) = .ok size) (hpos : 0 < size) :
    ∃ b₁ data b', (∀ fuel, b.reader.rest.length < fuel → b.read fuel cap = some (.ok data, b')) ∧
      b₁.reader.rest = more ∧ b₁.chunkLeft = size ∧ Took b₁ b' cap data ∧ Open b₁ := by
  obtain ⟨r, hclean, hrest, hloop⟩ := read_line h hcap hleft hscan
  have hopen : Open { b with reader := r, chunkLeft := size } := ⟨h.framing, hclean, h.notDone⟩
  obtain ⟨data, b', hread, htook⟩ := readData_took hopen hcap hpos
  refine ⟨_, data, b', fun fuel hfuel => ?_, hrest, rfl, htook, hopen⟩
  rw [hloop fuel hfuel, hsize]
  exact (if_neg (Nat.ne_of_gt hpos)).trans (congrArg some hread)

end Bodies

end BootExtractor.Http
