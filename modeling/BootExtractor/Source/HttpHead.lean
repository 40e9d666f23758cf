import BootExtractor.Error
import BootExtractor.Source.HttpBody

/-!
# Heads of responses

The status line and the header lines in front of a body. A line ends where the transport
ends, too: only the blank line behind the headers tells that the head is complete.
-/

namespace BootExtractor.Http

/-- What a request can fail with. -/
inductive RequestError where
  | err (e : Error)
  /-- "bad status line: .." -/
  | badStatusLine (line : Str)
  /-- "read body: .." -/
  | readBody (e : IoError)
  deriving DecidableEq, Repr

/-- The header lines, names and values. -/
abbrev Headers := List (Str × Str)

/-- `read_line`: a header line without what ends it. -/
def readLine (r : BufReader) : Except RequestError Str × BufReader :=
  match r.readLine [] with
  | (.error msg, r) => (.error (.err (.http ("read header: ".toList ++ msg))), r)
  | (.ok [], r) => (.error (.err (.http "connection closed mid-header".toList)), r)
  | (.ok (b :: raw), r) => (.ok (Utf8.fromLossy (stripBreaks (b :: raw))), r)

/-- The header line at the front of the bytes to come, and what follows it. -/
def headLine (w : Bytes) : Option (Str × Bytes) :=
  if w = [] then none
  else some (Utf8.fromLossy (stripBreaks (splitLine w).1), (splitLine w).2)

private theorem splitLine_eq_nil {w : Bytes} : (splitLine w).1 = [] ↔ w = [] := by
  constructor
  · intro h
    by_contra hne
    have hsplit := splitLine_append w
    have hshort := splitLine_shorter hne
    rw [h, List.nil_append] at hsplit
    rw [hsplit] at hshort
    exact Nat.lt_irrefl _ hshort
  · rintro rfl
    rfl

/-- A line that is read is the next line of the head. -/
theorem readLine_ok {r r' : BufReader} {line : Str} (h : readLine r = (.ok line, r')) :
    headLine r.rest = some (line, r'.rest) := by
  unfold readLine at h
  split at h
  · cases h
  · cases h
  · rename_i b raw r₁ hread
    cases h
    obtain ⟨hline, hmore⟩ := BufReader.readLine_ok hread
    rw [List.nil_append] at hline
    have hne : r.rest ≠ [] := by
      intro he
      rw [he] at hline
      cases hline
    rw [headLine, if_neg hne, ← hmore, ← hline]

/-- Over a transport without failures every line there is is read. -/
theorem readLine_clean {r : BufReader} (h : r.Clean) {line : Str} {more : Bytes}
    (hline : headLine r.rest = some (line, more)) :
    ∃ r', readLine r = (.ok line, r') ∧ r'.Clean ∧ r'.rest = more := by
  obtain ⟨r', hread, hclean, hrest⟩ := BufReader.readLine_clean h []
  obtain ⟨hne, heq⟩ := Option.ite_none_left_eq_some.mp hline
  obtain ⟨rfl, rfl⟩ := Prod.mk.inj (Option.some.inj heq)
  refine ⟨r', ?_, hclean, hrest⟩
  unfold readLine
  rw [hread, List.nil_append]
  cases hraw : (splitLine r.rest).1 with
  | nil => exact absurd (splitLine_eq_nil.mp hraw) hne
  | cons b raw => rfl

private theorem headLine_shorter {w more : Bytes} {line : Str}
    (h : headLine w = some (line, more)) :
    more.length < w.length := by
  obtain ⟨hne, heq⟩ := Option.ite_none_left_eq_some.mp h
  obtain ⟨-, rfl⟩ := Prod.mk.inj (Option.some.inj heq)
  exact splitLine_shorter hne

/-- A header line cut at its first colon; without one it is skipped. -/
def fieldOf (line : Str) : Headers :=
  match Str.splitOnce (· == ':') line with
  | some (k, v) => [(Str.trim k, Str.trim v)]
  | none => []

/-- The loop of `read_head`, up to the blank line. -/
def readFields (r : BufReader) (headers : Headers) : Except RequestError Headers × BufReader :=
  match _h : readLine r with
  | (.error e, r) => (.error e, r)
  | (.ok [], r) => (.ok headers, r)
  | (.ok (c :: cs), r) => readFields r (headers ++ fieldOf (c :: cs))
termination_by r.rest.length
decreasing_by exact headLine_shorter (readLine_ok _h)

/-- `c.parse::<u16>()`. -/
def parseStatus (c : Str) : Option Nat := (Str.parseUsize c).filter (· < 2 ^ 16)

/-- `read_head`: the status and the headers, leaving the reader at the body. -/
def readHead (r : BufReader) : Except RequestError (Nat × Headers) × BufReader :=
  match readLine r with
  | (.error e, r) => (.error e, r)
  | (.ok line, r) =>
    match (Str.splitWhitespace line)[1]?.bind parseStatus with
    | none => (.error (.badStatusLine line), r)
    | some status =>
      match readFields r [] with
      | (.error e, r) => (.error e, r)
      | (.ok headers, r) => (.ok (status, headers), r)

/-- `header_of`: the first header of that name. -/
def headerOf (headers : Headers) (name : Str) : Option Str :=
  (headers.find? fun h => Str.eqIgnoreAsciiCase h.1 name).map Prod.snd

/-- `framing_of`. -/
def framingOf (headers : Headers) (status : Nat) : Framing :=
  if (headerOf headers "transfer-encoding".toList).any
      (Str.eqIgnoreAsciiCase · "chunked".toList) then .chunked
  else
    match (headerOf headers "content-length".toList).bind fun v => Str.parseUsize (Str.trim v) with
    | some len => .length len
    | none => if status = 204 ∨ status = 304 then .length 0 else .toEnd

end BootExtractor.Http
