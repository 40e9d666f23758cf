import BootExtractor.Source.RemoteStream

/-!
# Buffered transport

`std::io::BufReader` over a transport that delivers its bytes in pieces. What a caller
sees is the bytes to come; where the buffer ends only decides how many of them a read
returns.
-/

namespace BootExtractor.Http

open Remote

/-- The size of the buffer. -/
def capacity : Nat := 8192

/-- A buffer over a transport: what is in the buffer, and what the transport will still do. -/
structure BufReader where
  buffered : Bytes
  inner : Stream

namespace BufReader

/-- `fill_buf`: an empty buffer is filled with one read. -/
def fillBuf (r : BufReader) : Except Str Unit × BufReader :=
  match r.buffered with
  | _ :: _ => (.ok (), r)
  | [] =>
    match r.inner.read capacity with
    | (.error msg, inner) => (.error msg, ⟨[], inner⟩)
    | (.ok data, inner) => (.ok (), ⟨data, inner⟩)

/-- `Read::read`; a large read passes an empty buffer by. -/
def read (r : BufReader) (cap : Nat) : Except Str Bytes × BufReader :=
  if r.buffered = [] ∧ capacity ≤ cap then
    match r.inner.read cap with
    | (res, inner) => (res, ⟨[], inner⟩)
  else
    match r.fillBuf with
    | (.error msg, r) => (.error msg, r)
    | (.ok _, r) => (.ok (r.buffered.take cap), ⟨r.buffered.drop cap, r.inner⟩)

/-- The bytes to come. -/
def rest (r : BufReader) : Bytes := r.buffered ++ r.inner.bytes

end BufReader

/-- A line and what follows it; the line keeps its `\n`. -/
def splitLine : Bytes → Bytes × Bytes
  | [] => ([], [])
  | b :: bs => if b = 10 then ([b], bs) else (b :: (splitLine bs).1, (splitLine bs).2)

namespace BufReader

/-- A refill that succeeds changes nothing of what is to come. -/
private theorem fillBuf_ok {r r' : BufReader} (h : r.fillBuf = (.ok (), r')) :
    r'.rest = r.rest ∧ (r'.buffered = [] → r.rest = []) := by
  unfold fillBuf at h
  split at h
  · rename_i b bs hb
    cases h
    refine ⟨rfl, fun he => ?_⟩
    rw [hb] at he
    cases he
  · rename_i hb
    split at h
    · cases h
    · rename_i data inner hread
      cases h
      obtain ⟨hbytes, _⟩ := Stream.read_ok hread
      constructor
      · rw [rest, rest, hb, hbytes]
        rfl
      · rintro rfl
        rw [rest, hb, Stream.read_empty (by decide) hread]
        rfl

/-- `read_until(b'\n', ..)`: the line so far is `line`. -/
def readLine (r : BufReader) (line : Bytes) : Except Str Bytes × BufReader :=
  match _hfill : r.fillBuf with
  | (.error msg, r) => (.error msg, r)
  | (.ok _, r') =>
    match _hbuf : r'.buffered with
    | [] => (.ok line, r')
    | b :: bs =>
      if 10 ∈ b :: bs then
        (.ok (line ++ (splitLine (b :: bs)).1), ⟨(splitLine (b :: bs)).2, r'.inner⟩)
      else readLine ⟨[], r'.inner⟩ (line ++ b :: bs)
termination_by r.rest.length
decreasing_by
  rw [← (fillBuf_ok _hfill).1, rest, rest, _hbuf]
  simp only [List.nil_append, List.length_append, List.length_cons]
  omega

/-- A read that does not fail delivers some of the bytes to come. -/
theorem read_ok {r r' : BufReader} {cap : Nat} {data : Bytes} (h : r.read cap = (.ok data, r')) :
    r.rest = data ++ r'.rest ∧ data.length ≤ cap := by
  unfold read at h
  split at h
  · rename_i hlarge
    split at h
    rename_i res inner hread
    cases h
    obtain ⟨hbytes, hlen⟩ := Stream.read_ok hread
    exact ⟨by rw [rest, rest, hlarge.1, hbytes]; rfl, hlen⟩
  · split at h
    · cases h
    · rename_i u r₁ hfill
      cases h
      refine ⟨?_, List.length_take_le _ _⟩
      rw [← (fillBuf_ok hfill).1, rest, rest, ← List.append_assoc, List.take_append_drop]

/-- Nothing that the transport will still do is a failure. -/
def Clean (r : BufReader) : Prop := ∀ msg, StreamItem.ioError msg ∉ r.inner

end BufReader

section Stream

/-- A read of a stream without failures, and what is left of it. -/
theorem stream_read_clean {stream : Stream} (h : ∀ msg, StreamItem.ioError msg ∉ stream)
    (cap : Nat) : ∃ data more, stream.read cap = (.ok data, more) ∧
      ∀ msg, StreamItem.ioError msg ∉ more := by
  cases stream with
  | nil => exact ⟨[], [], rfl, h⟩
  | cons item more =>
    cases item with
    | ioError msg => exact absurd (List.mem_cons_self ..) (h msg)
    | piece b bs =>
      refine ⟨_, _, rfl, fun msg hmsg => ?_⟩
      split at hmsg
      · exact h msg (List.mem_cons_of_mem _ hmsg)
      · rcases List.mem_cons.mp hmsg with he | hmsg
        · cases he
        · exact h msg (List.mem_cons_of_mem _ hmsg)

/-- A line and what follows it make up the text. -/
theorem splitLine_append (w : Bytes) : (splitLine w).1 ++ (splitLine w).2 = w := by
  induction w with
  | nil => rfl
  | cons b bs ih =>
    rw [splitLine]
    split
    · rfl
    · exact congrArg (b :: ·) ih

/-- A line that ends in a text ends there in any longer one. -/
theorem splitLine_of_mem {w : Bytes} (h : 10 ∈ w) (more : Bytes) :
    splitLine (w ++ more) = ((splitLine w).1, (splitLine w).2 ++ more) := by
  induction w with
  | nil => exact absurd h List.not_mem_nil
  | cons b bs ih =>
    rw [List.cons_append, splitLine, splitLine]
    by_cases hb : b = 10
    · rw [if_pos hb, if_pos hb]
    · rw [if_neg hb, if_neg hb, ih ((List.mem_cons.mp h).resolve_left (Ne.symm hb))]

/-- A text without a line end is part of the line. -/
theorem splitLine_of_notMem {w : Bytes} (h : 10 ∉ w) (more : Bytes) :
    splitLine (w ++ more) = (w ++ (splitLine more).1, (splitLine more).2) := by
  induction w with
  | nil => rfl
  | cons b bs ih =>
    rw [List.mem_cons, not_or] at h
    rw [List.cons_append, splitLine, if_neg (Ne.symm h.1), ih h.2]
    rfl

end Stream

namespace BufReader

variable {r : BufReader}

/-- A line that is read without a failure is the first one of the bytes to come. -/
theorem readLine_ok {r' : BufReader} {line out : Bytes} (h : r.readLine line = (.ok out, r')) :
    out = line ++ (splitLine r.rest).1 ∧ r'.rest = (splitLine r.rest).2 := by
  induction hk : r.rest.length using Nat.strong_induction_on generalizing r line with
  | _ k ih =>
  rw [readLine] at h
  split at h
  · cases h
  · rename_i u r₁ hfill
    obtain ⟨hrest, hempty⟩ := fillBuf_ok hfill
    split at h
    · rename_i hbuf
      cases h
      rw [hrest, hempty hbuf, splitLine]
      exact ⟨(List.append_nil _).symm, rfl⟩
    · rename_i b bs hbuf
      have hsplit : r.rest = (b :: bs) ++ r₁.inner.bytes := by rw [← hrest, rest, hbuf]
      split at h
      · rename_i hmem
        cases h
        rw [hsplit, splitLine_of_mem hmem]
        exact ⟨rfl, rfl⟩
      · rename_i hmem
        have hlt : r₁.inner.bytes.length < k := by
          rw [← hk, hsplit, List.length_append, List.length_cons]
          omega
        obtain ⟨hout, hmore⟩ := ih _ hlt h rfl
        rw [hsplit, splitLine_of_notMem hmem, hout, hmore, List.append_assoc]
        exact ⟨rfl, rfl⟩

/-- A clean reader refills without a failure. -/
private theorem fillBuf_clean (h : r.Clean) :
    ∃ r', r.fillBuf = (.ok (), r') ∧ r'.Clean ∧ r'.rest = r.rest ∧
      (r'.buffered = [] → r.rest = []) := by
  have hfill : ∃ r', r.fillBuf = (.ok (), r') ∧ r'.Clean := by
    unfold fillBuf
    split
    · exact ⟨r, rfl, h⟩
    · obtain ⟨data, more, hread, hmore⟩ := stream_read_clean h capacity
      rw [hread]
      exact ⟨⟨data, more⟩, rfl, hmore⟩
  obtain ⟨r', hok, hclean⟩ := hfill
  exact ⟨r', hok, hclean, fillBuf_ok hok⟩

/-- A read delivers some of the bytes to come, and nothing only at their end. -/
theorem read_clean (h : r.Clean) {cap : Nat} (hcap : 0 < cap) :
    ∃ data r', r.read cap = (.ok data, r') ∧ r'.Clean ∧ r.rest = data ++ r'.rest ∧
      data.length ≤ cap ∧ (data = [] → r.rest = []) := by
  unfold read
  by_cases hlarge : r.buffered = [] ∧ capacity ≤ cap
  · rw [if_pos hlarge]
    obtain ⟨data, more, hread, hmore⟩ := stream_read_clean h cap
    obtain ⟨hbytes, hlen⟩ := Stream.read_ok hread
    rw [hread]
    refine ⟨data, ⟨[], more⟩, rfl, hmore, ?_, hlen, ?_⟩
    · rw [rest, rest, hlarge.1, hbytes]
      rfl
    · rintro rfl
      rw [rest, hlarge.1, Stream.read_empty hcap hread]
      rfl
  · rw [if_neg hlarge]
    obtain ⟨r', hfill, hclean, hrest, hempty⟩ := fillBuf_clean h
    rw [hfill]
    refine ⟨r'.buffered.take cap, ⟨r'.buffered.drop cap, r'.inner⟩, rfl, hclean, ?_,
      List.length_take_le _ _, fun htake => hempty ?_⟩
    · rw [← hrest, rest, rest, ← List.append_assoc, List.take_append_drop]
    · exact (List.take_eq_nil_iff.mp htake).resolve_left (Nat.ne_of_gt hcap)

/-- A clean reader reads its next line. -/
private theorem readLine_reads (h : r.Clean) (line : Bytes) :
    ∃ out r', r.readLine line = (.ok out, r') ∧ r'.Clean := by
  induction hk : r.rest.length using Nat.strong_induction_on generalizing r line with
  | _ k ih =>
  obtain ⟨r', hfill, hclean, hrest, -⟩ := fillBuf_clean h
  rw [readLine]
  split
  · rename_i hfail
    cases hfill.symm.trans hfail
  · rename_i u s hok
    cases hfill.symm.trans hok
    split
    · exact ⟨line, r', rfl, hclean⟩
    · rename_i b bs hbuf
      split
      · exact ⟨_, _, rfl, hclean⟩
      · have hlt : r'.inner.bytes.length < k := by
          rw [← hk, ← hrest, rest, hbuf, List.length_append, List.length_cons]
          omega
        exact ih _ hlt (r := ⟨[], r'.inner⟩) hclean (line ++ b :: bs) rfl

/-- A line is read up to its end, wherever the pieces end. -/
theorem readLine_clean (h : r.Clean) (line : Bytes) :
    ∃ r', r.readLine line = (.ok (line ++ (splitLine r.rest).1), r') ∧ r'.Clean ∧
      r'.rest = (splitLine r.rest).2 := by
  obtain ⟨out, r', hline, hclean⟩ := readLine_reads h line
  obtain ⟨rfl, hrest⟩ := readLine_ok hline
  exact ⟨r', hline, hclean, hrest⟩

end BufReader

end BootExtractor.Http
