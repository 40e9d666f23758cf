import BootExtractor.Source.HttpBody

/-!
# Chunked transfer coding

What a server may send for a body, and that reading it gives the body back. Where the
transport cuts the bytes, where the chunks end and how large the buffers of the caller
are have nothing to do with each other.
-/

namespace BootExtractor.Http

/-- The number of a chunk-size line with its spelling, and the extension behind a `;`. -/
structure SizeLine where
  first : Str.HexDigit
  more : List Str.HexDigit
  ext : Option Bytes
  ext_line : ∀ e ∈ ext, ∀ b ∈ e, isBreak b = false

namespace SizeLine

/-- The digits of the size. -/
def digits (l : SizeLine) : List Str.HexDigit := l.first :: l.more

/-- The number itself. -/
def value (l : SizeLine) : Nat := Str.hexValue (l.digits.map fun d => d.value.val)

/-- The line without its end. -/
def text (l : SizeLine) : Bytes :=
  l.digits.map (fun d => UInt8.ofNat d.char.toNat) ++
    match l.ext with
    | none => []
    | some e => 0x3b :: e

end SizeLine

/-- A chunk. Its length is a 64-bit number, since its size line has to say it. -/
structure Chunk where
  size : SizeLine
  data : Bytes
  data_ne_nil : data ≠ []
  size_eq : size.value = data.length
  length_lt : data.length < 2 ^ 64

/-- A chunk as it is sent. -/
def Chunk.bytes (c : Chunk) : Bytes := c.size.text ++ crlf ++ c.data ++ crlf

/-- A body cut into chunks, the line of the last chunk, and whatever follows that line. -/
structure ChunkedBody where
  chunks : List Chunk
  last : SizeLine
  last_eq : last.value = 0
  trailer : Bytes

namespace ChunkedBody

/-- The body itself. -/
def data (body : ChunkedBody) : Bytes := body.chunks.flatMap Chunk.data

/-- What the server sends. -/
def encode (body : ChunkedBody) : Bytes :=
  body.chunks.flatMap Chunk.bytes ++ (body.last.text ++ crlf ++ body.trailer)

variable (c : Chunk) (cs : List Chunk) (last : SizeLine) (hlast : last.value = 0) (trailer : Bytes)

/-- The data of a body, chunk by chunk. -/
theorem data_cons :
    data ⟨c :: cs, last, hlast, trailer⟩ = c.data ++ data ⟨cs, last, hlast, trailer⟩ :=
  List.flatMap_cons

/-- The bytes of a body, chunk by chunk. -/
theorem encode_cons : encode ⟨c :: cs, last, hlast, trailer⟩ =
    c.size.text ++ crlf ++ (c.data ++ (crlf ++ encode ⟨cs, last, hlast, trailer⟩)) := by
  simp only [encode, List.flatMap_cons, Chunk.bytes, List.append_assoc]

end ChunkedBody

section Lines

variable {l : SizeLine}

private theorem hexDigit_byte (d : Str.HexDigit) :
    UInt8.ofNat d.char.toNat < 0x80 ∧ Char.ofNat (UInt8.ofNat d.char.toNat).toNat = d.char ∧
      isBreak (UInt8.ofNat d.char.toNat) = false ∧ Str.isWhitespace d.char = false ∧
      d.char ≠ ';' := by
  obtain ⟨value, upper⟩ := d
  revert value upper
  decide

/-- A size line holds no break. -/
theorem SizeLine.text_line (l : SizeLine) : ∀ b ∈ l.text, isBreak b = false := by
  intro b hb
  rcases List.mem_append.mp hb with hb | hb
  · obtain ⟨d, _, rfl⟩ := List.mem_map.mp hb
    exact (hexDigit_byte d).2.2.1
  · cases he : l.ext with
    | none =>
      rw [he] at hb
      exact absurd hb List.not_mem_nil
    | some e =>
      rw [he] at hb
      rcases List.mem_cons.mp hb with rfl | hb
      · rfl
      · exact l.ext_line e he b hb

/-- A size line is not empty. -/
theorem SizeLine.text_ne_nil (l : SizeLine) : l.text ≠ [] := by
  intro h
  cases (List.append_eq_nil_iff.mp h).1

/-- The text of a size line up to its extension is its digits. -/
theorem SizeLine.split_text (l : SizeLine) :
    (Str.split ';' (Utf8.fromLossy l.text)).headD [] = l.digits.map Str.HexDigit.char := by
  have hascii : ∀ b ∈ l.digits.map (fun d => UInt8.ofNat d.char.toNat), b < 0x80 := by
    intro b hb
    obtain ⟨d, _, rfl⟩ := List.mem_map.mp hb
    exact (hexDigit_byte d).1
  have hchars : (l.digits.map fun d => UInt8.ofNat d.char.toNat).map
      (fun b => Char.ofNat b.toNat) = l.digits.map Str.HexDigit.char := by
    rw [List.map_map]
    exact List.map_congr_left fun d _ => (hexDigit_byte d).2.1
  have hnone : ';' ∉ l.digits.map Str.HexDigit.char := by
    intro h
    obtain ⟨d, _, hd⟩ := List.mem_map.mp h
    exact (hexDigit_byte d).2.2.2.2 hd
  rw [SizeLine.text, Utf8.fromLossy_ascii_append hascii, hchars, Str.split]
  cases l.ext with
  | none =>
    have hempty : Utf8.fromLossy [] = [] := rfl
    simp only [hempty, List.append_nil]
    rw [List.splitOn_eq_singleton hnone]
    rfl
  | some e =>
    have hsemi : Utf8.fromLossy (0x3b :: e) = ';' :: Utf8.fromLossy e := by
      refine Utf8.fromLossy_ascii_append (p := [0x3b]) (fun b hb => ?_) e
      rw [List.mem_singleton.mp hb]
      decide
    simp only [hsemi]
    have hbeq : ∀ c ∈ l.digits.map Str.HexDigit.char, (c == ';') = false := by
      intro c hc
      exact beq_eq_false_iff_ne.mpr fun he => hnone (he ▸ hc)
    rw [List.splitOn_append_cons_of_forall_mem_beq_eq_false hbeq ';' rfl]
    rfl

/-- The decoder reads the number that the line spells. -/
theorem SizeLine.chunkSize_text (l : SizeLine) (h : l.value < 2 ^ 64) :
    chunkSize (Utf8.fromLossy l.text) = .ok l.value := by
  have hspace : ∀ c ∈ l.digits.map Str.HexDigit.char, Str.isWhitespace c = false := by
    intro c hc
    obtain ⟨d, _, rfl⟩ := List.mem_map.mp hc
    exact (hexDigit_byte d).2.2.2.1
  have htrim := Str.trim_eq_self hspace
  have hparse := Str.parseHex_chars l.first l.more h
  simp only [chunkSize, l.split_text, htrim]
  rw [SizeLine.digits, hparse]
  rfl

end Lines

/-- The reader still has `coming` to deliver: it has come to the end, or it is in front of
the rest of a chunk (with nothing left of it: of its line break, or of the next size
line) and of further chunks. -/
inductive Coming : BodyReader → Bytes → Prop where
  | done {b : BodyReader} (hdone : b.done = true) : Coming b []
  | chunk {b : BodyReader} {data sep : Bytes} {body : ChunkedBody} (hopen : Open b)
      (hsep : sep = [] ∨ sep = crlf) (hleft : b.chunkLeft = data.length)
      (hrest : b.reader.rest = data ++ (sep ++ body.encode)) : Coming b (data ++ body.data)

/-- What one read makes of what is coming. -/
structure Delivered (b : BodyReader) (cap : Nat) (coming out : Bytes) : Prop where
  reads : ∃ b' coming', (∀ fuel, b.reader.rest.length < fuel →
    b.read fuel cap = some (.ok out, b')) ∧ coming = out ++ coming' ∧ Coming b' coming'
  ended : out = [] → coming = []

/-- Taking some of a chunk leaves the rest of it. -/
theorem delivered_of_took {b b₁ b' : BodyReader} {cap : Nat} {out data sep : Bytes}
    {body : ChunkedBody} (hread : ∀ fuel, b.reader.rest.length < fuel →
      b.read fuel cap = some (.ok out, b'))
    (htook : Took b₁ b' cap out) (hdata : data ≠ []) (hsep : sep = [] ∨ sep = crlf)
    (hleft : b₁.chunkLeft = data.length) (hrest : b₁.reader.rest = data ++ (sep ++ body.encode)) :
    Delivered b cap (data ++ body.data) out := by
  have hprefix : out <+: data := by
    refine @List.prefix_of_prefix_length_le _ _ _ b₁.reader.rest ?_ ?_ ?_
    · exact ⟨_, htook.rest.symm⟩
    · exact ⟨_, hrest.symm⟩
    · exact hleft ▸ htook.length_le
  obtain ⟨more, hmore⟩ := hprefix
  have hlen : data.length = out.length + more.length := by rw [← hmore, List.length_append]
  constructor
  · refine ⟨b', more ++ body.data, hread, ?_, .chunk htook.opened hsep ?_ ?_⟩
    · rw [← hmore, List.append_assoc]
    · rw [htook.chunkLeft, hleft, hlen, Nat.add_sub_cancel_left]
    · have hboth : out ++ b'.reader.rest = out ++ (more ++ (sep ++ body.encode)) := by
        rw [← htook.rest, hrest, ← hmore, List.append_assoc]
      exact List.append_cancel_left hboth
  · intro hout
    have hempty := htook.ended hout
    rw [hrest] at hempty
    exact absurd (List.append_eq_nil_iff.mp hempty).1 hdata

/-- One read delivers some of what is coming, and nothing only at its end. -/
theorem Coming.read {b : BodyReader} {coming : Bytes} (h : Coming b coming) {cap : Nat}
    (hcap : 0 < cap) : ∃ out, Delivered b cap coming out := by
  cases h with
  | done hdone =>
    exact ⟨[], ⟨b, [], fun fuel _ => read_of_done hdone fuel cap, rfl, .done hdone⟩, fun _ => rfl⟩
  | @chunk data sep body hopen hsep hleft hrest =>
    cases data with
    | cons x xs =>
      have hpos : 0 < b.chunkLeft := by
        rw [hleft]
        exact Nat.succ_pos _
      obtain ⟨out, b', hread, htook⟩ := read_inside hopen hcap hpos
      exact ⟨out, delivered_of_took (fun fuel _ => hread fuel) htook (List.cons_ne_nil x xs) hsep
        hleft hrest⟩
    | nil =>
      -- the line break of the chunk before is skipped only now
      have hscan : scanLine b.reader.rest = scanLine body.encode := by
        rw [hrest, List.nil_append]
        rcases hsep with rfl | rfl
        · rfl
        · exact scanLine_crlf _
      obtain ⟨chunks, last, hlast, trailer⟩ := body
      cases chunks with
      | nil =>
        rw [ChunkedBody.encode, List.flatMap_nil, List.nil_append,
          scanLine_line last.text_ne_nil last.text_line] at hscan
        obtain ⟨r, hclean, _, hloop⟩ := read_line hopen hcap hleft hscan
        have hsize : chunkSize (Utf8.fromLossy last.text) = .ok 0 := by
          rw [last.chunkSize_text (by rw [hlast]; decide), hlast]
        refine ⟨[],
          ⟨{ b with reader := r, done := true }, [], fun fuel hfuel => ?_, rfl, .done rfl⟩,
          fun _ => rfl⟩
        rw [hloop fuel hfuel, hsize]
        rfl
      | cons c cs =>
        rw [ChunkedBody.encode_cons, scanLine_line c.size.text_ne_nil c.size.text_line] at hscan
        have hsize : chunkSize (Utf8.fromLossy c.size.text) = .ok c.data.length := by
          rw [c.size.chunkSize_text (by rw [c.size_eq]; exact c.length_lt), c.size_eq]
        have hpos : 0 < c.data.length := List.length_pos_of_ne_nil c.data_ne_nil
        obtain ⟨b₁, out, b', hread, hrest₁, hleft₁, htook, -⟩ :=
          read_next hopen hcap hleft hscan hsize hpos
        rw [List.nil_append, ChunkedBody.data_cons]
        exact ⟨out, delivered_of_took hread htook c.data_ne_nil (Or.inr rfl) hleft₁ hrest₁⟩

/-- What a run of reads delivers of what is coming. -/
structure ReadsBack (b : BodyReader) (caps : List Nat) (coming : Bytes) (outs : List Bytes) :
    Prop where
  /-- Every read returns, with these bytes. -/
  returns : ∃ bound b', ∀ fuel, bound ≤ fuel → b.reads fuel caps = some (outs.map .ok, b')
  isPrefix : outs.flatten <+: coming
  whole : coming.length ≤ caps.length → outs.flatten = coming
  /-- Behind the whole body there is nothing more to read. -/
  later : ∀ i, (outs.take i).flatten = coming → ∀ out ∈ outs.drop i, out = []

/-- Reading goes through what is coming. -/
theorem Coming.reads {b : BodyReader} {coming : Bytes} (h : Coming b coming) {caps : List Nat}
    (hcaps : ∀ cap ∈ caps, 0 < cap) : ∃ outs : List Bytes, (∃ bound b', ∀ fuel, bound ≤ fuel →
      b.reads fuel caps = some (outs.map .ok, b')) ∧ outs.flatten <+: coming ∧
        (coming.length ≤ caps.length → outs.flatten = coming) := by
  induction caps generalizing b coming with
  | nil =>
    refine ⟨[], ⟨0, b, fun _ _ => rfl⟩, List.nil_prefix, fun hlen => ?_⟩
    exact (List.length_eq_zero_iff.mp (Nat.le_zero.mp hlen)).symm
  | cons cap caps ih =>
    obtain ⟨out, ⟨b', coming', hread, hsplit, hcoming⟩, hended⟩ :=
      h.read (hcaps cap (List.mem_cons_self ..))
    obtain ⟨outs, ⟨bound, b'', hreads⟩, ⟨more, hmore⟩, hwhole⟩ :=
      ih hcoming fun c hc => hcaps c (List.mem_cons_of_mem _ hc)
    refine ⟨out :: outs, ⟨max bound (b.reader.rest.length + 1), b'', fun fuel hfuel => ?_⟩, ?_, ?_⟩
    · exact BodyReader.reads_cons (hread fuel (by omega)) (hreads fuel (by omega))
    · refine ⟨more, ?_⟩
      rw [hsplit, ← hmore, List.flatten_cons, List.append_assoc]
    · intro hlen
      rw [List.flatten_cons, hsplit]
      congr 1
      apply hwhole
      have hlength := congrArg List.length hsplit
      rw [List.length_append] at hlength
      cases out with
      | nil =>
        rw [hended rfl] at hlength
        have : coming'.length = 0 := by
          simpa using hlength.symm
        omega
      | cons x xs =>
        rw [List.length_cons] at hlength hlen
        omega

/-- Decoding undoes encoding, wherever the transport cuts the bytes and however large the
buffers are. -/
theorem reads_chunked (body : ChunkedBody) {reader : BufReader} (hclean : reader.Clean)
    (hrest : reader.rest = body.encode) {caps : List Nat} (hcaps : ∀ cap ∈ caps, 0 < cap) :
    ∃ outs, ReadsBack (intoBody reader .chunked) caps body.data outs := by
  have hcoming : Coming (intoBody reader .chunked) ([] ++ body.data) :=
    .chunk ⟨rfl, hclean, rfl⟩ (Or.inl rfl) rfl hrest
  obtain ⟨outs, hreturns, hprefix, hwhole⟩ := hcoming.reads hcaps
  refine ⟨outs, hreturns, hprefix, hwhole, fun i hi out hout => ?_⟩
  rw [List.nil_append, ← hi] at hprefix
  have hsplit := congrArg List.flatten (List.take_append_drop i outs)
  rw [List.flatten_append] at hsplit
  have hlen := hprefix.length_le
  rw [← hsplit, List.length_append] at hlen
  have hnil : (outs.drop i).flatten = [] := List.length_eq_zero_iff.mp (by omega)
  exact List.flatten_eq_nil_iff.mp hnil out hout

/-- Two bytes in one chunk, with an extension on its size line. -/
def twoBytes : ChunkedBody where
  chunks :=
    [⟨⟨⟨2, false⟩, [], some [0x78], by decide +kernel⟩, [97, 98], by decide, rfl, by decide⟩]
  last := ⟨⟨0, false⟩, [⟨0, true⟩], none, by decide⟩
  last_eq := rfl
  trailer := crlf

/-- The bytes of that response, cut in the middle of the chunk. -/
def twoBytesReader : BufReader where
  buffered := [0x32, 0x3b]
  inner := [.piece 0x78 [13, 10, 97], .piece 98 [13], .piece 10 [0x30, 0x30, 13, 10, 13, 10]]

/-- A body of one chunk, read with three buffers. -/
theorem reads_chunked_two_bytes :
    ∃ outs, ReadsBack (intoBody twoBytesReader .chunked) [1, 5, 3] [97, 98] outs :=
  reads_chunked twoBytes (by intro msg h; simp [twoBytesReader] at h) rfl (by decide)

end BootExtractor.Http
