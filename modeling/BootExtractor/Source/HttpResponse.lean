import BootExtractor.Lib.Alternation
import BootExtractor.Source.HttpChunked
import BootExtractor.Source.HttpHead

/-!
# Responses as a server sends them

A response with its fields, one of three framings of its body, and the range it is about.
The head of whatever a connection delivers of it is read back, or it is not complete.
-/

namespace BootExtractor.Http

/-- An ASCII text on the wire. -/
def asciiBytes (s : Str) : Bytes := s.map fun c => UInt8.ofNat c.toNat

/-- A visible ASCII character. -/
def isVisible (c : Char) : Bool := 0x20 < c.toNat && c.toNat < 0x7f

/-- A header field; its value may have blanks around it. -/
structure HeaderField where
  name : Str
  value : Bytes
  name_ne_nil : name ≠ []
  name_visible : ∀ c ∈ name, isVisible c
  name_colon : ':' ∉ name
  value_line : ∀ b ∈ value, isBreak b = false

namespace HeaderField

/-- The field is called so; the case of letters does not matter. -/
def Named (f : HeaderField) (name : Str) : Prop := Str.eqIgnoreAsciiCase f.name name

/-- The header line, without its break. -/
def line (f : HeaderField) : Bytes := asciiBytes f.name ++ 0x3a :: f.value

/-- The header line as it is sent. -/
def bytes (f : HeaderField) : Bytes := f.line ++ crlf

/-- The value is this text, with blanks around it. -/
def HasText (f : HeaderField) (text : Str) : Prop :=
  ∃ before after : Str, (∀ c ∈ before ++ after, c = ' ' ∨ c = '\t') ∧
    f.value = asciiBytes (before ++ text ++ after)

/-- The field as a pair of texts. -/
def entry (f : HeaderField) : Str × Str := (f.name, Str.trim (Utf8.fromLossy f.value))

end HeaderField

/-- A body in one of the three framings. -/
inductive Body where
  | length (data : Bytes)
  | chunked (body : ChunkedBody)
  /-- Up to the end of the connection. -/
  | close (data : Bytes)

/-- The body itself. -/
def Body.data : Body → Bytes
  | .length data => data
  | .chunked body => body.data
  | .close data => data

/-- The body on the wire. -/
def Body.wire : Body → Bytes
  | .length data => data
  | .chunked body => body.encode
  | .close data => data

/-- A response as a server sends it. -/
structure Response where
  minor : Fin 10
  status : Nat
  reason : Bytes
  fields : List HeaderField
  body : Body
  status_lt : status < 1000
  reason_line : ∀ b ∈ reason, isBreak b = false

namespace Response

/-- The status line, without its break. -/
def statusLine (r : Response) : Bytes :=
  asciiBytes ("HTTP/1.".toList ++ Str.dec r.minor ++ ' ' :: (Str.dec r.status ++ [' '])) ++ r.reason

/-- What the server sends. -/
def encode (r : Response) : Bytes :=
  r.statusLine ++ (crlf ++ (r.fields.flatMap HeaderField.bytes ++ (crlf ++ r.body.wire)))

/-- The headers as the code lists them. -/
def headers (r : Response) : Headers := r.fields.map HeaderField.entry

/-- No field is called so. -/
def Lacks (r : Response) (name : Str) : Prop := ∀ f ∈ r.fields, ¬f.Named name

/-- There is a field of that name, and all of them say something of the kind. -/
structure Declares (r : Response) (name : Str) (kind : Str → Prop) : Prop where
  exists_field : ∃ f ∈ r.fields, f.Named name
  text : ∀ f ∈ r.fields, f.Named name → ∃ text, kind text ∧ f.HasText text

/-- The fields say how the body is framed. -/
def Framed (r : Response) : Prop :=
  match r.body with
  | .length data => r.Lacks "transfer-encoding".toList ∧
      r.Declares "content-length".toList fun text =>
        ∃ zeros, text = List.replicate zeros '0' ++ Str.dec data.length
  | .chunked _ => r.Declares "transfer-encoding".toList fun text =>
      Str.eqIgnoreAsciiCase text "chunked".toList
  | .close _ => r.Lacks "transfer-encoding".toList ∧ r.Lacks "content-length".toList

/-- The body is the bytes `first` to `last` of the blob, as `Content-Range` says. -/
structure Sends (r : Response) (blob : Bytes) (first last : Nat) : Prop where
  range : r.Declares "content-range".toList fun text => ∃ unit total,
    Str.eqIgnoreAsciiCase unit "bytes".toList ∧
      text = unit ++ ' ' :: (Str.dec first ++ '-' :: (Str.dec last ++ '/' :: total))
  first_le : first ≤ last
  last_lt : last < blob.length
  data : r.body.data = Bytes.slice blob first (last + 1 - first)

/-- A partial response has a framing and sends the range it names. -/
def Conforms (r : Response) (blob : Bytes) : Prop :=
  r.status = 206 → r.Framed ∧ ∃ first last, r.Sends blob first last

end Response

section Ascii

/-- The visible characters, by their codes. -/
theorem isVisible_iff {c : Char} : isVisible c ↔ 0x20 < c.toNat ∧ c.toNat < 0x7f := by
  simp only [isVisible, Bool.and_eq_true, decide_eq_true_eq]

/-- A visible character is no blank. -/
theorem not_isWhitespace_of_isVisible {c : Char} (h : isVisible c) :
    Str.isWhitespace c = false := by
  rw [isVisible_iff] at h
  simp only [Str.isWhitespace, Bool.or_eq_false_iff, Bool.and_eq_false_iff, decide_eq_false_iff_not]
  omega

/-- A digit is visible. -/
theorem isVisible_of_isDigit {c : Char} (h : c.isDigit = true) : isVisible c := by
  simp only [Char.isDigit, Bool.and_eq_true, decide_eq_true_eq, ge_iff_le, UInt32.le_iff_toNat_le]
    at h
  rw [isVisible_iff]
  exact ⟨Nat.lt_of_lt_of_le (by decide) h.1, Nat.lt_of_le_of_lt h.2 (by decide)⟩

/-- A spelling of a visible word is visible. -/
theorem isVisible_of_spelling {text word : Str} (h : Str.eqIgnoreAsciiCase text word)
    (hword : ∀ x ∈ Str.toAsciiLowercase word, isVisible x) : ∀ c ∈ text, isVisible c := by
  intro c hc
  have hlower : c.toLower ∈ Str.toAsciiLowercase word := by
    rw [← beq_iff_eq.mp h]
    exact List.mem_map_of_mem hc
  by_cases hupper : c.val ≥ 'A'.val ∧ c.val ≤ 'Z'.val
  · have hlo : 65 ≤ c.toNat := hupper.1
    have hhi : c.toNat ≤ 90 := hupper.2
    rw [isVisible_iff]
    omega
  · have hsame : c.toLower = c := dif_neg hupper
    exact hword c (hsame ▸ hlower)

private theorem asciiBytes_append (a b : Str) :
    asciiBytes (a ++ b) = asciiBytes a ++ asciiBytes b :=
  List.map_append

/-- An ASCII text is decoded as it was written, whatever follows. -/
theorem fromLossy_asciiBytes {s : Str} (h : ∀ c ∈ s, c.toNat < 0x80) (more : Bytes) :
    Utf8.fromLossy (asciiBytes s ++ more) = s ++ Utf8.fromLossy more := by
  have hchar : ∀ c ∈ s, (UInt8.ofNat c.toNat).toNat = c.toNat := by
    intro c hc
    exact UInt8.toNat_ofNat_of_lt (Nat.lt_trans (h c hc) (by decide))
  have hbytes : ∀ b ∈ asciiBytes s, b < 0x80 := by
    intro b hb
    obtain ⟨c, hc, rfl⟩ := List.mem_map.mp hb
    rw [UInt8.lt_iff_toNat_lt, hchar c hc]
    exact h c hc
  have hback : (asciiBytes s).map (fun b => Char.ofNat b.toNat) = s := by
    rw [asciiBytes, List.map_map]
    refine (List.map_congr_left fun c hc => ?_).trans (List.map_id s)
    change Char.ofNat (UInt8.ofNat c.toNat).toNat = c
    rw [hchar c hc, Char.ofNat_toNat]
  rw [Utf8.fromLossy_ascii_append hbytes, hback]

/-- Plain text holds no break. -/
private theorem not_isBreak_of_isVisible {s : Str} (h : ∀ c ∈ s, isVisible c ∨ c = ' ') :
    ∀ b ∈ asciiBytes s, isBreak b = false := by
  intro b hb
  obtain ⟨c, hc, rfl⟩ := List.mem_map.mp hb
  have hrange : 0x20 ≤ c.toNat ∧ c.toNat < 0x7f := by
    rcases h c hc with hvisible | rfl
    · rw [isVisible_iff] at hvisible
      exact ⟨Nat.le_of_lt hvisible.1, hvisible.2⟩
    · decide
  have hnat : (UInt8.ofNat c.toNat).toNat = c.toNat :=
    UInt8.toNat_ofNat_of_lt (Nat.lt_trans hrange.2 (by decide))
  have hne : ∀ n : UInt8, n.toNat < 0x20 → (UInt8.ofNat c.toNat == n) = false := by
    intro n hn
    rw [beq_eq_false_iff_ne]
    rintro rfl
    omega
  rw [isBreak, hne 10 (by decide), hne 13 (by decide), Bool.or_false]

end Ascii

section Lines

variable {text w more w' : Bytes} {line : Str}

private theorem headLine_text (hne : text ≠ []) (hline : ∀ b ∈ text, isBreak b = false)
    (more : Bytes) :
    headLine (text ++ (crlf ++ more)) = some (Utf8.fromLossy text, more) := by
  rw [headLine, if_neg (by simp [hne]), splitLine_text hline, stripBreaks_text hline]

private theorem headLine_crlf (more : Bytes) : headLine (crlf ++ more) = some ([], more) := rfl

/-- A line of what a connection delivers is the whole line, or the last thing delivered. -/
theorem headLine_prefix (hline : ∀ b ∈ text, isBreak b = false)
    (hw : w <+: text ++ (crlf ++ more)) (h : headLine w = some (line, w')) :
    line = Utf8.fromLossy text ∧ w' <+: more ∨ w' = [] ∧ line ≠ [] := by
  obtain ⟨hne, heq⟩ := Option.ite_none_left_eq_some.mp h
  obtain ⟨rfl, rfl⟩ := Prod.mk.inj (Option.some.inj heq)
  by_cases hmem : 10 ∈ w
  · left
    obtain ⟨t, ht⟩ := hw
    have hsplit := splitLine_of_mem hmem t
    rw [ht, splitLine_text hline] at hsplit
    obtain ⟨hfirst, hrest⟩ := Prod.mk.inj hsplit
    rw [← hfirst, stripBreaks_text hline]
    exact ⟨rfl, t, hrest.symm⟩
  · have hsplit := splitLine_of_notMem hmem []
    rw [List.append_nil] at hsplit
    have hnil : splitLine [] = ([], []) := rfl
    rw [hsplit, hnil, List.append_nil]
    obtain ⟨b, bs, rfl⟩ := List.exists_cons_of_ne_nil hne
    cases text with
    | nil =>
      -- the transport ended inside the line break
      left
      obtain ⟨rfl, hbs⟩ := List.cons_prefix_cons.mp hw
      cases bs with
      | nil => exact ⟨rfl, List.nil_prefix⟩
      | cons c cs =>
        obtain ⟨rfl, -⟩ := List.cons_prefix_cons.mp hbs
        exact absurd (List.mem_cons_of_mem _ List.mem_cons_self) hmem
    | cons a as =>
      right
      obtain ⟨rfl, -⟩ := List.cons_prefix_cons.mp hw
      refine ⟨rfl, fun hempty => ?_⟩
      have hall := stripBreaks_eq_nil.mp (Utf8.fromLossy_eq_nil.mp hempty)
      have hbreak := hall b List.mem_cons_self
      rw [hline b List.mem_cons_self] at hbreak
      cases hbreak

end Lines

section Fields

/-- A header line holds no break. -/
theorem HeaderField.line_line (f : HeaderField) : ∀ b ∈ f.line, isBreak b = false := by
  intro b hb
  rcases List.mem_append.mp hb with hb | hb
  · exact not_isBreak_of_isVisible (fun c hc => Or.inl (f.name_visible c hc)) b hb
  · rcases List.mem_cons.mp hb with rfl | hb
    · rfl
    · exact f.value_line b hb

/-- A header line is not empty. -/
theorem HeaderField.line_ne_nil (f : HeaderField) : f.line ≠ [] := by
  intro h
  cases (List.append_eq_nil_iff.mp h).2

/-- A header line is cut into the name and the value of its field. -/
theorem fieldOf_line (f : HeaderField) : fieldOf (Utf8.fromLossy f.line) = [f.entry] := by
  have hascii : ∀ c ∈ f.name ++ [':'], c.toNat < 0x80 := by
    intro c hc
    rcases List.mem_append.mp hc with hc | hc
    · exact Nat.lt_trans (isVisible_iff.mp (f.name_visible c hc)).2 (by decide)
    · rw [List.mem_singleton.mp hc]
      decide
  have hline : f.line = asciiBytes (f.name ++ [':']) ++ f.value := by
    rw [asciiBytes_append, List.append_assoc]
    rfl
  have hcolon : ∀ c ∈ f.name, (c == ':') = false := by
    intro c hc
    exact beq_eq_false_iff_ne.mpr fun he => f.name_colon (he ▸ hc)
  rw [hline, fromLossy_asciiBytes hascii, List.append_assoc, List.singleton_append, fieldOf,
    Str.splitOnce_append hcolon (beq_self_eq_true _)]
  have htrim := Str.trim_eq_self fun c hc => not_isWhitespace_of_isVisible (f.name_visible c hc)
  simp only [htrim, HeaderField.entry]

/-- Where nothing more comes the head is not complete. -/
theorem readFields_end {r r' : BufReader} (hrest : r.rest = []) {found headers : Headers} :
    readFields r found ≠ (.ok headers, r') := by
  intro h
  rw [readFields] at h
  split at h
  · cases h
  all_goals
    rename_i hread
    have hline := readLine_ok hread
    rw [hrest] at hline
    cases hline

/-- Of the headers all are read, or reading them fails. -/
theorem readFields_prefix {fields : List HeaderField} {r r' : BufReader} {wire : Bytes}
    {found headers : Headers}
    (hsent : r.rest <+: fields.flatMap HeaderField.bytes ++ (crlf ++ wire))
    (h : readFields r found = (.ok headers, r')) :
    headers = found ++ fields.map HeaderField.entry ∧ r'.rest <+: wire := by
  induction fields generalizing r found with
  | nil =>
    have hblank : ∀ b ∈ ([] : Bytes), isBreak b = false := fun _ h => absurd h List.not_mem_nil
    rw [readFields] at h
    split at h
    · cases h
    · rename_i r₁ hread
      cases h
      obtain ⟨-, hmore⟩ | ⟨-, hne⟩ := headLine_prefix hblank hsent (readLine_ok hread)
      · exact ⟨(List.append_nil _).symm, hmore⟩
      · exact absurd rfl hne
    · rename_i c cs r₁ hread
      obtain ⟨hline, -⟩ | ⟨hend, -⟩ := headLine_prefix hblank hsent (readLine_ok hread)
      · cases hline
      · exact absurd h (readFields_end hend)
  | cons f fields ih =>
    rw [List.flatMap_cons, HeaderField.bytes, List.append_assoc, List.append_assoc] at hsent
    have hne : Utf8.fromLossy f.line ≠ [] := fun he => f.line_ne_nil (Utf8.fromLossy_eq_nil.mp he)
    rw [readFields] at h
    split at h
    · cases h
    · rename_i r₁ hread
      obtain ⟨hline, -⟩ | ⟨-, hne⟩ := headLine_prefix f.line_line hsent (readLine_ok hread)
      · exact absurd hline.symm hne
      · exact absurd rfl hne
    · rename_i c cs r₁ hread
      obtain ⟨hline, hmore⟩ | ⟨hend, -⟩ := headLine_prefix f.line_line hsent (readLine_ok hread)
      · obtain ⟨hheaders, hrest⟩ := ih hmore h
        rw [hline, fieldOf_line, List.append_assoc] at hheaders
        exact ⟨hheaders, hrest⟩
      · exact absurd h (readFields_end hend)

/-- Over a transport without failures the headers are read. -/
theorem readFields_clean {fields : List HeaderField} {r : BufReader} (hclean : r.Clean)
    {wire : Bytes}
    (hsent : r.rest = fields.flatMap HeaderField.bytes ++ (crlf ++ wire)) (found : Headers) :
    ∃ r', readFields r found = (.ok (found ++ fields.map HeaderField.entry), r') ∧ r'.Clean ∧
      r'.rest = wire := by
  induction fields generalizing r found with
  | nil =>
    rw [List.flatMap_nil, List.nil_append] at hsent
    obtain ⟨r', hread, hclean', hrest⟩ := readLine_clean hclean (hsent ▸ headLine_crlf wire)
    refine ⟨r', ?_, hclean', hrest⟩
    rw [readFields]
    split <;> rename_i heq <;> cases hread.symm.trans heq
    rw [List.map_nil, List.append_nil]
  | cons f fields ih =>
    rw [List.flatMap_cons, HeaderField.bytes, List.append_assoc, List.append_assoc] at hsent
    have hne : Utf8.fromLossy f.line ≠ [] := fun he => f.line_ne_nil (Utf8.fromLossy_eq_nil.mp he)
    obtain ⟨r₁, hread, hclean₁, hrest₁⟩ :=
      readLine_clean hclean (hsent ▸ headLine_text f.line_ne_nil f.line_line _)
    obtain ⟨r', hfields, hclean', hrest⟩ := ih hclean₁ hrest₁ (found ++ [f.entry])
    refine ⟨r', ?_, hclean', hrest⟩
    rw [readFields]
    split
    · rename_i heq
      cases hread.symm.trans heq
    · rename_i heq
      exact absurd (Except.ok.inj (Prod.mk.inj (hread.symm.trans heq)).1) hne
    · rename_i c cs r₂ heq
      obtain ⟨hok, rfl⟩ := Prod.mk.inj (hread.symm.trans heq)
      rw [← Except.ok.inj hok, fieldOf_line, hfields, List.append_assoc]
      rfl

end Fields

section Head

variable {resp : Response} {r r' : BufReader} {status : Nat} {headers : Headers}

private theorem isVisible_of_mem_version {resp : Response} :
    ∀ c ∈ "HTTP/1.".toList ++ Str.dec resp.minor, isVisible c := by
  have hhttp : ∀ c ∈ "HTTP/1.".toList, isVisible c := Str.forall_of_all rfl
  intro c hc
  rcases List.mem_append.mp hc with hc | hc
  · exact hhttp c hc
  · exact isVisible_of_isDigit (Str.isDigit_of_mem_dec hc)

private theorem isVisible_of_mem_status {resp : Response} :
    ∀ c ∈ Str.dec resp.status, isVisible c :=
  fun _ hc => isVisible_of_isDigit (Str.isDigit_of_mem_dec hc)

private theorem isVisible_of_mem_statusLine {resp : Response} : ∀ c ∈ "HTTP/1.".toList ++
    Str.dec resp.minor ++ ' ' :: (Str.dec resp.status ++ [' ']), isVisible c ∨ c = ' ' := by
  intro c hc
  rcases List.mem_append.mp hc with hc | hc
  · exact Or.inl (isVisible_of_mem_version c hc)
  rcases List.mem_cons.mp hc with hc | hc
  · exact Or.inr hc
  rcases List.mem_append.mp hc with hc | hc
  · exact Or.inl (isVisible_of_mem_status c hc)
  · exact Or.inr (List.mem_singleton.mp hc)

/-- The status line holds no break. -/
theorem Response.statusLine_line (resp : Response) : ∀ b ∈ resp.statusLine, isBreak b = false := by
  intro b hb
  rcases List.mem_append.mp hb with hb | hb
  · exact not_isBreak_of_isVisible isVisible_of_mem_statusLine b hb
  · exact resp.reason_line b hb

/-- The status line is not empty. -/
theorem Response.statusLine_ne_nil (resp : Response) : resp.statusLine ≠ [] := by
  intro h
  cases (List.append_eq_nil_iff.mp h).1

/-- The second word of the status line is the status. -/
theorem Response.status_word (resp : Response) :
    (Str.splitWhitespace (Utf8.fromLossy resp.statusLine))[1]?.bind parseStatus =
      some resp.status := by
  have hascii : ∀ c ∈ "HTTP/1.".toList ++ Str.dec resp.minor ++
      ' ' :: (Str.dec resp.status ++ [' ']), c.toNat < 0x80 := by
    intro c hc
    rcases isVisible_of_mem_statusLine c hc with hvisible | rfl
    · exact Nat.lt_trans (isVisible_iff.mp hvisible).2 (by decide)
    · decide
  have hversion : "HTTP/1.".toList ++ Str.dec resp.minor ≠ [] := by
    intro h
    cases (List.append_eq_nil_iff.mp h).1
  have hspace : Str.isWhitespace ' ' = true := rfl
  have hparse : parseStatus (Str.dec resp.status) = some resp.status := by
    have hlt := resp.status_lt
    rw [parseStatus, Str.parseUsize_dec (by omega), Option.filter_some, if_pos]
    exact decide_eq_true (by omega)
  rw [statusLine, fromLossy_asciiBytes hascii, List.append_assoc, List.cons_append,
    Str.splitWhitespace_word hversion
      (fun c hc => not_isWhitespace_of_isVisible (isVisible_of_mem_version c hc)) hspace,
    List.append_assoc, List.singleton_append, Str.splitWhitespace_word (Str.dec_ne_nil _)
      (fun c hc => not_isWhitespace_of_isVisible (isVisible_of_mem_status c hc)) hspace]
  exact hparse

/-- A head that is read is the one that was sent, also where the stream is cut. -/
theorem readHead_prefix (hsent : r.rest <+: resp.encode)
    (h : readHead r = (.ok (status, headers), r')) :
    status = resp.status ∧ headers = resp.headers ∧ r'.rest <+: resp.body.wire := by
  simp only [readHead] at h
  split at h
  · cases h
  · rename_i line r₁ hread
    split at h
    · cases h
    · rename_i status' hstatus
      split at h
      · cases h
      · rename_i hs r₂ hfields
        cases h
        obtain ⟨rfl, hmore⟩ | ⟨hend, -⟩ :=
          headLine_prefix resp.statusLine_line hsent (readLine_ok hread)
        · rw [resp.status_word] at hstatus
          obtain ⟨hheaders, hrest⟩ := readFields_prefix hmore hfields
          exact ⟨(Option.some.inj hstatus).symm, hheaders, hrest⟩
        · exact absurd hfields (readFields_end hend)

/-- A whole head is read. -/
theorem readHead_clean (hclean : r.Clean) (hsent : r.rest = resp.encode) :
    ∃ r', readHead r = (.ok (resp.status, resp.headers), r') ∧ r'.Clean ∧
      r'.rest = resp.body.wire := by
  rw [Response.encode] at hsent
  obtain ⟨r₁, hread, hclean₁, hrest₁⟩ :=
    readLine_clean hclean (hsent ▸ headLine_text resp.statusLine_ne_nil resp.statusLine_line _)
  obtain ⟨r', hfields, hclean', hrest⟩ := readFields_clean hclean₁ hrest₁ []
  refine ⟨r', ?_, hclean', hrest⟩
  simp only [readHead, hread, resp.status_word, hfields]
  rfl

end Head

end BootExtractor.Http
