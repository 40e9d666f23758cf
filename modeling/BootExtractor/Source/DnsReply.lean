import BootExtractor.Source.Dns

/-!
# Replies of a name server

Names, records and replies as they stand on the wire. The walk of the client stays at
the seams between the records, whatever their types and sizes are, and so it finds
every address.
-/

namespace BootExtractor.Dns

open Bytes

/-- A label: one to 63 bytes behind their number. -/
structure Label where
  bytes : Bytes
  pos : 0 < bytes.length
  le : bytes.length ≤ 63

/-- A label, after its length. -/
def Label.encode (l : Label) : Bytes := UInt8.ofNat l.bytes.length :: l.bytes

/-- What ends a name: the root, or a pointer to the rest of it. -/
inductive NameEnd where
  | root
  | pointer (offset : Fin (2 ^ 14))

/-- The zero byte, or a pointer to an earlier name. -/
def NameEnd.encode : NameEnd → Bytes
  | .root => [0]
  | .pointer offset => [UInt8.ofNat (0xc0 + offset / 256), UInt8.ofNat (offset % 256)]

/-- A name as a reply writes it. -/
structure Name where
  labels : List Label
  ending : NameEnd

/-- The bytes of a name. -/
def Name.encode (n : Name) : Bytes := n.labels.flatMap Label.encode ++ n.ending.encode

/-- A record of any type. -/
structure Record where
  owner : Name
  rtype : UInt16
  rclass : UInt16
  ttl : UInt32
  rdata : Bytes
  rdata_lt : rdata.length < 2 ^ 16

/-- The fixed fields between the name and the data. -/
def Record.fields (r : Record) : Bytes :=
  toBe 2 r.rtype.toNat ++ (toBe 2 r.rclass.toNat ++ toBe 4 r.ttl.toNat) ++ toBe 2 r.rdata.length

/-- The bytes of a record. -/
def Record.encode (r : Record) : Bytes := r.owner.encode ++ (r.fields ++ r.rdata)

/-- The address a record stands for. -/
def Record.address? (r : Record) : Option IpAddr :=
  if h : r.rtype.toNat = typeA ∧ r.rdata.length = 4 then some (.v4 ⟨r.rdata, h.2⟩)
  else if h : r.rtype.toNat = typeAaaa ∧ r.rdata.length = 16 then some (.v6 ⟨r.rdata, h.2⟩)
  else none

/-- A host name whose labels fit their length byte. -/
structure Hostname where
  text : Str
  labels_le : ∀ label ∈ text.splitOn '.', (Utf8.encode label).length ≤ 63

/-- A reply to a question of the client, with whatever follows the answers. -/
structure Reply where
  id : UInt16
  flags : UInt16
  host : Hostname
  qtype : UInt16
  answers : List Record
  answers_lt : answers.length < 2 ^ 16
  nscount : UInt16
  arcount : UInt16
  rest : Bytes

/-- The twelve bytes of the header. -/
def Reply.header (r : Reply) : Bytes :=
  toBe 2 r.id.toNat ++ toBe 2 r.flags.toNat ++ toBe 2 1 ++ toBe 2 r.answers.length ++
    toBe 2 r.nscount.toNat ++ toBe 2 r.arcount.toNat

/-- The question as `buildQuery` writes it. -/
def Reply.question (r : Reply) : Bytes :=
  writeName r.host.text ++ (toBe 2 r.qtype.toNat ++ toBe 2 1)

/-- The bytes of a reply. -/
def Reply.encode (r : Reply) : Bytes :=
  r.header ++ (r.question ++ (r.answers.flatMap Record.encode ++ r.rest))

section Seams

variable {buf : Bytes} {pos : Nat} {rest : Bytes}

private theorem drop_add {a : Bytes} (h : buf.drop pos = a ++ rest) :
    buf.drop (pos + a.length) = rest := by
  rw [← List.drop_drop, h, List.drop_left]

private theorem le_of_drop {a : Bytes} (h : buf.drop pos = a ++ rest) (hne : a ≠ []) :
    pos + a.length ≤ buf.length := by
  have hlen := congrArg List.length h
  have hpos := List.length_pos_iff.mpr hne
  rw [List.length_drop, List.length_append] at hlen
  omega

private theorem byteAt_of_drop {b : UInt8} (h : buf.drop pos = b :: rest) :
    byteAt buf pos = .ok b := by
  have hget : buf[pos]? = some b := by rw [← List.head?_drop, h, List.head?_cons]
  rw [byteAt, hget]

private theorem be16_of_drop {n : Nat} (h : buf.drop pos = toBe 2 n ++ rest) (hn : n < 2 ^ 16) :
    be16 buf pos = .ok n := by
  have hpair : toBe 2 n = [UInt8.ofNat (n / 256 % 256), UInt8.ofNat (n % 256)] := rfl
  have hfirst : buf.drop pos = UInt8.ofNat (n / 256 % 256) :: (UInt8.ofNat (n % 256) :: rest) := by
    rw [h, hpair]
    rfl
  have hsecond : buf.drop (pos + 1) = UInt8.ofNat (n % 256) :: rest :=
    @drop_add buf pos _ [_] hfirst
  rw [be16, byteAt_of_drop hfirst, byteAt_of_drop hsecond]
  exact congrArg Except.ok (hpair ▸ be_toBe hn)

private theorem octetsAt_of_drop {a : Bytes} {n : Nat} (h : buf.drop pos = a ++ rest)
    (hn : a.length = n)
    (hle : pos + n ≤ buf.length) : octetsAt n buf pos = .ok ⟨a, hn⟩ := by
  have hslice : slice buf pos n = a := by
    rw [slice, h, ← hn, List.take_left]
  rw [octetsAt_of_le hle]
  exact congrArg Except.ok (Subtype.ext hslice)

/-- A length byte is not zero, and no pointer. -/
theorem length_byte {n : Nat} (hpos : 0 < n) (hle : n ≤ 63) :
    UInt8.ofNat n ≠ 0 ∧ UInt8.ofNat n &&& 0xc0 ≠ 0xc0 ∧ (UInt8.ofNat n).toNat = n := by
  have hall : ∀ n < 64, 0 < n → UInt8.ofNat n ≠ 0 ∧ UInt8.ofNat n &&& 0xc0 ≠ 0xc0 ∧
      (UInt8.ofNat n).toNat = n := by decide
  exact hall n (Nat.lt_succ_of_le hle) hpos

private theorem pointer_byte (offset : Fin (2 ^ 14)) :
    UInt8.ofNat (0xc0 + offset / 256) ≠ 0 ∧ UInt8.ofNat (0xc0 + offset / 256) &&& 0xc0 = 0xc0 := by
  have hall : ∀ k < 64, UInt8.ofNat (0xc0 + k) ≠ 0 ∧ UInt8.ofNat (0xc0 + k) &&& 0xc0 = 0xc0 := by
    decide
  exact hall _ (Nat.div_lt_of_lt_mul (Nat.lt_of_lt_of_eq offset.isLt (by decide)))

/-- One pass of the loop steps over a label. -/
theorem skipNameLoop_label {l : Label} (fuel : Nat) (h : buf.drop pos = l.encode ++ rest) :
    skipNameLoop buf (fuel + 1) pos = skipNameLoop buf fuel (pos + l.encode.length) := by
  have hin := le_of_drop h (List.cons_ne_nil _ _)
  obtain ⟨hne, hno, hlen⟩ := length_byte l.pos l.le
  rw [skipNameLoop, if_pos (by rw [Label.encode, List.length_cons] at hin; omega),
    byteAt_of_drop (b := UInt8.ofNat l.bytes.length) h]
  simp only [bind, Except.bind]
  rw [if_neg hne, if_neg hno, hlen, Label.encode, List.length_cons, Nat.add_comm 1]

/-- The end of a name ends the loop. -/
theorem skipNameLoop_end {e : NameEnd} (fuel : Nat) (h : buf.drop pos = e.encode ++ rest) :
    skipNameLoop buf (fuel + 1) pos = .ok (pos + e.encode.length) := by
  have hne : e.encode ≠ [] := by cases e <;> exact List.cons_ne_nil _ _
  have hin := le_of_drop h hne
  have hpos := List.length_pos_iff.mpr hne
  rw [skipNameLoop, if_pos (by omega)]
  cases e with
  | root =>
    rw [byteAt_of_drop (b := 0) h]
    rfl
  | pointer offset =>
    obtain ⟨hzero, hpointer⟩ := pointer_byte offset
    rw [byteAt_of_drop (b := UInt8.ofNat (0xc0 + offset / 256)) h]
    simp only [bind, Except.bind]
    rw [if_neg hzero, if_pos hpointer]
    rfl

/-- A written name is skipped to its end. -/
private theorem skipNameLoop_name (labels : List Label) (e : NameEnd) (fuel : Nat)
    (h : buf.drop pos = labels.flatMap Label.encode ++ e.encode ++ rest)
    (hfuel : buf.length ≤ pos + fuel) :
    skipNameLoop buf fuel pos =
      .ok (pos + (labels.flatMap Label.encode ++ e.encode).length) := by
  induction labels generalizing pos fuel with
  | nil =>
    rw [List.flatMap_nil, List.nil_append] at h ⊢
    have hne : e.encode ≠ [] := by cases e <;> exact List.cons_ne_nil _ _
    have hin := le_of_drop h hne
    have hpos := List.length_pos_iff.mpr hne
    obtain ⟨fuel, rfl⟩ := Nat.exists_eq_succ_of_ne_zero (show fuel ≠ 0 by omega)
    exact skipNameLoop_end fuel h
  | cons l labels ih =>
    rw [List.flatMap_cons, List.append_assoc, List.append_assoc] at h
    have hin := le_of_drop h (List.cons_ne_nil _ _)
    have hpos : 0 < l.encode.length := Nat.succ_pos _
    obtain ⟨fuel, rfl⟩ := Nat.exists_eq_succ_of_ne_zero (show fuel ≠ 0 by omega)
    have hnext := drop_add h
    rw [← List.append_assoc] at hnext
    rw [skipNameLoop_label fuel h, ih fuel hnext (by omega)]
    simp only [List.flatMap_cons, List.length_append]
    rw [Nat.add_assoc, Nat.add_assoc l.encode.length]

/-- A name is skipped to its end. -/
theorem skipName_name (n : Name) (h : buf.drop pos = n.encode ++ rest) :
    skipName buf pos = .ok (pos + n.encode.length) :=
  skipNameLoop_name n.labels n.ending buf.length h (Nat.le_add_left _ _)

/-- The labels that a host name is written with. -/
theorem exists_labels (labels : List Str) (h : ∀ l ∈ labels, (Utf8.encode l).length ≤ 63) :
    ∃ written : List Label, labels.flatMap writeLabel = written.flatMap Label.encode := by
  induction labels with
  | nil => exact ⟨[], rfl⟩
  | cons l labels ih =>
    obtain ⟨written, hwritten⟩ := ih fun l' hl => h l' (List.mem_cons_of_mem _ hl)
    cases l with
    | nil => exact ⟨written, by rw [List.flatMap_cons, writeLabel, if_pos rfl, hwritten]; rfl⟩
    | cons c cs =>
      have hle := h _ List.mem_cons_self
      have hpos : 0 < (Utf8.encode (c :: cs)).length := by
        rw [Utf8.encode, List.flatMap_cons, List.length_append, String.length_utf8EncodeChar]
        exact Nat.add_pos_left (Char.utf8Size_pos c) _
      refine ⟨⟨Utf8.encode (c :: cs), hpos, hle⟩ :: written, ?_⟩
      rw [List.flatMap_cons, List.flatMap_cons, hwritten, writeLabel, if_neg (List.cons_ne_nil _ _),
        Nat.min_eq_left hle]
      rfl

/-- The name of the question is a name up to the root. -/
theorem exists_name (host : Hostname) : ∃ n : Name, writeName host.text = n.encode := by
  obtain ⟨written, hwritten⟩ := exists_labels _ host.labels_le
  exact ⟨⟨written, .root⟩, by rw [writeName, hwritten]; rfl⟩

private theorem skipName_writeName (host : Hostname)
    (h : buf.drop pos = writeName host.text ++ rest) :
    skipName buf pos = .ok (pos + (writeName host.text).length) := by
  obtain ⟨n, hn⟩ := exists_name host
  rw [hn] at h ⊢
  exact skipName_name n h

/-- The data of a record gives the address that the record stands for. -/
theorem addressAt_record (r : Record) (h : buf.drop pos = r.rdata ++ rest)
    (hle : pos + r.rdata.length ≤ buf.length) :
    addressAt buf r.rtype.toNat r.rdata.length pos = .ok r.address? := by
  rw [addressAt, Record.address?]
  split
  · rename_i ha
    rw [octetsAt_of_drop h ha.2 (ha.2 ▸ hle)]
    rfl
  · split
    · rename_i haaaa
      rw [octetsAt_of_drop h haaaa.2 (haaaa.2 ▸ hle)]
      rfl
    · rfl

/-- The fixed fields of a record take ten bytes. -/
theorem Record.length_fields (r : Record) : r.fields.length = 10 := by
  simp only [fields, List.length_append, length_toBe]

/-- Type and data size are read where the record has them. -/
theorem be16_fields (r : Record) (h : buf.drop pos = r.fields ++ rest) :
    be16 buf pos = .ok r.rtype.toNat ∧ be16 buf (pos + 8) = .ok r.rdata.length := by
  have hfront : (toBe 2 r.rtype.toNat ++ (toBe 2 r.rclass.toNat ++ toBe 4 r.ttl.toNat)).length =
      8 := by
    simp only [List.length_append, length_toBe]
  rw [Record.fields, List.append_assoc] at h
  have hlen := drop_add h
  rw [hfront] at hlen
  rw [List.append_assoc] at h
  exact ⟨be16_of_drop h r.rtype.toNat_lt, be16_of_drop hlen r.rdata_lt⟩

/-- One pass of the walk takes the address of a record and ends behind the record. -/
theorem answersLoop_record (r : Record) (n : Nat) (out : List IpAddr)
    (h : buf.drop pos = r.encode ++ rest) :
    answersLoop buf (n + 1) pos out =
      answersLoop buf n (pos + r.encode.length) (out ++ r.address?.toList) := by
  rw [Record.encode, List.append_assoc, List.append_assoc] at h
  have hskip := skipName_name r.owner h
  have hfields := drop_add h
  have hdata := drop_add hfields
  obtain ⟨htype, hlen⟩ := be16_fields r hfields
  have hten := r.length_fields
  have hin : pos + r.owner.encode.length + (10 + r.rdata.length) ≤ buf.length := by
    have hne : r.fields ++ r.rdata ≠ [] := by
      rw [← List.length_pos_iff, List.length_append, hten]
      exact Nat.add_pos_left (by decide) _
    rw [← List.append_assoc] at hfields
    have hle := le_of_drop hfields hne
    rwa [List.length_append, hten] at hle
  rw [hten] at hdata
  have haddress := addressAt_record r hdata (by omega)
  rw [answersLoop, hskip]
  simp only [bind, Except.bind]
  rw [if_neg (by omega), htype, hlen]
  simp only
  rw [if_neg (by omega), haddress]
  simp only [Record.encode, List.length_append, hten, Nat.add_assoc]

/-- The walk over any number of records, by induction on the records. -/
theorem answersLoop_records (records : List Record) (out : List IpAddr)
    (h : buf.drop pos = records.flatMap Record.encode ++ rest) :
    answersLoop buf records.length pos out =
      .ok (out ++ records.filterMap Record.address?) := by
  induction records generalizing pos out with
  | nil =>
    rw [List.filterMap_nil, List.append_nil]
    rfl
  | cons r records ih =>
    rw [List.flatMap_cons, List.append_assoc] at h
    rw [List.length_cons, answersLoop_record r _ out h, ih _ (drop_add h), List.append_assoc]
    cases haddress : r.address? with
    | none => rw [List.filterMap_cons_none haddress]; rfl
    | some ip => rw [List.filterMap_cons_some haddress]; rfl

end Seams

/-- The addresses of a reply are those of its records, in their order. -/
theorem parseAnswers_encode (r : Reply) :
    parseAnswers r.encode = .ok (r.answers.filterMap Record.address?) := by
  have hheader : r.header.length = 12 := by
    simp only [Reply.header, List.length_append, length_toBe]
  have hquestion : r.encode.drop 12 =
      r.question ++ (r.answers.flatMap Record.encode ++ r.rest) := by
    rw [Reply.encode, ← hheader, List.drop_left]
  have hcount : be16 r.encode 6 = .ok r.answers.length := by
    have hsix : (toBe 2 r.id.toNat ++ toBe 2 r.flags.toNat ++ toBe 2 1).length = 6 := by
      simp only [List.length_append, length_toBe]
    have hsplit : r.encode = (toBe 2 r.id.toNat ++ toBe 2 r.flags.toNat ++ toBe 2 1) ++
        (toBe 2 r.answers.length ++ (toBe 2 r.nscount.toNat ++ (toBe 2 r.arcount.toNat ++
          (r.question ++ (r.answers.flatMap Record.encode ++ r.rest))))) := by
      simp only [Reply.encode, Reply.header, List.append_assoc]
    exact be16_of_drop (by rw [hsplit, List.drop_left' hsix]) r.answers_lt
  have hlong : ¬ r.encode.length < 12 := by
    rw [Reply.encode, List.length_append, hheader]
    omega
  have hname := hquestion
  rw [Reply.question, List.append_assoc] at hname
  have hskip := skipName_writeName r.host hname
  have hanswers := drop_add (drop_add hname)
  rw [List.length_append, length_toBe, length_toBe] at hanswers
  rw [parseAnswers, if_neg hlong, hcount, hskip]
  simp only [bind, Except.bind]
  rw [answersLoop_records r.answers [] hanswers, List.nil_append]

/-- What `buildQuery` writes is skipped to the type of the question. -/
theorem skipName_buildQuery (host : Hostname) (qtype : Nat) :
    ∃ next, skipName (buildQuery host.text qtype) 12 = .ok next ∧
      (buildQuery host.text qtype).drop next = toBe 2 qtype ++ toBe 2 1 := by
  have hheader : queryHeader.length = 12 := by decide
  have hname : (buildQuery host.text qtype).drop 12 =
      writeName host.text ++ (toBe 2 qtype ++ toBe 2 1) := by
    rw [buildQuery, List.append_assoc, List.append_assoc, ← hheader, List.drop_left]
  exact ⟨_, skipName_writeName host hname, drop_add hname⟩

/-- A reply for `a.b` with one address. -/
example : parseAnswers ([0x42, 0x42, 0x81, 0x80, 0, 1, 0, 1, 0, 0, 0, 0] ++
    [1, 0x61, 1, 0x62, 0, 0, 1, 0, 1] ++
    [0xc0, 0x0c, 0, 1, 0, 1, 0, 0, 0, 60, 0, 4, 93, 184, 216, 34]) =
    .ok [.v4 ⟨[93, 184, 216, 34], rfl⟩] := by rfl

/-- No reply is read outside of its bytes or keeps the client busy forever; the name of a question
is skipped to its type; and the addresses of a reply are those of its records, in order. -/
theorem parseAnswers_exact :
    (∀ buf pos, ∃ next, skipName buf pos = .ok next ∧ next ≤ max pos (buf.length + 255)) ∧
    (∀ buf, ∃ ips, parseAnswers buf = .ok ips) ∧
    (∀ (host : Hostname) (qtype : Nat), ∃ next,
      skipName (buildQuery host.text qtype) 12 = .ok next ∧
        (buildQuery host.text qtype).drop next = toBe 2 qtype ++ toBe 2 1) ∧
    (∀ r : Reply, parseAnswers r.encode = .ok (r.answers.filterMap Record.address?)) :=
  ⟨skipName_ok, parseAnswers_ok, skipName_buildQuery, parseAnswers_encode⟩

end BootExtractor.Dns
