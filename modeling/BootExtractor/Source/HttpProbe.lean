import BootExtractor.Source.HttpFetch

/-!
# Probing

The size of an image and whether its server has ranges is read off the answer to a request
for the first byte; the range requests then go to the URL that this one resolved to. An
honest server says nothing about the blob that is not so, and whatever arrives of that over
some connection is understood.
-/

namespace BootExtractor.Http

open Remote

/-- `parse_content_range_total`: `bytes 0-0/12345` gives `12345`. -/
def parseContentRangeTotal (value : Str) : Option Nat :=
  Str.parseUsize (Str.trim (Str.afterLast '/' value))

/-- A source of ranges over one URL. -/
structure HttpFetcher where
  start : Url
  /-- Where the redirects of the probe led to. -/
  resolved : Url
  deriving DecidableEq, Repr

namespace HttpFetcher

/-- `HttpFetcher::new` -/
def new (url : Str) : Except Error HttpFetcher := (Url.parse url).map fun u => ⟨u, u⟩

/-- What `probe` makes of an answer. -/
def probed (start : Url) (resp : Resp) : Except RequestError Probe :=
  if resp.status = 206 then
    match (headerOf resp.headers "content-range".toList).bind parseContentRangeTotal with
    | some total => .ok ⟨total, true⟩
    | none => .error (.err (.http "206 without a usable Content-Range".toList))
  else if resp.status = 200 then
    match (headerOf resp.headers "content-length".toList).bind fun v =>
        Str.parseUsize (Str.trim v) with
    | some size => .ok ⟨size, false⟩
    | none => .error (.err (.http "200 without a Content-Length".toList))
  else
    .error (.err (.http ("unexpected status ".toList ++ Str.dec resp.status ++
      " probing ".toList ++ start.display)))

/-- `probe`, from the `k`-th connection on: what it tells, and the fetcher afterwards. -/
def probe (f : HttpFetcher) (net : Network) (k : Nat) : Except RequestError Probe × HttpFetcher :=
  match (request net f.start (some (0, some 0)) k).1 with
  | .error e => (.error e, f)
  | .ok resp => (probed f.start resp, { f with resolved := resp.finalUrl })

/-- `fetch_all`: the body of a request without a range. -/
def fetchAll (f : HttpFetcher) (net : Network) (k : Nat) : Except RequestError BodyReader :=
  match (request net f.resolved none k).1 with
  | .error e => .error e
  | .ok resp =>
    if resp.status ≠ 200 then
      .error (.err (.http ("expected 200 streaming body, got ".toList ++ Str.dec resp.status)))
    else .ok (intoBody resp.reader resp.framing)

end HttpFetcher

/-- The number of all bytes, as a header spells it. -/
def SizeText (blob : Bytes) (text : Str) : Prop :=
  ∃ zeros, text = List.replicate zeros '0' ++ Str.dec blob.length

/-- A `Content-Range` of the blob, which may leave the size open. -/
def RangeText (blob : Bytes) (first last : Nat) (text : Str) : Prop := ∃ unit total,
  Str.eqIgnoreAsciiCase unit "bytes".toList ∧ (SizeText blob total ∨ total = ['*']) ∧
    text = unit ++ ' ' :: (Str.dec first ++ '-' :: (Str.dec last ++ '/' :: total))

/-- What an honest server may answer to a request for a part of the blob, or for all of it:
a partial response is about a range from the requested start on, and where a size is given it
is that of the blob. -/
structure Response.Honest (r : Response) (blob : Bytes) (range : ByteRange) : Prop where
  part : r.status = 206 → r.Framed ∧ ∃ start stop last, range = some (start, stop) ∧
    r.Sends blob start last ∧ r.Declares "content-range".toList (RangeText blob start last)
  whole : r.status = 200 →
    ∀ f ∈ r.fields, f.Named "content-length".toList → ∃ text, SizeText blob text ∧ f.HasText text

/-- Whatever a connection delivers is an honest answer to the request on it, or the front of
one. -/
def Honest (blob : Bytes) (net : Network) : Prop :=
  ∀ k url range stream, net k url (requestText url range) = .ok stream →
    ∃ r : Response, r.Honest blob range ∧ stream.bytes <+: r.encode

section Connections

variable {net net' : Network} {url : Url} {range : ByteRange}

/-- Redirects make no more connections than there are hops. -/
private theorem requestHops_le (hops k : Nat) (current : Url) :
    k ≤ (requestHops net url range hops k current).2 ∧
      (requestHops net url range hops k current).2 ≤ k + hops := by
  induction hops generalizing k current with
  | zero => exact ⟨Nat.le_refl k, Nat.le_refl k⟩
  | succ hops ih =>
    rw [requestHops]
    split
    · exact ⟨Nat.le_succ k, by simp⟩
    · split
      · exact ⟨Nat.le_succ k, by simp⟩
      · split
        · exact ⟨Nat.le_succ k, by simp⟩
        · split
          · exact ⟨Nat.le_succ k, by simp⟩
          · rename_i next hjoin
            obtain ⟨hlo, hhi⟩ := ih (k + 1) next
            omega

/-- The first hop is made in any case. -/
theorem lt_requestHops (hops k : Nat) (current : Url) :
    k < (requestHops net url range (hops + 1) k current).2 := by
  rw [requestHops]
  split
  · exact Nat.lt_succ_self k
  · split
    · exact Nat.lt_succ_self k
    · split
      · exact Nat.lt_succ_self k
      · split
        · exact Nat.lt_succ_self k
        · exact (requestHops_le hops (k + 1) _).1

/-- Only the connections that are made count. -/
theorem requestHops_congr (hops k : Nat) (current : Url)
    (h : ∀ i u, k ≤ i → i < (requestHops net url range hops k current).2 →
      net' i u (requestText u range) = net i u (requestText u range)) :
    requestHops net' url range hops k current = requestHops net url range hops k current := by
  induction hops generalizing k current with
  | zero => rfl
  | succ hops ih =>
    have hfirst := h k current (Nat.le_refl k) (lt_requestHops hops k current)
    rw [requestHops, requestHops, hfirst]
    rw [requestHops] at h
    split
    · rfl
    · rename_i stream hnet
      simp only [hnet] at h
      split
      · rfl
      · rename_i status headers reader hhead
        simp only [hhead] at h
        split
        · rfl
        · rename_i location hlocation
          simp only [hlocation] at h
          split
          · rfl
          · rename_i next hjoin
            simp only [hjoin] at h
            exact ih (k + 1) next fun i u hlo hhi => h i u (Nat.le_of_succ_le hlo) hhi

private theorem requestOnce_le (k : Nat) : k < (requestOnce net url range k).2 ∧
    (requestOnce net url range k).2 ≤ k + (maxRedirects + 1) :=
  ⟨lt_requestHops maxRedirects k url, (requestHops_le (maxRedirects + 1) k url).2⟩

/-- Retries make no more connections than they have hops. -/
private theorem requestRetry_le (retries k : Nat) : k < (requestRetry net url range retries k).2 ∧
    (requestRetry net url range retries k).2 ≤ k + (retries + 1) * (maxRedirects + 1) := by
  induction retries generalizing k with
  | zero =>
    obtain ⟨hlo, hhi⟩ := @requestOnce_le net url range k
    rw [requestRetry]
    cases honce : requestOnce net url range k with
    | mk res k' =>
      rw [honce] at hlo hhi
      cases res with
      | ok resp => exact ⟨hlo, by simpa using hhi⟩
      | error e => exact ⟨hlo, by simpa using hhi⟩
  | succ retries ih =>
    obtain ⟨hlo, hhi⟩ := @requestOnce_le net url range k
    rw [requestRetry, Nat.succ_mul]
    cases honce : requestOnce net url range k with
    | mk res k' =>
      rw [honce] at hlo hhi
      cases res with
      | ok resp => exact ⟨hlo, by simp only at hhi ⊢; omega⟩
      | error e =>
        obtain ⟨hlo', hhi'⟩ := ih k'
        exact ⟨Nat.lt_trans hlo hlo', by simp only at hhi ⊢; omega⟩

private theorem requestOnce_le_requestRetry (retries k : Nat) :
    (requestOnce net url range k).2 ≤ (requestRetry net url range retries k).2 := by
  cases retries with
  | zero =>
    rw [requestRetry]
    split <;> rename_i honce <;> rw [honce]
  | succ retries =>
    rw [requestRetry]
    cases honce : requestOnce net url range k with
    | mk res k' =>
      cases res with
      | ok resp => exact Nat.le_refl k'
      | error e => exact Nat.le_of_lt (requestRetry_le retries k').1

/-- A request depends only on the connections it makes. -/
theorem requestRetry_congr (retries k : Nat)
    (h : ∀ i u, k ≤ i → i < (requestRetry net url range retries k).2 →
      net' i u (requestText u range) = net i u (requestText u range)) :
    requestRetry net' url range retries k = requestRetry net url range retries k := by
  have hsame : requestOnce net' url range k = requestOnce net url range k :=
    requestHops_congr _ k url fun i u hlo hhi =>
      h i u hlo (Nat.lt_of_lt_of_le hhi (requestOnce_le_requestRetry retries k))
  induction retries generalizing k with
  | zero => rw [requestRetry, requestRetry, hsame]
  | succ retries ih =>
    rw [requestRetry, requestRetry, hsame]
    rw [requestRetry] at h
    cases honce : requestOnce net url range k with
    | mk res k' =>
      cases res with
      | ok resp => rfl
      | error e =>
        rw [honce] at h
        have hlo := (@requestOnce_le net url range k).1
        rw [honce] at hlo
        have hlater : ∀ i u, k' ≤ i → i < (requestRetry net url range retries k').2 →
            net' i u (requestText u range) = net i u (requestText u range) :=
          fun i u hi => h i u (Nat.le_trans (Nat.le_of_lt hlo) hi)
        refine ih k' hlater (requestHops_congr _ k' url fun i u hi hhi => hlater i u hi ?_)
        exact Nat.lt_of_lt_of_le hhi (requestOnce_le_requestRetry retries k')

/-- A request makes at least one and at most 24 connections, each with the same range, and
what comes of it depends on these connections only. -/
theorem request_connections (net : Network) (url : Url) (range : ByteRange) (k : Nat) :
    k < (request net url range k).2 ∧ (request net url range k).2 ≤ k + 24 ∧
      ∀ net' : Network, (∀ i u, k ≤ i → i < (request net url range k).2 →
        net' i u (requestText u range) = net i u (requestText u range)) →
          request net' url range k = request net url range k := by
  obtain ⟨hlo, hhi⟩ := @requestRetry_le net url range maxRetries k
  exact ⟨hlo, hhi, fun net' h => requestRetry_congr maxRetries k h⟩

end Connections

section Headers

variable {f : HeaderField} {resp : Response} {name text : Str} {kind : Str → Prop} {blob : Bytes}

/-- What the reader of the headers sees of a text with blanks inside. -/
theorem HeaderField.HasText.trimmed (h : f.HasText text)
    (hplain : ∀ c ∈ text, isVisible c ∨ c = ' ') :
    Str.trim (Utf8.fromLossy f.value) = Str.trim text := by
  obtain ⟨before, after, hblank, hvalue⟩ := h
  have hascii : ∀ c ∈ before ++ text ++ after, c.toNat < 0x80 := by
    intro c hc
    rw [List.append_assoc, List.mem_append, List.mem_append] at hc
    have hcase : isVisible c ∨ c = ' ' ∨ c = '\t' := by
      rcases hc with hc | hc | hc
      · exact Or.inr (hblank c (List.mem_append_left _ hc))
      · exact (hplain c hc).imp id Or.inl
      · exact Or.inr (hblank c (List.mem_append_right _ hc))
    rcases hcase with hc | rfl | rfl
    · exact Nat.lt_trans (isVisible_iff.mp hc).2 (by decide)
    · decide
    · decide
  have hspace : ∀ c ∈ before ++ after, Str.isWhitespace c = true := by
    intro c hc
    rcases hblank c hc with rfl | rfl <;> rfl
  have hdecoded := fromLossy_asciiBytes hascii []
  have hnil : Utf8.fromLossy [] = [] := rfl
  rw [List.append_nil, hnil, List.append_nil] at hdecoded
  rw [hvalue, hdecoded]
  exact Str.trim_blanks (fun c hc => hspace c (List.mem_append_left _ hc))
    (fun c hc => hspace c (List.mem_append_right _ hc))

/-- A size is made of digits. -/
theorem SizeText.isDigit (h : SizeText blob text) : ∀ c ∈ text, c.isDigit = true := by
  obtain ⟨zeros, rfl⟩ := h
  exact isDigit_of_zeros

/-- A size has no blanks around it. -/
theorem SizeText.trim (h : SizeText blob text) : Str.trim text = text :=
  Str.trim_eq_self fun c hc => Str.not_isWhitespace_of_isDigit (h.isDigit c hc)

/-- A size that is understood is that of the blob. -/
theorem SizeText.parse {n : Nat} (h : SizeText blob text) (hparse : Str.parseUsize text = some n) :
    n = blob.length := by
  obtain ⟨zeros, rfl⟩ := h
  rw [parseUsize_zeros] at hparse
  exact (Option.some.inj (Option.ite_none_right_eq_some.mp hparse).2).symm

private theorem afterLast_append {c : Char} {a b : Str} (hb : c ∉ b) :
    Str.afterLast c (a ++ c :: b) = b := by
  have hne : ∀ x ∈ b.reverse, (x == c) = false := by
    intro x hx
    exact beq_eq_false_iff_ne.mpr fun he => hb (he ▸ List.mem_reverse.mp hx)
  have hsplit : Str.rsplitOnce c (a ++ c :: b) = some (a, b) := by
    rw [Str.rsplitOnce, List.reverse_append, List.reverse_cons, List.append_assoc,
      List.singleton_append, Str.splitOnce_append hne (beq_self_eq_true c)]
    simp
  rw [Str.afterLast, hsplit]

section Ranges

variable {first last : Nat}

/-- A range is plain text. -/
theorem RangeText.plain (h : RangeText blob first last text) :
    ∀ c ∈ text, isVisible c ∨ c = ' ' := by
  obtain ⟨unit, total, hunit, htotal, rfl⟩ := h
  have hdigit : ∀ n, ∀ c ∈ Str.dec n, isVisible c := fun n c hc =>
    isVisible_of_isDigit (Str.isDigit_of_mem_dec hc)
  have hend : ∀ c ∈ total, isVisible c := by
    rcases htotal with hsize | rfl
    · exact fun c hc => isVisible_of_isDigit (hsize.isDigit c hc)
    · exact Str.forall_of_all rfl
  simp only [List.mem_append, List.mem_cons]
  rintro c (hc | rfl | hc | rfl | hc | rfl | hc)
  · exact Or.inl (isVisible_of_spelling hunit (Str.forall_of_all rfl) c hc)
  · exact Or.inr rfl
  · exact Or.inl (hdigit _ c hc)
  · exact Or.inl rfl
  · exact Or.inl (hdigit _ c hc)
  · exact Or.inl rfl
  · exact Or.inl (hend c hc)

/-- A range has no blanks around it. -/
theorem RangeText.visible_ends (h : RangeText blob first last text) :
    (∀ c ∈ text.head?, isVisible c) ∧ ∀ c ∈ text.getLast?, isVisible c := by
  obtain ⟨unit, total, hunit, htotal, rfl⟩ := h
  constructor
  · cases unit with
    | nil => cases hunit
    | cons u us =>
      rintro c ⟨⟩
      exact isVisible_of_spelling hunit (Str.forall_of_all rfl) u List.mem_cons_self
  · have hne : total ≠ [] := by
      rintro rfl
      rcases htotal with ⟨zeros, hnil⟩ | hnil
      · exact Str.dec_ne_nil _ (List.append_eq_nil_iff.mp hnil.symm).2
      · cases hnil
    have hsplit : unit ++ ' ' :: (Str.dec first ++ '-' :: (Str.dec last ++ '/' :: total)) =
        unit ++ ' ' :: (Str.dec first ++ '-' :: (Str.dec last ++ ['/'])) ++ total := by simp
    intro c hc
    have hlast : c ∈ total := by
      rw [hsplit, List.getLast?_append_of_ne_nil _ hne] at hc
      exact List.mem_of_getLast? hc
    rcases htotal with hsize | rfl
    · exact isVisible_of_isDigit (hsize.isDigit c hlast)
    · rw [List.mem_singleton.mp hlast]
      decide

/-- A total that a `Content-Range` has is the size of the blob. -/
theorem RangeText.total {n : Nat} (h : RangeText blob first last text)
    (htotal : parseContentRangeTotal (Str.trim text) = some n) : n = blob.length := by
  have hvisible := h.visible_ends
  obtain ⟨unit, total, -, hsize, rfl⟩ := h
  rw [Str.trim_ends (fun c hc => not_isWhitespace_of_isVisible (hvisible.1 c hc))
    fun c hc => not_isWhitespace_of_isVisible (hvisible.2 c hc)] at htotal
  have hslash : '/' ∉ total := by
    rcases hsize with hsize | rfl
    · exact fun hmem => absurd (hsize.isDigit _ hmem) (by decide)
    · decide
  have hsplit : unit ++ ' ' :: (Str.dec first ++ '-' :: (Str.dec last ++ '/' :: total)) =
      unit ++ ' ' :: (Str.dec first ++ '-' :: Str.dec last) ++ '/' :: total := by simp
  rw [parseContentRangeTotal, hsplit, afterLast_append hslash] at htotal
  rcases hsize with hsize | rfl
  · rw [hsize.trim] at htotal
    exact hsize.parse htotal
  · cases htotal

end Ranges

end Headers

section Answers

variable {blob : Bytes} {net : Network} {url : Url} {range : ByteRange} {resp : Resp} {k : Nat}

/-- Whatever connections fail or stop short, what is read of the body of a whole response is the
front of the body that a server sent. -/
theorem fetchAll_front {server : Set Response} {f : HttpFetcher} {b : BodyReader}
    (hframed : ∀ r ∈ server, r.status = 200 → r.Framed) (hserves : Serves server net)
    (h : f.fetchAll net k = .ok b) :
    ∃ r ∈ server, r.status = 200 ∧
      ∀ (fuel : Nat) (caps : List Nat) (outs : List Bytes) (b' : BodyReader),
      b.reads fuel caps = some (outs.map .ok, b') → outs.flatten <+: r.body.data := by
  unfold HttpFetcher.fetchAll at h
  split at h
  · cases h
  rename_i resp hresp
  split at h
  · cases h
  rename_i hstatus
  cases h
  obtain ⟨⟨k', stream, hnet, hhead⟩, hframing, -⟩ := answered_of_request hresp
  obtain ⟨r, hmem, hsent⟩ := hserves _ _ _ _ hnet
  obtain ⟨hstatus', hheaders, hrest⟩ := readHead_prefix (r := ⟨[], stream⟩) hsent hhead
  have hwhole : resp.status = 200 := not_not.mp hstatus
  have h200 : r.status = 200 := hstatus' ▸ hwhole
  have hbody : HasBody 200 := by decide
  have hwithin := within_intoBody (hframed r hmem h200) hbody hrest
  rw [← hheaders, ← hwhole, ← hframing] at hwithin
  exact ⟨r, hmem, h200, fun fuel caps outs b' hreads => hwithin.reads hreads⟩

end Answers

end BootExtractor.Http
