import BootExtractor.Source.HttpDelivery
import BootExtractor.Source.Url

/-!
# Range requests

A request goes over one connection after the other, along redirects and, when something
fails, again from the start. The status of the answer is checked and its body is read as
far as bytes are wanted; the range that the answer says it is about is not looked at.
-/

namespace BootExtractor.Http

open Remote

/-- What the `k`-th connection does, to this URL and with this request: connecting or
sending fails, or the transport delivers. -/
abbrev Network := Nat → Url → Str → Except Error Stream

/-- The first byte of a range, and the last one if there is one. -/
abbrev ByteRange := Option (Nat × Option Nat)

/-- `MAX_REDIRECTS`. -/
def maxRedirects : Nat := 5

/-- `MAX_RETRIES`. -/
def maxRetries : Nat := 3

/-- A response with its body still to be read. -/
structure Resp where
  status : Nat
  headers : Headers
  finalUrl : Url
  reader : BufReader
  framing : Framing

/-- The header line that asks for a range. -/
def rangeLine : ByteRange → Str
  | none => []
  | some (start, some last) =>
    "Range: bytes=".toList ++ Str.dec start ++ '-' :: Str.dec last ++ "\r\n".toList
  | some (start, none) => "Range: bytes=".toList ++ Str.dec start ++ "-\r\n".toList

/-- What `send_request` sends. -/
def requestText (url : Url) (range : ByteRange) : Str :=
  "GET ".toList ++ url.path ++ " HTTP/1.1\r\nHost: ".toList ++ url.host ++
    "\r\nUser-Agent: lbx/0.1.0\r\nAccept: */*\r\nConnection: close\r\n".toList ++
      rangeLine range ++ "\r\n".toList

/-- The `Location` to go on to. -/
def redirectTo (status : Nat) (headers : Headers) : Option Str :=
  if status ∈ [301, 302, 303, 307, 308] then headerOf headers "location".toList else none

/-- The loop of `request_once`, for `hops` connections from the `k`-th on. -/
def requestHops (net : Network) (url : Url) (range : ByteRange) :
    Nat → Nat → Url → Except RequestError Resp × Nat
  | 0, k, _ => (.error (.err (.http ("too many redirects from ".toList ++ url.display))), k)
  | hops + 1, k, current =>
    match net k current (requestText current range) with
    | .error e => (.error (.err e), k + 1)
    | .ok stream =>
      match readHead ⟨[], stream⟩ with
      | (.error e, _) => (.error e, k + 1)
      | (.ok (status, headers), reader) =>
        match redirectTo status headers with
        | none => (.ok ⟨status, headers, current, reader, framingOf headers status⟩, k + 1)
        | some location =>
          match current.join location with
          | .error e => (.error (.err e), k + 1)
          | .ok next => requestHops net url range hops (k + 1) next

/-- `request_once`: one GET along its redirects. -/
def requestOnce (net : Network) (url : Url) (range : ByteRange) (k : Nat) :
    Except RequestError Resp × Nat :=
  requestHops net url range (maxRedirects + 1) k url

/-- The loop of `request`, with some retries left. -/
def requestRetry (net : Network) (url : Url) (range : ByteRange) :
    Nat → Nat → Except RequestError Resp × Nat
  | retries, k =>
    match requestOnce net url range k with
    | (.ok resp, k) => (.ok resp, k)
    | (.error e, k) =>
      match retries with
      | 0 => (.error e, k)
      | retries + 1 => requestRetry net url range retries k

/-- `request`. -/
def request (net : Network) (url : Url) (range : ByteRange) (k : Nat) :
    Except RequestError Resp × Nat :=
  requestRetry net url range maxRetries k

/-- `fetch_range`, at the URL that probing resolved to and from the `k`-th connection on. -/
def fetchRange (fuel : Nat) (net : Network) (url : Url) (start end_ k : Nat) :
    Option (Except RequestError Bytes) :=
  match (request net url (some (start, some (end_ - 1))) k).1 with
  | .error e => some (.error e)
  | .ok resp =>
    if resp.status ≠ 206 then
      some (.error (.err (.http ("expected 206 for range ".toList ++ Str.dec start ++ '-' ::
        Str.dec (end_ - 1) ++ ", got ".toList ++ Str.dec resp.status))))
    else
      match (intoBody resp.reader resp.framing).readFull fuel (end_ - start) [] with
      | none => none
      | some (.full buf, _) => some (.ok buf)
      | some (.ended, _) => some (.error (.err (.http "body ended before expected length".toList)))
      | some (.failed e, _) => some (.error (.readBody e))

/-- Whatever a connection delivers is one of the server's responses, or the front of one. -/
def Serves (server : Set Response) (net : Network) : Prop :=
  ∀ k url text stream, net k url text = .ok stream → ∃ r ∈ server, stream.bytes <+: r.encode

/-- An answer that comes from the network, at the end of some redirects. -/
structure Answered (net : Network) (url : Url) (range : ByteRange) (resp : Resp) : Prop where
  sent : ∃ k stream, net k resp.finalUrl (requestText resp.finalUrl range) = .ok stream ∧
    readHead ⟨[], stream⟩ = (.ok (resp.status, resp.headers), resp.reader)
  framing : resp.framing = framingOf resp.headers resp.status
  reached : ∃ locations : List Str, locations.foldlM Url.join url = .ok resp.finalUrl

section Requests

variable {net : Network} {url : Url} {range : ByteRange} {resp : Resp}

/-- Redirects end at an answer. -/
private theorem answered_of_requestHops {hops k : Nat} {current : Url}
    (hreached : ∃ locations : List Str, locations.foldlM Url.join url = .ok current)
    (h : (requestHops net url range hops k current).1 = .ok resp) :
    Answered net url range resp := by
  induction hops generalizing k current with
  | zero => cases h
  | succ hops ih =>
    rw [requestHops] at h
    split at h
    · cases h
    · rename_i stream hnet
      split at h
      · cases h
      · rename_i status headers reader hhead
        split at h
        · cases h
          exact ⟨⟨k, stream, hnet, hhead⟩, rfl, hreached⟩
        · rename_i location hlocation
          split at h
          · cases h
          · rename_i next hjoin
            obtain ⟨locations, hfold⟩ := hreached
            refine ih ⟨locations ++ [location], ?_⟩ h
            rw [List.foldlM_append, hfold]
            change (current.join location >>= pure) = .ok next
            rw [hjoin]
            rfl

/-- Retries end at an answer. -/
private theorem answered_of_requestRetry {retries k : Nat}
    (h : (requestRetry net url range retries k).1 = .ok resp) : Answered net url range resp := by
  induction retries generalizing k with
  | zero =>
    rw [requestRetry] at h
    split at h
    · rename_i honce
      cases h
      exact answered_of_requestHops ⟨[], rfl⟩ (congrArg Prod.fst honce)
    · cases h
  | succ retries ih =>
    rw [requestRetry] at h
    split at h
    · rename_i honce
      cases h
      exact answered_of_requestHops ⟨[], rfl⟩ (congrArg Prod.fst honce)
    · exact ih h

/-- A request is answered by one of its connections, whatever the ones before did. -/
theorem answered_of_request {k : Nat} (h : (request net url range k).1 = .ok resp) :
    Answered net url range resp :=
  answered_of_requestRetry h

end Requests

section Ranges

variable {blob : Bytes} {start end_ : Nat} {server : Set Response}

/-- The bytes that come back are the front of the body of a partial response. -/
theorem fetchRange_sound {net : Network} {url : Url} {fuel k : Nat} {bytes : Bytes}
    (hframed : ∀ r ∈ server, r.status = 206 → r.Framed) (hserves : Serves server net)
    (h : fetchRange fuel net url start end_ k = some (.ok bytes)) :
    ∃ r ∈ server, r.status = 206 ∧ bytes <+: r.body.data ∧ bytes.length = end_ - start := by
  unfold fetchRange at h
  split at h
  · cases h
  rename_i resp hresp
  split at h
  · cases h
  rename_i hstatus
  obtain ⟨⟨k', stream, hnet, hhead⟩, hframing, -⟩ := answered_of_request hresp
  obtain ⟨r, hmem, hsent⟩ := hserves _ _ _ _ hnet
  obtain ⟨hstatus', hheaders, hrest⟩ := readHead_prefix (r := ⟨[], stream⟩) hsent hhead
  have hpartial : resp.status = 206 := not_not.mp hstatus
  have h206 : r.status = 206 := hstatus' ▸ hpartial
  have hbody : HasBody 206 := by decide
  have hwithin := within_intoBody (hframed r hmem h206) hbody hrest
  rw [← hheaders, ← hpartial, ← hframing] at hwithin
  split at h
  · cases h
  · rename_i buf b hfull
    cases h
    obtain ⟨hlen, more, rfl, hmore⟩ := hwithin.readFull (Nat.zero_le _) hfull
    exact ⟨r, hmem, h206, hmore, hlen⟩
  · cases h
  · cases h

/-- A network that always delivers this response. -/
def always (r : Response) : Network := fun _ _ _ =>
  match r.encode with
  | [] => .ok []
  | b :: bs => .ok [.piece b bs]

/-- A constant network sends the response every time. -/
theorem always_eq (r : Response) (k : Nat) (url : Url) (text : Str) :
    ∃ stream, always r k url text = .ok stream ∧ stream.bytes = r.encode ∧
      ∀ msg, StreamItem.ioError msg ∉ stream := by
  unfold always
  cases r.encode with
  | nil => exact ⟨[], rfl, rfl, fun _ => List.not_mem_nil⟩
  | cons b bs =>
    refine ⟨_, rfl, ?_, fun msg h => ?_⟩
    · rw [Stream.bytes, Stream.bytes, List.append_nil]
    · cases List.mem_singleton.mp h

private theorem always_serves {r : Response} (h : r ∈ server) : Serves server (always r) := by
  intro k url text stream hnet
  obtain ⟨stream', hstream, hbytes, -⟩ := always_eq r k url text
  cases hnet.symm.trans hstream
  exact ⟨r, h, hbytes ▸ List.prefix_refl _⟩

/-- A partial response with enough bytes is taken, whatever range it is about. -/
theorem fetchRange_front {r : Response} (hframed : r.Framed) (hstatus : r.status = 206)
    (hlen : end_ - start ≤ r.body.data.length) (url : Url) (k : Nat) :
    ∃ fuel, fetchRange fuel (always r) url start end_ k =
      some (.ok (r.body.data.take (end_ - start))) := by
  obtain ⟨stream, hnet, hbytes, hfailures⟩ :=
    always_eq r k url (requestText url (some (start, some (end_ - 1))))
  obtain ⟨reader, hhead, hclean, hrest⟩ :=
    @readHead_clean r ⟨[], stream⟩ hfailures hbytes
  have hbody : HasBody 206 := by decide
  have hready := ready_intoBody hframed hbody hclean hrest
  have hwithin := within_intoBody hframed hbody ⟨[], by rw [List.append_nil, hrest]⟩
  obtain ⟨bound, buf, b, hfull⟩ := @Ready.readFull _ _ hready (end_ - start) [] hlen
  have hfull := hfull bound (Nat.le_refl _)
  obtain ⟨hbuf, more, hall, hmore⟩ := hwithin.readFull (Nat.zero_le _) hfull
  have hrequest : (request (always r) url (some (start, some (end_ - 1))) k).1 =
      .ok ⟨206, r.headers, url, reader, framingOf r.headers 206⟩ := by
    have hredirect : redirectTo r.status r.headers = none := by
      rw [hstatus]
      rfl
    rw [request, requestRetry, requestOnce, requestHops, hnet]
    simp only [hhead, hredirect]
    rw [hstatus]
  refine ⟨bound, ?_⟩
  have htake : buf = r.body.data.take (end_ - start) := by
    rw [List.nil_append] at hall
    rw [← hall] at hmore
    rw [← hbuf]
    exact List.prefix_iff_eq_take.mp hmore
  simp only [fetchRange, hrequest, ne_eq, not_true, if_false]
  rw [hfull, htake]

/-- A response that sends a range has that many bytes. -/
theorem length_of_sends {r : Response} {first last : Nat} (h : r.Sends blob first last) :
    r.body.data.length = last + 1 - first := by
  have hle := h.first_le
  have hlt := h.last_lt
  rw [h.data, Bytes.length_slice_of_le (by omega)]

/-- The front of what a partial response sends. -/
theorem take_of_sends {r : Response} {first last n : Nat} (h : r.Sends blob first last)
    (hn : n ≤ last + 1 - first) : r.body.data.take n = Bytes.slice blob first n := by
  rw [h.data, Bytes.slice, Bytes.slice, List.take_take, Nat.min_eq_left hn]

/-- Range requests to a server that conforms come back with the requested bytes only, exactly
if every partial response has too few bytes for them or begins with them. -/
theorem fetchRange_exact_iff (hconforms : ∀ r ∈ server, r.Conforms blob) (url : Url) :
    (∀ net, Serves server net → ∀ fuel k bytes,
        fetchRange fuel net url start end_ k = some (.ok bytes) →
          bytes = Bytes.slice blob start (end_ - start)) ↔
      ∀ r ∈ server, r.status = 206 → ∀ first last, r.Sends blob first last →
        last + 1 - first < end_ - start ∨
          Bytes.slice blob first (end_ - start) = Bytes.slice blob start (end_ - start) := by
  constructor
  · intro hexact r hmem hstatus first last hsends
    by_cases hshort : last + 1 - first < end_ - start
    · exact Or.inl hshort
    · right
      have hlen : end_ - start ≤ r.body.data.length := by
        rw [length_of_sends hsends]
        exact Nat.not_lt.mp hshort
      obtain ⟨fuel, hfetch⟩ := fetchRange_front (hconforms r hmem hstatus).1 hstatus hlen url 0
      rw [← take_of_sends hsends (Nat.not_lt.mp hshort)]
      exact hexact _ (always_serves hmem) fuel 0 _ hfetch
  · intro hharmless net hserves fuel k bytes hfetch
    obtain ⟨r, hmem, hstatus, hprefix, hlen⟩ :=
      fetchRange_sound (fun r hr h206 => (hconforms r hr h206).1) hserves hfetch
    obtain ⟨first, last, hsends⟩ := (hconforms r hmem hstatus).2
    have henough := hprefix.length_le
    rw [length_of_sends hsends, hlen] at henough
    have hbytes := List.prefix_iff_eq_take.mp hprefix
    rw [hlen, take_of_sends hsends henough] at hbytes
    obtain hshort | hsame := hharmless r hmem hstatus first last hsends
    · exact absurd henough (Nat.not_le.mpr hshort)
    · exact hbytes.trans hsame

/-- A `Content-Range` that the code does not read. -/
def contentRange : HeaderField where
  name := "Content-Range".toList
  value := asciiBytes " bytes 0-0/2".toList
  name_ne_nil := by decide
  name_visible := Str.forall_of_all rfl
  name_colon := by decide
  value_line := Str.forall_of_all rfl

/-- A length with a tab before it and a leading zero. -/
def contentLength : HeaderField where
  name := "content-length".toList
  value := asciiBytes "\t01".toList
  name_ne_nil := by decide
  name_visible := Str.forall_of_all rfl
  name_colon := by decide
  value_line := Str.forall_of_all rfl

/-- A partial response about the first of two bytes. -/
def firstByte : Response where
  minor := 1
  status := 206
  reason := asciiBytes "Partial Content".toList
  fields := [contentRange, contentLength]
  body := .length [1]
  status_lt := by decide
  reason_line := Str.forall_of_all rfl

private theorem firstByte_framed : firstByte.Framed := by
  refine ⟨fun f hf hnamed => ?_, ⟨contentLength, by simp [firstByte], rfl⟩, fun f hf hnamed => ?_⟩
  · rcases List.mem_cons.mp hf with rfl | hf
    · cases hnamed
    · rw [List.mem_singleton.mp hf] at hnamed
      cases hnamed
  · rcases List.mem_cons.mp hf with rfl | hf
    · cases hnamed
    · rw [List.mem_singleton.mp hf]
      exact ⟨_, ⟨1, rfl⟩, ['\t'], [], Str.forall_of_all rfl, rfl⟩

private theorem firstByte_sends : firstByte.Sends [1, 2] 0 0 := by
  refine ⟨⟨⟨contentRange, List.mem_cons_self, rfl⟩, fun f hf hnamed => ?_⟩, Nat.le_refl 0,
    by decide, rfl⟩
  rcases List.mem_cons.mp hf with rfl | hf
  · exact ⟨_, ⟨"bytes".toList, ['2'], rfl, rfl⟩, [' '], [], Str.forall_of_all rfl, rfl⟩
  · rw [List.mem_singleton.mp hf] at hnamed
    cases hnamed

private theorem firstByte_conforms : firstByte.Conforms [1, 2] :=
  fun _ => ⟨firstByte_framed, 0, 0, firstByte_sends⟩

/-- The first byte is asked for. -/
theorem fetchRange_exact_firstByte :
    (∀ net, Serves {firstByte} net → ∀ fuel k bytes,
        fetchRange fuel net ⟨false, ['h'], 80, ['/']⟩ 0 1 k = some (.ok bytes) →
          bytes = Bytes.slice [1, 2] 0 1) ↔
      ∀ r ∈ ({firstByte} : Set Response), r.status = 206 → ∀ first last, r.Sends [1, 2] first last →
        last + 1 - first < 1 ∨ Bytes.slice ([1, 2] : Bytes) first 1 = Bytes.slice [1, 2] 0 1 :=
  fetchRange_exact_iff (fun _ hr => hr ▸ firstByte_conforms) _

/-- The second byte is asked for, and the server answers with the first one. -/
theorem other_range_taken :
    ¬ ∀ (blob : Bytes) (start end_ : Nat) (server : Set Response) (url : Url) (net : Network),
      start < end_ → end_ ≤ blob.length → (∀ r ∈ server, r.Conforms blob) → Serves server net →
        ∀ fuel k bytes, fetchRange fuel net url start end_ k = some (.ok bytes) →
          bytes = Bytes.slice blob start (end_ - start) := by
  intro h
  obtain ⟨fuel, hfetch⟩ := @fetchRange_front 1 2 firstByte firstByte_framed rfl (by decide)
    ⟨false, ['h'], 80, ['/']⟩ 0
  have hbytes := h [1, 2] 1 2 {firstByte} _ _ (by decide) (by decide)
    (fun _ hr => hr ▸ firstByte_conforms) (always_serves rfl) fuel 0 _ hfetch
  exact absurd hbytes (by decide)

end Ranges

end BootExtractor.Http
