import BootExtractor.BlockDev
import BootExtractor.Lib.Effect

/-!
# Lazy reader for a remote image

The reader serves requests out of a table of fixed-size chunks. A missing chunk
comes from the disk cache, from one range request, or, when the server has no
ranges, from a forward stream that is read up to it. The fetcher, its streams and
the disk are scripts: they say what each call on them will do. The session keeps
what changes, with a log of the calls made on the outside.
-/

namespace BootExtractor.Remote

/-- Chunk granularity of fetches and of the disk cache. -/
@[irreducible] def chunk : Nat := 4 * 1024 * 1024

/-- What probing the endpoint told. -/
structure Probe where
  size : Nat
  supportsRange : Bool

/-- What a forward stream does next: deliver some bytes, or fail once and go on. -/
inductive StreamItem where
  | piece (first : UInt8) (rest : Bytes)
  | ioError (msg : Str)
  deriving DecidableEq, Repr

/-- A forward stream, by everything it will still do; then it is at its end. -/
abbrev Stream := List StreamItem

/-- The bytes a stream will still deliver. -/
def Stream.bytes : Stream → Bytes
  | [] => []
  | .piece first rest :: more => first :: rest ++ Stream.bytes more
  | .ioError _ :: more => Stream.bytes more

/-- `Read::read` with a buffer of `cap` bytes. At most one piece is delivered, and
what does not fit stays; the end of the stream delivers nothing. -/
def Stream.read (cap : Nat) : Stream → Except Str Bytes × Stream
  | [] => (.ok [], [])
  | .ioError msg :: more => (.error msg, more)
  | .piece first rest :: more =>
    (.ok ((first :: rest).take cap),
      match (first :: rest).drop cap with
      | [] => more
      | b :: bs => .piece b bs :: more)

/-- `read_full`: read until the buffer of `len` bytes is full; `filled` is what is in it. -/
def readFull (stream : Stream) (len : Nat) (filled : Bytes) : Except Error Bytes × Stream :=
  if filled.length < len then
    match stream.read (len - filled.length) with
    | (.error msg, stream) => (.error (.http ("stream read: ".toList ++ msg)), stream)
    | (.ok [], stream) =>
      (.error (.http "stream ended before the expected length".toList), stream)
    | (.ok (b :: bs), stream) => readFull stream len (filled ++ b :: bs)
  else (.ok filled, stream)
termination_by len - filled.length
decreasing_by simp only [List.length_append, List.length_cons]; omega

/-- A source of byte ranges over the network, by what its calls return. The number
is how often that operation was called before. -/
structure Fetcher where
  probe : Except Error Probe
  /-- Bytes `[start, end)`, as far as the server keeps to the request. -/
  fetchRange : Nat → Nat → Nat → Except Error Bytes
  /-- A forward stream of the whole body. -/
  fetchAll : Nat → Except Error Stream

/-- Files of the cache directory: `<idx>`, and `<idx>.part` while it is written. -/
inductive CacheFile where
  | chunk (idx : Nat)
  | part (idx : Nat)
  deriving DecidableEq, Repr

/-- The readable files of the cache directory. -/
abbrev CacheDir := CacheFile → Option Bytes

/-- Where `DiskCache::store` gets to: creating the directory, writing the temporary
file (some bytes of it) or renaming it may fail. -/
inductive StoreStop where
  | mkdir
  | write (written : Nat)
  | rename
  | done
  deriving DecidableEq, Repr

/-- On-disk chunk cache, by how far each store on it gets. -/
structure DiskCache where
  stop : Nat → StoreStop

/-- A call on the outside. -/
inductive Call where
  | fetchRange (start end_ : Nat)
  | fetchAll
  | cacheStore (idx : Nat)
  | progress (done total : Nat)
  deriving DecidableEq, Repr

/-- The mutable part of the reader. -/
structure State where
  /-- One slot per chunk index; `none` until fetched. -/
  chunks : List (Option Bytes)
  /-- The open forward stream. -/
  stream : Option Stream
  /-- How many leading chunks the stream has produced. -/
  streamed : Nat
  /-- Chunks downloaded in this run. -/
  downloaded : Nat

/-- The reader's state, the cache directory and the calls made so far. -/
structure Session where
  state : State
  disk : CacheDir
  log : List Call

/-- The reader with everything that stays fixed. -/
structure RemoteReader where
  fetcher : Fetcher
  size : Nat
  supportsRange : Bool
  cache : Option DiskCache

/-- A computation of the reader. -/
abbrev ReaderM := EStateM Fault Session

/-- How often a kind of call was made. -/
def Session.calls (s : Session) (p : Call → Bool) : Nat := s.log.countP p

/-- Record a call. -/
def note (c : Call) : ReaderM Unit := modify fun s => { s with log := s.log ++ [c] }

/-- Change the reader's own state. -/
def modifyState (f : State → State) : ReaderM Unit := modify fun s => { s with state := f s.state }

/-- `RemoteReader::build`: probe once, refuse an empty image, start with no chunk. -/
def build (fetcher : Fetcher) (cache : Option DiskCache) :
    Except Error (RemoteReader × State) := do
  let probe ← fetcher.probe
  if probe.size = 0 then
    .error (.http "server reported a zero-length image".toList)
  else
    let nchunks := (probe.size + chunk - 1) / chunk
    .ok (⟨fetcher, probe.size, probe.supportsRange, cache⟩,
      ⟨List.replicate nchunks none, none, 0, 0⟩)

/-- `RemoteReader::chunk_len`: the last chunk is short. -/
def RemoteReader.chunkLen (r : RemoteReader) (idx : Nat) : Nat := min (r.size - idx * chunk) chunk

/-- `DiskCache::load`: a cached chunk counts only if its length is the expected one. -/
def load (disk : CacheDir) (idx expectedLen : Nat) : Option Bytes :=
  match disk (.chunk idx) with
  | none => none
  | some data => if data.length = expectedLen then some data else none

/-- The cache directory after a store that got as far as `stop`. -/
def diskAfter (disk : CacheDir) (idx : Nat) (data : Bytes) : StoreStop → CacheDir
  | .mkdir => disk
  | .write written => Function.update disk (.part idx) (some (data.take written))
  | .rename => Function.update disk (.part idx) (some data)
  | .done => Function.update (Function.update disk (.part idx) none) (.chunk idx) (some data)

/-- `DiskCache::store`: temporary file, then rename; a failure is ignored. -/
def DiskCache.store (cache : DiskCache) (idx : Nat) (data : Bytes) : ReaderM Unit := do
  let s ← get
  let stop := cache.stop (s.calls (· matches .cacheStore _))
  note (.cacheStore idx)
  modify fun s => { s with disk := diskAfter s.disk idx data stop }

/-- `state.chunks[idx] = Some(data)`. -/
def putChunk (idx : Nat) (data : Bytes) : ReaderM Unit := do
  let s ← get
  if idx < s.state.chunks.length then
    modifyState fun st => { st with chunks := st.chunks.set idx (some data) }
  else throw .panic

/-- Hand a fresh chunk to the disk cache, if there is one. -/
def RemoteReader.storeCached (r : RemoteReader) (idx : Nat) (data : Bytes) : ReaderM Unit :=
  match r.cache with
  | some cache => cache.store idx data
  | none => pure ()

/-- `RemoteReader::store`: a fresh chunk goes to the disk cache and to memory. -/
def RemoteReader.store (r : RemoteReader) (idx : Nat) (data : Bytes) : ReaderM Unit := do
  r.storeCached idx data
  putChunk idx data
  modifyState fun st => { st with downloaded := st.downloaded + 1 }
  let s ← get
  note (.progress s.state.downloaded s.state.chunks.length)

/-- `fetcher.fetch_range(start, end)?`. -/
def RemoteReader.fetchRange (r : RemoteReader) (start end_ : Nat) : ReaderM Bytes := do
  let s ← get
  let k := s.calls (· matches .fetchRange _ _)
  note (.fetchRange start end_)
  match r.fetcher.fetchRange k start end_ with
  | .ok data => pure data
  | .error e => throw (.err e)

/-- `fetcher.fetch_all()?`. -/
def RemoteReader.fetchAll (r : RemoteReader) : ReaderM Stream := do
  let s ← get
  let k := s.calls (· matches .fetchAll)
  note .fetchAll
  match r.fetcher.fetchAll k with
  | .ok stream => pure stream
  | .error e => throw (.err e)

/-- Open the forward stream if there is none yet. -/
def RemoteReader.openStream (r : RemoteReader) : ReaderM Unit := do
  let s ← get
  if s.state.stream.isNone then
    let stream ← r.fetchAll
    modifyState fun st => { st with stream := some stream, streamed := 0 }

/-- One pass of the streaming loop. The stream is put back whether or not the
chunk could be filled. -/
def RemoteReader.streamOne (r : RemoteReader) : ReaderM Unit := do
  let s ← get
  match s.state.stream with
  | none => throw .panic
  | some stream =>
    let filled := readFull stream (r.chunkLen s.state.streamed) []
    modifyState fun st => { st with stream := some filled.2 }
    match filled.1 with
    | .error e => throw (.err e)
    | .ok buf =>
      r.store s.state.streamed buf
      modifyState fun st => { st with streamed := st.streamed + 1 }

/-- `while state.streamed <= idx`. Every pass raises `streamed` by one, so the
`fuel` of the first call is the number of passes. -/
def RemoteReader.streamTo (r : RemoteReader) (idx : Nat) : Nat → ReaderM Unit
  | 0 => pure ()
  | fuel + 1 => do
    let s ← get
    if s.state.streamed ≤ idx then
      r.streamOne
      r.streamTo idx fuel

/-- The range branch of `ensure`: fetch exactly the missing chunk. -/
def RemoteReader.ensureRange (r : RemoteReader) (idx : Nat) : ReaderM Unit := do
  let start := idx * chunk
  let expected := r.chunkLen idx
  let data ← r.fetchRange start (start + expected)
  if data.length ≠ expected then
    throw (.err (.http ("short range read: wanted ".toList ++ Str.dec expected ++
      " got ".toList ++ Str.dec data.length)))
  else r.store idx data

/-- The branch of `ensure` without ranges: read every chunk up to and including `idx`. -/
def RemoteReader.ensureStreamed (r : RemoteReader) (idx : Nat) : ReaderM Unit := do
  r.openStream
  let s ← get
  r.streamTo idx (idx + 1 - s.state.streamed)

/-- The chunk as the disk cache would serve it. -/
def RemoteReader.cached (r : RemoteReader) (disk : CacheDir) (idx : Nat) : Option Bytes :=
  r.cache.bind fun _ => load disk idx (r.chunkLen idx)

/-- `RemoteReader::ensure`: make chunk `idx` present, from the disk cache or the
network (and, with no range support, everything in front of it). -/
def RemoteReader.ensure (r : RemoteReader) (idx : Nat) : ReaderM Unit := do
  let s ← get
  match s.state.chunks[idx]? with
  | none => throw .panic
  | some (some _) => pure ()
  | some none =>
    match r.cached s.disk idx with
    | some data => putChunk idx data
    | none => if r.supportsRange then r.ensureRange idx else r.ensureStreamed idx

/-- The copy loop of `read_at`: `len` bytes from `pos` on, chunk by chunk. -/
def copyOut (chunks : List (Option Bytes)) (pos len : Nat) : Except Fault Bytes :=
  if _ : len = 0 then .ok []
  else
    match chunks[pos / chunk]? with
    | some (some data) =>
      let within := pos % chunk
      let n := min (data.length - within) len
      if data.length < within then .error .panic
      else if _ : n = 0 then .error .spin
      else do
        let rest ← copyOut chunks (pos + n) (len - n)
        .ok (Bytes.slice data within n ++ rest)
    | _ => .error .panic
termination_by len

/-- `ReadAt::read_at` of the reader: the bytes the buffer of `len` bytes holds afterwards. -/
def RemoteReader.readAt (r : RemoteReader) (offset len : Nat) : ReaderM Bytes := do
  match checkBounds r.size offset len with
  | .error e => throw (.err e)
  | .ok _ =>
    if len = 0 then pure []
    else
      let first := offset / chunk
      let last := (offset + len - 1) / chunk
      forM (List.range' first (last + 1 - first)) r.ensure
      let s ← get
      match copyOut s.state.chunks offset len with
      | .ok buf => pure buf
      | .error f => throw f

/-- One request of a run. -/
structure Request where
  offset : Nat
  len : Nat

/-- A request as a step of a run. -/
def RemoteReader.step (r : RemoteReader) (s : Session) (q : Request) :
    Except Fault Bytes × Session :=
  (Effect.answer (r.readAt q.offset q.len) s, Effect.after (r.readAt q.offset q.len) s)

end BootExtractor.Remote
