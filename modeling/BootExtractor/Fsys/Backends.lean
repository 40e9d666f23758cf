import BootExtractor.Boot.Tracking
import BootExtractor.Fsys.Detect
import BootExtractor.Kernel.Sniff
import BootExtractor.Source.RemoteStream

/-!
# The filesystem backends

The two readers hand each operation on to a library. Only the start of a file is read by
a loop of their own, which agrees with reading the whole file in whatever pieces the
library delivers it.
-/

namespace BootExtractor.Fsys

open Boot Effect Kernel Remote

/-- `Read::read_to_end` on an open file. -/
def readToEnd : Stream → Except Str Bytes
  | [] => .ok []
  | .ioError msg :: _ => .error msg
  | .piece first rest :: more => (readToEnd more).map ((first :: rest) ++ ·)

/-- The loop of `read_prefix`: `filled` is the start of the buffer of `max` bytes. -/
def readPrefixLoop (file : Stream) (max : Nat) (filled : Bytes) : Except Str Bytes :=
  if filled.length < max then
    match file.read (max - filled.length) with
    | (.error msg, _) => .error msg
    | (.ok [], _) => .ok filled
    | (.ok (b :: bs), file) => readPrefixLoop file max (filled ++ b :: bs)
  else .ok filled
termination_by max - filled.length
decreasing_by simp only [List.length_append, List.length_cons]; omega

/-- `FileSystem::read_prefix`, as the trait has it for backends without their own. -/
def defaultReadPrefix (fs : FileSystem) (path : Str) (max : Nat) : Except Error Bytes :=
  (fs.readFile path).map (·.take max)

/-- Entries that stand for a directory itself and the one above it. -/
def isDotName (name : Str) : Bool := name = ".".toList || name = "..".toList

/-- The loop of `read_dir`. An entry that cannot be read ends it. -/
def listing {α : Type} (failed : Str → Error) (item : α → DirEntry) :
    List (Except Str α) → Except Error (List DirEntry)
  | [] => .ok []
  | .error msg :: _ => .error (failed msg)
  | .ok entry :: rest =>
    if isDotName (item entry).name then listing failed item rest
    else (listing failed item rest).map (item entry :: ·)

section Ext4

/-- A directory entry of `ext4_view`: its name, its type and whether that could be told. -/
structure Ext4Entry where
  fileName : Bytes
  fileType : Except Str FileKind

/-- What `ext4_view` answers on a loaded filesystem. -/
structure Ext4View where
  readDir : Str → Except Str (List (Except Str Ext4Entry))
  read : Str → Except Str Bytes
  «open» : Str → Except Str Stream
  «exists» : Str → Except Str Bool
  readLink : Str → Except Str Bytes
  metadataLen : Str → Except Str Nat

/-- The whole of a file is what an open one delivers. -/
def Ext4View.ReadsWhole (v : Ext4View) : Prop :=
  ∀ path, (v.read path).toOption = (v.open path).toOption.bind fun file => (readToEnd file).toOption

/-- What the listing keeps of an entry. -/
def Ext4Entry.item (e : Ext4Entry) : DirEntry :=
  ⟨Utf8.fromLossy e.fileName, e.fileType.toOption.getD .other⟩

/-- `Ext4Fs`. -/
def ext4Fs (v : Ext4View) : FileSystem where
  readDir path := (v.readDir path).mapError Error.ext4 >>= listing Error.ext4 Ext4Entry.item
  readFile path := (v.read path).mapError Error.ext4
  «exists» path := (v.exists path).toOption.getD false
  readPrefix path max := do
    let file ← (v.open path).mapError Error.ext4
    (readPrefixLoop file max []).mapError Error.io
  fileSize path := (v.metadataLen path).mapError Error.ext4
  readLink path := (v.readLink path).toOption.map Utf8.fromLossy

end Ext4

section Vfat

/-- A directory entry of `fatfs`. -/
structure FatEntry where
  fileName : Str
  isDir : Bool

/-- An open file of `fatfs`, with where its end is. -/
structure FatFile where
  stream : Stream
  seekEnd : Except Str Nat

/-- What `fatfs` answers on an open filesystem. -/
structure FatView where
  rootDir : List (Except Str FatEntry)
  openDir : Str → Except Str (List (Except Str FatEntry))
  openFile : Str → Except Str FatFile

/-- `normalize`. -/
def normalize (path : Str) : Str := path.dropWhile (· == '/')

/-- What the listing keeps of an entry. -/
def FatEntry.item (e : FatEntry) : DirEntry := ⟨e.fileName, if e.isDir then .dir else .file⟩

/-- A directory, with the root under no name. -/
def fatDir (v : FatView) (path : Str) : Except Error (List (Except Str FatEntry)) :=
  if normalize path = [] then .ok v.rootDir
  else (v.openDir (normalize path)).mapError fun _ => .notFound path

/-- An open file; why one does not open is not told. -/
def fatFile (v : FatView) (path : Str) : Except Error FatFile :=
  (v.openFile (normalize path)).mapError fun _ => .notFound path

/-- `VfatFs`. -/
def vfatFs (v : FatView) : FileSystem where
  readDir path := fatDir v path >>= listing Error.vfat FatEntry.item
  readFile path := do
    let file ← fatFile v path
    (readToEnd file.stream).mapError Error.vfat
  «exists» path :=
    (v.openFile (normalize path)).toOption.isSome || (v.openDir (normalize path)).toOption.isSome
  readPrefix path max := do
    let file ← fatFile v path
    (readPrefixLoop file.stream max []).mapError Error.vfat
  fileSize path := do
    let file ← fatFile v path
    file.seekEnd.mapError Error.vfat
  readLink _ := none

end Vfat

/-- The libraries, by what they make of a device. -/
structure Libraries where
  ext4 : Device → Except Str Ext4View
  fat : Device → Except Str FatView

/-- `Ext4Fs::open` and `VfatFs::open`. -/
def backends (libs : Libraries) : Readers where
  ext4 dev := ((libs.ext4 dev).map ext4Fs).mapError Error.ext4
  vfat dev := ((libs.fat dev).map vfatFs).mapError Error.vfat

section Files

/-- What an open file delivers before it fails, and how it fails. -/
def upToFailure : Stream → Bytes × Option Str
  | [] => ([], none)
  | .ioError msg :: _ => ([], some msg)
  | .piece first rest :: more => ((first :: rest) ++ (upToFailure more).1, (upToFailure more).2)

/-- Reading to the end gives the bytes up to a failure, or the failure. -/
private theorem readToEnd_eq (file : Stream) :
    readToEnd file =
      match (upToFailure file).2 with
      | none => .ok (upToFailure file).1
      | some msg => .error msg := by
  induction file with
  | nil => rfl
  | cons item more ih =>
    cases item with
    | ioError msg => rfl
    | piece first rest =>
      rw [readToEnd, ih, upToFailure]
      cases (upToFailure more).2 <;> rfl

/-- A read takes its bytes from the front. -/
theorem upToFailure_read {cap : Nat} {file rest : Stream} {data : Bytes}
    (h : file.read cap = (.ok data, rest)) :
    upToFailure file = (data ++ (upToFailure rest).1, (upToFailure rest).2) := by
  cases file with
  | nil =>
    cases h
    rfl
  | cons item more =>
    cases item with
    | ioError msg => cases h
    | piece first more' =>
      simp only [Stream.read, Prod.mk.injEq, Except.ok.injEq] at h
      obtain ⟨rfl, rfl⟩ := h
      rw [upToFailure]
      have hsplit := List.take_append_drop cap (first :: more')
      cases hdrop : (first :: more').drop cap with
      | nil =>
        rw [hdrop, List.append_nil] at hsplit
        rw [hsplit]
      | cons b bs =>
        rw [hdrop] at hsplit
        rw [upToFailure, ← List.append_assoc, hsplit]

/-- The loop fills the buffer if that many bytes come before a failure; else it does what
reading to the end does. -/
theorem readPrefixLoop_eq {file : Stream} {max : Nat} {filled : Bytes}
    (h : filled.length ≤ max) :
    readPrefixLoop file max filled =
      if max ≤ filled.length + (upToFailure file).1.length then
        .ok (filled ++ (upToFailure file).1.take (max - filled.length))
      else (readToEnd file).map (filled ++ ·) := by
  fun_induction readPrefixLoop file max filled with
  | case1 file filled hlt msg rest hread =>
    obtain rfl := Stream.read_error hread
    rw [if_neg (by simpa [upToFailure] using hlt)]
    rfl
  | case2 file filled hlt rest hread =>
    -- Only a file at its end reads as nothing into a buffer with room.
    cases file with
    | nil =>
      rw [if_neg (by simpa [upToFailure] using hlt)]
      simp [readToEnd, Except.map]
    | cons item more =>
      cases item with
      | ioError msg => cases hread
      | piece first more' =>
        simp only [Stream.read, Prod.mk.injEq, Except.ok.injEq, List.take_eq_nil_iff,
          List.cons_ne_nil, or_false] at hread
        omega
  | case3 file filled hlt b bs rest hread ih =>
    have hlength := (Stream.read_ok hread).2
    have hsplit := upToFailure_read hread
    have hle : (filled ++ b :: bs).length ≤ max := by
      rw [List.length_append]
      omega
    have htotal : (filled ++ b :: bs).length + (upToFailure rest).1.length =
        filled.length + (b :: bs ++ (upToFailure rest).1).length := by
      simp only [List.length_append]
      omega
    rw [ih hle, readToEnd_eq file, readToEnd_eq rest, hsplit, htotal]
    by_cases hfull : max ≤ filled.length + (b :: bs ++ (upToFailure rest).1).length
    · have hroom : max - filled.length - (b :: bs).length = max - (filled ++ b :: bs).length := by
        rw [List.length_append]
        omega
      rw [if_pos hfull, if_pos hfull, List.take_append, List.take_of_length_le hlength, hroom,
        List.append_assoc]
    · rw [if_neg hfull, if_neg hfull]
      cases (upToFailure rest).2 with
      | none => simp [Except.map]
      | some msg => rfl
  | case4 file filled hge =>
    obtain hlen : filled.length = max := by omega
    rw [if_pos (by omega), hlen, Nat.sub_self, List.take_zero, List.append_nil]

/-- The start of a file, against all of it. -/
theorem readPrefixLoop_of_readToEnd {file : Stream} {data : Bytes} (h : readToEnd file = .ok data)
    (max : Nat) : readPrefixLoop file max [] = .ok (data.take max) := by
  rw [readPrefixLoop_eq (Nat.zero_le max), h]
  rw [readToEnd_eq] at h
  split at h
  · obtain rfl := Except.ok.inj h
    split
    · rfl
    · rename_i hlt
      simp only [List.length_nil, Nat.zero_add, Nat.not_le] at hlt
      rw [List.take_of_length_le (Nat.le_of_lt hlt)]
      rfl
  · cases h

/-- A start that is shorter than it might be is all of the file. -/
theorem readToEnd_of_readPrefixLoop {file : Stream} {max : Nat} {start : Bytes}
    (h : readPrefixLoop file max [] = .ok start) (hshort : start.length < max) :
    readToEnd file = .ok start := by
  rw [readPrefixLoop_eq (Nat.zero_le max)] at h
  split at h
  · rename_i hle
    obtain rfl := Except.ok.inj h
    simp only [List.nil_append, List.length_take, List.length_nil, Nat.sub_zero,
      Nat.zero_add] at hshort hle
    omega
  · cases hall : readToEnd file with
    | error msg =>
      rw [hall] at h
      cases h
    | ok data =>
      rw [hall] at h
      exact h

/-- Of a start the first bytes are read as well. -/
theorem readPrefixLoop_mono {file : Stream} {max : Nat} {start : Bytes}
    (h : readPrefixLoop file max [] = .ok start) {n : Nat} (hn : n ≤ max) :
    readPrefixLoop file n [] = .ok (start.take n) := by
  have hstart := h
  rw [readPrefixLoop_eq (Nat.zero_le max)] at hstart
  split at hstart
  · rename_i hle
    obtain rfl := Except.ok.inj hstart
    rw [readPrefixLoop_eq (Nat.zero_le n), if_pos (Nat.le_trans hn hle)]
    simp only [List.nil_append, List.length_nil, Nat.sub_zero, List.take_take, Nat.min_eq_left hn]
  · cases hall : readToEnd file with
    | error msg =>
      rw [hall] at hstart
      cases hstart
    | ok data =>
      rw [hall] at hstart
      obtain rfl := Except.ok.inj hstart
      exact readPrefixLoop_of_readToEnd hall n

end Files

/-- A filesystem whose starts of files belong to the files, and whose listings name what is
in a directory only. -/
structure Coherent (fs : FileSystem) : Prop where
  start_of_read : ∀ {path : Str} {data : Bytes} (max : Nat), fs.readFile path = .ok data →
    fs.readPrefix path max = defaultReadPrefix fs path max
  read_of_start : ∀ {path : Str} {start : Bytes} {max : Nat},
    fs.readPrefix path max = .ok start → start.length < max → fs.readFile path = .ok start
  start_mono : ∀ {path : Str} {start : Bytes} {max n : Nat},
    fs.readPrefix path max = .ok start → n ≤ max → fs.readPrefix path n = .ok (start.take n)
  listed : ∀ {path : Str} {listing : List DirEntry}, fs.readDir path = .ok listing →
    ∀ e ∈ listing, isDotName e.name = false

section Laws

/-- A filesystem is coherent over files that it opens. -/
theorem coherent_of_files {fs : FileSystem} (file : Str → Option Stream)
    (hread : ∀ path, (fs.readFile path).toOption =
      (file path).bind fun f => (readToEnd f).toOption)
    (hstarts : ∀ path max, (fs.readPrefix path max).toOption =
      (file path).bind fun f => (readPrefixLoop f max []).toOption)
    (hlisted : ∀ path listing, fs.readDir path = .ok listing →
      ∀ e ∈ listing, isDotName e.name = false) : Coherent fs where
  start_of_read {path data} max h := by
    obtain ⟨f, hf, hdata⟩ := Option.bind_eq_some_iff.mp
      ((hread path).symm.trans (congrArg Except.toOption h))
    have hloop := readPrefixLoop_of_readToEnd (ok_of_toOption hdata) max
    have hstart : (fs.readPrefix path max).toOption = some (data.take max) := by
      rw [hstarts, hf, Option.bind_some, hloop]
      rfl
    rw [ok_of_toOption hstart, defaultReadPrefix, h]
    rfl
  read_of_start {path start max} h hshort := by
    obtain ⟨f, hf, hstart⟩ := Option.bind_eq_some_iff.mp
      ((hstarts path max).symm.trans (congrArg Except.toOption h))
    have hall := readToEnd_of_readPrefixLoop (ok_of_toOption hstart) hshort
    apply ok_of_toOption
    rw [hread, hf, Option.bind_some, hall]
    rfl
  start_mono {path start max n} h hn := by
    obtain ⟨f, hf, hstart⟩ := Option.bind_eq_some_iff.mp
      ((hstarts path max).symm.trans (congrArg Except.toOption h))
    have hloop := readPrefixLoop_mono (ok_of_toOption hstart) hn
    apply ok_of_toOption
    rw [hstarts, hf, Option.bind_some, hloop]
    rfl
  listed {path listing} := hlisted path listing

/-- A listing leaves out the dot names. -/
private theorem not_isDotName_of_listing {α : Type} {failed : Str → Error} {item : α → DirEntry}
    {entries : List (Except Str α)} {found : List DirEntry}
    (h : listing failed item entries = .ok found) : ∀ e ∈ found, isDotName e.name = false := by
  induction entries generalizing found with
  | nil =>
    cases h
    exact fun _ he => absurd he List.not_mem_nil
  | cons entry rest ih =>
    cases entry with
    | error msg => cases h
    | ok entry =>
      rw [listing] at h
      split at h
      · exact ih h
      · rename_i hname
        obtain ⟨more, hmore, rfl⟩ := map_eq_ok_iff.mp h
        rw [List.forall_mem_cons]
        exact ⟨Bool.eq_false_iff.mpr hname, ih hmore⟩

private theorem toOption_mapError {ε ε' α : Type} (f : ε → ε') (x : Except ε α) :
    (x.mapError f).toOption = x.toOption := by
  cases x <;> rfl

private theorem mapError_eq_ok_iff {ε ε' α : Type} {f : ε → ε'} {x : Except ε α} {a : α} :
    x.mapError f = .ok a ↔ x = .ok a := by
  cases x <;> simp [Except.mapError]

private theorem toOption_bind {ε α β : Type} (x : Except ε α) (f : α → Except ε β) :
    (x >>= f).toOption = x.toOption.bind fun a => (f a).toOption := by
  cases x <;> rfl

/-- The view of an ext4 volume is coherent. -/
private theorem coherent_ext4Fs {v : Ext4View} (h : v.ReadsWhole) : Coherent (ext4Fs v) := by
  apply coherent_of_files fun path => (v.open path).toOption
  · intro path
    rw [← h path]
    exact toOption_mapError _ _
  · intro path max
    change ((v.open path).mapError Error.ext4 >>= _).toOption = _
    simp only [toOption_bind, toOption_mapError]
  · intro path found hlist
    obtain ⟨entries, _, hlist⟩ := bind_eq_ok_iff.mp hlist
    exact not_isDotName_of_listing hlist

/-- The view of a FAT volume is coherent. -/
private theorem coherent_vfatFs (v : FatView) : Coherent (vfatFs v) := by
  apply coherent_of_files fun path => (v.openFile (normalize path)).toOption.map (·.stream)
  · intro path
    change (fatFile v path >>= _).toOption = _
    simp only [toOption_bind, toOption_mapError, fatFile, Option.bind_map]
    rfl
  · intro path max
    change (fatFile v path >>= _).toOption = _
    simp only [toOption_bind, toOption_mapError, fatFile, Option.bind_map]
    rfl
  · intro path found hlist
    obtain ⟨entries, _, hlist⟩ := bind_eq_ok_iff.mp hlist
    exact not_isDotName_of_listing hlist

end Laws

/-- Each of the libraries reads a whole file as the open file delivers it. -/
def Libraries.ReadWhole (libs : Libraries) : Prop :=
  ∀ dev v, libs.ext4 dev = .ok v → v.ReadsWhole

/-- Whatever filesystem is opened, in whatever pieces its library delivers the files. -/
theorem coherent_open {libs : Libraries} (hlibs : libs.ReadWhole) {dev : Device} {fs : FileSystem}
    (h : Fsys.open (backends libs) dev = .ok fs) : Coherent fs := by
  obtain ⟨found, _, h⟩ := bind_eq_ok_iff.mp h
  split at h
  · obtain ⟨v, hv, rfl⟩ := map_eq_ok_iff.mp (mapError_eq_ok_iff.mp h)
    exact coherent_ext4Fs (hlibs dev v hv)
  · obtain ⟨v, _, rfl⟩ := map_eq_ok_iff.mp (mapError_eq_ok_iff.mp h)
    exact coherent_vfatFs v
  · cases h
  · cases h

/-- What is reported of a kernel goes by the start of the file. -/
theorem Coherent.kernelCompression {fs : FileSystem} (h : Coherent fs) (c : Codecs) {e : BootEntry}
    {kernel : Str} {data : Bytes} (hkernel : e.kernel = some kernel)
    (hread : fs.readFile kernel = .ok data) :
    kernelCompression c fs e = compression c (data.take sniffLen) := by
  have hstarts := h.start_of_read sniffLen hread
  rw [defaultReadPrefix, hread] at hstarts
  rw [Kernel.kernelCompression, hkernel, Option.bind_some, hstarts]
  rfl

end BootExtractor.Fsys
