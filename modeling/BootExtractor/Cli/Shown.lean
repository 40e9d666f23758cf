import BootExtractor.Cli.Sessions

/-!
# What the reading commands show

`md5` and `cp` say the same of a file: the digest is that of the bytes that are written.
And what `ls` and `cat` show in the shell is what the commands of these names show at the
address of their argument.
-/

namespace BootExtractor.Cli

open Effect Fsys Guest Kernel BootExtractor.Part

/-- What `cp` writes and `md5` digests. -/
def copied (readers : Readers) (c : Codecs) (disk : Device) (source : Str) (part : Option Nat)
    (decompress : Bool) : Except Str Bytes :=
  match readByUri readers disk source part with
  | .error e => .error e
  | .ok data => (kernelData c decompress data).mapError Error.display

section Digests

variable {readers : Readers} {c : Codecs} {disk : Device} {refuses : Refusals} {files : Files}
  {source : Str} {part : Option Nat} {decompress : Bool}

/-- The line of `md5` is about the bytes of a copy. -/
theorem cmdMd5_eq (md5 : Bytes → Str) :
    cmdMd5 md5 readers c disk source part decompress =
      (copied readers c disk source part decompress).map fun data =>
        md5 data ++ "  ".toList ++ source ++ ['\n'] := by
  unfold cmdMd5 copied
  cases readByUri readers disk source part with
  | error e => rfl
  | ok data =>
    simp only [bind, Except.bind]
    cases kernelData c decompress data <;> rfl

/-- `cp` writes the bytes of a copy. -/
theorem cmdCp_eq (dest : Str) :
    cmdCp readers c refuses disk source dest part decompress =
      ofExcept Failure.err (copied readers c disk source part decompress) >>= fun data =>
        hostly (writeDest refuses dest (parseUri source).2 data) >>= fun _ => pure ⟨⟩ := by
  unfold cmdCp copied
  cases readByUri readers disk source part with
  | error e => rfl
  | ok data =>
    rw [Effect.ofExcept, pure_bind]
    dsimp only
    cases kernelData c decompress data <;> rfl

/-- A file that is written to a destination is one more file, and nothing else changes. -/
theorem yields_writeDest (dest sourcePath : Str) (data : Bytes) :
    Yields (writeDest refuses dest sourcePath data)
      (fun _ files' => ∃ path, files' = files.set path (.file data)) (fun _ _ => True) files := by
  simp only [writeDest, yields_bind, yields_get, yields_mapError]
  exact (yields_write _ data).mono (fun _ _ h => ⟨_, h.2.2⟩) fun _ _ _ => trivial

/-- `md5` digests what `cp` writes: where it fails, copying fails before it writes and with the
same message, and where it does not, a copy that succeeds leaves one file of the digested bytes. -/
theorem md5_digests_copy (md5 : Bytes → Str) (readers : Readers) (c : Codecs) (disk : Device)
    (refuses : Refusals) (source dest : Str) (part : Option Nat) (decompress : Bool)
    (files : Files) :
    (∀ text, cmdMd5 md5 readers c disk source part decompress = .error text →
      cmdCp readers c refuses disk source dest part decompress files =
        .error (.err text) files) ∧
    ∀ line, cmdMd5 md5 readers c disk source part decompress = .ok line →
      ∃ data, line = md5 data ++ "  ".toList ++ source ++ ['\n'] ∧
        ∀ files', cmdCp readers c refuses disk source dest part decompress files =
          .ok ⟨⟩ files' → ∃ path, files' = files.set path (.file data) := by
  rw [cmdMd5_eq, cmdCp_eq]
  cases copied readers c disk source part decompress with
  | error e =>
    refine ⟨fun text h => ?_, fun line h => nomatch h⟩
    cases h
    rfl
  | ok data =>
    refine ⟨fun text h => (nomatch h), fun line h => ⟨data, (Except.ok.inj h).symm, ?_⟩⟩
    intro files' hcopy
    have hwrites : Yields (hostly (writeDest refuses dest (parseUri source).2 data) >>= fun _ =>
        pure ⟨⟩) (fun (_ : PUnit) t => ∃ path, t = files.set path (.file data)) (fun _ _ => True)
        files := by
      simp only [yields_bind, yields_hostly]
      exact yields_writeDest dest _ data
    exact hwrites.of_ok hcopy

end Digests

section Shown

variable {readers : Readers} {disk : Device}

/-- The directory at an address is listed on the partition of the address. -/
theorem Reaches.list {p : Partition} {fs : FileSystem} {path : Str}
    (h : Reaches readers disk p fs) (hpath : Boot.Absolute path) (part : Option Nat) :
    cmdLs readers disk (uri p.index path) part =
      .ok ((fs.readDir path).toOption.toList.map fun listing => (p.index, listing)) := by
  obtain ⟨table, hscan, hp⟩ := h.exists_table
  have hparse := parseUri_uri ((numbered_scan hscan).range p hp).2 hpath
  have hnamed := @openParts_named readers disk _ (numbered_scan hscan).increasing p hp
  have hfs : openFilesystems readers disk (some p.index) = .ok [(p, fs)] := by
    rw [openFilesystems, hscan]
    exact hnamed.trans (by rw [h.opens]; rfl)
  simp only [cmdLs, hparse, Option.some_or, requireFilesystems, hfs]
  cases hread : fs.readDir path <;> simp [hread, Except.toOption]

/-- What `ls` and `cat` read in the shell, from whichever directory of whichever partition, the
commands of these names show at the address of the argument, and `md5` digests. -/
theorem shell_shows {fss : List Volume} (h : requireFilesystems readers disk none = .ok fss)
    {here : Volume} (hhere : here ∈ fss) {cwd path : Str} {fs : FileSystem} {full : Str}
    (hloc : locate fss here cwd path = .ok (fs, full)) (part : Option Nat) :
    ∃ n, cmdLs readers disk (addressOf fss here cwd path) part =
        .ok ((fs.readDir full).toOption.toList.map fun listing => (n, listing)) ∧
      (cmdCat readers disk (addressOf fss here cwd path) part).toOption =
        (fs.readFile full).toOption ∧
      ∀ (md5 : Bytes → Str) (c : Codecs),
        (cmdMd5 md5 readers c disk (addressOf fss here cwd path) part false).toOption =
          (fs.readFile full).toOption.map fun data =>
            md5 data ++ "  ".toList ++ addressOf fss here cwd path ++ ['\n'] := by
  obtain ⟨_, _, hreaches⟩ := requireFilesystems_all h
  obtain ⟨v, hv, rfl, hpath, haddress⟩ := addressOf_located hhere hloc
  have hlist := (hreaches v hv).list hpath part
  have hread := ((hreaches v hv).read hpath part).2
  rw [haddress]
  refine ⟨v.1.index, hlist, ?_, fun md5 c => ?_⟩
  · rw [cmdCat, hread]
    cases v.2.readFile full <;> rfl
  · rw [cmdMd5_eq, copied, hread]
    cases v.2.readFile full <;> rfl

/-- A file above the working directory of a session. -/
theorem shell_shows_two :
    ∃ fss here, requireFilesystems twoConfigsReaders twoConfigsDisk none = .ok fss ∧
      here ∈ fss ∧ ∃ n,
        cmdLs twoConfigsReaders twoConfigsDisk
            (addressOf fss here "/boot/grub".toList "../../vmlinuz".toList) (some 7) =
          .ok ((here.2.readDir "/vmlinuz".toList).toOption.toList.map fun listing =>
            (n, listing)) ∧
        (cmdCat twoConfigsReaders twoConfigsDisk
            (addressOf fss here "/boot/grub".toList "../../vmlinuz".toList) (some 7)).toOption =
          (here.2.readFile "/vmlinuz".toList).toOption ∧
        ∀ (md5 : Bytes → Str) (c : Codecs),
          (cmdMd5 md5 twoConfigsReaders c twoConfigsDisk
              (addressOf fss here "/boot/grub".toList "../../vmlinuz".toList) (some 7)
              false).toOption =
            (here.2.readFile "/vmlinuz".toList).toOption.map fun data =>
              md5 data ++ "  ".toList ++
                addressOf fss here "/boot/grub".toList "../../vmlinuz".toList ++ ['\n'] := by
  obtain ⟨fss, hfss⟩ := Option.isSome_iff_exists.mp requireFilesystems_two
  have hrequire := Boot.ok_of_toOption hfss
  obtain ⟨hne, -, -⟩ := requireFilesystems_all hrequire
  obtain ⟨here, more, rfl⟩ := List.exists_cons_of_ne_nil hne
  have hhere : here ∈ here :: more := List.mem_cons_self
  have hloc : locate (here :: more) here "/boot/grub".toList "../../vmlinuz".toList =
      .ok (here.2, "/vmlinuz".toList) := rfl
  exact ⟨_, here, hrequire, hhere, shell_shows hrequire hhere hloc (some 7)⟩

end Shown

end BootExtractor.Cli
