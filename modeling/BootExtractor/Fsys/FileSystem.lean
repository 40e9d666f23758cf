import BootExtractor.Error
import BootExtractor.Lib.Bytes

/-!
# Filesystems

A read-only view of a filesystem by what its operations answer. Paths are absolute
within the filesystem.
-/

namespace BootExtractor

/-- What a directory entry is. -/
inductive FileKind where
  | file
  | dir
  | symlink
  | other
  deriving DecidableEq, Repr

/-- One item of a directory listing. -/
structure DirEntry where
  name : Str
  kind : FileKind
  deriving DecidableEq, Repr

/-- `FileSystem`, by the operations that scanning uses. -/
structure FileSystem where
  readDir : Str → Except Error (List DirEntry)
  readFile : Str → Except Error Bytes
  «exists» : Str → Bool
  /-- At most this many bytes from the start of a file. -/
  readPrefix : Str → Nat → Except Error Bytes
  fileSize : Str → Except Error Nat
  readLink : Str → Option Str

end BootExtractor
