import BootExtractor.Lib.Str

/-!
# Errors and faults

The error type of the program with the text each error prints, and the three ways
in which a call can fail to return a value. Only the first of them is an answer
that a caller sees.
-/

namespace BootExtractor

/-- What went wrong, as the program reports it. -/
inductive Error where
  | io (msg : Str)
  | outOfBounds (offset len size : Nat)
  | unknownImageFormat (msg : Str)
  | qcow2 (msg : Str)
  | qcow2Unsupported (msg : Str)
  | gpt (msg : Str)
  | noPartitions
  | noSuchPartition (index : Nat)
  | unknownFilesystem (name : Option Str)
  | ext4 (msg : Str)
  | vfat (msg : Str)
  | notFound (path : Str)
  | notADirectory (path : Str)
  | noBootArtifacts
  | kernelDecompress (msg : Str)
  | http (msg : Str)
  deriving DecidableEq, Repr

/-- The text of an error. -/
def Error.display : Error → Str
  | .io msg => "I/O error: ".toList ++ msg
  | .outOfBounds offset len size =>
    "read out of bounds: offset ".toList ++ Str.dec offset ++ " + len ".toList ++ Str.dec len ++
      " > size ".toList ++ Str.dec size
  | .unknownImageFormat msg => "not a supported disk image: ".toList ++ msg
  | .qcow2 msg => "qcow2: ".toList ++ msg
  | .qcow2Unsupported msg => "qcow2 feature not supported yet: ".toList ++ msg
  | .gpt msg => "gpt: ".toList ++ msg
  | .noPartitions => "no partition table found and whole disk is not a filesystem".toList
  | .noSuchPartition index => "partition ".toList ++ Str.dec index ++ " does not exist".toList
  | .unknownFilesystem none => "unrecognized filesystem".toList
  | .unknownFilesystem (some name) =>
    "unrecognized filesystem (detected ".toList ++ name ++ ", not supported yet)".toList
  | .ext4 msg => "ext4: ".toList ++ msg
  | .vfat msg => "vfat: ".toList ++ msg
  | .notFound path => "file not found: ".toList ++ path
  | .notADirectory path => "not a directory: ".toList ++ path
  | .noBootArtifacts => "no boot artifacts (kernel/initramfs) found in any partition".toList
  | .kernelDecompress msg => "kernel decompression: ".toList ++ msg
  | .http msg => "remote image: ".toList ++ msg

/-- How a call ends without a value: with an error it returns, with a panic, or
not at all because a loop repeats without progress. -/
inductive Fault where
  | err (e : Error)
  | panic
  | spin
  deriving DecidableEq, Repr

/-- The faults a caller sees as an ordinary `Err`. -/
def Fault.IsErr : Fault → Prop
  | .err _ => True
  | .panic => False
  | .spin => False

/-- An error that is returned is one. -/
@[simp] theorem Fault.isErr_err (e : Error) : (Fault.err e).IsErr := trivial

/-- A result of the program as an answer or a fault. -/
def liftError {α : Type} : Except Error α → Except Fault α
  | .ok a => .ok a
  | .error e => .error (.err e)

end BootExtractor
