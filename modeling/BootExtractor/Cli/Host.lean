import BootExtractor.Error
import BootExtractor.Lib.Bytes
import BootExtractor.Lib.Effect

/-!
# The machine that the program runs on

The files that the commands write. A write ends in an error or leaves exactly the
bytes it was given; what it does to no path but its own is nothing.
-/

namespace BootExtractor.Cli

open Effect

/-- How a command ends without success: with the error it reports, or as a `Fault` does. -/
inductive Failure where
  | err (text : Str)
  | panic
  | spin
  deriving DecidableEq, Repr

/-- A failure of the library, as a command passes it on. -/
def Failure.ofFault : Fault → Failure
  | .err e => .err e.display
  | .panic => .panic
  | .spin => .spin

/-- What is at a path. -/
inductive Node where
  | dir
  | file (data : Bytes)
  deriving DecidableEq, Repr

/-- The files of the machine, by their paths. -/
abbrev Files := Str → Option Node

/-- One path holds `node` from now on. -/
def Files.set (files : Files) (path : Str) (node : Node) : Files := fun p =>
  if p = path then some node else files p

/-- The path that was set. -/
@[simp] theorem Files.set_same (files : Files) (path : Str) (node : Node) :
    files.set path node path = some node := if_pos rfl

/-- Every other path is left alone. -/
theorem Files.set_other {files : Files} {path p : Str} {node : Node} (h : p ≠ path) :
    files.set path node p = files p := if_neg h

/-- A write that the machine refuses. -/
structure Refusal where
  text : Str
  /-- What the file holds afterwards; none if it was not opened. -/
  left : Option Bytes

/-- The writes that the machine refuses, by their paths. -/
abbrev Refusals := Str → Option Refusal

/-- `Path::is_dir`. -/
def Files.isDir (files : Files) (path : Str) : Bool := path ≠ [] && files path == some .dir

/-- `Path::join`. -/
def joinPath (dir name : Str) : Str :=
  if Str.startsWith name "/".toList then name
  else if dir = [] ∨ dir.getLast? = some '/' then dir ++ name
  else dir ++ '/' :: name

/-- Paths whose last part can only be a directory. -/
def endsInDir (path : Str) : Bool :=
  Str.afterLast '/' path ∈ [[], ".".toList, "..".toList]

/-- `fs::write`. -/
def write (refuses : Refusals) (path : Str) (data : Bytes) : EStateM Str Files Unit := fun files =>
  if path = [] then .error "No such file or directory (os error 2)".toList files
  else if files.isDir path || endsInDir path then
    .error "Is a directory (os error 21)".toList files
  else
    match refuses path with
    | some r => .error r.text ((r.left.map fun b => files.set path (.file b)).getD files)
    | none => .ok () (files.set path (.file data))

/-- `fs::create_dir_all`; nothing looks at the directories above. -/
def createDirAll (refuses : Refusals) (path : Str) : EStateM Str Files Unit := fun files =>
  if path = [] then .ok () files
  else
    match files path, refuses path with
    | some .dir, _ => .ok () files
    | some (.file _), _ => .error "File exists (os error 17)".toList files
    | none, some r => .error r.text files
    | none, none => .ok () (files.set path .dir)

/-- `write_dest`: a directory gets the base name of the source. -/
def writeDest (refuses : Refusals) (dest sourcePath : Str) (data : Bytes) :
    EStateM Str Files Str := do
  let files ← get
  let path := if files.isDir dest then joinPath dest (Str.afterLast '/' sourcePath) else dest
  mapError (fun _ => "writing ".toList ++ path) (write refuses path data)
  pure path

end BootExtractor.Cli
