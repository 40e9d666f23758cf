import BootExtractor.Boot.Tracking
import BootExtractor.Cli.Host
import BootExtractor.Cli.Uri
import BootExtractor.Part.Table

/-!
# The shell

A loop over input lines. A command runs in a partition and a directory of it, and
prints its error; but the error of a file argument that names no readable partition
is handed to the caller of the loop.
-/

namespace BootExtractor.Cli

open BootExtractor.Part

/-- A partition with a filesystem that can be read. -/
abbrev Volume := Partition × FileSystem

/-- Where the shell is, and the files of the machine. -/
structure State where
  current : Nat
  cwd : Str
  files : Files

/-- Where the shell starts. -/
def start (files : Files) : State := ⟨0, "/".toList, files⟩

/-- A line by the arm of the shell that takes it. -/
inductive Command where
  | help
  | exit
  | parts
  | use (which : Str)
  | pwd
  | cd (path : Str)
  | ls (path : Str)
  | cat (path : Str)
  | cp (src dest : Str)
  | boot
  | usage (text : Str)
  | unknown (cmd : Str)
  deriving DecidableEq, Repr

/-- The words that end the session. -/
def exitWords : List Str := ["exit".toList, "quit".toList, "q".toList]

/-- The arm for a command word and its arguments. -/
def command (cmd : Str) (args : List Str) : Command :=
  if cmd = "help".toList ∨ cmd = "?".toList then .help
  else if cmd ∈ exitWords then .exit
  else if cmd = "parts".toList then .parts
  else if cmd = "use".toList then
    match args with
    | [which] => .use which
    | _ => .usage "usage: use <N|pN>".toList
  else if cmd = "pwd".toList then .pwd
  else if cmd = "cd".toList then .cd (args.head?.getD "/".toList)
  else if cmd = "ls".toList then .ls (args.head?.getD ".".toList)
  else if cmd = "cat".toList then
    match args with
    | [path] => .cat path
    | _ => .usage "usage: cat <path>".toList
  else if cmd = "cp".toList then
    match args with
    | [src, dest] => .cp src dest
    | _ => .usage "usage: cp <path> <local dest>".toList
  else if cmd = "boot".toList ∨ cmd = "entries".toList then .boot
  else .unknown cmd

/-- The message for a partition without a filesystem. -/
def noFilesystem (n : Nat) : Str := "no readable filesystem on partition ".toList ++ Str.dec n

/-- `switch_part`. -/
def switchPart (fss : List Volume) (which : Str) : Except Str Nat :=
  match parseIndex (which.dropWhile (· == 'p')) with
  | .error e => .error e
  | .ok n =>
    match fss.findIdx? (·.1.index == n) with
    | some i => .ok i
    | none => .error (noFilesystem n)

/-- One segment of a path on the parts in front of it. -/
def pushSegment (parts : List Str) (seg : Str) : List Str :=
  if seg = [] ∨ seg = ".".toList then parts
  else if seg = "..".toList then parts.dropLast
  else parts ++ [seg]

/-- `resolve`: a path against the working directory, with `.` and `..` folded. -/
def resolve (cwd input : Str) : Str :=
  let base := if Str.startsWith input "/".toList then [] else cwd
  '/' :: Str.join "/".toList ((Str.split '/' base ++ Str.split '/' input).foldl pushSegment [])

/-- `locate`: the filesystem to read from and the path in it. -/
def locate (fss : List Volume) (here : Volume) (cwd input : Str) :
    Except Str (FileSystem × Str) :=
  match parseUri input with
  | (some n, path) =>
    match fss.find? (·.1.index == n) with
    | some v => .ok (v.2, resolve "/".toList path)
    | none => .error (noFilesystem n)
  | (none, _) => .ok (here.2, resolve cwd input)

/-- `show_boot`, without what it prints. -/
def showBoot (here : Volume) : Except Failure Unit :=
  match Boot.scan here.2 with
  | .error f => .error (Failure.ofFault f)
  | .ok found =>
    if found.entries = [] then
      .error (.err ("no boot entries on partition ".toList ++ Str.dec here.1.index))
    else .ok ()

/-- What comes of one pass of the loop. -/
inductive Outcome where
  /-- The next line is read; the error was printed. -/
  | goOn (s : State) (error : Option Str)
  /-- `break`. -/
  | stop
  /-- The error is returned from the loop by `?`. -/
  | leave (error : Str)
  | panic

/-- An error that the loop prints, in an unchanged state. -/
def answered {α : Type} (s : State) (result : Except Error α) : Outcome :=
  match result with
  | .ok _ => .goOn s none
  | .error e => .goOn s (some e.display)

/-- A command on a file argument: `locate(..)?` first. -/
def onFile (fss : List Volume) (here : Volume) (s : State) (path : Str)
    (f : FileSystem → Str → Outcome) : Outcome :=
  match locate fss here s.cwd path with
  | .error e => .leave e
  | .ok (fs, path) => f fs path

/-- The arms of `use`, `cd`, `cp` and `boot`. -/
def useArm (fss : List Volume) (s : State) (which : Str) : Outcome :=
  match switchPart fss which with
  | .ok i => .goOn { s with current := i, cwd := "/".toList } none
  | .error e => .goOn s (some e)

/-- The `cd` arm. -/
def cdArm (here : Volume) (s : State) (path : Str) : Outcome :=
  match here.2.readDir (resolve s.cwd path) with
  | .ok _ => .goOn { s with cwd := resolve s.cwd path } none
  | .error _ => .goOn s (some (resolve s.cwd path ++ ": not a directory".toList))

/-- The `cp` arm, once its file is found. -/
def cpArm (refuses : Refusals) (s : State) (dest : Str) (fs : FileSystem) (path : Str) : Outcome :=
  match fs.readFile path with
  | .error e => .goOn s (some e.display)
  | .ok data =>
    match writeDest refuses dest path data s.files with
    | .ok _ files => .goOn { s with files := files } none
    | .error e files => .goOn { s with files := files } (some e)

/-- The `boot` arm. -/
def bootArm (here : Volume) (s : State) : Outcome :=
  match showBoot here with
  | .ok () => .goOn s none
  | .error (.err e) => .goOn s (some e)
  | .error _ => .panic

/-- One command. -/
def execute (fss : List Volume) (refuses : Refusals) (here : Volume) (s : State) :
    Command → Outcome
  | .help | .parts | .pwd => .goOn s none
  | .exit => .stop
  | .use which => useArm fss s which
  | .cd path => cdArm here s path
  | .ls path => onFile fss here s path fun fs path => answered s (fs.readDir path)
  | .cat path => onFile fss here s path fun fs path => answered s (fs.readFile path)
  | .cp src dest => onFile fss here s src (cpArm refuses s dest)
  | .boot => bootArm here s
  | .usage text => .goOn s (some text)
  | .unknown cmd =>
    .goOn s (some ("unknown command '".toList ++ cmd ++ "' — try 'help'".toList))

/-- A line, and what the machine makes of the writes of its command. -/
structure Input where
  line : Str
  refuses : Refusals

/-- One pass of the loop: the prompt, which names the current partition, and the line. -/
def step (fss : List Volume) (s : State) (i : Input) : Outcome :=
  match fss[s.current]? with
  | none => .panic
  | some here =>
    match Str.splitWhitespace i.line with
    | [] => .goOn s none
    | cmd :: args => execute fss i.refuses here s (command cmd args)

/-- One pass as it was made. -/
structure Pass where
  before : State
  input : Input
  outcome : Outcome

/-- `run`, by the passes of its loop. It returns after the last of them: at the end of the
input, or where a pass does not go on. -/
def run (fss : List Volume) (s : State) : List Input → List Pass
  | [] => []
  | i :: rest =>
    ⟨s, i, step fss s i⟩ ::
      match step fss s i with
      | .goOn t _ => run fss t rest
      | .stop | .leave _ | .panic => []

end BootExtractor.Cli
