import BootExtractor.Cli.Select
import BootExtractor.Kernel.Unwrap

/-!
# Extracting the files of an entry

The kernel, the ramdisks and the configs are copied to one directory under their base
names, and the command line is written next to them.
-/

namespace BootExtractor.Cli

open Effect Fsys Kernel

/-- What the user asks of `extract`, besides the image. -/
structure Options where
  output : Str
  entry : Option Nat := none
  dryRun : Bool := false
  vdafix : Bool := false
  decompress : Bool := false

/-- A file operation of a command. -/
def hostly {α : Type} (x : EStateM Str Files α) : EStateM Failure Files α :=
  EStateM.adaptExcept Failure.err x

/-- A file of the image, with the error that names it. -/
def readNamed (fs : FileSystem) (path : Str) : EStateM Failure Files Bytes :=
  ofExcept (fun _ => .err ("reading ".toList ++ path)) (fs.readFile path)

/-- The bytes to write for a kernel. -/
def kernelData (c : Codecs) (decompress : Bool) (data : Bytes) : Except Error Bytes :=
  if decompress then toBootable c data else .ok data

section Copying

variable (c : Codecs) (refuses : Refusals) (opts : Options) (job : Job)

/-- The closure `copy`. -/
def copy (path : Str) : EStateM Failure Files PUnit := do
  let data ← readNamed job.fs path
  let _ ← hostly (writeDest refuses opts.output path data)

/-- The kernel is the one file that is unwrapped. -/
def copyKernel : EStateM Failure Files PUnit := do
  let data ← readNamed job.fs job.kernel
  let data ← ofExcept (fun e => .err e.display) (kernelData c opts.decompress data)
  let _ ← hostly (writeDest refuses opts.output job.kernel data)

/-- The command line to write. -/
def Job.cmdline : Option Str :=
  if opts.vdafix then job.fixed.or job.entry.cmdline else job.entry.cmdline

/-- The command line goes to a file of its own. -/
def writeCmdline : EStateM Failure Files PUnit :=
  match job.cmdline opts with
  | some cmdline =>
    hostly (write refuses (joinPath opts.output "cmdline".toList) (Utf8.encode cmdline))
  | none => pure ⟨⟩

/-- The part of `cmd_extract` that writes. -/
def extractJob : EStateM Failure Files PUnit := do
  hostly (createDirAll refuses opts.output)
  copyKernel c refuses opts job
  forM job.entry.initrd (copy refuses opts job)
  forM job.configs (copy refuses opts job)
  writeCmdline refuses opts job

end Copying

/-- `cmd_extract`. -/
def cmdExtract (readers : Readers) (c : Codecs) (refuses : Refusals) (disk : Device)
    (opts : Options) : EStateM Failure Files PUnit := do
  let job ← ofExcept id (select readers disk opts.entry)
  if opts.dryRun then pure ⟨⟩ else extractJob c refuses opts job

end BootExtractor.Cli
