import FeatureLogic.CommandLine.Program
/-!
The program on a disk. The two files that a command line names are read first, and the rest works
on what was read.
-/
set_option autoImplicit false

namespace FeatureLogic

def FileError.ofIOError : IO.Error → FileError
  | .noFileOrDirectory .. => .notFound
  | .inappropriateType _ 20 _ => .notDirectory
  | .inappropriateType _ 21 _ => .directory
  | .invalidArgument _ 36 _ => .nameTooLong
  | .invalidArgument _ 22 _ => .nulInName
  | e => .other (toString e)

namespace Disk

def chunkSize : Nat := 1024 * 1024

/-- Reads on in at most `chunks` steps. Of a file that is larger than a document may be only the
size is of interest. -/
def readRest (h : IO.FS.Handle) : Nat → File → IO File
  | 0, f => return f
  | chunks + 1, f => do
    let chunk ← h.read (USize.ofNat chunkSize)
    if chunk.isEmpty then return f
    let content := if documentSizeLimit < f.size then f.content.get else f.content.get ++ chunk
    readRest h chunks ⟨f.size + chunk.size, .pure content⟩

def read (path : String) : IO FileSystem.Entry := do
  let h ← IO.FS.Handle.mk path .read
  return .file (← readRest h (Nat.pow 2 24) ⟨0, .pure .empty⟩)

def entry (path : String) : IO (Except FileError FileSystem.Entry) := do
  try return .ok (← read path)
  catch e =>
    match FileError.ofIOError e with
    | .directory => return .ok .directory
    | e => return .error e

/-- The disk as far as some paths see it. -/
def snapshot (paths : List String) : IO FileSystem := do
  let entries ← paths.mapM fun path => return (path, ← entry path)
  return fun path => ((entries.find? (·.1 = path)).map (·.2)).getD (.error .notFound)

def files (args : List String) : IO FileSystem :=
  match Invocation.ofArguments args with
  | .ok i => snapshot [i.config, i.command.file]
  | .error _ => snapshot []

end Disk

end FeatureLogic

open FeatureLogic in
def main (args : List String) : IO UInt32 := do
  let r := Program.respond (← Disk.files args) args
  IO.print r.output
  IO.eprint r.errors
  return r.exitCode
