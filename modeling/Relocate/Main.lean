import Relocate.Command.Outcome

/-!
# The program

Reads the files that a task names, carries the task out and delivers its result.
-/

set_option autoImplicit false

namespace Relocate.Command

open Relocate.Files

def fileFault : IO.Error → FileFault
  | .noFileOrDirectory .. => .notFound
  | .inappropriateType _ code _ => if code == 20 then .notDirectory else .isDirectory
  | e => .other (toString e)

def readFile (path : String) : IO (String × Except FileFault Bytes) := do
  try
    return (path, .ok (← IO.FS.readBinFile path).toList)
  catch e => return (path, .error (fileFault e))

def writeFile (path document : String) : IO (Except FileFault Unit) := do
  try
    IO.FS.writeFile path document
    return .ok ()
  catch e => return .error (fileFault e)

def lookupIn (files : List (String × Except FileFault Bytes)) (path : String) :
    Except FileFault Bytes :=
  (files.lookup path).getD (.error .notFound)

def fail (message : String) : IO UInt32 := do
  IO.eprint (lines [failureLine message])
  return 1

def deliverFiles (d : Delivery) : IO UInt32 := do
  match d.file with
  | none => IO.print d.document
  | some path =>
    if let .error f ← writeFile path d.document then
      return ← fail f.message
  IO.eprint (lines d.closing)
  return 0

def performTask (task : Task) (config : Matching.Config) : IO UInt32 := do
  let files ← task.inputs.mapM readFile
  let session := task.session (lookupIn files) config
  IO.eprint (lines session.notes)
  match session.result with
  | .ok delivery => deliverFiles delivery
  | .error message => fail message

end Relocate.Command

open Relocate.Command in
def main (arguments : List String) : IO UInt32 := do
  match Request.ofArguments arguments with
  | .error f =>
    IO.eprint (lines [failureLine f.message] ++ usage)
    return 2
  | .ok .version =>
    IO.print versionLine
    return 0
  | .ok .help =>
    IO.print usage
    return 0
  | .ok (.perform task config) => performTask task config
