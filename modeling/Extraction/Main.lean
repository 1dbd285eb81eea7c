import Extraction.CommandLine.Session

/-!
# The program

Reads the files that the command line names and the standard input, and writes the response.  No
front end for the source language is built in: of a program, only files without a package clause can
be reported on.
-/

namespace Extraction

/-- A directory name that no file on disk is looked up in. -/
def scratchDirectory : String := "/tmp/extractcheck"

def loadAlone (disk : Disk) (request : Request) : Except String Program :=
  let name := (request.selections.head?.map (·.filename)).getD ""
  let bytes := (request.overlay.lookup name).getD ((disk.read name).toOption.getD [])
  match Program.ofClauselessFile? "main" name bytes with
  | some program => .ok program
  | none => .error "no front end for Go source text is available"

def readFile? (name : String) : IO (Option (String × List UInt8)) := do
  try
    let bytes ← IO.FS.readBinFile name
    return some (name, bytes.toList)
  catch _ => return none

def readInput (stream : IO.FS.Stream) : IO (List UInt8) := do
  let mut bytes := ByteArray.empty
  repeat
    let chunk ← stream.read 65536
    if chunk.isEmpty then break
    bytes := bytes ++ chunk
  return bytes.toList

end Extraction

open Extraction in
def main (arguments : List String) : IO UInt32 := do
  let current := (← IO.currentDir).toString
  let files ← (CommandLine.filesRead arguments).filterMapM readFile?
  let disk := Disk.ofFiles current files
  let input ← if CommandLine.readsInput arguments then readInput (← IO.getStdin) else pure []
  let host : Host := { disk, load := loadAlone disk }
  let response := CommandLine.run { host, input, scratch := scratchDirectory } arguments
  IO.print response.output
  IO.eprint response.errors
  return UInt32.ofNat response.exit.code
