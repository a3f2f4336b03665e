import Patchbay.CommandLine

/-! The program on real files. -/

namespace Patchbay.Main

open CommandLine

/-- The text in a file, if it can be read. -/
def readText (path : String) : IO (Option String) := do
  try
    let bytes ← IO.FS.readBinFile path
    return String.fromUTF8? bytes
  catch _ => return none

/-- Makes a file, or empties it. -/
def createFile (path : String) : IO Bool := do
  try
    IO.FS.writeBinFile path ByteArray.empty
    return true
  catch _ => return false

/-- The files of the system. -/
def systemFiles : Files IO where
  read := readText
  create := createFile
  write path bytes := IO.FS.writeBinFile path bytes

end Patchbay.Main

/-- Runs the program: its text goes to standard output, and an error to standard error. -/
def main (args : List String) : IO UInt32 := do
  let outcome ← Patchbay.CommandLine.run Patchbay.Main.systemFiles args
  IO.print outcome.output
  match outcome.error with
  | some error => IO.eprintln ("Error: " ++ error)
  | none => pure ()
  return UInt32.ofNat outcome.exitCode
