import MiniLisp.Repl
import Std.Time.DateTime.Timestamp

namespace MiniLisp.Repl

/-- Bounds the steps of one evaluation; no run of the program is that long. -/
def maxSteps : Nat := 1152921504606846976

/-- All the text of the stream. -/
partial def readAll (stream : IO.FS.Stream) (text : String) : IO String := do
  let line ← stream.getLine
  if line.isEmpty then return text else readAll stream (text ++ line)

/-- The files below a directory, under their names from the working directory. -/
partial def gather (place : String) (entries : Array IO.FS.DirEntry) (files : Files) :
    IO Files := do
  let mut files := files
  for entry in entries do
    let name := place ++ entry.fileName
    if ← entry.path.isDir then
      files ← gather (name ++ "/") (← entry.path.readDir) files
    else
      files := files.add name (← IO.FS.readBinFile entry.path)
  return files

end MiniLisp.Repl

open MiniLisp in
def main (args : List String) : IO UInt32 := do
  let files ← Repl.gather "" (← (← IO.currentDir).readDir) Files.empty
  let input ← Repl.readAll (← IO.getStdin) ""
  let clock := (← Std.Time.Timestamp.now).toMillisecondsSinceUnixEpoch
  match Repl.run Repl.maxSteps args (World.start files input (Int64.ofInt clock.val)) with
  | none => return 2
  | some outcome =>
    IO.print outcome.output
    IO.eprint outcome.errors
    return UInt32.ofNat outcome.code
