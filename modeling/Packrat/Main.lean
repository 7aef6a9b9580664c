import Packrat.Calculator.Program
import Packrat.Json.Formatter
import Packrat.TreeDump

/-!
# `Packrat.Main` — the command line

The first argument names the program: `calc`, `dump` or `jsonformat`. The others are the program's own.

## Contents
- **Input.** Reading the standard input, and opening what the arguments name.
- **Running.** `main` runs the program and writes what it has written.
-/

namespace Packrat.Main

/-- The bytes of an argument. -/
def bytesOf (s : String) : Bytes := s.toUTF8.toList

/-- Reads a stream to its end. -/
partial def readToEnd (stream : IO.FS.Stream) (text : ByteArray) : IO ByteArray := do
  let chunk ← stream.read 65536
  if chunk.isEmpty then return text else readToEnd stream (text ++ chunk)

/-- What opening a path gives. -/
def openPath (path : String) : IO Opened := do
  match ← (IO.FS.Handle.mk path .read).toBaseIO with
  | .error _ => return .missing
  | .ok handle =>
    match ← handle.readBinToEnd.toBaseIO with
    | .error _ => return .folder
    | .ok text => return .file text.toList

/-- The transcript of the program with the given name. -/
def runProgram (program : String) (args : List Bytes) (stdin : Bytes) (files : List (Bytes × Opened)) :
    Transcript :=
  let file (path : Bytes) : Opened := (findEntry path files).getD .missing
  match program with
  | "calc" => Calculator.run stdin
  | "dump" => TreeDump.run args stdin file
  | "jsonformat" => Json.run args stdin file
  | _ => ⟨1, [], reportLine "unknown program: " (bytesOf program)⟩

/-- Writes bytes to a stream. -/
def write (stream : IO.FS.Stream) (text : Bytes) : IO Unit := do
  stream.write ⟨text.toArray⟩
  stream.flush

end Packrat.Main

open Packrat in
/-- Runs the program that the first argument names. -/
def main (args : List String) : IO UInt32 := do
  match args with
  | [] =>
    Main.write (← IO.getStderr) (reportLine "usage: packrat calc|dump|jsonformat [argument ...]" [])
    return 1
  | program :: rest =>
    let stdin ← Main.readToEnd (← IO.getStdin) ByteArray.empty
    let files ← rest.mapM fun (path : String) => do return (Main.bytesOf path, ← Main.openPath path)
    let t := Main.runProgram program (rest.map Main.bytesOf) stdin.toList files
    Main.write (← IO.getStdout) t.out
    Main.write (← IO.getStderr) t.err
    return t.status.toUInt32
