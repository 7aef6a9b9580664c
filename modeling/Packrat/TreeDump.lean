import Packrat.Folder
import Packrat.Stream
import Packrat.Transcript

/-!
# `Packrat.TreeDump` — printing the tree of a text

The program takes the name of a file with a grammar source and, if wanted, the name of a start rule. It parses
its standard input and prints the tree.

## Contents
- **Running.** `run`, on the arguments, the standard input and the files.
-/

namespace Packrat.TreeDump

/-- How the program is used. -/
def usage : Transcript := ⟨1, [], reportLine "Usage: dump grammar-file [start-rule]" []⟩

/-- The transcript of a program that ends with a message. -/
def complaint (intro : String) (message : Bytes) : Transcript := ⟨1, [], reportLine intro message⟩

/-- The transcript of a program that a fault ends. A mistake in the grammar is reported with the name of its
file. -/
def ofFault (name : Bytes) : Fault → Transcript
  | .grammar e => complaint "" (name ++ Bytes.ascii ":" ++ e.message)
  | fault => complaint "ERROR: " fault.message

/-- What is reported of a tree that stops before the end of the text. -/
def leftover (tree : Spanned Value) (text : Bytes) (env : Env Unit) : Bytes :=
  if tree.stop < text.length then
    reportLine "" ((env.positionAt tree.stop).1.render ++ Bytes.ascii ": input not fully consumed")
  else []

/-- Parses the standard input with a grammar and prints the tree. -/
def parseAndPrint (name : Bytes) (g : Grammar Empty) (stdin : Bytes) : Transcript :=
  match (Stream.ofText stdin).parse g Client.none false (Env.fresh ()) with
  | (.error fault, _) => ofFault name fault
  | (.ok (.failure e), _) => complaint "" e.message
  | (.ok (.tree tree), text, _, env) => ⟨0, reportLine "" tree.render, leftover tree text env⟩

/-- Compiles a grammar source and, with it, parses the standard input. -/
def compileAndRun (name : Bytes) (start : Option Bytes) (source stdin : Bytes) : Transcript :=
  match ((Stream.ofText source).compile { start } : Except Fault (Grammar Empty) × Stream) with
  | (.error fault, _) => ofFault name fault
  | (.ok g, _) => parseAndPrint name g stdin

/-- Runs the program; `file` tells what opening a path gives. -/
def run (args : List Bytes) (stdin : Bytes) (file : Bytes → Opened) : Transcript :=
  match args with
  | [] => usage
  | name :: rest =>
    match file name with
    | .missing => complaint "ERROR: failed to open " name
    | .folder => complaint "ERROR: " folderRead
    | .file source => compileAndRun name rest.head? source stdin

end Packrat.TreeDump
