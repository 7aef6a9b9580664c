import Packrat.Parse
import Packrat.Source.Compile

/-!
# `Packrat.Stream` — reading sources from a stream

## Contents
- **Streams.** What is left to read, and whether a read has met the end or has failed.
- **Reading.** `read` takes everything, or one line if it is interactive. A stream that has met its end or
  failed gives nothing more.
- **Using.** Compiling and parsing what a stream holds.
-/

namespace Packrat

/-- A stream of bytes. -/
structure Stream where
  rest : Bytes
  /-- Whether a read has met the end. -/
  ended : Bool := false
  /-- Whether a read has got nothing. -/
  failed : Bool := false

namespace Stream

/-- A stream of which nothing has been read. -/
def ofText (text : Bytes) : Stream := ⟨text, false, false⟩

/-! ## Reading -/

/-- Whether the stream can be read. -/
def isGood (s : Stream) : Bool := !s.ended && !s.failed

/-- Splits a text behind its first line feed, if it has one. -/
def splitLine : Bytes → Option (Bytes × Bytes)
  | [] => none
  | b :: rest =>
    if b == 0x0A then some ([b], rest)
    else (splitLine rest).map fun (line, rest) => (b :: line, rest)

/-- Reads all that is left. -/
def readAll (s : Stream) : Bytes × Stream := (s.rest, ⟨[], true, s.rest.isEmpty⟩)

/-- Reads a line with its line feed, or all that is left if it holds no line feed; reads all that is left
unless `interactive`. -/
def read (interactive : Bool) (s : Stream) : Bytes × Stream :=
  if !s.isGood then ([], { s with failed := true })
  else if interactive then
    match splitLine s.rest with
    | some (line, rest) => (line, ⟨rest, false, false⟩)
    | none => s.readAll
  else s.readAll

/-! ## Using -/

/-- Compiles the grammar source that a stream holds. -/
def compile {α : Type} (s : Stream) (options : Source.Options α) :
    Except Fault (Grammar α) × Stream :=
  let (text, s) := s.read false
  (Source.compile text options, s)

/-- Parses what a stream holds from the start rule, and gives the text read. -/
def parse {α σ : Type} (s : Stream) (g : Grammar α) (client : Client α σ) (interactive : Bool)
    (env : Env σ) : Except Fault Outcome × Bytes × Stream × Env σ :=
  let (text, s) := s.read interactive
  let (answer, env) := Packrat.parse g client g.start text env
  (answer, text, s, env)

end Stream

end Packrat
