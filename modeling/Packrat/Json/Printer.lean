import Packrat.Json.Document

/-!
# `Packrat.Json.Printer` — writing JSON texts

## Contents
- **Layout.** `Layout`: compact, or with line breaks and a number of blanks per level.
- **Strings.** `writeString` escapes quotes, backslashes and control characters.
- **Documents.** `write`, on the structure of a document.
-/

namespace Packrat.Json

/-! ## Layout -/

/-- How a document is laid out: without any whitespace, or with each part on a line of its own, indented by
`step` blanks per level. -/
inductive Layout where
  | compact
  | pretty (step : Nat)
deriving DecidableEq

/-- The line break of a layout. -/
def Layout.newline : Layout → Bytes
  | .compact => []
  | .pretty _ => [0x0A]

/-- The blanks in front of a line at a level. -/
def Layout.indent : Layout → Nat → Bytes
  | .compact, _ => []
  | .pretty step, level => List.replicate (step * level) 0x20

/-- What stands between the name of a member and its value. -/
def Layout.colon : Layout → Bytes
  | .compact => Bytes.ascii ":"
  | .pretty _ => Bytes.ascii ": "

/-! ## Strings -/

/-- The lower-case hexadecimal digit of a number below 16. -/
def hexDigit (n : Nat) : UInt8 :=
  if n < 10 then (48 + n).toUInt8 else (87 + n).toUInt8

/-- A byte as it stands in a string. -/
def escapeByte (b : UInt8) : Bytes :=
  if b == Bytes.char '"' then Bytes.ascii "\\\""
  else if b == Bytes.char '\\' then Bytes.ascii "\\\\"
  else if b == 0x08 then Bytes.ascii "\\b"
  else if b == 0x0C then Bytes.ascii "\\f"
  else if b == 0x0A then Bytes.ascii "\\n"
  else if b == 0x0D then Bytes.ascii "\\r"
  else if b == 0x09 then Bytes.ascii "\\t"
  else if b < 0x20 then Bytes.ascii "\\u00" ++ [hexDigit (b.toNat / 16), hexDigit (b.toNat % 16)]
  else [b]

/-- A text between quotes. -/
def writeString (text : Bytes) : Bytes :=
  Bytes.ascii "\"" ++ text.flatMap escapeByte ++ Bytes.ascii "\""

/-! ## Documents -/

/-- The comma behind a part that another part follows. -/
def comma (isLast : Bool) : Bytes := if isLast then [] else Bytes.ascii ","

mutual

/-- Writes a document whose parts stand one level below `level`. -/
def write (layout : Layout) (level : Nat) : Json → Bytes
  | .null => Bytes.ascii "null"
  | .bool b => if b then Bytes.ascii "true" else Bytes.ascii "false"
  | .number spelling => spelling
  | .string text => writeString text
  | .array elements =>
    Bytes.ascii "[" ++ layout.newline ++ writeElements layout (level + 1) elements
      ++ layout.indent level ++ Bytes.ascii "]"
  | .object members =>
    Bytes.ascii "\x7b" ++ layout.newline ++ writeMembers layout (level + 1) members
      ++ layout.indent level ++ Bytes.ascii "\x7d"
termination_by structural j => j

/-- Writes the elements of an array, each on a line of its own. -/
def writeElements (layout : Layout) (level : Nat) : List Json → Bytes
  | [] => []
  | j :: rest =>
    layout.indent level ++ write layout level j ++ comma rest.isEmpty ++ layout.newline
      ++ writeElements layout level rest
termination_by structural elements => elements

/-- Writes the members of an object, each on a line of its own. -/
def writeMembers (layout : Layout) (level : Nat) : List (Bytes × Json) → Bytes
  | [] => []
  | (name, j) :: rest =>
    layout.indent level ++ writeString name ++ layout.colon ++ write layout level j
      ++ comma rest.isEmpty ++ layout.newline ++ writeMembers layout level rest
termination_by structural members => members

end

example : write (.pretty 2) 0 (.array [.null, .string [1]]) =
    Bytes.ascii "[\n  null,\n  \"\\u0001\"\n]" := by decide

end Packrat.Json
