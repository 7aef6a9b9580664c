import Packrat.Cursor
import Packrat.Terminal
import Packrat.Value

/-!
# `Packrat.Matcher` — matchers written outside a grammar

A matcher answers at a cursor with a value and the number of bytes it takes, so that it can neither leave
the input nor move backwards.

## Contents
- **The type.** `Matcher`, with faults of its own.
- **Blanks.** `blankLength?` is the length of one blank rune or comment; `spacing` takes them all.
- **Words.** `identifier` takes a letter, an underscore or a rune beyond ASCII, then also digits.
- **Places.** `position` and `endOfInput` take nothing.
- **Tables.** `Matcher.standard` names them.
-/

namespace Packrat

/-- Matches at a cursor, taking some bytes from there. -/
abbrev Matcher := Cursor → Except Fault (Match Value)

namespace Matcher

/-! ## Blanks -/

/-- Whether a rune is blank: space, TAB, VT, FF or a line ending. -/
def isBlank (r : Rune) : Bool := r == 0x20 || r == 0x09 || r == 0x0B || r == 0x0C || r.isLineEnding

/-- The opening of a line comment. -/
def lineOpening : Bytes := Bytes.ascii "//"

/-- The opening of a block comment. -/
def blockOpening : Bytes := Bytes.ascii "/*"

/-- The closing of a block comment. -/
def blockClosing : Bytes := Bytes.ascii "*/"

/-- The length of the comment or blank rune at the front of a text. A line comment stops before the line
feed; a block comment that is not closed is none. -/
def blankLength? (text : Bytes) : Option Nat :=
  if Bytes.startsWith lineOpening text then some (text.takeWhile (· != 0x0A)).length
  else if Bytes.startsWith blockOpening text then
    (Bytes.indexOf blockClosing (text.drop 2)).map (· + 4)
  else
    match Terminal.rune? text with
    | some (r, n) => if isBlank r then some n else none
    | none => none

/-- The number of bytes that blanks take at the front of a text, of which `skip` bytes are known to belong
to the blank before. -/
def spacingFrom : Nat → Bytes → Nat
  | _, [] => 0
  | 0, b :: rest =>
    match blankLength? (b :: rest) with
    | none => 0
    | some n => 1 + spacingFrom (n - 1) rest
  | skip + 1, _ :: rest => 1 + spacingFrom skip rest

/-- The number of bytes that blanks and comments take at the front of a text. -/
def spacingLength (text : Bytes) : Nat := spacingFrom 0 text

/-- Takes all blanks and comments; it never fails. -/
def spacing : Matcher := fun c => .ok (.success .unit (spacingLength c.remaining))

/-! ## Words -/

/-- Whether an identifier may start with a rune. -/
def isIdentifierStart (r : Rune) : Bool :=
  (0x41 ≤ r && r ≤ 0x5A) || (0x61 ≤ r && r ≤ 0x7A) || r == 0x5F || 0x80 ≤ r

/-- Whether an identifier may go on with a rune. -/
def isIdentifierRune (r : Rune) : Bool := isIdentifierStart r || (0x30 ≤ r && r ≤ 0x39)

/-- The number of bytes of the well-formed runes with a property at the front of a text, of which `skip`
bytes are known to belong to the rune before. -/
def spanFrom (p : Rune → Bool) : Nat → Bytes → Nat
  | _, [] => 0
  | 0, b :: rest =>
    match Terminal.rune? (b :: rest) with
    | none => 0
    | some (r, n) => if p r then 1 + spanFrom p (n - 1) rest else 0
  | skip + 1, _ :: rest => 1 + spanFrom p skip rest

/-- The number of bytes of the identifier at the front of a text. -/
def identifierLength? (text : Bytes) : Option Nat :=
  match Terminal.rune? text with
  | none => none
  | some (r, n) =>
    if isIdentifierStart r then some (n + spanFrom isIdentifierRune 0 (text.drop n)) else none

/-- Takes an identifier and yields its text. -/
def identifier : Matcher := fun c =>
  match identifierLength? c.remaining with
  | none => .ok (.failure c.offset)
  | some n => .ok (.success (.text (c.remaining.take n)) n)

/-! ## Places -/

/-- Takes nothing and yields the offset. -/
def position : Matcher := fun c => .ok (.success (Value.ofNat c.offset) 0)

/-- Takes nothing, and fails before the end of the input. -/
def endOfInput : Matcher := fun c =>
  if c.atEnd then .ok (.success .unit 0) else .ok (.failure c.offset)

/-! ## Tables -/

/-- The matchers that a grammar source can name without any option. -/
def standard : List (Bytes × Matcher) :=
  [(Bytes.ascii "spacing", spacing), (Bytes.ascii "identifier", identifier),
    (Bytes.ascii "position", position), (Bytes.ascii "eoi", endOfInput)]

example : spacingLength (Bytes.ascii " /*/ x */\t// y\n/*") = 15 := by decide

end Matcher

end Packrat
