import Packrat.Utf8

/-!
# `Packrat.Spelling` — characters as a grammar source spells them

Inside a literal or a class a backslash starts an escape: `\n \r \t \0`, `\xHH`, `\u` with hexadecimal
digits in braces, or a backslash before the character itself. An incomplete or unknown escape stands for the
character after the backslash.

## Contents
- **One character.** `Spelled.read` reads the character at the front of a spelling.
- **Whole spellings.** `Spelled.all` reads them all; `unescape` writes the text they denote.
- **Writing.** `escapeLiteral` spells a text so that it denotes itself.
-/

namespace Packrat

/-- The value of a hexadecimal digit of either case. -/
def hexDigit? (b : UInt8) : Option Nat :=
  if Bytes.char '0' ≤ b && b ≤ Bytes.char '9' then some (b.toNat - 48)
  else if Bytes.char 'a' ≤ b && b ≤ Bytes.char 'f' then some (b.toNat - 97 + 10)
  else if Bytes.char 'A' ≤ b && b ≤ Bytes.char 'F' then some (b.toNat - 65 + 10)
  else none

/-- A character of a spelling: its rune, the bytes it takes there, and whether an escape spells it. -/
structure Spelled where
  rune : Rune
  length : Nat
  escaped : Bool
deriving DecidableEq

namespace Spelled

/-! ## One character -/

/-- A character that stands for itself. -/
def plain (text : Bytes) : Spelled :=
  let d := Utf8.decode text
  ⟨d.rune, d.length, false⟩

/-- A backslash before a character that it does not change. -/
def quoted (afterBackslash : Bytes) : Spelled :=
  let d := Utf8.decode afterBackslash
  ⟨d.rune, d.length + 1, true⟩

/-- Reads hexadecimal digits after `acc`, of which `n` digits are read already, and stops after the digit
that takes the value above the largest code point. -/
def hexRun (acc : Rune) (n : Nat) : Bytes → Rune × Nat × Bytes
  | [] => (acc, n, [])
  | b :: rest =>
    if acc ≤ Rune.maximum then
      match hexDigit? b with
      | some d => hexRun (16 * acc + d) (n + 1) rest
      | none => (acc, n, b :: rest)
    else (acc, n, b :: rest)

/-- The code point in braces at the front of a text, with the bytes that it takes. -/
def bracedHex? : Bytes → Option (Rune × Nat)
  | [] => none
  | b :: digits =>
    if b == Bytes.char '\x7b' then
      match hexRun 0 0 digits with
      | (r, n + 1, close :: _) =>
        if close == Bytes.char '\x7d' && r ≤ Rune.maximum then some (r, n + 3) else none
      | _ => none
    else none

/-- The code point that two hexadecimal digits at the front of a text give. -/
def twoHex? : Bytes → Option Rune
  | a :: b :: _ =>
    match hexDigit? a, hexDigit? b with
    | some x, some y => some (16 * x + y)
    | _, _ => none
  | _ => none

/-- The escape whose letter follows the backslash, if it is complete. -/
def special? (letter : UInt8) (rest : Bytes) : Option Spelled :=
  if letter == Bytes.char 'n' then some ⟨0x0A, 2, true⟩
  else if letter == Bytes.char 'r' then some ⟨0x0D, 2, true⟩
  else if letter == Bytes.char 't' then some ⟨0x09, 2, true⟩
  else if letter == Bytes.char '0' then some ⟨0, 2, true⟩
  else if letter == Bytes.char 'x' then (twoHex? rest).map fun r => ⟨r, 4, true⟩
  else if letter == Bytes.char 'u' then (bracedHex? rest).map fun (r, n) => ⟨r, n + 2, true⟩
  else none

/-- The character at the front of a spelling. A backslash at the very end stands for itself. -/
def read : Bytes → Spelled
  | [] => plain []
  | [b] => plain [b]
  | b :: letter :: rest =>
    if b == Bytes.char '\\' then (special? letter rest).getD (quoted (letter :: rest))
    else plain (b :: letter :: rest)

/-! ## Whole spellings -/

/-- The characters of a spelling after its first `skip` bytes. -/
def allFrom : Nat → Bytes → List Spelled
  | _, [] => []
  | 0, b :: rest =>
    let s := read (b :: rest)
    s :: allFrom (s.length - 1) rest
  | skip + 1, _ :: rest => allFrom skip rest

/-- The characters of a spelling, one after the other. -/
def all (spelling : Bytes) : List Spelled := allFrom 0 spelling

/-- Whether the character is the given ASCII character, not escaped. -/
def isBare (s : Spelled) (c : Char) : Bool := !s.escaped && s.rune == c.toNat

/-- Whether the character is a brace that no escape spells. -/
def isBareBrace (s : Spelled) : Bool := s.isBare '\x7b' || s.isBare '\x7d'

/-- Skipping bytes is dropping them first. -/
theorem allFrom_eq_all_drop (skip : Nat) (spelling : Bytes) :
    allFrom skip spelling = all (spelling.drop skip) := by
  induction spelling generalizing skip with
  | nil => cases skip <;> rfl
  | cons b rest ih =>
    cases skip with
    | zero => rfl
    | succ skip => exact ih skip

end Spelled

/-- The text that a spelling denotes. -/
def unescape (spelling : Bytes) : Bytes := (Spelled.all spelling).flatMap fun s => Utf8.encode s.rune

/-! ## Writing -/

/-- Whether a byte has to be escaped in a literal: a backslash or a brace. -/
def needsEscape (b : UInt8) : Bool :=
  b == Bytes.char '\\' || b == Bytes.char '\x7b' || b == Bytes.char '\x7d'

/-- Spells a text as a literal that denotes it, with a backslash before each backslash and brace. -/
def escapeLiteral (text : Bytes) : Bytes :=
  text.flatMap fun b => if needsEscape b then [Bytes.char '\\', b] else [b]

example : unescape (Bytes.ascii "a\\x41\\u\x7b20AC\x7d\\q\\") = [97, 65, 0xE2, 0x82, 0xAC, 113, 92] := by
  decide

end Packrat
