import Packrat.CharClass

/-!
# `Packrat.Terminal` — matching at the front of a text

Each function looks at the text that remains and answers how many bytes it matches, or nothing.

## Contents
- **One rune.** `rune?` matches a well-formed rune, `any?` a rune or one malformed sequence, `class?` a rune
  of a class.
- **Several runes.** `runes?` matches a list of runes in turn.
- **Texts.** `text?` matches a text as it is; `literal?` a text in its grammar spelling.
-/

namespace Packrat.Terminal

/-! ## One rune -/

/-- Matches one well-formed rune. -/
def rune? : Bytes → Option (Rune × Nat)
  | [] => none
  | b :: rest =>
    let d := Utf8.decode (b :: rest)
    if d.wellFormed then some (d.rune, d.length) else none

/-- Matches one rune, or one malformed sequence as U+FFFD. -/
def any? : Bytes → Option (Rune × Nat)
  | [] => none
  | b :: rest =>
    let d := Utf8.decode (b :: rest)
    some (d.rune, d.length)

/-- Matches one well-formed rune of a class. -/
def class? (cls : CharClass) (text : Bytes) : Option (Rune × Nat) :=
  (rune? text).filter fun (r, _) => cls.contains r

/-! ## Several runes -/

/-- Whether two runes agree, up to case if `caseless`. -/
def agree (caseless : Bool) (r expected : Rune) : Bool :=
  if caseless then r.fold == expected.fold else r == expected

/-- Matches the expected runes one after the other. -/
def runes? (caseless : Bool) : List Rune → Bytes → Option Nat
  | [], _ => some 0
  | expected :: rest, text =>
    match rune? text with
    | none => none
    | some (r, n) =>
      if agree caseless r expected then (runes? caseless rest (text.drop n)).map (n + ·) else none

/-! ## Texts -/

/-- Matches a text: byte for byte, or rune for rune up to case. -/
def text? (expected : Bytes) (caseless : Bool) (text : Bytes) : Option Nat :=
  if caseless then runes? true (Utf8.runes expected) text
  else if Bytes.startsWith expected text then some expected.length
  else none

/-- Matches the text that a spelling denotes. A spelling with a bare brace matches nothing if it is
brace-sensitive. -/
def literal? (spelling : Bytes) (braceSensitive caseless : Bool) (text : Bytes) : Option Nat :=
  let characters := Spelled.all spelling
  if braceSensitive && characters.any (·.isBareBrace) then none
  else runes? caseless (characters.map (·.rune)) text

example : literal? (Bytes.ascii "\\x41b") true true (Bytes.ascii "aBc") = some 2 := by decide

end Packrat.Terminal
