import Packrat.Position
import Packrat.Utf8

/-!
# `Packrat.Position.Locator` — from byte offsets to lines and columns

A locator answers position queries on one text. It keeps each answer, and a later query resumes its scan
from the nearest earlier answer instead of from the start of the text.

## Contents
- **Tabs.** `Tabs.next` says to which column a tab leads.
- **Scanning.** `lastLine` finds the line on which a run of runes ends; `advance` walks over it.
- **Queries.** `Locator.locate` answers one query and records the answer.
-/

namespace Packrat

/-! ## Tabs -/

/-- How far a tab moves, and to which columns it is drawn back. -/
structure Tabs where
  width : Nat := 8
  alignment : Nat := 8
deriving DecidableEq

/-- The column to which a tab at `column` leads: `width` further, drawn back to the start of an alignment
unit unless that lies behind. -/
def Tabs.next (tabs : Tabs) (column : Nat) : Nat :=
  let moved := column + tabs.width
  max (moved - (moved - 1) % tabs.alignment) column

theorem Tabs.le_next (tabs : Tabs) (column : Nat) : column ≤ tabs.next column := Nat.le_max_right _ _

/-! ## Scanning -/

/-- Counts the line endings of a run of runes. The answer holds the position after the last of them and the
runes that follow it; `line` holds the runes seen since the last line ending. A LF right after a CR belongs
to the same line ending. -/
def lastLine (pos : Position) (line : List Rune) : Rune → List Rune → Position × List Rune
  | _, [] => (pos, line)
  | previous, r :: rest =>
    if r.isLineEnding && (previous != 0x0D || r != 0x0A) then
      lastLine ⟨pos.line + 1, 1⟩ rest r rest
    else if r == 0x0A then lastLine pos rest r rest
    else lastLine pos line r rest

/-- The column after a rune that is no line ending. -/
def advanceColumn (tabs : Tabs) (column : Nat) (r : Rune) : Nat :=
  if r == 0x09 then tabs.next column else column + 1

/-- The position after a run of runes that starts at `pos`, right after the rune `previous`. -/
def advance (tabs : Tabs) (pos : Position) (previous : Rune) (rs : List Rune) : Position :=
  let (start, line) := lastLine pos rs previous rs
  ⟨start.line, line.foldl (advanceColumn tabs) start.column⟩

/-! ## Queries -/

/-- A text with the positions already found in it, by increasing offset. -/
structure Locator where
  text : Bytes := []
  found : List (Nat × Position) := []

namespace Locator

/-- A locator that has answered no query yet. -/
def ofText (text : Bytes) : Locator := ⟨text, []⟩

/-- The rune that a scan from `start` takes to precede it; only a CR matters. -/
def previousRune (text : Bytes) (start : Nat) : Rune :=
  if 0 < start && text[start - 1]? == some 0x0D then 0x0D else 0

/-- The position of offset `index`, found by a scan that resumes at `start`, whose position is `pos`. -/
def scanTo (text : Bytes) (tabs : Tabs) (start : Nat) (pos : Position) (index : Nat) : Position :=
  advance tabs pos (previousRune text start) (Utf8.runes ((text.drop start).take (index - start)))

/-- The position of a byte offset, and the locator that remembers it. An offset past the end counts as the
end. -/
def locate (l : Locator) (tabs : Tabs) (offset : Nat) : Position × Locator :=
  let index := min offset l.text.length
  let earlier := l.found.takeWhile (fun entry => entry.1 < index)
  let later := l.found.dropWhile (fun entry => entry.1 < index)
  match later with
  | (i, pos) :: _ => if i = index then (pos, l) else scanned earlier later index
  | [] => scanned earlier later index
where
  scanned (earlier later : List (Nat × Position)) (index : Nat) : Position × Locator :=
    let (start, resume) := earlier.getLast?.getD (0, Position.origin)
    let pos := scanTo l.text tabs start resume index
    (pos, ⟨l.text, earlier ++ (index, pos) :: later⟩)

/-- The position of a byte offset in a text, without any earlier query. -/
def position (text : Bytes) (tabs : Tabs) (offset : Nat) : Position :=
  ((ofText text).locate tabs offset).1

example : position (Bytes.ascii "ab\ncd") {} 4 = ⟨2, 2⟩ := by decide
example : position (Bytes.ascii "a\r\n\tb") {} 4 = ⟨2, 9⟩ := by decide

end Locator

end Packrat
