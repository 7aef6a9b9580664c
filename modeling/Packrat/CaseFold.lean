import Packrat.Utf8

/-!
# `Packrat.CaseFold` — simple case folding

Folding covers Basic Latin, Latin-1, Latin Extended-A, Greek and Cyrillic; any other rune is its own fold.

## Contents
- **Alternating blocks.** In most of Latin Extended-A upper and lower case letters alternate by parity.
- **Runes.** `Rune.fold` maps to lower case and both sigmas to one; `Rune.upper` goes back.
- **Texts.** `Utf8.casefold` folds each rune of a text.
-/

namespace Packrat

namespace Rune

/-- The blocks of Latin Extended-A whose upper-case letters are even, each followed by its lower case. -/
def evenBlocks : List (Rune × Rune) := [(0x0100, 0x012F), (0x0132, 0x0137), (0x014A, 0x0177)]

/-- The blocks of Latin Extended-A whose upper-case letters are odd, each followed by its lower case. -/
def oddBlocks : List (Rune × Rune) := [(0x0139, 0x0148), (0x0179, 0x017E)]

/-- Whether a rune lies in one of the blocks. -/
def inBlocks (r : Rune) (blocks : List (Rune × Rune)) : Bool :=
  blocks.any fun (first, last) => first ≤ r && r ≤ last

/-- Whether a rune is an upper-case letter of an alternating block. -/
def isAlternatingUpper (r : Rune) : Bool :=
  (r % 2 == 0 && r.inBlocks evenBlocks) || (r % 2 == 1 && r.inBlocks oddBlocks)

/-- Whether a rune is a lower-case letter of an alternating block. -/
def isAlternatingLower (r : Rune) : Bool :=
  (r % 2 == 1 && r.inBlocks evenBlocks) || (r % 2 == 0 && r.inBlocks oddBlocks)

/-- The simple case fold of a rune. -/
def fold (r : Rune) : Rune :=
  if r < 0x80 then (if 0x41 ≤ r && r ≤ 0x5A then r + 0x20 else r)
  else if 0xC0 ≤ r && r ≤ 0xDE && r != 0xD7 then r + 0x20
  else if r.isAlternatingUpper then r + 1
  else if r == 0x178 then 0xFF
  else if r == 0x3C2 then 0x3C3
  else if 0x391 ≤ r && r ≤ 0x3AB && r != 0x3A2 then r + 0x20
  else if 0x400 ≤ r && r ≤ 0x40F then r + 0x50
  else if 0x410 ≤ r && r ≤ 0x42F then r + 0x20
  else r

/-- The upper case of a rune, over the same blocks as `fold`. -/
def upper (r : Rune) : Rune :=
  if r < 0x80 then (if 0x61 ≤ r && r ≤ 0x7A then r - 0x20 else r)
  else if 0xE0 ≤ r && r ≤ 0xFE && r != 0xF7 then r - 0x20
  else if r == 0xFF then 0x178
  else if r.isAlternatingLower then r - 1
  else if r == 0x3C2 then 0x3A3
  else if 0x3B1 ≤ r && r ≤ 0x3CB && r != 0x3C2 then r - 0x20
  else if 0x430 ≤ r && r ≤ 0x44F then r - 0x20
  else if 0x450 ≤ r && r ≤ 0x45F then r - 0x50
  else r

end Rune

namespace Utf8

/-- A text with each rune replaced by its fold, and each malformed sequence by U+FFFD. -/
def casefold (text : Bytes) : Bytes := (runes text).flatMap fun r => encode r.fold

/-- A text with each rune replaced by its upper case, and each malformed sequence by U+FFFD. -/
def uppercase (text : Bytes) : Bytes := (runes text).flatMap fun r => encode r.upper

end Utf8

end Packrat
