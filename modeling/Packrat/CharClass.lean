import Packrat.CaseFold
import Packrat.Fault
import Packrat.Spelling

/-!
# `Packrat.CharClass` — bracket classes

## Contents
- **Ranges.** `RuneRange`, an inclusive range of code points.
- **Membership.** `contains` tries the rune itself and, in a class without case, its fold and upper case.
- **Reading.** `parse?` reads the body of a class, the text between its brackets. A dash between two
  characters makes a range; a caret at the very front negates.
-/

namespace Packrat

/-- An inclusive range of code points. -/
structure RuneRange where
  first : Rune
  last : Rune
deriving DecidableEq

/-- Whether a rune lies in the range. -/
def RuneRange.contains (range : RuneRange) (r : Rune) : Bool := range.first ≤ r && r ≤ range.last

/-- A set of runes: those in some range, or in none if it is negated. -/
structure CharClass where
  ranges : List RuneRange
  negated : Bool := false
  caseless : Bool := false
  /-- How the class is written, brackets included. -/
  spelling : Bytes

namespace CharClass

/-! ## Membership -/

/-- Whether some range holds a rune. -/
def covers (cls : CharClass) (r : Rune) : Bool := cls.ranges.any (·.contains r)

/-- Whether a rune belongs to the class. -/
def contains (cls : CharClass) (r : Rune) : Bool :=
  (cls.covers r || (cls.caseless && (cls.covers r.fold || cls.covers r.upper))) != cls.negated

/-! ## Reading -/

/-- The ranges that a list of characters denotes, or nothing if one of them is reversed. -/
def ranges? : List Spelled → Option (List RuneRange)
  | [] => some []
  | a :: dash :: b :: rest =>
    if dash.isBare '-' then
      if b.rune < a.rune then none
      else (ranges? rest).map (⟨a.rune, b.rune⟩ :: ·)
    else (ranges? (dash :: b :: rest)).map (⟨a.rune, a.rune⟩ :: ·)
  | a :: rest => (ranges? rest).map (⟨a.rune, a.rune⟩ :: ·)

/-- Splits the caret of a negated class from the front of its body. -/
def splitCaret : Bytes → Bool × Bytes
  | [] => (false, [])
  | b :: rest => if b == Bytes.char '^' then (true, rest) else (false, b :: rest)

/-- The class with the given body, or what is wrong with it. -/
def parse? (body : Bytes) (caseless : Bool) : Except GrammarIssue CharClass :=
  let (negated, items) := splitCaret body
  if items.isEmpty then .error .emptyClass
  else
    match ranges? (Spelled.all items) with
    | none => .error .reversedRange
    | some ranges => .ok ⟨ranges, negated, caseless, Bytes.ascii "[" ++ body ++ Bytes.ascii "]"⟩

/-- The class of the runes from `first` to `last`. -/
def range? (first last : Rune) : Except GrammarIssue CharClass :=
  if last < first then .error .reversedRange
  else
    .ok ⟨[⟨first, last⟩], false, false,
      Bytes.ascii "[" ++ Utf8.encode first ++ Bytes.ascii "-" ++ Utf8.encode last ++ Bytes.ascii "]"⟩

example : ((parse? (Bytes.ascii "^a-c\\-x-") false).toOption.map (·.ranges)) =
    some [⟨97, 99⟩, ⟨45, 45⟩, ⟨120, 120⟩, ⟨45, 45⟩] := by decide

end CharClass

end Packrat
