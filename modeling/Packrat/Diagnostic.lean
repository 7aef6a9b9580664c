import Packrat.Position

/-!
# `Packrat.Diagnostic` — what a failed parse reports

## Contents
- **Expectations.** `expectation` puts a list of labels into words.
- **Syntax errors.** Where a parse failed and what was expected there.
-/

namespace Packrat

/-- The labels after the first one, with commas between them and `or` before the last. -/
def furtherLabels : List Bytes → Bytes
  | [] => []
  | [x] => Bytes.ascii " or " ++ x
  | x :: y :: rest => Bytes.ascii ", " ++ x ++ furtherLabels (y :: rest)

/-- The words `, expected a, b or c`, or nothing if there is nothing to list. -/
def expectation : List Bytes → Bytes
  | [] => []
  | x :: rest => Bytes.ascii ", expected " ++ x ++ furtherLabels rest

/-- A failed parse: where the input stopped making sense, and the labels expected there. -/
structure SyntaxError where
  offset : Nat
  position : Position
  expected : List Bytes

/-- The message `line:column: syntax error, expected …`. -/
def SyntaxError.message (e : SyntaxError) : Bytes :=
  e.position.render ++ Bytes.ascii ": syntax error" ++ expectation e.expected

example : expectation [[97], [98], [99]] = Bytes.ascii ", expected a, b or c" := by decide

end Packrat
