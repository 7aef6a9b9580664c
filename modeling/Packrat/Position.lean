import Packrat.Bytes
import Packrat.Decimal

/-!
# `Packrat.Position` — lines and columns

## Contents
- **The type.** A line and a column, both counted from 1; line 0 stands for an unknown position.
- **Order.** `before` compares lines first.
- **Text.** `line:column`.
-/

namespace Packrat

/-- A line and a column of a source text; line 0 stands for an unknown position. -/
structure Position where
  line : Nat := 0
  column : Nat := 0
deriving DecidableEq

namespace Position

/-- The position that is not known. -/
def unknown : Position := ⟨0, 0⟩

/-- The position at which every text starts. -/
def origin : Position := ⟨1, 1⟩

/-- Whether the position is known. -/
def isKnown (p : Position) : Bool := p.line != 0

/-- Whether `p` comes before `q` in the text. -/
def before (p q : Position) : Bool := p.line < q.line || (p.line == q.line && p.column < q.column)

/-- The text `line:column`. -/
def render (p : Position) : Bytes :=
  Decimal.ofNat p.line ++ Bytes.ascii ":" ++ Decimal.ofNat p.column

theorem before_irrefl (p : Position) : p.before p = false := by simp [before]

theorem before_trans {p q r : Position} (h1 : p.before q = true) (h2 : q.before r = true) :
    p.before r = true := by
  simp only [before, Bool.or_eq_true, Bool.and_eq_true, beq_iff_eq, decide_eq_true_eq] at *
  omega

end Position

end Packrat
