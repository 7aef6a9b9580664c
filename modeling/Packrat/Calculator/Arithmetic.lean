import Packrat.Fault

/-!
# `Packrat.Calculator.Arithmetic` — arithmetic within 64 bits

## Contents
- **Operators.** `+`, `-` and `*`; every other operator divides, rounding toward zero.
- **Applying.** `apply` refuses a result that does not fit in 64 bits before it computes the result, so that
  no step wraps around.
-/

namespace Packrat.Calculator

/-- The operators of the calculator. -/
inductive Operator where
  | add
  | sub
  | mul
  | div
deriving DecidableEq

/-- The operator that a byte stands for. -/
def Operator.ofByte (b : UInt8) : Operator :=
  if b == Bytes.char '+' then .add
  else if b == Bytes.char '-' then .sub
  else if b == Bytes.char '*' then .mul
  else .div

/-- The largest number. -/
def largest : Int64 := Int64.maxValue

/-- The smallest number. -/
def smallest : Int64 := Int64.minValue

/-- Whether a sum leaves the 64-bit numbers. -/
def addOverflows (l r : Int64) : Bool := (0 < r && largest - r < l) || (r < 0 && l < smallest - r)

/-- Whether a difference leaves the 64-bit numbers. -/
def subOverflows (l r : Int64) : Bool := (r < 0 && largest + r < l) || (0 < r && l < smallest + r)

/-- Whether a product leaves the 64-bit numbers. -/
def mulOverflows (l r : Int64) : Bool :=
  if l == 0 || r == 0 then false
  else if 0 < l then (if 0 < r then largest / r < l else r < smallest / l)
  else if 0 < r then l < smallest / r
  else r < largest / l

/-- Applies an operator, unless the result does not fit or the divisor is zero. -/
def apply (op : Operator) (l r : Int64) : Except HostFault Int64 :=
  match op with
  | .add => if addOverflows l r then .error .overflow else .ok (l + r)
  | .sub => if subOverflows l r then .error .overflow else .ok (l - r)
  | .mul => if mulOverflows l r then .error .overflow else .ok (l * r)
  | .div =>
    if r == 0 then .error .divisionByZero
    else if l == smallest && r == -1 then .error .overflow
    else .ok (l / r)

example : (apply .mul largest (-1)).toOption = some (-largest) := by decide
example : (apply .mul smallest (-1)).toOption = none := by decide
example : (apply .div (-7) 2).toOption = some (-3) := by decide

end Packrat.Calculator
