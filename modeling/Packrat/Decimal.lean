import Packrat.Bytes

/-!
# `Packrat.Decimal` — integers in decimal notation

## Contents
- **Writing.** `ofNat` and `ofInt` write without leading zeros, a negative number with `-` in front.
- **Reading.** `digits?` reads a run of digits; `int64?` reads an optional `-` and at least one digit, and
  refuses what does not fit in 64 bits. No other sign, blank or separator is read.
-/

namespace Packrat.Decimal

/-! ## Writing -/

/-- The decimal digits of a natural number. -/
def ofNat (n : Nat) : Bytes := (Nat.toDigits 10 n).map Bytes.char

/-- The decimal digits of an integer, after a `-` if it is negative. -/
def ofInt : Int → Bytes
  | .ofNat n => ofNat n
  | .negSucc n => Bytes.char '-' :: ofNat (n + 1)

/-! ## Reading -/

/-- The value of a decimal digit. -/
def digit? (b : UInt8) : Option Nat :=
  if Bytes.char '0' ≤ b && b ≤ Bytes.char '9' then some (b.toNat - 48) else none

/-- Whether a byte is a decimal digit. -/
def isDigit (b : UInt8) : Bool := (digit? b).isSome

/-- The number that a run of digits denotes after the digits of `acc`, or nothing if another byte occurs. -/
def digitsAfter (acc : Nat) : Bytes → Option Nat
  | [] => some acc
  | b :: rest => (digit? b).bind fun d => digitsAfter (10 * acc + d) rest

/-- The number that a non-empty run of digits denotes. -/
def digits? : Bytes → Option Nat
  | [] => none
  | b :: rest => digitsAfter 0 (b :: rest)

/-- The integer that an optional `-` and a non-empty run of digits denote. -/
def int? : Bytes → Option Int
  | [] => none
  | b :: rest =>
    if b == Bytes.char '-' then (digits? rest).map (fun n => -(n : Int))
    else (digits? (b :: rest)).map (fun n => (n : Int))

/-- The integers that fit in 64 bits. -/
def fits (n : Int) : Bool := Int64.minValue.toInt ≤ n && n ≤ Int64.maxValue.toInt

/-- The 64-bit integer that a text denotes. -/
def int64? (text : Bytes) : Option Int64 :=
  (int? text).bind fun n => if fits n then some (Int64.ofInt n) else none

example : ofInt (-120) = Bytes.ascii "-120" := by decide
example : int? (Bytes.ascii "-007") = some (-7) := by decide
example : int? (Bytes.ascii "+7") = none := by decide

end Packrat.Decimal
