import Packrat.Bytes

/-!
# `Packrat.Transcript` — what a program has done

## Contents
- **The type.** The exit status of a program, and what it wrote to its two outputs.
-/

namespace Packrat

/-- What a program leaves behind when it ends. -/
structure Transcript where
  status : Nat
  out : Bytes := []
  err : Bytes := []

/-- A line of ASCII text and a byte string. -/
def reportLine (intro : String) (message : Bytes) : Bytes := Bytes.ascii intro ++ message ++ [0x0A]

end Packrat
