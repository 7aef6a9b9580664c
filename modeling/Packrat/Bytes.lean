/-!
# `Packrat.Bytes` — byte strings

Input text, rule names and labels are byte strings: they need not be well-formed UTF-8, and every offset
counts bytes.

## Contents
- **The type.** `Bytes`, with `ascii` for the words that the library itself writes.
- **Order.** `le` is the lexicographic order on unsigned bytes; `sortedUnique` lists a collection of byte
  strings in that order, each once.
- **Searching.** `startsWith`, `indexOf`, and the part of a dotted name after its last dot.
-/

namespace Packrat

/-- A byte string. -/
abbrev Bytes := List UInt8

namespace Bytes

/-- The bytes of a text that holds ASCII characters only. -/
def ascii (s : String) : Bytes := s.toList.map (fun c => c.toNat.toUInt8)

/-- The byte of an ASCII character. -/
def char (c : Char) : UInt8 := c.toNat.toUInt8

/-- What is asked of all bytes of a text is decided from the first to the last. -/
instance decidableForall (bs : Bytes) (p : UInt8 → Prop) [DecidablePred p] : Decidable (∀ b ∈ bs, p b) :=
  List.decidableBAll p bs

/-! ## Order -/

/-- The lexicographic order on unsigned bytes, in which a shorter string precedes its extensions. -/
def le : Bytes → Bytes → Bool
  | [], _ => true
  | _ :: _, [] => false
  | a :: as, b :: bs => if a < b then true else if b < a then false else le as bs

/-- Drops each string that equals the one before it. -/
def dropRepeats : List Bytes → List Bytes
  | [] => []
  | [x] => [x]
  | x :: y :: rest => if x == y then dropRepeats (y :: rest) else x :: dropRepeats (y :: rest)

/-- The strings of `xs` in increasing order, each once. -/
def sortedUnique (xs : List Bytes) : List Bytes := dropRepeats (xs.mergeSort le)

theorem le_refl : ∀ x : Bytes, le x x = true
  | [] => rfl
  | a :: as => by simp [le, le_refl as]

/-! ## Searching -/

/-- Whether `text` begins with the bytes of `start`. -/
def startsWith (start text : Bytes) : Bool := start.isPrefixOf text

theorem startsWith_iff {start text : Bytes} :
    startsWith start text = true ↔ ∃ rest, text = start ++ rest := by
  rw [startsWith, List.isPrefixOf_iff_prefix]
  exact ⟨fun ⟨r, h⟩ => ⟨r, h.symm⟩, fun ⟨r, h⟩ => ⟨r, h.symm⟩⟩

/-- The offset at which `pattern` first occurs in `text`. -/
def indexOf (pattern : Bytes) : Bytes → Option Nat
  | [] => if pattern.isEmpty then some 0 else none
  | b :: rest =>
    if startsWith pattern (b :: rest) then some 0 else (indexOf pattern rest).map (· + 1)

/-- The part of a dotted name after its last dot, or the whole name if it has none. -/
def unqualified (name : Bytes) : Bytes :=
  (name.reverse.takeWhile (· != char '.')).reverse

/-- Whether a name starts with an upper-case ASCII letter. -/
def isConstructor : Bytes → Bool
  | [] => false
  | b :: _ => char 'A' ≤ b && b ≤ char 'Z'

end Bytes

end Packrat
