import Packrat.Bytes

/-!
# `Packrat.Cursor` — a place in an input

## Contents
- **The type.** A cursor holds its input, an offset that never exceeds the input's length, and the text that
  remains from there.
- **Moving.** `ofText`, `advance`, `seek` and `move` stop at the end of the input.
- **Looking back.** `textFrom` gives the text from an earlier offset to the cursor.
- **Matches.** `Match`, what matching at a cursor answers.
-/

namespace Packrat

/-- A place in an input. -/
structure Cursor where
  input : Bytes
  offset : Nat
  remaining : Bytes
  remaining_eq : remaining = input.drop offset := by rfl
  offset_le : offset ≤ input.length := by omega

namespace Cursor

/-! ## Moving -/

/-- The place at a byte offset of a text, or its end if the offset lies beyond. -/
def ofText (text : Bytes) (offset : Nat) : Cursor :=
  ⟨text, min offset text.length, text.drop offset, by
    rw [Nat.min_def]
    split
    · rfl
    · rw [List.drop_length, List.drop_eq_nil_of_le (by omega)],
    Nat.min_le_right _ _⟩

/-- The place one byte further, if the input goes on. -/
def next? (c : Cursor) : Option Cursor :=
  match h : c.remaining with
  | [] => none
  | _ :: rest =>
    have hdrop : c.input.drop c.offset ≠ [] := by rw [← c.remaining_eq, h]; simp
    have hlt : c.offset < c.input.length := by
      rw [Ne, List.drop_eq_nil_iff] at hdrop
      omega
    some ⟨c.input, c.offset + 1, rest, by
      rw [← List.tail_drop, ← c.remaining_eq, h]
      rfl, hlt⟩

/-- The place `n` bytes further, or the end of the input. -/
def advance (c : Cursor) : Nat → Cursor
  | 0 => c
  | n + 1 =>
    match c.next? with
    | none => c
    | some next => next.advance n

/-- The place at another offset of the same input. -/
def seek (c : Cursor) (offset : Nat) : Cursor := ofText c.input offset

/-- The place at a distance, which is a 64-bit word: one that wraps around moves backwards. -/
def move (c : Cursor) (distance : UInt64) : Cursor := c.seek (UInt64.ofNat c.offset + distance).toNat

/-- Whether nothing remains. -/
def atEnd (c : Cursor) : Bool := c.remaining.isEmpty

/-- Whether two cursors are the same place of the same input. -/
def same (c d : Cursor) : Bool := c.offset == d.offset && c.input == d.input

/-! ## Looking back -/

/-- The text from an earlier offset to the cursor; from a later offset, all the text that follows it. -/
def textFrom (c : Cursor) (start : Nat) : Bytes :=
  if start ≤ c.offset then (c.input.drop start).take (c.offset - start) else c.input.drop start

theorem ext {c d : Cursor} (hinput : c.input = d.input) (hoffset : c.offset = d.offset) : c = d := by
  obtain ⟨i, o, r, hr, ho⟩ := c
  obtain ⟨i', o', r', hr', ho'⟩ := d
  simp only at hinput hoffset
  subst hinput hoffset hr hr'
  rfl

@[simp] theorem input_ofText (text : Bytes) (offset : Nat) : (ofText text offset).input = text := rfl

@[simp] theorem offset_ofText (text : Bytes) (offset : Nat) :
    (ofText text offset).offset = min offset text.length := rfl

theorem input_next {c d : Cursor} (h : c.next? = some d) : d.input = c.input := by
  unfold next? at h
  split at h
  · cases h
  · cases h
    rfl

theorem offset_next {c d : Cursor} (h : c.next? = some d) : d.offset = c.offset + 1 := by
  unfold next? at h
  split at h
  · cases h
  · cases h
    rfl

theorem next_eq_none_iff {c : Cursor} : c.next? = none ↔ c.offset = c.input.length := by
  have hlen : c.remaining.length = c.input.length - c.offset := by
    rw [c.remaining_eq, List.length_drop]
  have hle := c.offset_le
  unfold next?
  split
  · next h => rw [h] at hlen; simp at hlen; simp; omega
  · next h => rw [h] at hlen; simp at hlen; simp; omega

/-- Moving stays in the input. -/
@[simp] theorem input_advance (c : Cursor) (n : Nat) : (c.advance n).input = c.input := by
  induction n generalizing c with
  | zero => rfl
  | succ n ih =>
    rw [advance]
    split
    · rfl
    · next h => rw [ih, input_next h]

/-- Moving forward stops at the end of the input. -/
@[simp] theorem offset_advance (c : Cursor) (n : Nat) :
    (c.advance n).offset = min (c.offset + n) c.input.length := by
  induction n generalizing c with
  | zero => have := c.offset_le; simp only [advance]; omega
  | succ n ih =>
    rw [advance]
    split
    · next h => rw [next_eq_none_iff] at h; omega
    · next h => rw [ih, input_next h, offset_next h]; omega

/-- Moving forward is seeking to the sum of the offsets. -/
theorem advance_eq_seek (c : Cursor) (n : Nat) : c.advance n = c.seek (c.offset + n) :=
  ext (by simp [seek]) (by simp [seek])

end Cursor

/-! ## Matches -/

/-- What matching at a cursor answers: a value and the number of bytes that it takes, or the offset at which
the attempt fails. -/
inductive Match (α : Type) where
  | success (value : α) (length : Nat)
  | failure (offset : Nat)

/-- The match of an optional result; without one it fails at the cursor. -/
def Match.ofOption {α : Type} (c : Cursor) : Option (α × Nat) → Match α
  | none => .failure c.offset
  | some (value, length) => .success value length

end Packrat
