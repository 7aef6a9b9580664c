import Packrat.Value

/-!
# `Packrat.Value.Depth` — how deep values are nested

## Contents
- **Depth.** `Value.depth` counts the levels of a value; what a value holds is less deep than the value.
-/

namespace Packrat.Value

mutual

/-- The number of levels of a value. -/
def depth : Value → Nat
  | .list elements => elementsDepth elements + 1
  | .option (some ⟨v, _, _⟩) => v.depth + 1
  | .node _ fields => fieldsDepth fields + 1
  | .unit => 1
  | .bool _ => 1
  | .int _ => 1
  | .text _ => 1
  | .option none => 1
  | .host _ => 1
termination_by structural v => v

/-- The depth of the deepest element of a list. -/
def elementsDepth : List (Spanned Value) → Nat
  | [] => 0
  | ⟨v, _, _⟩ :: rest => max v.depth (elementsDepth rest)
termination_by structural elements => elements

/-- The depth of the deepest field of a node. -/
def fieldsDepth : List Field → Nat
  | [] => 0
  | (_, ⟨v, _, _⟩) :: rest => max v.depth (fieldsDepth rest)
termination_by structural fields => fields

end

/-- Every value has a level. -/
theorem depth_pos (v : Value) : 0 < v.depth := by
  cases v with
  | unit => exact Nat.one_pos
  | bool b => exact Nat.one_pos
  | int n => exact Nat.one_pos
  | text t => exact Nat.one_pos
  | list elements => exact Nat.succ_pos _
  | option content =>
    cases content with
    | none => exact Nat.one_pos
    | some x => exact Nat.succ_pos _
  | node tag fields => exact Nat.succ_pos _
  | host object => exact Nat.one_pos

theorem depth_le_elementsDepth {x : Spanned Value} {elements : List (Spanned Value)} (h : x ∈ elements) :
    x.value.depth ≤ elementsDepth elements := by
  induction elements with
  | nil => cases h
  | cons y rest ih =>
    obtain ⟨v, start, stop⟩ := y
    rw [elementsDepth]
    cases h with
    | head => exact Nat.le_max_left _ _
    | tail _ h => exact Nat.le_trans (ih h) (Nat.le_max_right _ _)

theorem depth_le_fieldsDepth {name : Bytes} {x : Spanned Value} {fields : List Field}
    (h : findField name fields = some x) : x.value.depth ≤ fieldsDepth fields := by
  induction fields with
  | nil => cases h
  | cons y rest ih =>
    obtain ⟨n, v, start, stop⟩ := y
    rw [fieldsDepth]
    rw [findField] at h
    split at h
    · cases h
      exact Nat.le_max_left _ _
    · exact Nat.le_trans (ih h) (Nat.le_max_right _ _)

end Packrat.Value
