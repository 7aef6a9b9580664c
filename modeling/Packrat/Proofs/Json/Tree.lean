import Packrat.Json.Document

/-!
# `Packrat.Proofs.Json.Tree` — the trees of JSON documents

A document has one tree up to spans. The trees that a grammar makes of two texts of the document differ in their
spans alone.

## Contents
- **Spans.** `Value.unspanned` forgets them.
- **Trees.** `tree`, and `ofValue?_of_unspanned`: the document is read off its tree whatever the spans are.
-/

namespace Packrat

/-! ## Spans -/

mutual

/-- A value whose parts have no spans. -/
def Value.unspanned : Value → Value
  | .list elements => .list (unspannedElements elements)
  | .option none => .option none
  | .option (some ⟨v, _, _⟩) => .option (some ⟨v.unspanned, 0, 0⟩)
  | .node tag fields => .node tag (unspannedFields fields)
  | .unit => .unit
  | .bool b => .bool b
  | .int n => .int n
  | .text t => .text t
  | .host object => .host object
termination_by structural v => v

/-- Elements without spans. -/
def unspannedElements : List (Spanned Value) → List (Spanned Value)
  | [] => []
  | ⟨v, _, _⟩ :: rest => ⟨v.unspanned, 0, 0⟩ :: unspannedElements rest
termination_by structural elements => elements

/-- Fields without spans. -/
def unspannedFields : List (Bytes × Spanned Value) → List (Bytes × Spanned Value)
  | [] => []
  | (name, ⟨v, _, _⟩) :: rest => (name, ⟨v.unspanned, 0, 0⟩) :: unspannedFields rest
termination_by structural fields => fields

end

section Inversion

variable {v : Value}

theorem Value.eq_bool_of_unspanned {b : Bool} (h : v.unspanned = .bool b) : v = .bool b := by
  cases v with
  | bool b' => exact h
  | option content => rcases content with _ | ⟨w, start, stop⟩ <;> cases h
  | _ => cases h

theorem Value.eq_text_of_unspanned {t : Bytes} (h : v.unspanned = .text t) : v = .text t := by
  cases v with
  | text t' => exact h
  | option content => rcases content with _ | ⟨w, start, stop⟩ <;> cases h
  | _ => cases h

theorem Value.exists_list_of_unspanned {elements : List (Spanned Value)} (h : v.unspanned = .list elements) :
    ∃ xs, v = .list xs ∧ unspannedElements xs = elements := by
  cases v with
  | list xs => exact ⟨xs, rfl, Value.list.inj h⟩
  | option content => rcases content with _ | ⟨w, start, stop⟩ <;> cases h
  | _ => cases h

theorem Value.exists_node_of_unspanned {tag : Bytes} {fields : List Field} (h : v.unspanned = .node tag fields) :
    ∃ xs, v = .node tag xs ∧ unspannedFields xs = fields := by
  cases v with
  | node tag' xs =>
    obtain ⟨rfl, hfields⟩ := Value.node.inj h
    exact ⟨xs, rfl, hfields⟩
  | option content => rcases content with _ | ⟨w, start, stop⟩ <;> cases h
  | _ => cases h

theorem unspannedFields_eq_nil {xs : List Field} (h : unspannedFields xs = []) : xs = [] := by
  match xs with
  | [] => rfl
  | (_, ⟨_, _, _⟩) :: _ => cases h

theorem exists_of_unspannedFields {xs rest : List Field} {name : Bytes} {w : Value}
    (h : unspannedFields xs = (name, ⟨w, 0, 0⟩) :: rest) : ∃ v start stop xs', xs = (name, ⟨v, start, stop⟩) :: xs' ∧
      v.unspanned = w ∧ unspannedFields xs' = rest := by
  match xs with
  | [] => cases h
  | (name', ⟨v, start, stop⟩) :: xs' =>
    rw [unspannedFields, List.cons.injEq, Prod.mk.injEq, Spanned.mk.injEq] at h
    obtain ⟨⟨rfl, hv, -⟩, hrest⟩ := h
    exact ⟨v, start, stop, xs', rfl, hv, hrest⟩

theorem unspannedElements_eq_nil {xs : List (Spanned Value)} (h : unspannedElements xs = []) : xs = [] := by
  match xs with
  | [] => rfl
  | ⟨_, _, _⟩ :: _ => cases h

theorem exists_of_unspannedElements {xs rest : List (Spanned Value)} {w : Value}
    (h : unspannedElements xs = ⟨w, 0, 0⟩ :: rest) : ∃ v start stop xs', xs = ⟨v, start, stop⟩ :: xs' ∧
      v.unspanned = w ∧ unspannedElements xs' = rest := by
  match xs with
  | [] => cases h
  | ⟨v, start, stop⟩ :: xs' =>
    rw [unspannedElements, List.cons.injEq, Spanned.mk.injEq] at h
    exact ⟨v, start, stop, xs', rfl, h.1.1, h.2⟩

end Inversion

/-! ## Trees -/

namespace Json

mutual

/-- The tree of a document, without spans. -/
def tree : Json → Value
  | .null => .node (Bytes.ascii "Null") []
  | .bool b => .bool b
  | .number spelling => .node (Bytes.ascii "Number") [(Bytes.ascii "n", ⟨.text spelling, 0, 0⟩)]
  | .string t => .text t
  | .array elements => .node (Bytes.ascii "Array") [([], ⟨.list (elementTrees elements), 0, 0⟩)]
  | .object members => .node (Bytes.ascii "Object") [([], ⟨.list (memberTrees members), 0, 0⟩)]
termination_by structural j => j

/-- The trees of the elements of an array. -/
def elementTrees : List Json → List (Spanned Value)
  | [] => []
  | j :: rest => ⟨tree j, 0, 0⟩ :: elementTrees rest
termination_by structural elements => elements

/-- The trees of the members of an object. -/
def memberTrees : List (Bytes × Json) → List (Spanned Value)
  | [] => []
  | (k, j) :: rest =>
    ⟨.node (Bytes.ascii "Member") [(Bytes.ascii "k", ⟨.text k, 0, 0⟩), (Bytes.ascii "v", ⟨tree j, 0, 0⟩)], 0, 0⟩
      :: memberTrees rest
termination_by structural members => members

end

mutual

/-- The document is read off its tree. -/
theorem ofValue?_of_unspanned : ∀ {j : Json} {v : Value}, v.unspanned = tree j → ofValue? v = some j
  | .null, v, h => by
    obtain ⟨xs, rfl, hxs⟩ := Value.exists_node_of_unspanned h
    rw [unspannedFields_eq_nil hxs]
    rfl
  | .bool b, v, h => by
    rw [Value.eq_bool_of_unspanned h]
    rfl
  | .number spelling, v, h => by
    obtain ⟨xs, rfl, hxs⟩ := Value.exists_node_of_unspanned h
    obtain ⟨w, start, stop, xs', rfl, hw, hxs'⟩ := exists_of_unspannedFields hxs
    rw [unspannedFields_eq_nil hxs', Value.eq_text_of_unspanned hw]
    rfl
  | .string t, v, h => by
    rw [Value.eq_text_of_unspanned h]
    rfl
  | .array elements, v, h => by
    obtain ⟨xs, rfl, hxs⟩ := Value.exists_node_of_unspanned h
    obtain ⟨w, start, stop, xs', rfl, hw, hxs'⟩ := exists_of_unspannedFields hxs
    obtain ⟨ys, rfl, hys⟩ := Value.exists_list_of_unspanned hw
    have htag : (Bytes.ascii "Array" == Bytes.ascii "Array") = true := BEq.rfl
    rw [unspannedFields_eq_nil hxs', ofValue?, if_pos htag, ofElements?_of_unspanned hys]
    rfl
  | .object members, v, h => by
    obtain ⟨xs, rfl, hxs⟩ := Value.exists_node_of_unspanned h
    obtain ⟨w, start, stop, xs', rfl, hw, hxs'⟩ := exists_of_unspannedFields hxs
    obtain ⟨ys, rfl, hys⟩ := Value.exists_list_of_unspanned hw
    have hother : ¬(Bytes.ascii "Object" == Bytes.ascii "Array") = true := by decide
    have htag : (Bytes.ascii "Object" == Bytes.ascii "Object") = true := BEq.rfl
    rw [unspannedFields_eq_nil hxs', ofValue?, if_neg hother, if_pos htag, ofMembers?_of_unspanned hys]
    rfl

theorem ofElements?_of_unspanned : ∀ {elements : List Json} {xs : List (Spanned Value)},
    unspannedElements xs = elementTrees elements → ofElements? xs = some elements
  | [], xs, h => by
    rw [unspannedElements_eq_nil h]
    rfl
  | j :: rest, xs, h => by
    obtain ⟨v, start, stop, xs', rfl, hv, hxs'⟩ := exists_of_unspannedElements h
    rw [ofElements?, ofValue?_of_unspanned hv, ofElements?_of_unspanned hxs']
    rfl

theorem ofMembers?_of_unspanned : ∀ {members : List (Bytes × Json)} {xs : List (Spanned Value)},
    unspannedElements xs = memberTrees members → ofMembers? xs = some members
  | [], xs, h => by
    rw [unspannedElements_eq_nil h]
    rfl
  | (k, j) :: rest, xs, h => by
    obtain ⟨v, start, stop, xs', rfl, hv, hxs'⟩ := exists_of_unspannedElements h
    obtain ⟨fields, rfl, hfields⟩ := Value.exists_node_of_unspanned hv
    obtain ⟨w, _, _, others, rfl, hw, hothers⟩ := exists_of_unspannedFields hfields
    obtain ⟨u, _, _, more, rfl, hu, hmore⟩ := exists_of_unspannedFields hothers
    rw [unspannedFields_eq_nil hmore, Value.eq_text_of_unspanned hw, ofMembers?, ofValue?_of_unspanned hu,
      ofMembers?_of_unspanned hxs']
    rfl

end

end Json

end Packrat
