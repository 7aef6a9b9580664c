import Mathlib.Data.List.Forall2
import Packrat.Proofs.Trace

/-!
# `Packrat.Proofs.Retagging` — values that differ in their tags

The names of rules come out of a parse in two ways: as tags of nodes, and as labels of matchers. When a rule gets
another name, values change in those tags and nowhere else. This is stated for any relation between words, so that it
shows which words come out: those that are not related to themselves may not.

## Contents
- **Words.** `Word`: a tag or a label.
- **Values.** `Retagged`: values that are the same up to tags. What does not look at tags answers the same.
- **Actions.** Those that every grammar knows do not look at tags; `Client.RespectsTags` asks it of others.
- **Spelled words.** `exprWords` lists the words that an expression itself spells out.
-/

namespace Packrat

variable {α β γ δ σ : Type}

/-! ## Words -/

/-- A word that comes out of a parse: the tag of a node, or the label of something expected. -/
inductive Word where
  | tag (text : Bytes)
  | label (text : Bytes)
deriving DecidableEq

/-! ## Values -/

section Values

variable (R : Word → Word → Prop)

mutual

/-- Values that are the same up to their tags, which are related. -/
inductive Retagged : Value → Value → Prop
  | unit : Retagged .unit .unit
  | bool (b : Bool) : Retagged (.bool b) (.bool b)
  | int (n : Int64) : Retagged (.int n) (.int n)
  | text (t : Bytes) : Retagged (.text t) (.text t)
  | host (object : HostObject) : Retagged (.host object) (.host object)
  | list {xs ys : List (Spanned Value)} (h : List.Forall₂ RetaggedSpan xs ys) : Retagged (.list xs) (.list ys)
  | none : Retagged (.option none) (.option none)
  | some {x y : Spanned Value} (h : RetaggedSpan x y) : Retagged (.option (some x)) (.option (some y))
  | node {tag tag' : Bytes} {fields fields' : List Field} (htag : R (.tag tag) (.tag tag'))
      (h : List.Forall₂ RetaggedField fields fields') : Retagged (.node tag fields) (.node tag' fields')

/-- Values with one span that are the same up to their tags. -/
inductive RetaggedSpan : Spanned Value → Spanned Value → Prop
  | mk {v w : Value} (h : Retagged v w) (start stop : Nat) : RetaggedSpan ⟨v, start, stop⟩ ⟨w, start, stop⟩

/-- Fields of one name that are the same up to tags. -/
inductive RetaggedField : Field → Field → Prop
  | mk (name : Bytes) {x y : Spanned Value} (h : RetaggedSpan x y) : RetaggedField (name, x) (name, y)

end

end Values

namespace Value

mutual

/-- The tags of the nodes in a value. -/
def tags : Value → List Bytes
  | .list elements => elementsTags elements
  | .option (some ⟨v, _, _⟩) => v.tags
  | .node tag fields => tag :: fieldsTags fields
  | .unit => []
  | .bool _ => []
  | .int _ => []
  | .text _ => []
  | .option none => []
  | .host _ => []
termination_by structural v => v

/-- The tags of the nodes in the elements of a list. -/
def elementsTags : List (Spanned Value) → List Bytes
  | [] => []
  | ⟨v, _, _⟩ :: rest => v.tags ++ elementsTags rest
termination_by structural elements => elements

/-- The tags of the nodes in the fields of a node. -/
def fieldsTags : List Field → List Bytes
  | [] => []
  | (_, ⟨v, _, _⟩) :: rest => v.tags ++ fieldsTags rest
termination_by structural fields => fields

end

end Value

section Retagging

variable {R : Word → Word → Prop} {v w : Value} {x y : Spanned Value} {xs ys : List (Spanned Value)}
  {fields fields' : List Field}

mutual

/-- A value is the same as itself up to tags if its tags are related to themselves. -/
theorem Retagged.of_tags : ∀ v : Value, (∀ t ∈ v.tags, R (.tag t) (.tag t)) → Retagged R v v
  | .unit, _ => .unit
  | .bool b, _ => .bool b
  | .int n, _ => .int n
  | .text t, _ => .text t
  | .host object, _ => .host object
  | .list elements, h => .list (retaggedElements_of_tags elements h)
  | .option none, _ => .none
  | .option (some ⟨v, start, stop⟩), h => .some (.mk (Retagged.of_tags v h) start stop)
  | .node tag fields, h => by
    rw [Value.tags, List.forall_mem_cons] at h
    exact .node h.1 (retaggedFields_of_tags fields h.2)
termination_by structural v => v

theorem retaggedElements_of_tags : ∀ elements : List (Spanned Value),
    (∀ t ∈ Value.elementsTags elements, R (.tag t) (.tag t)) → List.Forall₂ (RetaggedSpan R) elements elements
  | [], _ => .nil
  | ⟨v, start, stop⟩ :: rest, h => by
    rw [Value.elementsTags, List.forall_mem_append] at h
    exact .cons (.mk (Retagged.of_tags v h.1) start stop) (retaggedElements_of_tags rest h.2)
termination_by structural elements => elements

theorem retaggedFields_of_tags : ∀ fields : List Field,
    (∀ t ∈ Value.fieldsTags fields, R (.tag t) (.tag t)) → List.Forall₂ (RetaggedField R) fields fields
  | [], _ => .nil
  | (name, ⟨v, start, stop⟩) :: rest, h => by
    rw [Value.fieldsTags, List.forall_mem_append] at h
    exact .cons (.mk name (.mk (Retagged.of_tags v h.1) start stop)) (retaggedFields_of_tags rest h.2)
termination_by structural fields => fields

end

mutual

/-- Tags are no part of the text of a value. -/
theorem Retagged.toText : ∀ {v w : Value}, Retagged R v w → v.toText = w.toText
  | .unit, _, .unit => rfl
  | .bool _, _, .bool _ => rfl
  | .int _, _, .int _ => rfl
  | .text _, _, .text _ => rfl
  | .host _, _, .host _ => rfl
  | .list _, _, .list h => elementsToText_retagged h
  | .option none, _, .none => rfl
  | .option (some ⟨_, _, _⟩), _, .some (.mk h _ _) => by
    rw [Value.toText, Value.toText]
    exact Retagged.toText h
  | .node _ _, _, .node _ h => fieldsToText_retagged h

theorem elementsToText_retagged : ∀ {xs ys : List (Spanned Value)}, List.Forall₂ (RetaggedSpan R) xs ys →
    Value.elementsToText xs = Value.elementsToText ys
  | [], _, .nil => rfl
  | ⟨_, _, _⟩ :: _, _, .cons (.mk h _ _) hs => by
    rw [Value.elementsToText, Value.elementsToText, Retagged.toText h, elementsToText_retagged hs]

theorem fieldsToText_retagged : ∀ {fields fields' : List Field}, List.Forall₂ (RetaggedField R) fields fields' →
    Value.fieldsToText fields = Value.fieldsToText fields'
  | [], _, .nil => rfl
  | (_, ⟨_, _, _⟩) :: _, _, .cons (.mk _ (.mk h _ _)) hs => by
    rw [Value.fieldsToText, Value.fieldsToText, Retagged.toText h, fieldsToText_retagged hs]

end

/-- Whether a value counts as true does not depend on its tag. -/
theorem Retagged.truthy (h : Retagged R v w) : v.truthy = w.truthy := by
  cases h with
  | list h =>
    cases h with
    | nil => rfl
    | cons _ _ => rfl
  | _ => rfl

theorem Retagged.isInteger (h : Retagged R v w) : v.isInteger = w.isInteger := by
  cases h with
  | _ => rfl

theorem RetaggedSpan.value (h : RetaggedSpan R x y) : Retagged R x.value y.value := by
  cases h with
  | mk h => exact h

theorem RetaggedSpan.default : RetaggedSpan R default default := .mk .unit 0 0

theorem RetaggedSpan.getElem? (h : List.Forall₂ (RetaggedSpan R) xs ys) (i : Nat) :
    Option.Rel (RetaggedSpan R) xs[i]? ys[i]? := by
  induction h generalizing i with
  | nil => exact .none
  | cons hx _ ih =>
    cases i with
    | zero => exact .some hx
    | succ i => exact ih i

theorem RetaggedSpan.set (h : List.Forall₂ (RetaggedSpan R) xs ys) (i : Nat) (hx : RetaggedSpan R x y) :
    List.Forall₂ (RetaggedSpan R) (xs.set i x) (ys.set i y) := by
  induction h generalizing i with
  | nil => exact .nil
  | cons hfirst hrest ih =>
    cases i with
    | zero => exact .cons hx hrest
    | succ i => exact .cons hfirst (ih i)

/-- A node of named values. -/
theorem RetaggedField.zip (layout : List Bytes) (h : List.Forall₂ (RetaggedSpan R) xs ys) :
    List.Forall₂ (RetaggedField R) (layout.zip xs) (layout.zip ys) := by
  induction h generalizing layout with
  | nil =>
    rw [List.zip_nil_right]
    exact .nil
  | cons hx _ ih =>
    cases layout with
    | nil => exact .nil
    | cons name layout => exact .cons (.mk name hx) (ih layout)

theorem RetaggedField.snd (h : List.Forall₂ (RetaggedField R) fields fields') :
    List.Forall₂ (RetaggedSpan R) (fields.map (·.2)) (fields'.map (·.2)) := by
  induction h with
  | nil => exact .nil
  | cons hx _ ih =>
    cases hx with
    | mk name hx => exact .cons hx ih

theorem RetaggedField.fst (h : List.Forall₂ (RetaggedField R) fields fields') :
    fields.map (·.1) = fields'.map (·.1) := by
  induction h with
  | nil => rfl
  | cons hx _ ih =>
    cases hx with
    | mk name hx =>
      rw [List.map_cons, List.map_cons, ih]

/-- Related tags are both empty or both not. -/
def EmptyTogether (R : Word → Word → Prop) : Prop := ∀ t t', R (.tag t) (.tag t') → (t = [] ↔ t' = [])

/-- Tagging two values with related tags keeps them the same up to tags. -/
theorem RetaggedSpan.tagged (hempty : EmptyTogether R) {tag tag' : Bytes} (htag : R (.tag tag) (.tag tag'))
    (h : RetaggedSpan R x y) : RetaggedSpan R (Packrat.tagged tag x) (Packrat.tagged tag' y) := by
  have hwrap : ∀ start stop, RetaggedSpan R ⟨.node tag [(Bytes.ascii "value", x)], start, stop⟩
      ⟨.node tag' [(Bytes.ascii "value", y)], start, stop⟩ := by
    intro start stop
    exact .mk (.node htag (.cons (.mk _ h) .nil)) start stop
  cases h with
  | mk hv start stop =>
    cases hv with
    | @node inner inner' fields fields' hinner hfields =>
      -- a node without a tag is tagged in place, and so is the other one
      cases inner with
      | nil =>
        obtain rfl := (hempty _ _ hinner).mp rfl
        exact .mk (.node htag hfields) start stop
      | cons b rest =>
        cases inner' with
        | nil => cases (hempty _ _ hinner).mpr rfl
        | cons b' rest' => exact hwrap start stop
    | _ => exact hwrap start stop

/-! ## Actions -/

/-- Two answers that are related, or one fault. -/
inductive Related (Q : β → γ → Prop) : Except δ β → Except δ γ → Prop
  | ok {b : β} {c : γ} (h : Q b c) : Related Q (.ok b) (.ok c)
  | error (e : δ) : Related Q (.error e) (.error e)

namespace Builtin

theorem pieces_retagged (h : RetaggedSpan R x y) : List.Forall₂ (RetaggedSpan R) (pieces x) (pieces y) := by
  cases h with
  | mk hv start stop =>
    cases hv with
    | unit => exact .nil
    | list hs => exact hs
    | none => exact .nil
    | some hx => exact .cons hx .nil
    | bool b => exact .cons (.mk (.bool b) _ _) .nil
    | int n => exact .cons (.mk (.int n) _ _) .nil
    | text t => exact .cons (.mk (.text t) _ _) .nil
    | host object => exact .cons (.mk (.host object) _ _) .nil
    | node htag hfields => exact .cons (.mk (.node htag hfields) _ _) .nil

theorem size_retagged (h : Retagged R v w) : size v = size w := by
  cases h with
  | list hs => exact hs.length_eq
  | node _ hfields => exact hfields.length_eq
  | _ => rfl

theorem flatMap_toText_retagged (h : List.Forall₂ (RetaggedSpan R) xs ys) :
    xs.flatMap (·.value.toText) = ys.flatMap (·.value.toText) := by
  induction h with
  | nil => rfl
  | cons hx _ ih => rw [List.flatMap_cons, List.flatMap_cons, ih, hx.value.toText]

theorem flatMap_pieces_retagged (h : List.Forall₂ (RetaggedSpan R) xs ys) :
    List.Forall₂ (RetaggedSpan R) (xs.flatMap pieces) (ys.flatMap pieces) := by
  induction h with
  | nil => exact .nil
  | cons hx _ ih => exact List.rel_append (pieces_retagged hx) ih

theorem integerOf_retagged (t : Bytes) :
    Related (Retagged R) ((Value.integerOf t).map Value.int) ((Value.integerOf t).map Value.int) := by
  cases Value.integerOf t with
  | error e => exact .error e
  | ok n => exact .ok (.int n)

/-- The actions that every grammar knows do not look at tags. -/
theorem run_retagged (b : Builtin) {ctx : Context} (h : List.Forall₂ (RetaggedSpan R) ctx.args ys) :
    Related (Retagged R) (b.run ctx) (b.run { ctx with args := ys }) := by
  obtain ⟨xs, names, input, start, stop, settings, parsing⟩ := ctx
  replace h : List.Forall₂ (RetaggedSpan R) xs ys := h
  cases b with
  | text =>
    have htexts := flatMap_toText_retagged h
    cases h with
    | nil => exact .ok (.text _)
    | cons hx hxs =>
      refine .ok ?_
      rw [htexts]
      exact .text _
  | integer =>
    cases h with
    | nil => exact integerOf_retagged _
    | @cons x y xs ys hx hxs =>
      -- whether a value is an integer, and its text, are the same whatever the tags
      have hinteger : x.value.isInteger = y.value.isInteger := hx.value.isInteger
      unfold run
      by_cases hx' : x.value.isInteger = true
      · simp only [← hinteger, if_pos hx']
        exact .ok hx.value
      · simp only [← hinteger, if_neg hx', hx.value.toText]
        exact integerOf_retagged _
  | list => exact .ok (.list h)
  | concat => exact .ok (.list (flatMap_pieces_retagged h))
  | length =>
    cases h with
    | nil => exact .ok (.int _)
    | cons hx hxs =>
      refine .ok ?_
      rw [size_retagged hx.value]
      exact .int _

end Builtin

/-- The actions of a client do not tell tags apart that are related: from arguments that are the same up to tags they
make values that are the same up to tags. -/
def Client.RespectsTags (client : Client α σ) (R : Word → Word → Prop) (text : Bytes) : Prop :=
  ∀ a ctx args store, ctx.input = text → store.locator.Exact text ctx.settings.tabs →
    List.Forall₂ (RetaggedSpan R) ctx.args args →
    Related (Retagged R) (client.answer store a ctx) (client.answer store a { ctx with args })

end Retagging

/-! ## Spelled words -/

mutual

/-- The tags that a host expression spells out: those that it constructs, and those in constants. -/
def hostTags : HostNode α → List Bytes
  | .call name args constructs _ => (if constructs then [name] else []) ++ argsTags args
  | .const v => v.tags
  | .ref _ _ => []
  | .matched => []
  | .native _ => []
termination_by structural node => node

/-- The tags that the arguments of a call spell out. -/
def argsTags : List (Host α) → List Bytes
  | [] => []
  | ⟨node, _⟩ :: rest => hostTags node ++ argsTags rest
termination_by structural args => args

end

/-- The tags that the code in an interpolated literal spells out. -/
def segmentsTags : List (Segment α) → List Bytes
  | [] => []
  | .spelling _ :: rest => segmentsTags rest
  | .code host :: rest => hostTags host.node ++ segmentsTags rest

mutual

/-- The words that a body spells out: the tags in its code, and the labels of its terminals. -/
def bodyWords : Body α → List Word
  | .code host => (hostTags host.node).map .tag
  | .call _ _ _ => []
  | .group alternatives => exprWords alternatives
  | .literal spelling caseless _ => [.label (labelOf (betweenQuotes spelling) caseless)]
  | .interpolated segments _ => (segmentsTags segments).map .tag
  | .cls cls => [.label (labelOf cls.spelling cls.caseless)]
  | .any => [.label (Bytes.ascii "any character")]
termination_by structural body => body

/-- The words that an expression spells out. -/
def exprWords : List (Sequence α (Body α)) → List Word
  | [] => []
  | seq :: rest => sequenceWords seq ++ exprWords rest
termination_by structural alternatives => alternatives

/-- The words that a sequence spells out. -/
def sequenceWords : Sequence α (Body α) → List Word
  | ⟨items, none, _, _⟩ => itemsWords items
  | ⟨items, some host, _, _⟩ => itemsWords items ++ (hostTags host.node).map .tag
termination_by structural seq => seq

/-- The words that some items spell out. -/
def itemsWords : List (Item (Body α)) → List Word
  | [] => []
  | item :: rest => itemWords item ++ itemsWords rest
termination_by structural items => items

/-- The words that an item spells out. -/
def itemWords : Item (Body α) → List Word
  | ⟨_, _, _, body, _, _, _⟩ => bodyWords body
termination_by structural item => item

end

/-- The words that the rules of a grammar spell out. -/
def Grammar.words (g : Grammar α) : List Word := g.rules.flatMap fun rule => exprWords rule.body

end Packrat
