import Packrat.Grammar.Builder

/-!
# `Packrat.Grammar.Link` — resolving names

Linking turns the parts in a builder into a grammar: it finds the rule behind each call, the slot behind each
name and the action behind each host call, or reports the first name that has no meaning.

## Contents
- **Scopes.** A name is visible in the sequence that binds it, behind the item that binds it. A group has a
  scope of its own and sees nothing of the sequence around it.
- **Linking.** `linkHost`, `linkBody`, `linkItems`, `linkSequence`, `linkExpr`, on the structure of an
  expression.
- **Building.** `Builder.build` checks the tables, links every rule and finds the start rule.
-/

namespace Packrat

variable {α : Type}

/-- An error at a position of a grammar. -/
abbrev Linked (β : Type) := Except GrammarError β

/-- What linking looks names up in: the names of the rules and of the actions, in the order of the tables. -/
structure NameTables where
  rules : List Bytes
  actions : List Bytes

/-! ## Host expressions -/

mutual

/-- Links a host expression where the names in `visible` are bound. -/
def linkHost (tables : NameTables) (visible : List Bytes) : HostNode α → Position → Linked (HostNode α)
  | .ref name _, position =>
    match visible.idxOf? name with
    | some slot => .ok (.ref name (some slot))
    | none => .error ⟨.unboundName name, position⟩
  | .const v, _ => .ok (.const v)
  | .matched, _ => .ok .matched
  | .native a, _ => .ok (.native a)
  | .call name args constructs _, position => do
    let args ← linkArgs tables visible args
    if constructs then .ok (.call name args true none)
    else
      match tables.actions.idxOf? name with
      | some i => .ok (.call name args false (some i))
      | none =>
        if Bytes.isConstructor name then .ok (.call name args true none)
        else .error ⟨.unknownAction name, position⟩
termination_by structural node => node

/-- Links the arguments of a call, from left to right. -/
def linkArgs (tables : NameTables) (visible : List Bytes) : List (Host α) → Linked (List (Host α))
  | [] => .ok []
  | ⟨node, position⟩ :: rest => do
    let node ← linkHost tables visible node position
    let rest ← linkArgs tables visible rest
    .ok (⟨node, position⟩ :: rest)
termination_by structural args => args

end

/-- Links the code in an interpolated literal. -/
def linkSegments (tables : NameTables) (visible : List Bytes) :
    List (Segment α) → Linked (List (Segment α))
  | [] => .ok []
  | .spelling text :: rest => do
    let rest ← linkSegments tables visible rest
    .ok (.spelling text :: rest)
  | .code ⟨node, position⟩ :: rest => do
    let node ← linkHost tables visible node position
    let rest ← linkSegments tables visible rest
    .ok (.code ⟨node, position⟩ :: rest)

/-! ## Expressions -/

/-- The name that an item binds: the name of the rule that it calls, for an autobind. -/
def bindingName (autobind : Bool) (name : Option Bytes) (body : Body α) (position : Position) :
    Linked (Option Bytes) :=
  if autobind then
    match body with
    | .call rule _ _ => .ok (some (Bytes.unqualified rule))
    | _ => .error ⟨.namelessAutobind, position⟩
  else .ok name

/-- The slot that a name takes behind the names in `visible`, with the names visible behind it. -/
def bindSlot (visible : List Bytes) (name : Option Bytes) (position : Position) :
    Linked (Option Nat × List Bytes) :=
  match name with
  | none => .ok (none, visible)
  | some name =>
    if visible.contains name then .error ⟨.duplicateBinding name, position⟩
    else .ok (some visible.length, visible ++ [name])

mutual

/-- Links a body whose item stands at `position`, where the names in `visible` are bound. -/
def linkBody (tables : NameTables) (visible : List Bytes) (position : Position) :
    Body α → Linked (Body α)
  | .code ⟨node, at_⟩ => do
    let node ← linkHost tables visible node at_
    .ok (.code ⟨node, at_⟩)
  | .call name decorated _ =>
    match tables.rules.idxOf? name with
    | some i => .ok (.call name decorated (some i))
    | none => .error ⟨.undefinedRule name, position⟩
  | .group alternatives => do
    let alternatives ← linkExpr tables alternatives
    .ok (.group alternatives)
  | .literal spelling caseless braceSensitive => .ok (.literal spelling caseless braceSensitive)
  | .interpolated segments caseless => do
    let segments ← linkSegments tables visible segments
    .ok (.interpolated segments caseless)
  | .cls cls => .ok (.cls cls)
  | .any => .ok .any
termination_by structural body => body

/-- Links the alternatives of an expression, from first to last. -/
def linkExpr (tables : NameTables) :
    List (Sequence α (Body α)) → Linked (List (Sequence α (Body α)))
  | [] => .ok []
  | seq :: rest => do
    let seq ← linkSequence tables seq
    let rest ← linkExpr tables rest
    .ok (seq :: rest)
termination_by structural alternatives => alternatives

/-- Links a sequence: its items from left to right, then its action, which sees every name. -/
def linkSequence (tables : NameTables) : Sequence α (Body α) → Linked (Sequence α (Body α))
  | ⟨items, action, _, position⟩ => do
    let (items, layout) ← linkItems tables [] items
    match action with
    | none => .ok ⟨items, none, layout, position⟩
    | some ⟨node, at_⟩ =>
      let node ← linkHost tables layout node at_
      .ok ⟨items, some ⟨node, at_⟩, layout, position⟩
termination_by structural seq => seq

/-- Links items where the names in `visible` are bound, and gives the names visible behind them. -/
def linkItems (tables : NameTables) (visible : List Bytes) :
    List (Item (Body α)) → Linked (List (Item (Body α)) × List Bytes)
  | [] => .ok ([], visible)
  | item :: rest => do
    let (item, visible) ← linkItem tables visible item
    let (rest, visible) ← linkItems tables visible rest
    .ok (item :: rest, visible)
termination_by structural items => items

/-- Links one item, and gives the names visible behind it. -/
def linkItem (tables : NameTables) (visible : List Bytes) :
    Item (Body α) → Linked (Item (Body α) × List Bytes)
  | ⟨name, autobind, lookahead, body, repetition, _, position⟩ => do
    let linked ← linkBody tables visible position body
    let name ← bindingName autobind name body position
    let (slot, visible) ← bindSlot visible name position
    .ok (⟨name, autobind, lookahead, linked, repetition, slot, position⟩, visible)
termination_by structural item => item

end

/-! ## Building -/

/-- Checks that no two rules share a name. -/
def checkNames (seen : List Bytes) : List (Rule α) → Linked Unit
  | [] => .ok ()
  | r :: rest =>
    if seen.contains r.name then .error ⟨.duplicateRule r.name, r.position⟩
    else checkNames (r.name :: seen) rest

/-- Links the rules, from first to last. A rule that stands for a matcher has nothing to link. -/
def linkRules (tables : NameTables) : List (Rule α) → Linked (List (Rule α))
  | [] => .ok []
  | r :: rest => do
    let body ← if r.isExternal then .ok r.body else linkExpr tables r.body
    let rest ← linkRules tables rest
    .ok ({ r with body } :: rest)

/-- The place of the start rule: the rule asked for, else the first that stands for no matcher, else the
first of all. -/
def startIndex (start : Option Bytes) (rules : List (Rule α)) : Linked Nat :=
  match start with
  | some name =>
    match rules.findIdx? (·.name == name) with
    | some i => .ok i
    | none => .error ⟨.undefinedRule name, .unknown⟩
  | none => .ok ((rules.findIdx? (!·.isExternal)).getD 0)

/-- The names that the rules and actions of a builder give a meaning to. -/
def Builder.nameTables (b : Builder α) : NameTables :=
  ⟨b.rules.map (·.name), b.actions.map (·.1)⟩

/-- Links the parts in a builder. -/
def Builder.build (b : Builder α) : Linked (Grammar α) := do
  if b.rules.isEmpty then throw ⟨.empty, .unknown⟩
  checkNames [] b.rules
  let rules ← linkRules b.nameTables b.rules
  let start ← startIndex b.start rules
  return ⟨rules, b.actions, b.matchers, start⟩

end Packrat
