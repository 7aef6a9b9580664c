import Packrat.Source.Meta
import Packrat.Value.Depth

/-!
# `Packrat.Source.Translate` — from the tree of a grammar source to rules

## Contents
- **Scopes.** `Scope`: the text that positions refer to, what braces in literals mean, and the names that
  a module gets in front of its own.
- **Access.** The fields of a tree, as texts, lists and options.
- **Translating.** Host expressions, literals, items, sequences, expressions, on the depth of the tree.
- **Adding.** `addSource` adds every let and definition of a tree to a builder.
-/

namespace Packrat.Source

variable {α : Type}

/-! ## Scopes -/

/-- What braces in a literal mean. -/
inductive BracePolicy where
  /-- They hold code whose text becomes part of the literal. -/
  | interpolate
  /-- They are a mistake unless they are escaped. -/
  | reject
deriving DecidableEq

/-- What the parts of a grammar source are translated under. -/
structure Scope where
  text : Bytes
  braces : BracePolicy
  /-- What stands before the names that the source defines: nothing, or the name of a module and a dot. -/
  qualifier : Bytes
  /-- The names that the source defines. -/
  locals : List Bytes

namespace Scope

/-- The position at which a part of the tree starts. -/
def position (scope : Scope) (x : Spanned Value) : Position :=
  Locator.position scope.text {} x.start

/-- The full name of a rule that the source calls: an undotted name of its own gets the qualifier. -/
def qualify (scope : Scope) (name : Bytes) : Bytes :=
  if name.contains (Bytes.char '.') || !scope.locals.contains name then name
  else scope.qualifier ++ name

end Scope

/-! ## Access -/

/-- The value of a field of a node. -/
def part (fields : List Field) (name : String) : Except Fault (Spanned Value) :=
  Value.fieldIn fields (Bytes.ascii name)

/-- The text in a field of a node. -/
def textPart (fields : List Field) (name : String) : Except Fault Bytes := do
  (← part fields name).value.asText

/-- The list in a field of a node. -/
def listPart (fields : List Field) (name : String) : Except Fault (List (Spanned Value)) := do
  (← part fields name).value.asList

/-- The option in a field of a node. -/
def optionPart (fields : List Field) (name : String) : Except Fault (Option (Spanned Value)) := do
  (← part fields name).value.asOption

/-- Whether a field of a node counts as true. -/
def truthyPart (fields : List Field) (name : String) : Except Fault Bool := do
  return (← part fields name).value.truthy

/-! ## Translating -/

/-- The host expression that a name stands for: `true` and `false` are constants. -/
def hostOfName (name : Bytes) : HostNode α :=
  if name == Bytes.ascii "true" then .const (.bool true)
  else if name == Bytes.ascii "false" then .const (.bool false)
  else .ref name none

/-- Translates host code in a tree of at most the given depth. -/
def translateHost (scope : Scope) : Nat → Spanned Value → Except Fault (Host α)
  | 0, _ => throw .outOfRange
  | depth + 1, x => do
    let (tag, fields) ← x.value.asNode
    let position := scope.position x
    if tag == Bytes.ascii "HostCall" then
      let name ← textPart fields "name"
      match ← optionPart fields "args" with
      | none => return ⟨.call name [] false none, position⟩
      | some args =>
        let (_, fields) ← args.value.asNode
        let first ← translateHost scope depth (← part fields "first")
        let rest ← (← listPart fields "rest").mapM (translateHost scope depth)
        return ⟨.call name (first :: rest) false none, position⟩
    else if tag == Bytes.ascii "HostString" then
      return ⟨.const (.text (unescape (← textPart fields "text"))), position⟩
    else if tag == Bytes.ascii "HostInteger" then
      match Decimal.int64? (← textPart fields "digits") with
      | some n => return ⟨.const (.int n), position⟩
      | none => throw (.grammar ⟨.integerRange, position⟩)
    else if tag == Bytes.ascii "HostMatch" then return ⟨.matched, position⟩
    else return ⟨hostOfName (← textPart fields "name"), position⟩

/-- Translates the host code in a tree. -/
def hostOf (scope : Scope) (x : Spanned Value) : Except Fault (Host α) :=
  translateHost scope x.value.depth x

/-- The spelling of a run of text at the end of an interpolated literal, as a segment unless it is empty. -/
def spellingSegment (spelling : Bytes) : List (Segment α) :=
  if spelling.isEmpty then [] else [.spelling spelling]

/-- Translates the parts of a literal. `spelling` is the text since the last interpolation; the answer tells
whether there is an interpolation, and else the whole text is its one segment. -/
def literalSegments (scope : Scope) (spelling : Bytes) :
    List (Spanned Value) → Except Fault (Bool × Bytes × List (Segment α))
  | [] => .ok (false, spelling, spellingSegment spelling)
  | x :: rest =>
    match x.value with
    | .text t => literalSegments scope (spelling ++ t) rest
    | _ => do
      if x.value.isTagged (Bytes.ascii "StrayBrace") then
        throw (.grammar ⟨.literal .unbalanced, scope.position x⟩)
      else if scope.braces = .reject then
        throw (.grammar ⟨.literal .unescaped, scope.position x⟩)
      else
        let (_, fields) ← x.value.asNode
        let code ← hostOf scope (← part fields "code")
        let (_, _, segments) ← literalSegments scope [] rest
        return (true, [], spellingSegment spelling ++ .code code :: segments)

/-- Translates a literal with the given parts. -/
def translateLiteral (scope : Scope) (fields : List Field) : Except Fault (Body α) := do
  let caseless ← truthyPart fields "caseless"
  let (dynamic, spelling, segments) ← literalSegments scope [] (← listPart fields "parts")
  if dynamic then return .interpolated segments caseless
  else return .literal spelling caseless true

/-- The lookahead before an item. -/
def translateLookahead (fields : List Field) : Except Fault Lookahead := do
  match ← optionPart fields "prefix" with
  | none => return .none
  | some x => return if (← x.value.asText) == Bytes.ascii "&" then .ahead else .notAhead

/-- The name of an item, and whether it takes the name of the rule that it calls. -/
def translateBinder (fields : List Field) : Except Fault (Option Bytes × Bool) := do
  match ← optionPart fields "binder" with
  | none => return (none, false)
  | some x =>
    if x.value.isTagged (Bytes.ascii "AutoBind") then return (none, true)
    else
      let (_, fields) ← x.value.asNode
      return (some (← textPart fields "name"), false)

/-- The repetition behind an item. -/
def translateRepetition (fields : List Field) : Except Fault Repetition := do
  match ← optionPart fields "suffix" with
  | none => return .once
  | some x =>
    let op ← x.value.asText
    return if op == Bytes.ascii "?" then .optional else if op == Bytes.ascii "*" then .star else .plus

/-- Makes embedded code at the end of a sequence its action, unless it is named, repeated or tested. -/
def splitAction (items : List (Item (Body α))) : List (Item (Body α)) × Option (Host α) :=
  match items.getLast? with
  | some ⟨none, false, .none, .code host, .once, _, _⟩ => (items.dropLast, some host)
  | _ => (items, none)

/-- Translates the body of an item; `expression` translates the expression in a group. -/
def translateBody (scope : Scope) (expression : Spanned Value → Except Fault (Expr α))
    (x : Spanned Value) : Except Fault (Body α) := do
  let (tag, fields) ← x.value.asNode
  if tag == Bytes.ascii "Call" then
    let name ← textPart fields "name"
    return .call (scope.qualify name) (← optionPart fields "at").isSome none
  else if tag == Bytes.ascii "Parenthesized" then
    return .group (← expression (← part fields "body"))
  else if tag == Bytes.ascii "Literal" then translateLiteral scope fields
  else if tag == Bytes.ascii "Class" then
    let body ← textPart fields "body"
    match CharClass.parse? body (← truthyPart fields "caseless") with
    | .ok cls => return .cls cls
    | .error issue => throw (.grammar ⟨issue, scope.position x⟩)
  else if tag == Bytes.ascii "Dot" then return .any
  else return .code (← hostOf scope (← part fields "code"))

/-- Translates an item. -/
def translateItem (scope : Scope) (expression : Spanned Value → Except Fault (Expr α))
    (x : Spanned Value) : Except Fault (Item (Body α)) := do
  let (_, fields) ← x.value.asNode
  let lookahead ← translateLookahead fields
  let (name, autobind) ← translateBinder fields
  let body ← translateBody scope expression (← part fields "primary")
  let repetition ← translateRepetition fields
  return ⟨name, autobind, lookahead, body, repetition, none, scope.position x⟩

/-- Translates a sequence. -/
def translateSequence (scope : Scope) (expression : Spanned Value → Except Fault (Expr α))
    (x : Spanned Value) : Except Fault (Sequence α (Body α)) := do
  let (_, fields) ← x.value.asNode
  let items ← (← listPart fields "items").mapM (translateItem scope expression)
  let (items, action) := splitAction items
  return ⟨items, action, [], scope.position x⟩

/-- Translates an expression in a tree of at most the given depth. -/
def translateExpr (scope : Scope) : Nat → Spanned Value → Except Fault (Expr α)
  | 0, _ => throw .outOfRange
  | depth + 1, x => do
    let (_, fields) ← x.value.asNode
    let first ← translateSequence scope (translateExpr scope depth) (← part fields "first")
    let rest ← (← listPart fields "rest").mapM (translateSequence scope (translateExpr scope depth))
    return first :: rest

/-- Translates the expression in a tree. -/
def exprOf (scope : Scope) (x : Spanned Value) : Except Fault (Expr α) :=
  translateExpr scope x.value.depth x

/-! ## Adding -/

/-- The name that a let or definition defines. -/
def definedName (x : Spanned Value) : Except Fault Bytes := do
  let (_, fields) ← x.value.asNode
  textPart fields "name"

/-- Adds a let to a builder. -/
def addLet (scope : Scope) (matchers : List (Bytes × Matcher)) (b : Builder α) (x : Spanned Value) :
    Except Fault (Builder α) := do
  let (_, fields) ← x.value.asNode
  let target ← textPart fields "target"
  match findEntry target matchers with
  | some matcher =>
    return b.addMatcher (scope.qualifier ++ (← textPart fields "name")) matcher (scope.position x)
  | none =>
    throw (.grammar ⟨.unknownMatcher target, scope.position (← part fields "target")⟩)

/-- Adds a definition to a builder. The arrow `=` makes its rule tag its value. -/
def addDefinition (scope : Scope) (b : Builder α) (x : Spanned Value) : Except Fault (Builder α) := do
  let (_, fields) ← x.value.asNode
  let decorated := (← textPart fields "arrow") == Bytes.ascii "="
  let name ← textPart fields "name"
  let body ← exprOf scope (← part fields "body")
  return b.addRule (scope.qualifier ++ name) body decorated (scope.position x)

/-- Adds every let and definition of a tree to a builder, and gives the name of the first definition. -/
def addTree (text : Bytes) (braces : BracePolicy) (matchers : List (Bytes × Matcher)) (qualifier : Bytes)
    (b : Builder α) (tree : Spanned Value) : Except Fault (Builder α × Bytes) := do
  let (_, fields) ← tree.value.asNode
  let lets ← listPart fields "lets"
  let defs ← listPart fields "defs"
  let letNames ← lets.mapM definedName
  let defNames ← defs.mapM definedName
  let scope : Scope := ⟨text, braces, qualifier, letNames ++ defNames⟩
  let b ← lets.foldlM (addLet scope matchers) b
  let b ← defs.foldlM (addDefinition scope) b
  match defNames with
  | first :: _ => return (b, qualifier ++ first)
  | [] => throw .outOfRange

/-- Parses a grammar source and adds it to a builder. -/
def addSource (text : Bytes) (braces : BracePolicy) (matchers : List (Bytes × Matcher)) (qualifier : Bytes)
    (b : Builder α) : Except Fault (Builder α × Bytes) := do
  let tree ← (parseSource text).1
  addTree text braces matchers qualifier b tree

end Packrat.Source
