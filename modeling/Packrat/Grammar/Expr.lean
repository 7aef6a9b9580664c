import Packrat.Matcher

/-!
# `Packrat.Grammar.Expr` — the expressions of a grammar

An expression is an ordered choice of sequences; a sequence is a list of items with an optional action; an
item is a body with a repetition behind it, a lookahead before it, and a name for its value. The type
parameter `α` stands for the actions of the host program, about which a grammar knows nothing.

## Contents
- **Host expressions.** What actions, embedded code and interpolations compute.
- **Bodies.** `Body`, and around it `Item`, `Sequence` and `Expr`.
- **Rules.** A named expression, or a name for a matcher.

The `slot`, `target`, `action` and `layout` entries are found by linking and are empty before.
-/

namespace Packrat

/-! ## Host expressions -/

/-- Something together with its position in a grammar source. -/
structure Located (β : Type) where
  node : β
  position : Position := .unknown

/-- A computation on the values of a sequence. -/
inductive HostNode (α : Type) where
  /-- The value bound to a name. -/
  | ref (name : Bytes) (slot : Option Nat)
  | const (value : Value)
  /-- The text that the sequence has matched. -/
  | matched
  /-- A call of a registered action, or the construction of a node. -/
  | call (name : Bytes) (args : List (Located (HostNode α))) (constructs : Bool) (action : Option Nat)
  /-- An action of the host program that has no name. -/
  | native (action : α)

/-- A host expression at its position. -/
abbrev Host (α : Type) := Located (HostNode α)

/-! ## Bodies -/

/-- A part of an interpolated literal: text in its spelling, or code whose value gives the text. -/
inductive Segment (α : Type) where
  | spelling (text : Bytes)
  | code (host : Host α)

/-- A test of what follows that takes none of it. -/
inductive Lookahead where
  /-- No test: the item takes what it matches. -/
  | none
  | ahead
  | notAhead
deriving DecidableEq

/-- How often a body is matched. -/
inductive Repetition where
  | once
  | optional
  | star
  | plus
deriving DecidableEq

/-- One member of a sequence. -/
structure Item (β : Type) where
  name : Option Bytes := none
  /-- Whether the item takes the name of the rule that it calls. -/
  autobind : Bool := false
  lookahead : Lookahead := .none
  body : β
  repetition : Repetition := .once
  slot : Option Nat := none
  position : Position := .unknown

/-- Items matched one after the other. -/
structure Sequence (α β : Type) where
  items : List (Item β)
  action : Option (Host α) := none
  /-- The names bound in the sequence, by slot. -/
  layout : List Bytes := []
  position : Position := .unknown

/-- What an item matches. -/
inductive Body (α : Type) where
  /-- Takes nothing and computes a value. -/
  | code (host : Host α)
  | call (name : Bytes) (decorated : Bool) (target : Option Nat)
  | group (alternatives : List (Sequence α (Body α)))
  | literal (spelling : Bytes) (caseless : Bool) (braceSensitive : Bool)
  | interpolated (segments : List (Segment α)) (caseless : Bool)
  | cls (cls : CharClass)
  | any

/-- An ordered choice of sequences. -/
abbrev Expr (α : Type) := List (Sequence α (Body α))

/-- Whether a body is embedded code. -/
def Body.isCode {α : Type} : Body α → Bool
  | .code _ => true
  | _ => false

/-- Whether a body is a rule call or a group, whose value a sequence of one item passes on. -/
def Body.passesOn {α : Type} : Body α → Bool
  | .call _ _ _ => true
  | .group _ => true
  | _ => false

/-! ## Rules -/

/-- A rule: a named expression, or the name of an entry of the matcher table. -/
structure Rule (α : Type) where
  name : Bytes
  body : Expr α := []
  /-- Whether the rule wraps its value in a node tagged with its name. -/
  decorated : Bool := false
  matcher : Option Nat := none
  position : Position := .unknown

/-- Whether the rule stands for a matcher. -/
def Rule.isExternal {α : Type} (r : Rule α) : Bool := r.matcher.isSome

end Packrat
