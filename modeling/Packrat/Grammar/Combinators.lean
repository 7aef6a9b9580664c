import Packrat.Grammar.Link

/-!
# `Packrat.Grammar.Combinators` — writing grammars in code

Functions that build expressions. An operator extends its operand in place where the operand's shape leaves
room for it, and puts the operand into a group otherwise.

## Contents
- **Terms.** Expressions of one item: literals, classes, calls, code.
- **Shapes.** `soleItem?` finds the only item of an expression, if nothing else is attached to it.
- **Operators.** Lookaheads, repetitions, sequences, choices, names and actions.
- **Host expressions.** What actions and code compute.
-/

namespace Packrat

namespace Expr

variable {α : Type}

/-! ## Terms -/

/-- The expression of one item. -/
def ofItem (item : Item (Body α)) : Expr α := [⟨[item], none, [], .unknown⟩]

/-- The expression of one body. -/
def ofBody (body : Body α) : Expr α :=
  ofItem ⟨none, false, .none, body, .once, none, .unknown⟩

/-- Matches a text. -/
def text (t : Bytes) (caseless : Bool) : Expr α := ofBody (.literal (escapeLiteral t) caseless true)

/-- Matches the given ASCII text. -/
def ascii (s : String) : Expr α := text (Bytes.ascii s) false

/-- Matches the given ASCII text in either case. -/
def asciiAnyCase (s : String) : Expr α := text (Bytes.ascii s) true

/-- Matches one rune. -/
def rune (r : Rune) : Expr α := text (Utf8.encode r) false

/-- Matches a text in its grammar spelling. -/
def literal (spelling : Bytes) (caseless : Bool) : Expr α := ofBody (.literal spelling caseless true)

/-- Matches a rune of a class. -/
def ofClass (cls : CharClass) : Expr α := ofBody (.cls cls)

/-- Matches a rune from `first` to `last`. -/
def range (first last : Rune) : Linked (Expr α) :=
  match CharClass.range? first last with
  | .ok cls => .ok (ofClass cls)
  | .error issue => .error ⟨issue, .unknown⟩

/-- Matches a rune of the class with the given body. -/
def bracket (body : Bytes) (caseless : Bool) : Linked (Expr α) :=
  match CharClass.parse? body caseless with
  | .ok cls => .ok (ofClass cls)
  | .error issue => .error ⟨issue, .unknown⟩

/-- Matches one rune or malformed sequence. -/
def any : Expr α := ofBody .any

/-- Matches at the end of the input. -/
def endOfInput : Expr α := ofItem ⟨none, false, .notAhead, .any, .once, none, .unknown⟩

/-- Calls a rule. -/
def call (name : Bytes) : Expr α := ofBody (.call name false none)

/-- Calls a rule and wraps its value in a node tagged with its name. -/
def decoratedCall (name : Bytes) : Expr α := ofBody (.call name true none)

/-- Computes a value without taking any input. -/
def code (host : Host α) : Expr α := ofBody (.code host)

/-- Puts an expression into a group. -/
def grouped (e : Expr α) : Expr α := ofBody (.group e)

/-! ## Shapes -/

/-- The only item of an expression of one sequence without an action, unless it binds a name. -/
def soleItem? : Expr α → Option (Item (Body α) × (Item (Body α) → Expr α))
  | [⟨[item], none, layout, position⟩] =>
    if item.name.isSome || item.autobind then none
    else some (item, fun changed => [⟨[changed], none, layout, position⟩])
  | _ => none

/-- The item of an expression made into a single item, if need be by grouping. -/
def itemOf (e : Expr α) : Item (Body α) × (Item (Body α) → Expr α) :=
  match soleItem? e with
  | some found => found
  | none => (⟨none, false, .none, .group e, .once, none, .unknown⟩, ofItem)

/-- The items of an expression, or one item that groups it if it has a choice or an action. -/
def itemsOf : Expr α → List (Item (Body α))
  | [⟨items, none, _, _⟩] => items
  | e => [⟨none, false, .none, .group e, .once, none, .unknown⟩]

/-! ## Operators -/

/-- Puts a lookahead before an expression. -/
def withLookahead (lookahead : Lookahead) (e : Expr α) : Expr α :=
  match soleItem? e with
  | some (item, rebuild) =>
    if item.lookahead = .none then rebuild { item with lookahead }
    else ofItem ⟨none, false, lookahead, .group e, .once, none, .unknown⟩
  | none => ofItem ⟨none, false, lookahead, .group e, .once, none, .unknown⟩

/-- Puts a repetition behind an expression. -/
def withRepetition (repetition : Repetition) (e : Expr α) : Expr α :=
  match soleItem? e with
  | some (item, rebuild) =>
    if item.lookahead = .none ∧ item.repetition = .once then rebuild { item with repetition }
    else ofItem ⟨none, false, .none, .group e, repetition, none, .unknown⟩
  | none => ofItem ⟨none, false, .none, .group e, repetition, none, .unknown⟩

/-- Succeeds, taking nothing, where the expression fails. -/
def notAhead (e : Expr α) : Expr α := withLookahead .notAhead e

/-- Succeeds, taking nothing, where the expression succeeds. -/
def ahead (e : Expr α) : Expr α := withLookahead .ahead e

/-- Matches the expression as often as possible. -/
def star (e : Expr α) : Expr α := withRepetition .star e

/-- Matches the expression as often as possible, but at least once. -/
def plus (e : Expr α) : Expr α := withRepetition .plus e

/-- Matches the expression if possible. -/
def optional (e : Expr α) : Expr α := withRepetition .optional e

/-- Matches one expression and then the other. -/
def andThen (e₁ e₂ : Expr α) : Expr α := [⟨itemsOf e₁ ++ itemsOf e₂, none, [], .unknown⟩]

/-- Matches the first expression that succeeds. -/
def orElse (e₁ e₂ : Expr α) : Expr α := e₁ ++ e₂

/-- Matches one or more of `e`, separated by `sep`. -/
def separatedBy (e sep : Expr α) : Expr α := andThen e (star (andThen sep e))

/-- Matches the expressions one after the other. -/
def sequence : List (Expr α) → Expr α
  | [] => []
  | e :: rest => rest.foldl andThen e

/-- Matches the first of the expressions that succeeds. -/
def choice : List (Expr α) → Expr α
  | [] => []
  | e :: rest => rest.foldl orElse e

/-- Binds the value of an expression to a name. -/
def bind (name : Bytes) (e : Expr α) : Expr α :=
  let (item, rebuild) := itemOf e
  rebuild { item with name := some name }

/-- Binds the value of a rule call to the name of the rule. -/
def autobind (e : Expr α) : Expr α :=
  let (item, rebuild) := itemOf e
  rebuild { item with autobind := true }

/-- Gives an expression an action. -/
def withAction (e : Expr α) (host : Host α) : Expr α :=
  match e with
  | [⟨items, none, layout, position⟩] => [⟨items, some host, layout, position⟩]
  | _ =>
    [⟨[⟨none, false, .none, .group e, .once, none, .unknown⟩], some host, [], .unknown⟩]

end Expr

/-! ## Host expressions -/

namespace Host

variable {α : Type}

/-- The value bound to a name. -/
def ref (name : Bytes) : Host α := ⟨.ref name none, .unknown⟩

/-- A constant. -/
def const (v : Value) : Host α := ⟨.const v, .unknown⟩

/-- The matched text. -/
def matched : Host α := ⟨.matched, .unknown⟩

/-- A call of a registered action. -/
def invoke (name : Bytes) (args : List (Host α)) : Host α := ⟨.call name args false none, .unknown⟩

/-- The construction of a node. -/
def construct (tag : Bytes) (args : List (Host α)) : Host α := ⟨.call tag args true none, .unknown⟩

/-- An action without a name. -/
def native (action : α) : Host α := ⟨.native action, .unknown⟩

end Host

end Packrat
