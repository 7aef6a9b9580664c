import Packrat.Grammar.Expr

/-!
# `Packrat.Grammar.Builder` — collecting the parts of a grammar

## Contents
- **Actions.** The actions that every grammar knows, and those of the host program.
- **The builder.** Rules, matchers, actions and the start rule, in the order in which they are given. A
  builder checks nothing; linking does (`Packrat.Grammar.Link`).
- **Grammars.** `Grammar`, the result of linking.
-/

namespace Packrat

/-! ## Actions -/

/-- The actions that every grammar knows. -/
inductive Builtin where
  /-- The text of the arguments, or the matched text without any. -/
  | text
  /-- The integer that the first argument or the matched text denotes. -/
  | integer
  /-- The list of the arguments. -/
  | list
  /-- The list of the arguments with lists and options flattened. -/
  | concat
  /-- The size of the first argument or of the matched text. -/
  | length
deriving DecidableEq

/-- An action that a grammar can call by name. -/
inductive NamedAction (α : Type) where
  | builtin (b : Builtin)
  | custom (a : α)

/-- The actions that every grammar knows, by name. -/
def Builtin.table {α : Type} : List (Bytes × NamedAction α) :=
  [(Bytes.ascii "text", .builtin .text), (Bytes.ascii "integer", .builtin .integer),
    (Bytes.ascii "list", .builtin .list), (Bytes.ascii "concat", .builtin .concat),
    (Bytes.ascii "length", .builtin .length)]

/-- Puts an entry into a table, in the place of the entry of the same name if there is one. -/
def putEntry {β : Type} (name : Bytes) (x : β) : List (Bytes × β) → List (Bytes × β)
  | [] => [(name, x)]
  | (n, y) :: rest => if n == name then (name, x) :: rest else (n, y) :: putEntry name x rest

/-- The entry of the given name. -/
def findEntry {β : Type} (name : Bytes) : List (Bytes × β) → Option β
  | [] => none
  | (n, x) :: rest => if n == name then some x else findEntry name rest

theorem findEntry_putEntry_self {β : Type} (name : Bytes) (x : β) (table : List (Bytes × β)) :
    findEntry name (putEntry name x table) = some x := by
  induction table with
  | nil => simp [putEntry, findEntry]
  | cons entry rest ih =>
    obtain ⟨n, y⟩ := entry
    rw [putEntry]
    split
    · simp [findEntry]
    · next h => rw [findEntry, if_neg h, ih]

/-! ## The builder -/

/-- The parts of a grammar. -/
structure Builder (α : Type) where
  rules : List (Rule α) := []
  matchers : List Matcher := []
  actions : List (Bytes × NamedAction α) := Builtin.table
  start : Option Bytes := none

namespace Builder

variable {α : Type}

/-- Adds a rule. -/
def addRule (b : Builder α) (name : Bytes) (body : Expr α) (decorated : Bool) (position : Position) :
    Builder α :=
  { b with rules := b.rules ++ [⟨name, body, decorated, none, position⟩] }

/-- Adds a rule that stands for a matcher. -/
def addMatcher (b : Builder α) (name : Bytes) (matcher : Matcher) (position : Position) : Builder α :=
  { b with
    rules := b.rules ++ [⟨name, [], false, some b.matchers.length, position⟩]
    matchers := b.matchers ++ [matcher] }

/-- Registers an action, in the place of one of the same name. -/
def addAction (b : Builder α) (name : Bytes) (action : α) : Builder α :=
  { b with actions := putEntry name (.custom action) b.actions }

/-- Registers several actions, one after the other. -/
def addActions (b : Builder α) (actions : List (Bytes × α)) : Builder α :=
  actions.foldl (fun b (name, action) => b.addAction name action) b

/-- Names the start rule. -/
def setStart (b : Builder α) (name : Bytes) : Builder α := { b with start := some name }

/-- Whether a rule of the given name has been added. -/
def hasRule (b : Builder α) (name : Bytes) : Bool := b.rules.any (·.name == name)

end Builder

/-! ## Grammars -/

/-- A linked grammar. Rules, actions and matchers are called by their place in the tables. -/
structure Grammar (α : Type) where
  rules : List (Rule α) := []
  actions : List (Bytes × NamedAction α) := []
  matchers : List Matcher := []
  start : Nat := 0

namespace Grammar

variable {α : Type}

/-- Whether the grammar has no rules. -/
def isEmpty (g : Grammar α) : Bool := g.rules.isEmpty

/-- The place of the rule with the given name. -/
def find (g : Grammar α) (name : Bytes) : Option Nat := g.rules.findIdx? (·.name == name)

end Grammar

end Packrat
