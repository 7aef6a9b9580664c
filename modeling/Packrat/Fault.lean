import Packrat.Diagnostic

/-!
# `Packrat.Fault` — what can go wrong

A parse that does not match is an answer, not a fault (see `Packrat.Diagnostic`). The faults are mistakes in
a grammar, limits and interruptions of a parse, and wrong uses of a value.

## Contents
- **Grammar errors.** `GrammarIssue` names the mistake and `GrammarError` adds where it stands.
- **Faults.** `Fault` joins them with the faults of a running parse.
- **Wording.** One `message` function for each type. A name or text that a message quotes may hold a NUL byte;
  the message ends there.
-/

namespace Packrat

/-! ## Grammar errors -/

/-- A mistake in a literal of a grammar source. -/
inductive LiteralIssue where
  /-- A closing brace without an opening one. -/
  | unbalanced
  /-- An interpolation where the options forbid it. -/
  | unescaped
  /-- Any other mistake, in the words of whoever found it. -/
  | other (message : Bytes)

/-- A mistake in a grammar. -/
inductive GrammarIssue where
  /-- A grammar without rules. -/
  | empty
  | undefinedRule (name : Bytes)
  | unboundName (name : Bytes)
  | unknownAction (name : Bytes)
  | unknownMatcher (name : Bytes)
  | duplicateRule (name : Bytes)
  | duplicateBinding (name : Bytes)
  /-- An autobind on something that is no rule call. -/
  | namelessAutobind
  | literal (issue : LiteralIssue)
  | emptyClass
  | reversedRange
  /-- A grammar source that does not parse, with the labels expected where it fails. -/
  | malformedSource (expected : List Bytes)
  /-- An integer constant that does not fit in 64 bits. -/
  | integerRange
  /-- Any other mistake, in the words of whoever found it. -/
  | other (message : Bytes)

/-- A mistake in a grammar and where it stands, if that is known. -/
structure GrammarError where
  issue : GrammarIssue
  position : Position := .unknown

/-! ## Faults -/

/-- What a value was expected to hold. -/
inductive Wanted where
  | boolean
  | integer
  | text
  | list
  | option
  | node
  | hostObject
  /-- A host object of a certain kind. -/
  | hostKind
  | field (name : Bytes)
  | argument (name : Bytes)
  /-- An integer, where the given text denotes none. -/
  | integerIn (given : Bytes)
  /-- Anything else, in the words of whoever asked. -/
  | other (description : Bytes)

/-- A fault that an action of the host program raises. -/
inductive HostFault where
  | overflow
  | divisionByZero
  /-- The program is to end successfully. -/
  | quit
deriving DecidableEq

/-- What can end an operation other than by an answer. -/
inductive Fault where
  | grammar (error : GrammarError)
  /-- A parse was started on an environment that is already parsing. -/
  | reentrant
  | callDepth
  | interrupted
  | badAccess (wanted : Wanted)
  | outOfRange
  | host (fault : HostFault)

/-- A grammar fault at a position that is not known. -/
def Fault.ofIssue (issue : GrammarIssue) : Fault := .grammar ⟨issue, .unknown⟩

/-! ## Wording -/

/-- The part of a text before its first NUL byte, where a message ends. -/
def beforeNul (text : Bytes) : Bytes := text.takeWhile (· != 0)

/-- A name between single quotes. -/
def quotedName (name : Bytes) : Bytes := Bytes.ascii "'" ++ name ++ Bytes.ascii "'"

/-- The wording of a mistake in a literal. -/
def LiteralIssue.message : LiteralIssue → Bytes
  | .unbalanced => Bytes.ascii "unbalanced '\x7d' in literal"
  | .unescaped => Bytes.ascii "braces in literals must be escaped"
  | .other message => message

/-- The wording of a mistake in a grammar. -/
def GrammarIssue.message : GrammarIssue → Bytes
  | .empty => Bytes.ascii "invalid or empty grammar"
  | .undefinedRule name => Bytes.ascii "reference to undefined rule " ++ quotedName name
  | .unboundName name =>
    Bytes.ascii "name " ++ quotedName name ++ Bytes.ascii " is not bound in this sequence"
  | .unknownAction name => Bytes.ascii "unknown semantic action " ++ quotedName name
  | .unknownMatcher name => Bytes.ascii "unknown external combinator " ++ quotedName name
  | .duplicateRule name =>
    Bytes.ascii "rule " ++ quotedName name ++ Bytes.ascii " is defined more than once"
  | .duplicateBinding name =>
    Bytes.ascii "name " ++ quotedName name ++ Bytes.ascii " is bound more than once in a sequence"
  | .namelessAutobind => Bytes.ascii "autobind '~' requires a rule name"
  | .literal issue => issue.message
  | .emptyClass => Bytes.ascii "invalid character class"
  | .reversedRange => Bytes.ascii "character range is reversed"
  | .malformedSource expected => Bytes.ascii "syntax error in grammar" ++ expectation expected
  | .integerRange => Bytes.ascii "integer constant out of range"
  | .other message => message

/-- The wording of a grammar error, after its position if that is known. -/
def GrammarError.message (e : GrammarError) : Bytes :=
  let message := beforeNul e.issue.message
  if e.position.isKnown then e.position.render ++ Bytes.ascii ": " ++ message else message

/-- What was expected, in words. -/
def Wanted.description : Wanted → Bytes
  | .boolean => Bytes.ascii "a boolean"
  | .integer => Bytes.ascii "an integer"
  | .text => Bytes.ascii "text"
  | .list => Bytes.ascii "a list"
  | .option => Bytes.ascii "an option"
  | .node => Bytes.ascii "a node"
  | .hostObject => Bytes.ascii "a host object"
  | .hostKind => Bytes.ascii "the requested host object type"
  | .field name => Bytes.ascii "a field named " ++ quotedName name
  | .argument name => Bytes.ascii "an argument named " ++ quotedName name
  | .integerIn given => Bytes.ascii "an integer, got \"" ++ given ++ Bytes.ascii "\""
  | .other description => description

/-- The wording of a fault of the host program. -/
def HostFault.message : HostFault → Bytes
  | .overflow => Bytes.ascii "integer overflow"
  | .divisionByZero => Bytes.ascii "division by zero"
  | .quit => Bytes.ascii "quit"

/-- The wording of a fault. -/
def Fault.message : Fault → Bytes
  | .grammar error => error.message
  | .reentrant => Bytes.ascii "parsing is non-reenterant"
  | .callDepth => Bytes.ascii "rule call depth exceeds configured limit"
  | .interrupted => Bytes.ascii "parse interrupted"
  | .badAccess wanted => Bytes.ascii "value does not hold " ++ beforeNul wanted.description
  | .outOfRange => Bytes.ascii "index out of range"
  | .host fault => fault.message

end Packrat
