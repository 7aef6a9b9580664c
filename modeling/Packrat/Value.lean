import Packrat.Decimal
import Packrat.Fault

/-!
# `Packrat.Value` — what a parse produces

## Contents
- **Spans.** `Spanned` tags something with the part of the input that it comes from.
- **Values.** Unit, booleans, 64-bit integers, texts, lists, options, tagged nodes with named fields, and
  objects of the host program.
- **Questions.** The kinds of a value, whether it counts as true, and its fields.
- **Access.** `asBool`, `asInteger` and so on give the content of a value, or the fault of asking for it.
- **Changes.** A list gets another element, a node another field or tag.
-/

namespace Packrat

/-! ## Spans -/

/-- Something with the offsets at which its part of the input starts and stops. -/
structure Spanned (α : Type) where
  value : α
  start : Nat := 0
  stop : Nat := 0

namespace Spanned

variable {α : Type}

/-- The number of bytes of the span, as a 64-bit word: it wraps around for a span that stops before it
starts. -/
def size (x : Spanned α) : UInt64 := UInt64.ofNat x.stop - UInt64.ofNat x.start

/-- Whether the span is empty. -/
def isEmpty (x : Spanned α) : Bool := x.start == x.stop

end Spanned

/-! ## Values -/

/-- An object that only the host program understands. -/
inductive HostObject where
  | number (n : Int)
  | text (t : Bytes)

/-- What a parse produces. -/
inductive Value where
  | unit
  | bool (b : Bool)
  | int (n : Int64)
  | text (t : Bytes)
  | list (elements : List (Spanned Value))
  | option (content : Option (Spanned Value))
  | node (tag : Bytes) (fields : List (Bytes × Spanned Value))
  | host (object : HostObject)

/-- The unit value at an empty span at the start of the input. -/
instance : Inhabited (Spanned Value) := ⟨⟨.unit, 0, 0⟩⟩

/-- A named part of a node. -/
abbrev Field := Bytes × Spanned Value

namespace Value

/-- A natural number as a 64-bit integer. -/
def ofNat (n : Nat) : Value := .int (Int64.ofNat n)

/-! ## Questions -/

/-- Whether the value is the unit value. -/
def isUnit : Value → Bool
  | .unit => true
  | _ => false

/-- Whether the value is a boolean. -/
def isBool : Value → Bool
  | .bool _ => true
  | _ => false

/-- Whether the value is an integer. -/
def isInteger : Value → Bool
  | .int _ => true
  | _ => false

/-- Whether the value is a text. -/
def isText : Value → Bool
  | .text _ => true
  | _ => false

/-- Whether the value is a list. -/
def isList : Value → Bool
  | .list _ => true
  | _ => false

/-- Whether the value is an option. -/
def isOption : Value → Bool
  | .option _ => true
  | _ => false

/-- Whether the value is a node. -/
def isNode : Value → Bool
  | .node _ _ => true
  | _ => false

/-- Whether the value is an object of the host program. -/
def isHost : Value → Bool
  | .host _ => true
  | _ => false

/-- Whether the value is a node with the given tag. -/
def isTagged (v : Value) (tag : Bytes) : Bool :=
  match v with
  | .node t _ => t == tag
  | _ => false

/-- Whether the value counts as true: unit, `false`, an absent option, and the empty text and list do
not. -/
def truthy : Value → Bool
  | .unit => false
  | .bool b => b
  | .text t => !t.isEmpty
  | .list elements => !elements.isEmpty
  | .option content => content.isSome
  | .int _ => true
  | .node _ _ => true
  | .host _ => true

/-- The first field of the given name. -/
def findField (name : Bytes) : List Field → Option (Spanned Value)
  | [] => none
  | (n, x) :: rest => if n == name then some x else findField name rest

/-! ## Access -/

/-- The boolean that the value holds. -/
def asBool : Value → Except Fault Bool
  | .bool b => .ok b
  | _ => .error (.badAccess .boolean)

/-- The integer that the value holds. -/
def asInteger : Value → Except Fault Int64
  | .int n => .ok n
  | _ => .error (.badAccess .integer)

/-- The text that the value holds. -/
def asText : Value → Except Fault Bytes
  | .text t => .ok t
  | _ => .error (.badAccess .text)

/-- The elements that the value holds. -/
def asList : Value → Except Fault (List (Spanned Value))
  | .list elements => .ok elements
  | _ => .error (.badAccess .list)

/-- The option that the value holds. -/
def asOption : Value → Except Fault (Option (Spanned Value))
  | .option content => .ok content
  | _ => .error (.badAccess .option)

/-- The tag and the fields of the node that the value holds. -/
def asNode : Value → Except Fault (Bytes × List Field)
  | .node tag fields => .ok (tag, fields)
  | _ => .error (.badAccess .node)

/-- The object of the host program that the value holds. -/
def asHost : Value → Except Fault HostObject
  | .host object => .ok object
  | _ => .error (.badAccess .hostObject)

/-- The number that the value holds as an object of the host program. -/
def asHostNumber (v : Value) : Except Fault Int := do
  match ← v.asHost with
  | .number n => .ok n
  | .text _ => .error (.badAccess .hostKind)

/-- The text that the value holds as an object of the host program. -/
def asHostText (v : Value) : Except Fault Bytes := do
  match ← v.asHost with
  | .text t => .ok t
  | .number _ => .error (.badAccess .hostKind)

/-- The field of the given name among some fields. -/
def fieldIn (fields : List Field) (name : Bytes) : Except Fault (Spanned Value) :=
  match findField name fields with
  | some x => .ok x
  | none => .error (.badAccess (.field name))

/-- The element at a place of the list that the value holds. -/
def element (v : Value) (i : Nat) : Except Fault (Spanned Value) := do
  match (← v.asList)[i]? with
  | some x => .ok x
  | none => .error .outOfRange

/-- The content of the option that the value holds. -/
def content (v : Value) : Except Fault (Spanned Value) := do
  match ← v.asOption with
  | some x => .ok x
  | none => .error .outOfRange

/-- The field of the given name of the node that the value holds. -/
def field (v : Value) (name : Bytes) : Except Fault (Spanned Value) := do
  let (_, fields) ← v.asNode
  fieldIn fields name

/-- The integer that a text denotes. -/
def integerOf (t : Bytes) : Except Fault Int64 :=
  match Decimal.int64? t with
  | some n => .ok n
  | none => .error (.badAccess (.integerIn t))

/-! ## Changes -/

/-- Adds an element behind those of the list that the value holds. -/
def push (v : Value) (x : Spanned Value) : Except Fault Value := do
  return .list ((← v.asList) ++ [x])

/-- Adds a field behind those of the node that the value holds. -/
def addField (v : Value) (name : Bytes) (x : Spanned Value) : Except Fault Value := do
  let (tag, fields) ← v.asNode
  return .node tag (fields ++ [(name, x)])

/-- Gives the node that the value holds another tag. -/
def retag (v : Value) (tag : Bytes) : Except Fault Value := do
  return .node tag (← v.asNode).2

end Value

end Packrat
