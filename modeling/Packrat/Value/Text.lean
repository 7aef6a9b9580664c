import Packrat.Value

/-!
# `Packrat.Value.Text` — values as text

## Contents
- **Flattening.** `toText` is the text that a value stands for when it is interpolated.
- **Printing.** `render` shows the structure: `() true 42 "text" [a b] none (some x) (Tag name=x y)`.
- **Spans.** A value with its span is shown as the value and `@[start, stop)`.
-/

namespace Packrat

/-- A text between double quotes, with quotes, backslashes, LF, CR and TAB escaped. -/
def quoteText (text : Bytes) : Bytes :=
  Bytes.char '"' :: text.flatMap escape ++ [Bytes.char '"']
where
  escape (b : UInt8) : Bytes :=
    if b == Bytes.char '"' then Bytes.ascii "\\\""
    else if b == Bytes.char '\\' then Bytes.ascii "\\\\"
    else if b == 0x0A then Bytes.ascii "\\n"
    else if b == 0x0D then Bytes.ascii "\\r"
    else if b == 0x09 then Bytes.ascii "\\t"
    else [b]

namespace Value

/-- The word for a boolean. -/
def boolWord (b : Bool) : Bytes := if b then Bytes.ascii "true" else Bytes.ascii "false"

/-- The printed form of every object of the host program. -/
def hostWord : Bytes := Bytes.ascii "<host object>"

/-! ## Flattening -/

mutual

/-- The text that a value stands for: a text itself, the texts of all parts of a list, option or node one
after the other, and nothing for unit. -/
def toText : Value → Bytes
  | .unit => []
  | .bool b => boolWord b
  | .int n => Decimal.ofInt n.toInt
  | .text t => t
  | .list elements => elementsToText elements
  | .option none => []
  | .option (some ⟨v, _, _⟩) => v.toText
  | .node _ fields => fieldsToText fields
  | .host _ => hostWord
termination_by structural v => v

/-- The texts of the elements of a list, one after the other. -/
def elementsToText : List (Spanned Value) → Bytes
  | [] => []
  | ⟨v, _, _⟩ :: rest => v.toText ++ elementsToText rest
termination_by structural elements => elements

/-- The texts of the fields of a node, one after the other. -/
def fieldsToText : List Field → Bytes
  | [] => []
  | (_, ⟨v, _, _⟩) :: rest => v.toText ++ fieldsToText rest
termination_by structural fields => fields

end

/-! ## Printing -/

/-- What stands between the parts of a list or node: a blank, unless nothing but the opening bracket is
written yet. -/
def separator (fresh : Bool) : Bytes := if fresh then [] else Bytes.ascii " "

/-- What stands before the value of a field: its name and an equals sign, or nothing without a name. -/
def label (name : Bytes) : Bytes := if name.isEmpty then [] else name ++ Bytes.ascii "="

mutual

/-- The printed form of a value. -/
def render : Value → Bytes
  | .unit => Bytes.ascii "()"
  | .bool b => boolWord b
  | .int n => Decimal.ofInt n.toInt
  | .text t => quoteText t
  | .list elements => Bytes.ascii "[" ++ renderElements true elements ++ Bytes.ascii "]"
  | .option none => Bytes.ascii "none"
  | .option (some ⟨v, _, _⟩) => Bytes.ascii "(some " ++ v.render ++ Bytes.ascii ")"
  | .node tag fields =>
    Bytes.ascii "(" ++ tag ++ renderFields tag.isEmpty fields ++ Bytes.ascii ")"
  | .host _ => hostWord
termination_by structural v => v

/-- The printed forms of the elements of a list. -/
def renderElements (fresh : Bool) : List (Spanned Value) → Bytes
  | [] => []
  | ⟨v, _, _⟩ :: rest => separator fresh ++ v.render ++ renderElements false rest
termination_by structural elements => elements

/-- The printed forms of the fields of a node. -/
def renderFields (fresh : Bool) : List Field → Bytes
  | [] => []
  | (name, ⟨v, _, _⟩) :: rest =>
    separator fresh ++ label name ++ v.render ++ renderFields false rest
termination_by structural fields => fields

end

example : render (.list [⟨.text [97, 34], 0, 2⟩, ⟨.option none, 2, 2⟩]) = Bytes.ascii "[\"a\\\"\" none]" := by
  decide

end Value

/-! ## Spans -/

/-- The printed form of a value with its span. -/
def Spanned.render (x : Spanned Value) : Bytes :=
  x.value.render ++ Bytes.ascii "@[" ++ Decimal.ofNat x.start ++ Bytes.ascii ", "
    ++ Decimal.ofNat x.stop ++ Bytes.ascii ")"

end Packrat
