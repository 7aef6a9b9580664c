import Packrat.Proofs.Json.Text
import Packrat.Proofs.Likeness
import Packrat.Proofs.RoundTrip

/-!
# `Packrat.Proofs.Json.Rules` — the JSON grammar, linked

The JSON grammar comes out of a source. Here are its rules as linking leaves them, without positions: every call
with the place of its rule, every name with its slot, every action with its place.

## Contents
- **Symbols.** `Symbol` lists the rules in the order of the source.
- **Rules.** `Symbol.alternatives` and `grammar`.
- **Compiling.** `parse_eq`: a JSON text is parsed as by these rules.
-/

namespace Packrat.Json

open Source (compile eraseRule)

/-! ## Symbols -/

/-- The rules of the JSON grammar. -/
inductive Symbol where
  | text | value | object | member | array | string | char | escape | hex | number | keyword | blanks

namespace Symbol

/-- All rules in the order of the grammar. -/
def all : List Symbol :=
  [text, value, object, member, array, string, char, escape, hex, number, keyword, blanks]

/-- The place of a rule in the grammar. -/
def place (s : Symbol) : Nat := s.ctorIdx

/-- The name of a rule. -/
def name : Symbol → Bytes
  | text => Bytes.ascii "JSON"
  | value => Bytes.ascii "Value"
  | object => Bytes.ascii "Object"
  | member => Bytes.ascii "Member"
  | array => Bytes.ascii "Array"
  | string => Bytes.ascii "String"
  | char => Bytes.ascii "Char"
  | escape => Bytes.ascii "Escape"
  | hex => Bytes.ascii "Hex"
  | number => Bytes.ascii "Number"
  | keyword => Bytes.ascii "Keyword"
  | blanks => Bytes.ascii "_"

/-- A call of a rule. -/
def body (s : Symbol) : Body JsonAction := .call s.name false (some s.place)

end Symbol

/-! ## Rules -/

/-- An item that binds no name. -/
def step (body : Body JsonAction) (repetition : Repetition := .once) : Item (Body JsonAction) :=
  ⟨none, false, .none, body, repetition, none, .unknown⟩

/-- An item that binds a name to a slot. -/
def bound (name : String) (slot : Nat) (body : Body JsonAction) (repetition : Repetition := .once) :
    Item (Body JsonAction) :=
  ⟨some (Bytes.ascii name), false, .none, body, repetition, some slot, .unknown⟩

/-- A literal in its spelling. -/
def word (spelling : String) : Body JsonAction := .literal (Bytes.ascii spelling) false true

/-- The value in a slot. -/
def slotRef (name : String) (slot : Nat) : Host JsonAction := ⟨.ref (Bytes.ascii name) (some slot), .unknown⟩

/-- A call of an action. -/
def acting (name : String) (args : List (Host JsonAction)) (place : Nat) : Host JsonAction :=
  ⟨.call (Bytes.ascii name) args false (some place), .unknown⟩

/-- The construction of a node. -/
def making (name : String) (args : List (Host JsonAction)) : Host JsonAction :=
  ⟨.call (Bytes.ascii name) args true none, .unknown⟩

/-- A constant. -/
def constant (v : Value) : Host JsonAction := ⟨.const v, .unknown⟩

/-- A sequence with an action. -/
def acts (items : List (Item (Body JsonAction))) (layout : List String) (action : Host JsonAction) :
    Sequence JsonAction (Body JsonAction) :=
  ⟨items, some action, layout.map Bytes.ascii, .unknown⟩

/-- A sequence without names and actions. -/
def plain (items : List (Item (Body JsonAction))) : Sequence JsonAction (Body JsonAction) :=
  ⟨items, none, [], .unknown⟩

def blankClass : CharClass := ⟨[⟨0x20, 0x20⟩, ⟨9, 9⟩, ⟨0xD, 0xD⟩, ⟨0xA, 0xA⟩], false, false, Bytes.ascii "[ \\t\\r\\n]"⟩

def digitClass : CharClass := ⟨[⟨0x30, 0x39⟩], false, false, Bytes.ascii "[0-9]"⟩

def nonzeroClass : CharClass := ⟨[⟨0x31, 0x39⟩], false, false, Bytes.ascii "[1-9]"⟩

def exponentClass : CharClass := ⟨[⟨0x65, 0x65⟩, ⟨0x45, 0x45⟩], false, false, Bytes.ascii "[eE]"⟩

def signClass : CharClass := ⟨[⟨0x2B, 0x2B⟩, ⟨0x2D, 0x2D⟩], false, false, Bytes.ascii "[+-]"⟩

def hexClass : CharClass := ⟨[⟨0x30, 0x39⟩, ⟨0x61, 0x66⟩, ⟨0x41, 0x46⟩], false, false, Bytes.ascii "[0-9a-fA-F]"⟩

/-- The characters that stand for themselves in a string. -/
def plainClass : CharClass :=
  ⟨[⟨0x22, 0x22⟩, ⟨0x5C, 0x5C⟩, ⟨0, 0x1F⟩], true, false, Bytes.ascii "[^\"\\\\\\x00-\\x1f]"⟩

/-- The characters that stand for themselves behind a backslash. -/
def escapedClass : CharClass :=
  ⟨[⟨0x22, 0x22⟩, ⟨0x5C, 0x5C⟩, ⟨0x2F, 0x2F⟩], false, false, Bytes.ascii "[\"\\\\/]"⟩

namespace Kind

/-- The rule of the parts. -/
def part : Kind → Symbol
  | array => .value
  | object => .member

/-- The literal of the opening bracket. -/
def opening : Kind → Body JsonAction
  | array => word "["
  | object => word "\\\x7b"

/-- The literal of the closing bracket. -/
def closing : Kind → Body JsonAction
  | array => word "]"
  | object => word "\\\x7d"

/-- The tag of the node. -/
def tag : Kind → String
  | array => "Array"
  | object => "Object"

/-- The name of a part behind a comma. -/
def partName : Kind → String
  | array => "v"
  | object => "m"

/-- A part behind a comma. -/
def further (kind : Kind) : Body JsonAction :=
  .group [acts [step (word ","), step Symbol.blanks.body, bound kind.partName 0 kind.part.body] [kind.partName]
    (slotRef kind.partName 0)]

/-- A container: its first part need not be there for others to follow. -/
def sequence (kind : Kind) : Sequence JsonAction (Body JsonAction) :=
  acts [step kind.opening, step Symbol.blanks.body, bound "first" 0 kind.part.body .optional,
      bound "rest" 1 kind.further .star, step kind.closing, step Symbol.blanks.body] ["first", "rest"]
    (making kind.tag [acting "concat" [slotRef "first" 0, slotRef "rest" 1] 3])

end Kind

/-- An escape of one letter. -/
def shortEscape (letter : String) (byte : UInt8) : Sequence JsonAction (Body JsonAction) :=
  acts [step (word letter)] [] (constant (.text [byte]))

/-- The digits of a number: its integer part, its fraction and its exponent. -/
def numeral : Body JsonAction :=
  .group [plain [step (word "-") .optional,
    step (.group [plain [step (word "0")], plain [step (.cls nonzeroClass), step (.cls digitClass) .star]]),
    step (.group [plain [step (word "."), step (.cls digitClass) .plus]]) .optional,
    step (.group [plain [step (.cls exponentClass), step (.cls signClass) .optional,
      step (.cls digitClass) .plus]]) .optional]]

namespace Symbol

/-- The alternatives of each rule. -/
def alternatives : Symbol → Expr JsonAction
  | text => [acts [step blanks.body, bound "v" 0 value.body,
      ⟨none, false, .notAhead, .any, .once, none, .unknown⟩] ["v"] (slotRef "v" 0)]
  | value => [plain [step object.body], plain [step array.body], plain [step string.body],
      plain [step number.body], plain [step keyword.body]]
  | object => [Kind.object.sequence]
  | member => [acts [bound "k" 0 string.body, step (word ":"), step blanks.body, bound "v" 1 value.body] ["k", "v"]
      (making "Member" [slotRef "k" 0, slotRef "v" 1])]
  | array => [Kind.array.sequence]
  | string => [acts [step (word "\""), bound "s" 0 char.body .star, step (word "\""), step blanks.body] ["s"]
      (acting "text" [slotRef "s" 0] 0)]
  | char => [acts [step (word "\\\\"), bound "e" 0 escape.body] ["e"] (slotRef "e" 0),
      acts [bound "c" 0 (.cls plainClass)] ["c"] (slotRef "c" 0)]
  | escape => [acts [step (word "u"),
        bound "h" 0 (.group [plain [step hex.body, step hex.body, step hex.body, step hex.body]])] ["h"]
        (acting "codepoint" [slotRef "h" 0] 5),
      shortEscape "b" 0x08, shortEscape "f" 0x0C, shortEscape "n" 0x0A, shortEscape "r" 0x0D, shortEscape "t" 0x09,
      acts [bound "c" 0 (.cls escapedClass)] ["c"] (slotRef "c" 0)]
  | hex => [plain [step (.cls hexClass)]]
  | number => [acts [bound "n" 0 numeral, step blanks.body] ["n"] (making "Number" [slotRef "n" 0])]
  | keyword => [acts [step (word "true"), step blanks.body] [] (constant (.bool true)),
      acts [step (word "false"), step blanks.body] [] (constant (.bool false)),
      acts [step (word "null"), step blanks.body] [] (making "Null" [])]
  | blanks => [plain [step (.cls blankClass) .star]]

/-- A rule as linking leaves it. -/
def rule (s : Symbol) : Rule JsonAction := ⟨s.name, s.alternatives, false, none, .unknown⟩

end Symbol

/-- The linked grammar, without positions. -/
def grammar : Grammar JsonAction :=
  ⟨Symbol.all.map Symbol.rule, Builtin.table ++ [(Bytes.ascii "codepoint", .custom .codepoint)], [],
    Symbol.text.place⟩

theorem rule_at (s : Symbol) : grammar.rules[s.place]? = some s.rule := by cases s <;> rfl

theorem rules_erased : grammar.rules.map eraseRule = grammar.rules := rfl

/-! ## Compiling -/

deriving instance DecidableEq for NamedAction, JsonAction

/-- Whether a grammar is the JSON grammar up to positions. -/
def isJson (g : Grammar JsonAction) : Bool :=
  sameRules g.rules grammar.rules && g.actions == grammar.actions && g.matchers.isEmpty && g.start == grammar.start

theorem erased_of_isJson {g : Grammar JsonAction} (h : isJson g = true) : g.erased = grammar := by
  obtain ⟨rules, actions, matchers, start⟩ := g
  simp only [isJson, Bool.and_eq_true, beq_iff_eq, List.isEmpty_iff] at h
  obtain ⟨⟨⟨hrules, rfl⟩, rfl⟩, rfl⟩ := h
  simp only [Grammar.erased, eraseRule_eq_of_same hrules, rules_erased]
  rfl

theorem ascii_join (lines : List String) : Bytes.ascii (String.join lines) = lines.flatMap Bytes.ascii := by
  unfold Bytes.ascii
  rw [String.toList_join, List.map_flatMap]

theorem ascii_ofList (cs : List Char) : Bytes.ascii (String.ofList cs) = cs.map fun c => c.toNat.toUInt8 := by
  rw [Bytes.ascii, String.toList_ofList]

-- the kernel reads the source, and follows its calls that far
set_option maxRecDepth 100000 in
theorem evaluatesTo_json : Source.evaluatesTo isJson options source = true := by
  unfold source
  rw [ascii_join]
  -- the kernel is slow to take a string apart, so it gets the characters of each line
  simp only [List.flatMap_cons, List.flatMap_nil]
  repeat rw [ascii_ofList]
  decide +kernel

/-- A JSON text is parsed as by the rules above. -/
theorem parse_eq (text : Bytes) :
    parse text = (Parser.parse {} grammar client grammar.start text (Env.fresh ())).1 := by
  obtain ⟨g, hg, hjson⟩ := Source.compile_of_evaluatesTo rfl evaluatesTo_json
  have herased := erased_of_isJson hjson
  have hgrammar : grammar? = .ok g := hg
  have hpositions := Parser.parse_erased {} g client g.start text (Env.fresh ())
  rw [← herased]
  show _ = (Parser.parse {} g.erased client g.start text (Env.fresh ())).1
  rw [hpositions]
  unfold parse
  rw [hgrammar]
  rfl

end Packrat.Json
