import Packrat.Source.Compile

/-!
# `Packrat.Proofs.Printing` — rules in the concrete syntax

A rule list can be written down in many ways: names, punctuation and operators stand in a fixed order, and
between them there may be blanks and comments. The relations of this module say which texts a part of a rule
list is printed as. They look at the syntax before linking, and at no position.

Between an item and what comes next in its sequence there has to be a gap, and likewise between the last item
of a definition and the name of the next one; an item in front of `/`, `)` or the end of the text needs none.

## Contents
- **Runes.** Well-formed texts of runes of a kind, with and without escapes.
- **Tokens.** Gaps, identifiers, dotted names.
- **Host expressions.** `HostPrinted`.
- **Expressions.** `BodyPrinted`, `ItemPrinted`, `SequencePrinted`, `ExprPrinted`.
- **Rules.** `RulesPrinted` and `SourcePrinted`.
- **Positions.** `erase` forgets them.
-/

namespace Packrat.Source

variable {α : Type}

/-! ## Runes -/

/-- A rune is encoded by a text. -/
def Encodes (u : Bytes) (r : Rune) : Prop := Utf8.decode u = ⟨r, u.length, true⟩

/-- The well-formed texts whose runes all satisfy `p`. -/
inductive Runes (p : Rune → Prop) : Bytes → Prop
  | nil : Runes p []
  | cons {u t : Bytes} {r : Rune} (hu : Encodes u r) (hr : p r) (ht : Runes p t) : Runes p (u ++ t)

/-- The texts of runes that satisfy `p` and are no backslashes, and of backslashes before any rune. -/
inductive Escapable (p : Rune → Prop) : Bytes → Prop
  | nil : Escapable p []
  | plain {u t : Bytes} {r : Rune} (hu : Encodes u r) (hr : p r) (hbackslash : r ≠ '\\'.toNat)
      (ht : Escapable p t) : Escapable p (u ++ t)
  | escaped {u t : Bytes} {r : Rune} (hu : Encodes u r) (ht : Escapable p t) :
      Escapable p (Bytes.ascii "\\" ++ (u ++ t))

/-! ## Tokens -/

/-- The bytes that stand for blanks. -/
def blanks : Bytes := Bytes.ascii " \t\r\n"

/-- Blanks and comments. A comment runs to the end of its line. -/
inductive Gap : Bytes → Prop
  | nil : Gap []
  | blank {b : UInt8} {g : Bytes} (hb : b ∈ blanks) (hg : Gap g) : Gap (b :: g)
  | comment {t g : Bytes} (ht : Runes (· ≠ '\n'.toNat) t) (hg : Gap g) :
      Gap (Bytes.ascii "#" ++ (t ++ (Bytes.ascii "\n" ++ g)))

/-- The bytes from one ASCII character to another. -/
def bytesFrom (first last : Char) : Bytes :=
  (List.range (last.toNat + 1 - first.toNat)).map fun i => (first.toNat + i).toUInt8

/-- The bytes that identifiers start with. -/
def letters : Bytes := bytesFrom 'A' 'Z' ++ bytesFrom 'a' 'z' ++ Bytes.ascii "_"

/-- The decimal digits. -/
def decimalDigits : Bytes := bytesFrom '0' '9'

/-- The bytes that identifiers go on with. -/
def wordBytes : Bytes := letters ++ decimalDigits

/-- Whether a name is an identifier. -/
def isIdentifier : Bytes → Bool
  | [] => false
  | b :: rest => letters.contains b && rest.all (wordBytes.contains ·)

/-- The names made of identifiers with dots between them. -/
inductive Dotted : Bytes → Prop
  | single {name : Bytes} (h : isIdentifier name = true) : Dotted name
  | dot {name rest : Bytes} (h : isIdentifier name = true) (hrest : Dotted rest) :
      Dotted (name ++ (Bytes.ascii "." ++ rest))

/-! ## Host expressions -/

/-- The constants that host code can write down: booleans by their words, integers in decimal notation, texts
between double quotes. -/
def ConstantPrinted : Value → Bytes → Prop
  | .bool b, t => t = Value.boolWord b
  | .int n, t => Decimal.int64? t = some n
  | .text s, t => ∃ u, Escapable (· ≠ '"'.toNat) u ∧ unescape u = s ∧
      t = Bytes.ascii "\"" ++ (u ++ Bytes.ascii "\"")
  | _, _ => False

mutual

/-- A host expression is printed as a text, the gap behind it included. -/
def HostPrinted : HostNode α → Bytes → Prop
  | .ref name slot, t => slot = none ∧ isIdentifier name = true ∧ ∃ g, Gap g ∧ t = name ++ g
  | .const v, t => ∃ u g, ConstantPrinted v u ∧ Gap g ∧ t = u ++ g
  | .matched, t => ∃ g, Gap g ∧ t = Bytes.ascii "$" ++ g
  | .native _, _ => False
  | .call name args constructs action, t => constructs = false ∧ action = none ∧ Dotted name ∧
      ∃ g g' u g'', Gap g ∧ Gap g' ∧ ArgsPrinted args u ∧ Gap g'' ∧
        t = name ++ (g ++ (Bytes.ascii "(" ++ (g' ++ (u ++ (Bytes.ascii ")" ++ g'')))))
termination_by structural node => node

/-- The arguments of a call, with commas between them. -/
def ArgsPrinted : List (Host α) → Bytes → Prop
  | [], t => t = []
  | ⟨node, _⟩ :: rest, t => ∃ u v, HostPrinted node u ∧ MoreArgsPrinted rest v ∧ t = u ++ v
termination_by structural args => args

/-- Further arguments, each behind a comma. -/
def MoreArgsPrinted : List (Host α) → Bytes → Prop
  | [], t => t = []
  | ⟨node, _⟩ :: rest, t => ∃ g u v, Gap g ∧ HostPrinted node u ∧ MoreArgsPrinted rest v ∧
      t = Bytes.ascii "," ++ (g ++ (u ++ v))
termination_by structural args => args

end

/-- Host code in braces. -/
def CodePrinted (node : HostNode α) (t : Bytes) : Prop :=
  ∃ g u, Gap g ∧ HostPrinted node u ∧ t = Bytes.ascii "\x7b" ++ (g ++ (u ++ Bytes.ascii "\x7d"))

/-! ## Expressions -/

/-- The spellings made of code points in hexadecimal notation. -/
inductive HexEscapes : Bytes → Prop
  | nil : HexEscapes []
  | cons {digits t : Bytes} (hne : digits ≠ []) (hdigits : ∀ b ∈ digits, (hexDigit? b).isSome = true)
      (ht : HexEscapes t) :
      HexEscapes (Bytes.ascii "\\u\x7b" ++ (digits ++ (Bytes.ascii "\x7d" ++ t)))

/-- Whether the first segment is not a spelling. -/
def startsInCode : List (Segment α) → Bool
  | .spelling _ :: _ => false
  | _ => true

/-- The parts of a literal. Escapes that follow each other are one segment. -/
def SegmentsPrinted : List (Segment α) → Bytes → Prop
  | [], t => t = []
  | .spelling s :: rest, t => s ≠ [] ∧ HexEscapes s ∧ startsInCode rest = true ∧
      ∃ u, SegmentsPrinted rest u ∧ t = s ++ u
  | .code host :: rest, t => ∃ u v, CodePrinted host.node u ∧ SegmentsPrinted rest v ∧ t = u ++ v

/-- Whether a segment is code. -/
def isCodeSegment : Segment α → Bool
  | .code _ => true
  | .spelling _ => false

/-- The flag behind a literal or class. -/
def caseFlag (caseless : Bool) : Bytes := if caseless then Bytes.ascii "i" else []

/-- Parts between two quotes of the same kind. -/
def Quoted (caseless : Bool) (parts t : Bytes) : Prop :=
  ∃ quote, (quote = Bytes.ascii "'" ∨ quote = Bytes.ascii "\"") ∧
    t = quote ++ (parts ++ (quote ++ caseFlag caseless))

/-- The test before an item. -/
def LookaheadPrinted : Lookahead → Bytes → Prop
  | .none, t => t = []
  | .ahead, t => ∃ g, Gap g ∧ t = Bytes.ascii "&" ++ g
  | .notAhead, t => ∃ g, Gap g ∧ t = Bytes.ascii "!" ++ g

/-- The name that an item gives its value. -/
def BinderPrinted : Option Bytes → Bool → Bytes → Prop
  | none, false, t => t = []
  | none, true, t => ∃ g, Gap g ∧ t = Bytes.ascii "~" ++ g
  | some name, false, t => isIdentifier name = true ∧
      ∃ g g', Gap g ∧ Gap g' ∧ t = name ++ (g ++ (Bytes.ascii ":" ++ g'))
  | some _, true, _ => False

/-- The operator of a repetition. -/
def operator : Repetition → Bytes
  | .once => []
  | .optional => Bytes.ascii "?"
  | .star => Bytes.ascii "*"
  | .plus => Bytes.ascii "+"

/-- The repetition behind an item. -/
def RepetitionPrinted (repetition : Repetition) (t : Bytes) : Prop :=
  if repetition = .once then t = [] else ∃ g, Gap g ∧ t = g ++ operator repetition

/-- An item binds one of the names that stand for constants. -/
def BindsConstant (name : Option Bytes) (autobind : Bool) (body : Body α) : Prop :=
  ∃ n position, bindingName autobind name body position = .ok (some n) ∧ ∃ b, n = Value.boolWord b

/-- The action behind a sequence. `followed` tells whether the name of a definition comes next. -/
def ActionPrinted (followed : Bool) : Option (Host α) → Bytes → Prop
  | none, t => t = []
  | some host, t => ∃ u g, CodePrinted host.node u ∧ Gap g ∧ (g ≠ [] ∨ followed = false) ∧ t = u ++ g

/-- Whether an item at the end of a sequence is its action. -/
def isAction (item : Item (Body α)) : Bool :=
  item.name.isNone && !item.autobind && item.lookahead = .none && item.body.isCode && item.repetition = .once

section

variable (braces : BracePolicy)

mutual

/-- A body is printed as a text, without a gap behind it. -/
def BodyPrinted : Body α → Bytes → Prop
  | .code host, t => CodePrinted host.node t
  | .call name decorated target, t => target = none ∧ Dotted name ∧
      t = (if decorated then Bytes.ascii "@" else []) ++ name
  | .group alternatives, t => ∃ g u, Gap g ∧ ExprPrinted false alternatives u ∧
      t = Bytes.ascii "(" ++ (g ++ (u ++ Bytes.ascii ")"))
  | .literal spelling caseless braceSensitive, t => braceSensitive = true ∧ HexEscapes spelling ∧
      Quoted caseless spelling t
  | .interpolated segments caseless, t => braces = .interpolate ∧ segments.any isCodeSegment = true ∧
      ∃ u, SegmentsPrinted segments u ∧ Quoted caseless u t
  | .cls k, t => ∃ u, Escapable (· ≠ ']'.toNat) u ∧ CharClass.parse? u k.caseless = .ok k ∧
      t = Bytes.ascii "[" ++ (u ++ (Bytes.ascii "]" ++ caseFlag k.caseless))
  | .any, t => t = Bytes.ascii "."
termination_by structural body => body

/-- The alternatives of an expression, with slashes between them. -/
def ExprPrinted (followed : Bool) : List (Sequence α (Body α)) → Bytes → Prop
  | [], _ => False
  | seq :: rest, t => ∃ u v, SequencePrinted (followed && rest.isEmpty) seq u ∧
      AlternativesPrinted followed rest v ∧ t = u ++ v
termination_by structural alternatives => alternatives

/-- Further alternatives, each behind a slash. -/
def AlternativesPrinted (followed : Bool) : List (Sequence α (Body α)) → Bytes → Prop
  | [], t => t = []
  | seq :: rest, t => ∃ g u v, Gap g ∧ SequencePrinted (followed && rest.isEmpty) seq u ∧
      AlternativesPrinted followed rest v ∧ t = Bytes.ascii "/" ++ (g ++ (u ++ v))
termination_by structural alternatives => alternatives

/-- Items and an action. Without an action, a sequence does not end in code that would be read as one. -/
def SequencePrinted (followed : Bool) : Sequence α (Body α) → Bytes → Prop
  | ⟨items, action, layout, _⟩, t => layout = [] ∧ (action = none → items.getLast?.any isAction = false) ∧
      ∃ tail, ActionPrinted followed action tail ∧ ItemsPrinted followed tail items t
termination_by structural seq => seq

/-- Items before the text of an action. -/
def ItemsPrinted (followed : Bool) (tail : Bytes) : List (Item (Body α)) → Bytes → Prop
  | [], t => t = tail
  | item :: rest, t => ∃ u g v, ItemPrinted item u ∧ Gap g ∧ ItemsPrinted followed tail rest v ∧
      (g ≠ [] ∨ v = [] ∧ followed = false) ∧ t = u ++ (g ++ v)
termination_by structural items => items

/-- An item is printed as a text, without a gap behind it. -/
def ItemPrinted : Item (Body α) → Bytes → Prop
  | ⟨name, autobind, lookahead, body, repetition, slot, _⟩, t => slot = none ∧
      ¬BindsConstant name autobind body ∧ ∃ u v w z, LookaheadPrinted lookahead u ∧
        BinderPrinted name autobind v ∧ BodyPrinted body w ∧ RepetitionPrinted repetition z ∧
        t = u ++ (v ++ (w ++ z))
termination_by structural item => item

end

/-! ## Rules -/

/-- A definition. -/
def RulePrinted (followed : Bool) (rule : Rule α) (t : Bytes) : Prop :=
  isIdentifier rule.name = true ∧ rule.matcher = none ∧
    ∃ g g' u, Gap g ∧ Gap g' ∧ ExprPrinted braces followed rule.body u ∧
      t = rule.name ++ (g ++ (Bytes.ascii (if rule.decorated then "=" else "<-") ++ (g' ++ u)))

/-- Definitions one after the other. -/
def RulesPrinted : List (Rule α) → Bytes → Prop
  | [], t => t = []
  | rule :: rest, t => ∃ u v, RulePrinted braces (!rest.isEmpty) rule u ∧ RulesPrinted rest v ∧ t = u ++ v

/-- A rule list is printed as a grammar source, where braces in literals mean what the policy says. -/
def SourcePrinted (rules : List (Rule α)) (source : Bytes) : Prop :=
  ∃ g t, Gap g ∧ RulesPrinted braces rules t ∧ source = g ++ t

end

/-! ## Positions -/

mutual

/-- A host expression without its positions. -/
def eraseHost : HostNode α → HostNode α
  | .ref name slot => .ref name slot
  | .const v => .const v
  | .matched => .matched
  | .native a => .native a
  | .call name args constructs action => .call name (eraseArgs args) constructs action
termination_by structural node => node

/-- Arguments without their positions. -/
def eraseArgs : List (Host α) → List (Host α)
  | [] => []
  | ⟨node, _⟩ :: rest => ⟨eraseHost node, .unknown⟩ :: eraseArgs rest
termination_by structural args => args

end

/-- Host code without its positions. -/
def eraseCode (host : Host α) : Host α := ⟨eraseHost host.node, .unknown⟩

/-- A segment without its positions. -/
def eraseSegment : Segment α → Segment α
  | .spelling text => .spelling text
  | .code host => .code (eraseCode host)

mutual

/-- A body without its positions. -/
def eraseBody : Body α → Body α
  | .code host => .code (eraseCode host)
  | .call name decorated target => .call name decorated target
  | .group alternatives => .group (eraseExpr alternatives)
  | .literal spelling caseless braceSensitive => .literal spelling caseless braceSensitive
  | .interpolated segments caseless => .interpolated (segments.map eraseSegment) caseless
  | .cls k => .cls k
  | .any => .any
termination_by structural body => body

/-- Alternatives without their positions. -/
def eraseExpr : List (Sequence α (Body α)) → List (Sequence α (Body α))
  | [] => []
  | seq :: rest => eraseSequence seq :: eraseExpr rest
termination_by structural alternatives => alternatives

/-- A sequence without its positions. -/
def eraseSequence : Sequence α (Body α) → Sequence α (Body α)
  | ⟨items, action, layout, _⟩ => ⟨eraseItems items, action.map eraseCode, layout, .unknown⟩
termination_by structural seq => seq

/-- Items without their positions. -/
def eraseItems : List (Item (Body α)) → List (Item (Body α))
  | [] => []
  | item :: rest => eraseItem item :: eraseItems rest
termination_by structural items => items

/-- An item without its positions. -/
def eraseItem : Item (Body α) → Item (Body α)
  | ⟨name, autobind, lookahead, body, repetition, slot, _⟩ =>
    ⟨name, autobind, lookahead, eraseBody body, repetition, slot, .unknown⟩
termination_by structural item => item

end

theorem eraseArgs_eq_map (args : List (Host α)) : eraseArgs args = args.map eraseCode := by
  induction args with
  | nil => rfl
  | cons arg rest ih =>
    rw [List.map_cons, ← ih]
    rfl

theorem eraseExpr_eq_map (e : Expr α) : eraseExpr e = e.map eraseSequence := by
  induction e with
  | nil => rfl
  | cons seq rest ih =>
    rw [List.map_cons, ← ih]
    rfl

theorem eraseItems_eq_map (items : List (Item (Body α))) : eraseItems items = items.map eraseItem := by
  induction items with
  | nil => rfl
  | cons item rest ih =>
    rw [List.map_cons, ← ih]
    rfl

/-- A rule without its positions. -/
def eraseRule (rule : Rule α) : Rule α :=
  ⟨rule.name, eraseExpr rule.body, rule.decorated, rule.matcher, .unknown⟩

end Packrat.Source
