import Packrat.Proofs.Outcome
import Packrat.Proofs.Refusal
import Packrat.Source.Compile

/-!
# `Packrat.Proofs.Nonterminals` — the grammar of grammar sources, linked

The rules of `Packrat.Source.Meta` as linking leaves them: every call with the place of its rule, every name
with its slot.

## Contents
- **Nonterminals.** `Nonterminal` lists the rules in the order of the grammar.
- **Rules.** `Nonterminal.rule` is what linking makes of each.
-/

namespace Packrat.Source

/-! ## Nonterminals -/

/-- The linked grammar of grammar sources. -/
def metaGrammar : Grammar Empty :=
  match meta? with
  | .ok g => g
  | .error _ => {}

/-- The rules of the grammar of grammar sources. -/
inductive Nonterminal where
  | grammar | letting | definition
  | expression | sequence | item | lookahead | repetition | binder | autobind | label | primary | call
  | group
  | literal | singleQuoted | doubleQuoted | literalPart | interpolation | strayBrace | escape | plain
  | caseFlag | bracket | bracketBody | dot
  | code | host | hostCall | hostArgs | hostString | hostText | hostInteger | hostMatch | hostName
  | arrow | identifier | qualifiedName | identText | identRune | gap | endOfFile

namespace Nonterminal

/-- The names of the rules. -/
def names : List String :=
  (definitionRules ++ expressionRules ++ terminalRules ++ hostRules ++ tokenRules).map (·.name)

/-- The place of a rule in the grammar. -/
def place (n : Nonterminal) : Nat := n.ctorIdx

/-- The name of a rule. -/
def name (n : Nonterminal) : Bytes := Bytes.ascii (names.getD n.place "")

/-! ## Rules -/

/-- A call of a rule. -/
def body (n : Nonterminal) : Body Empty := .call n.name false (some n.place)

end Nonterminal

/-- The body that matches the given punctuation or word. -/
def wordBody (s : String) : Body Empty := .literal (escapeLiteral (Bytes.ascii s)) false true

/-- The body that matches a rune of some ranges. -/
def classBody (spelling : String) (ranges : List (Char × Char)) (negated : Bool) : Body Empty :=
  .cls ⟨ranges.map fun (a, b) => ⟨a.toNat, b.toNat⟩, negated, false, Bytes.ascii spelling⟩

/-- An item that binds no name. -/
def step (body : Body Empty) (repetition : Repetition := .once) : Item (Body Empty) :=
  ⟨none, false, .none, body, repetition, none, .unknown⟩

/-- An item that tests for what does not stand there. -/
def barring (body : Body Empty) : Item (Body Empty) := ⟨none, false, .notAhead, body, .once, none, .unknown⟩

/-- An item that binds a name to a slot. -/
def bound (name : String) (slot : Nat) (body : Body Empty) (repetition : Repetition := .once) :
    Item (Body Empty) :=
  ⟨some (Bytes.ascii name), false, .none, body, repetition, some slot, .unknown⟩

/-- A sequence that binds the given names. -/
def sequenceOf (items : List (Item (Body Empty))) (layout : List String := []) :
    Sequence Empty (Body Empty) :=
  ⟨items, none, layout.map Bytes.ascii, .unknown⟩

/-- A sequence that yields the value of its one name. -/
def yielding (items : List (Item (Body Empty))) (name : String) : Sequence Empty (Body Empty) :=
  ⟨items, some ⟨.ref (Bytes.ascii name) (some 0), .unknown⟩, [Bytes.ascii name], .unknown⟩

/-- The body that matches a blank, or a comment up to the end of its line. -/
def gapUnit : Body Empty :=
  .group [sequenceOf [step (classBody "[ \t\r\n]"
      [(' ', ' '), ('\t', '\t'), ('\r', '\r'), ('\n', '\n')] false)],
    sequenceOf [step (wordBody "#"), step (classBody "[^\n]" [('\n', '\n')] true) .star]]

namespace Nonterminal

/-- The alternatives of each rule. -/
def alternatives : Nonterminal → SourceExpr
  | grammar => [sequenceOf [step gap.body, bound "lets" 0 letting.body .star,
      bound "defs" 1 definition.body .plus, step endOfFile.body] ["lets", "defs"]]
  | letting => [sequenceOf [step (wordBody "let"), barring identRune.body, step gap.body,
      bound "name" 0 identifier.body, step (wordBody "="), step gap.body,
      bound "target" 1 qualifiedName.body] ["name", "target"]]
  | definition => [sequenceOf [bound "name" 0 identifier.body, bound "arrow" 1 arrow.body,
      bound "body" 2 expression.body] ["name", "arrow", "body"]]
  | expression => [sequenceOf [bound "first" 0 sequence.body,
      bound "rest" 1 (.group [yielding [step (wordBody "/"), step gap.body, bound "seq" 0 sequence.body]
        "seq"]) .star] ["first", "rest"]]
  | sequence => [sequenceOf [bound "items" 0 item.body .star] ["items"]]
  | item => [sequenceOf [bound "prefix" 0 lookahead.body .optional, bound "binder" 1 binder.body .optional,
      bound "primary" 2 primary.body, bound "suffix" 3 repetition.body .optional]
      ["prefix", "binder", "primary", "suffix"]]
  | lookahead => [yielding [bound "op" 0 (classBody "[&!]" [('&', '&'), ('!', '!')] false),
      step gap.body] "op"]
  | repetition => [yielding [bound "op" 0 (classBody "[?*+]" [('?', '?'), ('*', '*'), ('+', '+')] false),
      step gap.body] "op"]
  | binder => [sequenceOf [step autobind.body], sequenceOf [step label.body]]
  | autobind => [sequenceOf [step (wordBody "~"), step gap.body]]
  | label => [sequenceOf [bound "name" 0 identText.body, step gap.body, step (wordBody ":"), step gap.body]
      ["name"]]
  | primary => [sequenceOf [step call.body], sequenceOf [step group.body], sequenceOf [step literal.body],
      sequenceOf [step bracket.body], sequenceOf [step dot.body], sequenceOf [step code.body]]
  | call => [sequenceOf [bound "at" 0 (wordBody "@") .optional, bound "name" 1 qualifiedName.body,
      barring arrow.body] ["at", "name"]]
  | group => [sequenceOf [step (wordBody "("), step gap.body, bound "body" 0 expression.body,
      step (wordBody ")"), step gap.body] ["body"]]
  | literal => [quoted "'" singleQuoted, quoted "\"" doubleQuoted]
  | singleQuoted => [unquoted "'"]
  | doubleQuoted => [unquoted "\""]
  | literalPart => [sequenceOf [step interpolation.body], sequenceOf [step strayBrace.body],
      sequenceOf [step escape.body], sequenceOf [step plain.body]]
  | interpolation => [sequenceOf [step (wordBody "\x7b"), step gap.body, bound "code" 0 host.body,
      step (wordBody "\x7d")] ["code"]]
  | strayBrace => [sequenceOf [step (wordBody "\x7d")]]
  | escape => [sequenceOf [step (wordBody "\\u\x7b"),
      step (classBody "[0-9A-Fa-f]" [('0', '9'), ('A', 'F'), ('a', 'f')] false) .plus,
      step (wordBody "\x7d")], sequenceOf [step (wordBody "\\"), step .any]]
  | plain => [sequenceOf [step (classBody "[^\x7b\x7d\\\\]" [('\x7b', '\x7b'), ('\x7d', '\x7d'), ('\\', '\\')]
      true)]]
  | caseFlag => [sequenceOf [step (.group [sequenceOf [step (wordBody "i"), barring identRune.body]])
      .optional]]
  | bracket => [sequenceOf [step (wordBody "["), bound "body" 0 bracketBody.body, step (wordBody "]"),
      bound "caseless" 1 caseFlag.body, step gap.body] ["body", "caseless"]]
  | bracketBody => [sequenceOf [step (.group [sequenceOf [barring (wordBody "]"),
      step (.group [sequenceOf [step (wordBody "\\"), step .any], sequenceOf [step .any]])]]) .star]]
  | dot => [sequenceOf [step (wordBody "."), step gap.body]]
  | code => [sequenceOf [step (wordBody "\x7b"), step gap.body, bound "code" 0 host.body,
      step (wordBody "\x7d"), step gap.body] ["code"]]
  | host => [sequenceOf [step hostCall.body], sequenceOf [step hostString.body],
      sequenceOf [step hostInteger.body], sequenceOf [step hostMatch.body], sequenceOf [step hostName.body]]
  | hostCall => [sequenceOf [bound "name" 0 qualifiedName.body, step (wordBody "("), step gap.body,
      bound "args" 1 hostArgs.body .optional, step (wordBody ")"), step gap.body] ["name", "args"]]
  | hostArgs => [sequenceOf [bound "first" 0 host.body,
      bound "rest" 1 (.group [yielding [step (wordBody ","), step gap.body, bound "arg" 0 host.body] "arg"])
        .star] ["first", "rest"]]
  | hostString => [sequenceOf [step (wordBody "\""), bound "text" 0 hostText.body, step (wordBody "\""),
      step gap.body] ["text"]]
  | hostText => [sequenceOf [step (.group [sequenceOf [step (classBody "[^\"\\\\]" [('"', '"'), ('\\', '\\')]
      true)], sequenceOf [step (wordBody "\\"), step .any]]) .star]]
  | hostInteger => [sequenceOf [bound "digits" 0 (.group [sequenceOf [step (wordBody "-") .optional,
      step (classBody "[0-9]" [('0', '9')] false) .plus]]), step gap.body] ["digits"]]
  | hostMatch => [sequenceOf [step (wordBody "$"), step gap.body]]
  | hostName => [sequenceOf [bound "name" 0 identifier.body] ["name"]]
  | arrow => [yielding [bound "op" 0 (.group [sequenceOf [step (wordBody "<-")],
      sequenceOf [step (wordBody "=")]]), step gap.body] "op"]
  | identifier => [yielding [bound "name" 0 identText.body, step gap.body] "name"]
  | qualifiedName => [yielding [bound "name" 0 (.group [sequenceOf [step identText.body,
      step (.group [sequenceOf [step (wordBody "."), step identText.body]]) .star]]), step gap.body] "name"]
  | identText => [sequenceOf [step (classBody "[A-Za-z_]" [('A', 'Z'), ('a', 'z'), ('_', '_')] false),
      step identRune.body .star]]
  | identRune => [sequenceOf [step (classBody "[A-Za-z0-9_]" [('A', 'Z'), ('a', 'z'), ('0', '9'), ('_', '_')]
      false)]]
  | gap => [sequenceOf [step gapUnit .star]]
  | endOfFile => [sequenceOf [barring .any]]
where
  /-- A literal between two quotes of a kind. -/
  quoted (quote : String) (part : Nonterminal) : Sequence Empty (Body Empty) :=
    sequenceOf [step (wordBody quote), bound "parts" 0 part.body .star, step (wordBody quote),
      bound "caseless" 1 caseFlag.body, step gap.body] ["parts", "caseless"]
  /-- A part of a literal between two quotes of a kind. -/
  unquoted (quote : String) : Sequence Empty (Body Empty) :=
    yielding [barring (wordBody quote), bound "part" 0 literalPart.body] "part"

/-- Whether a rule tags its value. -/
def decorated : Nonterminal → Bool
  | grammar | letting | definition | expression | sequence | item | autobind | label | call | group => true
  | literal | interpolation | strayBrace | bracket | dot => true
  | code | hostCall | hostString | hostInteger | hostMatch | hostName => true
  | _ => false

/-- A rule as linking leaves it. -/
def rule (n : Nonterminal) : Rule Empty := ⟨n.name, n.alternatives, n.decorated, none, .unknown⟩

/-- All rules in the order of the grammar. -/
def all : List Nonterminal :=
  [grammar, letting, definition, expression, sequence, item, lookahead, repetition, binder, autobind, label,
    primary, call, group, literal, singleQuoted, doubleQuoted, literalPart, interpolation, strayBrace, escape,
    plain, caseFlag, bracket, bracketBody, dot, code, host, hostCall, hostArgs, hostString, hostText,
    hostInteger, hostMatch, hostName, arrow, identifier, qualifiedName, identText, identRune, gap, endOfFile]

/-- Linking answers these rules. -/
theorem metaGrammar_eq : metaGrammar = ⟨all.map rule, Builtin.table, [], grammar.place⟩ := by rfl

theorem metaGrammar_not_empty : ¬metaGrammar.isEmpty = true := by
  rw [metaGrammar_eq]
  exact Bool.false_ne_true

theorem meta_eq : meta? = .ok metaGrammar := by
  have h : ∀ g : Grammar Empty, g = metaGrammar → meta? = .ok g := by
    intro g hg
    have hsome : ¬g.isEmpty = true := by
      rw [hg]
      exact metaGrammar_not_empty
    delta metaGrammar at hg
    revert hg
    generalize meta? = x
    intro hg
    rw [hg] at hsome ⊢
    cases x with
    | ok g' => rfl
    | error e => exact absurd rfl hsome
  exact h _ rfl

attribute [irreducible] metaGrammar

theorem rules_metaGrammar : metaGrammar.rules = all.map rule := by rw [metaGrammar_eq]

theorem start_metaGrammar : metaGrammar.start = grammar.place := by rw [metaGrammar_eq]

theorem rule_at (n : Nonterminal) : metaGrammar.rules[n.place]? = some n.rule := by
  rw [rules_metaGrammar]
  cases n <;> rfl

end Nonterminal

/-! ## Readers -/

/-- What the parse of a grammar source depends on. -/
def basis (source : Bytes) : Basis Empty := parseBasis metaGrammar Client.none source (Env.fresh ())

theorem reach_basis (source : Bytes) : (basis source).reach = (basis source).input.length := rfl

variable {source : Bytes} {n : Nonterminal} {items : List (Item (Body Empty))} {t u rest text : Bytes}
  {Q : Value → Prop}

theorem takes_plain (hdecorated : n.decorated = false) (h : ExprTakes (basis source) n.alternatives t rest Q) :
    BodyTakes (basis source) n.body t rest Q :=
  BodyTakes.call (RuleTakes.plain n.rule_at rfl hdecorated h)

theorem takes_tagged (hdecorated : n.decorated = true)
    (h : ExprTakes (basis source) n.alternatives t rest
      (fun v => ∀ start stop, Q (tagged n.name ⟨v, start, stop⟩).value)) :
    BodyTakes (basis source) n.body t rest Q :=
  BodyTakes.call (RuleTakes.decorated n.rule_at rfl hdecorated h)

theorem fails_body (h : ExprFails (basis source) n.alternatives text) : BodyFails (basis source) n.body text :=
  BodyFails.call (RuleFails.body n.rule_at rfl h)

/-- A rule that makes nodes with named fields. -/
theorem ruleTakes_record {layout : List String} (hdecorated : n.decorated = true)
    (halternatives : n.alternatives = [sequenceOf items layout]) (hlayout : layout.isEmpty = false)
    (h : ItemsTake (basis source) items (List.replicate layout.length default) t rest
      (fun slots => Q (.node n.name ((layout.map Bytes.ascii).zip slots)))) :
    RuleTakes (basis source) n.place t rest Q := by
  refine RuleTakes.decorated n.rule_at rfl hdecorated ?_
  show ExprTakes (basis source) n.alternatives t rest _
  rw [halternatives]
  refine ExprTakes.first (SequenceTakes.record ?_ ?_)
  · rw [List.isEmpty_map]
    exact hlayout
  · rw [List.length_map]
    exact h.weaken fun slots hslots start stop => hslots

theorem takes_record {layout : List String} (hdecorated : n.decorated = true)
    (halternatives : n.alternatives = [sequenceOf items layout]) (hlayout : layout.isEmpty = false)
    (h : ItemsTake (basis source) items (List.replicate layout.length default) t rest
      (fun slots => Q (.node n.name ((layout.map Bytes.ascii).zip slots)))) :
    BodyTakes (basis source) n.body t rest Q :=
  BodyTakes.call (ruleTakes_record hdecorated halternatives hlayout h)

/-- A rule that yields the value of its one name. -/
theorem takes_yielding {name : String} (hdecorated : n.decorated = false)
    (halternatives : n.alternatives = [yielding items name])
    (h : ItemsTake (basis source) items [default] t rest (fun slots => ∃ x, slots[0]? = some x ∧ Q x.value)) :
    BodyTakes (basis source) n.body t rest Q := by
  refine takes_plain hdecorated ?_
  rw [halternatives]
  exact ExprTakes.first (SequenceTakes.bound h)

/-! ## First bytes -/

/-- A text is empty or starts with one of some bytes. -/
def StartsIn (set : Bytes) (text : Bytes) : Prop := ∀ b, text.head? = some b → b ∈ set

namespace StartsIn

variable {set set' : Bytes}

theorem nil : StartsIn set [] := by
  intro b hb
  cases hb

theorem cons {b : UInt8} (hb : b ∈ set) : StartsIn set (b :: text) := by
  intro b' hb'
  cases hb'
  exact hb

theorem append (ht : StartsIn set t) (hu : StartsIn set u) : StartsIn set (t ++ u) := by
  cases t with
  | nil => exact hu
  | cons b t => exact cons (ht b rfl)

theorem append_of_ne_nil (ht : StartsIn set t) (hne : t ≠ []) : StartsIn set (t ++ u) := by
  cases t with
  | nil => exact absurd rfl hne
  | cons b t => exact cons (ht b rfl)

theorem mono (h : StartsIn set text) (hsub : ∀ b ∈ set, b ∈ set') : StartsIn set' text :=
  fun b hb => hsub b (h b hb)

/-- Inclusion of given bytes can be checked. -/
theorem widen (h : StartsIn set text) (hsub : set.all (set'.contains ·) = true) :
    StartsIn set' text :=
  h.mono fun b hb => List.contains_iff_mem.mp (List.all_eq_true.mp hsub b hb)

end StartsIn

/-- Whether a body fails at the end of a text and before every one of some bytes. -/
def refused (set : Bytes) (body : Body Empty) : Bool :=
  set.all (· < 0x80) && (none :: set.map fun b => some b.toNat).all fun front =>
    refusesBody (refusesRule (Nonterminal.all.map Nonterminal.rule) front 10) front body

/-- A body fails before the bytes that it refuses. -/
theorem fails_of_refused {set : Bytes} {body : Body Empty} (htext : StartsIn set text)
    (hbody : refused set body = true) : BodyFails (basis source) body text := by
  unfold refused at hbody
  rw [Bool.and_eq_true, List.all_eq_true, List.all_eq_true] at hbody
  obtain ⟨hascii, hfronts⟩ := hbody
  have hfails : ∀ front, Front front text → refusesBody
      (refusesRule (Nonterminal.all.map Nonterminal.rule) front 10) front body = true →
      BodyFails (basis source) body text := by
    intro front hfront hrefuses
    refine refusesBody_sound (reach_basis source) hfront (fun i hi => ?_) body hrefuses
    rw [← Nonterminal.rules_metaGrammar] at hi
    exact refusesRule_sound (reach_basis source) hfront 10 hi
  cases htext' : text with
  | nil =>
    subst htext'
    exact hfails none .empty (hfronts none List.mem_cons_self)
  | cons b rest =>
    subst htext'
    have hb : b ∈ set := htext b rfl
    have hsmall : b < 0x80 := of_decide_eq_true (hascii b hb)
    refine hfails (some b.toNat) (.ascii hsmall rest) (hfronts _ ?_)
    exact List.mem_cons_of_mem _ (List.mem_map_of_mem hb)

example : refused (Bytes.ascii "/)") Nonterminal.item.body = true := by decide +kernel

end Packrat.Source
