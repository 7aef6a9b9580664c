import Packrat.Grammar.Combinators
import Packrat.Parse

/-!
# `Packrat.Source.Meta` — the grammar of grammar sources

## Contents
- **Vocabulary.** Short names for the combinators, and `classOf` for the few fixed bracket classes.
- **Rules.** The grammar of definitions, of expressions, of literals and classes, of host expressions and of
  tokens.
- **Linking.** `meta?` links them; `parseSource` parses a grammar source into a tree.
-/

namespace Packrat.Source

open Packrat.Expr

/-- Expressions without native actions. -/
abbrev SourceExpr := Expr Empty

/-! ## Vocabulary -/

/-- Calls the rule of the given name. -/
def rule (name : String) : SourceExpr := call (Bytes.ascii name)

/-- Matches the given punctuation or word. -/
def word (s : String) : SourceExpr := Expr.ascii s

/-- Binds an expression to the given name. -/
def named (name : String) (e : SourceExpr) : SourceExpr := Expr.bind (Bytes.ascii name) e

/-- Yields the value bound to the given name. -/
def yields (e : SourceExpr) (name : String) : SourceExpr := withAction e (Host.ref (Bytes.ascii name))

/-- Matches a rune of some ranges, written as the given text. -/
def classOf (spelling : String) (ranges : List (Char × Char)) (negated : Bool) : SourceExpr :=
  ofClass ⟨ranges.map fun (a, b) => ⟨a.toNat, b.toNat⟩, negated, false, Bytes.ascii spelling⟩

/-- Blanks and comments. -/
def gap : SourceExpr := rule "S"

/-- The runes that names go on with. -/
def identifierRune : SourceExpr := rule "IdentChar"

/-- A rule of the grammar: its name, its expression, and whether it tags its value. -/
structure Definition where
  name : String
  body : SourceExpr
  decorated : Bool

/-! ## Rules -/

/-- Lets, definitions and rule names. -/
def definitionRules : List Definition :=
  [⟨"Grammar", sequence [gap, named "lets" (star (rule "Let")), named "defs" (plus (rule "Definition")),
      rule "EndOfFile"], true⟩,
    ⟨"Let", sequence [word "let", notAhead identifierRune, gap, named "name" (rule "Identifier"), word "=",
      gap, named "target" (rule "QualifiedName")], true⟩,
    ⟨"Definition", sequence [named "name" (rule "Identifier"), named "arrow" (rule "Arrow"),
      named "body" (rule "Expression")], true⟩]

/-- Expressions, sequences and items. -/
def expressionRules : List Definition :=
  [⟨"Expression", sequence [named "first" (rule "Sequence"),
      named "rest" (star (yields (sequence [word "/", gap, named "seq" (rule "Sequence")]) "seq"))], true⟩,
    ⟨"Sequence", named "items" (star (rule "Item")), true⟩,
    ⟨"Item", sequence [named "prefix" (optional (rule "Prefix")),
      named "binder" (optional (rule "Binder")), named "primary" (rule "Primary"),
      named "suffix" (optional (rule "Suffix"))], true⟩,
    ⟨"Prefix", yields (sequence [named "op" (classOf "[&!]" [('&', '&'), ('!', '!')] false), gap]) "op",
      false⟩,
    ⟨"Suffix", yields (sequence [named "op" (classOf "[?*+]" [('?', '?'), ('*', '*'), ('+', '+')] false),
      gap]) "op", false⟩,
    ⟨"Binder", choice [rule "AutoBind", rule "Label"], false⟩,
    ⟨"AutoBind", sequence [word "~", gap], true⟩,
    ⟨"Label", sequence [named "name" (rule "IdentText"), gap, word ":", gap], true⟩,
    ⟨"Primary", choice [rule "Call", rule "Parenthesized", rule "Literal", rule "Class", rule "Dot",
      rule "Embedded"], false⟩,
    ⟨"Call", sequence [named "at" (optional (word "@")), named "name" (rule "QualifiedName"),
      notAhead (rule "Arrow")], true⟩,
    ⟨"Parenthesized", sequence [word "(", gap, named "body" (rule "Expression"), word ")", gap], true⟩]

/-- A literal between two quotes of the given kind, whose parts the given rule matches. -/
def quotedLiteral (quote part : String) : SourceExpr :=
  sequence [word quote, named "parts" (star (rule part)), word quote, named "caseless" (rule "CaseFlag"),
    gap]

/-- A part of a literal, where its closing quote does not stand. -/
def literalPart (quote : String) : SourceExpr :=
  yields (sequence [notAhead (word quote), named "part" (rule "LiteralPart")]) "part"

/-- Literals, classes and the dot. -/
def terminalRules : List Definition :=
  [⟨"Literal", choice [quotedLiteral "'" "SingleQuoted", quotedLiteral "\"" "DoubleQuoted"], true⟩,
    ⟨"SingleQuoted", literalPart "'", false⟩,
    ⟨"DoubleQuoted", literalPart "\"", false⟩,
    ⟨"LiteralPart", choice [rule "Interpolation", rule "StrayBrace", rule "Escape", rule "Plain"], false⟩,
    ⟨"Interpolation", sequence [word "\x7b", gap, named "code" (rule "HostExpr"), word "\x7d"], true⟩,
    ⟨"StrayBrace", word "\x7d", true⟩,
    ⟨"Escape", choice
      [sequence [word "\\u\x7b",
        plus (classOf "[0-9A-Fa-f]" [('0', '9'), ('A', 'F'), ('a', 'f')] false), word "\x7d"],
        sequence [word "\\", any]], false⟩,
    ⟨"Plain", classOf "[^\x7b\x7d\\\\]" [('\x7b', '\x7b'), ('\x7d', '\x7d'), ('\\', '\\')] true, false⟩,
    ⟨"CaseFlag", optional (sequence [word "i", notAhead identifierRune]), false⟩,
    ⟨"Class", sequence [word "[", named "body" (rule "ClassBody"), word "]",
      named "caseless" (rule "CaseFlag"), gap], true⟩,
    ⟨"ClassBody", star (sequence [notAhead (word "]"), choice [sequence [word "\\", any], any]]), false⟩,
    ⟨"Dot", sequence [word ".", gap], true⟩]

/-- Embedded code. -/
def hostRules : List Definition :=
  [⟨"Embedded", sequence [word "\x7b", gap, named "code" (rule "HostExpr"), word "\x7d", gap], true⟩,
    ⟨"HostExpr", choice [rule "HostCall", rule "HostString", rule "HostInteger", rule "HostMatch",
      rule "HostName"], false⟩,
    ⟨"HostCall", sequence [named "name" (rule "QualifiedName"), word "(", gap,
      named "args" (optional (rule "HostArgs")), word ")", gap], true⟩,
    ⟨"HostArgs", sequence [named "first" (rule "HostExpr"),
      named "rest" (star (yields (sequence [word ",", gap, named "arg" (rule "HostExpr")]) "arg"))], false⟩,
    ⟨"HostString", sequence [word "\"", named "text" (rule "HostText"), word "\"", gap], true⟩,
    ⟨"HostText", star (choice [classOf "[^\"\\\\]" [('"', '"'), ('\\', '\\')] true,
      sequence [word "\\", any]]), false⟩,
    ⟨"HostInteger", sequence [named "digits" (sequence [optional (word "-"),
      plus (classOf "[0-9]" [('0', '9')] false)]), gap], true⟩,
    ⟨"HostMatch", sequence [word "$", gap], true⟩,
    ⟨"HostName", named "name" (rule "Identifier"), true⟩]

/-- Arrows, names, blanks and the end of the source. -/
def tokenRules : List Definition :=
  [⟨"Arrow", yields (sequence [named "op" (choice [word "<-", word "="]), gap]) "op", false⟩,
    ⟨"Identifier", yields (sequence [named "name" (rule "IdentText"), gap]) "name", false⟩,
    ⟨"QualifiedName", yields (sequence
      [named "name" (sequence [rule "IdentText", star (sequence [word ".", rule "IdentText"])]), gap])
      "name", false⟩,
    ⟨"IdentText", sequence [classOf "[A-Za-z_]" [('A', 'Z'), ('a', 'z'), ('_', '_')] false,
      star identifierRune], false⟩,
    ⟨"IdentChar", classOf "[A-Za-z0-9_]" [('A', 'Z'), ('a', 'z'), ('0', '9'), ('_', '_')] false, false⟩,
    ⟨"S", star (choice [classOf "[ \t\r\n]" [(' ', ' '), ('\t', '\t'), ('\r', '\r'), ('\n', '\n')] false,
      sequence [word "#", star (classOf "[^\n]" [('\n', '\n')] true)]]), false⟩,
    ⟨"EndOfFile", notAhead any, false⟩]

/-! ## Linking -/

/-- The parts of the grammar of grammar sources. -/
def metaBuilder : Builder Empty :=
  let rules := definitionRules ++ expressionRules ++ terminalRules ++ hostRules ++ tokenRules
  (rules.foldl (fun (b : Builder Empty) d => b.addRule (Bytes.ascii d.name) d.body d.decorated .unknown)
    {}).setStart (Bytes.ascii "Grammar")

/-- The grammar of grammar sources. -/
def meta? : Linked (Grammar Empty) := metaBuilder.build

/-- The tree of a grammar source, with the environment that answers for its positions. -/
def parseSource (source : Bytes) : Except Fault (Spanned Value) × Env Unit :=
  match meta? with
  | .error e => (.error (.grammar e), Env.fresh ())
  | .ok g =>
    match parseFresh g Client.none () source with
    | (.error fault, env) => (.error fault, env)
    | (.ok (.tree tree), env) => (.ok tree, env)
    | (.ok (.failure e), env) => (.error (.grammar ⟨.malformedSource e.expected, e.position⟩), env)

end Packrat.Source
