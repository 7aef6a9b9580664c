import Packrat.Eval

/-!
# `Packrat.Parse` — parsing a text with a grammar

## Contents
- **Outcomes.** A tree, or a syntax error.
- **Parsers.** `Parser` is what a parser keeps between its uses. `Parser.parse` starts anew on a text;
  `Parser.callRule` goes on with what is kept. `parseWithin` is a parse started by an action.
- **One-off parses.** `parse`, `parseNamed` and `parseFresh` use a new parser.
-/

namespace Packrat

variable {α σ : Type}

/-! ## Outcomes -/

/-- What a parse answers. -/
inductive Outcome where
  | tree (t : Spanned Value)
  | failure (error : SyntaxError)

/-- Whether a parse has matched. -/
def Outcome.isTree : Outcome → Bool
  | .tree _ => true
  | .failure _ => false

/-! ## Parsers -/

/-- What a parser keeps between its uses: the text of its last parse, the length of the longest input it has
read since, and its trail. -/
structure Parser where
  input : Bytes := []
  reach : Nat := 0
  trail : Trail := {}

/-- An answer or a fault, with the environment and the parser as they are left. -/
abbrev Run (σ β : Type) := Except Fault β × Env σ × Parser

/-- The parser with a new trail. -/
def Parser.withTrail (p : Parser) (trail : Trail) : Parser := { p with trail }

/-- Evaluates a rule outside every lookahead. -/
def Parser.evaluate (p : Parser) (g : Grammar α) (client : Client α σ) (index : Nat) (c : Cursor)
    (env : Env σ) : Except Fault Result × Progress σ :=
  let scene : Scene α σ := ⟨g, client, env.settings, env.parsing, p.input, p.reach⟩
  (callRule scene env.settings.maxDepth false index c).run.run ⟨env.store, p.trail⟩

/-- Calls a rule at a cursor with the trail of earlier uses. -/
def Parser.callRule (p : Parser) (g : Grammar α) (client : Client α σ) (index : Nat) (c : Cursor)
    (env : Env σ) : Run σ Result :=
  let p := { p with reach := max p.reach c.input.length }
  let (answer, progress) := p.evaluate g client index c env
  (answer, { env with store := progress.store }, p.withTrail progress.trail)

/-- The environment at the start of a parse of a text. -/
def Env.reset (env : Env σ) (client : Client α σ) (text : Bytes) : Env σ :=
  ⟨env.settings, true, ⟨Locator.ofText text, client.onReset env.store.user⟩⟩

/-- The environment at the end of a parse. -/
def Env.finish (env : Env σ) (store : Store σ) : Env σ := ⟨env.settings, false, store⟩

/-- What a failed parse reports: the furthest offset at which anything failed and, if a terminal or matcher
failed there, what was expected. -/
def reportFailure (env : Env σ) (trail : Trail) (offset : Nat) : SyntaxError × Env σ :=
  let furthest := max trail.furthest offset
  let (position, env) := env.positionAt furthest
  let expected := if furthest = trail.furthest then Bytes.sortedUnique trail.expected else []
  (⟨furthest, position, expected⟩, env)

/-- Parses a text from its start, with the rule at a place of the grammar's table. An environment in which a
parse is running is refused and left as it is. -/
def Parser.parse (p : Parser) (g : Grammar α) (client : Client α σ) (index : Nat) (input : Bytes)
    (env : Env σ) : Run σ Outcome :=
  if g.isEmpty then (.error (.ofIssue .empty), env, p)
  else if env.parsing then (.error .reentrant, env, p)
  else
    let env := env.reset client input
    let p : Parser := ⟨input, input.length, {}⟩
    let (answer, progress) := p.evaluate g client index (Cursor.ofText input 0) env
    let env := env.finish progress.store
    let p := p.withTrail progress.trail
    match answer with
    | .error fault => (.error fault, env, p)
    | .ok (.success tree _) => (.ok (.tree tree), env, p)
    | .ok (.failure offset) =>
      let (error, env) := reportFailure env progress.trail offset
      (.ok (.failure error), env, p)

/-- Parses a text with a new parser in the environment of an action. It is refused if that environment is
parsing, and else leaves the environment as any parse does. -/
def parseWithin (g : Grammar α) (client : Client α σ) (index : Nat) (input : Bytes) (ctx : Context) :
    ActionM σ Outcome :=
  ExceptT.mk fun store =>
    let (answer, env, _) := Parser.parse {} g client index input ⟨ctx.settings, ctx.parsing, store⟩
    (answer, env.store)

/-! ## One-off parses -/

/-- Parses a text with a new parser. -/
def parse (g : Grammar α) (client : Client α σ) (index : Nat) (input : Bytes) (env : Env σ) :
    Except Fault Outcome × Env σ :=
  let (answer, env, _) := Parser.parse {} g client index input env
  (answer, env)

/-- Parses a text with a new parser, from the rule of the given name. -/
def parseNamed (g : Grammar α) (client : Client α σ) (name : Bytes) (input : Bytes) (env : Env σ) :
    Except Fault Outcome × Env σ :=
  match g.find name with
  | some index => parse g client index input env
  | none => (.error (.ofIssue (.undefinedRule name)), env)

/-- Parses a text with a new parser and a new environment, from the start rule. -/
def parseFresh (g : Grammar α) (client : Client α σ) (user : σ) (input : Bytes) :
    Except Fault Outcome × Env σ :=
  parse g client g.start input (Env.fresh user)

end Packrat
