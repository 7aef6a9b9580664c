import Packrat.Calculator.Arithmetic
import Packrat.Grammar.Combinators
import Packrat.Stream
import Packrat.Transcript

/-!
# `Packrat.Calculator.Program` — a desk calculator

Statements are expressions, assignments to one-letter variables, and `exit` or `quit`; a line end or a
semicolon ends each. What a statement prints is printed while the input is being parsed.

## Contents
- **State.** `Desk`: the variables and what has been printed.
- **Actions.** `DeskAction` and what each does.
- **The grammar.** `grammar?`.
- **Running.** `run` reads the whole standard input and parses it; a parse that an arithmetic fault ends is
  followed by another read, which finds nothing more.
-/

namespace Packrat.Calculator

open Packrat.Expr

/-! ## State -/

/-- The state of the calculator: its variables by lower-case letter, and what it has written. -/
structure Desk where
  values : UInt8 → Int64 := fun _ => 0
  out : Bytes := []
  err : Bytes := []

/-- The lower-case letter of the variable with the given name. -/
def letterOf (name : Bytes) : UInt8 := (Rune.fold (name.headD 0).toNat).toUInt8

namespace Desk

/-- Gives a variable a value. -/
def assign (desk : Desk) (letter : UInt8) (n : Int64) : Desk :=
  { desk with values := fun l => if l = letter then n else desk.values l }

/-- Prints a number. -/
def print (desk : Desk) (n : Int64) : Desk :=
  { desk with out := desk.out ++ reportLine "" (Decimal.ofInt n.toInt) }

/-- Reports a message. -/
def complain (desk : Desk) (intro : String) (message : Bytes) : Desk :=
  { desk with err := desk.err ++ reportLine intro message }

end Desk

/-! ## Actions -/

/-- The actions of the calculator. -/
inductive DeskAction where
  /-- Applies the steps of `rest` to `l`, from left to right. -/
  | fold
  | quit
  | assign
  | print
  | fetch
  | reportError

/-- Applies one step, an operator and its right operand. -/
def applyStep (l : Int64) (step : Spanned Value) : Except Fault Int64 := do
  let op ← (← step.value.field (Bytes.ascii "op")).value.asText
  let r ← (← step.value.field (Bytes.ascii "r")).value.asInteger
  match apply (Operator.ofByte (op.headD 0)) l r with
  | .ok n => .ok n
  | .error fault => .error (.host fault)

/-- Applies steps to a left operand, from left to right. -/
def foldSteps (ctx : Context) : Except Fault Value := do
  let l ← (← ctx.named (Bytes.ascii "l")).asInteger
  let rest ← (← ctx.named (Bytes.ascii "rest")).asList
  return .int (← rest.foldlM applyStep l)

/-- The letter of the variable that a context names. -/
def namedLetter (ctx : Context) : Except Fault UInt8 := do
  return letterOf (← (← ctx.named (Bytes.ascii "id")).asText)

/-- The sum that a context holds. -/
def namedSum (ctx : Context) : Except Fault Int64 := do (← ctx.named (Bytes.ascii "s")).asInteger

/-- What the actions do. -/
def act : DeskAction → Context → ActionM Desk Value
  | .fold, ctx => ActionM.lift (foldSteps ctx)
  | .quit, _ => throw (.host .quit)
  | .assign, ctx => do
    let letter ← ActionM.lift (namedLetter ctx)
    let n ← ActionM.lift (namedSum ctx)
    ActionM.modifyUser fun desk => (desk.assign letter n).print n
    return .unit
  | .print, ctx => do
    let n ← ActionM.lift (namedSum ctx)
    ActionM.modifyUser (·.print n)
    return .unit
  | .fetch, ctx => do
    let letter ← ActionM.lift (namedLetter ctx)
    return .int ((← get).user.values letter)
  | .reportError, _ => do
    ActionM.modifyUser (·.complain "SYNTAX ERROR" [])
    return .unit

/-- The client of the calculator's grammar. -/
def client : Client DeskAction Desk := { act }

/-! ## The grammar -/

/-- Expressions with the calculator's actions. -/
abbrev DeskExpr := Expr DeskAction

/-- A rune of the given ranges. -/
def runeOf (spelling : String) (ranges : List (Char × Char)) : DeskExpr :=
  ofClass ⟨ranges.map fun (a, b) => ⟨a.toNat, b.toNat⟩, false, false, Bytes.ascii spelling⟩

/-- Calls the rule of the given name. -/
def ruleNamed (name : String) : DeskExpr := call (Bytes.ascii name)

/-- Binds an expression to the given name. -/
def bound (name : String) (e : DeskExpr) : DeskExpr := Expr.bind (Bytes.ascii name) e

/-- The value bound to the given name. -/
def refTo (name : String) : Host DeskAction := Host.ref (Bytes.ascii name)

/-- Blanks. -/
def blanks : DeskExpr := ruleNamed "_"

/-- The end of a statement. -/
def lineEnd : DeskExpr := ruleNamed "EOL"

/-- The runes that end a statement. -/
def endRune : DeskExpr := runeOf "[\n\r;]" [('\n', '\n'), ('\r', '\r'), (';', ';')]

/-- A statement. -/
def statement : DeskExpr :=
  choice
    [withAction (sequence [blanks, orElse (asciiAnyCase "exit") (asciiAnyCase "quit"), blanks, lineEnd])
        (Host.native .quit),
      withAction (sequence [blanks, bound "id" (ruleNamed "Name"), ascii "=", blanks,
        bound "s" (ruleNamed "Sum"), lineEnd]) (Host.native .assign),
      withAction (sequence [blanks, bound "s" (ruleNamed "Sum"), lineEnd]) (Host.native .print),
      sequence [blanks, endRune],
      withAction (sequence [plus (sequence [notAhead lineEnd, any]), lineEnd])
        (Host.native .reportError)]

/-- Operands of one kind joined by operators of one precedence. -/
def leftAssociative (operators : DeskExpr) (operand : String) : DeskExpr :=
  let step := withAction (sequence [bound "op" operators, blanks, bound "r" (ruleNamed operand)])
    (Host.construct (Bytes.ascii "Op") [refTo "op", refTo "r"])
  withAction (sequence [bound "l" (ruleNamed operand), bound "rest" (star step)])
    (Host.invoke (Bytes.ascii "fold") [refTo "l", refTo "rest"])

/-- A number, a variable or an expression in parentheses. -/
def operand : DeskExpr :=
  choice
    [withAction (sequence [bound "n" (plus (runeOf "[0-9]" [('0', '9')])), blanks])
        (Host.invoke (Bytes.ascii "integer") [refTo "n"]),
      withAction (sequence [bound "id" (ruleNamed "Name"), notAhead (ascii "=")])
        (Host.native .fetch),
      withAction (sequence [ascii "(", blanks, bound "s" (ruleNamed "Sum"), ascii ")", blanks])
        (refTo "s")]

/-- The rules of the calculator. -/
def rules : List (String × DeskExpr) :=
  [("Program", sequence [star (ruleNamed "Stmt"), endOfInput]),
    ("Stmt", statement),
    ("Sum", leftAssociative (runeOf "[+-]" [('+', '+'), ('-', '-')]) "Product"),
    ("Product", leftAssociative (runeOf "[*/]" [('*', '*'), ('/', '/')]) "Value"),
    ("Value", operand),
    ("Name", withAction (sequence [bound "id" (runeOf "[a-zA-Z]" [('a', 'z'), ('A', 'Z')]), blanks])
      (refTo "id")),
    ("EOL", orElse endRune endOfInput),
    ("_", star (runeOf "[ \t]" [(' ', ' '), ('\t', '\t')]))]

/-- The parts of the calculator's grammar. -/
def builder : Builder DeskAction :=
  let b : Builder DeskAction := ({} : Builder DeskAction).addAction (Bytes.ascii "fold") .fold
  (rules.foldl (fun (b : Builder DeskAction) (name, body) =>
    b.addRule (Bytes.ascii name) body false .unknown) b).setStart (Bytes.ascii "Program")

/-- The calculator's grammar. -/
def grammar? : Linked (Grammar DeskAction) := builder.build

/-! ## Running -/

/-- The transcript of a desk that ends with the given status. -/
def Desk.transcript (desk : Desk) (status : Nat) : Transcript := ⟨status, desk.out, desk.err⟩

/-- Reads and parses the stream as long as it has not failed; a read that finds nothing makes it fail, so
that two rounds are enough. -/
def serve (g : Grammar DeskAction) : Nat → Stream → Env Desk → Transcript
  | 0, _, env => env.store.user.transcript 0
  | rounds + 1, s, env =>
    if s.failed then env.store.user.transcript 0
    else
      let (answer, _, s, env) := s.parse g client false env
      match answer with
      | .ok (.tree _) => serve g rounds s env
      | .ok (.failure e) => serve g rounds s (complaining env "" e.message)
      | .error (.host .quit) => env.store.user.transcript 0
      | .error (.host fault) => serve g rounds s (complaining env "ERROR: " fault.message)
      | .error fault => (complaining env "ERROR: " fault.message).store.user.transcript 1
where
  /-- The environment after a complaint. -/
  complaining (env : Env Desk) (intro : String) (message : Bytes) : Env Desk :=
    { env with store := { env.store with user := env.store.user.complain intro message } }

/-- Runs the calculator on its standard input. -/
def run (stdin : Bytes) : Transcript :=
  match grammar? with
  | .ok g => serve g 3 (Stream.ofText stdin) (Env.fresh {})
  | .error e => ⟨1, [], reportLine "ERROR: " e.message⟩

end Packrat.Calculator
