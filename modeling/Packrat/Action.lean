import Packrat.Grammar.Builder
import Packrat.Position.Locator
import Packrat.Value.Text

/-!
# `Packrat.Action` — what actions see and may do

## Contents
- **Environments.** `Env`: the settings of a parse, the text being parsed, and the state of the host program.
- **Contexts.** `Context`: the arguments of an action and the part of the input that it is about.
- **Clients.** `Client`: the meaning of the host program's actions, and its hooks.
- **Builtins.** `Builtin.run`, the actions that every grammar knows.
-/

namespace Packrat

/-! ## Environments -/

/-- The settings of a parse. -/
structure Settings where
  /-- Whether results of rules are kept and used again. -/
  memoize : Bool := true
  /-- How many rule calls may be in progress at a time. -/
  maxDepth : Nat := 1024
  tabs : Tabs := {}

/-- The part of an environment that actions may change: `locator` answers position queries on the text being
parsed, and `user` is the state of the host program. -/
structure Store (σ : Type) where
  locator : Locator := {}
  user : σ

/-- What outlives a parse. -/
structure Env (σ : Type) where
  settings : Settings := {}
  /-- Whether a parse is running. -/
  parsing : Bool := false
  store : Store σ

/-- An environment with the default settings. -/
def Env.fresh {σ : Type} (user : σ) : Env σ := ⟨{}, false, ⟨{}, user⟩⟩

/-- The text that was parsed last. -/
def Env.subject {σ : Type} (env : Env σ) : Bytes := env.store.locator.text

/-- The position of an offset of the text that was parsed last. -/
def Env.positionAt {σ : Type} (env : Env σ) (offset : Nat) : Position × Env σ :=
  let (position, locator) := env.store.locator.locate env.settings.tabs offset
  (position, { env with store := { env.store with locator } })

/-! ## Contexts -/

/-- What an action is about: its arguments with their names, the part of the input from `start` to `stop`,
and the settings under which the rule that runs it is called. -/
structure Context where
  args : List (Spanned Value)
  names : List Bytes
  input : Bytes
  start : Nat
  stop : Nat
  settings : Settings
  /-- Whether the rule is called in the course of a parse. -/
  parsing : Bool

namespace Context

/-- The part of the input that the action is about. -/
def matched (ctx : Context) : Bytes := (ctx.input.drop ctx.start).take (ctx.stop - ctx.start)

/-- The argument at a place. -/
def arg (ctx : Context) (i : Nat) : Except Fault (Spanned Value) :=
  match ctx.args[i]? with
  | some x => .ok x
  | none => .error .outOfRange

/-- The value of the argument at a place. -/
def value (ctx : Context) (i : Nat) : Except Fault Value := do return (← ctx.arg i).value

/-- The first argument of the given name. -/
def find? (ctx : Context) (name : Bytes) : Option (Spanned Value) :=
  Value.findField name (ctx.names.zip ctx.args)

/-- The value of the first argument of the given name. -/
def named (ctx : Context) (name : Bytes) : Except Fault Value :=
  match ctx.find? name with
  | some x => .ok x.value
  | none => .error (.badAccess (.argument name))

end Context

/-! ## Clients -/

/-- An action at work: it may raise a fault, and what it did to the store before stays. -/
abbrev ActionM (σ : Type) := ExceptT Fault (StateM (Store σ))

namespace ActionM

variable {σ β : Type}

/-- The answer of a computation that does not touch the store. -/
def lift (x : Except Fault β) : ActionM σ β := ExceptT.mk (pure x)

/-- Changes the state of the host program. -/
def modifyUser (f : σ → σ) : ActionM σ Unit :=
  modify fun store => { store with user := f store.user }

/-- The position of an offset of the text being parsed. -/
def positionAt (ctx : Context) (offset : Nat) : ActionM σ Position := do
  let (position, locator) := (← get).locator.locate ctx.settings.tabs offset
  modify fun store => { store with locator }
  return position

end ActionM

/-- A rule call that is about to be evaluated. -/
structure Call where
  rule : Bytes
  offset : Nat
  /-- Whether the call is part of a lookahead. -/
  quiet : Bool
deriving DecidableEq

/-- A hook of the host program: it may raise a fault, and what it did to the program's state before stays. -/
abbrev HookM (σ : Type) := ExceptT Fault (StateM σ)

/-- What the host program adds to a grammar with actions in `α`: what the actions do, how a new parse resets
the program's state, and what happens before each rule call. -/
structure Client (α σ : Type) where
  act : α → Context → ActionM σ Value
  onReset : σ → σ := id
  onCall : Call → HookM σ Unit := fun _ => pure ()

/-- The client of a grammar without actions of its own. -/
def Client.none : Client Empty Unit := { act := fun a _ => nomatch a }

/-! ## Builtins -/

namespace Builtin

/-- The elements that an argument adds to a concatenation: those of a list, the content of an option, nothing
for unit, and else the argument itself. -/
def pieces (x : Spanned Value) : List (Spanned Value) :=
  match x.value with
  | .list elements => elements
  | .option content => content.toList
  | .unit => []
  | _ => [x]

/-- The size of a value: the elements of a list or option, the fields of a node, else the runes of its
text. -/
def size : Value → Nat
  | .list elements => elements.length
  | .option content => content.toList.length
  | .node _ fields => fields.length
  | v => Utf8.count v.toText

/-- What the action yields in a context. -/
def run : Builtin → Context → Except Fault Value
  | .text, ctx =>
    if ctx.args.isEmpty then .ok (.text ctx.matched)
    else .ok (.text (ctx.args.flatMap (·.value.toText)))
  | .integer, ctx =>
    match ctx.args with
    | [] => (Value.integerOf ctx.matched).map .int
    | x :: _ => if x.value.isInteger then .ok x.value else (Value.integerOf x.value.toText).map .int
  | .list, ctx => .ok (.list ctx.args)
  | .concat, ctx => .ok (.list (ctx.args.flatMap pieces))
  | .length, ctx =>
    match ctx.args with
    | [] => .ok (Value.ofNat (Utf8.count ctx.matched))
    | x :: _ => .ok (Value.ofNat (size x.value))

end Builtin

/-- Runs an action that a grammar can call by name. -/
def Client.run {α σ : Type} (client : Client α σ) : NamedAction α → Context → ActionM σ Value
  | .builtin b, ctx => ActionM.lift (b.run ctx)
  | .custom a, ctx => client.act a ctx

end Packrat
