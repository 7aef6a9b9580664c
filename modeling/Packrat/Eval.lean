import Packrat.Action
import Packrat.Grammar.Link
import Std.Data.HashMap

/-!
# `Packrat.Eval` — matching expressions against an input

The evaluator tries an expression at a cursor. A lookahead leaves no trace: inside one no failure is noted
and no result is kept. Rule calls are bounded by a depth, repetitions by the reach of the input.

## Contents
- **Results and progress.** `Result` is what an attempt answers, `Trail` what attempts leave behind.
- **Host expressions.** `evalHost` computes the value of an action, embedded code or interpolation.
- **Items.** `repeated` and `lookaround` run a step as often, and with such a test, as an item asks for.
- **Expressions.** `evalBody` and its companions, on the structure of an expression.
- **Rules.** `callRule` looks a result up or evaluates the rule, on the depth that is left.
-/

namespace Packrat

variable {α σ : Type}

/-! ## Results and progress -/

/-- What an attempt answers: a value and the place behind it, or the offset at which it fails. -/
inductive Result where
  | success (tree : Spanned Value) (next : Cursor)
  | failure (offset : Nat)

/-- The results of rules, by the place of the rule and the offset of the call. -/
abbrev Memo := Std.HashMap (Nat × Nat) Result

/-- What attempts leave behind: kept results, and the labels expected at the furthest offset at which
something outside every lookahead failed. -/
structure Trail where
  memo : Memo := ∅
  expected : List Bytes := []
  furthest : Nat := 0

/-- Notes that something labelled `label` failed at `offset`. -/
def Trail.note (t : Trail) (offset : Nat) (label : Bytes) : Trail :=
  if t.furthest < offset then { t with furthest := offset, expected := [label] }
  else if offset = t.furthest then { t with expected := label :: t.expected }
  else t

/-- The state of an evaluation. -/
structure Progress (σ : Type) where
  store : Store σ
  trail : Trail

/-- What stays fixed during an evaluation. `input` is the text that the matched parts of actions are taken
from, and `reach` the length of the longest input that a kept result may lie on. -/
structure Scene (α σ : Type) where
  grammar : Grammar α
  client : Client α σ
  settings : Settings
  parsing : Bool
  input : Bytes
  reach : Nat

/-- A step of an evaluation: it may raise a fault, and the progress made before stays. -/
abbrev EvalM (σ : Type) := ExceptT Fault (StateM (Progress σ))

/-- A way to match at a cursor. -/
abbrev Step (σ : Type) := Cursor → EvalM σ Result

/-- Runs an action on the store. -/
def onStore {β : Type} (m : ActionM σ β) : EvalM σ β :=
  ExceptT.mk fun p =>
    let (answer, store) := m.run.run p.store
    (answer, { p with store })

/-- Runs a hook on the state of the host program. -/
def onUser {β : Type} (m : HookM σ β) : EvalM σ β :=
  ExceptT.mk fun p =>
    let (answer, user) := m.run.run p.store.user
    (answer, { p with store := { p.store with user } })

/-- Changes the trail. -/
def modifyTrail (f : Trail → Trail) : EvalM σ Unit := modify fun p => { p with trail := f p.trail }

/-- Notes a failure, unless inside a lookahead. -/
def noteFailure (quiet : Bool) (offset : Nat) (label : Bytes) : EvalM σ Unit :=
  if quiet then pure () else modifyTrail (·.note offset label)

/-! ## Host expressions -/

/-- A sequence at work: the values of its slots, the names of the slots, and the offset at which it
started. -/
structure Frame where
  slots : List (Spanned Value)
  layout : List Bytes
  start : Nat

/-- The value in a slot. -/
def Frame.read (frame : Frame) (slot : Option Nat) : EvalM σ (Spanned Value) :=
  match slot.bind (frame.slots[·]?) with
  | some x => pure x
  | none => throw .outOfRange

/-- The fields of a node constructed from named arguments. -/
def nodeOf (tag : Bytes) (args : List Field) : Value := .node tag args

mutual

/-- The value of a host expression in a sequence that has matched up to `stop`. -/
def evalHost (scene : Scene α σ) (frame : Frame) (stop : Nat) : HostNode α → EvalM σ Value
  | .ref _ slot => do return (← frame.read slot).value
  | .const v => pure v
  | .matched =>
    if frame.start ≤ scene.input.length then
      pure (.text ((scene.input.drop frame.start).take (stop - frame.start)))
    else throw .outOfRange
  | .native a =>
    onStore (scene.client.act a
      ⟨frame.slots, frame.layout, scene.input, frame.start, stop, scene.settings, scene.parsing⟩)
  | .call name args constructs action => do
    let args ← evalArgs scene frame stop args
    if constructs then pure (nodeOf name args)
    else
      match action.bind (scene.grammar.actions[·]?) with
      | some (_, named) =>
        onStore (scene.client.run named
          ⟨args.map (·.2), args.map (·.1), scene.input, frame.start, stop, scene.settings,
            scene.parsing⟩)
      | none => throw .outOfRange
termination_by structural node => node

/-- The arguments of a call, from left to right. A bound name passes its value with name and span; any other
argument has no name, and spans what the sequence has matched. -/
def evalArgs (scene : Scene α σ) (frame : Frame) (stop : Nat) : List (Host α) → EvalM σ (List Field)
  | [] => pure []
  | ⟨.ref name slot, _⟩ :: rest => do
    let x ← frame.read slot
    let rest ← evalArgs scene frame stop rest
    return (name, x) :: rest
  | ⟨node, _⟩ :: rest => do
    let v ← evalHost scene frame stop node
    let rest ← evalArgs scene frame stop rest
    return ([], ⟨v, frame.start, stop⟩) :: rest
termination_by structural args => args

end

/-- The text of an interpolated literal. -/
def evalSegments (scene : Scene α σ) (frame : Frame) (stop : Nat) : List (Segment α) → EvalM σ Bytes
  | [] => pure []
  | .spelling text :: rest => do return unescape text ++ (← evalSegments scene frame stop rest)
  | .code host :: rest => do
    let v ← evalHost scene frame stop host.node
    return v.toText ++ (← evalSegments scene frame stop rest)

/-! ## Items -/

/-- The answer of a terminal that takes `taken` bytes, if it matches. A terminal that does not match is
noted under its label. -/
def terminal (quiet : Bool) (c : Cursor) (label : Bytes) : Option Nat → EvalM σ Result
  | some taken =>
    let next := c.advance taken
    pure (.success ⟨.text (c.remaining.take taken), c.offset, next.offset⟩ next)
  | none => do
    noteFailure quiet c.offset label
    return .failure c.offset

/-- The label of a literal or class: its spelling, and an `i` if it ignores case. -/
def labelOf (spelling : Bytes) (caseless : Bool) : Bytes :=
  if caseless then spelling ++ Bytes.ascii "i" else spelling

/-- A spelling between double quotes, as it stands. -/
def betweenQuotes (spelling : Bytes) : Bytes := Bytes.ascii "\"" ++ spelling ++ Bytes.ascii "\""

/-- Repeats a step at most `fuel` times from a cursor on, and puts its values behind those of `collected`,
which are in reverse order. A failure or a match that takes nothing ends the repetition. -/
def collect (step : Step σ) : Nat → List (Spanned Value) → Cursor → EvalM σ (List (Spanned Value) × Cursor)
  | 0, collected, c => pure (collected.reverse, c)
  | fuel + 1, collected, c => do
    match ← step c with
    | .failure _ => pure (collected.reverse, c)
    | .success tree next =>
      if next.offset = c.offset then pure (collected.reverse, c)
      else collect step fuel (tree :: collected) next

/-- Runs a step as often as a repetition asks for. Every further match of a repetition lies beyond the one
before and within `reach`, which bounds their number. -/
def repeated (reach : Nat) (repetition : Repetition) (step : Step σ) : Step σ := fun c =>
  match repetition with
  | .once => step c
  | .optional => do
    match ← step c with
    | .failure _ => return .success ⟨.option none, c.offset, c.offset⟩ c
    | .success tree next => return .success ⟨.option (some tree), c.offset, next.offset⟩ next
  | .star => do
    let (elements, next) ← collect step (reach + 1) [] c
    return .success ⟨.list elements, c.offset, next.offset⟩ next
  | .plus => do
    match ← step c with
    | .failure _ => return .failure c.offset
    | .success tree next =>
      let (elements, next) ← collect step (reach + 1) [tree] next
      return .success ⟨.list elements, c.offset, next.offset⟩ next

/-- Runs a step with a lookahead: its failures are failures at the cursor, and a test takes nothing. A
positive test keeps the value that it matched. If `asCondition`, the test also asks whether that value is
true. -/
def lookaround (lookahead : Lookahead) (asCondition : Bool) (step : Step σ) : Step σ := fun c => do
  let r ← step c
  match lookahead, r with
  | .none, .failure _ => return .failure c.offset
  | .none, r => return r
  | .ahead, .success tree _ =>
    if asCondition && !tree.value.truthy then return .failure c.offset
    else return .success tree c
  | .ahead, .failure _ => return .failure c.offset
  | .notAhead, .success tree _ =>
    if asCondition && !tree.value.truthy then return .success ⟨.unit, c.offset, c.offset⟩ c
    else return .failure c.offset
  | .notAhead, .failure _ => return .success ⟨.unit, c.offset, c.offset⟩ c

/-! ## Expressions -/

/-- Wraps a value in a node with the given tag: the fields of a node without a tag become its own, and any
other value becomes its field `value`. -/
def tagged (tag : Bytes) (x : Spanned Value) : Spanned Value :=
  match x.value with
  | .node [] fields => ⟨.node tag fields, x.start, x.stop⟩
  | _ => ⟨.node tag [(Bytes.ascii "value", x)], x.start, x.stop⟩

/-- What the items of a sequence answer: the values of the slots, the value of the last item and the place
behind it, or the offset at which an item fails. -/
inductive ItemsResult where
  | success (slots : List (Spanned Value)) (last : Spanned Value) (next : Cursor)
  | failure (offset : Nat)

/-- Whether a sequence passes on the value of its only item. -/
def passesOn : List (Item (Body α)) → Bool
  | [item] => item.lookahead = .none && item.repetition = .once && item.body.passesOn
  | _ => false

/-- The value of a sequence that has matched from `c` to `next`: that of its action; else a node of its
bindings; else the value of its only item, if that is a rule call or a group; else the matched text. -/
def sequenceValue (scene : Scene α σ) (items : List (Item (Body α))) (action : Option (Host α))
    (layout : List Bytes) (c : Cursor) (slots : List (Spanned Value)) (last : Spanned Value)
    (next : Cursor) : EvalM σ (Spanned Value) := do
  match action with
  | some host =>
    let v ← evalHost scene ⟨slots, layout, c.offset⟩ next.offset host.node
    return ⟨v, c.offset, next.offset⟩
  | none =>
    if !layout.isEmpty then return ⟨.node [] (layout.zip slots), c.offset, next.offset⟩
    else if passesOn items then return last
    else return ⟨.text (next.textFrom c.offset), c.offset, next.offset⟩

section

variable (scene : Scene α σ) (call : Bool → Nat → Step σ)

/-- Calls a rule and, if asked for, tags the value of a rule that does not tag it itself. -/
def evalCall (quiet : Bool) (decorated : Bool) (target : Option Nat) : Step σ := fun c => do
  match target with
  | none => throw .outOfRange
  | some i =>
    match ← call quiet i c with
    | .failure offset => return .failure offset
    | .success tree next =>
      match scene.grammar.rules[i]? with
      | none => throw .outOfRange
      | some rule =>
        if decorated && !rule.decorated then return .success (tagged rule.name tree) next
        else return .success tree next

mutual

/-- Matches a body in a sequence at work. -/
def evalBody (quiet : Bool) (frame : Frame) : Body α → Step σ
  | .code host => fun c => do
    let v ← evalHost scene frame c.offset host.node
    return .success ⟨v, c.offset, c.offset⟩ c
  | .call _ decorated target => evalCall scene call quiet decorated target
  | .group alternatives => fun c => evalExpr quiet alternatives none c
  | .literal spelling caseless braceSensitive => fun c =>
    terminal quiet c (labelOf (betweenQuotes spelling) caseless)
      (Terminal.literal? spelling braceSensitive caseless c.remaining)
  | .interpolated segments caseless => fun c => do
    let text ← evalSegments scene frame c.offset segments
    terminal quiet c (quoteText text) (Terminal.text? text caseless c.remaining)
  | .cls cls => fun c =>
    terminal quiet c (labelOf cls.spelling cls.caseless)
      ((Terminal.class? cls c.remaining).map (·.2))
  | .any => fun c =>
    terminal quiet c (Bytes.ascii "any character") ((Terminal.any? c.remaining).map (·.2))
termination_by structural body => body

/-- Tries alternatives in turn. If none succeeds, the choice fails at the earliest offset at which one of
them failed; `earliest` is that of the alternatives tried before. -/
def evalExpr (quiet : Bool) : List (Sequence α (Body α)) → Option Nat → Step σ
  | [], earliest => fun c => return .failure (earliest.getD c.offset)
  | seq :: rest, earliest => fun c => do
    match ← evalSequence quiet seq c with
    | .success tree next => return .success tree next
    | .failure offset => evalExpr quiet rest (some ((earliest.map (min · offset)).getD offset)) c
termination_by structural alternatives => alternatives

/-- Matches a sequence. -/
def evalSequence (quiet : Bool) : Sequence α (Body α) → Step σ
  | ⟨items, action, layout, _⟩ => fun c => do
    let slots := List.replicate layout.length default
    match ← evalItems quiet layout c.offset items slots default c with
    | .failure offset => return .failure offset
    | .success slots last next =>
      return .success (← sequenceValue scene items action layout c slots last next) next
termination_by structural seq => seq

/-- Matches the items of a sequence that started at `start`, one after the other. -/
def evalItems (quiet : Bool) (layout : List Bytes) (start : Nat) :
    List (Item (Body α)) → List (Spanned Value) → Spanned Value → Cursor → EvalM σ ItemsResult
  | [], slots, last, c => return .success slots last c
  | item :: rest, slots, _, c => do
    match ← evalItem quiet ⟨slots, layout, start⟩ item c with
    | .failure _ => return .failure c.offset
    | .success tree next =>
      let slots := match item.slot with
        | none => slots
        | some i => slots.set i tree
      evalItems quiet layout start rest slots tree next
termination_by structural items => items

/-- Matches one item in a sequence at work. -/
def evalItem (quiet : Bool) (frame : Frame) : Item (Body α) → Step σ
  | ⟨_, _, lookahead, body, repetition, _, _⟩ =>
    lookaround lookahead (body.isCode && repetition = .once)
      (repeated scene.reach repetition
        (evalBody (quiet || lookahead ≠ .none) frame body))
termination_by structural item => item

end

/-- Matches what a rule stands for. -/
def evalRule (quiet : Bool) (rule : Rule α) : Step σ := fun c => do
  match rule.matcher with
  | none =>
    match ← evalExpr scene call quiet rule.body none c with
    | .failure offset => return .failure offset
    | .success tree next =>
      if rule.decorated then return .success (tagged rule.name tree) next
      else return .success tree next
  | some i =>
    match scene.grammar.matchers[i]? with
    | none => throw .outOfRange
    | some matcher =>
      match ← (ExceptT.mk (pure (matcher c)) : EvalM σ (Match Value)) with
      | .failure _ =>
        noteFailure quiet c.offset rule.name
        return .failure c.offset
      | .success v taken =>
        let next := c.advance taken
        return .success ⟨v, c.offset, next.offset⟩ next

end

/-! ## Rules -/

/-- The result that is kept for a rule at an offset. -/
def kept? (scene : Scene α σ) (index offset : Nat) : EvalM σ (Option Result) := do
  if scene.settings.memoize then return (← get).trail.memo[(index, offset)]?
  else return none

/-- Keeps the result of a rule at an offset, unless one is kept already or a lookahead is in progress. -/
def keep (scene : Scene α σ) (quiet : Bool) (index offset : Nat) (r : Result) : EvalM σ Unit :=
  if scene.settings.memoize && !quiet then
    modifyTrail fun t => { t with memo := t.memo.insertIfNew (index, offset) r }
  else pure ()

/-- Calls the rule at a place of the grammar's table, with as many further calls inside each other as
`depth` allows. -/
def callRule (scene : Scene α σ) : Nat → Bool → Nat → Step σ
  | depth, quiet, index, c =>
    match scene.grammar.rules[index]? with
    | none => throw .outOfRange
    | some rule => do
      match ← kept? scene index c.offset with
      | some r => return r
      | none =>
        onUser (scene.client.onCall ⟨rule.name, c.offset, quiet⟩)
        match depth with
        | 0 => throw .callDepth
        | depth + 1 =>
          let r ← evalRule scene (callRule scene depth) quiet rule c
          keep scene quiet index c.offset r
          return r
termination_by structural depth => depth

end Packrat
