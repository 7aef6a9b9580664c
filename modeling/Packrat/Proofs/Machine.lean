import Packrat.Proofs.Trace

/-!
# `Packrat.Proofs.Machine` — the evaluator as a machine with counters

The evaluator of `Packrat.Eval` is given the depth that is left, knows whether it is inside a lookahead, and
bounds every repetition in advance, so that it ends by construction. Here the same rules are run by a machine
that counts: it enters and leaves rule calls and lookaheads, marks its environment while it parses, and repeats
without a bound. Nothing says beforehand that it ends, nor that its counters are where they were when it does.

## Contents
- **Machines.** `Machine`, all that a run can change, `MachineM`, a run that may go on for ever, and `Procedure`, a
  part of the machine that is run with arguments.
- **Scopes.** `guarded`: what is entered is left again on every way out.
- **Evaluation.** `runBody`, `runItem` … follow `evalBody`, `evalItem` … case by case, without fuel and depth.
- **Parsing.** `runParse`, and `runQuery` for the positions of the text parsed last.
-/

namespace Packrat

variable {α β σ : Type}

/-! ## Machines -/

/-- A parser at work with its environment. `peak` is the largest number of rule calls that were in progress at a
time; nothing reads it. -/
structure Machine (σ : Type) where
  env : Env σ
  input : Bytes := []
  trail : Trail := {}
  callDepth : Nat := 0
  lookaheadDepth : Nat := 0
  peak : Nat := 0

/-- A run of a machine: it may raise a fault, and what it did before stays. It may also go on for ever, and then
there is no answer at all. -/
abbrev MachineM (σ : Type) := ExceptT Fault (StateT (Machine σ) Option)

/-- A part of the machine that can be run with arguments. -/
abbrev Procedure (ι σ β : Type) := ReaderT ι (MachineM σ) β

namespace Machine

/-- A new parser in an environment. -/
def fresh (env : Env σ) : Machine σ := { env }

/-- What the evaluation of expressions sees of a machine. -/
def scene (g : Grammar α) (client : Client α σ) (m : Machine σ) : Scene α σ :=
  ⟨g, client, m.env.settings, m.env.parsing, m.input, 0⟩

/-- Whether a lookahead is in progress. -/
def quiet (m : Machine σ) : Bool := 0 < m.lookaheadDepth

/-- The part of a machine that an evaluation without counters changes. -/
def progress (m : Machine σ) : Progress σ := ⟨m.env.store, m.trail⟩

/-- The machine after such an evaluation. -/
def withProgress (m : Machine σ) (p : Progress σ) : Machine σ :=
  { m with env := { m.env with store := p.store }, trail := p.trail }

/-! ## Scopes -/

/-- A rule call begins. -/
def enterCall (m : Machine σ) : Machine σ :=
  { m with callDepth := m.callDepth + 1, peak := max m.peak (m.callDepth + 1) }

/-- A rule call ends. -/
def leaveCall (m : Machine σ) : Machine σ := { m with callDepth := m.callDepth - 1 }

/-- A lookahead begins. -/
def enterLookahead (m : Machine σ) : Machine σ := { m with lookaheadDepth := m.lookaheadDepth + 1 }

/-- A lookahead ends. -/
def leaveLookahead (m : Machine σ) : Machine σ := { m with lookaheadDepth := m.lookaheadDepth - 1 }

/-- A parse of a text begins: the environment is marked, and everything is reset. -/
def enterParse (client : Client α σ) (input : Bytes) (m : Machine σ) : Machine σ :=
  { m with
    env := m.env.reset client input
    input := input
    trail := {}
    callDepth := 0
    lookaheadDepth := 0 }

/-- A parse ends: the mark is taken away. -/
def leaveParse (m : Machine σ) : Machine σ := { m with env := m.env.finish m.env.store }

end Machine

/-- Runs a part of the evaluation that needs no counters. -/
def locally (x : Machine σ → EvalM σ β) : MachineM σ β :=
  ExceptT.mk fun m =>
    let (answer, p) := (x m).run.run m.progress
    some (answer, m.withProgress p)

/-- Leaves a scope behind a run, whether that ends by an answer or by a fault. -/
def guarded (leave : Machine σ → Machine σ) (x : MachineM σ β) : MachineM σ β :=
  show StateT (Machine σ) Option (Except Fault β) from do
    let answer ← x.run
    modify leave
    return answer

section Runs

variable {γ : Type} {x : MachineM σ β} {k : β → MachineM σ γ} {m m' : Machine σ} {b : β} {e : Fault}

theorem Machine.run_bind_ok (h : x.run.run m = some (.ok b, m')) : (x >>= k).run.run m = (k b).run.run m' := by
  show (ExceptT.bind x k).run.run m = _
  simp only [ExceptT.bind, ExceptT.run, ExceptT.mk, StateT.run, bind, StateT.bind] at h ⊢
  rw [h]
  rfl

theorem Machine.run_bind_error (h : x.run.run m = some (.error e, m')) :
    (x >>= k).run.run m = some (.error e, m') := by
  show (ExceptT.bind x k).run.run m = _
  simp only [ExceptT.bind, ExceptT.run, ExceptT.mk, StateT.run, bind, StateT.bind] at h ⊢
  rw [h]
  rfl

theorem Machine.run_get_bind (k : Machine σ → MachineM σ γ) (m : Machine σ) :
    (get >>= k).run.run m = (k m).run.run m := rfl

theorem Machine.run_modify_bind (f : Machine σ → Machine σ) (k : Unit → MachineM σ γ) (m : Machine σ) :
    (modify f >>= k).run.run m = (k ()).run.run (f m) := rfl

theorem run_locally (x : Machine σ → EvalM σ β) (m : Machine σ) :
    (locally x).run.run m = some (((x m).run.run m.progress).1, m.withProgress ((x m).run.run m.progress).2) :=
  rfl

theorem run_guarded {leave : Machine σ → Machine σ} {answer : Except Fault β}
    (h : x.run.run m = some (answer, m')) : (guarded leave x).run.run m = some (answer, leave m') := by
  simp only [guarded, ExceptT.run, StateT.run, bind, StateT.bind] at h ⊢
  rw [h]
  rfl

end Runs

/-! ## Evaluation -/

section

variable (g : Grammar α) (client : Client α σ)

mutual

/-- Matches a body in a sequence at work. -/
def runBody : Procedure (Frame × Body α × Cursor) σ Result := fun (frame, body, c) =>
  match body with
  | .code host => do
    let v ← locally fun m => evalHost (m.scene g client) frame c.offset host.node
    return .success ⟨v, c.offset, c.offset⟩ c
  | .call _ decorated target =>
    match target with
    | none => throw .outOfRange
    | some i => do
      match ← invoke.run (i, c) with
      | .failure offset => return .failure offset
      | .success tree next =>
        match g.rules[i]? with
        | none => throw .outOfRange
        | some rule =>
          if decorated && !rule.decorated then return .success (tagged rule.name tree) next
          else return .success tree next
  | .group alternatives => runExpr.run (alternatives, none, c)
  | .literal spelling caseless braceSensitive =>
    locally fun m => terminal m.quiet c (labelOf (betweenQuotes spelling) caseless)
      (Terminal.literal? spelling braceSensitive caseless c.remaining)
  | .interpolated segments caseless => do
    let text ← locally fun m => evalSegments (m.scene g client) frame c.offset segments
    locally fun m => terminal m.quiet c (quoteText text) (Terminal.text? text caseless c.remaining)
  | .cls cls =>
    locally fun m => terminal m.quiet c (labelOf cls.spelling cls.caseless)
      ((Terminal.class? cls c.remaining).map (·.2))
  | .any =>
    locally fun m => terminal m.quiet c (Bytes.ascii "any character")
      ((Terminal.any? c.remaining).map (·.2))
partial_fixpoint

/-- Repeats a body until it fails or takes nothing. -/
def runLoop : Procedure (Frame × Body α × Nat × List (Spanned Value) × Cursor) σ Result :=
  fun (frame, body, start, collected, c) => do
    match ← runBody.run (frame, body, c) with
    | .failure _ => return .success ⟨.list collected.reverse, start, c.offset⟩ c
    | .success tree next =>
      if next.offset = c.offset then return .success ⟨.list collected.reverse, start, c.offset⟩ c
      else runLoop.run (frame, body, start, tree :: collected, next)
partial_fixpoint

/-- Runs a body as often as a repetition asks for. -/
def runSuffixed : Procedure (Frame × Body α × Repetition × Cursor) σ Result :=
  fun (frame, body, repetition, c) =>
    match repetition with
    | .once => runBody.run (frame, body, c)
    | .optional => do
      match ← runBody.run (frame, body, c) with
      | .failure _ => return .success ⟨.option none, c.offset, c.offset⟩ c
      | .success tree next => return .success ⟨.option (some tree), c.offset, next.offset⟩ next
    | .star => runLoop.run (frame, body, c.offset, [], c)
    | .plus => do
      match ← runBody.run (frame, body, c) with
      | .failure _ => return .failure c.offset
      | .success tree next => runLoop.run (frame, body, c.offset, [tree], next)
partial_fixpoint

/-- Matches one item in a sequence at work. -/
def runItem : Procedure (Frame × Item (Body α) × Cursor) σ Result := fun (frame, item, c) => do
  if item.lookahead = .none then
    let r ← runSuffixed.run (frame, item.body, item.repetition, c)
    return item.lookahead.judge false c r
  else
    modify Machine.enterLookahead
    let r ← show StateT (Machine σ) Option (Except Fault Result) from do
      let answer ← (runSuffixed.run (frame, item.body, item.repetition, c)).run
      modify Machine.leaveLookahead
      return answer
    return item.lookahead.judge (item.body.isCode && item.repetition = .once) c r
partial_fixpoint

/-- Matches the items of a sequence that started at `start`, one after the other. -/
def runItems :
    Procedure (List Bytes × Nat × List (Item (Body α)) × List (Spanned Value) × Spanned Value × Cursor) σ
      ItemsResult :=
  fun (layout, start, items, slots, last, c) =>
    match items with
    | [] => return .success slots last c
    | item :: rest => do
      match ← runItem.run (⟨slots, layout, start⟩, item, c) with
      | .failure _ => return .failure c.offset
      | .success tree next =>
        let slots := match item.slot with
          | none => slots
          | some i => slots.set i tree
        runItems.run (layout, start, rest, slots, tree, next)
partial_fixpoint

/-- Matches a sequence. -/
def runSequence : Procedure (Sequence α (Body α) × Cursor) σ Result := fun (seq, c) => do
  let slots := List.replicate seq.layout.length default
  match ← runItems.run (seq.layout, c.offset, seq.items, slots, default, c) with
  | .failure offset => return .failure offset
  | .success slots last next =>
    let v ← locally fun m => sequenceValue (m.scene g client) seq.items seq.action seq.layout c slots last next
    return .success v next
partial_fixpoint

/-- Tries alternatives in turn. -/
def runExpr : Procedure (List (Sequence α (Body α)) × Option Nat × Cursor) σ Result :=
  fun (alternatives, earliest, c) =>
    match alternatives with
    | [] => return .failure (earliest.getD c.offset)
    | seq :: rest => do
      match ← runSequence.run (seq, c) with
      | .success tree next => return .success tree next
      | .failure offset => runExpr.run (rest, some ((earliest.map (min · offset)).getD offset), c)
partial_fixpoint

/-- Matches what a rule stands for. -/
def runRule : Procedure (Rule α × Cursor) σ Result := fun (rule, c) =>
  match rule.matcher with
  | none => do
    match ← runExpr.run (rule.body, none, c) with
    | .failure offset => return .failure offset
    | .success tree next =>
      if rule.decorated then return .success (tagged rule.name tree) next
      else return .success tree next
  | some i =>
    match g.matchers[i]? with
    | none => throw .outOfRange
    | some matcher => do
      match ← locally (fun _ => ExceptT.mk (pure (matcher c))) with
      | .failure _ =>
        locally fun m => noteFailure m.quiet c.offset rule.name
        return .failure c.offset
      | .success v taken =>
        let next := c.advance taken
        return .success ⟨v, c.offset, next.offset⟩ next
partial_fixpoint

/-- Calls the rule at a place of the grammar's table. -/
def invoke : Procedure (Nat × Cursor) σ Result := fun (index, c) =>
  match g.rules[index]? with
  | none => throw .outOfRange
  | some rule => do
    match ← locally (fun m => kept? (m.scene g client) index c.offset) with
    | some r => return r
    | none =>
      locally fun m => onUser (client.onCall ⟨rule.name, c.offset, m.quiet⟩)
      let m ← get
      if m.env.settings.maxDepth ≤ m.callDepth then throw .callDepth
      else
        modify Machine.enterCall
        show StateT (Machine σ) Option (Except Fault Result) from do
          let answer ← (do
            let r ← runRule.run (rule, c)
            locally fun m => keep (m.scene g client) m.quiet index c.offset r
            return r : MachineM σ Result).run
          modify Machine.leaveCall
          return answer
partial_fixpoint

end

/-- Calls the rule at a place of the grammar's table. -/
def runCall (index : Nat) (c : Cursor) : MachineM σ Result := (invoke g client).run (index, c)

theorem runItem_eq (frame : Frame) (item : Item (Body α)) (c : Cursor) :
    (runItem g client).run (frame, item, c) =
      if item.lookahead = .none then
        (runSuffixed g client).run (frame, item.body, item.repetition, c) >>= fun r =>
          pure (item.lookahead.judge false c r)
      else
        modify Machine.enterLookahead >>= fun _ =>
          guarded Machine.leaveLookahead ((runSuffixed g client).run (frame, item.body, item.repetition, c)) >>=
            fun r => pure (item.lookahead.judge (item.body.isCode && item.repetition = .once) c r) := by
  rw [ReaderT.run, runItem]
  rfl

theorem runCall_eq (index : Nat) (c : Cursor) :
    runCall g client index c =
      match g.rules[index]? with
      | none => throw .outOfRange
      | some rule =>
        locally (fun m => kept? (m.scene g client) index c.offset) >>= fun found =>
          match found with
          | some r => pure r
          | none =>
            locally (fun m => onUser (client.onCall ⟨rule.name, c.offset, m.quiet⟩)) >>= fun _ =>
              get >>= fun m =>
                if m.env.settings.maxDepth ≤ m.callDepth then throw .callDepth
                else
                  modify Machine.enterCall >>= fun _ =>
                    guarded Machine.leaveCall
                      ((runRule g client).run (rule, c) >>= fun r =>
                        locally (fun m => keep (m.scene g client) m.quiet index c.offset r) >>= fun _ =>
                          pure r) := by
  rw [runCall, ReaderT.run, invoke]
  rfl

/-! ## Parsing -/

/-- What a parse makes of the answer of its start rule. -/
def runReport (r : Result) : MachineM σ Outcome :=
  match r with
  | .success tree _ => return .tree tree
  | .failure offset => do
    let m ← get
    let (error, env) := reportFailure m.env m.trail offset
    modify fun m => { m with env }
    return .failure error

/-- Parses a text from its start. -/
def runParse (index : Nat) (input : Bytes) : MachineM σ Outcome := do
  if g.isEmpty then throw (.ofIssue .empty)
  else
    let m ← get
    if m.env.parsing then throw .reentrant
    else
      modify (Machine.enterParse client input)
      guarded Machine.leaveParse (runCall g client index (Cursor.ofText input 0) >>= runReport)

end

end Packrat
