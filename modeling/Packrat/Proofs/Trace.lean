import Packrat.Parse

/-!
# `Packrat.Proofs.Trace` — evaluation without state

The evaluator of `Packrat.Eval` keeps results and remembers only the furthest failure. Here the same rules
are evaluated again without anything to remember: no result is kept, no store is threaded through, and
every failure outside the lookaheads is listed. What `Packrat.Eval` does is measured against this
evaluation (see `Packrat.Proofs.Simulation`).

## Contents
- **Traced answers.** `Traced` is an answer with the failures on the way to it. `Stop` tells a fault apart
  from running out of depth, which the evaluator reports by a fault that an action may raise as well.
- **Pure actions.** `Basis` is all that an evaluation with pure actions depends on.
- **Evaluation.** `traceHost`, `traceBody` … follow `evalHost`, `evalBody` … case by case. `traceCall`
  evaluates a rule within a depth, and `Settles` is its evaluation with as much depth as it takes.
-/

namespace Packrat

variable {α β γ σ : Type}

/-! ## Traced answers -/

/-- Why an evaluation ends without an answer. -/
inductive Stop where
  /-- An action, a matcher or a reference that leads nowhere raised a fault. -/
  | fault (f : Fault)
  /-- The depth does not suffice. -/
  | depth

/-- Something that fails outside every lookahead. -/
inductive Failure where
  /-- A terminal or a matcher, with its label. -/
  | attempt (offset : Nat) (label : Bytes)
  /-- An item of a sequence, at the offset where it stands. -/
  | item (offset : Nat)
deriving DecidableEq

/-- How an evaluation ends, and what fails on the way, from first to last. -/
structure Traced (β : Type) where
  failures : List Failure
  answer : Except Stop β

namespace Traced

/-- Goes on with the answer, if there is one. -/
def bind (x : Traced β) (k : β → Traced γ) : Traced γ :=
  match x.answer with
  | .error e => ⟨x.failures, .error e⟩
  | .ok b => ⟨x.failures ++ (k b).failures, (k b).answer⟩

instance : Monad Traced where
  pure b := ⟨[], .ok b⟩
  bind := Traced.bind

theorem bind_ok {x : Traced β} {b : β} (h : x.answer = .ok b) (k : β → Traced γ) :
    x >>= k = ⟨x.failures ++ (k b).failures, (k b).answer⟩ := by
  show Traced.bind x k = _
  unfold Traced.bind
  rw [h]

theorem bind_error {x : Traced β} {e : Stop} (h : x.answer = .error e) (k : β → Traced γ) :
    x >>= k = ⟨x.failures, .error e⟩ := by
  show Traced.bind x k = _
  unfold Traced.bind
  rw [h]

/-- A computation in two parts that answers has answered in both parts. -/
theorem answer_bind {x : Traced β} {k : β → Traced γ} {b : γ} (h : (x >>= k).answer = .ok b) :
    ∃ a, x.answer = .ok a ∧ (k a).answer = .ok b := by
  cases hx : x.answer with
  | error e =>
    rw [bind_error hx] at h
    cases h
  | ok a =>
    rw [bind_ok hx] at h
    exact ⟨a, rfl, h⟩

/-- Lists a failure. -/
def log (f : Failure) : Traced Unit := ⟨[f], .ok ()⟩

/-- The answer of a computation that fails nowhere. -/
def lift : Except Fault β → Traced β
  | .ok b => ⟨[], .ok b⟩
  | .error f => ⟨[], .error (.fault f)⟩

/-- The same answer with no failures listed. -/
def hush (x : Traced β) : Traced β := ⟨[], x.answer⟩

end Traced

/-! ## Pure actions -/

/-- A locator answers every query as a new locator of the text does. -/
def Locator.Exact (l : Locator) (text : Bytes) (tabs : Tabs) : Prop :=
  ∀ offset, (l.locate tabs offset).1 = Locator.position text tabs offset

theorem Locator.exact_ofText (text : Bytes) (tabs : Tabs) : (Locator.ofText text).Exact text tabs :=
  fun _ => rfl

/-- The same settings, with or without a memo. -/
def Settings.memoizing (settings : Settings) (memoize : Bool) : Settings := { settings with memoize }

/-- The same context, with or without a memo. -/
def Context.memoizing (ctx : Context) (memoize : Bool) : Context :=
  { ctx with settings := ctx.settings.memoizing memoize }

/-- What the action of a client answers in a context, asked on a given store. -/
def Client.answer (client : Client α σ) (store : Store σ) (a : α) (ctx : Context) : Except Fault Value :=
  ((client.act a ctx).run.run store).1

/-- The actions of a client are pure on a text: what they answer depends on the context alone, and not on
whether results are kept. They may ask for positions as long as that spoils no later query, and they may
write to the state of the host program, from which no answer is read. -/
structure Client.Pure (client : Client α σ) (text : Bytes) : Prop where
  answer_eq : ∀ a ctx memoize store store', ctx.input = text →
    store.locator.Exact text ctx.settings.tabs → store'.locator.Exact text ctx.settings.tabs →
    client.answer store a (ctx.memoizing memoize) = client.answer store' a ctx
  exact : ∀ a ctx store, ctx.input = text → store.locator.Exact text ctx.settings.tabs →
    ((client.act a ctx).run.run store).2.locator.Exact text ctx.settings.tabs

/-- Actions that answer without the store, and do not ask whether results are kept, are pure. -/
theorem Client.pure_of_lift {client : Client α σ} {f : α → Context → Except Fault Value}
    (hact : ∀ a ctx, client.act a ctx = ActionM.lift (f a ctx))
    (hf : ∀ a ctx memoize, f a (ctx.memoizing memoize) = f a ctx) (text : Bytes) :
    client.Pure text := by
  refine ⟨fun a ctx memoize store store' _ _ _ => ?_, fun a ctx store _ hstore => ?_⟩
  · unfold Client.answer
    rw [hact, hact]
    exact hf a ctx memoize
  · rw [hact]
    exact hstore

/-- The hook of a client raises a fault at some call. -/
def Client.HookRaises (client : Client α σ) (f : Fault) : Prop :=
  ∃ call user, ((client.onCall call).run.run user).1 = .error f

/-- What an evaluation with pure actions depends on. -/
structure Basis (α : Type) where
  grammar : Grammar α
  act : α → Context → Except Fault Value
  settings : Settings
  parsing : Bool
  input : Bytes
  reach : Nat

/-- What the evaluation of a scene depends on if its client is pure: the answers of the actions are those
that they give on some store. -/
def Scene.basis (scene : Scene α σ) (store : Store σ) : Basis α :=
  ⟨scene.grammar, scene.client.answer store, scene.settings.memoizing false, scene.parsing, scene.input,
    scene.reach⟩

@[simp] theorem Scene.grammar_basis (scene : Scene α σ) (store : Store σ) :
    (scene.basis store).grammar = scene.grammar := rfl

namespace Basis

/-- The context of an action in a sequence that has matched up to `stop`. -/
def context (s : Basis α) (frame : Frame) (stop : Nat) (args : List (Spanned Value))
    (names : List Bytes) : Context :=
  ⟨args, names, s.input, frame.start, stop, s.settings, s.parsing⟩

/-- What an action that is called by name answers. -/
def run (s : Basis α) : NamedAction α → Context → Except Fault Value
  | .builtin b, ctx => b.run ctx
  | .custom a, ctx => s.act a ctx

end Basis

/-! ## Evaluation -/

/-- The value in a slot. -/
def Frame.value (frame : Frame) (slot : Option Nat) : Except Fault (Spanned Value) :=
  match slot.bind (frame.slots[·]?) with
  | some x => .ok x
  | none => .error .outOfRange

mutual

/-- The value of a host expression. -/
def traceHost (s : Basis α) (frame : Frame) (stop : Nat) : HostNode α → Except Fault Value
  | .ref _ slot => do return (← frame.value slot).value
  | .const v => .ok v
  | .matched =>
    if frame.start ≤ s.input.length then
      .ok (.text ((s.input.drop frame.start).take (stop - frame.start)))
    else .error .outOfRange
  | .native a => s.act a (s.context frame stop frame.slots frame.layout)
  | .call name args constructs action => do
    let args ← traceArgs s frame stop args
    if constructs then .ok (nodeOf name args)
    else
      match action.bind (s.grammar.actions[·]?) with
      | some (_, named) => s.run named (s.context frame stop (args.map (·.2)) (args.map (·.1)))
      | none => .error .outOfRange
termination_by structural node => node

/-- The arguments of a call, from left to right. -/
def traceArgs (s : Basis α) (frame : Frame) (stop : Nat) : List (Host α) → Except Fault (List Field)
  | [] => .ok []
  | ⟨.ref name slot, _⟩ :: rest => do
    let x ← frame.value slot
    let rest ← traceArgs s frame stop rest
    return (name, x) :: rest
  | ⟨node, _⟩ :: rest => do
    let v ← traceHost s frame stop node
    let rest ← traceArgs s frame stop rest
    return ([], ⟨v, frame.start, stop⟩) :: rest
termination_by structural args => args

end

/-- The text of an interpolated literal. -/
def traceSegments (s : Basis α) (frame : Frame) (stop : Nat) : List (Segment α) → Except Fault Bytes
  | [] => .ok []
  | .spelling text :: rest => do return unescape text ++ (← traceSegments s frame stop rest)
  | .code host :: rest => do
    let v ← traceHost s frame stop host.node
    return v.toText ++ (← traceSegments s frame stop rest)

/-- The answer of a terminal. -/
def traceTerminal (c : Cursor) (label : Bytes) : Option Nat → Traced Result
  | some taken =>
    let next := c.advance taken
    pure (.success ⟨.text (c.remaining.take taken), c.offset, next.offset⟩ next)
  | none => do
    Traced.log (.attempt c.offset label)
    return .failure c.offset

/-- Repeats a step at most `fuel` times, as `collect` does. -/
def traceCollect (step : Cursor → Traced Result) :
    Nat → List (Spanned Value) → Cursor → Traced (List (Spanned Value) × Cursor)
  | 0, collected, c => pure (collected.reverse, c)
  | fuel + 1, collected, c => do
    match ← step c with
    | .failure _ => pure (collected.reverse, c)
    | .success tree next =>
      if next.offset = c.offset then pure (collected.reverse, c)
      else traceCollect step fuel (tree :: collected) next

/-- Runs a step as often as a repetition asks for. -/
def traceRepeated (reach : Nat) (repetition : Repetition) (step : Cursor → Traced Result) (c : Cursor) :
    Traced Result :=
  match repetition with
  | .once => step c
  | .optional => do
    match ← step c with
    | .failure _ => return .success ⟨.option none, c.offset, c.offset⟩ c
    | .success tree next => return .success ⟨.option (some tree), c.offset, next.offset⟩ next
  | .star => do
    let (elements, next) ← traceCollect step (reach + 1) [] c
    return .success ⟨.list elements, c.offset, next.offset⟩ next
  | .plus => do
    match ← step c with
    | .failure _ => return .failure c.offset
    | .success tree next =>
      let (elements, next) ← traceCollect step (reach + 1) [tree] next
      return .success ⟨.list elements, c.offset, next.offset⟩ next

/-- What a lookahead makes of the answer of its body at a cursor. -/
def Lookahead.judge (lookahead : Lookahead) (asCondition : Bool) (c : Cursor) : Result → Result
  | .success tree next =>
    match lookahead with
    | .none => .success tree next
    | .ahead => if asCondition && !tree.value.truthy then .failure c.offset else .success tree c
    | .notAhead =>
      if asCondition && !tree.value.truthy then .success ⟨.unit, c.offset, c.offset⟩ c
      else .failure c.offset
  | .failure _ =>
    match lookahead with
    | .none => .failure c.offset
    | .ahead => .failure c.offset
    | .notAhead => .success ⟨.unit, c.offset, c.offset⟩ c

theorem lookaround_eq (lookahead : Lookahead) (asCondition : Bool) (step : Step σ) (c : Cursor) :
    lookaround lookahead asCondition step c =
      step c >>= fun r => Pure.pure (lookahead.judge asCondition c r) := by
  unfold lookaround
  congr 1
  funext r
  cases r with
  | failure offset => cases lookahead <;> rfl
  | success tree next =>
    cases lookahead with
    | none => rfl
    | ahead =>
      unfold Lookahead.judge
      simp only
      split
      · rfl
      · rfl
    | notAhead =>
      unfold Lookahead.judge
      simp only
      split
      · rfl
      · rfl

/-- The body of an item with a lookahead: the failures of a test are not listed. -/
def Lookahead.body (lookahead : Lookahead) (x : Traced β) : Traced β :=
  if lookahead = .none then x else x.hush

/-- Runs a step with a lookahead. -/
def traceLookaround (lookahead : Lookahead) (asCondition : Bool) (step : Cursor → Traced Result)
    (c : Cursor) : Traced Result := do
  let r ← lookahead.body (step c)
  return lookahead.judge asCondition c r

/-- The value of a sequence that has matched from `c` to `next`. -/
def traceValue (s : Basis α) (items : List (Item (Body α))) (action : Option (Host α))
    (layout : List Bytes) (c : Cursor) (slots : List (Spanned Value)) (last : Spanned Value)
    (next : Cursor) : Except Fault (Spanned Value) :=
  match action with
  | some host => do
    let v ← traceHost s ⟨slots, layout, c.offset⟩ next.offset host.node
    return ⟨v, c.offset, next.offset⟩
  | none =>
    if !layout.isEmpty then .ok ⟨.node [] (layout.zip slots), c.offset, next.offset⟩
    else if passesOn items then .ok last
    else .ok ⟨.text (next.textFrom c.offset), c.offset, next.offset⟩

section

variable (s : Basis α) (call : Nat → Cursor → Traced Result)

/-- Calls a rule and, if asked for, tags its value. -/
def traceRuleCall (decorated : Bool) (target : Option Nat) (c : Cursor) : Traced Result :=
  match target with
  | none => Traced.lift (.error .outOfRange)
  | some i => do
    match ← call i c with
    | .failure offset => return .failure offset
    | .success tree next =>
      match s.grammar.rules[i]? with
      | none => Traced.lift (.error .outOfRange)
      | some rule =>
        if decorated && !rule.decorated then return .success (tagged rule.name tree) next
        else return .success tree next

mutual

/-- Matches a body in a sequence at work. -/
def traceBody (frame : Frame) : Body α → Cursor → Traced Result
  | .code host => fun c => do
    let v ← Traced.lift (traceHost s frame c.offset host.node)
    return .success ⟨v, c.offset, c.offset⟩ c
  | .call _ decorated target => fun c => traceRuleCall s call decorated target c
  | .group alternatives => fun c => traceExpr alternatives none c
  | .literal spelling caseless braceSensitive => fun c =>
    traceTerminal c (labelOf (betweenQuotes spelling) caseless)
      (Terminal.literal? spelling braceSensitive caseless c.remaining)
  | .interpolated segments caseless => fun c => do
    let text ← Traced.lift (traceSegments s frame c.offset segments)
    traceTerminal c (quoteText text) (Terminal.text? text caseless c.remaining)
  | .cls cls => fun c =>
    traceTerminal c (labelOf cls.spelling cls.caseless) ((Terminal.class? cls c.remaining).map (·.2))
  | .any => fun c =>
    traceTerminal c (Bytes.ascii "any character") ((Terminal.any? c.remaining).map (·.2))
termination_by structural body => body

/-- Tries alternatives in turn. -/
def traceExpr : List (Sequence α (Body α)) → Option Nat → Cursor → Traced Result
  | [], earliest => fun c => return .failure (earliest.getD c.offset)
  | seq :: rest, earliest => fun c => do
    match ← traceSequence seq c with
    | .success tree next => return .success tree next
    | .failure offset => traceExpr rest (some ((earliest.map (min · offset)).getD offset)) c
termination_by structural alternatives => alternatives

/-- Matches a sequence. -/
def traceSequence : Sequence α (Body α) → Cursor → Traced Result
  | ⟨items, action, layout, _⟩ => fun c => do
    let slots := List.replicate layout.length default
    match ← traceItems layout c.offset items slots default c with
    | .failure offset => return .failure offset
    | .success slots last next =>
      return .success (← Traced.lift (traceValue s items action layout c slots last next)) next
termination_by structural seq => seq

/-- Matches the items of a sequence, one after the other. An item that fails is listed. -/
def traceItems (layout : List Bytes) (start : Nat) :
    List (Item (Body α)) → List (Spanned Value) → Spanned Value → Cursor → Traced ItemsResult
  | [], slots, last, c => return .success slots last c
  | item :: rest, slots, _, c => do
    match ← traceItem ⟨slots, layout, start⟩ item c with
    | .failure _ => do
      Traced.log (.item c.offset)
      return .failure c.offset
    | .success tree next =>
      let slots := match item.slot with
        | none => slots
        | some i => slots.set i tree
      traceItems layout start rest slots tree next
termination_by structural items => items

/-- Matches one item in a sequence at work. -/
def traceItem (frame : Frame) : Item (Body α) → Cursor → Traced Result
  | ⟨_, _, lookahead, body, repetition, _, _⟩ =>
    traceLookaround lookahead (body.isCode && repetition = .once)
      (traceRepeated s.reach repetition (traceBody frame body))
termination_by structural item => item

end

/-- Matches what a rule stands for. -/
def traceRule (rule : Rule α) (c : Cursor) : Traced Result :=
  match rule.matcher with
  | none => do
    match ← traceExpr s call rule.body none c with
    | .failure offset => return .failure offset
    | .success tree next =>
      if rule.decorated then return .success (tagged rule.name tree) next
      else return .success tree next
  | some i =>
    match s.grammar.matchers[i]? with
    | none => Traced.lift (.error .outOfRange)
    | some matcher => do
      match ← Traced.lift (matcher c) with
      | .failure _ => do
        Traced.log (.attempt c.offset rule.name)
        return .failure c.offset
      | .success v taken =>
        let next := c.advance taken
        return .success ⟨v, c.offset, next.offset⟩ next

end

/-- Evaluates the rule at a place of the grammar's table, with as many further calls inside each other as
`depth` allows. -/
def traceCall (s : Basis α) : Nat → Nat → Cursor → Traced Result
  | depth, index, c =>
    match s.grammar.rules[index]? with
    | none => Traced.lift (.error .outOfRange)
    | some rule =>
      match depth with
      | 0 => ⟨[], .error .depth⟩
      | depth + 1 => traceRule s (traceCall s depth) rule c
termination_by structural depth => depth

section

variable {s : Basis α} {index : Nat}

theorem traceCall_none (h : s.grammar.rules[index]? = none) (depth : Nat) (c : Cursor) :
    traceCall s depth index c = Traced.lift (.error .outOfRange) := by
  unfold traceCall
  rw [h]

theorem traceCall_zero {rule : Rule α} (h : s.grammar.rules[index]? = some rule) (c : Cursor) :
    traceCall s 0 index c = ⟨[], .error .depth⟩ := by
  unfold traceCall
  rw [h]

theorem traceCall_succ {rule : Rule α} (h : s.grammar.rules[index]? = some rule) (depth : Nat)
    (c : Cursor) : traceCall s (depth + 1) index c = traceRule s (traceCall s depth) rule c := by
  rw [traceCall.eq_def]
  simp only [h]

end

/-- The evaluation of a rule is `t`, whatever depth is allowed from some depth on. -/
def Basis.Settles (s : Basis α) (index : Nat) (c : Cursor) (t : Traced Result) : Prop :=
  ∃ n, ∀ m, n ≤ m → traceCall s m index c = t

/-- There is one evaluation of a rule. -/
theorem Basis.Settles.unique {s : Basis α} {index : Nat} {c : Cursor} {t t' : Traced Result}
    (h : s.Settles index c t) (h' : s.Settles index c t') : t = t' := by
  obtain ⟨n, hn⟩ := h
  obtain ⟨n', hn'⟩ := h'
  rw [← hn (max n n') (Nat.le_max_left _ _), hn' (max n n') (Nat.le_max_right _ _)]

end Packrat
