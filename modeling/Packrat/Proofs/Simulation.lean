import Packrat.Proofs.Primitives
import Packrat.Proofs.Tracking

/-!
# `Packrat.Proofs.Simulation` — the evaluator follows the evaluation without state

With pure actions, every run of the evaluator ends as `traceCall` says, with or without a memo, inside and
outside of lookaheads. What the evaluator does between two rule calls mirrors the evaluation without state step
by step, whatever the calls do; so what is to be shown of a run is shown for each kind of step, and by induction
on the depth for the calls.

## Contents
- **Host expressions.** They answer as `traceHost` says.
- **Mirrors.** `Mirrors`, with one constructor for each kind of step.
- **Items.** Terminals, repetitions and lookaheads, given the step that they run.
- **Expressions.** `evalBody_mirrors` and its companions, on the structure of an expression.
- **Rules.** `callRule_tracks`, on the depth.
-/

namespace Packrat

variable {α β γ σ : Type}

-- the linter does not see an assumption that only a companion of a mutual block uses
set_option linter.unusedSectionVars false

/-! ## Host expressions -/

section Host

variable {scene : Scene α σ} {store : Store σ}

theorem read_computes (frame : Frame) (slot : Option Nat) :
    Computes scene (frame.read slot) (frame.value slot) := by
  unfold Frame.read Frame.value
  cases slot.bind (frame.slots[·]?) with
  | none => exact Computes.throw _
  | some x => exact Computes.pure x

variable (hpure : scene.client.Pure scene.input)
  (hstore : store.locator.Exact scene.input scene.settings.tabs)

include hpure hstore

/-- A pure action answers as it does on the store that the reference is taken from. -/
theorem act_computes (a : α) (frame : Frame) (stop : Nat) (args : List (Spanned Value))
    (names : List Bytes) :
    Computes scene
      (onStore (scene.client.act a
        ⟨args, names, scene.input, frame.start, stop, scene.settings, scene.parsing⟩))
      ((scene.basis store).act a ((scene.basis store).context frame stop args names)) := by
  intro p hp
  have hanswer := hpure.answer_eq a ((scene.basis store).context frame stop args names)
    scene.settings.memoize p.store store rfl hp hstore
  have hexact := hpure.exact a
    ⟨args, names, scene.input, frame.start, stop, scene.settings, scene.parsing⟩ p.store rfl hp
  refine ⟨_, hexact, ?_⟩
  rw [run_onStore]
  exact congrArg (·, _) hanswer

/-- So does an action that is called by name. -/
theorem run_computes (named : NamedAction α) (frame : Frame) (stop : Nat)
    (args : List (Spanned Value)) (names : List Bytes) :
    Computes scene
      (onStore (scene.client.run named
        ⟨args, names, scene.input, frame.start, stop, scene.settings, scene.parsing⟩))
      ((scene.basis store).run named ((scene.basis store).context frame stop args names)) := by
  cases named with
  | custom a => exact act_computes hpure hstore a frame stop args names
  | builtin b =>
    -- no builtin looks at the settings
    intro p hp
    refine ⟨p.store, hp, ?_⟩
    cases b <;> rfl

mutual

theorem evalHost_computes (frame : Frame) (stop : Nat) :
    ∀ node : HostNode α,
      Computes scene (evalHost scene frame stop node) (traceHost (scene.basis store) frame stop node)
  | .ref _ slot => by
    unfold evalHost traceHost
    exact (read_computes frame slot).bind fun x => Computes.pure x.value
  | .const v => Computes.pure v
  | .matched => by
    unfold evalHost traceHost
    -- both read the text of the sequence from the same input
    show Computes scene _ (if frame.start ≤ scene.input.length then _ else _)
    split
    · exact Computes.pure _
    · exact Computes.throw _
  | .native a => act_computes hpure hstore a frame stop frame.slots frame.layout
  | .call name args constructs action => by
    unfold evalHost traceHost
    refine (evalArgs_computes frame stop args).bind fun fields => ?_
    split
    · exact Computes.pure _
    · rw [Scene.grammar_basis]
      cases action.bind (scene.grammar.actions[·]?) with
      | none => exact Computes.throw _
      | some entry => exact run_computes hpure hstore entry.2 frame stop _ _
termination_by structural node => node

theorem evalArgs_computes (frame : Frame) (stop : Nat) :
    ∀ args : List (Host α),
      Computes scene (evalArgs scene frame stop args) (traceArgs (scene.basis store) frame stop args)
  | [] => Computes.pure []
  | ⟨node, pos⟩ :: rest => by
    have hnode := evalHost_computes frame stop node
    have hrest := evalArgs_computes frame stop rest
    have hother : Computes scene
        (do
          let v ← evalHost scene frame stop node
          let rest ← evalArgs scene frame stop rest
          return (([], ⟨v, frame.start, stop⟩) : Field) :: rest)
        (do
          let v ← traceHost (scene.basis store) frame stop node
          let rest ← traceArgs (scene.basis store) frame stop rest
          return ([], ⟨v, frame.start, stop⟩) :: rest) :=
      hnode.bind fun v => hrest.bind fun fields => Computes.pure _
    cases node with
    | ref name slot =>
      exact (read_computes frame slot).bind fun x => hrest.bind fun fields => Computes.pure _
    | const v => exact hother
    | matched => exact hother
    | native a => exact hother
    | call name args constructs action => exact hother
termination_by structural args => args

end

theorem evalSegments_computes (frame : Frame) (stop : Nat) (segments : List (Segment α)) :
    Computes scene (evalSegments scene frame stop segments)
      (traceSegments (scene.basis store) frame stop segments) := by
  induction segments with
  | nil => exact Computes.pure _
  | cons segment rest ih =>
    cases segment with
    | spelling text => exact ih.bind fun t => Computes.pure _
    | code host =>
      exact (evalHost_computes hpure hstore frame stop host.node).bind fun v =>
        ih.bind fun t => Computes.pure _

theorem sequenceValue_computes (items : List (Item (Body α))) (action : Option (Host α))
    (layout : List Bytes) (c : Cursor) (slots : List (Spanned Value)) (last : Spanned Value)
    (next : Cursor) :
    Computes scene (sequenceValue scene items action layout c slots last next)
      (traceValue (scene.basis store) items action layout c slots last next) := by
  unfold sequenceValue traceValue
  cases action with
  | some host =>
    exact (evalHost_computes hpure hstore _ _ host.node).bind fun v => Computes.pure _
  | none =>
    simp only
    split
    · exact Computes.pure _
    · split
      · exact Computes.pure _
      · exact Computes.pure _

end Host

/-! ## Mirrors -/

/-- A computation mirrors an evaluation without state, whose answers satisfy `Q`: it takes the same steps, and
calls rules by `call` where the evaluation does by `call'`, which depends on the depth. -/
inductive Mirrors (scene : Scene α σ) (call : Bool → Nat → Step σ)
    (call' : Nat → Nat → Cursor → Traced Result) :
    Bool → {β : Type} → EvalM σ β → (Nat → Traced β) → (β → Prop) → Prop
  | pure {quiet : Bool} {β : Type} {b : β} {Q : β → Prop} (hb : Q b) :
      Mirrors scene call call' quiet (Pure.pure b) (fun _ => Pure.pure b) Q
  /-- Asking actions, which fails nowhere. -/
  | lift {quiet : Bool} {β : Type} {x : EvalM σ β} {e : Except Fault β} {Q : β → Prop}
      (hasks : Asks scene x) (hx : Computes scene x e) (hQ : ∀ b, e = .ok b → Q b) :
      Mirrors scene call call' quiet x (fun _ => Traced.lift e) Q
  | bind {quiet : Bool} {β γ : Type} {x : EvalM σ β} {f : Nat → Traced β} {Q : β → Prop}
      {k : β → EvalM σ γ} {g : β → Nat → Traced γ} {R : γ → Prop}
      (hx : Mirrors scene call call' quiet x f Q)
      (hk : ∀ b, Q b → Mirrors scene call call' quiet (k b) (g b) R) :
      Mirrors scene call call' quiet (x >>= k) (fun m => f m >>= fun b => g b m) R
  /-- A test, whose failures are not listed. -/
  | hush {quiet : Bool} {β : Type} {x : EvalM σ β} {f : Nat → Traced β} {Q : β → Prop}
      (hx : Mirrors scene call call' true x f Q) :
      Mirrors scene call call' quiet x (fun m => (f m).hush) Q
  | note {quiet : Bool} (offset : Nat) (label : Bytes) :
      Mirrors scene call call' quiet (noteFailure quiet offset label)
        (fun _ => Traced.log (.attempt offset label)) (fun _ => True)
  /-- An item that fails is listed, but the evaluator does not note it. -/
  | item {quiet : Bool} {β : Type} {b : β} {Q : β → Prop} (offset : Nat) (hb : Q b) :
      Mirrors scene call call' quiet (Pure.pure b)
        (fun _ => do Traced.log (.item offset); Pure.pure b) Q
  | call {quiet : Bool} (i : Nat) {c : Cursor} (hc : c.input = scene.input) :
      Mirrors scene call call' quiet (call quiet i c) (fun m => call' m i c) (Result.On scene.input)

/-- A way to call rules follows another one that has no state and depends on the depth. -/
def Simulates (scene : Scene α σ) (store : Store σ) (depth : Nat) (call : Bool → Nat → Step σ)
    (call' : Nat → Nat → Cursor → Traced Result) : Prop :=
  ∀ quiet i c, c.input = scene.input →
    Tracks scene store depth quiet (call quiet i c) (fun m => call' m i c) (Result.On scene.input)

namespace Mirrors

variable {scene : Scene α σ} {store : Store σ} {depth : Nat} {call : Bool → Nat → Step σ}
  {call' : Nat → Nat → Cursor → Traced Result} {quiet : Bool} {x : EvalM σ β} {f : Nat → Traced β}
  {Q : β → Prop}

/-- A computation that raises a fault. -/
theorem fault (e : Fault) :
    Mirrors scene call call' quiet (throw e) (fun _ => Traced.lift (.error e)) Q := by
  refine .lift (.fault e) (Computes.throw e) ?_
  intro b hb
  cases hb

/-- The answer of a computation without state. -/
theorem answer (r : Except Fault β) :
    Mirrors scene call call' quiet (ExceptT.mk (Pure.pure r)) (fun _ => Traced.lift r)
      (fun _ => True) := by
  refine .lift ?_ (fun p hp => ⟨p.store, hp, rfl⟩) (fun _ _ => trivial)
  cases r with
  | ok b => exact .pure b
  | error e => exact .fault e

/-- **Where rule calls follow the evaluation without state, everything that mirrors it does.** -/
theorem tracks (hcall : Simulates scene store depth call call')
    (h : Mirrors scene call call' quiet x f Q) : Tracks scene store depth quiet x f Q := by
  induction h with
  | pure hb => exact Tracks.pure hb
  | lift _ hx hQ => exact Tracks.lift hx hQ
  | bind _ _ hx hk => exact hx.bind hk
  | hush _ hx => exact hx.hush
  | note offset label => exact Tracks.note offset label
  | item offset hb => exact Tracks.item offset hb
  | call i hc => exact hcall _ i _ hc

/-- More depth changes the evaluation of a part only where depth ran out, if that is so for rule calls. -/
theorem rising {n : Nat} (hcall : ∀ i c, c.input = scene.input →
      Rising n (fun m => call' m i c) ∧ ∀ r, (call' n i c).answer = .ok r → r.On scene.input)
    (h : Mirrors scene call call' quiet x f Q) : Rising n f ∧ ∀ b, (f n).answer = .ok b → Q b := by
  induction h with
  | pure hb =>
    refine ⟨fun _ _ => .inr rfl, ?_⟩
    intro b' hb'
    cases hb'
    exact hb
  | @lift _ _ _ e _ _ _ hQ =>
    refine ⟨fun _ _ => .inr rfl, ?_⟩
    intro b hb
    cases e with
    | ok b' => exact hQ b (congrArg _ (Except.ok.inj hb))
    | error err => cases hb
  | @bind _ _ _ _ f Q _ g R _ _ hx hk =>
    refine ⟨hx.1.bind fun b hb => (hk b (hx.2 b hb)).1, ?_⟩
    intro c hc
    obtain ⟨b, hb, hc⟩ := Traced.answer_bind hc
    exact (hk b (hx.2 b hb)).2 c hc
  | hush _ hx => exact ⟨fun m hm => (hx.1 m hm).imp id (congrArg Traced.hush), hx.2⟩
  | note offset label => exact ⟨fun _ _ => .inr rfl, fun _ _ => trivial⟩
  | item offset hb =>
    refine ⟨fun _ _ => .inr rfl, ?_⟩
    intro b' hb'
    cases hb'
    exact hb
  | call i hc => exact hcall i _ hc

end Mirrors

/-! ## Items -/

/-- What the items of a sequence answer lies on an input. -/
def ItemsResult.On (input : Bytes) : ItemsResult → Prop
  | .success _ _ next => next.input = input
  | .failure _ => True

section Evaluator

variable {scene : Scene α σ} {store : Store σ} {call : Bool → Nat → Step σ}
  {call' : Nat → Nat → Cursor → Traced Result}

theorem terminal_mirrors (quiet : Bool) {c : Cursor} (hc : c.input = scene.input) (label : Bytes)
    (taken : Option Nat) :
    Mirrors scene call call' quiet (terminal quiet c label taken)
      (fun _ => traceTerminal c label taken) (Result.On scene.input) := by
  cases taken with
  | none => exact (Mirrors.note c.offset label).bind fun _ _ => Mirrors.pure trivial
  | some n => exact Mirrors.pure ((Cursor.input_advance c n).trans hc)

section Repetition

variable {quiet : Bool} {step : Step σ} {step' : Nat → Cursor → Traced Result}
  (hstep : ∀ c : Cursor, c.input = scene.input →
    Mirrors scene call call' quiet (step c) (fun m => step' m c) (Result.On scene.input))

include hstep

theorem collect_mirrors (fuel : Nat) (collected : List (Spanned Value)) {c : Cursor}
    (hc : c.input = scene.input) :
    Mirrors scene call call' quiet (collect step fuel collected c)
      (fun m => traceCollect (step' m) fuel collected c) (fun x => x.2.input = scene.input) := by
  induction fuel generalizing collected c with
  | zero => exact Mirrors.pure hc
  | succ fuel ih =>
    unfold collect traceCollect
    refine (hstep c hc).bind fun r hr => ?_
    cases r with
    | failure offset => exact Mirrors.pure hc
    | success tree next =>
      simp only
      split
      · exact Mirrors.pure hc
      · exact ih (tree :: collected) hr

theorem repeated_mirrors (repetition : Repetition) {c : Cursor} (hc : c.input = scene.input) :
    Mirrors scene call call' quiet (repeated scene.reach repetition step c)
      (fun m => traceRepeated scene.reach repetition (step' m) c) (Result.On scene.input) := by
  cases repetition with
  | once => exact hstep c hc
  | optional =>
    refine (hstep c hc).bind fun r hr => ?_
    cases r with
    | failure offset => exact Mirrors.pure hc
    | success tree next => exact Mirrors.pure hr
  | star =>
    refine (collect_mirrors hstep _ _ hc).bind fun x hx => ?_
    exact Mirrors.pure hx
  | plus =>
    refine (hstep c hc).bind fun r hr => ?_
    cases r with
    | failure offset => exact Mirrors.pure trivial
    | success tree next =>
      refine (collect_mirrors hstep _ _ hr).bind fun x hx => ?_
      exact Mirrors.pure hx

end Repetition

theorem judge_on (lookahead : Lookahead) (asCondition : Bool) {c : Cursor} {r : Result}
    (hc : c.input = scene.input) (hr : r.On scene.input) :
    (lookahead.judge asCondition c r).On scene.input := by
  cases r with
  | failure offset =>
    cases lookahead with
    | none => exact trivial
    | ahead => exact trivial
    | notAhead => exact hc
  | success tree next =>
    cases lookahead with
    | none => exact hr
    | ahead =>
      unfold Lookahead.judge
      simp only
      split
      · exact trivial
      · exact hc
    | notAhead =>
      unfold Lookahead.judge
      simp only
      split
      · exact hc
      · exact trivial

theorem lookaround_mirrors (quiet : Bool) (lookahead : Lookahead) (asCondition : Bool) {step : Step σ}
    {step' : Nat → Cursor → Traced Result} {c : Cursor} (hc : c.input = scene.input)
    (hstep : Mirrors scene call call' (quiet || lookahead ≠ .none) (step c) (fun m => step' m c)
      (Result.On scene.input)) :
    Mirrors scene call call' quiet (lookaround lookahead asCondition step c)
      (fun m => traceLookaround lookahead asCondition (step' m) c) (Result.On scene.input) := by
  rw [lookaround_eq]
  unfold traceLookaround
  -- inside of a test the step is quiet, and its failures are not listed
  have hbody : Mirrors scene call call' quiet (step c)
      (fun m => lookahead.body (step' m c)) (Result.On scene.input) := by
    unfold Lookahead.body
    by_cases hnone : lookahead = .none
    · simp only [hnone, ne_eq, not_true_eq_false, decide_false, Bool.or_false] at hstep
      simp only [hnone, if_true]
      exact hstep
    · simp only [ne_eq, hnone, not_false_eq_true, decide_true, Bool.or_true] at hstep
      simp only [hnone, if_false]
      exact hstep.hush
  exact hbody.bind fun r hr => Mirrors.pure (judge_on lookahead asCondition hc hr)

/-! ## Expressions -/

section Expressions

theorem evalCall_mirrors (quiet decorated : Bool) (target : Option Nat) {c : Cursor}
    (hc : c.input = scene.input) :
    Mirrors scene call call' quiet (evalCall scene call quiet decorated target c)
      (fun m => traceRuleCall (scene.basis store) (call' m) decorated target c)
      (Result.On scene.input) := by
  unfold evalCall traceRuleCall
  cases target with
  | none => exact Mirrors.fault .outOfRange
  | some i =>
    refine (Mirrors.call i hc).bind fun r hr => ?_
    cases r with
    | failure offset => exact Mirrors.pure trivial
    | success tree next =>
      simp only [Scene.grammar_basis]
      cases scene.grammar.rules[i]? with
      | none => exact Mirrors.fault .outOfRange
      | some rule =>
        simp only
        split
        · exact Mirrors.pure hr
        · exact Mirrors.pure hr

variable (hpure : scene.client.Pure scene.input)
  (hstore : store.locator.Exact scene.input scene.settings.tabs)

include hpure hstore

mutual

theorem evalBody_mirrors (quiet : Bool) (frame : Frame) :
    ∀ (body : Body α) (c : Cursor), c.input = scene.input →
      Mirrors scene call call' quiet (evalBody scene call quiet frame body c)
        (fun m => traceBody (scene.basis store) (call' m) frame body c) (Result.On scene.input)
  | .code host, c, hc => by
    unfold evalBody traceBody
    refine (Mirrors.lift (evalHost_asks scene frame c.offset host.node)
      (evalHost_computes hpure hstore frame c.offset host.node) fun _ _ => trivial).bind fun v _ => ?_
    exact Mirrors.pure hc
  | .call _ decorated target, c, hc => by
    unfold evalBody traceBody
    exact evalCall_mirrors quiet decorated target hc
  | .group alternatives, c, hc => by
    unfold evalBody traceBody
    exact evalExpr_mirrors quiet alternatives none c hc
  | .literal spelling caseless braceSensitive, c, hc => by
    unfold evalBody traceBody
    exact terminal_mirrors quiet hc _ _
  | .interpolated segments caseless, c, hc => by
    unfold evalBody traceBody
    refine (Mirrors.lift (evalSegments_asks scene frame c.offset segments)
      (evalSegments_computes hpure hstore frame c.offset segments) fun _ _ => trivial).bind fun text _ => ?_
    exact terminal_mirrors quiet hc _ _
  | .cls cls, c, hc => by
    unfold evalBody traceBody
    exact terminal_mirrors quiet hc _ _
  | .any, c, hc => by
    unfold evalBody traceBody
    exact terminal_mirrors quiet hc _ _
termination_by structural body => body

theorem evalExpr_mirrors (quiet : Bool) :
    ∀ (alternatives : List (Sequence α (Body α))) (earliest : Option Nat) (c : Cursor),
      c.input = scene.input →
      Mirrors scene call call' quiet (evalExpr scene call quiet alternatives earliest c)
        (fun m => traceExpr (scene.basis store) (call' m) alternatives earliest c)
        (Result.On scene.input)
  | [], earliest, c, hc => by
    unfold evalExpr traceExpr
    exact Mirrors.pure trivial
  | seq :: rest, earliest, c, hc => by
    unfold evalExpr traceExpr
    refine (evalSequence_mirrors quiet seq c hc).bind fun r hr => ?_
    cases r with
    | success tree next => exact Mirrors.pure hr
    | failure offset => exact evalExpr_mirrors quiet rest _ c hc
termination_by structural alternatives => alternatives

theorem evalSequence_mirrors (quiet : Bool) :
    ∀ (seq : Sequence α (Body α)) (c : Cursor), c.input = scene.input →
      Mirrors scene call call' quiet (evalSequence scene call quiet seq c)
        (fun m => traceSequence (scene.basis store) (call' m) seq c) (Result.On scene.input)
  | ⟨items, action, layout, _⟩, c, hc => by
    unfold evalSequence traceSequence
    refine (evalItems_mirrors quiet layout c.offset items _ default c hc).bind fun r hr => ?_
    cases r with
    | failure offset => exact Mirrors.pure trivial
    | success slots last next =>
      have hvalue := sequenceValue_computes hpure hstore items action layout c slots last next
      exact (Mirrors.lift (sequenceValue_asks scene items action layout c slots last next) hvalue
        fun _ _ => trivial).bind fun v _ => Mirrors.pure hr
termination_by structural seq => seq

theorem evalItems_mirrors (quiet : Bool) (layout : List Bytes) (start : Nat) :
    ∀ (items : List (Item (Body α))) (slots : List (Spanned Value)) (last : Spanned Value)
      (c : Cursor), c.input = scene.input →
      Mirrors scene call call' quiet (evalItems scene call quiet layout start items slots last c)
        (fun m => traceItems (scene.basis store) (call' m) layout start items slots last c)
        (ItemsResult.On scene.input)
  | [], slots, last, c, hc => by
    unfold evalItems traceItems
    exact Mirrors.pure hc
  | item :: rest, slots, _, c, hc => by
    unfold evalItems traceItems
    refine (evalItem_mirrors quiet ⟨slots, layout, start⟩ item c hc).bind fun r hr => ?_
    cases r with
    | failure offset => exact Mirrors.item c.offset trivial
    | success tree next => exact evalItems_mirrors quiet layout start rest _ tree next hr
termination_by structural items => items

theorem evalItem_mirrors (quiet : Bool) (frame : Frame) :
    ∀ (item : Item (Body α)) (c : Cursor), c.input = scene.input →
      Mirrors scene call call' quiet (evalItem scene call quiet frame item c)
        (fun m => traceItem (scene.basis store) (call' m) frame item c) (Result.On scene.input)
  | ⟨_, _, lookahead, body, repetition, _, _⟩, c, hc => by
    unfold evalItem traceItem
    refine lookaround_mirrors quiet lookahead _ hc ?_
    exact repeated_mirrors (evalBody_mirrors _ frame body) repetition hc
termination_by structural item => item

end

theorem evalRule_mirrors (quiet : Bool) (rule : Rule α) {c : Cursor} (hc : c.input = scene.input) :
    Mirrors scene call call' quiet (evalRule scene call quiet rule c)
      (fun m => traceRule (scene.basis store) (call' m) rule c) (Result.On scene.input) := by
  unfold evalRule traceRule
  cases rule.matcher with
  | none =>
    refine (evalExpr_mirrors hpure hstore quiet rule.body none c hc).bind fun r hr => ?_
    cases r with
    | failure offset => exact Mirrors.pure trivial
    | success tree next =>
      simp only
      split
      · exact Mirrors.pure hr
      · exact Mirrors.pure hr
  | some i =>
    simp only [Scene.grammar_basis]
    cases scene.grammar.matchers[i]? with
    | none => exact Mirrors.fault .outOfRange
    | some matcher =>
      refine (Mirrors.answer (matcher c)).bind fun answer _ => ?_
      cases answer with
      | failure offset => exact (Mirrors.note c.offset rule.name).bind fun _ _ => Mirrors.pure trivial
      | success v taken => exact Mirrors.pure ((Cursor.input_advance c taken).trans hc)

end Expressions

/-! ## Rules -/

/-- **The evaluator follows the evaluation without state.** -/
theorem callRule_tracks (hpure : scene.client.Pure scene.input)
    (hstore : store.locator.Exact scene.input scene.settings.tabs) (depth : Nat) :
    Simulates scene store depth (callRule scene depth) (traceCall (scene.basis store)) := by
  induction depth with
  | zero =>
    intro quiet index c hc
    unfold callRule
    cases hrule : scene.grammar.rules[index]? with
    | none =>
      simp only [traceCall_none (show (scene.basis store).grammar.rules[index]? = none from hrule)]
      exact Tracks.fault .outOfRange
    | some rule =>
      refine Tracks.remembering hc (Tracks.hooked _ ?_)
      exact Tracks.exhaust (traceCall_zero hrule c)
  | succ depth ih =>
    intro quiet index c hc
    unfold callRule
    cases hrule : scene.grammar.rules[index]? with
    | none =>
      simp only [traceCall_none (show (scene.basis store).grammar.rules[index]? = none from hrule)]
      exact Tracks.fault .outOfRange
    | some rule =>
      refine Tracks.remembering hc (Tracks.hooked _ (Tracks.keeping hc (Tracks.deepen ?_)))
      simp only [traceCall_succ (show (scene.basis store).grammar.rules[index]? = some rule from hrule)]
      exact (evalRule_mirrors hpure hstore quiet rule hc).tracks ih

end Evaluator

end Packrat
