import Packrat.Proofs.Runs
import Packrat.Proofs.Trace

/-!
# `Packrat.Proofs.Lockstep` — one evaluation under two stagings

Evaluations of the same rule at the same place take the same steps, whatever the host program is and whatever
its actions are told about the settings: they ask actions, call the hook and use the trail in the same order.
If the limits on the depth differ, the evaluation with the lower one may end earlier, and only for want of
depth.

## Contents
- **Stagings.** `Staging`, what may differ, and `Paired`, with one constructor for each thing that an evaluation
  does. `Scene.Raises`: the faults that it raises on its own.
- **The evaluator.** `callRule_paired` and what leads to it, on the structure of an expression and on the depth.
- **Pairs of runs.** `Couples`: a relation between stores that actions and hooks keep while they answer alike.
  `Paired.run`: then the runs answer alike, too, and leave the same trail.
-/

namespace Packrat

variable {α β γ σ σ' : Type}

-- the linter does not see an assumption that only a companion of a mutual block uses
set_option linter.unusedSectionVars false

/-! ## Stagings -/

/-- What may differ between two evaluations that take the same steps: the host program, the limit on the depth,
and whether a parse is running. -/
structure Staging (α σ : Type) where
  client : Client α σ
  maxDepth : Nat
  parsing : Bool

/-- The same scene in another staging. -/
def Scene.staged (scene : Scene α σ) (staging : Staging α σ') : Scene α σ' :=
  ⟨scene.grammar, staging.client, { scene.settings with maxDepth := staging.maxDepth }, staging.parsing,
    scene.input, scene.reach⟩

@[simp] theorem Scene.grammar_staged (scene : Scene α σ) (staging : Staging α σ') :
    (scene.staged staging).grammar = scene.grammar := rfl

/-- The context of an action in a scene. -/
def Scene.context (scene : Scene α σ) (args : List (Spanned Value)) (names : List Bytes)
    (start stop : Nat) : Context :=
  ⟨args, names, scene.input, start, stop, scene.settings, scene.parsing⟩

/-- Reads and writes the trail. -/
def onTrail (f : Trail → β × Trail) : EvalM σ β :=
  ExceptT.mk fun p => (.ok (f p.trail).1, { p with trail := (f p.trail).2 })

/-- The faults that an evaluation raises on its own, and not because an action or the hook does. -/
inductive Scene.Raises (scene : Scene α σ) : Fault → Prop where
  /-- A place of a table or a slot that does not exist. -/
  | outOfRange : Raises scene .outOfRange
  | callDepth : Raises scene .callDepth
  | matcher {i : Nat} {matcher : Matcher} {c : Cursor} {e : Fault} (h : scene.grammar.matchers[i]? = some matcher)
      (he : matcher c = .error e) : Raises scene e

/-- Two computations that take the same steps. If `short` holds, the first may end for want of depth instead. -/
inductive Paired (scene : Scene α σ) (scene' : Scene α σ') (short : Prop) :
    {β : Type} → EvalM σ β → EvalM σ' β → Prop
  | pure {β : Type} (b : β) : Paired scene scene' short (Pure.pure b) (Pure.pure b)
  | fault {β : Type} {e : Fault} (h : scene.Raises e) : Paired scene scene' short (throw e : EvalM σ β) (throw e)
  | act (action : NamedAction α) (args : List (Spanned Value)) (names : List Bytes) (start stop : Nat) :
      Paired scene scene' short (onStore (scene.client.run action (scene.context args names start stop)))
        (onStore (scene'.client.run action (scene'.context args names start stop)))
  | hook (call : Call) :
      Paired scene scene' short (onUser (scene.client.onCall call)) (onUser (scene'.client.onCall call))
  | trail {β : Type} (f : Trail → β × Trail) : Paired scene scene' short (onTrail f) (onTrail f)
  | bind {β γ : Type} {x : EvalM σ β} {x' : EvalM σ' β} {k : β → EvalM σ γ} {k' : β → EvalM σ' γ}
      (hx : Paired scene scene' short x x') (hk : ∀ b, Paired scene scene' short (k b) (k' b)) :
      Paired scene scene' short (x >>= k) (x' >>= k')
  | exhausted {β : Type} (h : short) (y : EvalM σ' β) :
      Paired scene scene' short (throw .callDepth : EvalM σ β) y

namespace Paired

variable {scene : Scene α σ} {scene' : Scene α σ'} {short : Prop}

/-- The answer of a computation without state. -/
theorem answer {r : Except Fault β} (h : ∀ e, r = .error e → scene.Raises e) :
    Paired scene scene' short (ExceptT.mk (Pure.pure r) : EvalM σ β) (ExceptT.mk (Pure.pure r)) := by
  cases r with
  | ok b => exact pure b
  | error e => exact fault (h e rfl)

theorem noteFailure (quiet : Bool) (offset : Nat) (label : Bytes) :
    Paired scene scene' short (noteFailure quiet offset label) (noteFailure quiet offset label) := by
  cases quiet with
  | true => exact pure ()
  | false => exact .trail fun t => ((), t.note offset label)

/-- A terminal uses the trail only. -/
theorem terminal (quiet : Bool) (c : Cursor) (label : Bytes) (taken : Option Nat) :
    Paired scene scene' short (terminal quiet c label taken) (terminal quiet c label taken) := by
  cases taken with
  | some n => exact .pure _
  | none => exact .bind (.noteFailure quiet c.offset label) fun _ => .pure _

end Paired

/-! ## The evaluator -/

section Evaluator

variable (scene : Scene α σ) (staging : Staging α σ') (short : Prop)

theorem kept?_paired (index offset : Nat) : Paired scene (scene.staged staging) short
    (kept? scene index offset) (kept? (scene.staged staging) index offset) := by
  unfold kept?
  show Paired _ _ _ _ (if scene.settings.memoize then _ else _)
  cases scene.settings.memoize with
  | true => exact .trail fun t => (t.memo[(index, offset)]?, t)
  | false => exact .pure none

theorem keep_paired (quiet : Bool) (index offset : Nat) (r : Result) :
    Paired scene (scene.staged staging) short (keep scene quiet index offset r)
      (keep (scene.staged staging) quiet index offset r) := by
  unfold keep
  show Paired _ _ _ _ (if scene.settings.memoize && !quiet then _ else _)
  by_cases hkeep : (scene.settings.memoize && !quiet) = true
  · rw [if_pos hkeep, if_pos hkeep]
    exact .trail fun t => ((), { t with memo := t.memo.insertIfNew (index, offset) r })
  · rw [if_neg hkeep, if_neg hkeep]
    exact .pure ()

theorem read_paired (frame : Frame) (slot : Option Nat) :
    Paired scene (scene.staged staging) short (frame.read slot) (frame.read slot) := by
  unfold Frame.read
  cases slot.bind (frame.slots[·]?) with
  | none => exact .fault .outOfRange
  | some x => exact .pure x

mutual

theorem evalHost_paired (frame : Frame) (stop : Nat) : ∀ node : HostNode α,
    Paired scene (scene.staged staging) short (evalHost scene frame stop node)
      (evalHost (scene.staged staging) frame stop node)
  | .ref _ slot => by
    unfold evalHost
    exact .bind (read_paired scene staging short frame slot) fun x => .pure x.value
  | .const v => .pure v
  | .matched => by
    unfold evalHost
    show Paired _ _ _ _ (if frame.start ≤ scene.input.length then _ else _)
    by_cases hle : frame.start ≤ scene.input.length
    · rw [if_pos hle, if_pos hle]
      exact .pure _
    · rw [if_neg hle, if_neg hle]
      exact .fault .outOfRange
  | .native a => .act (.custom a) frame.slots frame.layout frame.start stop
  | .call name args constructs action => by
    unfold evalHost
    refine .bind (evalArgs_paired frame stop args) fun fields => ?_
    by_cases hconstructs : constructs = true
    · rw [if_pos hconstructs, if_pos hconstructs]
      exact .pure _
    · rw [if_neg hconstructs, if_neg hconstructs]
      show Paired _ _ _ _ (match action.bind (scene.grammar.actions[·]?) with
        | some (_, named) => _
        | none => _)
      cases action.bind (scene.grammar.actions[·]?) with
      | none => exact .fault .outOfRange
      | some entry => exact .act entry.2 (fields.map (·.2)) (fields.map (·.1)) frame.start stop
termination_by structural node => node

theorem evalArgs_paired (frame : Frame) (stop : Nat) : ∀ args : List (Host α),
    Paired scene (scene.staged staging) short (evalArgs scene frame stop args)
      (evalArgs (scene.staged staging) frame stop args)
  | [] => .pure []
  | ⟨node, pos⟩ :: rest => by
    have hnode := evalHost_paired frame stop node
    have hrest := evalArgs_paired frame stop rest
    -- Only a reference passes on more than its value.
    have hother : Paired scene (scene.staged staging) short
        (do
          let v ← evalHost scene frame stop node
          let rest ← evalArgs scene frame stop rest
          return (([], ⟨v, frame.start, stop⟩) : Field) :: rest)
        (do
          let v ← evalHost (scene.staged staging) frame stop node
          let rest ← evalArgs (scene.staged staging) frame stop rest
          return (([], ⟨v, frame.start, stop⟩) : Field) :: rest) :=
      .bind hnode fun v => .bind hrest fun fields => .pure _
    cases node with
    | ref name slot =>
      exact .bind (read_paired scene staging short frame slot) fun x => .bind hrest fun fields => .pure _
    | const v => exact hother
    | matched => exact hother
    | native a => exact hother
    | call name args constructs action => exact hother
termination_by structural args => args

end

theorem evalSegments_paired (frame : Frame) (stop : Nat) (segments : List (Segment α)) :
    Paired scene (scene.staged staging) short (evalSegments scene frame stop segments)
      (evalSegments (scene.staged staging) frame stop segments) := by
  induction segments with
  | nil => exact .pure _
  | cons segment rest ih =>
    cases segment with
    | spelling text => exact .bind ih fun t => .pure _
    | code host =>
      exact .bind (evalHost_paired scene staging short frame stop host.node) fun v =>
        .bind ih fun t => .pure _

theorem sequenceValue_paired (items : List (Item (Body α))) (action : Option (Host α)) (layout : List Bytes)
    (c : Cursor) (slots : List (Spanned Value)) (last : Spanned Value) (next : Cursor) :
    Paired scene (scene.staged staging) short (sequenceValue scene items action layout c slots last next)
      (sequenceValue (scene.staged staging) items action layout c slots last next) := by
  unfold sequenceValue
  cases action with
  | some host => exact .bind (evalHost_paired scene staging short _ _ host.node) fun v => .pure _
  | none =>
    by_cases hlayout : (!layout.isEmpty) = true
    · simp only [if_pos hlayout]
      exact .pure _
    · simp only [if_neg hlayout]
      by_cases honly : passesOn items = true
      · rw [if_pos honly, if_pos honly]
        exact .pure _
      · rw [if_neg honly, if_neg honly]
        exact .pure _

variable {scene staging short}

section Repetition

variable {step : Step σ} {step' : Step σ'}
  (hstep : ∀ c, Paired scene (scene.staged staging) short (step c) (step' c))

include hstep

theorem collect_paired (fuel : Nat) (collected : List (Spanned Value)) (c : Cursor) :
    Paired scene (scene.staged staging) short (collect step fuel collected c)
      (collect step' fuel collected c) := by
  induction fuel generalizing collected c with
  | zero => exact .pure _
  | succ fuel ih =>
    unfold collect
    refine .bind (hstep c) fun r => ?_
    cases r with
    | failure offset => exact .pure _
    | success tree next =>
      by_cases hidle : next.offset = c.offset
      · simp only [if_pos hidle]
        exact .pure _
      · simp only [if_neg hidle]
        exact ih _ _

theorem repeated_paired (reach : Nat) (repetition : Repetition) (c : Cursor) :
    Paired scene (scene.staged staging) short (repeated reach repetition step c)
      (repeated reach repetition step' c) := by
  cases repetition with
  | once => exact hstep c
  | optional =>
    refine .bind (hstep c) fun r => ?_
    cases r with
    | failure offset => exact .pure _
    | success tree next => exact .pure _
  | star => exact .bind (collect_paired hstep _ _ c) fun x => .pure _
  | plus =>
    refine .bind (hstep c) fun r => ?_
    cases r with
    | failure offset => exact .pure _
    | success tree next => exact .bind (collect_paired hstep _ _ next) fun x => .pure _

theorem lookaround_paired (lookahead : Lookahead) (asCondition : Bool) (c : Cursor) :
    Paired scene (scene.staged staging) short (lookaround lookahead asCondition step c)
      (lookaround lookahead asCondition step' c) := by
  rw [lookaround_eq, lookaround_eq]
  exact .bind (hstep c) fun r => .pure _

end Repetition

section Expressions

variable {call : Bool → Nat → Step σ} {call' : Bool → Nat → Step σ'}
  (hcall : ∀ quiet i c, Paired scene (scene.staged staging) short (call quiet i c) (call' quiet i c))

include hcall

theorem evalCall_paired (quiet decorated : Bool) (target : Option Nat) (c : Cursor) :
    Paired scene (scene.staged staging) short (evalCall scene call quiet decorated target c)
      (evalCall (scene.staged staging) call' quiet decorated target c) := by
  unfold evalCall
  cases target with
  | none => exact .fault .outOfRange
  | some i =>
    refine .bind (hcall quiet i c) fun r => ?_
    cases r with
    | failure offset => exact .pure _
    | success tree next =>
      simp only [Scene.grammar_staged]
      cases scene.grammar.rules[i]? with
      | none => exact .fault .outOfRange
      | some rule =>
        by_cases htag : (decorated && !rule.decorated) = true
        · simp only [if_pos htag]
          exact .pure _
        · simp only [if_neg htag]
          exact .pure _

mutual

theorem evalBody_paired (quiet : Bool) (frame : Frame) : ∀ (body : Body α) (c : Cursor),
    Paired scene (scene.staged staging) short (evalBody scene call quiet frame body c)
      (evalBody (scene.staged staging) call' quiet frame body c)
  | .code host, c => by
    rw [evalBody, evalBody]
    exact .bind (evalHost_paired scene staging short frame c.offset host.node) fun v => .pure _
  | .call _ decorated target, c => by
    rw [evalBody, evalBody]
    exact evalCall_paired hcall quiet decorated target c
  | .group alternatives, c => by
    rw [evalBody, evalBody]
    exact evalExpr_paired quiet alternatives none c
  | .literal spelling caseless braceSensitive, c => by
    rw [evalBody, evalBody]
    exact .terminal _ _ _ _
  | .interpolated segments caseless, c => by
    rw [evalBody, evalBody]
    exact .bind (evalSegments_paired scene staging short frame c.offset segments) fun text =>
      .terminal _ _ _ _
  | .cls cls, c => by
    rw [evalBody, evalBody]
    exact .terminal _ _ _ _
  | .any, c => by
    rw [evalBody, evalBody]
    exact .terminal _ _ _ _
termination_by structural body => body

theorem evalExpr_paired (quiet : Bool) :
    ∀ (alternatives : List (Sequence α (Body α))) (earliest : Option Nat) (c : Cursor),
      Paired scene (scene.staged staging) short (evalExpr scene call quiet alternatives earliest c)
        (evalExpr (scene.staged staging) call' quiet alternatives earliest c)
  | [], earliest, c => by
    rw [evalExpr, evalExpr]
    exact .pure _
  | seq :: rest, earliest, c => by
    rw [evalExpr, evalExpr]
    refine .bind (evalSequence_paired quiet seq c) fun r => ?_
    cases r with
    | success tree next => exact .pure _
    | failure offset => exact evalExpr_paired quiet rest _ c
termination_by structural alternatives => alternatives

theorem evalSequence_paired (quiet : Bool) : ∀ (seq : Sequence α (Body α)) (c : Cursor),
    Paired scene (scene.staged staging) short (evalSequence scene call quiet seq c)
      (evalSequence (scene.staged staging) call' quiet seq c)
  | ⟨items, action, layout, _⟩, c => by
    rw [evalSequence, evalSequence]
    refine .bind (evalItems_paired quiet layout c.offset items _ default c) fun r => ?_
    cases r with
    | failure offset => exact .pure _
    | success slots last next =>
      exact .bind (sequenceValue_paired scene staging short items action layout c slots last next)
        fun v => .pure _
termination_by structural seq => seq

theorem evalItems_paired (quiet : Bool) (layout : List Bytes) (start : Nat) :
    ∀ (items : List (Item (Body α))) (slots : List (Spanned Value)) (last : Spanned Value) (c : Cursor),
      Paired scene (scene.staged staging) short (evalItems scene call quiet layout start items slots last c)
        (evalItems (scene.staged staging) call' quiet layout start items slots last c)
  | [], slots, last, c => by
    rw [evalItems, evalItems]
    exact .pure _
  | item :: rest, slots, _, c => by
    rw [evalItems, evalItems]
    refine .bind (evalItem_paired quiet ⟨slots, layout, start⟩ item c) fun r => ?_
    cases r with
    | failure offset => exact .pure _
    | success tree next => exact evalItems_paired quiet layout start rest _ tree next
termination_by structural items => items

theorem evalItem_paired (quiet : Bool) (frame : Frame) : ∀ (item : Item (Body α)) (c : Cursor),
    Paired scene (scene.staged staging) short (evalItem scene call quiet frame item c)
      (evalItem (scene.staged staging) call' quiet frame item c)
  | ⟨_, _, lookahead, body, repetition, _, _⟩, c => by
    rw [evalItem, evalItem]
    have hbody : ∀ quiet c, Paired scene (scene.staged staging) short
        (evalBody scene call quiet frame body c)
        (evalBody (scene.staged staging) call' quiet frame body c) :=
      fun quiet c => evalBody_paired quiet frame body c
    exact lookaround_paired (repeated_paired (hbody _) _ _) lookahead _ c
termination_by structural item => item

end

theorem evalRule_paired (quiet : Bool) (rule : Rule α) (c : Cursor) :
    Paired scene (scene.staged staging) short (evalRule scene call quiet rule c)
      (evalRule (scene.staged staging) call' quiet rule c) := by
  unfold evalRule
  cases rule.matcher with
  | none =>
    refine .bind (evalExpr_paired hcall quiet rule.body none c) fun r => ?_
    cases r with
    | failure offset => exact .pure _
    | success tree next =>
      by_cases hdecorated : rule.decorated = true
      · simp only [if_pos hdecorated]
        exact .pure _
      · simp only [if_neg hdecorated]
        exact .pure _
  | some i =>
    simp only [Scene.grammar_staged]
    cases hmatcher : scene.grammar.matchers[i]? with
    | none => exact .fault .outOfRange
    | some matcher =>
      refine .bind (.answer fun e he => .matcher hmatcher he) fun answer => ?_
      cases answer with
      | success v taken => exact .pure _
      | failure offset => exact .bind (.noteFailure quiet c.offset rule.name) fun _ => .pure _

end Expressions

/-- **Evaluations of a rule take the same steps**, where the second may have `more` depth than the first. -/
theorem callRule_paired (scene : Scene α σ) (staging : Staging α σ') (depth more : Nat) (quiet : Bool)
    (index : Nat) (c : Cursor) :
    Paired scene (scene.staged staging) (0 < more) (callRule scene depth quiet index c)
      (callRule (scene.staged staging) (depth + more) quiet index c) := by
  induction depth generalizing quiet index c with
  | zero =>
    unfold callRule
    rw [Scene.grammar_staged]
    cases scene.grammar.rules[index]? with
    | none => exact .fault .outOfRange
    | some rule =>
      refine .bind (kept?_paired scene staging _ index c.offset) fun found => ?_
      cases found with
      | some r => exact .pure r
      | none =>
        refine .bind (.hook _) fun _ => ?_
        rw [Nat.zero_add]
        cases more with
        | zero => exact .fault .callDepth
        | succ more => exact .exhausted (Nat.zero_lt_succ more) _
  | succ depth ih =>
    rw [Nat.add_right_comm]
    unfold callRule
    rw [Scene.grammar_staged]
    cases scene.grammar.rules[index]? with
    | none => exact .fault .outOfRange
    | some rule =>
      refine .bind (kept?_paired scene staging _ index c.offset) fun found => ?_
      cases found with
      | some r => exact .pure r
      | none =>
        exact .bind (.hook _) fun _ => .bind (evalRule_paired ih quiet rule c) fun r =>
          .bind (keep_paired scene staging _ quiet index c.offset r) fun _ => .pure r

end Evaluator

/-! ## Pairs of runs -/

/-- The hooks and the actions of two scenes answer alike on related stores, and keep them related. -/
structure Couples (scene : Scene α σ) (scene' : Scene α σ') (R : Store σ → Store σ' → Prop) : Prop where
  input : scene'.input = scene.input
  hook : ∀ call {s : Store σ} {s' : Store σ'}, R s s' →
    ((scene.client.onCall call).run.run s.user).1 = ((scene'.client.onCall call).run.run s'.user).1 ∧
      R { s with user := ((scene.client.onCall call).run.run s.user).2 }
        { s' with user := ((scene'.client.onCall call).run.run s'.user).2 }
  act : ∀ a args names start stop {s : Store σ} {s' : Store σ'}, R s s' →
    ((scene.client.act a (scene.context args names start stop)).run.run s).1 =
        ((scene'.client.act a (scene'.context args names start stop)).run.run s').1 ∧
      R ((scene.client.act a (scene.context args names start stop)).run.run s).2
        ((scene'.client.act a (scene'.context args names start stop)).run.run s').2

/-- Two runs side by side: they end with the same answer and the same trail, in related stores; or, if `short`
holds, the first has ended for want of depth. -/
inductive Abreast (R : Store σ → Store σ' → Prop) (short : Prop) :
    Except Fault β × Progress σ → Except Fault β × Progress σ' → Prop
  | together {answer : Except Fault β} {s : Store σ} {s' : Store σ'} {trail : Trail} (h : R s s') :
      Abreast R short (answer, ⟨s, trail⟩) (answer, ⟨s', trail⟩)
  | exhausted {p : Progress σ} {y : Except Fault β × Progress σ'} (h : short) :
      Abreast R short (.error .callDepth, p) y

section Pairs

variable {scene : Scene α σ} {scene' : Scene α σ'} {R : Store σ → Store σ' → Prop} {short : Prop}

/-- One computation after another stays abreast if both parts do. -/
theorem Abreast.bind {x : EvalM σ β} {x' : EvalM σ' β} {k : β → EvalM σ γ} {k' : β → EvalM σ' γ}
    {p : Progress σ} {p' : Progress σ'} (hx : Abreast R short (x.run.run p) (x'.run.run p'))
    (hk : ∀ b {s : Store σ} {s' : Store σ'} {trail : Trail}, R s s' →
      Abreast R short ((k b).run.run ⟨s, trail⟩) ((k' b).run.run ⟨s', trail⟩)) :
    Abreast R short ((x >>= k).run.run p) ((x' >>= k').run.run p') := by
  cases hrun : x.run.run p with
  | mk answer q =>
    cases hrun' : x'.run.run p' with
    | mk answer' q' =>
      rw [hrun, hrun'] at hx
      cases hx with
      | @together _ s s' trail hR =>
        cases answer with
        | error e =>
          rw [run_bind_error hrun, run_bind_error hrun']
          exact .together hR
        | ok b =>
          rw [run_bind_ok hrun, run_bind_ok hrun']
          exact hk b hR
      | exhausted h =>
        rw [run_bind_error hrun]
        exact .exhausted h

/-- **Computations that take the same steps stay abreast.** -/
theorem Paired.run (hR : Couples scene scene' R) {x : EvalM σ β} {x' : EvalM σ' β}
    (h : Paired scene scene' short x x') {s : Store σ} {s' : Store σ'} (hstore : R s s') (trail : Trail) :
    Abreast R short (x.run.run ⟨s, trail⟩) (x'.run.run ⟨s', trail⟩) := by
  induction h generalizing s s' trail with
  | pure b => exact .together hstore
  | fault _ => exact .together hstore
  | act action args names start stop =>
    rw [run_onStore, run_onStore]
    cases action with
    | builtin b =>
      have hrun : b.run (scene.context args names start stop) =
          b.run (scene'.context args names start stop) := by
        unfold Scene.context
        rw [hR.input]
        cases b <;> rfl
      show Abreast R short (b.run (scene.context args names start stop), _) _
      rw [hrun]
      exact .together hstore
    | custom a =>
      obtain ⟨hanswer, hstore'⟩ := hR.act a args names start stop hstore
      show Abreast R short (((scene.client.act a _).run.run s).1, _) _
      rw [hanswer]
      exact .together hstore'
  | hook call =>
    rw [run_onUser, run_onUser]
    obtain ⟨hanswer, hstore'⟩ := hR.hook call hstore
    show Abreast R short (((scene.client.onCall call).run.run s.user).1, _) _
    rw [hanswer]
    exact .together hstore'
  | trail f => exact .together hstore
  | bind _ _ hx hk => exact (hx hstore trail).bind fun b _ _ _ hstore => hk b hstore _
  | exhausted h y => exact .exhausted h

/-- **Evaluations of a rule with the same depth end alike.** -/
theorem callRule_alike (staging : Staging α σ') (hR : Couples scene (scene.staged staging) R) (depth : Nat)
    (quiet : Bool) (index : Nat) (c : Cursor) {s : Store σ} {s' : Store σ'} (hstore : R s s')
    (trail : Trail) : ∃ answer t t' trail',
      (callRule scene depth quiet index c).run.run ⟨s, trail⟩ = (answer, ⟨t, trail'⟩) ∧
        (callRule (scene.staged staging) depth quiet index c).run.run ⟨s', trail⟩ =
          (answer, ⟨t', trail'⟩) ∧ R t t' := by
  have habreast := (callRule_paired scene staging depth 0 quiet index c).run hR hstore trail
  rw [Nat.add_zero] at habreast
  cases hrun : (callRule scene depth quiet index c).run.run ⟨s, trail⟩ with
  | mk answer p =>
    cases hrun' : (callRule (scene.staged staging) depth quiet index c).run.run ⟨s', trail⟩ with
    | mk answer' p' =>
      rw [hrun, hrun'] at habreast
      cases habreast with
      | together h => exact ⟨_, _, _, _, rfl, rfl, h⟩
      | exhausted h => exact absurd h (Nat.lt_irrefl 0)

end Pairs

end Packrat
