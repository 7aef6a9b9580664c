import Packrat.Proofs.Journal
import Packrat.Proofs.Machine
import Packrat.Proofs.Primitives

/-!
# `Packrat.Proofs.Termination` — every parse ends

The machine of `Packrat.Proofs.Machine` does what the evaluator does, so it ends as the evaluator ends, which
does so by construction. Calls are bounded by the depth that is left, groups by the syntax, and repetitions by
the input that is left: what is repeated goes forward, and so does every result that is kept.

## Contents
- **Reach.** Results lie at or behind the place of the attempt, and so do kept ones.
- **Agreement.** `Follows`: from a machine with so much depth left, a run ends as an evaluation does and leaves
  the counters where they were. One rule for each way to build a run.
- **Evaluation.** `runBody_follows` and its companions, on the structure of an expression.
- **Rules.** `runCall_follows`, on the depth that is left.
- **Parsing.** `runParse_ends`.
-/

namespace Packrat

variable {α β γ σ : Type}

-- the linter does not see an assumption that only a companion of a mutual block uses
set_option linter.unusedSectionVars false

/-! ## Reach -/

/-- A result lies at or behind an offset, on an input no longer than `reach`. -/
def Result.Within (reach offset : Nat) : Result → Prop
  | .success _ next => offset ≤ next.offset ∧ next.input.length ≤ reach
  | .failure _ => True

/-- So do the items of a sequence. -/
def ItemsResult.Within (reach offset : Nat) : ItemsResult → Prop
  | .success _ _ next => offset ≤ next.offset ∧ next.input.length ≤ reach
  | .failure _ => True

/-- Every result that is kept lies at or behind the place that it is kept for. -/
def Memo.Within (reach : Nat) (memo : Memo) : Prop :=
  ∀ (index offset : Nat) (r : Result), memo[(index, offset)]? = some r → r.Within reach offset

theorem Memo.within_empty (reach : Nat) : Memo.Within reach ∅ := by
  intro index offset r hr
  rw [Std.HashMap.getElem?_empty] at hr
  cases hr

theorem Memo.Within.insertIfNew {reach : Nat} {memo : Memo} (h : Memo.Within reach memo) (index : Nat) {offset : Nat}
    {r : Result} (hr : r.Within reach offset) : Memo.Within reach (memo.insertIfNew (index, offset) r) := by
  intro index' offset' r' hr'
  rw [Std.HashMap.getElem?_insertIfNew] at hr'
  by_cases hnew : ((index, offset) == (index', offset')) = true ∧ (index, offset) ∉ memo
  · rw [if_pos hnew] at hr'
    have hkey : (index, offset) = (index', offset') := eq_of_beq hnew.1
    cases hkey
    cases hr'
    exact hr
  · rw [if_neg hnew] at hr'
    exact h index' offset' r' hr'

theorem Result.Within.mono {reach reach' offset offset' : Nat} {r : Result} (h : r.Within reach offset')
    (hreach : reach ≤ reach') (hle : offset ≤ offset') : r.Within reach' offset := by
  cases r with
  | success tree next => exact ⟨Nat.le_trans hle h.1, Nat.le_trans h.2 hreach⟩
  | failure offset => trivial

theorem Result.within_advance {reach : Nat} {c : Cursor} (hc : c.input.length ≤ reach) (tree : Spanned Value)
    (n : Nat) : (Result.success tree (c.advance n)).Within reach c.offset := by
  have hle := c.offset_le
  refine ⟨?_, ?_⟩
  · rw [Cursor.offset_advance]
    omega
  · rw [Cursor.input_advance]
    exact hc

/-- A test stays where it is. -/
theorem Result.Within.judge {reach : Nat} {c : Cursor} {r : Result} (hc : c.input.length ≤ reach)
    (hr : r.Within reach c.offset) (lookahead : Lookahead) (asCondition : Bool) :
    (lookahead.judge asCondition c r).Within reach c.offset := by
  have hstay : ∀ tree, (Result.success tree c).Within reach c.offset := fun _ => ⟨Nat.le_refl _, hc⟩
  cases r with
  | failure offset =>
    cases lookahead with
    | none => trivial
    | ahead => trivial
    | notAhead => exact hstay _
  | success tree next =>
    cases lookahead with
    | none => exact hr
    | ahead =>
      unfold Lookahead.judge
      by_cases hfalse : (asCondition && !tree.value.truthy) = true
      · simp only [if_pos hfalse]
        trivial
      · simp only [if_neg hfalse]
        exact hstay _
    | notAhead =>
      unfold Lookahead.judge
      by_cases hfalse : (asCondition && !tree.value.truthy) = true
      · simp only [if_pos hfalse]
        exact hstay _
      · simp only [if_neg hfalse]
        trivial

/-! ## Agreement -/

/-- A machine serves an evaluation: it runs the same scene, with so much depth left, inside or outside of
lookaheads, and its memo is within reach. -/
structure Machine.Serves (m : Machine σ) (scene : Scene α σ) (depth : Nat) (quiet : Bool) : Prop where
  settings : m.env.settings = scene.settings
  parsing : m.env.parsing = scene.parsing
  input : m.input = scene.input
  depth : m.callDepth + depth = scene.settings.maxDepth
  quiet : m.quiet = quiet
  memo : Memo.Within scene.reach m.trail.memo

/-- A run follows an evaluation, whose answers satisfy `Q`: it ends as that does, with the same progress, and
nothing else has changed but the number of calls that were in progress, which stays within the depth. -/
def Follows (scene : Scene α σ) (depth : Nat) (quiet : Bool) (x : MachineM σ β) (y : EvalM σ β)
    (Q : β → Prop) : Prop :=
  ∀ m : Machine σ, m.Serves scene depth quiet → ∃ peak,
    x.run.run m = some ((y.run.run m.progress).1,
      { m.withProgress (y.run.run m.progress).2 with peak }) ∧
    peak ≤ max m.peak scene.settings.maxDepth ∧
    Memo.Within scene.reach (y.run.run m.progress).2.trail.memo ∧
    ∀ b, (y.run.run m.progress).1 = .ok b → Q b

section Rules

variable {scene : Scene α σ} {depth : Nat} {quiet : Bool} {x : MachineM σ β} {y : EvalM σ β} {Q : β → Prop}
  {m : Machine σ}

theorem Machine.Serves.scene_eq (h : m.Serves scene depth quiet) :
    m.scene scene.grammar scene.client = { scene with reach := 0 } := by
  unfold Machine.scene
  rw [h.settings, h.parsing, h.input]

/-- A machine goes on serving after some progress. -/
theorem Machine.Serves.withProgress (h : m.Serves scene depth quiet) {p : Progress σ}
    (hp : Memo.Within scene.reach p.trail.memo) (peak : Nat) :
    ({ m.withProgress p with peak } : Machine σ).Serves scene depth quiet :=
  ⟨h.settings, h.parsing, h.input, h.depth, h.quiet, hp⟩

namespace Follows

theorem locally {x : Machine σ → EvalM σ β} (hx : ∀ m : Machine σ, m.Serves scene depth quiet → x m = y)
    (hy : Keeps (Memo.Within scene.reach) y Q) : Follows scene depth quiet (locally x) y Q := by
  intro m hm
  obtain ⟨hmemo, hQ⟩ := hy m.progress hm.memo
  refine ⟨m.peak, ?_, Nat.le_max_left _ _, hmemo, hQ⟩
  rw [run_locally, hx m hm]
  rfl

theorem pure {b : β} (hb : Q b) : Follows scene depth quiet (Pure.pure b) (Pure.pure b) Q := by
  intro m hm
  refine ⟨m.peak, rfl, Nat.le_max_left _ _, hm.memo, ?_⟩
  intro b' hb'
  cases hb'
  exact hb

theorem fault (e : Fault) : Follows scene depth quiet (throw e) (throw e) Q := by
  intro m hm
  refine ⟨m.peak, rfl, Nat.le_max_left _ _, hm.memo, ?_⟩
  intro b hb
  cases hb

theorem bind {k : β → MachineM σ γ} {l : β → EvalM σ γ} {R : γ → Prop} (hx : Follows scene depth quiet x y Q)
    (hk : ∀ b, Q b → Follows scene depth quiet (k b) (l b) R) :
    Follows scene depth quiet (x >>= k) (y >>= l) R := by
  intro m hm
  obtain ⟨peak, hrun, hpeak, hmemo, hQ⟩ := hx m hm
  cases hy : y.run.run m.progress with
  | mk answer p =>
    rw [hy] at hrun hmemo hQ
    cases answer with
    | error e =>
      rw [Machine.run_bind_error hrun, run_bind_error hy]
      refine ⟨peak, rfl, hpeak, hmemo, ?_⟩
      intro c hc
      cases hc
    | ok b =>
      obtain ⟨peak', hrun', hpeak', hmemo', hR⟩ := hk b (hQ b rfl) _ (hm.withProgress hmemo peak)
      rw [Machine.run_bind_ok hrun, run_bind_ok hy]
      exact ⟨peak', hrun', Nat.le_trans hpeak' (Nat.max_le.mpr ⟨hpeak, Nat.le_max_right _ _⟩), hmemo', hR⟩

theorem weaken {R : β → Prop} (hx : Follows scene depth quiet x y Q) (hQR : ∀ b, Q b → R b) :
    Follows scene depth quiet x y R := by
  intro m hm
  obtain ⟨peak, hrun, hpeak, hmemo, hQ⟩ := hx m hm
  exact ⟨peak, hrun, hpeak, hmemo, fun b hb => hQR b (hQ b hb)⟩

/-- Inside a lookahead everything is quiet. -/
theorem lookahead (hx : Follows scene depth true x y Q) :
    Follows scene depth quiet
      (modify Machine.enterLookahead >>= fun _ => guarded Machine.leaveLookahead x) y Q := by
  intro m hm
  have hinside : m.enterLookahead.Serves scene depth true :=
    ⟨hm.settings, hm.parsing, hm.input, hm.depth, decide_eq_true (Nat.succ_pos _), hm.memo⟩
  obtain ⟨peak, hrun, hpeak, hmemo, hQ⟩ := hx _ hinside
  refine ⟨peak, ?_, hpeak, hmemo, hQ⟩
  rw [Machine.run_modify_bind, run_guarded hrun]
  rfl

/-- A rule call takes one unit of the depth that is left. -/
theorem call (hx : Follows scene depth quiet x y Q) :
    Follows scene (depth + 1) quiet
      (modify Machine.enterCall >>= fun _ => guarded Machine.leaveCall x) y Q := by
  intro m hm
  have hdepth := hm.depth
  have hinside : m.enterCall.Serves scene depth quiet :=
    ⟨hm.settings, hm.parsing, hm.input, by rw [← hdepth]; show m.callDepth + 1 + depth = _; omega, hm.quiet,
      hm.memo⟩
  obtain ⟨peak, hrun, hpeak, hmemo, hQ⟩ := hx _ hinside
  refine ⟨peak, ?_, Nat.le_trans hpeak ?_, hmemo, hQ⟩
  · rw [Machine.run_modify_bind, run_guarded hrun]
    rfl
  · show max (max m.peak (m.callDepth + 1)) scene.settings.maxDepth ≤ _
    omega

/-- Where depth is left, a call goes through. -/
theorem permitted (hx : Follows scene (depth + 1) quiet x y Q) :
    Follows scene (depth + 1) quiet
      (get >>= fun m => if m.env.settings.maxDepth ≤ m.callDepth then throw .callDepth else x) y Q := by
  intro m hm
  have hdepth := hm.depth
  have hleft : ¬m.env.settings.maxDepth ≤ m.callDepth := by
    rw [hm.settings]
    omega
  obtain ⟨peak, hrun, hrest⟩ := hx m hm
  refine ⟨peak, ?_, hrest⟩
  rw [Machine.run_get_bind, if_neg hleft]
  exact hrun

/-- Where none is left, it does not. -/
theorem refused : Follows scene 0 quiet
    (get >>= fun m => if m.env.settings.maxDepth ≤ m.callDepth then throw .callDepth else x) (throw .callDepth)
    Q := by
  intro m hm
  have hdepth := hm.depth
  have hnone : m.env.settings.maxDepth ≤ m.callDepth := by
    rw [hm.settings]
    omega
  obtain ⟨peak, hrun, hrest⟩ := fault .callDepth m hm
  refine ⟨peak, ?_, hrest⟩
  rw [Machine.run_get_bind, if_pos hnone]
  exact hrun

end Follows

end Rules

/-! ## Host expressions -/

/-- Asking actions leaves the memo alone. -/
theorem Asks.keeps {scene : Scene α σ} {I : Memo → Prop} {y : EvalM σ β} (h : Asks scene y) :
    Keeps I y (fun _ => True) := by
  intro p hp
  rw [h.trail p]
  exact ⟨hp, fun _ _ => trivial⟩

section Host

variable (scene : Scene α σ) (reach : Nat)

mutual

/-- The reach is for repetitions only. -/
theorem evalHost_reach (frame : Frame) (stop : Nat) :
    ∀ node : HostNode α, evalHost { scene with reach } frame stop node = evalHost scene frame stop node
  | .ref _ slot => rfl
  | .const v => rfl
  | .matched => rfl
  | .native a => rfl
  | .call name args constructs action => by
    unfold evalHost
    rw [evalArgs_reach frame stop args]
termination_by structural node => node

theorem evalArgs_reach (frame : Frame) (stop : Nat) :
    ∀ args : List (Host α), evalArgs { scene with reach } frame stop args = evalArgs scene frame stop args
  | [] => rfl
  | ⟨node, pos⟩ :: rest => by
    have hnode := evalHost_reach frame stop node
    have hrest := evalArgs_reach frame stop rest
    cases node with
    | ref name slot => simp only [evalArgs, hrest]
    | const v => simp only [evalArgs, hnode, hrest]
    | matched => simp only [evalArgs, hnode, hrest]
    | native a => simp only [evalArgs, hnode, hrest]
    | call name args constructs action => simp only [evalArgs, hnode, hrest]
termination_by structural args => args

end

theorem evalSegments_reach (frame : Frame) (stop : Nat) (segments : List (Segment α)) :
    evalSegments { scene with reach } frame stop segments = evalSegments scene frame stop segments := by
  induction segments with
  | nil => rfl
  | cons segment rest ih =>
    cases segment with
    | spelling text => simp only [evalSegments, ih]
    | code host => simp only [evalSegments, ih, evalHost_reach]

theorem sequenceValue_reach (items : List (Item (Body α))) (action : Option (Host α)) (layout : List Bytes)
    (c : Cursor) (slots : List (Spanned Value)) (last : Spanned Value) (next : Cursor) :
    sequenceValue { scene with reach } items action layout c slots last next
      = sequenceValue scene items action layout c slots last next := by
  unfold sequenceValue
  cases action with
  | some host => simp only [evalHost_reach]
  | none => rfl

end Host

/-! ## Evaluation -/

section Evaluator

variable {scene : Scene α σ} {depth : Nat} {quiet : Bool}

theorem terminal_follows {c : Cursor} (hc : c.input.length ≤ scene.reach) (label : Bytes)
    (taken : Option Nat) :
    Follows scene depth quiet (locally fun m => terminal m.quiet c label taken) (terminal quiet c label taken)
      (Result.Within scene.reach c.offset) := by
  refine .locally (fun m hm => by rw [hm.quiet]) ?_
  cases taken with
  | some n => exact Keeps.pure (Result.within_advance hc _ n)
  | none =>
    intro p hp
    obtain ⟨hmemo, hanswer⟩ := Keeps.terminal_none quiet c label p hp
    refine ⟨hmemo, ?_⟩
    intro r hr
    rw [hanswer r hr]
    trivial

/-- Host expressions are evaluated as they stand. -/
theorem asks_follows {x : Machine σ → EvalM σ β} {y : EvalM σ β}
    (hx : ∀ m : Machine σ, m.Serves scene depth quiet → x m = y) (hy : Asks scene y) :
    Follows scene depth quiet (locally x) y (fun _ => True) :=
  .locally hx hy.keeps

/-- A way to call rules follows another one, and goes forward. -/
def CallFollows (scene : Scene α σ) (depth : Nat) (call : Nat → Cursor → MachineM σ Result)
    (call' : Bool → Nat → Step σ) : Prop :=
  ∀ quiet i c, c.input.length ≤ scene.reach →
    Follows scene depth quiet (call i c) (call' quiet i c) (Result.Within scene.reach c.offset)

section Repetition

variable {frame : Frame} {body : Body α} {step : Step σ}
  (hstep : ∀ c : Cursor, c.input.length ≤ scene.reach →
    Follows scene depth quiet ((runBody scene.grammar scene.client).run (frame, body, c)) (step c)
      (Result.Within scene.reach c.offset))

include hstep

/-- The fuel of a repetition suffices: every round but the last one goes forward, and there is an end to the
input. -/
theorem runLoop_follows (fuel start : Nat) (collected : List (Spanned Value)) {c : Cursor}
    (hc : c.input.length ≤ scene.reach) (hfuel : scene.reach < fuel + c.offset) :
    Follows scene depth quiet ((runLoop scene.grammar scene.client).run (frame, body, start, collected, c))
      (collect step fuel collected c >>= fun x =>
        pure (.success ⟨.list x.1, start, x.2.offset⟩ x.2))
      (Result.Within scene.reach c.offset) := by
  induction fuel generalizing collected c with
  | zero =>
    have hle := c.offset_le
    omega
  | succ fuel ih =>
    have hstay : (Result.success ⟨.list collected.reverse, start, c.offset⟩ c).Within scene.reach c.offset :=
      ⟨Nat.le_refl _, hc⟩
    rw [ReaderT.run, runLoop, collect, bind_assoc]
    refine (hstep c hc).bind fun r hr => ?_
    cases r with
    | failure offset =>
      simp only [pure_bind]
      exact Follows.pure hstay
    | success tree next =>
      by_cases hidle : next.offset = c.offset
      · simp only [if_pos hidle, pure_bind]
        exact Follows.pure hstay
      · simp only [if_neg hidle]
        have hforward : c.offset < next.offset := Nat.lt_of_le_of_ne hr.1 (Ne.symm hidle)
        exact (ih (tree :: collected) hr.2 (by omega)).weaken fun r' hr' => hr'.mono (Nat.le_refl _) hr.1

theorem runSuffixed_follows (repetition : Repetition) {c : Cursor} (hc : c.input.length ≤ scene.reach) :
    Follows scene depth quiet ((runSuffixed scene.grammar scene.client).run (frame, body, repetition, c))
      (repeated scene.reach repetition step c) (Result.Within scene.reach c.offset) := by
  cases repetition with
  | once =>
    rw [ReaderT.run, runSuffixed]
    exact hstep c hc
  | optional =>
    rw [ReaderT.run, runSuffixed]
    refine (hstep c hc).bind fun r hr => ?_
    cases r with
    | failure offset => exact Follows.pure ⟨Nat.le_refl _, hc⟩
    | success tree next => exact Follows.pure hr
  | star =>
    rw [ReaderT.run, runSuffixed]
    exact runLoop_follows hstep _ _ _ hc (by omega)
  | plus =>
    rw [ReaderT.run, runSuffixed]
    refine (hstep c hc).bind fun r hr => ?_
    cases r with
    | failure offset => exact Follows.pure trivial
    | success tree next =>
      exact (runLoop_follows hstep _ _ [tree] hr.2 (by omega)).weaken fun r' hr' => hr'.mono (Nat.le_refl _) hr.1

end Repetition

section Expressions

variable {call : Bool → Nat → Step σ}
  (hcall : CallFollows scene depth (runCall scene.grammar scene.client) call)

include hcall

mutual

theorem runBody_follows (quiet : Bool) (frame : Frame) :
    ∀ (body : Body α) (c : Cursor), c.input.length ≤ scene.reach →
      Follows scene depth quiet ((runBody scene.grammar scene.client).run (frame, body, c))
        (evalBody scene call quiet frame body c) (Result.Within scene.reach c.offset)
  | .code host, c, hc => by
    rw [ReaderT.run, runBody, evalBody]
    refine (asks_follows (fun m hm => ?_) (evalHost_asks scene frame c.offset host.node)).bind fun v _ => ?_
    · rw [hm.scene_eq, evalHost_reach]
    · exact Follows.pure ⟨Nat.le_refl _, hc⟩
  | .call _ decorated none, c, hc => by
    rw [ReaderT.run, runBody, evalBody]
    exact Follows.fault _
  | .call _ decorated (some i), c, hc => by
    rw [ReaderT.run, runBody, evalBody]
    unfold evalCall
    refine (hcall quiet i c hc).bind fun r hr => ?_
    cases r with
    | failure offset => exact Follows.pure trivial
    | success tree next =>
      simp only
      cases scene.grammar.rules[i]? with
      | none => exact Follows.fault _
      | some rule =>
        by_cases htag : (decorated && !rule.decorated) = true
        · simp only [if_pos htag]
          exact Follows.pure hr
        · simp only [if_neg htag]
          exact Follows.pure hr
  | .group alternatives, c, hc => by
    rw [ReaderT.run, runBody, evalBody]
    exact runExpr_follows quiet alternatives none c hc
  | .literal spelling caseless braceSensitive, c, hc => by
    rw [ReaderT.run, runBody, evalBody]
    exact terminal_follows hc _ _
  | .interpolated segments caseless, c, hc => by
    rw [ReaderT.run, runBody, evalBody]
    refine (asks_follows (fun m hm => ?_) (evalSegments_asks scene frame c.offset segments)).bind fun text _ => ?_
    · rw [hm.scene_eq, evalSegments_reach]
    · exact terminal_follows hc _ _
  | .cls cls, c, hc => by
    rw [ReaderT.run, runBody, evalBody]
    exact terminal_follows hc _ _
  | .any, c, hc => by
    rw [ReaderT.run, runBody, evalBody]
    exact terminal_follows hc _ _
termination_by structural body => body

theorem runExpr_follows (quiet : Bool) :
    ∀ (alternatives : List (Sequence α (Body α))) (earliest : Option Nat) (c : Cursor),
      c.input.length ≤ scene.reach →
      Follows scene depth quiet ((runExpr scene.grammar scene.client).run (alternatives, earliest, c))
        (evalExpr scene call quiet alternatives earliest c) (Result.Within scene.reach c.offset)
  | [], earliest, c, hc => by
    rw [ReaderT.run, runExpr, evalExpr]
    exact Follows.pure trivial
  | seq :: rest, earliest, c, hc => by
    rw [ReaderT.run, runExpr, evalExpr]
    refine (runSequence_follows quiet seq c hc).bind fun r hr => ?_
    cases r with
    | success tree next => exact Follows.pure hr
    | failure offset => exact runExpr_follows quiet rest _ c hc
termination_by structural alternatives => alternatives

theorem runSequence_follows (quiet : Bool) :
    ∀ (seq : Sequence α (Body α)) (c : Cursor), c.input.length ≤ scene.reach →
      Follows scene depth quiet ((runSequence scene.grammar scene.client).run (seq, c))
        (evalSequence scene call quiet seq c) (Result.Within scene.reach c.offset)
  | ⟨items, action, layout, _⟩, c, hc => by
    rw [ReaderT.run, runSequence, evalSequence]
    refine (runItems_follows quiet layout c.offset items _ default c hc).bind fun r hr => ?_
    cases r with
    | failure offset => exact Follows.pure trivial
    | success slots last next =>
      refine (asks_follows (fun m hm => ?_)
        (sequenceValue_asks scene items action layout c slots last next)).bind fun v _ => Follows.pure hr
      rw [hm.scene_eq, sequenceValue_reach]
termination_by structural seq => seq

theorem runItems_follows (quiet : Bool) (layout : List Bytes) (start : Nat) :
    ∀ (items : List (Item (Body α))) (slots : List (Spanned Value)) (last : Spanned Value)
      (c : Cursor), c.input.length ≤ scene.reach →
      Follows scene depth quiet ((runItems scene.grammar scene.client).run (layout, start, items, slots, last, c))
        (evalItems scene call quiet layout start items slots last c)
        (ItemsResult.Within scene.reach c.offset)
  | [], slots, last, c, hc => by
    rw [ReaderT.run, runItems, evalItems]
    exact Follows.pure ⟨Nat.le_refl _, hc⟩
  | item :: rest, slots, _, c, hc => by
    rw [ReaderT.run, runItems, evalItems]
    refine (runItem_follows quiet ⟨slots, layout, start⟩ item c hc).bind fun r hr => ?_
    cases r with
    | failure offset => exact Follows.pure trivial
    | success tree next =>
      refine (runItems_follows quiet layout start rest _ tree next hr.2).weaken fun r' hr' => ?_
      cases r' with
      | failure offset => trivial
      | success slots last next' => exact ⟨Nat.le_trans hr.1 hr'.1, hr'.2⟩
termination_by structural items => items

theorem runItem_follows (quiet : Bool) (frame : Frame) :
    ∀ (item : Item (Body α)) (c : Cursor), c.input.length ≤ scene.reach →
      Follows scene depth quiet ((runItem scene.grammar scene.client).run (frame, item, c))
        (evalItem scene call quiet frame item c) (Result.Within scene.reach c.offset)
  | ⟨_, _, lookahead, body, repetition, _, _⟩, c, hc => by
    have hsuffixed : ∀ quiet, Follows scene depth quiet
        ((runSuffixed scene.grammar scene.client).run (frame, body, repetition, c))
        (repeated scene.reach repetition (evalBody scene call quiet frame body) c)
        (Result.Within scene.reach c.offset) :=
      fun quiet => runSuffixed_follows (fun c hc => runBody_follows quiet frame body c hc) repetition hc
    rw [runItem_eq, evalItem, lookaround_eq]
    by_cases hnone : lookahead = .none
    · simp only [hnone, if_true, ne_eq, not_true_eq_false, decide_false, Bool.or_false]
      refine (hsuffixed quiet).bind fun r hr => ?_
      -- without a test it does not matter what is tested
      have hjudge : Lookahead.none.judge false c r
          = Lookahead.none.judge (body.isCode && decide (repetition = .once)) c r := by
        cases r <;> rfl
      rw [hjudge]
      exact Follows.pure (hr.judge hc _ _)
    · simp only [hnone, if_false, ne_eq, not_false_eq_true, decide_true, Bool.or_true]
      rw [← bind_assoc]
      exact (hsuffixed true).lookahead.bind fun r hr => Follows.pure (hr.judge hc _ _)
termination_by structural item => item

end

theorem runRule_follows (quiet : Bool) (rule : Rule α) {c : Cursor} (hc : c.input.length ≤ scene.reach) :
    Follows scene depth quiet ((runRule scene.grammar scene.client).run (rule, c)) (evalRule scene call quiet rule c)
      (Result.Within scene.reach c.offset) := by
  rw [ReaderT.run, runRule]
  unfold evalRule
  cases rule.matcher with
  | none =>
    refine (runExpr_follows hcall quiet rule.body none c hc).bind fun r hr => ?_
    cases r with
    | failure offset => exact Follows.pure trivial
    | success tree next =>
      by_cases hdecorated : rule.decorated = true
      · simp only [if_pos hdecorated]
        exact Follows.pure hr
      · simp only [if_neg hdecorated]
        exact Follows.pure hr
  | some i =>
    simp only
    cases scene.grammar.matchers[i]? with
    | none => exact Follows.fault _
    | some matcher =>
      refine (Follows.locally (fun _ _ => rfl) (Keeps.answer (matcher c))).bind fun answer _ => ?_
      cases answer with
      | success v taken => exact Follows.pure (Result.within_advance hc _ taken)
      | failure offset =>
        refine (Follows.locally (fun m hm => ?_) (Keeps.noteFailure quiet c.offset rule.name)).bind fun _ _ =>
          Follows.pure trivial
        rw [hm.quiet]

end Expressions

/-! ## Rules -/

/-- A kept result stands for the call, and anything else is left to what follows. -/
theorem recalling {index : Nat} {c : Cursor} {x : MachineM σ Result} {y : EvalM σ Result}
    (hx : Follows scene depth quiet x y (Result.Within scene.reach c.offset)) :
    Follows scene depth quiet
      (locally (fun m => kept? (m.scene scene.grammar scene.client) index c.offset) >>= fun found =>
        match found with
        | some r => pure r
        | none => x)
      (kept? scene index c.offset >>= fun found =>
        match found with
        | some r => pure r
        | none => y)
      (Result.Within scene.reach c.offset) := by
  have hkept : Keeps (Memo.Within scene.reach) (kept? scene index c.offset)
      (fun found => ∀ r, found = some r → r.Within scene.reach c.offset) :=
    Keeps.kept? scene fun memo r hmemo hr => hmemo index c.offset r hr
  refine (Follows.locally (fun m hm => ?_) hkept).bind fun found hfound => ?_
  · rw [hm.scene_eq]
    rfl
  · cases found with
    | some r => exact Follows.pure (hfound r rfl)
    | none => exact hx

theorem hook_follows (c : Call) (hquiet : c.quiet = quiet) :
    Follows scene depth quiet (locally fun m => onUser (scene.client.onCall { c with quiet := m.quiet }))
      (onUser (scene.client.onCall c)) (fun _ => True) := by
  refine Follows.locally (fun m hm => ?_) (Keeps.onUser _)
  rw [hm.quiet, ← hquiet]

/-- What a rule answers may be kept. -/
theorem keeping_follows {index : Nat} {c : Cursor} {x : MachineM σ Result} {y : EvalM σ Result}
    (hx : Follows scene depth quiet x y (Result.Within scene.reach c.offset)) :
    Follows scene depth quiet
      (x >>= fun r =>
        locally (fun m => keep (m.scene scene.grammar scene.client) m.quiet index c.offset r) >>= fun _ => pure r)
      (y >>= fun r => keep scene quiet index c.offset r >>= fun _ => pure r)
      (Result.Within scene.reach c.offset) := by
  refine hx.bind fun r hr => ?_
  have hkeep : Keeps (Memo.Within scene.reach) (keep scene quiet index c.offset r) (fun _ => True) :=
    Keeps.keep scene quiet fun memo hmemo => hmemo.insertIfNew index hr
  refine (Follows.locally (fun m hm => ?_) hkeep).bind fun _ _ => Follows.pure hr
  rw [hm.scene_eq, hm.quiet]
  rfl

/-- **The machine follows the evaluator.** -/
theorem runCall_follows (scene : Scene α σ) (depth : Nat) :
    CallFollows scene depth (runCall scene.grammar scene.client) (callRule scene depth) := by
  induction depth with
  | zero =>
    intro quiet index c hc
    rw [runCall_eq]
    unfold callRule
    cases scene.grammar.rules[index]? with
    | none => exact Follows.fault _
    | some rule =>
      exact recalling ((hook_follows ⟨rule.name, c.offset, quiet⟩ rfl).bind fun _ _ => Follows.refused)
  | succ depth ih =>
    intro quiet index c hc
    rw [runCall_eq]
    unfold callRule
    cases scene.grammar.rules[index]? with
    | none => exact Follows.fault _
    | some rule =>
      refine recalling ((hook_follows ⟨rule.name, c.offset, quiet⟩ rfl).bind fun _ _ => Follows.permitted ?_)
      exact (keeping_follows (runRule_follows ih quiet rule hc)).call

end Evaluator

/-! ## Parsing -/

section Parsing

variable (g : Grammar α) (client : Client α σ) (index : Nat) (input : Bytes)

/-- Parsing is refused if there are no rules, or if the environment is parsing. -/
theorem parse_of_refused (p : Parser) {env : Env σ} (h : g.isEmpty = true ∨ env.parsing = true) :
    Parser.parse p g client index input env
      = (.error (if g.isEmpty then .ofIssue .empty else .reentrant), env, p) := by
  unfold Parser.parse
  by_cases hempty : g.isEmpty = true
  · rw [if_pos hempty, if_pos hempty]
  · rw [if_neg hempty, if_neg hempty, if_pos (h.resolve_left hempty)]

/-- A machine that is refused is left as it is. -/
theorem runParse_refused {m : Machine σ} (h : g.isEmpty = true ∨ m.env.parsing = true) :
    (runParse g client index input).run.run m
      = some (.error (if g.isEmpty then .ofIssue .empty else .reentrant), m) := by
  unfold runParse
  by_cases hempty : g.isEmpty = true
  · rw [if_pos hempty, if_pos hempty]
    rfl
  · rw [if_neg hempty, if_neg hempty, Machine.run_get_bind,
      if_pos (h.resolve_left hempty)]
    rfl

theorem run_report (r : Result) (m : Machine σ) :
    (runReport r).run.run m = some (match r with
      | .success tree _ => (.ok (.tree tree), m)
      | .failure offset =>
        (.ok (.failure (reportFailure m.env m.trail offset).1),
          { m with env := (reportFailure m.env m.trail offset).2 })) := by
  cases r with
  | success tree next => rfl
  | failure offset => rfl

/-- Any other machine parses as a parser does, and ends up in the same environment, outside of every call and
lookahead. -/
theorem runParse_run {m : Machine σ} (hempty : ¬g.isEmpty = true) (hparsing : ¬m.env.parsing = true)
    (p : Parser) : ∃ peak,
    (runParse g client index input).run.run m =
      some ((Parser.parse p g client index input m.env).1,
        { env := (Parser.parse p g client index input m.env).2.1, input,
          trail := (Parser.parse p g client index input m.env).2.2.trail, peak }) ∧
      peak ≤ max m.peak m.env.settings.maxDepth ∧
      Memo.Within input.length (Parser.parse p g client index input m.env).2.2.trail.memo := by
  have hserves : (m.enterParse client input).Serves (parseScene g client input m.env)
      m.env.settings.maxDepth false :=
    ⟨rfl, rfl, rfl, Nat.zero_add _, rfl, Memo.within_empty _⟩
  obtain ⟨peak, hrun, hpeak, hmemo, -⟩ := runCall_follows (parseScene g client input m.env)
    m.env.settings.maxDepth false index (Cursor.ofText input 0) (Nat.le_refl _) _ hserves
  unfold runParse Parser.parse
  rw [if_neg hempty, Machine.run_get_bind, if_neg hparsing, Machine.run_modify_bind, if_neg hempty,
    if_neg hparsing]
  -- The machine follows the evaluation of the start rule; both report its answer in the same way.
  cases hy : (callRule (parseScene g client input m.env) m.env.settings.maxDepth false index
      (Cursor.ofText input 0)).run.run (m.enterParse client input).progress with
  | mk answer progress =>
    rw [hy] at hrun hmemo
    have heval : Parser.evaluate ⟨input, input.length, {}⟩ g client index (Cursor.ofText input 0)
        (m.env.reset client input) = (answer, progress) := hy
    have hcall : (runCall g client index (Cursor.ofText input 0)).run.run (m.enterParse client input)
        = some (answer, { (m.enterParse client input).withProgress progress with peak }) := hrun
    simp only [heval]
    cases answer with
    | error fault =>
      rw [run_guarded (Machine.run_bind_error hcall)]
      exact ⟨peak, rfl, hpeak, hmemo⟩
    | ok r =>
      rw [run_guarded ((Machine.run_bind_ok hcall).trans (run_report r _))]
      cases r with
      | success tree next => exact ⟨peak, rfl, hpeak, hmemo⟩
      | failure offset => exact ⟨peak, rfl, hpeak, hmemo⟩

/-- **Every parse ends.** Whatever the grammar, the input, and the state in which an earlier use has left the
machine, there is an answer or a fault, the one that the evaluator gives. The rule calls in progress never
exceed the depth that is set. -/
theorem runParse_ends (m : Machine σ) (p : Parser) : ∃ m',
    (runParse g client index input).run.run m = some ((Parser.parse p g client index input m.env).1, m') ∧
      m'.env = (Parser.parse p g client index input m.env).2.1 ∧
      m'.peak ≤ max m.peak m.env.settings.maxDepth := by
  by_cases hrefused : g.isEmpty = true ∨ m.env.parsing = true
  · rw [runParse_refused g client index input hrefused, parse_of_refused g client index input p hrefused]
    exact ⟨m, rfl, rfl, Nat.le_max_left _ _⟩
  · obtain ⟨hempty, hparsing⟩ := not_or.mp hrefused
    obtain ⟨peak, hrun, hpeak, -⟩ := runParse_run g client index input hempty hparsing p
    exact ⟨_, hrun, rfl, hpeak⟩

end Parsing

end Packrat
