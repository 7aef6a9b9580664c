import Packrat.Proofs.Runs
import Packrat.Proofs.Trace

/-!
# `Packrat.Proofs.Primitives` — what host expressions are made of

Whatever the value of a host expression is, it comes about by asking actions. A property that actions have, and
that goes from two computations to the one after the other, therefore holds of all host expressions.

## Contents
- **Host expressions.** `Asks`: computations that ask actions only. `evalHost_asks`, `evalSegments_asks` and
  `sequenceValue_asks`, on the structure of an expression.
-/

namespace Packrat

variable {α β γ σ : Type}

-- the linter does not see an assumption that only a companion of a mutual block uses
set_option linter.unusedSectionVars false

/-- A computation that only asks actions. They know whether that is in the course of a parse. -/
inductive Asks (scene : Scene α σ) : {β : Type} → EvalM σ β → Prop
  | pure {β : Type} (b : β) : Asks scene (Pure.pure b)
  | fault {β : Type} (e : Fault) : Asks scene (throw e : EvalM σ β)
  | bind {β γ : Type} {x : EvalM σ β} {k : β → EvalM σ γ} (hx : Asks scene x) (hk : ∀ b, Asks scene (k b)) :
      Asks scene (x >>= k)
  | act (action : NamedAction α) {ctx : Context} (hparsing : ctx.parsing = scene.parsing) :
      Asks scene (onStore (scene.client.run action ctx))

/-- Actions cannot reach the trail. -/
theorem Asks.trail {scene : Scene α σ} {y : EvalM σ β} (h : Asks scene y) (p : Progress σ) :
    (y.run.run p).2.trail = p.trail := by
  induction h generalizing p with
  | pure b => rfl
  | fault e => rfl
  | act action => rfl
  | @bind β γ x k _ _ hx hk =>
    have hfirst := hx p
    cases hrun : x.run.run p with
    | mk answer p' =>
      rw [hrun] at hfirst
      cases answer with
      | error e =>
        rw [run_bind_error hrun]
        exact hfirst
      | ok b =>
        rw [run_bind_ok hrun]
        exact (hk b p').trans hfirst

section Host

variable (scene : Scene α σ)

theorem read_asks (frame : Frame) (slot : Option Nat) : Asks scene (frame.read slot) := by
  unfold Frame.read
  cases slot.bind (frame.slots[·]?) with
  | none => exact .fault _
  | some x => exact .pure x

mutual

theorem evalHost_asks (frame : Frame) (stop : Nat) :
    ∀ node : HostNode α, Asks scene (evalHost scene frame stop node)
  | .ref _ slot => by
    unfold evalHost
    exact .bind (read_asks scene frame slot) fun x => .pure x.value
  | .const v => .pure v
  | .matched => by
    unfold evalHost
    by_cases hle : frame.start ≤ scene.input.length
    · rw [if_pos hle]
      exact .pure _
    · rw [if_neg hle]
      exact .fault _
  | .native a => .act (.custom a) rfl
  | .call name args constructs action => by
    unfold evalHost
    refine .bind (evalArgs_asks frame stop args) fun fields => ?_
    by_cases hconstructs : constructs = true
    · rw [if_pos hconstructs]
      exact .pure _
    · rw [if_neg hconstructs]
      cases action.bind (scene.grammar.actions[·]?) with
      | none => exact .fault _
      | some entry => exact .act entry.2 rfl
termination_by structural node => node

theorem evalArgs_asks (frame : Frame) (stop : Nat) :
    ∀ args : List (Host α), Asks scene (evalArgs scene frame stop args)
  | [] => .pure []
  | ⟨node, pos⟩ :: rest => by
    have hnode := evalHost_asks frame stop node
    have hrest := evalArgs_asks frame stop rest
    have hother : Asks scene
        (do
          let v ← evalHost scene frame stop node
          let rest ← evalArgs scene frame stop rest
          return (([], ⟨v, frame.start, stop⟩) : Field) :: rest) :=
      .bind hnode fun v => .bind hrest fun fields => .pure _
    cases node with
    | ref name slot => exact .bind (read_asks scene frame slot) fun x => .bind hrest fun fields => .pure _
    | const v => exact hother
    | matched => exact hother
    | native a => exact hother
    | call name args constructs action => exact hother
termination_by structural args => args

end

theorem evalSegments_asks (frame : Frame) (stop : Nat) (segments : List (Segment α)) :
    Asks scene (evalSegments scene frame stop segments) := by
  induction segments with
  | nil => exact .pure _
  | cons segment rest ih =>
    cases segment with
    | spelling text => exact .bind ih fun t => .pure _
    | code host => exact .bind (evalHost_asks scene frame stop host.node) fun v => .bind ih fun t => .pure _

theorem sequenceValue_asks (items : List (Item (Body α))) (action : Option (Host α)) (layout : List Bytes)
    (c : Cursor) (slots : List (Spanned Value)) (last : Spanned Value) (next : Cursor) :
    Asks scene (sequenceValue scene items action layout c slots last next) := by
  unfold sequenceValue
  cases action with
  | some host => exact .bind (evalHost_asks scene _ _ host.node) fun v => .pure _
  | none =>
    by_cases hlayout : (!layout.isEmpty) = true
    · simp only [if_pos hlayout]
      exact .pure _
    · simp only [if_neg hlayout]
      by_cases honly : passesOn items = true
      · rw [if_pos honly]
        exact .pure _
      · rw [if_neg honly]
        exact .pure _

end Host

end Packrat
