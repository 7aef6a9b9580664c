import Packrat.Proofs.ByteOrder
import Packrat.Proofs.Simulation

/-!
# `Packrat.Proofs.Outcome` — from the evaluation of the start rule to the outcome of a parse

## Contents
- **Parses.** What a parse makes of the answer of its start rule, and how that answer comes about.
- **Reports.** Faithful states that have seen the same failures report the same.
- **Trees and failures.** What is known of a parse that has succeeded, and of one that has failed.
-/

namespace Packrat

variable {α β σ : Type}

/-! ## Parses -/

/-- What stays fixed during a parse. -/
def parseScene (g : Grammar α) (client : Client α σ) (input : Bytes) (env : Env σ) : Scene α σ :=
  ⟨g, client, env.settings, true, input, input.length⟩

/-- What a parse with pure actions depends on. -/
def parseBasis (g : Grammar α) (client : Client α σ) (input : Bytes) (env : Env σ) : Basis α :=
  (parseScene g client input env).basis (env.reset client input).store

/-- What a parse makes of the answer of its start rule. -/
def outcomeOf (settings : Settings) (answer : Except Fault Result) (p : Progress σ) :
    Except Fault Outcome :=
  match answer with
  | .error f => .error f
  | .ok (.success tree _) => .ok (.tree tree)
  | .ok (.failure offset) => .ok (.failure (reportFailure ⟨settings, false, p.store⟩ p.trail offset).1)

section Parses

variable {g : Grammar α} {client : Client α σ} {index : Nat} {input : Bytes} {env : Env σ}

/-- A parse that is refused has no outcome. -/
theorem not_refused_of_parse {p : Parser} {outcome : Outcome}
    (h : (Parser.parse p g client index input env).1 = .ok outcome) :
    ¬g.isEmpty = true ∧ ¬env.parsing = true := by
  unfold Parser.parse at h
  by_cases hempty : g.isEmpty = true
  · rw [if_pos hempty] at h
    cases h
  · by_cases hparsing : env.parsing = true
    · rw [if_neg hempty, if_pos hparsing] at h
      cases h
    · exact ⟨hempty, hparsing⟩

theorem parse_eq_outcomeOf (p : Parser) (hempty : ¬g.isEmpty = true) (hparsing : ¬env.parsing = true)
    {answer : Except Fault Result} {progress : Progress σ}
    (hrun : (callRule (parseScene g client input env) env.settings.maxDepth false index
      (Cursor.ofText input 0)).run.run ⟨(env.reset client input).store, {}⟩ = (answer, progress)) :
    (Parser.parse p g client index input env).1 = outcomeOf env.settings answer progress := by
  have heval : Parser.evaluate ⟨input, input.length, {}⟩ g client index (Cursor.ofText input 0)
      (env.reset client input) = (answer, progress) := hrun
  unfold Parser.parse
  rw [if_neg hempty, if_neg hparsing]
  simp only [heval]
  cases answer with
  | error f => rfl
  | ok r =>
    cases r with
    | success tree next => rfl
    | failure offset => rfl

/-- The start rule of a parse with pure actions follows its evaluation without state. -/
theorem parse_tracks (g : Grammar α) (index : Nat) (env : Env σ) (hpure : client.Pure input) :
    Tracks (parseScene g client input env) (env.reset client input).store env.settings.maxDepth false
      (callRule (parseScene g client input env) env.settings.maxDepth false index
        (Cursor.ofText input 0))
      (fun m => traceCall (parseBasis g client input env) m index (Cursor.ofText input 0))
      (Result.On input) := by
  have hpure' : (parseScene g client input env).client.Pure (parseScene g client input env).input := hpure
  have hlocator : (env.reset client input).store.locator.Exact (parseScene g client input env).input
      (parseScene g client input env).settings.tabs := Locator.exact_ofText _ _
  exact callRule_tracks hpure' hlocator env.settings.maxDepth false index (Cursor.ofText input 0) rfl

/-- So the outcome of the parse is made from a verdict, in a state faithful to the failures. -/
theorem parse_verdict (g : Grammar α) (index : Nat) (env : Env σ) (hpure : client.Pure input)
    (p : Parser) (hempty : ¬g.isEmpty = true) (hparsing : ¬env.parsing = true) : ∃ failures answer progress,
    (Parser.parse p g client index input env).1 = outcomeOf env.settings answer progress ∧
      Verdict (parseScene g client input env) env.settings.maxDepth
        (fun m => traceCall (parseBasis g client input env) m index (Cursor.ofText input 0))
        (Result.On input) failures answer ∧
      Faithful (parseScene g client input env) (env.reset client input).store progress failures := by
  have hstart : Faithful (parseScene g client input env) (env.reset client input).store
      ⟨(env.reset client input).store, {}⟩ [] := .start (Locator.exact_ofText _ _)
  obtain ⟨failures, answer, progress, hrun, hverdict, hend⟩ :=
    (parse_tracks g index env hpure).run _ _ hstart
  exact ⟨failures, answer, progress, parse_eq_outcomeOf p hempty hparsing hrun, hverdict, hend⟩

/-! ## Reports -/

/-- Two states in which positions are right and whose trails agree make the same outcome of an answer. -/
theorem outcomeOf_exact {settings settings' : Settings} {p p' : Progress σ} {text : Bytes}
    (htabs : settings.tabs = settings'.tabs) (h : p.store.locator.Exact text settings.tabs)
    (h' : p'.store.locator.Exact text settings'.tabs) (hfurthest : p.trail.furthest = p'.trail.furthest)
    (hexpected : ∀ label, label ∈ p.trail.expected ↔ label ∈ p'.trail.expected)
    (answer : Except Fault Result) : outcomeOf settings answer p = outcomeOf settings' answer p' := by
  cases answer with
  | error f => rfl
  | ok r =>
    cases r with
    | success tree next => rfl
    | failure offset =>
      unfold outcomeOf reportFailure Env.positionAt
      simp only [hfurthest]
      rw [h, h', htabs, Bytes.sortedUnique_congr hexpected]

/-- Behind a tree that a parse with pure actions yields stands an evaluation of the start rule that yields it. -/
theorem parse_tree (hpure : client.Pure input) (p : Parser) {tree : Spanned Value}
    (h : (Parser.parse p g client index input env).1 = .ok (.tree tree)) : ∃ n next,
      (traceCall (parseBasis g client input env) n index (Cursor.ofText input 0)).answer =
        .ok (.success tree next) := by
  obtain ⟨hempty, hparsing⟩ := not_refused_of_parse h
  obtain ⟨failures, answer, progress, houtcome, hverdict, -⟩ :=
    parse_verdict g index env hpure p hempty hparsing
  rw [houtcome] at h
  cases hverdict with
  | faulted hf => cases h
  | exhausted hf => cases h
  | interrupted hraises => cases h
  | @answered r hf hr =>
    cases r with
    | failure offset => cases h
    | success tree' next =>
      cases h
      obtain ⟨n, _, _, hsettles⟩ := hf
      exact ⟨n, next, congrArg Traced.answer (hsettles n (Nat.le_refl n))⟩

/-- Behind a failed parse with pure actions stands a failed evaluation of the start rule, and the trail sums
its failures up. -/
theorem parse_failure (hpure : client.Pure input) (p : Parser) {error : SyntaxError}
    (h : (Parser.parse p g client index input env).1 = .ok (.failure error)) :
    ∃ (failures : List Failure) (offset : Nat) (trail : Trail),
      (parseBasis g client input env).Settles index (Cursor.ofText input 0)
        ⟨failures, .ok (.failure offset)⟩ ∧
      (env.settings.memoize = false →
        traceCall (parseBasis g client input env) env.settings.maxDepth index (Cursor.ofText input 0) =
          ⟨failures, .ok (.failure offset)⟩) ∧
      trail.SumsUp failures ∧ error.offset = max trail.furthest offset ∧
      error.expected =
        if error.offset = trail.furthest then Bytes.sortedUnique trail.expected else [] := by
  obtain ⟨hempty, hparsing⟩ := not_refused_of_parse h
  obtain ⟨failures, answer, progress, houtcome, hverdict, hend⟩ :=
    parse_verdict g index env hpure p hempty hparsing
  rw [houtcome] at h
  cases hverdict with
  | faulted hf => cases h
  | exhausted hf => cases h
  | interrupted hraises => cases h
  | @answered r hf hr =>
    cases r with
    | success tree next => cases Except.ok.inj h
    | failure offset =>
      have herror : (reportFailure ⟨env.settings, false, progress.store⟩ progress.trail offset).1 = error :=
        Outcome.failure.inj (Except.ok.inj h)
      subst herror
      -- without a memo the depth that is set is itself one at which the evaluation is settled
      obtain ⟨n, _, hmemo, hsettles⟩ := hf
      refine ⟨failures, offset, progress.trail, ⟨n, hsettles⟩, fun hoff => ?_, hend.sums, rfl, rfl⟩
      rw [← hmemo hoff]
      exact hsettles n (Nat.le_refl n)

end Parses

end Packrat
