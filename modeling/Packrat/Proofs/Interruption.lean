import Packrat.Proofs.DepthLimit

/-!
# `Packrat.Proofs.Interruption` — an interrupted parse is the front of a whole one

A watch with a budget interrupts a parse at the first rule call too many. Up to there the parse does what it does
without a budget: an evaluation never asks how much of it is left, and nothing on the way out catches the fault. So
the calls on record are the first ones of the whole parse; and a budget that suffices changes nothing.

## Contents
- **Patience.** `Patient`: nothing but the watch interrupts a parse.
- **Without a budget.** `Paired.spared`: an evaluation is not interrupted, and adds to the record.
- **With and without one.** `Paired.curbed`: an evaluation stays with the unbounded one until it is interrupted.
- **Parsing.** `Parser.parse_interrupts_cleanly`.
-/

namespace Packrat

variable {α β σ : Type}

/-! ## Patience -/

/-- No action, no matcher and no hook of the client interrupts a parse. Any other fault is allowed. -/
structure Patient (g : Grammar α) (client : Client α σ) : Prop where
  act : ∀ a ctx store, ((client.act a ctx).run.run store).1 ≠ .error .interrupted
  matcher : ∀ matcher ∈ g.matchers, ∀ c, matcher c ≠ .error .interrupted
  hook : ¬client.HookRaises .interrupted

/-- An action that every grammar knows faults on nothing but a text that is no integer. -/
theorem Builtin.of_run_eq_error {b : Builtin} {ctx : Context} {e : Fault} (h : b.run ctx = .error e) :
    ∃ t, e = .badAccess (.integerIn t) := by
  have hinteger : ∀ t, (Value.integerOf t).map Value.int = .error e → ∃ t, e = .badAccess (.integerIn t) := by
    intro t ht
    unfold Value.integerOf at ht
    split at ht
    · cases ht
    · cases ht
      exact ⟨t, rfl⟩
  cases b with
  | text =>
    rw [run] at h
    split at h <;> cases h
  | integer =>
    rw [run] at h
    split at h
    · exact hinteger _ h
    · split at h
      · cases h
      · exact hinteger _ h
  | list => cases h
  | concat => cases h
  | length =>
    rw [run] at h
    split at h <;> cases h

/-- What an evaluation raises on its own is no interruption. -/
theorem Patient.not_raises {scene : Scene α (Watch × σ)} {client : Client α σ}
    (h : Patient scene.grammar client) : ¬scene.Raises .interrupted := by
  rintro ⟨⟩
  next hmatcher hraises => exact h.matcher _ (List.mem_of_getElem? hmatcher) _ hraises

/-! ## Without a budget -/

/-- How a run ends that starts with the given calls on record and without a budget: it is not interrupted, there is
still no budget, and its calls come on top of the record. -/
structure Spared (calls : List Call) (last : Except Fault β × Progress (Watch × σ)) : Prop where
  answer : last.1 ≠ .error .interrupted
  left : last.2.store.user.1.left = none
  calls : calls <:+ last.2.store.user.1.calls

section Evaluation

variable {scene : Scene α (Watch × σ)} {client : Client α σ} {short : Prop}
  {x x' : EvalM (Watch × σ) β}

/-- **An evaluation without a budget is not interrupted.** -/
theorem Paired.spared (hclient : scene.client = client.watched) (hpatient : Patient scene.grammar client)
    (hshort : ¬short) (h : Paired scene scene short x x') (p : Progress (Watch × σ))
    (hleft : p.store.user.1.left = none) : Spared p.store.user.1.calls (x'.run.run p) := by
  induction h generalizing p with
  | pure b => exact ⟨nofun, hleft, List.suffix_refl _⟩
  | fault hraises =>
    refine ⟨fun heq => ?_, hleft, List.suffix_refl _⟩
    cases heq
    exact hpatient.not_raises hraises
  | act action args names start stop =>
    rw [run_onStore, hclient]
    cases action with
    | builtin b =>
      refine ⟨fun heq => ?_, hleft, List.suffix_refl _⟩
      obtain ⟨t, ht⟩ := Builtin.of_run_eq_error heq
      cases ht
    | custom a => exact ⟨hpatient.act a _ ⟨p.store.locator, p.store.user.2⟩, hleft, List.suffix_refl _⟩
  | hook call =>
    obtain ⟨⟨locator, w, user⟩, trail⟩ := p
    have hleft' : w.left = none := hleft
    rw [run_onUser, hclient]
    show Spared w.calls (((client.watched.onCall call).run.run (w, user)).1,
      ⟨⟨locator, ((client.watched.onCall call).run.run (w, user)).2⟩, trail⟩)
    rw [Client.run_watched, hleft']
    -- without a budget, the watched hook raises what the hook behind it raises
    exact ⟨fun heq => hpatient.hook ⟨call, user, heq⟩, rfl, List.suffix_cons call w.calls⟩
  | trail f => exact ⟨nofun, hleft, List.suffix_refl _⟩
  | @bind β γ x x' k k' _ _ hx hk =>
    have hfirst := hx p hleft
    cases hrun : x'.run.run p with
    | mk answer p' =>
      rw [hrun] at hfirst
      cases answer with
      | error e =>
        rw [run_bind_error hrun]
        exact ⟨fun heq => hfirst.answer (congrArg Except.error (Except.error.inj heq)), hfirst.left, hfirst.calls⟩
      | ok b =>
        rw [run_bind_ok hrun]
        have hsecond := hk b p' hfirst.left
        exact ⟨hsecond.answer, hsecond.left, hfirst.calls.trans hsecond.calls⟩
  | exhausted h y => exact absurd h hshort

/-! ## With and without one -/

/-- Two stores that differ in their watches only. The first has paid for the calls on record from a budget, and the
second has none. -/
structure Curbs (budget : Nat) (s s' : Store (Watch × σ)) : Prop where
  locator : s.locator = s'.locator
  user : s.user.2 = s'.user.2
  calls : s.user.1.calls = s'.user.1.calls
  left : ∃ n, s.user.1.left = some n ∧ n + s.user.1.calls.length = budget
  unbounded : s'.user.1.left = none

/-- How an evaluation with a budget ends, beside the same one without: alike, or interrupted by one call too many, and
then the other one has at least the calls on record. -/
inductive Curbed (budget : Nat) :
    Except Fault β × Progress (Watch × σ) → Except Fault β × Progress (Watch × σ) → Prop where
  | within {answer : Except Fault β} {s s' : Store (Watch × σ)} {trail : Trail} (h : Curbs budget s s') :
      Curbed budget (answer, ⟨s, trail⟩) (answer, ⟨s', trail⟩)
  | interrupted {p p' : Progress (Watch × σ)} {answer' : Except Fault β}
      (hlength : p.store.user.1.calls.length = budget + 1)
      (hcalls : p.store.user.1.calls <:+ p'.store.user.1.calls) (hleft : p'.store.user.1.left = none) :
      Curbed budget (.error .interrupted, p) (answer', p')

/-- **Evaluations with and without a budget end alike, unless the first is interrupted.** -/
theorem Paired.curbed (hclient : scene.client = client.watched) (hpatient : Patient scene.grammar client)
    (hshort : ¬short) {budget : Nat} (h : Paired scene scene short x x') {s s' : Store (Watch × σ)}
    (hstore : Curbs budget s s') (trail : Trail) :
    Curbed budget (x.run.run ⟨s, trail⟩) (x'.run.run ⟨s', trail⟩) := by
  induction h generalizing s s' trail with
  | pure b => exact .within hstore
  | fault _ => exact .within hstore
  | act action args names start stop =>
    rw [run_onStore, run_onStore, hclient]
    cases action with
    | builtin b => exact .within hstore
    | custom a =>
      obtain ⟨locator, w, user⟩ := s
      obtain ⟨locator', w', user'⟩ := s'
      obtain ⟨hlocator, huser, hcalls, hleft, hunbounded⟩ := hstore
      cases hlocator
      cases huser
      exact .within ⟨rfl, rfl, hcalls, hleft, hunbounded⟩
  | hook call =>
    obtain ⟨locator, w, user⟩ := s
    obtain ⟨locator', w', user'⟩ := s'
    obtain ⟨hlocator, huser, hcalls, ⟨n, hleft, hpaid⟩, hunbounded⟩ := hstore
    cases hlocator
    cases huser
    rw [run_onUser, run_onUser, hclient]
    show Curbed budget (((client.watched.onCall call).run.run (w, user)).1,
        ⟨⟨locator, ((client.watched.onCall call).run.run (w, user)).2⟩, trail⟩)
      (((client.watched.onCall call).run.run (w', user)).1,
        ⟨⟨locator, ((client.watched.onCall call).run.run (w', user)).2⟩, trail⟩)
    have hleft' : w.left = some n := hleft
    have hunbounded' : w'.left = none := hunbounded
    have hcalls' : w.calls = w'.calls := hcalls
    rw [Client.run_watched, Client.run_watched, hleft', hunbounded']
    cases n with
    | zero =>
      -- the budget is used up: the call is on record all the same
      refine .interrupted ?_ ?_ rfl
      · show w.calls.length + 1 = budget + 1
        rw [← hpaid, Nat.zero_add]
      · show call :: w.calls <:+ call :: w'.calls
        exact hcalls' ▸ List.suffix_refl (call :: w.calls)
    | succ n =>
      refine .within ⟨rfl, rfl, congrArg (call :: ·) hcalls', ⟨n, rfl, ?_⟩, rfl⟩
      rw [← hpaid]
      exact (Nat.succ_add_eq_add_succ n w.calls.length).symm
  | trail f => exact .within hstore
  | @bind β γ x x' k k' _ hpaired hx hk =>
    have hfirst := hx hstore trail
    cases hrun : x.run.run ⟨s, trail⟩ with
    | mk answer p =>
      cases hrun' : x'.run.run ⟨s', trail⟩ with
      | mk answer' p' =>
        rw [hrun, hrun'] at hfirst
        cases hfirst with
        | within hstore =>
          cases answer with
          | error e =>
            rw [run_bind_error hrun, run_bind_error hrun']
            exact .within hstore
          | ok b =>
            rw [run_bind_ok hrun, run_bind_ok hrun']
            exact hk b hstore _
        | interrupted hlength hcalls hleft =>
          rw [run_bind_error hrun]
          -- the evaluation without a budget goes on, and only adds to its record
          cases answer' with
          | error e =>
            rw [run_bind_error hrun']
            exact .interrupted hlength hcalls hleft
          | ok b =>
            rw [run_bind_ok hrun']
            have hmore := (hpaired b).spared hclient hpatient hshort p' hleft
            exact .interrupted hlength (hcalls.trans hmore.calls) hmore.left
  | exhausted h y => exact absurd h hshort

end Evaluation

/-! ## Parsing -/

/-- The rule calls on record, in the order in which they were made. -/
def Env.calls (env : Env (Watch × σ)) : List Call := env.store.user.1.calls.reverse

/-- The same environment with another budget. -/
def Env.budgeted (env : Env (Watch × σ)) (budget : Option Nat) : Env (Watch × σ) :=
  { env with store := { env.store with user := (env.store.user.1.setBudget budget, env.store.user.2) } }

section Parses

variable {g : Grammar α} {client : Client α σ} {index : Nat} {input : Bytes} {env : Env (Watch × σ)}

/-- A parse ends in a fault because its start rule does. -/
theorem answer_of_outcomeOf {settings : Settings} {answer : Except Fault Result} {progress : Progress σ} {f : Fault}
    (h : outcomeOf settings answer progress = .error f) : answer = .error f := by
  cases answer with
  | error e =>
    cases h
    rfl
  | ok r => cases r <;> cases h

/-- Parses with and without a budget that are not refused come from evaluations that start in stores which only the
watches tell apart. -/
theorem parse_curbed (hpatient : Patient g client) (hempty : ¬g.isEmpty = true) (hidle : ¬env.parsing = true)
    (p q : Parser) (budget : Nat) : ∃ answer answer', ∃ progress progress' : Progress (Watch × σ),
    (Parser.parse p g client.watched index input (env.budgeted none)).1 = outcomeOf env.settings answer progress ∧
      (Parser.parse p g client.watched index input (env.budgeted none)).2.1.calls =
        progress.store.user.1.calls.reverse ∧
      (Parser.parse q g client.watched index input (env.budgeted (some budget))).1 =
        outcomeOf env.settings answer' progress' ∧
      (Parser.parse q g client.watched index input (env.budgeted (some budget))).2.1.calls =
        progress'.store.user.1.calls.reverse ∧
      Spared [] (answer, progress) ∧ Curbed budget (answer', progress') (answer, progress) := by
  obtain ⟨answer, progress, locator, hrun, hwhole⟩ :=
    parse_eq p client.watched index input hempty (show ¬(env.budgeted none).parsing = true from hidle)
  obtain ⟨answer', progress', locator', hrun', hcut⟩ :=
    parse_eq q client.watched index input hempty (show ¬(env.budgeted (some budget)).parsing = true from hidle)
  have hpaired : Paired (parseScene g client.watched input env) (parseScene g client.watched input env) (0 < 0)
      (callRule (parseScene g client.watched input env) env.settings.maxDepth false index (Cursor.ofText input 0))
      (callRule (parseScene g client.watched input env) env.settings.maxDepth false index (Cursor.ofText input 0)) :=
    callRule_paired _ ⟨client.watched, env.settings.maxDepth, true⟩ _ 0 false index _
  have hstart : Curbs budget ((env.budgeted (some budget)).reset client.watched input).store
      ((env.budgeted none).reset client.watched input).store :=
    ⟨rfl, rfl, rfl, ⟨budget, rfl, rfl⟩, rfl⟩
  have hspared := hpaired.spared rfl hpatient (Nat.lt_irrefl 0)
    ⟨((env.budgeted none).reset client.watched input).store, {}⟩ rfl
  have hcurbed := hpaired.curbed rfl hpatient (Nat.lt_irrefl 0) hstart {}
  rw [hwhole, hcut]
  refine ⟨answer, answer', progress, progress', rfl, rfl, rfl, rfl, ?_, ?_⟩
  · rw [← hrun]
    exact hspared
  · rw [← hrun, ← hrun']
    exact hcurbed

/-- **An interrupted parse is the front of a whole one.** If nothing but the watch interrupts a parse, then under a
budget its calls are the first ones of the parse without a budget, up to the first that is too many. It is
interrupted exactly if there is one, and else ends as the parse without a budget does. -/
theorem Parser.parse_interrupts_cleanly (hpatient : Patient g client) (hempty : ¬g.isEmpty = true) (index : Nat)
    (input : Bytes) {env : Env (Watch × σ)} (hidle : ¬env.parsing = true) (p q : Parser) (budget : Nat) :
    ∃ whole cut, Parser.parse p g client.watched index input (env.budgeted none) = whole ∧
      Parser.parse q g client.watched index input (env.budgeted (some budget)) = cut ∧
      cut.2.1.calls <+: whole.2.1.calls ∧
      cut.2.1.calls.length = min (budget + 1) whole.2.1.calls.length ∧
      (cut.1 = .error .interrupted ↔ budget < whole.2.1.calls.length) ∧
      (whole.2.1.calls.length ≤ budget → cut.1 = whole.1) := by
  obtain ⟨answer, answer', progress, progress', hwhole, hcalls, hcut, hcalls', hspared, hcurbed⟩ :=
    parse_curbed hpatient hempty hidle p q budget
  refine ⟨_, _, rfl, rfl, ?_⟩
  rw [hwhole, hcalls, hcut, hcalls', List.reverse_prefix, List.length_reverse, List.length_reverse]
  cases hcurbed with
  | @within _ s s' trail h =>
    obtain ⟨n, -, hpaid⟩ := h.left
    have hle : s'.user.1.calls.length ≤ budget := by
      rw [← h.calls, ← hpaid]
      exact Nat.le_add_left _ _
    refine ⟨?_, ?_, ?_, fun _ => outcomeOf_congr env.settings answer h.locator rfl⟩
    · exact h.calls ▸ List.suffix_refl s.user.1.calls
    · rw [h.calls, Nat.min_eq_right (Nat.le_succ_of_le hle)]
    · exact iff_of_false (fun heq => hspared.answer (answer_of_outcomeOf heq)) (Nat.not_lt_of_le hle)
  | interrupted hlength hmore _ =>
    have hlt : budget < progress.store.user.1.calls.length := by
      rw [← Nat.succ_le_iff, Nat.succ_eq_add_one, ← hlength]
      exact hmore.length_le
    refine ⟨hmore, ?_, iff_of_true rfl hlt, fun hle => absurd hlt (Nat.not_lt_of_le hle)⟩
    rw [hlength, Nat.min_eq_left hlt]

end Parses

theorem matchedText_patient : Patient twoEndings matchedText :=
  ⟨fun _ _ _ => nofun, fun _ hmatcher => absurd hmatcher List.not_mem_nil, matchedText_quiet _⟩

/-- Without a memo, `A` is called twice, and a budget of one interrupts the first of these calls. -/
theorem parse_interrupts_cleanly_twoEndings :
    Patient twoEndings matchedText ∧ ¬twoEndings.isEmpty = true ∧ ¬watchedFresh.parsing = true ∧
      ∃ whole cut,
        Parser.parse {} twoEndings matchedText.watched 0 (Bytes.ascii "ac") (watchedFresh.budgeted none) = whole ∧
        Parser.parse {} twoEndings matchedText.watched 0 (Bytes.ascii "ac") (watchedFresh.budgeted (some 1)) = cut ∧
        whole.1 = .ok (.tree ⟨.text (Bytes.ascii "ac"), 0, 2⟩) ∧
        whole.2.1.calls =
          [⟨Bytes.ascii "S", 0, false⟩, ⟨Bytes.ascii "A", 0, false⟩, ⟨Bytes.ascii "A", 0, false⟩] ∧
        cut.1 = .error .interrupted ∧
        cut.2.1.calls = [⟨Bytes.ascii "S", 0, false⟩, ⟨Bytes.ascii "A", 0, false⟩] := by
  have hempty : ¬twoEndings.isEmpty = true := by decide
  have hidle : ¬watchedFresh.parsing = true := by decide
  obtain ⟨whole, cut, hwhole, hcut, hfront, hlength, hinterrupted, -⟩ :=
    Parser.parse_interrupts_cleanly matchedText_patient hempty 0 (Bytes.ascii "ac") hidle {} {} 1
  have hcalls : whole.2.1.calls =
      [⟨Bytes.ascii "S", 0, false⟩, ⟨Bytes.ascii "A", 0, false⟩, ⟨Bytes.ascii "A", 0, false⟩] := by
    rw [← hwhole]
    cbv
  rw [hcalls] at hfront hlength hinterrupted
  refine ⟨matchedText_patient, hempty, hidle, whole, cut, hwhole, hcut, ?_, hcalls, hinterrupted.mpr (by decide), ?_⟩
  · rw [← hwhole]
    cbv
  · rw [List.prefix_iff_eq_take.mp hfront, hlength]
    rfl

end Packrat
