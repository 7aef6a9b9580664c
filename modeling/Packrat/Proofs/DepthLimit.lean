import Packrat.Proofs.History

/-!
# `Packrat.Proofs.DepthLimit` — more depth changes no answer

The limit on the depth of rule calls is checked behind the hook and in front of the evaluation of a rule, and not
where a result is kept. A parse that meets the limit ends there. So of two parses with different limits the one
with the lower limit either meets it, or does all that the other does.

## Contents
- **Limits.** `Env.limited`, and `Client.Unlimited`, pure actions that do not ask for the limit.
- **Two parses.** `watched_couples` and `parse_abreast`: parses with different limits go side by side.
- **Monotony.** `Parser.parse_depth_monotone`.
-/

namespace Packrat

variable {α σ : Type}

/-! ## Limits -/

/-- The same environment with another limit on the depth of rule calls. -/
def Env.limited (env : Env σ) (maxDepth : Nat) : Env σ :=
  { env with settings := { env.settings with maxDepth } }

/-- The same context with another limit on the depth of rule calls. -/
def Context.limited (ctx : Context) (maxDepth : Nat) : Context :=
  { ctx with settings := { ctx.settings with maxDepth } }

/-- The actions of a client are pure on a text, and what they answer does not depend on the limit. -/
structure Client.Unlimited (client : Client α σ) (text : Bytes) : Prop extends client.Pure text where
  limit_eq : ∀ a ctx maxDepth store, ctx.input = text → store.locator.Exact text ctx.settings.tabs →
    client.answer store a (ctx.limited maxDepth) = client.answer store a ctx

/-! ## Two parses -/

/-- Two stores of a watched client that an evaluation cannot tell apart: positions are right in both, and the
same calls are recorded, of which there may be as many as there are. -/
structure WatchedAlike (text : Bytes) (tabs : Tabs) (s s' : Store (Watch × σ)) : Prop where
  left_exact : s.locator.Exact text tabs
  right_exact : s'.locator.Exact text tabs
  watch : s.user.1 = s'.user.1
  unbounded : s.user.1.left = none

section Parses

variable {g : Grammar α} {client : Client α σ} {index : Nat} {input : Bytes} {env : Env (Watch × σ)}

/-- Under different limits, pure actions and a hook that raises no fault answer alike. -/
theorem watched_couples (hpure : client.Unlimited input) (hhook : ∀ f, ¬client.HookRaises f)
    (limit limit' : Nat) :
    Couples (parseScene g client.watched input (env.limited limit))
      (parseScene g client.watched input (env.limited limit')) (WatchedAlike input env.settings.tabs) := by
  refine ⟨rfl, ?_, ?_⟩
  · rintro call ⟨locator, w, user⟩ ⟨locator', w', user'⟩ ⟨hleft, hright, hwatch, hunbounded⟩
    have hwatch' : w = w' := hwatch
    subst hwatch'
    have hcall : ∀ user, (client.watched.onCall call).run.run (w, user) =
        (.ok (), ({ w with calls := call :: w.calls }, ((client.onCall call).run.run user).2)) := by
      intro user
      rw [Client.run_watched, show w.left = none from hunbounded]
      cases hanswer : ((client.onCall call).run.run user).1 with
      | ok u => rfl
      | error f => exact absurd ⟨call, user, hanswer⟩ (hhook f)
    show ((client.watched.onCall call).run.run (w, user)).1 =
        ((client.watched.onCall call).run.run (w, user')).1 ∧
      WatchedAlike input env.settings.tabs ⟨locator, ((client.watched.onCall call).run.run (w, user)).2⟩
        ⟨locator', ((client.watched.onCall call).run.run (w, user')).2⟩
    rw [hcall, hcall]
    exact ⟨rfl, hleft, hright, rfl, hunbounded⟩
  · rintro a args names start stop ⟨locator, w, user⟩ ⟨locator', w', user'⟩
      ⟨hleft, hright, hwatch, hunbounded⟩
    -- the contexts of the action, under the one limit and under the other
    have hctx : ∀ limit, ((parseScene g client.watched input (env.limited limit)).context args names start
        stop).input = input := fun _ => rfl
    have hanswer := (hpure.limit_eq a _ limit ⟨locator, user⟩ (hctx limit') hleft).trans
      (hpure.answer_eq a _ env.settings.memoize _ ⟨locator', user'⟩ (hctx limit') hleft hright)
    exact ⟨hanswer, hpure.exact a _ ⟨locator, user⟩ (hctx limit) hleft,
      hpure.exact a _ ⟨locator', user'⟩ (hctx limit') hright, hwatch, hunbounded⟩

/-- A parse that is not refused goes side by side with the same parse under a higher limit. -/
theorem parse_abreast (hpure : client.Unlimited input) (hhook : ∀ f, ¬client.HookRaises f)
    (hbudget : env.store.user.1.budget = none) (hempty : ¬g.isEmpty = true) (hparsing : ¬env.parsing = true)
    (p q : Parser) (limit more : Nat) :
    (Parser.parse p g client.watched index input (env.limited limit)).1 = .error .callDepth ∨
      (Parser.parse q g client.watched index input (env.limited (limit + more))).1 =
          (Parser.parse p g client.watched index input (env.limited limit)).1 ∧
        (Parser.parse q g client.watched index input (env.limited (limit + more))).2.1.store.user.1.calls =
          (Parser.parse p g client.watched index input (env.limited limit)).2.1.store.user.1.calls := by
  have hparsing' : ∀ limit, ¬(env.limited limit).parsing = true := fun _ => hparsing
  obtain ⟨answer, progress, locator, hrun, hparse⟩ :=
    parse_eq p client.watched index input hempty (hparsing' limit)
  obtain ⟨answer', progress', locator', hrun', hparse'⟩ :=
    parse_eq q client.watched index input hempty (hparsing' (limit + more))
  rw [hparse, hparse']
  -- a reset leaves the two stores alike, and without a budget no call can tell them apart
  have hstart : WatchedAlike input env.settings.tabs ((env.limited limit).reset client.watched input).store
      ((env.limited (limit + more)).reset client.watched input).store :=
    ⟨Locator.exact_ofText _ _, Locator.exact_ofText _ _, rfl, hbudget⟩
  have habreast := (callRule_paired (parseScene g client.watched input (env.limited limit))
    ⟨client.watched, limit + more, true⟩ limit more false index (Cursor.ofText input 0)).run
    (watched_couples hpure hhook limit (limit + more)) hstart {}
  have hleft : (callRule (parseScene g client.watched input (env.limited limit)) limit false index
      (Cursor.ofText input 0)).run.run ⟨((env.limited limit).reset client.watched input).store, {}⟩ =
    (answer, progress) := hrun
  have hright : (callRule (parseScene g client.watched input (env.limited (limit + more))) (limit + more)
      false index (Cursor.ofText input 0)).run.run
        ⟨((env.limited (limit + more)).reset client.watched input).store, {}⟩ =
    (answer', progress') := hrun'
  rw [hleft] at habreast
  change Abreast _ _ _ ((callRule (parseScene g client.watched input (env.limited (limit + more)))
    (limit + more) false index (Cursor.ofText input 0)).run.run _) at habreast
  rw [hright] at habreast
  cases habreast with
  | exhausted h => exact .inl rfl
  | @together _ t t' trail h =>
    right
    have hwatch : t'.user.1.calls = t.user.1.calls := by rw [h.watch]
    have hexact : (Progress.mk t trail).store.locator.Exact input (env.limited limit).settings.tabs :=
      h.left_exact
    have hexact' : (Progress.mk t' trail).store.locator.Exact input
        (env.limited (limit + more)).settings.tabs := h.right_exact
    exact ⟨outcomeOf_exact rfl hexact' hexact rfl (fun _ => Iff.rfl) answer, hwatch⟩

/-! ## Monotony -/

/-- **More depth changes no answer.** If actions are pure and the hook raises no fault, a parse that has an
outcome has it under every higher limit, too, with the same calls of the hook; and a parse that runs out of
depth does so under every lower limit. -/
theorem Parser.parse_depth_monotone (hpure : client.Unlimited input) (hhook : ∀ f, ¬client.HookRaises f)
    (hbudget : env.store.user.1.budget = none) (p q : Parser) {limit limit' : Nat} (hle : limit ≤ limit') :
    (∀ outcome, (Parser.parse p g client.watched index input (env.limited limit)).1 = .ok outcome →
      (Parser.parse q g client.watched index input (env.limited limit')).1 = .ok outcome ∧
        (Parser.parse q g client.watched index input (env.limited limit')).2.1.store.user.1.calls =
          (Parser.parse p g client.watched index input (env.limited limit)).2.1.store.user.1.calls) ∧
    ((Parser.parse q g client.watched index input (env.limited limit')).1 = .error .callDepth →
      (Parser.parse p g client.watched index input (env.limited limit)).1 = .error .callDepth) := by
  by_cases hrefused : g.isEmpty = true ∨ env.parsing = true
  · -- A refused parse has no outcome, and its fault is another.
    have hfault : ∀ (r : Parser) limit, ∃ fault,
        (Parser.parse r g client.watched index input (env.limited limit)).1 = .error fault ∧
          fault ≠ .callDepth := by
      intro r limit
      unfold Parser.parse
      by_cases hempty : g.isEmpty = true
      · rw [if_pos hempty]
        exact ⟨_, rfl, by rintro ⟨⟩⟩
      · rw [if_neg hempty, if_pos (show (env.limited limit).parsing = true from hrefused.resolve_left hempty)]
        exact ⟨_, rfl, by rintro ⟨⟩⟩
    refine ⟨?_, ?_⟩
    · intro outcome h
      obtain ⟨fault, hfault, _⟩ := hfault p limit
      rw [hfault] at h
      cases h
    · intro h
      obtain ⟨fault, hfault, hne⟩ := hfault q limit'
      rw [hfault] at h
      cases h
      exact absurd rfl hne
  obtain ⟨hempty, hparsing⟩ := not_or.mp hrefused
  obtain ⟨more, hmore⟩ := Nat.exists_eq_add_of_le hle
  subst hmore
  rcases parse_abreast hpure hhook hbudget hempty hparsing p q limit more with hdepth | ⟨hsame, hcalls⟩
  · refine ⟨?_, fun _ => hdepth⟩
    intro outcome h
    rw [hdepth] at h
    cases h
  · rw [hsame]
    exact ⟨fun outcome h => ⟨h, hcalls⟩, fun h => h⟩

end Parses

theorem matchedText_unlimited (text : Bytes) : matchedText.Unlimited text :=
  ⟨matchedText_pure text, fun _ _ _ _ _ _ => rfl⟩

/-- An environment without a memo, with a watch that allows any number of calls. -/
def watchedFresh : Env (Watch × Unit) := (Env.fresh ({}, ())).memoizing false

theorem parse_depth_monotone_twoEndings :
    matchedText.Unlimited (Bytes.ascii "ac") ∧ (∀ f, ¬matchedText.HookRaises f) ∧
      watchedFresh.store.user.1.budget = none ∧ 2 ≤ 9 ∧ 0 ≤ 1 ∧
      (Parser.parse {} twoEndings matchedText.watched 0 (Bytes.ascii "ac") (watchedFresh.limited 9)).1 =
        .ok (.tree ⟨.text (Bytes.ascii "ac"), 0, 2⟩) ∧
      (Parser.parse {} twoEndings matchedText.watched 0 (Bytes.ascii "ac") (watchedFresh.limited 0)).1 =
        .error .callDepth :=
  ⟨matchedText_unlimited _, matchedText_quiet, rfl, by decide, by decide,
    ((Parser.parse_depth_monotone (matchedText_unlimited _) matchedText_quiet rfl {} {}
      (show 2 ≤ 9 by decide)).1 _ (by cbv)).1,
    (Parser.parse_depth_monotone (matchedText_unlimited _) matchedText_quiet rfl {} {}
      (show 0 ≤ 1 by decide)).2 (by cbv)⟩

end Packrat
