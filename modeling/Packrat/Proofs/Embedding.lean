import Packrat.Proofs.Outcome
import Packrat.Proofs.Retagging

/-!
# `Packrat.Proofs.Embedding` — grammars within grammars, under other names

The rules of a grammar can stand in the table of a larger one, at other places and under other names. A parse from
one of them goes the same way in both grammars: nothing of the larger grammar is ever reached but these rules. What
is kept for the other rules is unconstrained.

## Contents
- **Relocation.** `relocateRule` and its companions give the calls of a rule their names and places in the larger
  grammar; `Relocation.Embeds`: the larger grammar has the relocated rules.
- **Words.** `Relocation.Carries`: which words a relation has to relate.
- **Runs.** `Agrees`: computations that answer alike from states that correspond.
- **Evaluation.** `callRule_embedded` and what leads to it, on the structure of an expression and on the depth.
- **Parses.** `parse_embedded`.
-/

namespace Packrat

variable {α β γ δ σ : Type}

-- the linter does not see an assumption that only a companion of a mutual block uses
set_option linter.unusedSectionVars false

/-! ## Relocation -/

/-- New names for rules, and new places for rules and matchers. -/
structure Relocation where
  name : Bytes → Bytes
  place : Nat → Nat
  matcher : Nat → Nat

section Relocating

variable (r : Relocation)

mutual

/-- A body with the new names and places in its calls. -/
def relocateBody : Body α → Body α
  | .code host => .code host
  | .call name decorated target => .call (r.name name) decorated (target.map r.place)
  | .group alternatives => .group (relocateExpr alternatives)
  | .literal spelling caseless braceSensitive => .literal spelling caseless braceSensitive
  | .interpolated segments caseless => .interpolated segments caseless
  | .cls cls => .cls cls
  | .any => .any
termination_by structural body => body

/-- An expression with the new names and places in its calls. -/
def relocateExpr : List (Sequence α (Body α)) → List (Sequence α (Body α))
  | [] => []
  | seq :: rest => relocateSequence seq :: relocateExpr rest
termination_by structural alternatives => alternatives

/-- A sequence with the new names and places in its calls. -/
def relocateSequence : Sequence α (Body α) → Sequence α (Body α)
  | ⟨items, action, layout, position⟩ => ⟨relocateItems items, action, layout, position⟩
termination_by structural seq => seq

/-- Items with the new names and places in their calls. -/
def relocateItems : List (Item (Body α)) → List (Item (Body α))
  | [] => []
  | item :: rest => relocateItem item :: relocateItems rest
termination_by structural items => items

/-- An item with the new names and places in its calls. -/
def relocateItem : Item (Body α) → Item (Body α)
  | ⟨name, autobind, lookahead, body, repetition, slot, position⟩ =>
    ⟨name, autobind, lookahead, relocateBody body, repetition, slot, position⟩
termination_by structural item => item

end

/-- A rule with its new name, and with the new names and places in its calls. -/
def relocateRule (rule : Rule α) : Rule α :=
  { rule with
    name := r.name rule.name
    body := relocateExpr r rule.body
    matcher := rule.matcher.map r.matcher }

@[simp] theorem isCode_relocateBody (body : Body α) : (relocateBody r body).isCode = body.isCode := by
  cases body with
  | _ => rfl

@[simp] theorem passesOn_relocateBody (body : Body α) : (relocateBody r body).passesOn = body.passesOn := by
  cases body with
  | _ => rfl

theorem passesOn_relocateItems (items : List (Item (Body α))) :
    passesOn (relocateItems r items) = passesOn items := by
  match items with
  | [] => rfl
  | [⟨_, _, lookahead, body, repetition, _, _⟩] => simp [relocateItems, relocateItem, passesOn]
  | _ :: _ :: _ => rfl

/-- A larger grammar has the rules of a grammar, relocated, with their actions and matchers. Where there is no rule
in the one, there is none at the new place in the other. -/
structure Relocation.Embeds (g large : Grammar α) : Prop where
  rules : ∀ i, large.rules[r.place i]? = g.rules[i]?.map (relocateRule r)
  injective : ∀ {i j}, r.place i = r.place j → i = j
  actions : large.actions = g.actions
  matchers : ∀ rule ∈ g.rules, ∀ i, rule.matcher = some i → large.matchers[r.matcher i]? = g.matchers[i]?

/-! ## Words -/

/-- The words that come out of a parse are related to what comes out of the larger grammar: the name of a rule to its
new name, and to themselves the words that the rules spell out, those of quoted texts, and the tags that matchers
make. Only the empty tag is related to the empty tag. -/
structure Relocation.Carries (g : Grammar α) (R : Word → Word → Prop) : Prop where
  tag : ∀ rule ∈ g.rules, R (.tag rule.name) (.tag (r.name rule.name))
  label : ∀ rule ∈ g.rules, rule.isExternal = true → R (.label rule.name) (.label (r.name rule.name))
  words : ∀ rule ∈ g.rules, ∀ w ∈ exprWords rule.body, R w w
  quoted : ∀ text, R (.label (quoteText text)) (.label (quoteText text))
  made : ∀ matcher ∈ g.matchers, ∀ c v n, matcher c = .ok (.success v n) → ∀ t ∈ v.tags, R (.tag t) (.tag t)
  untagged : R (.tag []) (.tag [])
  emptyTogether : EmptyTogether R

end Relocating

/-! ## Runs -/

/-- Results that are the same up to tags. -/
inductive Result.Retagged (R : Word → Word → Prop) : Result → Result → Prop
  | success {x y : Spanned Value} (h : RetaggedSpan R x y) (next : Cursor) :
      Retagged R (.success x next) (.success y next)
  | failure (offset : Nat) : Retagged R (.failure offset) (.failure offset)

/-- Results of items that are the same up to tags. -/
inductive ItemsResult.Retagged (R : Word → Word → Prop) : ItemsResult → ItemsResult → Prop
  | success {slots slots' : List (Spanned Value)} {x y : Spanned Value}
      (hslots : List.Forall₂ (RetaggedSpan R) slots slots') (h : RetaggedSpan R x y) (next : Cursor) :
      Retagged R (.success slots x next) (.success slots' y next)
  | failure (offset : Nat) : Retagged R (.failure offset) (.failure offset)

/-- Labels that are related. -/
def LabelsRelated (R : Word → Word → Prop) (l l' : Bytes) : Prop := R (.label l) (.label l')

/-- States of evaluations in a grammar and in a larger one: what is kept for the rules of the grammar and what is
noted corresponds, and both answer queries for positions correctly. What the larger grammar keeps for other rules,
and the state of the host program, are unconstrained. -/
structure Progress.Corresponds (R : Word → Word → Prop) (r : Relocation) (text : Bytes) (tabs : Tabs)
    (p p' : Progress σ) : Prop where
  exact : p.store.locator.Exact text tabs
  exact' : p'.store.locator.Exact text tabs
  furthest : p.trail.furthest = p'.trail.furthest
  expected : List.Forall₂ (LabelsRelated R) p.trail.expected p'.trail.expected
  memo : ∀ i offset : Nat,
    Option.Rel (Result.Retagged R) p.trail.memo[(i, offset)]? p'.trail.memo[(r.place i, offset)]?

/-- Two computations that, from states that correspond, answer alike and end in states that correspond. -/
def Agrees (R : Word → Word → Prop) (r : Relocation) (scene : Scene α σ) (Q : β → γ → Prop) (x : EvalM σ β)
    (y : EvalM σ γ) : Prop :=
  ∀ p p', p.Corresponds R r scene.input scene.settings.tabs p' →
    Related Q (x.run.run p).1 (y.run.run p').1 ∧
      (x.run.run p).2.Corresponds R r scene.input scene.settings.tabs (y.run.run p').2

namespace Agrees

variable {R : Word → Word → Prop} {r : Relocation} {scene : Scene α σ} {Q : β → γ → Prop} {x : EvalM σ β}
  {y : EvalM σ γ}

theorem pure {b : β} {c : γ} (h : Q b c) : Agrees R r scene Q (Pure.pure b) (Pure.pure c) := by
  intro p p' hp
  exact ⟨.ok h, hp⟩

theorem fault (e : Fault) : Agrees R r scene Q (throw e) (throw e) := by
  intro p p' hp
  exact ⟨.error e, hp⟩

/-- One computation after another. -/
theorem bind {β' γ' : Type} {Q' : β' → γ' → Prop} {k : β → EvalM σ β'} {l : γ → EvalM σ γ'}
    (hx : Agrees R r scene Q x y) (hk : ∀ b c, Q b c → Agrees R r scene Q' (k b) (l c)) :
    Agrees R r scene Q' (x >>= k) (y >>= l) := by
  intro p p' hp
  obtain ⟨hanswer, hend⟩ := hx p p' hp
  cases hrun : x.run.run p with
  | mk answer q =>
    cases hrun' : y.run.run p' with
    | mk answer' q' =>
      rw [hrun, hrun'] at hanswer hend
      cases hanswer with
      | error e =>
        rw [run_bind_error hrun, run_bind_error hrun']
        exact ⟨.error e, hend⟩
      | ok h =>
        rw [run_bind_ok hrun, run_bind_ok hrun']
        exact hk _ _ h q q' hend

/-- An answer without state. -/
theorem answer (a : Except Fault β) : Agrees R r scene (fun b c => b = c ∧ a = .ok b) (ExceptT.mk (Pure.pure a))
    (ExceptT.mk (Pure.pure a)) := by
  cases a with
  | ok b => exact pure ⟨rfl, rfl⟩
  | error e => exact fault e

/-- Noting a failure under labels that are related. -/
theorem noteFailure (quiet : Bool) (offset : Nat) {label label' : Bytes} (h : R (.label label) (.label label')) :
    Agrees R r scene (fun _ _ => True) (noteFailure quiet offset label) (Packrat.noteFailure quiet offset label') := by
  cases quiet with
  | true => exact pure trivial
  | false =>
    intro p p' hp
    refine ⟨.ok trivial, hp.exact, hp.exact', ?_, ?_, ?_⟩
    · show (p.trail.note offset label).furthest = (p'.trail.note offset label').furthest
      unfold Trail.note
      rw [← hp.furthest]
      split
      · rfl
      · split
        · rfl
        · exact hp.furthest
    · show List.Forall₂ _ (p.trail.note offset label).expected (p'.trail.note offset label').expected
      unfold Trail.note
      rw [← hp.furthest]
      split
      · exact .cons h .nil
      · split
        · exact .cons h hp.expected
        · exact hp.expected
    · intro i offset'
      show Option.Rel _ (p.trail.note offset label).memo[(i, offset')]? (p'.trail.note offset label').memo[_]?
      rw [Trail.memo_note, Trail.memo_note]
      exact hp.memo i offset'

/-- A terminal whose label is kept. -/
theorem terminal (quiet : Bool) (c : Cursor) {label : Bytes} (h : R (.label label) (.label label))
    (taken : Option Nat) :
    Agrees R r scene (Result.Retagged R) (terminal quiet c label taken) (Packrat.terminal quiet c label taken) := by
  cases taken with
  | some n => exact pure (.success (.mk (.text _) _ _) _)
  | none => exact .bind (.noteFailure quiet c.offset h) fun _ _ _ => pure (.failure _)

/-- Actions that answer alike and keep the locator exact. -/
theorem onStore {m : ActionM σ β} {m' : ActionM σ γ}
    (hanswer : ∀ store store' : Store σ, store.locator.Exact scene.input scene.settings.tabs →
      store'.locator.Exact scene.input scene.settings.tabs → Related Q (m.run.run store).1 (m'.run.run store').1)
    (hexact : ∀ store : Store σ, store.locator.Exact scene.input scene.settings.tabs →
      (m.run.run store).2.locator.Exact scene.input scene.settings.tabs ∧
        (m'.run.run store).2.locator.Exact scene.input scene.settings.tabs) :
    Agrees R r scene Q (onStore m) (Packrat.onStore m') := by
  intro p p' hp
  rw [run_onStore, run_onStore]
  exact ⟨hanswer _ _ hp.exact hp.exact', (hexact _ hp.exact).1, (hexact _ hp.exact').2, hp.furthest, hp.expected,
    hp.memo⟩

/-- Hooks that raise no fault. -/
theorem onUser {m m' : HookM σ Unit} (h : ∀ f user, (m.run.run user).1 ≠ .error f)
    (h' : ∀ f user, (m'.run.run user).1 ≠ .error f) :
    Agrees R r scene (fun _ _ => True) (onUser m) (Packrat.onUser m') := by
  have hok : ∀ {m : HookM σ Unit}, (∀ f user, (m.run.run user).1 ≠ .error f) →
      ∀ user, (m.run.run user).1 = .ok () := by
    intro m h user
    cases hanswer : (m.run.run user).1 with
    | error f => exact absurd hanswer (h f user)
    | ok _ => rfl
  intro p p' hp
  rw [run_onUser, run_onUser, hok h, hok h']
  exact ⟨.ok trivial, hp.exact, hp.exact', hp.furthest, hp.expected, hp.memo⟩

end Agrees

/-! ## Evaluation -/

/-- The same scene with another grammar. -/
def Scene.within (scene : Scene α σ) (large : Grammar α) : Scene α σ := { scene with grammar := large }

@[simp] theorem Scene.grammar_within (scene : Scene α σ) (large : Grammar α) :
    (scene.within large).grammar = large := rfl

section Evaluation

variable {R : Word → Word → Prop} {r : Relocation} {scene : Scene α σ} {large : Grammar α}

/-! ### Host expressions -/

/-- What it takes of a client for a parse to go the same way in the larger grammar: actions that are pure and do not
tell related tags apart, and a hook that raises no fault. -/
structure Client.Portable (client : Client α σ) (R : Word → Word → Prop) (text : Bytes) : Prop
    extends client.Pure text where
  tags : client.RespectsTags R text
  hook : ∀ f, ¬client.HookRaises f

section Hosts

variable {slots slots' : List (Spanned Value)} {layout : List Bytes} {start : Nat}

theorem read_embedded (hslots : List.Forall₂ (RetaggedSpan R) slots slots') (slot : Option Nat) :
    Agrees R r scene (RetaggedSpan R) (Frame.read ⟨slots, layout, start⟩ slot)
      (Frame.read ⟨slots', layout, start⟩ slot) := by
  cases slot with
  | none => exact .fault _
  | some i =>
    have hfound := RetaggedSpan.getElem? hslots i
    simp only [Frame.read, Option.bind_some]
    revert hfound
    generalize slots[i]? = found
    generalize slots'[i]? = found'
    intro hfound
    cases hfound with
    | none => exact .fault _
    | some hx => exact .pure hx

/-- An action answers alike on arguments that are the same up to tags. -/
theorem run_embedded (hclient : scene.client.Portable R scene.input) (action : NamedAction α) (ctx : Context)
    (hinput : ctx.input = scene.input) (htabs : ctx.settings.tabs = scene.settings.tabs)
    {args : List (Spanned Value)} (hargs : List.Forall₂ (RetaggedSpan R) ctx.args args) :
    Agrees R r scene (Retagged R) (onStore (scene.client.run action ctx))
      (onStore (scene.client.run action { ctx with args })) := by
  cases action with
  | builtin b =>
    refine .onStore ?_ ?_
    · intro store store' _ _
      exact Builtin.run_retagged b hargs
    · intro store hstore
      exact ⟨hstore, hstore⟩
  | custom a =>
    refine .onStore ?_ ?_
    · intro store store' hstore hstore'
      rw [← htabs] at hstore hstore'
      have hanswer := hclient.answer_eq a ctx ctx.settings.memoize store store' hinput hstore hstore'
      show Related (Retagged R) (scene.client.answer store a ctx) (scene.client.answer store' a { ctx with args })
      rw [show scene.client.answer store a ctx = scene.client.answer store' a ctx from hanswer]
      exact hclient.tags a ctx args store' hinput hstore' hargs
    · intro store hstore
      rw [← htabs] at hstore ⊢
      exact ⟨hclient.exact a ctx store hinput hstore, hclient.exact a { ctx with args } store hinput hstore⟩

variable (hclient : scene.client.Portable R scene.input) (hactions : large.actions = scene.grammar.actions)
  (hslots : List.Forall₂ (RetaggedSpan R) slots slots')

include hclient hactions hslots

mutual

theorem evalHost_embedded (stop : Nat) : ∀ node : HostNode α, (∀ t ∈ hostTags node, R (.tag t) (.tag t)) →
    Agrees R r scene (Retagged R) (evalHost scene ⟨slots, layout, start⟩ stop node)
      (evalHost (scene.within large) ⟨slots', layout, start⟩ stop node)
  | .ref _ slot, _ => by
    unfold evalHost
    exact .bind (read_embedded hslots slot) fun _ _ hx => .pure hx.value
  | .const v, hwords => by
    unfold evalHost
    exact .pure (.of_tags v hwords)
  | .matched, _ => by
    unfold evalHost
    show Agrees _ _ _ _ _ (if start ≤ scene.input.length then _ else _)
    by_cases hle : start ≤ scene.input.length
    · rw [if_pos hle, if_pos hle]
      exact .pure (.text _)
    · rw [if_neg hle, if_neg hle]
      exact .fault _
  | .native a, _ => by
    unfold evalHost
    exact run_embedded hclient (.custom a) _ rfl rfl hslots
  | .call name args constructs action, hwords => by
    rw [hostTags, List.forall_mem_append] at hwords
    unfold evalHost
    refine .bind (evalArgs_embedded stop args hwords.2) fun fields fields' hfields => ?_
    -- a construct is tagged with its name; otherwise an action is run, which has the same number in both grammars
    by_cases hconstructs : constructs = true
    · rw [if_pos hconstructs, if_pos hconstructs]
      rw [if_pos hconstructs] at hwords
      exact .pure (.node (hwords.1 name List.mem_cons_self) hfields)
    · rw [if_neg hconstructs, if_neg hconstructs]
      show Agrees _ _ _ _ _ (match action.bind (large.actions[·]?) with
        | some (_, named) => _
        | none => _)
      rw [hactions]
      cases action.bind (scene.grammar.actions[·]?) with
      | none => exact .fault _
      | some entry =>
        have hrun := run_embedded (r := r) hclient entry.2
          ⟨fields.map (·.2), fields.map (·.1), scene.input, start, stop, scene.settings, scene.parsing⟩ rfl rfl
          (RetaggedField.snd hfields)
        show Agrees _ _ _ _ _ (onStore (scene.client.run entry.2 ⟨fields'.map (·.2), fields'.map (·.1), _, _, _, _, _⟩))
        rw [← RetaggedField.fst hfields]
        exact hrun
termination_by structural node => node

theorem evalArgs_embedded (stop : Nat) : ∀ args : List (Host α), (∀ t ∈ argsTags args, R (.tag t) (.tag t)) →
    Agrees R r scene (List.Forall₂ (RetaggedField R)) (evalArgs scene ⟨slots, layout, start⟩ stop args)
      (evalArgs (scene.within large) ⟨slots', layout, start⟩ stop args)
  | [], _ => .pure .nil
  | ⟨node, pos⟩ :: rest, hwords => by
    rw [argsTags, List.forall_mem_append] at hwords
    have hnode := evalHost_embedded stop node hwords.1
    have hrest := evalArgs_embedded stop rest hwords.2
    -- only a reference passes on more than its value
    have hother : Agrees R r scene (List.Forall₂ (RetaggedField R))
        (do
          let v ← evalHost scene ⟨slots, layout, start⟩ stop node
          let rest ← evalArgs scene ⟨slots, layout, start⟩ stop rest
          return (([], ⟨v, start, stop⟩) : Field) :: rest)
        (do
          let v ← evalHost (scene.within large) ⟨slots', layout, start⟩ stop node
          let rest ← evalArgs (scene.within large) ⟨slots', layout, start⟩ stop rest
          return (([], ⟨v, start, stop⟩) : Field) :: rest) := by
      refine .bind hnode fun v w hv => ?_
      exact .bind hrest fun fields fields' hfields => .pure (.cons (.mk [] (.mk hv start stop)) hfields)
    cases node with
    | ref name slot =>
      refine .bind (read_embedded hslots slot) fun x y hx => ?_
      exact .bind hrest fun fields fields' hfields => .pure (.cons (.mk name hx) hfields)
    | const v => exact hother
    | matched => exact hother
    | native a => exact hother
    | call name args constructs action => exact hother
termination_by structural args => args

end

theorem evalSegments_embedded (stop : Nat) (segments : List (Segment α))
    (hwords : ∀ t ∈ segmentsTags segments, R (.tag t) (.tag t)) :
    Agrees R r scene Eq (evalSegments scene ⟨slots, layout, start⟩ stop segments)
      (evalSegments (scene.within large) ⟨slots', layout, start⟩ stop segments) := by
  induction segments with
  | nil => exact .pure rfl
  | cons segment rest ih =>
    cases segment with
    | spelling text =>
      refine .bind (ih hwords) fun t t' ht => ?_
      rw [ht]
      exact .pure rfl
    | code host =>
      rw [segmentsTags, List.forall_mem_append] at hwords
      refine .bind (evalHost_embedded hclient hactions hslots stop host.node hwords.1) fun v w hv => ?_
      refine .bind (ih hwords.2) fun t t' ht => ?_
      rw [ht, hv.toText]
      exact .pure rfl

end Hosts

theorem sequenceValue_embedded (hclient : scene.client.Portable R scene.input)
    (hactions : large.actions = scene.grammar.actions) (huntagged : R (.tag []) (.tag []))
    {slots slots' : List (Spanned Value)} (hslots : List.Forall₂ (RetaggedSpan R) slots slots')
    {items items' : List (Item (Body α))} (hitems : passesOn items' = passesOn items) (action : Option (Host α))
    (hwords : ∀ host, action = some host → ∀ t ∈ hostTags host.node, R (.tag t) (.tag t)) (layout : List Bytes)
    (c : Cursor) {last last' : Spanned Value} (hlast : RetaggedSpan R last last') (next : Cursor) :
    Agrees R r scene (RetaggedSpan R) (sequenceValue scene items action layout c slots last next)
      (sequenceValue (scene.within large) items' action layout c slots' last' next) := by
  unfold sequenceValue
  cases action with
  | some host =>
    exact .bind (evalHost_embedded hclient hactions hslots next.offset host.node (hwords host rfl)) fun v w hv =>
      .pure (.mk hv _ _)
  | none =>
    by_cases hlayout : (!layout.isEmpty) = true
    · simp only [if_pos hlayout]
      exact .pure (.mk (.node huntagged (RetaggedField.zip layout hslots)) _ _)
    · simp only [if_neg hlayout, hitems]
      by_cases honly : passesOn items = true
      · rw [if_pos honly, if_pos honly]
        exact .pure hlast
      · rw [if_neg honly, if_neg honly]
        exact .pure (.mk (.text _) _ _)

/-! ### Items -/

section Repetition

variable {step step' : Step σ} (hstep : ∀ c, Agrees R r scene (Result.Retagged R) (step c) (step' c))

include hstep

theorem collect_embedded (fuel : Nat) {collected collected' : List (Spanned Value)}
    (hcollected : List.Forall₂ (RetaggedSpan R) collected collected') (c : Cursor) :
    Agrees R r scene (fun x y => List.Forall₂ (RetaggedSpan R) x.1 y.1 ∧ x.2 = y.2)
      (collect step fuel collected c) (collect step' fuel collected' c) := by
  have hreverse : ∀ {xs ys : List (Spanned Value)}, List.Forall₂ (RetaggedSpan R) xs ys →
      List.Forall₂ (RetaggedSpan R) xs.reverse ys.reverse := fun h => List.rel_reverse h
  induction fuel generalizing collected collected' c with
  | zero => exact .pure ⟨hreverse hcollected, rfl⟩
  | succ fuel ih =>
    unfold collect
    refine .bind (hstep c) fun x y hxy => ?_
    cases hxy with
    | failure offset => exact .pure ⟨hreverse hcollected, rfl⟩
    | success hx next =>
      by_cases hidle : next.offset = c.offset
      · simp only [if_pos hidle]
        exact .pure ⟨hreverse hcollected, rfl⟩
      · simp only [if_neg hidle]
        exact ih (.cons hx hcollected) next

theorem repeated_embedded (reach : Nat) (repetition : Repetition) (c : Cursor) :
    Agrees R r scene (Result.Retagged R) (repeated reach repetition step c) (repeated reach repetition step' c) := by
  cases repetition with
  | once => exact hstep c
  | optional =>
    refine .bind (hstep c) fun x y hxy => ?_
    cases hxy with
    | failure offset => exact .pure (.success (.mk .none _ _) c)
    | success hx next => exact .pure (.success (.mk (.some hx) _ _) next)
  | star =>
    refine .bind (collect_embedded hstep _ .nil c) ?_
    rintro ⟨elements, next⟩ ⟨elements', next'⟩ ⟨helements, hnext⟩
    obtain rfl : next = next' := hnext
    exact .pure (.success (.mk (.list helements) _ _) next)
  | plus =>
    refine .bind (hstep c) fun x y hxy => ?_
    cases hxy with
    | failure offset => exact .pure (.failure _)
    | success hx next =>
      refine .bind (collect_embedded hstep _ (.cons hx .nil) next) ?_
      rintro ⟨elements, last⟩ ⟨elements', last'⟩ ⟨helements, hlast⟩
      obtain rfl : last = last' := hlast
      exact .pure (.success (.mk (.list helements) _ _) last)

theorem lookaround_embedded (lookahead : Lookahead) (asCondition : Bool) (c : Cursor) :
    Agrees R r scene (Result.Retagged R) (lookaround lookahead asCondition step c)
      (lookaround lookahead asCondition step' c) := by
  rw [lookaround_eq, lookaround_eq]
  refine .bind (hstep c) fun x y hxy => .pure ?_
  cases hxy with
  | failure offset =>
    cases lookahead with
    | none => exact .failure _
    | ahead => exact .failure _
    | notAhead => exact .success (.mk .unit _ _) c
  | success hx next =>
    cases lookahead with
    | none => exact .success hx next
    | ahead =>
      unfold Lookahead.judge
      simp only [hx.value.truthy]
      split
      · exact .failure _
      · exact .success hx c
    | notAhead =>
      unfold Lookahead.judge
      simp only [hx.value.truthy]
      split
      · exact .success (.mk .unit _ _) c
      · exact .failure _

end Repetition

/-! ### Expressions -/

section Expressions

variable {call call' : Bool → Nat → Step σ} (hclient : scene.client.Portable R scene.input)
  (hembeds : r.Embeds scene.grammar large) (hcarries : r.Carries scene.grammar R)
  (hcall : ∀ quiet i c, Agrees R r scene (Result.Retagged R) (call quiet i c) (call' quiet (r.place i) c))

include hclient hembeds hcarries hcall

theorem evalCall_embedded (quiet decorated : Bool) (target : Option Nat) (c : Cursor) :
    Agrees R r scene (Result.Retagged R) (evalCall scene call quiet decorated target c)
      (evalCall (scene.within large) call' quiet decorated (target.map r.place) c) := by
  unfold evalCall
  cases target with
  | none => exact .fault _
  | some i =>
    refine .bind (hcall quiet i c) fun x y hxy => ?_
    cases hxy with
    | failure offset => exact .pure (.failure offset)
    | success hx next =>
      simp only [Scene.grammar_within]
      rw [hembeds.rules]
      cases hrule : scene.grammar.rules[i]? with
      | none => exact .fault _
      | some rule =>
        show Agrees _ _ _ _ _ (if (decorated && !rule.decorated) = true then _ else _)
        by_cases htag : (decorated && !rule.decorated) = true
        · simp only [if_pos htag]
          have hmem : rule ∈ scene.grammar.rules := List.mem_of_getElem? hrule
          exact .pure (.success (.tagged hcarries.emptyTogether (hcarries.tag rule hmem) hx) next)
        · simp only [if_neg htag]
          exact .pure (.success hx next)

mutual

theorem evalBody_embedded (quiet : Bool) (layout : List Bytes) (start : Nat) : ∀ (body : Body α)
    {slots slots' : List (Spanned Value)} (_ : List.Forall₂ (RetaggedSpan R) slots slots')
    (_ : ∀ w ∈ bodyWords body, R w w) (c : Cursor),
    Agrees R r scene (Result.Retagged R) (evalBody scene call quiet ⟨slots, layout, start⟩ body c)
      (evalBody (scene.within large) call' quiet ⟨slots', layout, start⟩ (relocateBody r body) c)
  | .code host, _, _, hslots, hwords, c => by
    rw [bodyWords, List.forall_mem_map] at hwords
    rw [relocateBody, evalBody, evalBody]
    exact .bind (evalHost_embedded hclient hembeds.actions hslots c.offset host.node hwords) fun v w hv =>
      .pure (.success (.mk hv _ _) c)
  | .call _ decorated target, _, _, _, _, c => by
    rw [relocateBody, evalBody, evalBody]
    exact evalCall_embedded hclient hembeds hcarries hcall quiet decorated target c
  | .group alternatives, _, _, _, hwords, c => by
    rw [bodyWords] at hwords
    rw [relocateBody, evalBody, evalBody]
    exact evalExpr_embedded quiet alternatives hwords none c
  | .literal spelling caseless braceSensitive, _, _, _, hwords, c => by
    rw [bodyWords, List.forall_mem_singleton] at hwords
    rw [relocateBody, evalBody, evalBody]
    exact .terminal _ _ hwords _
  | .interpolated segments caseless, _, _, hslots, hwords, c => by
    rw [bodyWords, List.forall_mem_map] at hwords
    rw [relocateBody, evalBody, evalBody]
    refine .bind (evalSegments_embedded hclient hembeds.actions hslots c.offset segments hwords) fun t t' ht => ?_
    rw [ht]
    exact .terminal _ _ (hcarries.quoted _) _
  | .cls cls, _, _, _, hwords, c => by
    rw [bodyWords, List.forall_mem_singleton] at hwords
    rw [relocateBody, evalBody, evalBody]
    exact .terminal _ _ hwords _
  | .any, _, _, _, hwords, c => by
    rw [bodyWords, List.forall_mem_singleton] at hwords
    rw [relocateBody, evalBody, evalBody]
    exact .terminal _ _ hwords _
termination_by structural body => body

theorem evalExpr_embedded (quiet : Bool) : ∀ (alternatives : List (Sequence α (Body α)))
    (_ : ∀ w ∈ exprWords alternatives, R w w) (earliest : Option Nat) (c : Cursor),
    Agrees R r scene (Result.Retagged R) (evalExpr scene call quiet alternatives earliest c)
      (evalExpr (scene.within large) call' quiet (relocateExpr r alternatives) earliest c)
  | [], _, earliest, c => by
    rw [relocateExpr, evalExpr, evalExpr]
    exact .pure (.failure _)
  | seq :: rest, hwords, earliest, c => by
    rw [exprWords, List.forall_mem_append] at hwords
    rw [relocateExpr, evalExpr, evalExpr]
    refine .bind (evalSequence_embedded quiet seq hwords.1 c) fun x y hxy => ?_
    cases hxy with
    | success hx next => exact .pure (.success hx next)
    | failure offset => exact evalExpr_embedded quiet rest hwords.2 _ c
termination_by structural alternatives => alternatives

theorem evalSequence_embedded (quiet : Bool) : ∀ (seq : Sequence α (Body α)) (_ : ∀ w ∈ sequenceWords seq, R w w)
    (c : Cursor), Agrees R r scene (Result.Retagged R) (evalSequence scene call quiet seq c)
      (evalSequence (scene.within large) call' quiet (relocateSequence r seq) c)
  | ⟨items, action, layout, position⟩, hwords, c => by
    have hparts : (∀ w ∈ itemsWords items, R w w) ∧
        ∀ host, action = some host → ∀ t ∈ hostTags host.node, R (.tag t) (.tag t) := by
      cases action with
      | none =>
        refine ⟨hwords, ?_⟩
        intro host h
        cases h
      | some host =>
        rw [sequenceWords, List.forall_mem_append, List.forall_mem_map] at hwords
        refine ⟨hwords.1, ?_⟩
        intro host' h
        cases h
        exact hwords.2
    have hslots : List.Forall₂ (RetaggedSpan R) (List.replicate layout.length (default : Spanned Value))
        (List.replicate layout.length default) :=
      List.forall₂_same.mpr fun x hx => List.eq_of_mem_replicate hx ▸ .default
    rw [relocateSequence, evalSequence, evalSequence]
    refine .bind (evalItems_embedded quiet layout c.offset items hparts.1 hslots .default c) fun x y hxy => ?_
    cases hxy with
    | failure offset => exact .pure (.failure offset)
    | success hslots hlast next =>
      refine .bind (sequenceValue_embedded hclient hembeds.actions hcarries.untagged hslots
        (passesOn_relocateItems r items) action hparts.2 layout c hlast next) fun v w hv => ?_
      exact .pure (.success hv next)
termination_by structural seq => seq

theorem evalItems_embedded (quiet : Bool) (layout : List Bytes) (start : Nat) :
    ∀ (items : List (Item (Body α))) (_ : ∀ w ∈ itemsWords items, R w w) {slots slots' : List (Spanned Value)}
      (_ : List.Forall₂ (RetaggedSpan R) slots slots') {last last' : Spanned Value}
      (_ : RetaggedSpan R last last') (c : Cursor),
      Agrees R r scene (ItemsResult.Retagged R) (evalItems scene call quiet layout start items slots last c)
        (evalItems (scene.within large) call' quiet layout start (relocateItems r items) slots' last' c)
  | [], _, _, _, hslots, _, _, hlast, c => by
    rw [relocateItems, evalItems, evalItems]
    exact .pure (.success hslots hlast c)
  | ⟨name, autobind, lookahead, body, repetition, slot, position⟩ :: rest, hwords, _, _, hslots, _, _, _, c => by
    rw [itemsWords, List.forall_mem_append] at hwords
    rw [relocateItems, evalItems, evalItems]
    refine .bind (evalItem_embedded quiet layout start _ hslots hwords.1 c) fun x y hxy => ?_
    cases hxy with
    | failure offset => exact .pure (.failure _)
    | success hx next =>
      rw [relocateItem]
      cases slot with
      | none => exact evalItems_embedded quiet layout start rest hwords.2 hslots hx next
      | some i => exact evalItems_embedded quiet layout start rest hwords.2 (RetaggedSpan.set hslots i hx) hx next
termination_by structural items => items

theorem evalItem_embedded (quiet : Bool) (layout : List Bytes) (start : Nat) : ∀ (item : Item (Body α))
    {slots slots' : List (Spanned Value)} (_ : List.Forall₂ (RetaggedSpan R) slots slots')
    (_ : ∀ w ∈ itemWords item, R w w) (c : Cursor),
    Agrees R r scene (Result.Retagged R) (evalItem scene call quiet ⟨slots, layout, start⟩ item c)
      (evalItem (scene.within large) call' quiet ⟨slots', layout, start⟩ (relocateItem r item) c)
  | ⟨_, _, lookahead, body, repetition, _, _⟩, _, _, hslots, hwords, c => by
    rw [itemWords] at hwords
    rw [relocateItem, evalItem, evalItem, isCode_relocateBody]
    have hbody : ∀ quiet c, Agrees R r scene (Result.Retagged R) (evalBody scene call quiet ⟨_, layout, start⟩ body c)
        (evalBody (scene.within large) call' quiet ⟨_, layout, start⟩ (relocateBody r body) c) :=
      fun quiet c => evalBody_embedded quiet layout start body hslots hwords c
    exact lookaround_embedded (repeated_embedded (hbody _) _ _) lookahead _ c
termination_by structural item => item

end

theorem evalRule_embedded (quiet : Bool) {rule : Rule α} (hmem : rule ∈ scene.grammar.rules) (c : Cursor) :
    Agrees R r scene (Result.Retagged R) (evalRule scene call quiet rule c)
      (evalRule (scene.within large) call' quiet (relocateRule r rule) c) := by
  have htag := hcarries.tag rule hmem
  obtain ⟨name, body, decorated, matcher, position⟩ := rule
  unfold evalRule
  cases matcher with
  | none =>
    refine .bind (evalExpr_embedded hclient hembeds hcarries hcall quiet body (hcarries.words _ hmem) none c)
      fun x y hxy => ?_
    cases hxy with
    | failure offset => exact .pure (.failure offset)
    | success hx next =>
      cases decorated with
      | true => exact .pure (.success (.tagged hcarries.emptyTogether htag hx) next)
      | false => exact .pure (.success hx next)
  | some i =>
    simp only [relocateRule, Option.map_some, Scene.grammar_within]
    rw [hembeds.matchers _ hmem i rfl]
    cases hmatcher : scene.grammar.matchers[i]? with
    | none => exact .fault _
    | some matcher =>
      refine .bind (.answer (matcher c)) ?_
      rintro answer answer' ⟨rfl, hanswer⟩
      cases answer with
      | success v taken =>
        have hmade := hcarries.made matcher (List.mem_of_getElem? hmatcher) c v taken hanswer
        exact .pure (.success (.mk (.of_tags v hmade) _ _) _)
      | failure offset =>
        exact .bind (.noteFailure quiet c.offset (hcarries.label _ hmem rfl)) fun _ _ _ => .pure (.failure _)

end Expressions

/-! ### Rules -/

theorem kept?_embedded (i offset : Nat) :
    Agrees R r scene (Option.Rel (Result.Retagged R)) (kept? scene i offset)
      (kept? (scene.within large) (r.place i) offset) := by
  intro p p' hp
  rw [run_kept?, run_kept?]
  refine ⟨.ok ?_, hp⟩
  show Option.Rel _ _ (if scene.settings.memoize then _ else _)
  cases scene.settings.memoize with
  | true => exact hp.memo i offset
  | false => exact .none

theorem keep_embedded (hinjective : ∀ {i j}, r.place i = r.place j → i = j) (quiet : Bool) (i offset : Nat)
    {x y : Result} (hxy : x.Retagged R y) :
    Agrees R r scene (Result.Retagged R) (keep scene quiet i offset x >>= fun _ => Pure.pure x)
      (keep (scene.within large) quiet (r.place i) offset y >>= fun _ => Pure.pure y) := by
  intro p p' hp
  rw [run_keep, run_keep]
  refine ⟨.ok hxy, ?_⟩
  show Progress.Corresponds R r _ _ _ (if scene.settings.memoize && !quiet then _ else _)
  split
  · refine ⟨hp.exact, hp.exact', hp.furthest, hp.expected, ?_⟩
    intro j offset'
    -- different rules stay different, so that keeping one result hides no other
    have hkey : ((i, offset) == (j, offset')) = ((r.place i, offset) == (r.place j, offset')) := by
      rw [Bool.eq_iff_iff, beq_iff_eq, beq_iff_eq, Prod.mk.injEq, Prod.mk.injEq]
      exact ⟨fun h => ⟨congrArg r.place h.1, h.2⟩, fun h => ⟨hinjective h.1, h.2⟩⟩
    show Option.Rel _ (p.trail.memo.insertIfNew (i, offset) x)[(j, offset')]?
      (p'.trail.memo.insertIfNew (r.place i, offset) y)[(r.place j, offset')]?
    rw [Std.HashMap.getElem?_insertIfNew, Std.HashMap.getElem?_insertIfNew, ← hkey]
    have hmem : (i, offset) ∈ p.trail.memo ↔ (r.place i, offset) ∈ p'.trail.memo := by
      have hrel := hp.memo i offset
      rw [Std.HashMap.mem_iff_isSome_getElem?, Std.HashMap.mem_iff_isSome_getElem?]
      revert hrel
      generalize p.trail.memo[(i, offset)]? = found
      generalize p'.trail.memo[(r.place i, offset)]? = found'
      intro hrel
      cases hrel with
      | none => exact Iff.rfl
      | some _ => exact Iff.rfl
    simp only [hmem]
    split
    · exact .some hxy
    · exact hp.memo j offset'
  · exact hp

/-- **A rule goes the same way in the larger grammar**, whatever depth is left. -/
theorem callRule_embedded (hclient : scene.client.Portable R scene.input) (hembeds : r.Embeds scene.grammar large)
    (hcarries : r.Carries scene.grammar R) (depth : Nat) (quiet : Bool) (i : Nat) (c : Cursor) :
    Agrees R r scene (Result.Retagged R) (callRule scene depth quiet i c)
      (callRule (scene.within large) depth quiet (r.place i) c) := by
  have hhook : ∀ call f user, ((scene.client.onCall call).run.run user).1 ≠ .error f :=
    fun call f user h => hclient.hook f ⟨call, user, h⟩
  induction depth generalizing quiet i c with
  | zero =>
    unfold callRule
    rw [Scene.grammar_within, hembeds.rules]
    cases scene.grammar.rules[i]? with
    | none => exact .fault _
    | some rule =>
      refine .bind (kept?_embedded i c.offset) fun found found' hfound => ?_
      cases hfound with
      | some hxy => exact .pure hxy
      | none => exact .bind (.onUser (hhook _) (hhook _)) fun _ _ _ => .fault _
  | succ depth ih =>
    unfold callRule
    rw [Scene.grammar_within, hembeds.rules]
    cases hrule : scene.grammar.rules[i]? with
    | none => exact .fault _
    | some rule =>
      refine .bind (kept?_embedded i c.offset) fun found found' hfound => ?_
      cases hfound with
      | some hxy => exact .pure hxy
      | none =>
        refine .bind (.onUser (hhook _) (hhook _)) fun _ _ _ => ?_
        refine .bind (evalRule_embedded hclient hembeds hcarries ih quiet (List.mem_of_getElem? hrule) c)
          fun x y hxy => ?_
        exact keep_embedded hembeds.injective quiet i c.offset hxy

end Evaluation

/-! ## Parses -/

/-- Two lists have the same elements up to a relation, in whatever order. -/
def SameUpTo (Q : β → γ → Prop) (xs : List β) (ys : List γ) : Prop :=
  (∀ x ∈ xs, ∃ y ∈ ys, Q x y) ∧ ∀ y ∈ ys, ∃ x ∈ xs, Q x y

theorem SameUpTo.of_forall₂ {Q : β → γ → Prop} {xs : List β} {ys : List γ} (h : List.Forall₂ Q xs ys) :
    SameUpTo Q xs ys := by
  induction h with
  | nil => simp [SameUpTo]
  | cons hfirst _ ih =>
    obtain ⟨hleft, hright⟩ := ih
    simp only [SameUpTo, List.forall_mem_cons, List.exists_mem_cons_iff]
    refine ⟨⟨.inl hfirst, ?_⟩, .inl hfirst, ?_⟩
    · intro x hx
      exact .inr (hleft x hx)
    · intro y hy
      exact .inr (hright y hy)

theorem SameUpTo.sortedUnique {Q : Bytes → Bytes → Prop} {xs ys : List Bytes} (h : SameUpTo Q xs ys) :
    SameUpTo Q (Bytes.sortedUnique xs) (Bytes.sortedUnique ys) := by
  simp only [SameUpTo, Bytes.mem_sortedUnique]
  exact h

/-- Outcomes that are the same up to words: trees of one shape and with one span, whose tags are related, or failures
at one offset and position that expect the same up to labels. -/
inductive Outcome.Renamed (R : Word → Word → Prop) : Outcome → Outcome → Prop
  | tree {x y : Spanned Value} (h : RetaggedSpan R x y) : Renamed R (.tree x) (.tree y)
  | failure (offset : Nat) (position : Position) {expected expected' : List Bytes}
      (h : SameUpTo (LabelsRelated R) expected expected') :
      Renamed R (.failure ⟨offset, position, expected⟩) (.failure ⟨offset, position, expected'⟩)

section Parses

variable {R : Word → Word → Prop} {r : Relocation} {g large : Grammar α} {client : Client α σ} {input : Bytes}
  {env : Env σ}

/-- States that correspond make the same outcome of an answer, up to words. -/
theorem outcomeOf_renamed {p p' : Progress σ} (hp : p.Corresponds R r input env.settings.tabs p')
    {answer answer' : Except Fault Result} (h : Related (Result.Retagged R) answer answer') :
    Related (Outcome.Renamed R) (outcomeOf env.settings answer p) (outcomeOf env.settings answer' p') := by
  cases h with
  | error e => exact .error e
  | ok h =>
    cases h with
    | success hx next => exact .ok (.tree hx)
    | failure offset =>
      refine .ok ?_
      unfold reportFailure Env.positionAt
      simp only [hp.furthest]
      rw [hp.exact, hp.exact']
      refine .failure _ _ ?_
      split
      · exact (SameUpTo.of_forall₂ hp.expected).sortedUnique
      · exact .of_forall₂ .nil

/-- **A parse from a rule goes the same way in a larger grammar.** With actions that look at no tags it has the same
outcome in both grammars up to words, or raises the same fault. -/
theorem parse_embedded (hclient : client.Portable R input) (hembeds : r.Embeds g large) (hcarries : r.Carries g R)
    (p q : Parser) {i : Nat} {rule : Rule α} (hrule : g.rules[i]? = some rule) :
    Related (Outcome.Renamed R) (Parser.parse p g client i input env).1
      (Parser.parse q large client (r.place i) input env).1 := by
  -- Neither grammar is empty: each has the start rule.
  have hempty : ¬g.isEmpty = true := by
    unfold Grammar.isEmpty
    rw [List.isEmpty_iff]
    intro h
    rw [h] at hrule
    cases hrule
  have hempty' : ¬large.isEmpty = true := by
    have hrule' := hembeds.rules i
    unfold Grammar.isEmpty
    rw [List.isEmpty_iff]
    intro h
    rw [h, hrule] at hrule'
    cases hrule'
  by_cases hparsing : env.parsing = true
  · unfold Parser.parse
    rw [if_neg hempty, if_neg hempty', if_pos hparsing, if_pos hparsing]
    exact .error _
  · have hagrees : Agrees R r (parseScene g client input env) (Result.Retagged R) _
        (callRule ((parseScene g client input env).within large) env.settings.maxDepth false (r.place i)
          (Cursor.ofText input 0)) :=
      callRule_embedded hclient hembeds hcarries env.settings.maxDepth false i (Cursor.ofText input 0)
    have hstart : Progress.Corresponds R r input env.settings.tabs ⟨(env.reset client input).store, {}⟩
        ⟨(env.reset client input).store, {}⟩ := by
      refine ⟨Locator.exact_ofText _ _, Locator.exact_ofText _ _, rfl, .nil, ?_⟩
      intro j offset
      show Option.Rel _ (∅ : Memo)[(j, offset)]? (∅ : Memo)[(r.place j, offset)]?
      rw [Std.HashMap.getElem?_empty, Std.HashMap.getElem?_empty]
      exact .none
    obtain ⟨hanswer, hend⟩ := hagrees _ _ hstart
    rw [parse_eq_outcomeOf p hempty hparsing rfl, parse_eq_outcomeOf q hempty' hparsing rfl]
    exact outcomeOf_renamed hend hanswer

end Parses

end Packrat
