import Mathlib
import Packrat.Grammar.Combinators
import Packrat.Proofs.Extents
import Packrat.Proofs.Scoping

/-!
# `Packrat.Proofs.Soundness` — what holds in every run with a linked grammar

A parse with a linked grammar looks rules, actions and matchers up in range, writes into slots that are there,
and reads a name from the slot that the item of that name has filled in the same attempt. A rule that is
called at one offset and leaves off at another yields a value that spans what lies between them, and the
elements of a list tile the span of the list.

What linking establishes (`Packrat.Proofs.Scoping`) is kept by every step of the evaluator, and so is the
exactness of spans (`Packrat.Proofs.Extents`); the journal (`Packrat.Proofs.Journal`) is where both show. They
are proved together: the text that a sequence has matched can be cut out of the input because the spans are
exact.

## Contents
- **Sound entries.** `Entry.Safe` and `Entry.Sound`.
- **Attempts.** `Attempt.Holds`: the slots hold the values of the visible names.
- **Host expressions.** `journalHost_sound`.
- **Items.** One lemma for each way to run a step.
- **Expressions.** `journalBody_sound` and its companions, on the structure of an expression.
- **Parses.** `Parser.parse_accesses_safe` and `Parser.parse_spans_exact`.
-/

namespace Packrat

variable {α β γ σ : Type}

-- the linter does not see an assumption that only a companion of a mutual block uses
set_option linter.unusedSectionVars false

/-! ## Sound entries -/

/-- An access succeeds. A name is read from the slot that the layout gives to it, and that slot holds the
value of the one item of that name that has matched in this attempt. -/
def Entry.Safe (g : Grammar α) (input : Bytes) : Entry → Prop
  | .rule target => ∃ i, target = some i ∧ i < g.rules.length
  | .action target => ∃ i, target = some i ∧ i < g.actions.length
  | .matcher i => i < g.matchers.length
  | .write slot count => slot < count
  | .read name slot attempt => ∃ i x, slot = some i ∧ attempt.layout[i]? = some name ∧
      attempt.slots[i]? = some x ∧ (name, x) ∈ attempt.bound ∧ (attempt.bound.map (·.1)).Nodup
  | .matched start _ => start ≤ input.length
  | .text _ => True
  | .list _ _ _ => True
  | .answered _ _ => True

/-- An entry that is safe and exact. -/
def Entry.Sound (g : Grammar α) (input : Bytes) (e : Entry) : Prop := e.Safe g input ∧ e.Exact input

/-! ## Attempts -/

/-- The names that are visible in an attempt that started at `origin` are those of the items that have
matched, in the order of the slots, and their slots hold the values of these items. -/
structure Attempt.Holds (attempt : Attempt) (origin : Cursor) (visible : List Bytes) : Prop where
  start : attempt.start = origin.offset
  prefix_layout : visible <+: attempt.layout
  length_slots : attempt.slots.length = attempt.layout.length
  names : attempt.bound.map (·.1) = visible
  values : ∀ {i : Nat} {field : Field}, attempt.bound[i]? = some field → attempt.slots[i]? = some field.2
  nodup : visible.Nodup

namespace Attempt.Holds

variable {attempt : Attempt} {origin : Cursor} {visible visible' : List Bytes}

/-- Nothing is visible at the start of an attempt. -/
theorem begin (layout : List Bytes) (origin : Cursor) :
    Attempt.Holds ⟨⟨List.replicate layout.length default, layout, origin.offset⟩, []⟩ origin [] := by
  refine ⟨rfl, List.nil_prefix, List.length_replicate, rfl, ?_, List.nodup_nil⟩
  intro i field hfield
  rw [List.getElem?_nil] at hfield
  cases hfield

/-- A visible name can be read. -/
theorem safe_read {g : Grammar α} {input : Bytes} (h : attempt.Holds origin visible) {i : Nat} {name : Bytes}
    (hname : visible[i]? = some name) : (Entry.read name (some i) attempt).Safe g input := by
  have hbound : (attempt.bound.map (·.1))[i]? = some name := by
    rw [h.names]
    exact hname
  rw [List.getElem?_map, Option.map_eq_some_iff] at hbound
  obtain ⟨⟨n, x⟩, hfield, hn⟩ := hbound
  simp only at hn
  subst hn
  have hlayout : attempt.layout[i]? = some n := by
    obtain ⟨rest, hrest⟩ := h.prefix_layout
    rw [← hrest]
    have hlt : i < visible.length := (List.getElem?_eq_some_iff.mp hname).1
    rw [List.getElem?_append_left hlt]
    exact hname
  refine ⟨i, x, rfl, hlayout, h.values hfield, List.mem_of_getElem? hfield, ?_⟩
  rw [h.names]
  exact h.nodup

/-- The slot that an item writes is there. -/
theorem lt_slots (h : attempt.Holds origin visible) {item : Item (Body α)}
    (hbinds : Binds item.name item.slot visible visible') (hlayout : visible' <+: attempt.layout) {i : Nat}
    (hi : item.slot = some i) : i < attempt.slots.length := by
  unfold Binds at hbinds
  split at hbinds
  · rw [hbinds.1] at hi
    cases hi
  · next n _ =>
    obtain ⟨_, hslot, hvisible⟩ := hbinds
    rw [hslot] at hi
    cases hi
    have hle := hlayout.length_le
    rw [hvisible, List.length_append, List.length_singleton] at hle
    rw [h.length_slots]
    omega

/-- Behind an item that has matched, its name is visible too. -/
theorem record (h : attempt.Holds origin visible) {item : Item (Body α)}
    (hbinds : Binds item.name item.slot visible visible') (hlayout : visible' <+: attempt.layout)
    (tree : Spanned Value) : (attempt.record item tree).Holds origin visible' := by
  unfold Binds at hbinds
  cases hname : item.name with
  | none =>
    rw [hname] at hbinds
    obtain ⟨hslot, hvisible⟩ := hbinds
    subst hvisible
    unfold Attempt.record
    rw [hslot, hname]
    exact ⟨h.start, h.prefix_layout, h.length_slots, h.names, h.values, h.nodup⟩
  | some n =>
    rw [hname] at hbinds
    obtain ⟨hnew, hslot, hvisible⟩ := hbinds
    subst hvisible
    unfold Attempt.record
    rw [hslot, hname]
    -- the name is the next one of the layout, and its slot is the first that has not been written
    have hlength : attempt.bound.length = visible.length := by
      rw [← h.names, List.length_map]
    have hlt : visible.length < attempt.slots.length := by
      have hle := hlayout.length_le
      rw [List.length_append, List.length_singleton] at hle
      rw [h.length_slots]
      omega
    refine ⟨h.start, hlayout, ?_, ?_, ?_, ?_⟩
    · show (attempt.slots.set visible.length tree).length = attempt.layout.length
      rw [List.length_set]
      exact h.length_slots
    · show (attempt.bound ++ [(n, tree)]).map (·.1) = visible ++ [n]
      rw [List.map_append, h.names]
      rfl
    · intro i field hfield
      show (attempt.slots.set visible.length tree)[i]? = some field.2
      change (attempt.bound ++ [(n, tree)])[i]? = some field at hfield
      by_cases hlast : visible.length = i
      · -- the slot that has just been written
        subst hlast
        rw [← hlength, List.getElem?_concat_length] at hfield
        cases hfield
        rw [List.getElem?_set_self hlt]
      · rw [List.getElem?_set_ne hlast]
        have hi : i < attempt.bound.length := by
          have hi' := (List.getElem?_eq_some_iff.mp hfield).1
          rw [List.length_append, List.length_singleton] at hi'
          omega
        rw [List.getElem?_append_left hi] at hfield
        exact h.values hfield
    · rw [List.nodup_append]
      refine ⟨h.nodup, List.nodup_singleton n, ?_⟩
      intro m hm m' hm' heq
      rw [List.mem_singleton] at hm'
      subst hm'
      subst heq
      exact hnew hm

end Attempt.Holds

/-- A computation with a journal whose entries are sound and whose kept results are exact. -/
def Soundly (scene : Scene α σ) (f : β → γ) (x : JournalM σ β) (y : EvalM σ γ) (Q : β → Prop) : Prop :=
  Journals (Memo.Exact scene.input) (Entry.Sound scene.grammar scene.input) f x y Q

/-! ## Host expressions -/

section Host

variable {scene : Scene α σ} {attempt : Attempt} {origin c : Cursor} {visible : List Bytes}

/-- Reading a slot cannot reach the memo. -/
theorem read_keeps {I : Memo → Prop} (frame : Frame) (slot : Option Nat) :
    Keeps (σ := σ) I (frame.read slot) (fun _ => True) := by
  unfold Frame.read
  split
  · exact Keeps.pure trivial
  · exact Keeps.fault _

/-- A name in scope is read. -/
theorem read_sound (hattempt : attempt.Holds origin visible) {name : Bytes} {slot : Option Nat}
    (hscoped : ∃ i, slot = some i ∧ visible[i]? = some name) :
    Soundly scene id
      (do enter (.read name slot attempt); silently (attempt.read slot)) (attempt.read slot)
      (fun _ => True) := by
  obtain ⟨i, hi, hname⟩ := hscoped
  subst hi
  exact (Journals.silently (read_keeps _ _)).entering ⟨hattempt.safe_read hname, trivial⟩

variable (hattempt : attempt.Holds origin visible) (hreach : origin.Reaches c)
  (hinput : origin.input = scene.input)

include hattempt hreach hinput

/-- The text that a sequence has matched up to a place is in the input. -/
theorem matched_sound : (Entry.matched attempt.start c.offset).Sound scene.grammar scene.input := by
  have hstart : attempt.start ≤ c.offset := by
    rw [hattempt.start]
    exact hreach.le
  have hstop : c.offset ≤ scene.input.length := by
    rw [← hinput]
    exact hreach.le_length
  exact ⟨Nat.le_trans hstart hstop, hstart, hstop⟩

mutual

theorem journalHost_sound :
    ∀ node : HostNode α, HostScoped scene.grammar.sizes visible node →
      Soundly scene id (journalHost scene attempt c.offset node)
        (evalHost scene attempt.toFrame c.offset node) (fun _ => True)
  | .ref name slot, hscoped => by
    unfold journalHost evalHost
    exact (read_sound hattempt hscoped).bind fun x _ => Journals.pure trivial
  | .const v, _ => Journals.pure trivial
  | .matched, _ => by
    unfold journalHost
    refine (Journals.silently ?_).entering (matched_sound hattempt hreach hinput)
    unfold evalHost
    split
    · exact Keeps.pure trivial
    · exact Keeps.fault _
  | .native a, _ => Journals.silently (Keeps.onStore _)
  | .call name args constructs action, hscoped => by
    unfold journalHost evalHost
    obtain ⟨hargs, hcall⟩ := hscoped
    refine (journalArgs_sound args hargs).bind fun fields _ => ?_
    cases constructs with
    | true => exact Journals.pure trivial
    | false =>
      obtain ⟨i, hi, hlt⟩ := hcall.resolve_left Bool.false_ne_true
      subst hi
      refine Journals.entering ⟨⟨i, rfl, hlt⟩, trivial⟩ ?_
      simp only [id_eq, Bool.false_eq_true, if_false]
      cases (some i).bind (scene.grammar.actions[·]?) with
      | none => exact Journals.fault _
      | some entry => exact Journals.silently (Keeps.onStore _)
termination_by structural node => node

theorem journalArgs_sound :
    ∀ args : List (Host α), ArgsScoped scene.grammar.sizes visible args →
      Soundly scene id (journalArgs scene attempt c.offset args)
        (evalArgs scene attempt.toFrame c.offset args) (fun _ => True)
  | [], _ => Journals.pure trivial
  | ⟨node, pos⟩ :: rest, hscoped => by
    obtain ⟨hnode, hrest⟩ := hscoped
    have hnode' := journalHost_sound node hnode
    have hrest' := journalArgs_sound rest hrest
    -- every argument but a bound name is evaluated like this
    have hother : Soundly scene id
        (do
          let v ← journalHost scene attempt c.offset node
          let rest ← journalArgs scene attempt c.offset rest
          return (([], ⟨v, attempt.start, c.offset⟩) : Field) :: rest)
        (do
          let v ← evalHost scene attempt.toFrame c.offset node
          let rest ← evalArgs scene attempt.toFrame c.offset rest
          return (([], ⟨v, attempt.start, c.offset⟩) : Field) :: rest) (fun _ => True) :=
      hnode'.bind fun v _ => hrest'.bind fun fields _ => Journals.pure trivial
    cases node with
    | ref name slot =>
      exact (read_sound hattempt hnode).bind fun x _ => hrest'.bind fun fields _ => Journals.pure trivial
    | const v => exact hother
    | matched => exact hother
    | native a => exact hother
    | call name args constructs action => exact hother
termination_by structural args => args

end

theorem journalSegments_sound (segments : List (Segment α))
    (hscoped : SegmentsScoped scene.grammar.sizes visible segments) :
    Soundly scene id (journalSegments scene attempt c.offset segments)
      (evalSegments scene attempt.toFrame c.offset segments) (fun _ => True) := by
  induction segments with
  | nil => exact Journals.pure trivial
  | cons segment rest ih =>
    cases segment with
    | spelling text => exact (ih hscoped).bind fun t _ => Journals.pure trivial
    | code host =>
      have hhost := journalHost_sound hattempt hreach hinput host.node hscoped.1
      exact hhost.bind fun v _ => (ih hscoped.2).bind fun t _ => Journals.pure trivial

end Host

/-! ## Items -/

section Evaluator

variable {scene : Scene α σ}

theorem journalTerminal_sound (quiet : Bool) {c : Cursor} (hinput : c.input = scene.input) (label : Bytes)
    (taken : Option Nat) :
    Soundly (σ := σ) scene id (journalTerminal quiet c label taken) (terminal quiet c label taken)
      (Result.Exact c) := by
  cases taken with
  | none =>
    refine (Journals.silently (Keeps.terminal_none quiet c label)).weaken fun r hr => ?_
    rw [hr]
    exact Result.exact_failure c
  | some n =>
    have htext := isTextOf_take c n
    rw [hinput] at htext
    exact (Journals.pure ⟨Cursor.Reaches.advance c n, rfl, rfl⟩).entering ⟨trivial, htext⟩

section Repetition

variable {origin : Cursor} {step : Cursor → JournalM σ Result} {step' : Step σ}
  (hstep : ∀ c, origin.Reaches c → Soundly scene id (step c) (step' c) (Result.Exact c))

include hstep

/-- Every further element starts where the one before ends. -/
theorem journalCollect_sound (fuel : Nat) (collected : List (Spanned Value)) {start : Nat} {c : Cursor}
    (hreach : origin.Reaches c) (htiles : Tiles collected.reverse start c.offset) :
    Soundly scene id (journalCollect step fuel collected c) (collect step' fuel collected c)
      (fun x => c.Reaches x.2 ∧ Tiles x.1 start x.2.offset) := by
  induction fuel generalizing collected c with
  | zero => exact Journals.pure ⟨Cursor.Reaches.refl c, htiles⟩
  | succ fuel ih =>
    unfold journalCollect collect
    refine (hstep c hreach).bind fun r hr => ?_
    cases r with
    | failure offset => exact Journals.pure ⟨Cursor.Reaches.refl c, htiles⟩
    | success tree next =>
      simp only [id_eq]
      split
      · exact Journals.pure ⟨Cursor.Reaches.refl c, htiles⟩
      · obtain ⟨hnext, hcovers⟩ := hr
        have hmore : Tiles (tree :: collected).reverse start next.offset := by
          rw [List.reverse_cons, ← hcovers.stop]
          exact htiles.concat hcovers.start
        refine (ih (tree :: collected) (hreach.trans hnext) hmore).weaken fun x hx => ?_
        exact ⟨hnext.trans hx.1, hx.2⟩

theorem journalRepeated_sound (horigin : origin.input = scene.input) (reach : Nat) (repetition : Repetition)
    {c : Cursor} (hreach : origin.Reaches c) :
    Soundly scene id (journalRepeated reach repetition step c) (repeated reach repetition step' c)
      (Result.Exact c) := by
  -- the entry for a list whose elements lie side by side
  have hlist : ∀ (elements : List (Spanned Value)) (next : Cursor), c.Reaches next →
      Tiles elements c.offset next.offset →
      (Entry.list elements c.offset next.offset).Sound scene.grammar scene.input := by
    intro elements next hnext htiles
    have hlength : next.offset ≤ scene.input.length := by
      rw [← horigin, ← hreach.input]
      exact hnext.le_length
    exact ⟨trivial, htiles, hnext.le, hlength⟩
  cases repetition with
  | once => exact hstep c hreach
  | optional =>
    refine (hstep c hreach).bind fun r hr => ?_
    cases r with
    | failure offset => exact Journals.pure ⟨Cursor.Reaches.refl c, rfl, rfl⟩
    | success tree next => exact Journals.pure ⟨hr.1, rfl, rfl⟩
  | star =>
    have hcollect := journalCollect_sound hstep (reach + 1) [] hreach rfl
    refine hcollect.bind fun x hx => ?_
    exact (Journals.pure ⟨hx.1, rfl, rfl⟩).entering (hlist x.1 x.2 hx.1 hx.2)
  | plus =>
    refine (hstep c hreach).bind fun r hr => ?_
    cases r with
    | failure offset => exact Journals.pure (Result.exact_failure c)
    | success tree next =>
      obtain ⟨hnext, hcovers⟩ := hr
      have hfirst : Tiles [tree].reverse c.offset next.offset := ⟨hcovers.start, hcovers.stop⟩
      have hcollect := journalCollect_sound hstep (reach + 1) [tree] (hreach.trans hnext) hfirst
      refine hcollect.bind fun x hx => ?_
      have hlast := hnext.trans hx.1
      exact (Journals.pure ⟨hlast, rfl, rfl⟩).entering (hlist x.1 x.2 hlast hx.2)

end Repetition

theorem journalLookaround_sound (lookahead : Lookahead) (asCondition : Bool)
    {step : Cursor → JournalM σ Result} {step' : Step σ} {c : Cursor}
    (hstep : Soundly scene id (step c) (step' c) (Result.Exact c)) :
    Soundly scene id (journalLookaround lookahead asCondition step c)
      (lookaround lookahead asCondition step' c) (lookahead.Exact c) := by
  rw [lookaround_eq]
  exact hstep.bind fun r hr => Journals.pure (judge_exact lookahead asCondition hr)

theorem journalValue_sound {attempt : Attempt} {c next : Cursor} {visible : List Bytes}
    (hattempt : attempt.Holds c visible) (hreach : c.Reaches next) (hinput : c.input = scene.input)
    (items : List (Item (Body α))) (action : Option (Host α))
    (haction : ∀ host, action = some host → HostScoped scene.grammar.sizes visible host.node)
    {last : Spanned Value} (hlast : passesOn items = true → last.Covers c next) :
    Soundly scene id (journalValue scene items action c attempt last next)
      (sequenceValue scene items action attempt.layout c attempt.slots last next)
      (fun x => x.Covers c next) := by
  unfold journalValue sequenceValue
  cases action with
  | some host =>
    have hframe : attempt.toFrame = ⟨attempt.slots, attempt.layout, c.offset⟩ := by
      rw [← hattempt.start]
    rw [← hframe]
    have hhost := journalHost_sound hattempt hreach hinput host.node (haction host rfl)
    exact hhost.bind fun v _ => Journals.pure ⟨rfl, rfl⟩
  | none =>
    simp only
    split
    · exact Journals.pure ⟨rfl, rfl⟩
    · split
      · next hpasses => exact Journals.pure (hlast hpasses)
      · have htext := isTextOf_textFrom hreach
        rw [hinput] at htext
        exact (Journals.pure ⟨rfl, rfl⟩).entering ⟨trivial, htext⟩

/-! ## Expressions -/

/-- What the items of a sequence with some layout answer, where it started at `origin`: an attempt in which
every name of the layout is visible. The value of the last item is exact if the sequence passes it on. -/
def AttemptResult.Holds (origin : Cursor) (layout : List Bytes) (items : List (Item (Body α)))
    (last : Spanned Value) (c : Cursor) : AttemptResult → Prop
  | .success attempt last' next =>
    attempt.Holds origin layout ∧ attempt.layout = layout ∧ c.Reaches next ∧
      (items = [] → last' = last ∧ next = c) ∧ (passesOn items = true → last'.Covers c next)
  | .failure offset => c.offset ≤ offset ∧ offset ≤ c.input.length

/-- A sequence that passes on a value has one item, and no lookahead before it. -/
theorem passesOn_cons {item : Item (Body α)} {rest : List (Item (Body α))}
    (h : passesOn (item :: rest) = true) : rest = [] ∧ item.lookahead = .none := by
  cases rest with
  | nil =>
    unfold passesOn at h
    rw [Bool.and_eq_true, Bool.and_eq_true, decide_eq_true_eq] at h
    exact ⟨rfl, h.1.1⟩
  | cons item' rest => cases h

section Expressions

variable {call : Bool → Nat → Cursor → JournalM σ Result} {call' : Bool → Nat → Step σ}
  (hcall : ∀ quiet i c, i < scene.grammar.rules.length → c.input = scene.input →
    Soundly scene id (call quiet i c) (call' quiet i c) (Result.Exact c))

include hcall

theorem journalRuleCall_sound (quiet decorated : Bool) {target : Option Nat}
    (hscoped : ∃ i, target = some i ∧ i < scene.grammar.rules.length) {c : Cursor}
    (hinput : c.input = scene.input) :
    Soundly scene id (journalRuleCall scene call quiet decorated target c)
      (evalCall scene call' quiet decorated target c) (Result.Exact c) := by
  have hentry : (Entry.rule target).Sound scene.grammar scene.input := ⟨hscoped, trivial⟩
  obtain ⟨i, hi, hlt⟩ := hscoped
  subst hi
  refine Journals.entering hentry ?_
  refine (hcall quiet i c hlt hinput).bind fun r hr => ?_
  cases r with
  | failure offset => exact Journals.pure hr
  | success tree next =>
    simp only [id_eq]
    cases scene.grammar.rules[i]? with
    | none => exact Journals.fault _
    | some rule =>
      simp only
      split
      · exact Journals.pure ⟨hr.1, covers_tagged rule.name hr.2⟩
      · exact Journals.pure hr

mutual

theorem journalBody_sound (quiet : Bool) {attempt : Attempt} {origin : Cursor} {visible : List Bytes}
    (hattempt : attempt.Holds origin visible) (horigin : origin.input = scene.input) :
    ∀ (body : Body α), BodyScoped scene.grammar.sizes visible body → ∀ c : Cursor, origin.Reaches c →
      Soundly scene id (journalBody scene call quiet attempt body c)
        (evalBody scene call' quiet attempt.toFrame body c) (Result.Exact c)
  | .code host, hscoped, c, hreach => by
    unfold journalBody evalBody
    have hhost := journalHost_sound hattempt hreach horigin host.node hscoped
    exact hhost.bind fun v _ => Journals.pure ⟨Cursor.Reaches.refl c, rfl, rfl⟩
  | .call _ decorated target, hscoped, c, hreach => by
    unfold journalBody evalBody
    exact journalRuleCall_sound hcall quiet decorated hscoped (hreach.input.trans horigin)
  | .group alternatives, hscoped, c, hreach => by
    unfold journalBody evalBody
    refine journalExpr_sound quiet alternatives hscoped none ?_ (hreach.input.trans horigin)
    intro e he
    cases he
  | .literal spelling caseless braceSensitive, _, c, hreach => by
    unfold journalBody evalBody
    exact journalTerminal_sound quiet (hreach.input.trans horigin) _ _
  | .interpolated segments caseless, hscoped, c, hreach => by
    unfold journalBody evalBody
    refine (journalSegments_sound hattempt hreach horigin segments hscoped).bind fun text _ => ?_
    exact journalTerminal_sound quiet (hreach.input.trans horigin) _ _
  | .cls cls, _, c, hreach => by
    unfold journalBody evalBody
    exact journalTerminal_sound quiet (hreach.input.trans horigin) _ _
  | .any, _, c, hreach => by
    unfold journalBody evalBody
    exact journalTerminal_sound quiet (hreach.input.trans horigin) _ _
termination_by structural body => body

theorem journalExpr_sound (quiet : Bool) :
    ∀ (alternatives : List (Sequence α (Body α))), ExprScoped scene.grammar.sizes alternatives →
      ∀ (earliest : Option Nat) {c : Cursor}, (∀ e, earliest = some e → (Result.failure e).Exact c) →
      c.input = scene.input →
      Soundly scene id (journalExpr scene call quiet alternatives earliest c)
        (evalExpr scene call' quiet alternatives earliest c) (Result.Exact c)
  | [], _, earliest, c, hearliest, hinput => by
    unfold journalExpr evalExpr
    cases earliest with
    | none => exact Journals.pure (Result.exact_failure c)
    | some e => exact Journals.pure (hearliest e rfl)
  | seq :: rest, hscoped, earliest, c, hearliest, hinput => by
    unfold journalExpr evalExpr
    refine (journalSequence_sound quiet seq hscoped.1 c hinput).bind fun r hr => ?_
    cases r with
    | success tree next => exact Journals.pure hr
    | failure offset =>
      refine journalExpr_sound quiet rest hscoped.2 _ ?_ hinput
      intro e he
      cases he
      cases earliest with
      | none => exact hr
      | some e =>
        obtain ⟨hle, hlength⟩ := hearliest e rfl
        exact ⟨Nat.le_min.mpr ⟨hle, hr.1⟩, Nat.le_trans (Nat.min_le_left _ _) hlength⟩
termination_by structural alternatives => alternatives

theorem journalSequence_sound (quiet : Bool) :
    ∀ (seq : Sequence α (Body α)), SequenceScoped scene.grammar.sizes seq → ∀ c : Cursor,
      c.input = scene.input →
      Soundly scene id (journalSequence scene call quiet seq c)
        (evalSequence scene call' quiet seq c) (Result.Exact c)
  | ⟨items, action, layout, _⟩, hscoped, c, hinput => by
    unfold journalSequence evalSequence
    obtain ⟨hitems, haction⟩ := hscoped
    refine (journalItems_sound quiet layout hinput items hitems (Attempt.Holds.begin layout c) rfl
      default c (Cursor.Reaches.refl c)).bind fun r hr => ?_
    cases r with
    | failure offset => exact Journals.pure hr
    | success attempt last next =>
      obtain ⟨hattempt, hlayout, hreach, _, hlast⟩ := hr
      have hvalue := journalValue_sound hattempt hreach hinput items action haction hlast
      rw [hlayout] at hvalue
      exact hvalue.bind fun v hv => Journals.pure ⟨hreach, hv⟩
termination_by structural seq => seq

theorem journalItems_sound (quiet : Bool) (layout : List Bytes) {origin : Cursor}
    (horigin : origin.input = scene.input) :
    ∀ (items : List (Item (Body α))) {visible : List Bytes},
      ItemsScoped scene.grammar.sizes visible layout items →
      ∀ {attempt : Attempt}, attempt.Holds origin visible → attempt.layout = layout →
      ∀ (last : Spanned Value) (c : Cursor), origin.Reaches c →
      Soundly scene AttemptResult.toItemsResult (journalItems scene call quiet items attempt last c)
        (evalItems scene call' quiet layout origin.offset items attempt.slots last c)
        (AttemptResult.Holds origin layout items last c)
  | [], visible, hscoped, attempt, hattempt, hlayout, last, c, hreach => by
    unfold journalItems evalItems
    unfold ItemsScoped at hscoped
    subst hscoped
    refine Journals.pure (f := AttemptResult.toItemsResult)
      ⟨hattempt, hlayout, Cursor.Reaches.refl c, fun _ => ⟨rfl, rfl⟩, ?_⟩
    intro hpasses
    cases hpasses
  | item :: rest, visible, hscoped, attempt, hattempt, hlayout, last, c, hreach => by
    unfold journalItems evalItems
    unfold ItemsScoped at hscoped
    obtain ⟨hitem, visible', hbinds, hrest⟩ := hscoped
    have hprefix : visible' <+: attempt.layout := by
      rw [hlayout]
      exact hrest.prefix
    have hframe : attempt.toFrame = ⟨attempt.slots, layout, origin.offset⟩ := by
      rw [← hlayout, ← hattempt.start]
    rw [← hframe]
    refine (journalItem_sound quiet hattempt horigin item hitem c hreach).bind fun r hr => ?_
    cases r with
    | failure offset =>
      exact Journals.pure (f := AttemptResult.toItemsResult) (Result.exact_failure c)
    | success tree next =>
      obtain ⟨hnext, hcovers⟩ := hr
      have hrest' := journalItems_sound quiet layout horigin rest hrest
        (hattempt.record hbinds hprefix tree) hlayout tree next (hreach.trans hnext)
      refine Journals.writing (fun i hi => ⟨hattempt.lt_slots hbinds hprefix hi, trivial⟩) ?_
      refine hrest'.weaken fun r' hr' => ?_
      cases r' with
      | failure offset =>
        obtain ⟨hle, hlength⟩ := hr'
        rw [hnext.input] at hlength
        exact ⟨Nat.le_trans hnext.le hle, hlength⟩
      | success attempt' last' next' =>
        obtain ⟨hattempt', hlayout', hnext', hnil, _⟩ := hr'
        refine ⟨hattempt', hlayout', hnext.trans hnext', ?_, ?_⟩
        · intro hcons
          cases hcons
        · intro hpasses
          -- the only item is the last one
          obtain ⟨hsole, hnone⟩ := passesOn_cons hpasses
          obtain ⟨hlast, hlater⟩ := hnil hsole
          rw [hlast, hlater]
          exact hcovers hnone
termination_by structural items => items

theorem journalItem_sound (quiet : Bool) {attempt : Attempt} {origin : Cursor} {visible : List Bytes}
    (hattempt : attempt.Holds origin visible) (horigin : origin.input = scene.input) :
    ∀ (item : Item (Body α)), ItemScoped scene.grammar.sizes visible item → ∀ c : Cursor,
      origin.Reaches c →
      Soundly scene id (journalItem scene call quiet attempt item c)
        (evalItem scene call' quiet attempt.toFrame item c) (item.lookahead.Exact c)
  | ⟨_, _, lookahead, body, repetition, _, _⟩, hscoped, c, hreach => by
    unfold journalItem evalItem
    refine journalLookaround_sound lookahead _ ?_
    refine journalRepeated_sound ?_ horigin _ repetition hreach
    intro c' hreach'
    exact journalBody_sound _ hattempt horigin body hscoped c' hreach'
termination_by structural item => item

end

theorem journalRule_sound (hscoped : scene.grammar.Scoped) (quiet : Bool) {rule : Rule α}
    (hrule : rule ∈ scene.grammar.rules) {c : Cursor} (hinput : c.input = scene.input) :
    Soundly scene id (journalRule scene call quiet rule c) (evalRule scene call' quiet rule c)
      (Result.Exact c) := by
  unfold journalRule evalRule
  cases hmatcher : rule.matcher with
  | none =>
    have hbody := journalExpr_sound hcall quiet rule.body (hscoped.body rule hrule hmatcher) none
      (fun e he => by cases he) hinput
    refine hbody.bind fun r hr => ?_
    cases r with
    | failure offset => exact Journals.pure hr
    | success tree next =>
      simp only [id_eq]
      split
      · exact Journals.pure ⟨hr.1, covers_tagged rule.name hr.2⟩
      · exact Journals.pure hr
  | some i =>
    refine Journals.entering ⟨hscoped.matcher rule hrule i hmatcher, trivial⟩ ?_
    simp only
    cases scene.grammar.matchers[i]? with
    | none => exact Journals.fault _
    | some matcher =>
      refine (Journals.silently (Keeps.answer (matcher c))).bind fun m _ => ?_
      cases m with
      | failure offset =>
        refine (Journals.silently (Keeps.noteFailure quiet c.offset rule.name)).bind fun _ _ => ?_
        exact Journals.pure (Result.exact_failure c)
      | success v taken => exact Journals.pure ⟨Cursor.Reaches.advance c taken, rfl, rfl⟩

end Expressions

/-! ## Parses -/

/-- A rule call in a scoped grammar makes sound entries, and its answer is exact. -/
theorem journalCall_sound (hscoped : scene.grammar.Scoped) (depth : Nat) (quiet : Bool) {index : Nat}
    (hindex : index < scene.grammar.rules.length) {c : Cursor} (hinput : c.input = scene.input) :
    Soundly scene id (journalCall scene depth quiet index c) (callRule scene depth quiet index c)
      (Result.Exact c) := by
  refine Journals.ruleCall (fun i => i < scene.grammar.rules.length) (fun c => c.input = scene.input)
    (fun c r => r.Exact c) ?_ ?_ ?_ ?_ ?_ depth quiet index c hindex hinput
  · intro i hi
    exact ⟨⟨i, rfl, hi⟩, trivial⟩
  · intro memo i c r hc hmemo hr
    exact hmemo i c r hc hr
  · intro memo i c r hc hmemo hr
    exact hmemo.insertIfNew i hc hr
  · intro c r hc hr
    exact ⟨trivial, hc, hr⟩
  · intro call call' hcall quiet rule hrule c hc
    exact journalRule_sound (fun quiet i c hi hc => hcall quiet i c hi hc) hscoped quiet hrule hc

end Evaluator

section Parses

variable {b : Builder α} {g : Grammar α} {index : Nat}

/-- A parse with a grammar that a builder answers makes sound entries, and its tree spans what the start rule
takes. -/
theorem Parser.parse_sound (hassembled : b.Assembled) (hbuild : b.build = .ok g)
    (hindex : index < g.rules.length) (p : Parser) (client : Client α σ) (input : Bytes) (env : Env σ) :
    (p.parseJournaled g client index input env).1 = p.parse g client index input env ∧
      (∀ e ∈ (p.parseJournaled g client index input env).2, e.Sound g input) ∧
      ∀ tree, (p.parse g client index input env).1 = .ok (.tree tree) →
        ∃ next, (Result.success tree next).Exact (Cursor.ofText input 0) := by
  have hscoped : g.Scoped := Builder.build_scoped hassembled hbuild
  have hcall : Soundly (parseScene g client input env) id
      (journalCall (parseScene g client input env) env.settings.maxDepth false index
        (Cursor.ofText input 0))
      (Packrat.callRule (parseScene g client input env) env.settings.maxDepth false index
        (Cursor.ofText input 0)) (Result.Exact (Cursor.ofText input 0)) :=
    @journalCall_sound α σ (parseScene g client input env) hscoped env.settings.maxDepth false index
      hindex (Cursor.ofText input 0) rfl
  exact p.parseJournaled_journals (Memo.exact_empty input) hcall

/-- **Spans are exact.** In a parse with a grammar that a builder answers, a rule that is called at `c` and
leaves off at `next` yields a value that spans what lies between them, and one that fails does so behind `c`
and within the input. The texts that the evaluator makes are what they span, and the elements of the lists
lie side by side from start to end. -/
theorem Parser.parse_spans_exact (hassembled : b.Assembled) (hbuild : b.build = .ok g)
    (hindex : index < g.rules.length) (p : Parser) (client : Client α σ) (input : Bytes) (env : Env σ) :
    (p.parseJournaled g client index input env).1 = p.parse g client index input env ∧
      (∀ c x next, .answered c (.success x next) ∈ (p.parseJournaled g client index input env).2 →
        x.start = c.offset ∧ x.stop = next.offset ∧ c.offset ≤ next.offset ∧
          next.offset ≤ input.length) ∧
      (∀ c offset, .answered c (.failure offset) ∈ (p.parseJournaled g client index input env).2 →
        c.offset ≤ offset ∧ offset ≤ input.length) ∧
      (∀ x, .text x ∈ (p.parseJournaled g client index input env).2 → x.IsTextOf input) ∧
      (∀ elements start stop, .list elements start stop ∈ (p.parseJournaled g client index input env).2 →
        Tiles elements start stop) ∧
      ∀ tree, (p.parse g client index input env).1 = .ok (.tree tree) →
        tree.start = 0 ∧ tree.stop ≤ input.length := by
  obtain ⟨hplain, hsound, htree⟩ := Parser.parse_sound hassembled hbuild hindex p client input env
  refine ⟨hplain, ?_, ?_, ?_, ?_, ?_⟩
  · intro c x next he
    obtain ⟨_, hinput, hreach, hcovers⟩ := hsound _ he
    have hlength : next.offset ≤ input.length := by
      rw [← hinput]
      exact hreach.le_length
    exact ⟨hcovers.start, hcovers.stop, hreach.le, hlength⟩
  · intro c offset he
    obtain ⟨_, hinput, hle, hlength⟩ := hsound _ he
    rw [hinput] at hlength
    exact ⟨hle, hlength⟩
  · intro x he
    exact (hsound _ he).2
  · intro elements start stop he
    exact (hsound _ he).2.1
  · intro tree htree'
    obtain ⟨next, hreach, hcovers⟩ := htree tree htree'
    constructor
    · rw [hcovers.start, Cursor.offset_ofText, Nat.zero_min]
    · rw [hcovers.stop]
      exact hreach.le_length

end Parses

/-- `S <- ~Letter '{Letter}' (Letter / .)* { text(Letter, $) }` and `Letter <- [ab]`. -/
def stutter : Builder Empty :=
  let letter : Expr Empty := Expr.call (Bytes.ascii "Letter")
  let again : Expr Empty := Expr.ofBody (.interpolated [.code (Host.ref (Bytes.ascii "Letter"))] false)
  let rest : Expr Empty := Expr.star (Expr.grouped (Expr.orElse letter Expr.any))
  let joined : Host Empty :=
    Host.invoke (Bytes.ascii "text") [Host.ref (Bytes.ascii "Letter"), Host.matched]
  (Builder.addRule {} (Bytes.ascii "S")
    (Expr.withAction (Expr.sequence [Expr.autobind letter, again, rest]) joined) false .unknown).addRule
    (Bytes.ascii "Letter") (Expr.ofClass ⟨[⟨0x61, 0x62⟩], false, false, Bytes.ascii "[ab]"⟩) false .unknown

/-- An environment in which no result is kept. -/
def keepingNothing : Env Unit := { settings := { memoize := false }, store := { user := () } }

theorem stutter_assembled : stutter.Assembled := .rule (.rule .new _ _ _ _) _ _ _ _

theorem parse_spans_exact_stutter : ∃ g, stutter.build = .ok g ∧ 0 < g.rules.length ∧
    (Parser.parse {} g Client.none 0 (Bytes.ascii "aab!") keepingNothing).1 =
      .ok (.tree ⟨.text (Bytes.ascii "aaab!"), 0, 4⟩) ∧
    ∀ elements start stop,
      .list elements start stop ∈
        (Parser.parseJournaled {} g Client.none 0 (Bytes.ascii "aab!") keepingNothing).2 →
      Tiles elements start stop := by
  refine ⟨_, rfl, by decide, by cbv, ?_⟩
  exact (Parser.parse_spans_exact stutter_assembled rfl (by decide) {} Client.none _ _).2.2.2.2.1

end Packrat
