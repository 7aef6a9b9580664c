import Mathlib.Data.List.Forall2
import Packrat.Proofs.Trace

/-!
# `Packrat.Proofs.Shape` — what the values of a grammar look like

The values that a grammar without embedded code makes have shapes that can be read off its rules: a rule that
binds names makes nodes with these names, a repetition makes lists, and so on. The shape of a rule mentions
the rules that it calls by name, so that no rule has to be looked into twice.

## Contents
- **Shapes.** `Shape`, `Schema`, and `HasShape`, what it means for a value to have a shape.
- **Reading shapes off.** `Body.shape?` and its companions, on the structure of an expression. There is no
  answer where a fault might be raised.
- **Soundness.** `traceCall_fits`: a rule with a shape raises no fault, and its value has the shape.
-/

namespace Packrat

variable {α β γ : Type}

-- the linter does not see an assumption that only a companion of a mutual block uses
set_option linter.unusedSectionVars false

/-! ## Shapes -/

/-- What a value looks like. -/
inductive Shape where
  | any
  | text
  | option (content : Shape)
  | list (nonempty : Bool) (element : Shape)
  | node (tag : Bytes) (fields : List (Bytes × Shape))
  /-- What the values of the rule of the given name look like. -/
  | rule (name : Bytes)
  | oneOf (shapes : List Shape)

/-- What the values of the rules look like, by the name of the rule. -/
abbrev Schema := List (Bytes × Shape)

mutual

/-- A value has a shape, where the rules have the shapes of a schema. -/
inductive HasShape (schema : Schema) : Shape → Value → Prop
  | any {v : Value} : HasShape schema .any v
  | text {t : Bytes} : HasShape schema .text (.text t)
  | absent {s : Shape} : HasShape schema (.option s) (.option none)
  | present {s : Shape} {x : Spanned Value} (h : HasShape schema s x.value) :
      HasShape schema (.option s) (.option (some x))
  | list {nonempty : Bool} {s : Shape} {elements : List (Spanned Value)}
      (hsome : nonempty = true → elements ≠ []) (h : ∀ x ∈ elements, HasShape schema s x.value) :
      HasShape schema (.list nonempty s) (.list elements)
  | node {tag : Bytes} {shapes : List (Bytes × Shape)} {fields : List Field}
      (h : HaveShapes schema shapes fields) : HasShape schema (.node tag shapes) (.node tag fields)
  | rule {name : Bytes} {s : Shape} {v : Value} (hentry : findEntry name schema = some s)
      (h : HasShape schema s v) : HasShape schema (.rule name) v
  | oneOf {shapes : List Shape} {s : Shape} {v : Value} (hmem : s ∈ shapes) (h : HasShape schema s v) :
      HasShape schema (.oneOf shapes) v

/-- The fields of a node have the given names and shapes, in this order. -/
inductive HaveShapes (schema : Schema) : List (Bytes × Shape) → List Field → Prop
  | nil : HaveShapes schema [] []
  | cons {name : Bytes} {s : Shape} {x : Spanned Value} {shapes : List (Bytes × Shape)}
      {fields : List Field} (h : HasShape schema s x.value) (hrest : HaveShapes schema shapes fields) :
      HaveShapes schema ((name, s) :: shapes) ((name, x) :: fields)

end

section

variable {schema : Schema} {s : Shape} {v : Value}

/-- The field of a name has the shape of the name. -/
theorem HaveShapes.find {shapes : List (Bytes × Shape)} {fields : List Field}
    (h : HaveShapes schema shapes fields) {name : Bytes} (hname : findEntry name shapes = some s) :
    ∃ x, Value.findField name fields = some x ∧ HasShape schema s x.value := by
  induction shapes generalizing fields with
  | nil => cases hname
  | cons entry rest ih =>
    cases h with
    | @cons n s' x _ fields hx hrest =>
      rw [findEntry] at hname
      rw [Value.findField]
      split at hname
      · next heq =>
        cases hname
        rw [if_pos heq]
        exact ⟨x, rfl, hx⟩
      · next hne =>
        rw [if_neg hne]
        exact ih hrest hname

/-- Slots with shapes become fields with these shapes. -/
theorem HaveShapes.zip {shapes : List Shape} {slots : List (Spanned Value)} (layout : List Bytes)
    (h : List.Forall₂ (fun s (x : Spanned Value) => HasShape schema s x.value) shapes slots) :
    HaveShapes schema (layout.zip shapes) (layout.zip slots) := by
  induction h generalizing layout with
  | nil =>
    rw [List.zip_nil_right, List.zip_nil_right]
    exact .nil
  | cons hx hrest ih =>
    cases layout with
    | nil => exact .nil
    | cons name layout => exact .cons hx (ih layout)

/-- Putting related elements into related lists. -/
theorem forall₂_set {R : β → γ → Prop} {xs : List β} {ys : List γ} (h : List.Forall₂ R xs ys) (i : Nat)
    {x : β} {y : γ} (hxy : R x y) : List.Forall₂ R (xs.set i x) (ys.set i y) := by
  induction h generalizing i with
  | nil => exact .nil
  | cons hhead hrest ih =>
    cases i with
    | zero => exact .cons hxy hrest
    | succ i => exact .cons hhead (ih i)

/-- One of several shapes, or the only one. -/
def Shape.choice : List Shape → Shape
  | [s] => s
  | shapes => .oneOf shapes

theorem HasShape.choice {shapes : List Shape} (hmem : s ∈ shapes) (h : HasShape schema s v) :
    HasShape schema (Shape.choice shapes) v := by
  unfold Shape.choice
  split
  · rw [← List.mem_singleton.mp hmem]
    exact h
  · exact .oneOf hmem h

end

/-! ## Reading shapes off -/

/-- What a repetition makes of values of a shape. -/
def Repetition.shape (repetition : Repetition) (s : Shape) : Shape :=
  match repetition with
  | .once => s
  | .optional => .option s
  | .star => .list false s
  | .plus => .list true s

/-- What a tag makes of values of a shape. -/
def Shape.tagged? (tag : Bytes) : Shape → Option Shape
  | .text => some (.node tag [(Bytes.ascii "value", .text)])
  | .node [] fields => some (.node tag fields)
  | _ => none

/-- What a sequence makes of the shapes of its slots and of its last item. -/
def valueShape? (items : List (Item (Body α))) (action : Option (Host α)) (layout : List Bytes)
    (slots : List Shape) (last : Shape) : Option Shape :=
  match action with
  | some ⟨.ref _ slot, _⟩ => slot.bind (slots[·]?)
  | some _ => none
  | none =>
    if !layout.isEmpty then some (.node [] (layout.zip slots))
    else if passesOn items then some last
    else some .text

mutual

/-- The shape of a body, where the rules have the given names. -/
def Body.shape? (names : List Bytes) : Body α → Option Shape
  | .code _ => none
  | .call name decorated target =>
    if !decorated && target.bind (names[·]?) == some name then some (.rule name) else none
  | .group alternatives => (exprShapes? names alternatives).map Shape.choice
  | .literal _ _ _ => some .text
  | .interpolated _ _ => none
  | .cls _ => some .text
  | .any => some .text
termination_by structural body => body

/-- The shapes of the alternatives of an expression. -/
def exprShapes? (names : List Bytes) : List (Sequence α (Body α)) → Option (List Shape)
  | [] => some []
  | seq :: rest => do
    let s ← sequenceShape? names seq
    let shapes ← exprShapes? names rest
    return s :: shapes
termination_by structural alternatives => alternatives

/-- The shape of a sequence. -/
def sequenceShape? (names : List Bytes) : Sequence α (Body α) → Option Shape
  | ⟨items, action, layout, _⟩ => do
    let (slots, last) ← itemsShapes? names items (List.replicate layout.length .any) .any
    valueShape? items action layout slots last
termination_by structural seq => seq

/-- The shapes of the slots behind items, and of the last item. -/
def itemsShapes? (names : List Bytes) :
    List (Item (Body α)) → List Shape → Shape → Option (List Shape × Shape)
  | [], slots, last => some (slots, last)
  | item :: rest, slots, _ => do
    let s ← itemShape? names item
    let slots := match item.slot with
      | none => slots
      | some i => slots.set i s
    itemsShapes? names rest slots s
termination_by structural items => items

/-- The shape of an item. A lookahead says nothing about its value. -/
def itemShape? (names : List Bytes) : Item (Body α) → Option Shape
  | ⟨_, _, lookahead, body, repetition, _, _⟩ => do
    let s ← body.shape? names
    if lookahead = .none then return repetition.shape s else return .any
termination_by structural item => item

end

/-- The shape of a rule that stands for no matcher. -/
def Rule.shape? (names : List Bytes) (rule : Rule α) : Option Shape :=
  if rule.matcher.isSome then none
  else do
    let shapes ← exprShapes? names rule.body
    if rule.decorated then return Shape.choice (← shapes.mapM (Shape.tagged? rule.name))
    else return Shape.choice shapes

/-- The shapes of the rules of a grammar. -/
def Grammar.schema? (g : Grammar α) : Option Schema :=
  g.rules.mapM fun rule => (rule.shape? (g.rules.map (·.name))).map fun s => (rule.name, s)

/-! ## Soundness -/

/-- An evaluation raises no fault, and its answer satisfies `Q`. -/
def Traced.Answers (x : Traced β) (Q : β → Prop) : Prop :=
  (∀ f, x.answer ≠ .error (.fault f)) ∧ ∀ b, x.answer = .ok b → Q b

namespace Traced.Answers

variable {x : Traced β} {Q : β → Prop} {R : γ → Prop}

theorem pure {b : β} (hb : Q b) : (Pure.pure b : Traced β).Answers Q := by
  constructor
  · intro f hf
    cases hf
  · intro b' hb'
    cases hb'
    exact hb

theorem bind {k : β → Traced γ} (hx : x.Answers Q) (hk : ∀ b, Q b → (k b).Answers R) :
    (x >>= k).Answers R := by
  cases h : x.answer with
  | error e =>
    rw [Traced.bind_error h]
    constructor
    · intro f hf
      cases hf
      exact hx.1 f h
    · intro b hb
      cases hb
  | ok b =>
    rw [Traced.bind_ok h]
    exact hk b (hx.2 b h)

theorem weaken {Q' : β → Prop} (hx : x.Answers Q) (hQ : ∀ b, Q b → Q' b) : x.Answers Q' :=
  ⟨hx.1, fun b hb => hQ b (hx.2 b hb)⟩

theorem lift {e : Except Fault β} {b : β} (h : e = .ok b) (hb : Q b) : (Traced.lift e).Answers Q := by
  subst h
  exact pure hb

theorem log (f : Failure) : (Traced.log f).Answers (fun _ => True) := by
  constructor
  · intro f' hf'
    cases hf'
  · intro b _
    trivial

theorem body (lookahead : Lookahead) (hx : x.Answers Q) : (lookahead.body x).Answers Q := by
  unfold Lookahead.body
  split
  · exact hx
  · exact hx

end Traced.Answers

/-- The value of a successful result has a shape. -/
def Result.Fits (schema : Schema) (s : Shape) : Result → Prop
  | .success tree _ => HasShape schema s tree.value
  | .failure _ => True

/-- What the items of a sequence answer has the given shapes. -/
def ItemsResult.Fits (schema : Schema) (shapes : List Shape) (last : Shape) : ItemsResult → Prop
  | .success slots tree _ =>
    List.Forall₂ (fun s (x : Spanned Value) => HasShape schema s x.value) shapes slots ∧
      HasShape schema last tree.value
  | .failure _ => True

section Values

variable {schema : Schema}

/-- A tagged value has the tagged shape. -/
theorem HasShape.tagged {tag : Bytes} {s s' : Shape} {x : Spanned Value} (hs : s.tagged? tag = some s')
    (h : HasShape schema s x.value) : HasShape schema s' (Packrat.tagged tag x).value := by
  obtain ⟨v, start, stop⟩ := x
  unfold Shape.tagged? at hs
  split at hs
  · cases hs
    cases h
    exact .node (.cons .text .nil)
  · cases hs
    cases h with
    | node hfields => exact .node hfields
  · cases hs

/-- What a function answers on an element of a list on which it always answers. -/
theorem mem_of_mapM_eq_some {f : β → Option γ} {xs : List β} {ys : List γ} (h : xs.mapM f = some ys)
    {x : β} (hx : x ∈ xs) : ∃ y ∈ ys, f x = some y := by
  induction xs generalizing ys with
  | nil => cases hx
  | cons x' rest ih =>
    rw [List.mapM_cons] at h
    obtain ⟨y', hy', h⟩ := Option.bind_eq_some_iff.mp h
    obtain ⟨rest', hrest', h⟩ := Option.bind_eq_some_iff.mp h
    cases h
    rcases List.mem_cons.mp hx with hhead | htail
    · rw [hhead]
      exact ⟨y', List.mem_cons_self, hy'⟩
    · obtain ⟨y, hmem, hy⟩ := ih hrest' htail
      exact ⟨y, List.mem_cons_of_mem _ hmem, hy⟩

/-- A tagged value of one of several shapes has one of the tagged shapes. -/
theorem HasShape.tagged_choice {tag : Bytes} {shapes shapes' : List Shape} {x : Spanned Value}
    (hshapes : shapes.mapM (Shape.tagged? tag) = some shapes') {s : Shape} (hmem : s ∈ shapes)
    (h : HasShape schema s x.value) :
    HasShape schema (Shape.choice shapes') (Packrat.tagged tag x).value := by
  obtain ⟨s', hmem', hs'⟩ := mem_of_mapM_eq_some hshapes hmem
  exact HasShape.choice hmem' (h.tagged hs')

/-- The entry of a name in a list in which the names are different. -/
theorem findEntry_of_mem {entries : List (Bytes × γ)} (hnodup : (entries.map (·.1)).Nodup) {name : Bytes}
    {x : γ} (hmem : (name, x) ∈ entries) : findEntry name entries = some x := by
  induction entries with
  | nil => cases hmem
  | cons entry rest ih =>
    obtain ⟨n, y⟩ := entry
    rw [List.map_cons, List.nodup_cons] at hnodup
    rw [findEntry]
    rcases List.mem_cons.mp hmem with hhead | htail
    · cases hhead
      rw [if_pos (beq_self_eq_true name)]
    · have hne : ¬(n == name) = true := by
        intro heq
        rw [eq_of_beq heq] at hnodup
        exact hnodup.1 (List.mem_map.mpr ⟨_, htail, rfl⟩)
      rw [if_neg hne]
      exact ih hnodup.2 htail

end Values

section Items

variable {schema : Schema} {s : Shape} {step : Cursor → Traced Result}

theorem traceTerminal_fits (c : Cursor) (label : Bytes) (taken : Option Nat) :
    (traceTerminal c label taken).Answers (Result.Fits schema .text) := by
  cases taken with
  | some n => exact Traced.Answers.pure .text
  | none => exact (Traced.Answers.log _).bind fun _ _ => Traced.Answers.pure trivial

/-- What has been collected is in reverse order. -/
theorem reverse_fits {collected : List (Spanned Value)}
    (hcollected : ∀ x ∈ collected, HasShape schema s x.value) :
    (collected ≠ [] → collected.reverse ≠ []) ∧ ∀ y ∈ collected.reverse, HasShape schema s y.value := by
  constructor
  · intro hne hreverse
    exact hne (List.reverse_eq_nil_iff.mp hreverse)
  · intro y hy
    exact hcollected y (List.mem_reverse.mp hy)

section Repetition

variable (hstep : ∀ c, (step c).Answers (Result.Fits schema s))

include hstep

/-- A repetition keeps the elements that it starts with. -/
theorem traceCollect_fits (fuel : Nat) {collected : List (Spanned Value)} (c : Cursor)
    (hcollected : ∀ x ∈ collected, HasShape schema s x.value) :
    (traceCollect step fuel collected c).Answers fun x =>
      (collected ≠ [] → x.1 ≠ []) ∧ ∀ y ∈ x.1, HasShape schema s y.value := by
  induction fuel generalizing collected c with
  | zero => exact Traced.Answers.pure (reverse_fits hcollected)
  | succ fuel ih =>
    unfold traceCollect
    refine (hstep c).bind fun r hr => ?_
    cases r with
    | failure offset => exact Traced.Answers.pure (reverse_fits hcollected)
    | success tree next =>
      simp only
      split
      · exact Traced.Answers.pure (reverse_fits hcollected)
      · have hmore : ∀ x ∈ tree :: collected, HasShape schema s x.value := by
          intro x hx
          rcases List.mem_cons.mp hx with hnew | hold
          · rw [hnew]
            exact hr
          · exact hcollected x hold
        refine (ih next hmore).weaken fun x hx => ?_
        exact ⟨fun _ => hx.1 (List.cons_ne_nil _ _), hx.2⟩

theorem traceRepeated_fits (reach : Nat) (repetition : Repetition) (c : Cursor) :
    (traceRepeated reach repetition step c).Answers (Result.Fits schema (repetition.shape s)) := by
  cases repetition with
  | once => exact hstep c
  | optional =>
    refine (hstep c).bind fun r hr => ?_
    cases r with
    | failure offset => exact Traced.Answers.pure .absent
    | success tree next => exact Traced.Answers.pure (.present hr)
  | star =>
    have hnone : ∀ x ∈ ([] : List (Spanned Value)), HasShape schema s x.value := by
      intro x hx
      cases hx
    refine (traceCollect_fits hstep (reach + 1) c hnone).bind fun x hx => ?_
    refine Traced.Answers.pure (.list ?_ hx.2)
    intro hfalse
    cases hfalse
  | plus =>
    refine (hstep c).bind fun r hr => ?_
    cases r with
    | failure offset => exact Traced.Answers.pure trivial
    | success tree next =>
      have hone : ∀ x ∈ [tree], HasShape schema s x.value := by
        intro x hx
        rw [List.mem_singleton.mp hx]
        exact hr
      refine (traceCollect_fits hstep (reach + 1) next hone).bind fun x hx => ?_
      exact Traced.Answers.pure (.list (fun _ => hx.1 (List.cons_ne_nil _ _)) hx.2)

end Repetition

/-- A test that succeeds may leave any value. -/
theorem judge_fits (lookahead : Lookahead) (asCondition : Bool) (c : Cursor) {r : Result}
    (hr : r.Fits schema s) :
    (lookahead.judge asCondition c r).Fits schema (if lookahead = .none then s else .any) := by
  cases lookahead with
  | none =>
    cases r with
    | failure offset => exact trivial
    | success tree next => exact hr
  | ahead =>
    cases r with
    | failure offset => exact trivial
    | success tree next =>
      rw [if_neg (by decide)]
      simp only [Lookahead.judge]
      split
      · exact trivial
      · exact HasShape.any
  | notAhead =>
    cases r with
    | failure offset => exact .any
    | success tree next =>
      rw [if_neg (by decide)]
      simp only [Lookahead.judge]
      split
      · exact HasShape.any
      · exact trivial

end Items

/-- The value of a sequence, from slots and a last item with shapes. -/
theorem traceValue_fits {b : Basis α} {schema : Schema} {items : List (Item (Body α))}
    {action : Option (Host α)} {layout : List Bytes} {shapes : List Shape} {lastShape s : Shape}
    (hs : valueShape? items action layout shapes lastShape = some s) (c next : Cursor)
    {slots : List (Spanned Value)} {last : Spanned Value}
    (hslots : List.Forall₂ (fun s (x : Spanned Value) => HasShape schema s x.value) shapes slots)
    (hlast : HasShape schema lastShape last.value) :
    ∃ x, traceValue b items action layout c slots last next = .ok x ∧ HasShape schema s x.value := by
  unfold valueShape? at hs
  split at hs
  · next name slot position =>
    -- the action yields what is bound to a name
    cases slot with
    | none => cases hs
    | some i =>
      rw [Option.bind_some] at hs
      obtain ⟨hlt, hget⟩ := List.getElem?_eq_some_iff.mp hs
      have hlt' : i < slots.length := by
        rw [← hslots.length_eq]
        exact hlt
      have hshape : HasShape schema s slots[i].value := by
        rw [← hget]
        exact hslots.get hlt hlt'
      refine ⟨⟨slots[i].value, c.offset, next.offset⟩, ?_, hshape⟩
      unfold traceValue traceHost Frame.value
      simp only [Option.bind_some, List.getElem?_eq_getElem hlt']
      rfl
  · cases hs
  · unfold traceValue
    split at hs
    · next hlayout =>
      cases hs
      simp only [if_pos hlayout]
      exact ⟨_, rfl, .node (HaveShapes.zip layout hslots)⟩
    · next hlayout =>
      simp only [if_neg hlayout]
      split at hs
      · next hpasses =>
        cases hs
        rw [if_pos hpasses]
        exact ⟨last, rfl, hlast⟩
      · next hpasses =>
        cases hs
        rw [if_neg hpasses]
        exact ⟨_, rfl, .text⟩

section Expressions

variable {b : Basis α} {schema : Schema} {call : Nat → Cursor → Traced Result}
  (hcall : ∀ i name, (b.grammar.rules.map (·.name))[i]? = some name →
    ∀ c, (call i c).Answers (Result.Fits schema (.rule name)))

include hcall

theorem traceRuleCall_fits {name : Bytes} {target : Option Nat}
    (htarget : target.bind ((b.grammar.rules.map (·.name))[·]?) = some name) (c : Cursor) :
    (traceRuleCall b call false target c).Answers (Result.Fits schema (.rule name)) := by
  cases target with
  | none => cases htarget
  | some i =>
    rw [Option.bind_some] at htarget
    refine (hcall i name htarget c).bind fun r hr => ?_
    cases r with
    | failure offset => exact Traced.Answers.pure trivial
    | success tree next =>
      rw [List.getElem?_map, Option.map_eq_some_iff] at htarget
      obtain ⟨rule, hrule, _⟩ := htarget
      simp only [hrule, Bool.false_and]
      exact Traced.Answers.pure hr

mutual

theorem traceBody_fits (frame : Frame) :
    ∀ (body : Body α) {s : Shape}, body.shape? (b.grammar.rules.map (·.name)) = some s → ∀ c : Cursor,
      (traceBody b call frame body c).Answers (Result.Fits schema s)
  | .code _, s, hs, c => by cases hs
  | .call name decorated target, s, hs, c => by
    unfold Body.shape? at hs
    split at hs
    · next hcond =>
      rw [Bool.and_eq_true, beq_iff_eq] at hcond
      obtain ⟨hdecorated, htarget⟩ := hcond
      cases hs
      cases decorated with
      | true => cases hdecorated
      | false =>
        unfold traceBody
        exact traceRuleCall_fits hcall htarget c
    · cases hs
  | .group alternatives, s, hs, c => by
    unfold Body.shape? at hs
    rw [Option.map_eq_some_iff] at hs
    obtain ⟨shapes, hshapes, hs⟩ := hs
    subst hs
    unfold traceBody
    refine (traceExpr_fits alternatives hshapes none c).weaken fun r hr => ?_
    cases r with
    | failure offset => exact trivial
    | success tree next =>
      obtain ⟨s, hmem, hs⟩ := hr
      exact HasShape.choice hmem hs
  | .literal spelling caseless braceSensitive, s, hs, c => by
    cases hs
    unfold traceBody
    exact traceTerminal_fits c _ _
  | .interpolated _ _, s, hs, c => by cases hs
  | .cls cls, s, hs, c => by
    cases hs
    unfold traceBody
    exact traceTerminal_fits c _ _
  | .any, s, hs, c => by
    cases hs
    unfold traceBody
    exact traceTerminal_fits c _ _
termination_by structural body => body

theorem traceExpr_fits :
    ∀ (alternatives : List (Sequence α (Body α))) {shapes : List Shape},
      exprShapes? (b.grammar.rules.map (·.name)) alternatives = some shapes →
      ∀ (earliest : Option Nat) (c : Cursor),
      (traceExpr b call alternatives earliest c).Answers fun r =>
        match r with
        | .success tree _ => ∃ s ∈ shapes, HasShape schema s tree.value
        | .failure _ => True
  | [], shapes, hshapes, earliest, c => by
    unfold traceExpr
    exact Traced.Answers.pure trivial
  | seq :: rest, shapes, hshapes, earliest, c => by
    unfold exprShapes? at hshapes
    obtain ⟨s, hs, hshapes⟩ := Option.bind_eq_some_iff.mp hshapes
    obtain ⟨shapes', hshapes', hshapes⟩ := Option.bind_eq_some_iff.mp hshapes
    cases hshapes
    unfold traceExpr
    refine (traceSequence_fits seq hs c).bind fun r hr => ?_
    cases r with
    | success tree next => exact Traced.Answers.pure ⟨s, List.mem_cons_self, hr⟩
    | failure offset =>
      refine (traceExpr_fits rest hshapes' _ c).weaken fun r hr => ?_
      cases r with
      | failure offset => exact trivial
      | success tree next =>
        obtain ⟨s', hmem, hs'⟩ := hr
        exact ⟨s', List.mem_cons_of_mem _ hmem, hs'⟩
termination_by structural alternatives => alternatives

theorem traceSequence_fits :
    ∀ (seq : Sequence α (Body α)) {s : Shape},
      sequenceShape? (b.grammar.rules.map (·.name)) seq = some s → ∀ c : Cursor,
      (traceSequence b call seq c).Answers (Result.Fits schema s)
  | ⟨items, action, layout, _⟩, s, hs, c => by
    unfold sequenceShape? at hs
    obtain ⟨⟨shapes, lastShape⟩, hitems, hs⟩ := Option.bind_eq_some_iff.mp hs
    have hslots : List.Forall₂ (fun s (x : Spanned Value) => HasShape schema s x.value)
        (List.replicate layout.length .any) (List.replicate layout.length default) := by
      rw [List.forall₂_iff_zip]
      refine ⟨by rw [List.length_replicate, List.length_replicate], ?_⟩
      intro s x hx
      rw [(List.mem_replicate.mp (List.of_mem_zip hx).1).2]
      exact .any
    unfold traceSequence
    refine (traceItems_fits layout c.offset items hitems default hslots .any c).bind fun r hr => ?_
    cases r with
    | failure offset => exact Traced.Answers.pure trivial
    | success slots last next =>
      obtain ⟨x, hx, hshape⟩ := traceValue_fits (b := b) hs c next hr.1 hr.2
      refine (Traced.Answers.lift (Q := fun x => HasShape schema s x.value) hx hshape).bind fun v hv => ?_
      exact Traced.Answers.pure hv
termination_by structural seq => seq

theorem traceItems_fits (layout : List Bytes) (start : Nat) :
    ∀ (items : List (Item (Body α))) {shapes shapes' : List Shape} {lastShape lastShape' : Shape},
      itemsShapes? (b.grammar.rules.map (·.name)) items shapes lastShape = some (shapes', lastShape') →
      ∀ {slots : List (Spanned Value)} (last : Spanned Value),
      List.Forall₂ (fun s (x : Spanned Value) => HasShape schema s x.value) shapes slots →
      HasShape schema lastShape last.value → ∀ c : Cursor,
      (traceItems b call layout start items slots last c).Answers
        (ItemsResult.Fits schema shapes' lastShape')
  | [], shapes, shapes', lastShape, lastShape', hitems, slots, last, hslots, hlast, c => by
    cases hitems
    unfold traceItems
    exact Traced.Answers.pure ⟨hslots, hlast⟩
  | item :: rest, shapes, shapes', lastShape, lastShape', hitems, slots, last, hslots, hlast, c => by
    unfold itemsShapes? at hitems
    obtain ⟨s, hs, hitems⟩ := Option.bind_eq_some_iff.mp hitems
    unfold traceItems
    refine (traceItem_fits ⟨slots, layout, start⟩ item hs c).bind fun r hr => ?_
    cases r with
    | failure offset =>
      exact (Traced.Answers.log _).bind fun _ _ => Traced.Answers.pure trivial
    | success tree next =>
      have hslots' : List.Forall₂ (fun s (x : Spanned Value) => HasShape schema s x.value)
          (match item.slot with
            | none => shapes
            | some i => shapes.set i s)
          (match item.slot with
            | none => slots
            | some i => slots.set i tree) := by
        cases item.slot with
        | none => exact hslots
        | some i => exact forall₂_set hslots i hr
      exact traceItems_fits layout start rest hitems tree hslots' hr next
termination_by structural items => items

theorem traceItem_fits (frame : Frame) :
    ∀ (item : Item (Body α)) {s : Shape},
      itemShape? (b.grammar.rules.map (·.name)) item = some s → ∀ c : Cursor,
      (traceItem b call frame item c).Answers (Result.Fits schema s)
  | ⟨_, _, lookahead, body, repetition, _, _⟩, s, hs, c => by
    unfold itemShape? at hs
    obtain ⟨s', hbody, hs⟩ := Option.bind_eq_some_iff.mp hs
    have hrepeated := traceRepeated_fits (fun c => traceBody_fits frame body hbody c) b.reach repetition c
    have hs' : s = if lookahead = .none then repetition.shape s' else .any := by
      split at hs
      · next hnone =>
        cases hs
        rw [if_pos hnone]
      · next hnone =>
        cases hs
        rw [if_neg hnone]
    rw [hs']
    unfold traceItem
    exact (hrepeated.body lookahead).bind fun r hr => Traced.Answers.pure (judge_fits lookahead _ c hr)
termination_by structural item => item

end

theorem traceRule_fits {rule : Rule α} {s : Shape}
    (hs : rule.shape? (b.grammar.rules.map (·.name)) = some s) (c : Cursor) :
    (traceRule b call rule c).Answers (Result.Fits schema s) := by
  unfold Rule.shape? at hs
  unfold traceRule
  cases hmatcher : rule.matcher with
  | some i =>
    rw [hmatcher] at hs
    cases hs
  | none =>
    rw [hmatcher] at hs
    obtain ⟨shapes, hshapes, hs⟩ := Option.bind_eq_some_iff.mp hs
    refine (traceExpr_fits hcall rule.body hshapes none c).bind fun r hr => ?_
    cases r with
    | failure offset => exact Traced.Answers.pure trivial
    | success tree next =>
      obtain ⟨s', hmem, hs'⟩ := hr
      simp only
      split at hs
      · next hdecorated =>
        obtain ⟨shapes', hshapes', hs⟩ := Option.bind_eq_some_iff.mp hs
        cases hs
        rw [if_pos hdecorated]
        exact Traced.Answers.pure (HasShape.tagged_choice hshapes' hmem hs')
      · next hdecorated =>
        cases hs
        rw [if_neg hdecorated]
        exact Traced.Answers.pure (HasShape.choice hmem hs')

end Expressions

/-- The rules of a grammar with a schema have the shapes of the schema. -/
theorem Grammar.shape?_of_schema? {g : Grammar α} {schema : Schema} (hschema : g.schema? = some schema)
    {rule : Rule α} (hrule : rule ∈ g.rules) :
    ∃ s, rule.shape? (g.rules.map (·.name)) = some s ∧ (rule.name, s) ∈ schema := by
  unfold Grammar.schema? at hschema
  obtain ⟨entry, hmem, hentry⟩ := mem_of_mapM_eq_some hschema hrule
  rw [Option.map_eq_some_iff] at hentry
  obtain ⟨s, hs, hentry⟩ := hentry
  rw [← hentry] at hmem
  exact ⟨s, hs, hmem⟩

/-- A rule with a shape raises no fault, and its value has the shape: by induction on the depth. -/
theorem traceCall_fits {b : Basis α} {schema : Schema} (hschema : b.grammar.schema? = some schema)
    (hnodup : (schema.map (·.1)).Nodup) (depth : Nat) {index : Nat} {name : Bytes}
    (hname : (b.grammar.rules.map (·.name))[index]? = some name) (c : Cursor) :
    (traceCall b depth index c).Answers (Result.Fits schema (.rule name)) := by
  rw [List.getElem?_map, Option.map_eq_some_iff] at hname
  obtain ⟨rule, hrule, hname⟩ := hname
  subst hname
  induction depth generalizing index rule c with
  | zero =>
    rw [traceCall_zero hrule]
    constructor
    · intro f hf
      cases hf
    · intro r hr
      cases hr
  | succ depth ih =>
    rw [traceCall_succ hrule]
    obtain ⟨s, hs, hmem⟩ := Grammar.shape?_of_schema? hschema (List.mem_of_getElem? hrule)
    have hcall : ∀ i name, (b.grammar.rules.map (·.name))[i]? = some name →
        ∀ c, (traceCall b depth i c).Answers (Result.Fits schema (.rule name)) := by
      intro i name hname c
      rw [List.getElem?_map, Option.map_eq_some_iff] at hname
      obtain ⟨rule', hrule', hname⟩ := hname
      subst hname
      exact ih c rule' hrule'
    refine (traceRule_fits hcall hs c).weaken fun r hr => ?_
    cases r with
    | failure offset => exact trivial
    | success tree next => exact .rule (findEntry_of_mem hnodup hmem) hr

end Packrat
