import Packrat.Proofs.TerminalReading

/-!
# `Packrat.Proofs.ExprReading` — expressions are read as they are printed

## Contents
- **First bytes.** What bodies, items and sequences start with, and what may follow them.
- **Operators.** Lookaheads, binders and repetitions.
- **Bodies.** One lemma for each kind of body.
- **Ends.** Where the items of a sequence end: at `/` or `)`, at the end of the text, and at the name of the
  next definition.
- **Expressions.** `takes_body`, `takes_item`, `takes_sequence`, `takes_expr`, on the structure of an
  expression.
-/

-- the linter does not see an assumption that only a companion of a mutual block uses
set_option linter.unusedSectionVars false

namespace Packrat.Source

variable {α : Type} {source : Bytes} {scope : Scope} {braces : BracePolicy} {body : Body α}
  {g g' t u v w z rest back : Bytes}

/-! ## First bytes -/

/-- The bytes that bodies other than calls start with, and calls that tag the value. -/
def bodyMarks : Bytes := Bytes.ascii "@('\"[.\x7b"

/-- The bytes that bodies start with. -/
def bodyStarts : Bytes := letters ++ bodyMarks

/-- The bytes that binders and bodies start with. -/
def binderStarts : Bytes := bodyStarts ++ Bytes.ascii "~"

/-- The bytes that items start with. -/
def itemStarts : Bytes := binderStarts ++ Bytes.ascii "&!"

/-- The bytes that may follow an item and its gap. -/
def itemEnds : Bytes := itemStarts ++ Bytes.ascii "/)"

/-- The bytes that may follow a body and its gap. -/
def bodyEnds : Bytes := itemEnds ++ Bytes.ascii "?*+"

/-- The bytes other than a colon that may follow a name and its gap. -/
def nameEnds : Bytes := bodyEnds ++ Bytes.ascii "<="

/-- What may be absent around a body fails before the bytes that may stand in its place. -/
structure OperatorsEnd : Prop where
  lookahead : refused binderStarts Nonterminal.lookahead.body = true
  binder : refused bodyMarks Nonterminal.binder.body = true
  colon : refused nameEnds (wordBody ":") = true
  repetition : refused itemEnds Nonterminal.repetition.body = true
  arrow : refused bodyEnds Nonterminal.arrow.body = true

theorem operatorsEnd : OperatorsEnd := by constructor <;> decide +kernel

theorem bodyEnds_subset_solid : ∀ b ∈ bodyEnds, b ∈ solid := by decide

theorem itemEnds_subset_bodyEnds : ∀ b ∈ itemEnds, b ∈ bodyEnds := fun _ hb => List.mem_append_left _ hb

theorem itemStarts_subset_itemEnds : ∀ b ∈ itemStarts, b ∈ itemEnds := fun _ hb => List.mem_append_left _ hb

theorem binderStarts_subset_itemStarts : ∀ b ∈ binderStarts, b ∈ itemStarts :=
  fun _ hb => List.mem_append_left _ hb

theorem bodyStarts_subset_binderStarts : ∀ b ∈ bodyStarts, b ∈ binderStarts :=
  fun _ hb => List.mem_append_left _ hb

theorem letters_subset_bodyStarts : ∀ b ∈ letters, b ∈ bodyStarts := fun _ hb => List.mem_append_left _ hb

/-- A text that starts with a byte has that byte at its front. -/
theorem startsIn_cons {set : Bytes} {b : UInt8} {front back : Bytes} (hfront : front = b :: back)
    (hb : b ∈ set) : front ≠ [] ∧ StartsIn set front := by
  subst hfront
  exact ⟨List.cons_ne_nil b back, StartsIn.cons hb⟩

/-- A body is a name, or starts with a mark. -/
theorem BodyPrinted.dotted_or_marked (h : BodyPrinted braces body t) :
    Dotted t ∨ t ≠ [] ∧ StartsIn bodyMarks t := by
  have hquoted : ∀ {caseless parts}, Quoted caseless parts t → t ≠ [] ∧ StartsIn bodyMarks t := by
    rintro caseless parts ⟨quote, hquote, ht⟩
    subst ht
    rcases hquote with hquote | hquote
    · subst hquote
      exact startsIn_cons rfl (by decide)
    · subst hquote
      exact startsIn_cons rfl (by decide)
  cases body with
  | code host => exact .inr ⟨h.startsIn.1, h.startsIn.2.widen (by decide)⟩
  | call name decorated target =>
    obtain ⟨_, hname, ht⟩ := h
    subst ht
    cases decorated with
    | true => exact .inr (startsIn_cons rfl (by decide))
    | false => exact .inl hname
  | group alternatives =>
    obtain ⟨_, _, _, _, ht⟩ := h
    subst ht
    exact .inr (startsIn_cons rfl (by decide))
  | literal spelling caseless braceSensitive => exact .inr (hquoted h.2.2)
  | interpolated segments caseless =>
    obtain ⟨_, _, _, _, hquote⟩ := h
    exact .inr (hquoted hquote)
  | cls k =>
    obtain ⟨_, _, _, ht⟩ := h
    subst ht
    exact .inr (startsIn_cons rfl (by decide))
  | any =>
    subst h
    exact .inr (startsIn_cons rfl (by decide))

theorem BodyPrinted.startsIn (h : BodyPrinted braces body t) : t ≠ [] ∧ StartsIn bodyStarts t := by
  rcases h.dotted_or_marked with hname | ⟨hne, hmark⟩
  · exact ⟨hname.startsIn.1, hname.startsIn.2.mono letters_subset_bodyStarts⟩
  · exact ⟨hne, hmark.mono fun _ hb => List.mem_append_right _ hb⟩

/-! ## Operators -/

theorem takes_operator_text {set : Bytes} {k : CharClass} {n : Nonterminal} {b : UInt8}
    (hdecorated : n.decorated = false)
    (halternatives : n.alternatives = [yielding [bound "op" 0 (.cls k), step Nonterminal.gap.body] "op"])
    (hb : b ∈ set) (hg : Gap g) (hrest : StartsIn solid rest)
    (hset : (set.all fun b => b < 0x80 && k.contains b.toNat) = true) :
    BodyTakes (basis source) n.body ([b] ++ g) rest (fun v => v = .text [b]) := by
  refine takes_yielding hdecorated halternatives ?_
  refine ItemsTake.cons (ItemTakes.once (takes_byte hb hset)) fun x hx => ?_
  exact ItemsTake.last (ItemTakes.once (takes_gap hg hrest)) fun _ _ => ⟨x, rfl, hx⟩

/-- The test before an item. -/
theorem takes_lookahead {lookahead : Lookahead} (h : LookaheadPrinted lookahead u)
    (hback : StartsIn binderStarts back) :
    ItemTakes (basis source) (bound "prefix" 0 Nonterminal.lookahead.body .optional) u back
      (LookaheadMeant lookahead) := by
  have hsolid : StartsIn solid back := hback.widen (by decide)
  have hop : ∀ {b : UInt8} {g : Bytes}, b ∈ Bytes.ascii "&!" → Gap g →
      BodyTakes (basis source) Nonterminal.lookahead.body ([b] ++ g) back (fun v => v = .text [b]) :=
    fun hb hg => takes_operator_text rfl rfl hb hg hsolid (by decide)
  cases lookahead with
  | none =>
    subst h
    exact ItemTakes.absent (fails_of_refused hback (OperatorsEnd.lookahead operatorsEnd))
  | ahead =>
    obtain ⟨g, hg, hu⟩ := h
    subst hu
    exact ItemTakes.present (hop (by decide) hg)
  | notAhead =>
    obtain ⟨g, hg, hu⟩ := h
    subst hu
    exact ItemTakes.present (hop (by decide) hg)

/-- A label has a colon. -/
theorem fails_label (source : Bytes) (hname : Dotted t) (hg : Gap g) (hbreak : StartsIn breaks (g ++ rest))
    (hrest : StartsIn nameEnds rest) :
    BodyFails (basis source) Nonterminal.label.body (t ++ (g ++ rest)) := by
  have hcolon : ∀ {text}, StartsIn nameEnds text →
      ItemsFail (basis source) [step (wordBody ":"), step Nonterminal.gap.body] text :=
    fun htext => ItemsFail.head (ItemFails.once (fails_of_refused htext (OperatorsEnd.colon operatorsEnd)))
  refine fails_body (ExprFails.cons (SequenceFails.of_items ?_) ExprFails.nil)
  cases hname with
  | single h =>
    refine ItemsFail.tail (ItemTakes.once (takes_identText h (fails_identRune hbreak))) ?_
    exact ItemsFail.tail (ItemTakes.once (takes_gap hg (hrest.widen (by decide)))) (hcolon hrest)
  | @dot name others h _ =>
    have hdot : StartsIn (Bytes.ascii ".") (Bytes.ascii "." ++ others ++ (g ++ rest)) :=
      StartsIn.cons List.mem_cons_self
    rw [List.append_assoc]
    refine ItemsFail.tail (ItemTakes.once (takes_identText h (fails_of_refused hdot (by decide)))) ?_
    refine ItemsFail.skip (ItemTakes.once (takes_gap .nil (hdot.widen (by decide)))) ?_
    exact hcolon (hdot.widen (by decide))

/-- A dotted name is not the start of a binder. -/
theorem fails_binder_name (source : Bytes) (hname : Dotted t) (hg : Gap g) (hbreak : StartsIn breaks (g ++ rest))
    (hrest : StartsIn nameEnds rest) :
    BodyFails (basis source) Nonterminal.binder.body (t ++ (g ++ rest)) := by
  have hauto : BodyFails (basis source) Nonterminal.autobind.body (t ++ (g ++ rest)) :=
    fails_of_refused (hname.startsIn.2.append_of_ne_nil hname.startsIn.1) (by decide)
  have hlabel := fails_label source hname hg hbreak hrest
  exact fails_body (ExprFails.cons (fails_calling hauto) (ExprFails.cons (fails_calling hlabel) ExprFails.nil))

/-- What is not named does not look like a name with a colon. -/
theorem fails_binder (h : BodyPrinted braces body w) (hg : Gap g) (hbreak : StartsIn breaks (g ++ rest))
    (hrest : StartsIn bodyEnds rest) :
    BodyFails (basis source) Nonterminal.binder.body (w ++ (g ++ rest)) := by
  rcases h.dotted_or_marked with hname | ⟨hne, hmark⟩
  · exact fails_binder_name source hname hg hbreak (hrest.mono fun _ hb => List.mem_append_left _ hb)
  · exact fails_of_refused (hmark.append_of_ne_nil hne) (OperatorsEnd.binder operatorsEnd)

theorem BinderPrinted.startsIn {name : Option Bytes} {autobind : Bool} (h : BinderPrinted name autobind v) :
    StartsIn binderStarts v := by
  cases name with
  | none =>
    cases autobind with
    | false =>
      subst h
      exact StartsIn.nil
    | true =>
      obtain ⟨_, _, hv⟩ := h
      subst hv
      exact StartsIn.cons (by decide)
  | some name =>
    cases autobind with
    | false =>
      obtain ⟨hname, _, _, _, _, hv⟩ := h
      subst hv
      obtain ⟨hne, hstart⟩ := startsIn_identifier hname
      refine (hstart.append_of_ne_nil hne).mono fun b hb => ?_
      exact bodyStarts_subset_binderStarts b (letters_subset_bodyStarts b hb)
    | true => exact h.elim

/-- The name that an item gives its value. -/
theorem takes_binder {name : Option Bytes} {autobind : Bool} (h : BinderPrinted name autobind v)
    (hback : StartsIn bodyStarts back) (hfails : BodyFails (basis source) Nonterminal.binder.body back) :
    ItemTakes (basis source) (bound "binder" 1 Nonterminal.binder.body .optional) v back
      (BinderMeant name autobind) := by
  have hsolid : StartsIn solid back := hback.widen (by decide)
  cases name with
  | none =>
    cases autobind with
    | false =>
      subst h
      exact ItemTakes.absent hfails
    | true =>
      obtain ⟨g, hg, hv⟩ := h
      subst hv
      have hauto : BodyTakes (basis source) Nonterminal.autobind.body (Bytes.ascii "~" ++ g) back
          (fun v => ∃ fields, v = .node Nonterminal.autobind.name fields) := by
        refine takes_tagged rfl (ExprTakes.first (SequenceTakes.matched rfl ?_ fun _ _ => ⟨_, rfl⟩))
        refine ItemsTake.next rfl (ItemTakes.once (takes_word rfl)) ?_
        exact ItemsTake.last (ItemTakes.once (takes_gap hg hsolid)) fun _ _ => trivial
      intro frame
      refine Takes.weaken (ItemTakes.present (takes_plain rfl (ExprTakes.first (takes_calling hauto))) frame) ?_
      rintro value ⟨x, hx, fields, hfields⟩
      exact ⟨x, fields, hx, hfields⟩
  | some name =>
    cases autobind with
    | true => exact h.elim
    | false =>
      obtain ⟨hname, g, g', hg, hg', hv⟩ := h
      subst hv
      have hletter : StartsIn letters (name ++ (g ++ (Bytes.ascii ":" ++ g')) ++ back) :=
        ((startsIn_identifier hname).2.append_of_ne_nil (startsIn_identifier hname).1).append_of_ne_nil
          (List.append_ne_nil_of_left_ne_nil (startsIn_identifier hname).1 _)
      have hlabel : BodyTakes (basis source) Nonterminal.label.body (name ++ (g ++ (Bytes.ascii ":" ++ g'))) back
          (fun v => ∃ fields y, v = .node Nonterminal.label.name fields ∧
            Value.findField (Bytes.ascii "name") fields = some y ∧ y.value = .text name) := by
        refine takes_record rfl rfl rfl ?_
        refine ItemsTake.cons (ItemTakes.once (takes_identText hname (fails_identRune ?_))) fun x hx => ?_
        · rw [List.append_assoc]
          exact hg.startsIn.append (StartsIn.cons (by decide))
        refine ItemsTake.next rfl (ItemTakes.once (takes_gap hg (StartsIn.cons (by decide)))) ?_
        refine ItemsTake.next rfl (ItemTakes.once (takes_word rfl)) ?_
        refine ItemsTake.last (ItemTakes.once (takes_gap hg' hsolid)) fun _ _ => ?_
        exact ⟨_, x, rfl, rfl, hx⟩
      -- `~` is tried first, and fails at a letter
      have hbinder : BodyTakes (basis source) Nonterminal.binder.body _ back _ :=
        takes_plain rfl (takes_choice [.autobind] [] hletter hlabel (by decide))
      intro frame
      refine Takes.weaken (ItemTakes.present hbinder frame) ?_
      rintro value ⟨x, hx, fields, y, hnode, hy, htext⟩
      exact ⟨x, fields, y, hx, hnode, hy, htext⟩

/-- The repetition behind an item, with the gap before it and the one behind it. -/
theorem takes_repetition (source : Bytes) {repetition : Repetition} (h : RepetitionPrinted repetition z) (hg : Gap g)
    (hbreak : StartsIn breaks (g ++ rest)) (hrest : StartsIn itemEnds rest) : ∃ front back,
    z ++ g = front ++ back ∧ Gap front ∧ StartsIn breaks (front ++ (back ++ rest)) ∧
      StartsIn bodyEnds (back ++ rest) ∧
        ItemTakes (basis source) (bound "suffix" 3 Nonterminal.repetition.body .optional) back rest
          (RepetitionMeant repetition) := by
  unfold RepetitionPrinted at h
  unfold RepetitionMeant
  split at h
  · next honce =>
    subst h
    refine ⟨g, [], (List.append_nil g).symm, hg, hbreak, hrest.mono itemEnds_subset_bodyEnds, ?_⟩
    simp only [if_pos honce]
    exact ItemTakes.absent (fails_of_refused hrest (OperatorsEnd.repetition operatorsEnd))
  · next honce =>
    obtain ⟨front, hfront, hz⟩ := h
    obtain ⟨b, hb, hoperator⟩ : ∃ b ∈ Bytes.ascii "?*+", operator repetition = [b] := by
      cases repetition with
      | once => exact absurd rfl honce
      | optional => exact ⟨_, by decide, rfl⟩
      | star => exact ⟨_, by decide, rfl⟩
      | plus => exact ⟨_, by decide, rfl⟩
    subst hz
    simp only [hoperator, if_neg honce]
    have hbreaks : b ∈ breaks := (by decide : ∀ b ∈ Bytes.ascii "?*+", b ∈ breaks) b hb
    have hends : b ∈ bodyEnds := List.mem_append_right _ hb
    refine ⟨front, [b] ++ g, List.append_assoc _ _ _, hfront, hfront.startsIn.append (StartsIn.cons hbreaks),
      StartsIn.cons hends, ItemTakes.present (Q := fun v => v = .text [b]) ?_⟩
    exact takes_operator_text rfl rfl hb hg
      (hrest.mono fun b hb => bodyEnds_subset_solid b (itemEnds_subset_bodyEnds b hb)) (by decide)

/-- An item from its body. -/
theorem takes_item_of_body {name : Option Bytes} {autobind : Bool} {lookahead : Lookahead}
    {repetition : Repetition} {position : Position} (hlookahead : LookaheadPrinted lookahead u)
    (hbinder : BinderPrinted name autobind v) (hw : BodyPrinted braces body w)
    (hrepetition : RepetitionPrinted repetition z)
    (hbody : ∀ g rest, Gap g → StartsIn breaks (g ++ rest) → StartsIn bodyEnds rest →
      BodyTakes (basis source) Nonterminal.primary.body (w ++ g) rest (BodyMeant scope body))
    (hg : Gap g) (hbreak : StartsIn breaks (g ++ rest)) (hrest : StartsIn itemEnds rest) :
    BodyTakes (basis source) Nonterminal.item.body (u ++ (v ++ (w ++ z)) ++ g) rest
      (ItemMeant scope ⟨name, autobind, lookahead, body, repetition, none, position⟩) := by
  obtain ⟨front, back, hsplit, hfront, hbreak', hends, hsuffix⟩ :=
    takes_repetition source hrepetition hg hbreak hrest
  have htext : u ++ (v ++ (w ++ z)) ++ g = u ++ (v ++ ((w ++ front) ++ back)) := by
    rw [List.append_assoc, List.append_assoc, List.append_assoc, List.append_assoc, hsplit]
  have hstart : ∀ {text}, StartsIn bodyStarts (w ++ front ++ text) := by
    intro text
    rw [List.append_assoc]
    exact hw.startsIn.2.append_of_ne_nil hw.startsIn.1
  have hname : BodyFails (basis source) Nonterminal.binder.body (w ++ front ++ back ++ rest) := by
    rw [List.append_assoc, List.append_assoc]
    exact fails_binder hw hfront hbreak' hends
  have hbinders : StartsIn binderStarts (v ++ (w ++ front ++ back) ++ rest) := by
    rw [List.append_assoc, List.append_assoc (w ++ front)]
    exact hbinder.startsIn.append (hstart.mono bodyStarts_subset_binderStarts)
  rw [htext]
  refine takes_record rfl rfl rfl ?_
  refine ItemsTake.cons (takes_lookahead hlookahead hbinders) fun a ha => ?_
  refine ItemsTake.cons (takes_binder hbinder ?_ hname) fun b hb => ?_
  · rw [List.append_assoc]
    exact hstart
  refine ItemsTake.cons (ItemTakes.once (hbody front _ hfront hbreak' hends)) fun c hc => ?_
  refine ItemsTake.last hsuffix fun d hd => ?_
  exact itemMeant rfl ha rfl hb rfl hc rfl hd

/-! ## Bodies -/

/-- A literal is the first body that starts with a quote. -/
theorem takes_primary_literal {caseless : Bool} (hquoted : Quoted caseless u t) {Q : Value → Prop}
    (h : BodyTakes (basis source) Nonterminal.literal.body (t ++ g) rest Q) :
    BodyTakes (basis source) Nonterminal.primary.body (t ++ g) rest Q := by
  obtain ⟨quote, hquote, ht⟩ := hquoted
  have hstart : StartsIn (Bytes.ascii "'\"") (t ++ g ++ rest) := by
    subst ht
    rcases hquote with hquote | hquote
    · subst hquote
      exact StartsIn.cons (by decide)
    · subst hquote
      exact StartsIn.cons (by decide)
  exact takes_plain rfl (takes_choice [.call, .group] [.bracket, .dot, .code] hstart h (by decide))

section Bodies

variable (hg : Gap g) (hbreak : StartsIn breaks (g ++ rest)) (hrest : StartsIn bodyEnds rest)

include hg hbreak hrest

theorem takes_call (hqualifier : scope.qualifier = []) {name : Bytes} (hname : Dotted name) (decorated : Bool) :
    BodyTakes (basis source) Nonterminal.primary.body
      ((if decorated then Bytes.ascii "@" else []) ++ name ++ g) rest
      (BodyMeant scope (.call name decorated none : Body α)) := by
  have hletter : StartsIn letters (name ++ g ++ [] ++ rest) := by
    rw [List.append_nil, List.append_assoc]
    exact hname.startsIn.2.append_of_ne_nil hname.startsIn.1
  have hat : ItemTakes (basis source) (bound "at" 0 (wordBody "@") .optional)
      (if decorated then Bytes.ascii "@" else []) (name ++ g ++ [] ++ rest)
      (fun v => ∃ content, v = .option content ∧ content.isSome = decorated) := by
    intro frame
    cases decorated with
    | false =>
      refine Takes.weaken (ItemTakes.absent (fails_of_refused hletter (by decide)) frame) ?_
      exact fun v hv => ⟨none, hv, rfl⟩
    | true =>
      refine Takes.weaken (ItemTakes.present (takes_word rfl) frame) ?_
      rintro v ⟨x, hx, _⟩
      exact ⟨some x, hx, rfl⟩
  refine takes_plain rfl (ExprTakes.first (takes_calling (takes_record rfl rfl rfl ?_)))
  rw [List.append_assoc, ← List.append_nil (name ++ g)]
  refine ItemsTake.cons hat fun x hx => ?_
  refine ItemsTake.cons (ItemTakes.once (takes_qualifiedName hname hg hbreak
    (hrest.mono bodyEnds_subset_solid))) fun y hy => ?_
  refine ItemsTake.last (ItemTakes.notAhead (fails_of_refused hrest (OperatorsEnd.arrow operatorsEnd))) fun _ _ => ?_
  obtain ⟨content, hcontent, hsome⟩ := hx
  subst hsome
  exact bodyMeant_call hqualifier rfl hcontent rfl hy

omit hbreak in
theorem takes_group {e : Expr α} (hg' : Gap g') (hu : StartsIn solid (u ++ Bytes.ascii ")"))
    (h : ∀ rest, BodyTakes (basis source) Nonterminal.expression.body u (Bytes.ascii ")" ++ rest)
      (ExprMeant scope e)) :
    BodyTakes (basis source) Nonterminal.primary.body (Bytes.ascii "(" ++ (g' ++ (u ++ Bytes.ascii ")")) ++ g)
      rest (BodyMeant scope (.group e)) := by
  have hopen : StartsIn (Bytes.ascii "(") (Bytes.ascii "(" ++ (g' ++ (u ++ Bytes.ascii ")")) ++ g ++ rest) :=
    StartsIn.cons List.mem_cons_self
  have hinside : ∀ {text}, StartsIn solid (u ++ (Bytes.ascii ")" ++ text)) := by
    intro text
    rw [← List.append_assoc]
    exact hu.append_of_ne_nil (List.append_ne_nil_of_right_ne_nil u (List.cons_ne_nil _ _))
  refine takes_plain rfl (takes_choice [.call] [.literal, .bracket, .dot, .code] hopen ?_ (by decide))
  refine takes_record rfl rfl rfl ?_
  rw [List.append_assoc, List.append_assoc, List.append_assoc]
  refine ItemsTake.next rfl (ItemTakes.once (takes_word rfl)) ?_
  refine ItemsTake.next rfl (ItemTakes.once (takes_gap hg' ?_)) ?_
  · rw [List.append_assoc]
    exact hinside
  refine ItemsTake.cons (ItemTakes.once (h _)) fun x hx => ?_
  refine ItemsTake.next rfl (ItemTakes.once (takes_word rfl)) ?_
  refine ItemsTake.last (ItemTakes.once (takes_gap hg (hrest.mono bodyEnds_subset_solid))) fun _ _ => ?_
  exact bodyMeant_group rfl hx

omit hbreak in
theorem takes_dot : BodyTakes (basis source) Nonterminal.primary.body (Bytes.ascii "." ++ g) rest
    (BodyMeant scope (.any : Body α)) := by
  have hdot : StartsIn (Bytes.ascii ".") (Bytes.ascii "." ++ g ++ rest) := StartsIn.cons List.mem_cons_self
  refine takes_plain rfl (takes_choice [.call, .group, .literal, .bracket] [.code] hdot ?_ (by decide))
  refine takes_tagged rfl (ExprTakes.first (SequenceTakes.matched rfl ?_ fun _ _ => bodyMeant_any))
  refine ItemsTake.next rfl (ItemTakes.once (takes_word rfl)) ?_
  exact ItemsTake.last (ItemTakes.once (takes_gap hg (hrest.mono bodyEnds_subset_solid))) fun _ _ => trivial

theorem takes_cls {k : CharClass} (hu : Escapable (· ≠ ']'.toNat) u)
    (hparse : CharClass.parse? u k.caseless = .ok k) :
    BodyTakes (basis source) Nonterminal.primary.body
      (Bytes.ascii "[" ++ (u ++ (Bytes.ascii "]" ++ caseFlag k.caseless)) ++ g) rest
      (BodyMeant scope (.cls k : Body α)) := by
  have hopen : StartsIn (Bytes.ascii "[")
      (Bytes.ascii "[" ++ (u ++ (Bytes.ascii "]" ++ caseFlag k.caseless)) ++ g ++ rest) :=
    StartsIn.cons List.mem_cons_self
  refine takes_plain rfl (takes_choice [.call, .group, .literal] [.dot, .code] hopen ?_ (by decide))
  rw [List.append_assoc, List.append_assoc, List.append_assoc]
  exact takes_bracket hu hparse hg hbreak (hrest.mono bodyEnds_subset_solid)

theorem takes_plain_literal {caseless : Bool} (hu : HexEscapes u) (hquoted : Quoted caseless u t) :
    BodyTakes (basis source) Nonterminal.primary.body (t ++ g) rest
      (BodyMeant scope (.literal u caseless true : Body α)) := by
  refine takes_primary_literal hquoted ?_
  refine takes_literal hg hbreak (hrest.mono bodyEnds_subset_solid) ?_ hquoted
  intro quote n back hquote
  obtain ⟨parts, hparts, hplain, hspelled, _⟩ :=
    repeats_escapes (α := α) scope hquote hu (Repeats.stop (fails_part hquote back))
  rw [List.append_nil, List.append_nil] at hparts
  refine ⟨parts, hparts, ?_⟩
  intro x y xs hxs hall hcaseless
  rw [← hspelled, ← hcaseless]
  exact bodyMeant_literal rfl hxs hall rfl hplain

section Linked

variable {tables : NameTables} {visible : List Bytes} (hvisible : ∀ b, Value.boolWord b ∉ visible)

include hvisible

theorem takes_interpolated {segments linked : List (Segment α)} {caseless : Bool}
    (hlink : linkSegments tables visible segments = .ok linked) (hbraces : scope.braces = .interpolate)
    (hcode : segments.any isCodeSegment = true) (hu : SegmentsPrinted segments u)
    (hquoted : Quoted caseless u t) :
    BodyTakes (basis source) Nonterminal.primary.body (t ++ g) rest
      (BodyMeant scope (.interpolated segments caseless)) := by
  refine takes_primary_literal hquoted ?_
  refine takes_literal hg hbreak (hrest.mono bodyEnds_subset_solid) ?_ hquoted
  intro quote n back hquote
  obtain ⟨parts, hparts, hmerge, hany, _⟩ :=
    repeats_segments hvisible scope back hquote segments hlink hu
  refine ⟨parts, hparts, ?_⟩
  intro x y xs hxs hall hcaseless
  rw [← hmerge, ← hcaseless]
  exact bodyMeant_interpolated rfl hxs hall rfl hbraces (hany.trans hcode)

omit hbreak in
theorem takes_embedded {host : Host α} {position : Position} {linked : HostNode α}
    (hlink : linkHost tables visible host.node position = .ok linked) (h : CodePrinted host.node t) :
    BodyTakes (basis source) Nonterminal.primary.body (t ++ g) rest (BodyMeant scope (.code host)) := by
  have hopen : StartsIn (Bytes.ascii "\x7b") (t ++ g ++ rest) := by
    rw [List.append_assoc]
    exact h.startsIn.2.append_of_ne_nil h.startsIn.1
  refine takes_plain rfl (takes_choice [.call, .group, .literal, .bracket, .dot] [] hopen ?_ (by decide))
  exact takes_code hvisible hlink h hg (hrest.mono bodyEnds_subset_solid)

end Linked

end Bodies

/-! ## Ends -/

/-- Where the items of a sequence end. `followed` tells whether the name of a definition comes next. -/
structure SequenceEnd (source : Bytes) (followed : Bool) (rest : Bytes) : Prop where
  fails : BodyFails (basis source) Nonterminal.item.body rest
  starts : StartsIn itemEnds rest
  closes : followed = false → StartsIn (Bytes.ascii "/)") rest

/-- Where an expression ends. -/
structure ExprEnd (source : Bytes) (followed : Bool) (rest : Bytes) : Prop where
  fails : BodyFails (basis source) Nonterminal.item.body rest
  starts : StartsIn (letters ++ Bytes.ascii ")") rest
  closes : followed = false → StartsIn (Bytes.ascii ")") rest

theorem ExprEnd.sequence {followed : Bool} (h : ExprEnd source followed rest) :
    SequenceEnd source followed rest := by
  refine ⟨h.fails, h.starts.widen (by decide), fun hfollowed => ?_⟩
  exact (h.closes hfollowed).widen (by decide)

/-- A sequence ends at a slash. -/
theorem sequenceEnd_slash (followed : Bool) : SequenceEnd source followed (Bytes.ascii "/" ++ rest) := by
  have hslash : StartsIn (Bytes.ascii "/") (Bytes.ascii "/" ++ rest) := StartsIn.cons List.mem_cons_self
  refine ⟨fails_of_refused hslash (by decide), hslash.widen (by decide), fun _ => ?_⟩
  exact hslash.widen (by decide)

/-- An expression ends at a closing bracket. -/
theorem exprEnd_bracket : ExprEnd source false (Bytes.ascii ")" ++ rest) := by
  have hclose : StartsIn (Bytes.ascii ")") (Bytes.ascii ")" ++ rest) := StartsIn.cons List.mem_cons_self
  exact ⟨fails_of_refused hclose (by decide), hclose.widen (by decide), fun _ => hclose⟩

/-- An expression ends at the end of the text. -/
theorem exprEnd_nil : ExprEnd source false [] :=
  ⟨fails_of_refused (StartsIn.nil : StartsIn [] []) (by decide), StartsIn.nil, fun _ => StartsIn.nil⟩

/-- An arrow is read with the gap behind it. -/
theorem takes_arrow (decorated : Bool) (hg : Gap g) (hrest : StartsIn solid rest) :
    BodyTakes (basis source) Nonterminal.arrow.body (Bytes.ascii (if decorated then "=" else "<-") ++ g) rest
      (fun v => v = .text (Bytes.ascii (if decorated then "=" else "<-"))) := by
  refine takes_yielding rfl rfl ?_
  refine ItemsTake.cons (Q := fun v => v = .text (Bytes.ascii (if decorated then "=" else "<-")))
    (ItemTakes.once (BodyTakes.group ?_)) fun x hx => ?_
  · cases decorated with
    | false =>
      refine ExprTakes.first (SequenceTakes.matched rfl ?_ rfl)
      exact ItemsTake.last (ItemTakes.once (takes_word rfl)) fun _ _ => trivial
    | true =>
      refine ExprTakes.later ?_ (ExprTakes.first (SequenceTakes.matched rfl ?_ rfl))
      · exact SequenceFails.of_items (ItemsFail.head (ItemFails.once (BodyFails.terminal rfl rfl)))
      · exact ItemsTake.last (ItemTakes.once (takes_word rfl)) fun _ _ => trivial
  · exact ItemsTake.last (ItemTakes.once (takes_gap hg hrest)) fun _ _ => ⟨x, rfl, hx⟩

theorem startsIn_arrow (decorated : Bool) :
    StartsIn (Bytes.ascii "<=") (Bytes.ascii (if decorated then "=" else "<-") ++ t) := by
  cases decorated with
  | false => exact StartsIn.cons (by decide)
  | true => exact StartsIn.cons (by decide)

/-- The name of the next definition is no item, since an arrow stands behind it. -/
theorem fails_item_definition {name : Bytes} (hname : isIdentifier name = true) (hg : Gap g) (decorated : Bool)
    (hg' : Gap g') (hrest : StartsIn solid rest) :
    BodyFails (basis source) Nonterminal.item.body
      (name ++ (g ++ (Bytes.ascii (if decorated then "=" else "<-") ++ (g' ++ rest)))) := by
  have hback : StartsIn (Bytes.ascii "<=") (Bytes.ascii (if decorated then "=" else "<-") ++ (g' ++ rest)) :=
    startsIn_arrow decorated
  have hletter : ∀ {text}, StartsIn letters (name ++ text) :=
    (startsIn_identifier hname).2.append_of_ne_nil (startsIn_identifier hname).1
  have hbreak := hg.startsIn.append (hback.widen (by decide) : StartsIn breaks _)
  have hbinder := fails_binder_name source (.single hname) hg hbreak
    (hback.mono fun _ hb => List.mem_append_right _ hb)
  have hcall : BodyFails (basis source) Nonterminal.call.body
      (name ++ (g ++ (Bytes.ascii (if decorated then "=" else "<-") ++ (g' ++ rest)))) := by
    refine fails_body (ExprFails.cons (SequenceFails.of_items ?_) ExprFails.nil)
    refine ItemsFail.skip (ItemTakes.absent (fails_of_refused hletter (by decide))) ?_
    rw [← List.append_assoc name]
    refine ItemsFail.tail (ItemTakes.once (takes_qualifiedName (.single hname) hg hbreak
      (hback.widen (by decide)))) ?_
    rw [← List.append_assoc]
    exact ItemsFail.head (ItemFails.notAhead rfl (takes_arrow decorated hg' hrest))
  have hprimary : BodyFails (basis source) Nonterminal.primary.body
      (name ++ (g ++ (Bytes.ascii (if decorated then "=" else "<-") ++ (g' ++ rest)))) :=
    fails_body (ExprFails.cons (fails_calling hcall)
      (fails_choice [.group, .literal, .bracket, .dot, .code] hletter (by decide)))
  refine fails_body (ExprFails.cons (SequenceFails.of_items ?_) ExprFails.nil)
  refine ItemsFail.skip (ItemTakes.absent (fails_of_refused hletter (by decide))) ?_
  refine ItemsFail.skip (ItemTakes.absent hbinder) ?_
  exact ItemsFail.head (ItemFails.once hprimary)

/-! ## Expressions -/

theorem LookaheadPrinted.startsIn {lookahead : Lookahead} (h : LookaheadPrinted lookahead u) :
    StartsIn itemStarts u := by
  cases lookahead with
  | none =>
    subst h
    exact StartsIn.nil
  | ahead =>
    obtain ⟨_, _, hu⟩ := h
    subst hu
    exact StartsIn.cons (by decide)
  | notAhead =>
    obtain ⟨_, _, hu⟩ := h
    subst hu
    exact StartsIn.cons (by decide)

theorem ItemPrinted.startsIn {item : Item (Body α)} (h : ItemPrinted braces item t) :
    t ≠ [] ∧ StartsIn itemStarts t := by
  obtain ⟨name, autobind, lookahead, body, repetition, slot, position⟩ := item
  obtain ⟨_, _, u, v, w, z, hu, hv, hw, _, ht⟩ := h
  subst ht
  have hbody : StartsIn bodyStarts (w ++ z) := hw.startsIn.2.append_of_ne_nil hw.startsIn.1
  have hbinder : StartsIn binderStarts (v ++ (w ++ z)) :=
    hv.startsIn.append (hbody.mono bodyStarts_subset_binderStarts)
  refine ⟨?_, hu.startsIn.append (hbinder.mono binderStarts_subset_itemStarts)⟩
  exact List.append_ne_nil_of_right_ne_nil u (List.append_ne_nil_of_right_ne_nil v
    (List.append_ne_nil_of_left_ne_nil hw.startsIn.1 z))

theorem ActionPrinted.startsIn {followed : Bool} {action : Option (Host α)} (h : ActionPrinted followed action t) :
    StartsIn itemStarts t := by
  cases action with
  | none =>
    subst h
    exact StartsIn.nil
  | some host =>
    obtain ⟨u, g, hu, _, _, ht⟩ := h
    subst ht
    exact (hu.startsIn.2.widen (by decide)).append_of_ne_nil hu.startsIn.1

theorem ItemsPrinted.startsIn {followed : Bool} {tail : Bytes} {items : List (Item (Body α))}
    (h : ItemsPrinted braces followed tail items t) (htail : StartsIn itemStarts tail) :
    StartsIn itemStarts t := by
  cases items with
  | nil =>
    have ht : t = tail := h
    subst ht
    exact htail
  | cons item rest =>
    obtain ⟨u, g, v, hu, _, _, _, ht⟩ := h
    subst ht
    exact hu.startsIn.2.append_of_ne_nil hu.startsIn.1

theorem SequencePrinted.startsIn {followed : Bool} {seq : Sequence α (Body α)}
    (h : SequencePrinted braces followed seq t) : StartsIn itemStarts t := by
  obtain ⟨items, action, layout, position⟩ := seq
  obtain ⟨_, _, tail, htail, hitems⟩ := h
  exact hitems.startsIn htail.startsIn

theorem AlternativesPrinted.startsIn {followed : Bool} {alternatives : Expr α}
    (h : AlternativesPrinted braces followed alternatives t) : StartsIn (Bytes.ascii "/") t := by
  cases alternatives with
  | nil =>
    have ht : t = [] := h
    subst ht
    exact StartsIn.nil
  | cons seq rest =>
    obtain ⟨_, _, _, _, _, _, ht⟩ := h
    subst ht
    exact StartsIn.cons List.mem_cons_self

theorem ExprPrinted.startsIn {followed : Bool} {e : Expr α} (h : ExprPrinted braces followed e t) :
    StartsIn itemEnds t := by
  cases e with
  | nil => exact h.elim
  | cons seq rest =>
    obtain ⟨u, v, hu, hv, ht⟩ := h
    subst ht
    exact (hu.startsIn.mono itemStarts_subset_itemEnds).append (hv.startsIn.widen (by decide))

/-- A sequence ends before further alternatives, or where its expression ends. -/
theorem sequenceEnd_alternatives (source : Bytes) {followed : Bool} {alternatives : Expr α}
    (h : AlternativesPrinted braces followed alternatives v) (hend : ExprEnd source followed rest) :
    SequenceEnd source (followed && alternatives.isEmpty) (v ++ rest) := by
  cases alternatives with
  | nil =>
    have hv : v = [] := h
    subst hv
    rw [List.isEmpty_nil, Bool.and_true]
    exact hend.sequence
  | cons seq rest' =>
    obtain ⟨_, _, _, _, _, _, hv⟩ := h
    subst hv
    rw [List.append_assoc]
    exact sequenceEnd_slash _

/-- The names that are visible behind an item that binds no constant. -/
theorem visible_of_bindSlot {visible visible' : List Bytes} {name name' : Option Bytes} {autobind : Bool}
    {position : Position} {slot : Option Nat} (hvisible : ∀ b, Value.boolWord b ∉ visible)
    (hconstant : ¬BindsConstant name autobind body)
    (hname : bindingName autobind name body position = .ok name')
    (hslot : bindSlot visible name' position = .ok (slot, visible')) (b : Bool) :
    Value.boolWord b ∉ visible' := by
  have hbinds := bindSlot_binds hslot
  cases name' with
  | none =>
    obtain ⟨_, hsame⟩ := hbinds
    subst hsame
    exact hvisible b
  | some n =>
    obtain ⟨_, _, hmore⟩ := hbinds
    subst hmore
    intro hb
    rcases List.mem_append.mp hb with hb | hb
    · exact hvisible b hb
    · exact hconstant ⟨n, position, hname, b, (List.mem_singleton.mp hb).symm⟩

/-- A slash and a further alternative. -/
def slashed : Body Empty :=
  .group [yielding [step (wordBody "/"), step Nonterminal.gap.body, bound "seq" 0 Nonterminal.sequence.body] "seq"]

section Expressions

variable {tables : NameTables} (hqualifier : scope.qualifier = []) (hbraces : scope.braces = braces)

include hqualifier hbraces

mutual

/-- **Bodies are read as they are printed.** -/
theorem takes_body :
    ∀ (body : Body α) {visible : List Bytes} {position : Position} {linked : Body α} {t : Bytes},
      (∀ b, Value.boolWord b ∉ visible) → linkBody tables visible position body = .ok linked →
        BodyPrinted braces body t → ∀ g rest, Gap g → StartsIn breaks (g ++ rest) → StartsIn bodyEnds rest →
          BodyTakes (basis source) Nonterminal.primary.body (t ++ g) rest (BodyMeant scope body)
  | .code ⟨node, at_⟩, visible, position, linked, t, hvisible, hlink, h, g, rest, hg, hbreak, hrest => by
    unfold linkBody at hlink
    obtain ⟨node', hnode, _⟩ := bind_eq_ok.mp hlink
    exact takes_embedded hg hrest hvisible hnode h
  | .call name decorated target, visible, position, linked, t, hvisible, hlink, h, g, rest, hg, hbreak, hrest => by
    obtain ⟨htarget, hname, ht⟩ := h
    subst htarget ht
    exact takes_call hg hbreak hrest hqualifier hname decorated
  | .group alternatives, visible, position, linked, t, hvisible, hlink, h, g, rest, hg, hbreak, hrest => by
    obtain ⟨g', u, hg', hu, ht⟩ := h
    subst ht
    unfold linkBody at hlink
    obtain ⟨alternatives', halternatives, _⟩ := bind_eq_ok.mp hlink
    have hinside : StartsIn solid (u ++ Bytes.ascii ")") :=
      (hu.startsIn.mono fun b hb => bodyEnds_subset_solid b (itemEnds_subset_bodyEnds b hb)).append
        (StartsIn.cons (by decide))
    exact takes_group hg hrest hg' hinside fun back =>
      takes_expr alternatives halternatives hu exprEnd_bracket
  | .literal spelling caseless braceSensitive, visible, position, linked, t, hvisible, hlink, h, g, rest, hg,
      hbreak, hrest => by
    obtain ⟨hsensitive, hspelling, hquoted⟩ := h
    subst hsensitive
    exact takes_plain_literal hg hbreak hrest hspelling hquoted
  | .interpolated segments caseless, visible, position, linked, t, hvisible, hlink, h, g, rest, hg, hbreak,
      hrest => by
    obtain ⟨hinterpolate, hcode, u, hu, hquoted⟩ := h
    unfold linkBody at hlink
    obtain ⟨segments', hsegments, _⟩ := bind_eq_ok.mp hlink
    exact takes_interpolated hg hbreak hrest hvisible hsegments (hbraces.trans hinterpolate) hcode hu hquoted
  | .cls k, visible, position, linked, t, hvisible, hlink, h, g, rest, hg, hbreak, hrest => by
    obtain ⟨u, hu, hparse, ht⟩ := h
    subst ht
    exact takes_cls hg hbreak hrest hu hparse
  | .any, visible, position, linked, t, hvisible, hlink, h, g, rest, hg, hbreak, hrest => by
    have ht : t = Bytes.ascii "." := h
    subst ht
    exact takes_dot hg hrest
termination_by structural body => body

/-- **Expressions are read as they are printed.** -/
theorem takes_expr :
    ∀ (alternatives : List (Sequence α (Body α))) {linked : List (Sequence α (Body α))} {t rest : Bytes}
      {followed : Bool}, linkExpr tables alternatives = .ok linked →
        ExprPrinted braces followed alternatives t → ExprEnd source followed rest →
          BodyTakes (basis source) Nonterminal.expression.body t rest (ExprMeant scope alternatives)
  | [], linked, t, rest, followed, hlink, h, hend => h.elim
  | seq :: others, linked, t, rest, followed, hlink, h, hend => by
    obtain ⟨u, v, hu, hv, ht⟩ := h
    subst ht
    unfold linkExpr at hlink
    obtain ⟨seq', hseq, hlink⟩ := bind_eq_ok.mp hlink
    obtain ⟨others', hothers, _⟩ := bind_eq_ok.mp hlink
    refine takes_record rfl rfl rfl ?_
    refine ItemsTake.cons (ItemTakes.once (takes_sequence seq hseq hu (sequenceEnd_alternatives source hv hend)))
      fun x hx => ?_
    refine ItemsTake.last (ItemTakes.star (reach_basis source) (repeats_alternatives others hothers hv rest hend))
      fun y hy => ?_
    obtain ⟨xs, hxs, hall⟩ := hy
    exact exprMeant rfl hx rfl hxs hall
termination_by structural alternatives => alternatives

theorem repeats_alternatives :
    ∀ (alternatives : List (Sequence α (Body α))) {linked : List (Sequence α (Body α))} {t : Bytes}
      {followed : Bool}, linkExpr tables alternatives = .ok linked →
        AlternativesPrinted braces followed alternatives t → ∀ rest, ExprEnd source followed rest →
          Repeats (basis source) slashed rest t (alternatives.map (SequenceMeant scope))
  | [], linked, t, followed, hlink, h, rest, hend => by
    have ht : t = [] := h
    subst ht
    exact Repeats.stop (fails_of_refused hend.starts (by decide))
  | seq :: others, linked, t, followed, hlink, h, rest, hend => by
    obtain ⟨g, u, v, hg, hu, hv, ht⟩ := h
    subst ht
    unfold linkExpr at hlink
    obtain ⟨seq', hseq, hlink⟩ := bind_eq_ok.mp hlink
    obtain ⟨others', hothers, _⟩ := bind_eq_ok.mp hlink
    have hsequence := sequenceEnd_alternatives source hv hend
    have hsolid : StartsIn solid (u ++ (v ++ rest)) :=
      ((hu.startsIn.mono itemStarts_subset_itemEnds).append hsequence.starts).mono
        fun b hb => bodyEnds_subset_solid b (itemEnds_subset_bodyEnds b hb)
    rw [← List.append_assoc g, ← List.append_assoc (Bytes.ascii "/")]
    refine Repeats.more (List.cons_ne_nil _ _) ?_ (repeats_alternatives others hothers hv rest hend)
    refine BodyTakes.group (ExprTakes.first (SequenceTakes.bound ?_))
    refine ItemsTake.next rfl (ItemTakes.once (takes_word rfl)) ?_
    refine ItemsTake.next rfl (ItemTakes.once (takes_gap hg hsolid)) ?_
    refine ItemsTake.last (ItemTakes.once (takes_sequence seq hseq hu hsequence)) fun x hx => ?_
    exact ⟨x, rfl, hx⟩
termination_by structural alternatives => alternatives

/-- **Sequences are read as they are printed.** -/
theorem takes_sequence :
    ∀ (seq : Sequence α (Body α)) {linked : Sequence α (Body α)} {t rest : Bytes} {followed : Bool},
      linkSequence tables seq = .ok linked → SequencePrinted braces followed seq t →
        SequenceEnd source followed rest →
          BodyTakes (basis source) Nonterminal.sequence.body t rest (SequenceMeant scope seq)
  | ⟨items, action, layout, position⟩, linked, t, rest, followed, hlink, h, hend => by
    obtain ⟨hlayout, hnone, tail, htail, hitems⟩ := h
    subst hlayout
    unfold linkSequence at hlink
    obtain ⟨⟨items', names⟩, hlinkItems, hlink⟩ := bind_eq_ok.mp hlink
    obtain ⟨hnames, hrepeats⟩ := repeats_items items (fun b => List.not_mem_nil) hlinkItems hitems
      htail.startsIn hend
    have haction : Repeats (basis source) Nonterminal.item.body rest tail
        ((actionItems action).map (ItemMeant scope)) := by
      cases action with
      | none =>
        have ht : tail = [] := htail
        subst ht
        exact Repeats.stop hend.fails
      | some host =>
        obtain ⟨u, g, hu, hg, hgap, ht⟩ := htail
        subst ht
        obtain ⟨node', hnode, _⟩ := bind_eq_ok.mp hlink
        have hbreak : StartsIn breaks (g ++ rest) := by
          rcases hgap with hgap | hfollowed
          · exact hg.startsIn.append_of_ne_nil hgap
          · exact hg.startsIn.append ((hend.closes hfollowed).widen (by decide))
        refine Repeats.one (List.append_ne_nil_of_left_ne_nil hu.startsIn.1 g) ?_ hend.fails
        have hitem : BodyTakes (basis source) Nonterminal.item.body ([] ++ ([] ++ (u ++ [])) ++ g) rest
            (ItemMeant scope ⟨none, false, .none, .code host, .once, none, .unknown⟩) :=
          takes_item_of_body rfl rfl (show BodyPrinted braces (.code host) u from hu) rfl
            (fun g rest hg _ hrest => takes_embedded hg hrest hnames hnode hu) hg hbreak hend.starts
        rw [List.append_nil] at hitem
        exact hitem
    refine takes_record rfl rfl rfl ?_
    refine ItemsTake.last (ItemTakes.star (reach_basis source) (hrepeats _ haction)) fun x hx => ?_
    obtain ⟨xs, hxs, hall⟩ := hx
    rw [← List.map_append] at hall
    exact sequenceMeant hnone rfl hxs hall
termination_by structural seq => seq

/-- Items are read one after the other, and then what is read behind them. -/
theorem repeats_items :
    ∀ (items : List (Item (Body α))) {visible visible' : List Bytes} {linked : List (Item (Body α))}
      {tail t rest : Bytes} {followed : Bool}, (∀ b, Value.boolWord b ∉ visible) →
        linkItems tables visible items = .ok (linked, visible') → ItemsPrinted braces followed tail items t →
          StartsIn itemStarts tail → SequenceEnd source followed rest →
            (∀ b, Value.boolWord b ∉ visible') ∧ ∀ Qs,
              Repeats (basis source) Nonterminal.item.body rest tail Qs →
                Repeats (basis source) Nonterminal.item.body rest t (items.map (ItemMeant scope) ++ Qs)
  | [], visible, visible', linked, tail, t, rest, followed, hvisible, hlink, h, htail, hend => by
    have ht : t = tail := h
    subst ht
    cases hlink
    exact ⟨hvisible, fun Qs hmore => hmore⟩
  | item :: others, visible, visible', linked, tail, t, rest, followed, hvisible, hlink, h, htail, hend => by
    obtain ⟨u, g, v, hu, hg, hv, hgap, ht⟩ := h
    subst ht
    unfold linkItems at hlink
    obtain ⟨⟨item', between⟩, hitem, hlink⟩ := bind_eq_ok.mp hlink
    obtain ⟨⟨others', behind⟩, hothers, hlink⟩ := bind_eq_ok.mp hlink
    cases hlink
    obtain ⟨hbetween, htakes⟩ := takes_item item hvisible hitem hu
    obtain ⟨hbehind, hmore⟩ := repeats_items others hbetween hothers hv htail hend
    have hbreak : StartsIn breaks (g ++ (v ++ rest)) := by
      rcases hgap with hgap | ⟨hnil, hfollowed⟩
      · exact hg.startsIn.append_of_ne_nil hgap
      · subst hnil
        exact hg.startsIn.append ((hend.closes hfollowed).widen (by decide))
    have hends : StartsIn itemEnds (v ++ rest) :=
      ((hv.startsIn htail).mono itemStarts_subset_itemEnds).append hend.starts
    refine ⟨hbehind, fun Qs htailTakes => ?_⟩
    rw [← List.append_assoc]
    refine Repeats.more (List.append_ne_nil_of_left_ne_nil hu.startsIn.1 g) ?_ (hmore Qs htailTakes)
    exact htakes g (v ++ rest) hg hbreak hends
termination_by structural items => items

/-- **Items are read as they are printed.** -/
theorem takes_item :
    ∀ (item : Item (Body α)) {visible visible' : List Bytes} {linked : Item (Body α)} {t : Bytes},
      (∀ b, Value.boolWord b ∉ visible) → linkItem tables visible item = .ok (linked, visible') →
        ItemPrinted braces item t → (∀ b, Value.boolWord b ∉ visible') ∧
          ∀ g rest, Gap g → StartsIn breaks (g ++ rest) → StartsIn itemEnds rest →
            BodyTakes (basis source) Nonterminal.item.body (t ++ g) rest (ItemMeant scope item)
  | ⟨name, autobind, lookahead, body, repetition, slot, position⟩, visible, visible', linked, t, hvisible,
      hlink, h => by
    obtain ⟨hslot, hconstant, u, v, w, z, hu, hv, hw, hz, ht⟩ := h
    subst hslot ht
    unfold linkItem at hlink
    obtain ⟨body', hbody, hlink⟩ := bind_eq_ok.mp hlink
    obtain ⟨name', hname, hlink⟩ := bind_eq_ok.mp hlink
    obtain ⟨⟨slot', behind⟩, hslot, hlink⟩ := bind_eq_ok.mp hlink
    cases hlink
    refine ⟨visible_of_bindSlot hvisible hconstant hname hslot, fun g rest hg hbreak hrest => ?_⟩
    exact takes_item_of_body hu hv hw hz (takes_body body hvisible hbody hw) hg hbreak hrest
termination_by structural item => item

end

end Expressions

end Packrat.Source
