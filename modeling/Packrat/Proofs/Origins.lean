import Packrat.Proofs.Reading
import Packrat.Proofs.Splitting

/-!
# `Packrat.Proofs.Origins` — where values come from

`Packrat.Proofs.Reading` shows what a rule reads from a given text. Here an evaluation has succeeded already, and the
question is what it has gone through. There is one inversion for each way to build an expression, so that a value is
taken apart by going through the rule that it comes from.

## Contents
- **Origins.** `RuleYields`, `BodyYields` and their companions: an evaluation succeeds between two places.
- **Bodies.** Calls, groups and terminals.
- **Texts.** `Cursor.Crosses`, and what terminals cross.
- **Items.** `Steps` lists what a repetition goes through.
- **Sequences.** The slots of a record, the value of a name, the value passed on, and the matched text.
-/

namespace Packrat

variable {α β γ : Type}

/-! ## Origins -/

section Origins

variable (s : Basis α)

/-- A rule succeeds between two places. -/
def RuleYields (i : Nat) (c : Cursor) (x : Spanned Value) (next : Cursor) : Prop :=
  ∃ m, (traceCall s m i c).answer = .ok (.success x next)

/-- A body succeeds in some sequence at work. -/
def BodyYields (body : Body α) (c : Cursor) (x : Spanned Value) (next : Cursor) : Prop :=
  ∃ m frame, (traceBody s (traceCall s m) frame body c).answer = .ok (.success x next)

/-- An item succeeds in some sequence at work. -/
def ItemYields (item : Item (Body α)) (c : Cursor) (x : Spanned Value) (next : Cursor) : Prop :=
  ∃ m frame, (traceItem s (traceCall s m) frame item c).answer = .ok (.success x next)

/-- Items succeed one after the other and fill slots on the way. -/
def ItemsYield (items : List (Item (Body α))) (slots : List (Spanned Value)) (c : Cursor)
    (slots' : List (Spanned Value)) (next : Cursor) : Prop :=
  ∃ m layout start last last', (traceItems s (traceCall s m) layout start items slots last c).answer =
    .ok (.success slots' last' next)

/-- A sequence succeeds. -/
def SequenceYields (seq : Sequence α (Body α)) (c : Cursor) (x : Spanned Value) (next : Cursor) : Prop :=
  ∃ m, (traceSequence s (traceCall s m) seq c).answer = .ok (.success x next)

/-- One of some alternatives succeeds. -/
def ExprYields (e : Expr α) (c : Cursor) (x : Spanned Value) (next : Cursor) : Prop :=
  ∃ seq ∈ e, SequenceYields s seq c x next

end Origins

variable {s : Basis α} {c next : Cursor} {x : Spanned Value}

/-- An expression succeeds with one of its alternatives. -/
theorem exprYields_of_answer {m : Nat} {earliest : Option Nat} (e : Expr α)
    (h : (traceExpr s (traceCall s m) e earliest c).answer = .ok (.success x next)) : ExprYields s e c x next := by
  induction e generalizing earliest with
  | nil =>
    simp only [traceExpr] at h
    cases h
  | cons seq rest ih =>
    simp only [traceExpr] at h
    obtain ⟨r, hseq, h⟩ := Traced.answer_bind h
    cases r with
    | success y mid =>
      cases h
      exact ⟨seq, List.mem_cons_self, m, hseq⟩
    | failure offset =>
      obtain ⟨seq', hmem, hseq'⟩ := ih h
      exact ⟨seq', List.mem_cons_of_mem seq hmem, hseq'⟩

/-- The value of a rule is that of one of its alternatives, with a tag if the rule is decorated. -/
theorem RuleYields.expr {i : Nat} {rule : Rule α} (h : RuleYields s i c x next)
    (hrule : s.grammar.rules[i]? = some rule) (hmatcher : rule.matcher = none) :
    ∃ y, ExprYields s rule.body c y next ∧ x = if rule.decorated then tagged rule.name y else y := by
  obtain ⟨m, h⟩ := h
  cases m with
  | zero =>
    rw [traceCall_zero hrule] at h
    cases h
  | succ m =>
    rw [traceCall_succ hrule] at h
    simp only [traceRule, hmatcher] at h
    obtain ⟨r, hexpr, h⟩ := Traced.answer_bind h
    cases r with
    | failure offset => cases h
    | success y mid =>
      cases hdecorated : rule.decorated with
      | true =>
        simp only [hdecorated, if_true] at h
        cases h
        exact ⟨y, exprYields_of_answer rule.body hexpr, rfl⟩
      | false =>
        simp only [hdecorated, Bool.false_eq_true, if_false] at h
        cases h
        exact ⟨x, exprYields_of_answer rule.body hexpr, rfl⟩

/-! ## Bodies -/

namespace BodyYields

theorem call {name : Bytes} {i : Nat} (h : BodyYields s (.call name false (some i)) c x next) :
    RuleYields s i c x next := by
  obtain ⟨m, frame, h⟩ := h
  simp only [traceBody, traceRuleCall] at h
  obtain ⟨r, hcall, h⟩ := Traced.answer_bind h
  cases r with
  | failure offset => cases h
  | success y mid =>
    cases hrule : s.grammar.rules[i]? with
    | none =>
      simp only [hrule] at h
      cases h
    | some rule =>
      simp only [hrule, Bool.false_and, Bool.false_eq_true, if_false] at h
      cases h
      exact ⟨m, hcall⟩

theorem group {e : Expr α} (h : BodyYields s (.group e) c x next) : ExprYields s e c x next := by
  obtain ⟨m, frame, h⟩ := h
  simp only [traceBody] at h
  exact exprYields_of_answer e h

/-- A terminal yields the text that it takes. -/
theorem terminal {body : Body α} (h : BodyYields s body c x next) (hterminal : body.isTerminal = true) :
    ∃ n, body.taken? c.remaining = some n ∧ next = c.advance n ∧ x.value = .text (c.remaining.take n) := by
  obtain ⟨m, frame, h⟩ := h
  have htaken : ∀ label, (traceTerminal c label (body.taken? c.remaining)).answer = .ok (.success x next) →
      ∃ n, body.taken? c.remaining = some n ∧ next = c.advance n ∧ x.value = .text (c.remaining.take n) := by
    intro label h
    cases hn : body.taken? c.remaining with
    | none =>
      rw [hn] at h
      cases h
    | some n =>
      rw [hn] at h
      cases h
      exact ⟨n, rfl, rfl, rfl⟩
  cases body with
  | literal spelling caseless braceSensitive =>
    simp only [traceBody] at h
    exact htaken _ h
  | cls k =>
    simp only [traceBody] at h
    exact htaken _ h
  | any =>
    simp only [traceBody] at h
    exact htaken _ h
  | _ => cases hterminal

end BodyYields

/-! ## Texts -/

/-- A text lies between two places. -/
structure Cursor.Crosses (c : Cursor) (t : Bytes) (next : Cursor) : Prop extends c.Past t next where
  remaining : c.remaining = t ++ next.remaining

namespace Cursor.Crosses

variable {mid : Cursor} {t u : Bytes}

theorem trans (h : c.Crosses t mid) (h' : mid.Crosses u next) : c.Crosses (t ++ u) next := by
  refine ⟨h.toPast.trans h'.toPast, ?_⟩
  rw [h.remaining, h'.remaining, List.append_assoc]

theorem textFrom (h : c.Crosses t next) : next.textFrom c.offset = t := h.toPast.textFrom h.remaining

/-- Moving on crosses what stands there. -/
theorem take {n : Nat} (hn : n ≤ c.remaining.length) : c.Crosses (c.remaining.take n) (c.advance n) := by
  have hsplit : c.remaining = c.remaining.take n ++ c.remaining.drop n := (List.take_append_drop n _).symm
  have hpast : c.Past (c.remaining.take n) (c.advance n) := by
    have hadvance := Past.advance hsplit
    rwa [List.length_take_of_le hn] at hadvance
  refine ⟨hpast, ?_⟩
  rw [hpast.remaining hsplit]
  exact hsplit

end Cursor.Crosses

namespace BodyYields

/-- A terminal crosses the text that it yields. -/
theorem crosses {body : Body α} (h : BodyYields s body c x next) (hterminal : body.isTerminal = true) :
    ∃ t, c.Crosses t next ∧ x.value = .text t ∧ body.taken? c.remaining = some t.length := by
  obtain ⟨n, htaken, rfl, hvalue⟩ := h.terminal hterminal
  have hn : n ≤ c.remaining.length := by
    cases body with
    | literal spelling caseless braceSensitive => exact Terminal.le_length_literal htaken
    | cls k =>
      obtain ⟨⟨r, n⟩, hclass, rfl⟩ := Option.map_eq_some_iff.mp htaken
      exact Terminal.le_length_class hclass
    | any =>
      obtain ⟨⟨r, n⟩, hany, rfl⟩ := Option.map_eq_some_iff.mp htaken
      exact Terminal.le_length_any hany
    | _ => cases hterminal
  refine ⟨c.remaining.take n, .take hn, hvalue, ?_⟩
  rw [htaken, List.length_take_of_le hn]

/-- A literal with case crosses the text that it denotes. -/
theorem literal {spelling : Bytes} {braceSensitive : Bool} (h : BodyYields s (.literal spelling false braceSensitive) c x next) :
    c.Crosses (unescape spelling) next := by
  obtain ⟨t, hcross, -, htaken⟩ := h.crosses rfl
  have hmatches : Matches [] (.literal spelling false braceSensitive) c.remaining (some t.length) := by
    rw [← htaken]
    exact .literal
  rw [hcross.remaining] at hmatches
  rw [← Reads.literal hmatches]
  exact hcross

/-- A class crosses one of its runes. -/
theorem cls {k : CharClass} (h : BodyYields s (.cls k) c x next) :
    ∃ r : Rune, r.isScalar = true ∧ k.contains r = true ∧ c.Crosses (Utf8.encode r) next := by
  obtain ⟨t, hcross, -, htaken⟩ := h.crosses rfl
  have hmatches : Matches [] (.cls k) c.remaining (some t.length) := by
    rw [← htaken]
    exact .cls
  rw [hcross.remaining] at hmatches
  obtain ⟨r, hscalar, rfl, hr⟩ := Reads.cls hmatches
  exact ⟨r, hscalar, hr, hcross⟩

/-- Any character crosses what is decoded there. -/
theorem any (h : BodyYields s .any c x next) :
    ∃ t, t ≠ [] ∧ (Utf8.decode (t ++ next.remaining)).length = t.length ∧ c.Crosses t next := by
  obtain ⟨t, hcross, -, htaken⟩ := h.crosses rfl
  have hremaining := hcross.remaining
  simp only [Body.taken?] at htaken
  cases hc : c.remaining with
  | nil =>
    rw [hc] at htaken
    cases htaken
  | cons b more =>
    rw [hc, Terminal.any?] at htaken
    have hlength : (Utf8.decode c.remaining).length = t.length := by
      rw [hc]
      exact Option.some.inj htaken
    have hpos := Utf8.length_decode_pos (List.cons_ne_nil b more)
    refine ⟨t, ?_, ?_, hcross⟩
    · rintro rfl
      rw [← hc, hlength] at hpos
      exact absurd hpos (Nat.lt_irrefl 0)
    · rw [← hremaining]
      exact hlength

end BodyYields

/-! ## Items -/

/-- Attempts that succeed one after the other. -/
inductive Steps (P : Cursor → Spanned Value → Cursor → Prop) : Cursor → List (Spanned Value) → Cursor → Prop
  | nil (c : Cursor) : Steps P c [] c
  | cons {c mid next : Cursor} {x : Spanned Value} {xs : List (Spanned Value)} (h : P c x mid)
      (hrest : Steps P mid xs next) : Steps P c (x :: xs) next

/-- Every element of a repetition comes from an attempt. -/
theorem Steps.forall {P : Cursor → Spanned Value → Cursor → Prop} {xs : List (Spanned Value)} (h : Steps P c xs next) :
    ∀ x ∈ xs, ∃ c' next', P c' x next' := by
  induction h with
  | nil c => exact fun x hx => absurd hx List.not_mem_nil
  | cons hfirst _ ih =>
    rw [List.forall_mem_cons]
    exact ⟨⟨_, _, hfirst⟩, ih⟩

theorem steps_of_answer {P : Cursor → Spanned Value → Cursor → Prop} {step : Cursor → Traced Result}
    (hstep : ∀ {c x next}, (step c).answer = .ok (.success x next) → P c x next) (fuel : Nat)
    {collected elements : List (Spanned Value)}
    (h : (traceCollect step fuel collected c).answer = .ok (elements, next)) :
    ∃ xs, elements = collected.reverse ++ xs ∧ Steps P c xs next := by
  induction fuel generalizing collected c with
  | zero =>
    cases h
    exact ⟨[], (List.append_nil _).symm, .nil _⟩
  | succ fuel ih =>
    simp only [traceCollect] at h
    obtain ⟨r, hr, h⟩ := Traced.answer_bind h
    cases r with
    | failure offset =>
      cases h
      exact ⟨[], (List.append_nil _).symm, .nil _⟩
    | success y mid =>
      simp only at h
      split at h
      · cases h
        exact ⟨[], (List.append_nil _).symm, .nil _⟩
      · obtain ⟨xs, hxs, hsteps⟩ := ih h
        refine ⟨y :: xs, ?_, .cons (hstep hr) hsteps⟩
        rw [hxs, List.reverse_cons, List.append_assoc]
        rfl

section Items

variable {name : Option Bytes} {autobind : Bool} {body : Body α} {slot : Option Nat} {position : Position}

namespace ItemYields

/-- An item without a lookahead yields what its repetition does. -/
theorem repeated {repetition : Repetition}
    (h : ItemYields s ⟨name, autobind, .none, body, repetition, slot, position⟩ c x next) :
    ∃ m frame, (traceRepeated s.reach repetition (traceBody s (traceCall s m) frame body) c).answer =
      .ok (.success x next) := by
  obtain ⟨m, frame, h⟩ := h
  simp only [traceItem] at h
  obtain ⟨r, hr, h⟩ := Traced.answer_bind h
  cases r with
  | failure offset => cases h
  | success y mid =>
    cases h
    exact ⟨m, frame, hr⟩

theorem once (h : ItemYields s ⟨name, autobind, .none, body, .once, slot, position⟩ c x next) :
    BodyYields s body c x next := h.repeated

theorem optional (h : ItemYields s ⟨name, autobind, .none, body, .optional, slot, position⟩ c x next) :
    x.value = .option none ∨ ∃ y, x.value = .option (some y) ∧ BodyYields s body c y next := by
  obtain ⟨m, frame, h⟩ := h.repeated
  simp only [traceRepeated] at h
  obtain ⟨r, hr, h⟩ := Traced.answer_bind h
  cases r with
  | failure offset =>
    cases h
    exact .inl rfl
  | success y mid =>
    cases h
    exact .inr ⟨y, rfl, m, frame, hr⟩

theorem star (h : ItemYields s ⟨name, autobind, .none, body, .star, slot, position⟩ c x next) :
    ∃ xs, x.value = .list xs ∧ Steps (BodyYields s body) c xs next := by
  obtain ⟨m, frame, h⟩ := h.repeated
  simp only [traceRepeated] at h
  obtain ⟨⟨elements, mid⟩, hcollect, h⟩ := Traced.answer_bind h
  cases h
  obtain ⟨xs, hxs, hsteps⟩ := steps_of_answer (P := BodyYields s body) (fun h => ⟨m, frame, h⟩) _ hcollect
  have helements : elements = xs := hxs
  subst helements
  exact ⟨elements, rfl, hsteps⟩

theorem plus (h : ItemYields s ⟨name, autobind, .none, body, .plus, slot, position⟩ c x next) :
    ∃ xs, x.value = .list xs ∧ xs ≠ [] ∧ Steps (BodyYields s body) c xs next := by
  obtain ⟨m, frame, h⟩ := h.repeated
  simp only [traceRepeated] at h
  obtain ⟨r, hr, h⟩ := Traced.answer_bind h
  cases r with
  | failure offset => cases h
  | success y mid =>
    obtain ⟨⟨elements, last⟩, hcollect, h⟩ := Traced.answer_bind h
    cases h
    obtain ⟨xs, hxs, hsteps⟩ := steps_of_answer (P := BodyYields s body) (fun h => ⟨m, frame, h⟩) _ hcollect
    have helements : elements = y :: xs := hxs
    subst helements
    exact ⟨y :: xs, rfl, List.cons_ne_nil y xs, .cons ⟨m, frame, hr⟩ hsteps⟩

/-- A test takes nothing. -/
theorem notAhead (h : ItemYields s ⟨name, autobind, .notAhead, body, .once, slot, position⟩ c x next) : next = c := by
  obtain ⟨m, frame, h⟩ := h
  simp only [traceItem] at h
  obtain ⟨r, -, h⟩ := Traced.answer_bind h
  cases r with
  | failure offset =>
    cases h
    rfl
  | success y mid =>
    simp only [Lookahead.judge] at h
    split at h
    · cases h
      rfl
    · cases h

end ItemYields

end Items

/-! ## Sequences -/

variable {items : List (Item (Body α))} {slots slots' : List (Spanned Value)}

namespace ItemsYield

theorem nil (h : ItemsYield s [] slots c slots' next) : slots' = slots ∧ next = c := by
  obtain ⟨m, layout, start, last, last', h⟩ := h
  simp only [traceItems] at h
  cases h
  exact ⟨rfl, rfl⟩

theorem cons {item : Item (Body α)} (h : ItemsYield s (item :: items) slots c slots' next) :
    ∃ y mid, ItemYields s item c y mid ∧ ItemsYield s items
      (match item.slot with
        | none => slots
        | some i => slots.set i y) mid slots' next := by
  obtain ⟨m, layout, start, last, last', h⟩ := h
  simp only [traceItems] at h
  obtain ⟨r, hr, h⟩ := Traced.answer_bind h
  cases r with
  | failure offset => cases h
  | success y mid => exact ⟨y, mid, ⟨m, _, hr⟩, m, layout, start, y, last', h⟩

end ItemsYield

section Sequences

variable {action : Option (Host α)} {layout : List Bytes} {position : Position}

namespace SequenceYields

/-- A sequence that succeeds has gone through its items and made its value of their slots. -/
theorem made (h : SequenceYields s ⟨items, action, layout, position⟩ c x next) :
    ∃ slots last, ItemsYield s items (List.replicate layout.length default) c slots next ∧
      traceValue s items action layout c slots last next = .ok x := by
  obtain ⟨m, h⟩ := h
  simp only [traceSequence] at h
  obtain ⟨r, hitems, h⟩ := Traced.answer_bind h
  cases r with
  | failure offset => cases h
  | success slots last mid =>
    obtain ⟨v, hv, h⟩ := Traced.answer_bind h
    cases h
    refine ⟨slots, last, ⟨m, layout, c.offset, default, last, hitems⟩, ?_⟩
    revert hv
    cases traceValue s items action layout c slots last next with
    | error f =>
      intro hv
      cases hv
    | ok y =>
      intro hv
      cases hv
      rfl

/-- A record has what its names are bound to. -/
theorem record (h : SequenceYields s ⟨items, none, layout, position⟩ c x next) (hlayout : layout.isEmpty = false) :
    ∃ slots, ItemsYield s items (List.replicate layout.length default) c slots next ∧
      x.value = .node [] (layout.zip slots) := by
  obtain ⟨slots, last, hitems, hvalue⟩ := h.made
  simp only [traceValue, hlayout, Bool.not_false, if_true] at hvalue
  cases hvalue
  exact ⟨slots, hitems, rfl⟩

/-- A name yields the value of what it is bound to. -/
theorem bound {name : Bytes} {i : Nat} {at_ : Position}
    (h : SequenceYields s ⟨items, some ⟨.ref name (some i), at_⟩, layout, position⟩ c x next) :
    ∃ slots y, ItemsYield s items (List.replicate layout.length default) c slots next ∧ slots[i]? = some y ∧
      x.value = y.value := by
  obtain ⟨slots, last, hitems, hvalue⟩ := h.made
  simp only [traceValue, traceHost, Frame.value, Option.bind_some] at hvalue
  cases hslot : slots[i]? with
  | none =>
    rw [hslot] at hvalue
    cases hvalue
  | some y =>
    rw [hslot] at hvalue
    cases hvalue
    exact ⟨slots, y, hitems, hslot, rfl⟩

/-- A sequence of one call or group passes its value on. -/
theorem passed {body : Body α} {name : Option Bytes} {autobind : Bool} {at_ : Position}
    (h : SequenceYields s ⟨[⟨name, autobind, .none, body, .once, none, at_⟩], none, [], position⟩ c x next)
    (hpasses : body.passesOn = true) : BodyYields s body c x next := by
  obtain ⟨m, h⟩ := h
  have hvalue : ∀ {slots last next}, traceValue s [⟨name, autobind, .none, body, .once, none, at_⟩] none [] c slots
      last next = .ok last := by
    intro slots last next
    simp only [traceValue, passesOn, hpasses]
    rfl
  simp only [traceSequence, traceItems] at h
  obtain ⟨r, hitems, h⟩ := Traced.answer_bind h
  obtain ⟨r', hitem, hitems⟩ := Traced.answer_bind hitems
  cases r' with
  | failure offset =>
    cases hitems
    cases h
  | success y mid =>
    cases hitems
    simp only [hvalue] at h
    cases h
    exact ItemYields.once ⟨m, _, hitem⟩

/-- A sequence of more than one item without names yields the text that it takes. -/
theorem matched (h : SequenceYields s ⟨items, none, [], position⟩ c x next) (hpasses : passesOn items = false) :
    (∃ slots, ItemsYield s items [] c slots next) ∧ x.value = .text (next.textFrom c.offset) := by
  obtain ⟨slots, last, hitems, hvalue⟩ := h.made
  simp only [traceValue, hpasses, List.isEmpty_nil, Bool.not_true, Bool.false_eq_true, if_false] at hvalue
  cases hvalue
  exact ⟨⟨slots, hitems⟩, rfl⟩

end SequenceYields

end Sequences

end Packrat
