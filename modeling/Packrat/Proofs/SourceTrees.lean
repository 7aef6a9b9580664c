import Packrat.Proofs.Nonterminals
import Packrat.Proofs.Origins
import Packrat.Proofs.Spellings
import Packrat.Proofs.TerminalReading
import Packrat.Proofs.Translation

/-!
# `Packrat.Proofs.SourceTrees` — what the trees of grammar sources are made of

Every part of the tree of a grammar source comes from an evaluation of the rule that stands for it. Going down from
the root, one rule at a time, each part is found where the translation looks for it.

## Contents
- **Rules.** `Grown`, and what the rules between the root and the literals are made of.
- **Names.** What a let or definition defines is an identifier.
- **Literals.** The texts in a literal are its parts, side by side.
- **Sources.** `parseSource_grown`.
-/

namespace Packrat.Source

variable {source : Bytes} {n : Nonterminal} {items : List (Item (Body Empty))} {c next : Cursor} {x : Spanned Value}
  {v : Value}

/-! ## Rules -/

/-- A value comes from the evaluation of a rule. -/
def Grown (source : Bytes) (n : Nonterminal) (v : Value) : Prop :=
  ∃ c x next, RuleYields (basis source) n.place c x next ∧ x.value = v

/-- A rule yields what its alternatives do. They are named as they stand, which is quicker than to open the table of
all rules. -/
theorem yields_alternatives {alternatives : Expr Empty} (halternatives : n.alternatives = alternatives)
    (h : RuleYields (basis source) n.place c x next) :
    ∃ y, ExprYields (basis source) alternatives c y next ∧ x = if n.decorated then tagged n.name y else y :=
  halternatives ▸ h.expr n.rule_at rfl

/-- A rule with one alternative yields what that does. -/
theorem yields_sequence {seq : Sequence Empty (Body Empty)} (halternatives : n.alternatives = [seq])
    (h : RuleYields (basis source) n.place c x next) :
    ∃ y, SequenceYields (basis source) seq c y next ∧ x = if n.decorated then tagged n.name y else y := by
  obtain ⟨y, ⟨seq', hseq, hyields⟩, hx⟩ := yields_alternatives halternatives h
  rw [List.mem_singleton] at hseq
  subst hseq
  exact ⟨y, hyields, hx⟩

theorem grown_of_body (h : BodyYields (basis source) n.body c x next) : Grown source n x.value :=
  ⟨c, x, next, h.call, rfl⟩

/-- The elements of a repetition of a rule come from the rule. -/
theorem grown_of_steps {xs : List (Spanned Value)} (h : Steps (BodyYields (basis source) n.body) c xs next) :
    ∀ x ∈ xs, Grown source n x.value := by
  intro x hx
  obtain ⟨c', next', hbody⟩ := h.forall x hx
  exact grown_of_body hbody

/-- A rule with named fields makes nodes of what its names are bound to. -/
theorem Grown.record {layout : List String} (h : Grown source n v) (hdecorated : n.decorated = true)
    (halternatives : n.alternatives = [sequenceOf items layout]) (hlayout : layout.isEmpty = false) :
    ∃ c next slots, ItemsYield (basis source) items (List.replicate layout.length default) c slots next ∧
      v = .node n.name ((layout.map Bytes.ascii).zip slots) := by
  obtain ⟨c, x, next, hrule, rfl⟩ := h
  obtain ⟨y, hyields, rfl⟩ := yields_sequence halternatives hrule
  obtain ⟨slots, hitems, hvalue⟩ := SequenceYields.record hyields (by rw [List.isEmpty_map]; exact hlayout)
  rw [List.length_map] at hitems
  obtain ⟨w, start, stop⟩ := y
  refine ⟨c, next, slots, hitems, ?_⟩
  have hw : w = .node [] ((layout.map Bytes.ascii).zip slots) := hvalue
  rw [if_pos hdecorated, hw]
  rfl

/-- The root has lets and definitions. -/
theorem Grown.grammar (h : Grown source .grammar v) : ∃ tag fields lets defs, v = .node tag fields ∧
    listPart fields "lets" = .ok lets ∧ (∀ d ∈ lets, Grown source .letting d.value) ∧
    listPart fields "defs" = .ok defs ∧ ∀ d ∈ defs, Grown source .definition d.value := by
  obtain ⟨c, next, slots, hitems, rfl⟩ := h.record rfl rfl rfl
  obtain ⟨_, _, -, hitems⟩ := hitems.cons
  obtain ⟨lets, _, hlets, hitems⟩ := hitems.cons
  obtain ⟨defs, _, hdefs, hitems⟩ := hitems.cons
  obtain ⟨_, _, -, hitems⟩ := hitems.cons
  obtain ⟨rfl, -⟩ := hitems.nil
  obtain ⟨ls, hls, hlets⟩ := ItemYields.star hlets
  obtain ⟨ds, hds, -, hdefs⟩ := ItemYields.plus hdefs
  refine ⟨_, _, ls, ds, rfl, ?_, grown_of_steps hlets, ?_, grown_of_steps hdefs⟩
  · obtain ⟨w, start, stop⟩ := lets
    cases hls
    rfl
  · obtain ⟨w, start, stop⟩ := defs
    cases hds
    rfl

/-- A let has a name. -/
theorem Grown.letting (h : Grown source .letting v) : ∃ tag fields name, v = .node tag fields ∧
    part fields "name" = .ok name ∧ Grown source .identifier name.value := by
  obtain ⟨c, next, slots, hitems, rfl⟩ := h.record rfl rfl rfl
  obtain ⟨_, _, -, hitems⟩ := hitems.cons
  obtain ⟨_, _, -, hitems⟩ := hitems.cons
  obtain ⟨_, _, -, hitems⟩ := hitems.cons
  obtain ⟨name, _, hname, hitems⟩ := hitems.cons
  obtain ⟨_, _, -, hitems⟩ := hitems.cons
  obtain ⟨_, _, -, hitems⟩ := hitems.cons
  obtain ⟨target, _, -, hitems⟩ := hitems.cons
  obtain ⟨rfl, -⟩ := hitems.nil
  exact ⟨_, _, name, rfl, rfl, grown_of_body hname.once⟩

/-- A definition has a name and an expression. -/
theorem Grown.definition (h : Grown source .definition v) : ∃ tag fields name body, v = .node tag fields ∧
    part fields "name" = .ok name ∧ Grown source .identifier name.value ∧
    part fields "body" = .ok body ∧ Grown source .expression body.value := by
  obtain ⟨c, next, slots, hitems, rfl⟩ := h.record rfl rfl rfl
  obtain ⟨name, _, hname, hitems⟩ := hitems.cons
  obtain ⟨arrow, _, -, hitems⟩ := hitems.cons
  obtain ⟨body, _, hbody, hitems⟩ := hitems.cons
  obtain ⟨rfl, -⟩ := hitems.nil
  exact ⟨_, _, name, body, rfl, rfl, grown_of_body hname.once, rfl, grown_of_body hbody.once⟩

/-- An expression has sequences. -/
theorem Grown.expression (h : Grown source .expression v) : ∃ tag fields first rest, v = .node tag fields ∧
    part fields "first" = .ok first ∧ Grown source .sequence first.value ∧
    listPart fields "rest" = .ok rest ∧ ∀ x ∈ rest, Grown source .sequence x.value := by
  obtain ⟨c, next, slots, hitems, rfl⟩ := h.record rfl rfl rfl
  obtain ⟨first, _, hfirst, hitems⟩ := hitems.cons
  obtain ⟨rest, _, hrest, hitems⟩ := hitems.cons
  obtain ⟨rfl, -⟩ := hitems.nil
  obtain ⟨xs, hxs, hsteps⟩ := ItemYields.star hrest
  refine ⟨_, _, first, xs, rfl, rfl, grown_of_body hfirst.once, ?_, ?_⟩
  · obtain ⟨w, start, stop⟩ := rest
    cases hxs
    rfl
  · intro x hx
    obtain ⟨c', next', hbody⟩ := hsteps.forall x hx
    obtain ⟨seq, hseq, hyields⟩ := hbody.group
    rw [List.mem_singleton] at hseq
    subst hseq
    obtain ⟨slots, y, hitems, hslot, hvalue⟩ := SequenceYields.bound hyields
    obtain ⟨_, _, -, hitems⟩ := hitems.cons
    obtain ⟨_, _, -, hitems⟩ := hitems.cons
    obtain ⟨seq, _, hseq, hitems⟩ := hitems.cons
    obtain ⟨rfl, -⟩ := hitems.nil
    cases hslot
    rw [hvalue]
    exact grown_of_body hseq.once

/-- A sequence has items. -/
theorem Grown.sequence (h : Grown source .sequence v) : ∃ tag fields items, v = .node tag fields ∧
    listPart fields "items" = .ok items ∧ ∀ x ∈ items, Grown source .item x.value := by
  obtain ⟨c, next, slots, hitems, rfl⟩ := h.record rfl rfl rfl
  obtain ⟨items, _, hlist, hitems⟩ := hitems.cons
  obtain ⟨rfl, -⟩ := hitems.nil
  obtain ⟨xs, hxs, hsteps⟩ := ItemYields.star hlist
  refine ⟨_, _, xs, rfl, ?_, grown_of_steps hsteps⟩
  obtain ⟨w, start, stop⟩ := items
  cases hxs
  rfl

/-- An item has a primary. -/
theorem Grown.item (h : Grown source .item v) : ∃ tag fields primary, v = .node tag fields ∧
    part fields "primary" = .ok primary ∧ Grown source .primary primary.value := by
  obtain ⟨c, next, slots, hitems, rfl⟩ := h.record rfl rfl rfl
  obtain ⟨_, _, -, hitems⟩ := hitems.cons
  obtain ⟨_, _, -, hitems⟩ := hitems.cons
  obtain ⟨primary, _, hprimary, hitems⟩ := hitems.cons
  obtain ⟨_, _, -, hitems⟩ := hitems.cons
  obtain ⟨rfl, -⟩ := hitems.nil
  exact ⟨_, _, primary, rfl, rfl, grown_of_body hprimary.once⟩

/-- A group has an expression. -/
theorem Grown.group (h : Grown source .group v) : ∃ fields body, v = .node (Bytes.ascii "Parenthesized") fields ∧
    part fields "body" = .ok body ∧ Grown source .expression body.value := by
  obtain ⟨c, next, slots, hitems, rfl⟩ := h.record rfl rfl rfl
  obtain ⟨_, _, -, hitems⟩ := hitems.cons
  obtain ⟨_, _, -, hitems⟩ := hitems.cons
  obtain ⟨body, _, hbody, hitems⟩ := hitems.cons
  obtain ⟨_, _, -, hitems⟩ := hitems.cons
  obtain ⟨_, _, -, hitems⟩ := hitems.cons
  obtain ⟨rfl, -⟩ := hitems.nil
  exact ⟨_, body, rfl, rfl, grown_of_body hbody.once⟩

/-- A sequence of one call passes on what the rule makes. -/
theorem yields_of_call (h : SequenceYields (basis source) (sequenceOf [step n.body]) c x next) :
    RuleYields (basis source) n.place c x next := (SequenceYields.passed h rfl).call

/-- A value of a decorated rule is a node with the name of the rule. -/
theorem Grown.tag (h : Grown source n v) (hdecorated : n.decorated = true) : ∃ fields, v = .node n.name fields := by
  obtain ⟨c, x, next, hrule, rfl⟩ := h
  obtain ⟨y, -, rfl⟩ := yields_alternatives rfl hrule
  rw [if_pos hdecorated]
  unfold tagged
  split
  · exact ⟨_, rfl⟩
  · exact ⟨_, rfl⟩

/-- A primary is a group, a literal, or something else that is named so. -/
theorem Grown.primary (h : Grown source .primary v) : Grown source .group v ∨ Grown source .literal v ∨
    ∃ tag fields, v = .node tag fields ∧ tag ≠ Bytes.ascii "Parenthesized" ∧ tag ≠ Bytes.ascii "Literal" := by
  obtain ⟨c, x, next, hrule, rfl⟩ := h
  obtain ⟨y, ⟨seq, hseq, hyields⟩, rfl⟩ := yields_alternatives
    (show Nonterminal.primary.alternatives = [_, _, _, _, _, _] from rfl) hrule
  have hother : ∀ n : Nonterminal, n.decorated = true → n.name ≠ Bytes.ascii "Parenthesized" →
      n.name ≠ Bytes.ascii "Literal" → SequenceYields (basis source) (sequenceOf [step n.body]) c x next →
      ∃ tag fields, x.value = .node tag fields ∧ tag ≠ Bytes.ascii "Parenthesized" ∧ tag ≠ Bytes.ascii "Literal" := by
    intro n hdecorated hgroup hliteral hyields
    have hgrown : Grown source n x.value := ⟨c, x, next, yields_of_call hyields, rfl⟩
    obtain ⟨fields, hfields⟩ := hgrown.tag hdecorated
    exact ⟨n.name, fields, hfields, hgroup, hliteral⟩
  simp only [List.mem_cons, List.not_mem_nil, or_false] at hseq
  rcases hseq with rfl | rfl | rfl | rfl | rfl | rfl
  · exact .inr (.inr (hother .call rfl (by decide) (by decide) hyields))
  · exact .inl ⟨c, x, next, yields_of_call hyields, rfl⟩
  · exact .inr (.inl ⟨c, x, next, yields_of_call hyields, rfl⟩)
  · exact .inr (.inr (hother .bracket rfl (by decide) (by decide) hyields))
  · exact .inr (.inr (hother .dot rfl (by decide) (by decide) hyields))
  · exact .inr (.inr (hother .code rfl (by decide) (by decide) hyields))

/-! ## Names -/

/-- A rune that a name goes on with is one of the bytes of words. -/
theorem crosses_identRune (h : RuleYields (basis source) Nonterminal.identRune.place c x next) :
    ∃ b ∈ wordBytes, c.Crosses [b] next := by
  obtain ⟨y, hyields, rfl⟩ := yields_sequence rfl h
  obtain ⟨⟨slots, hitems⟩, -⟩ := SequenceYields.matched hyields rfl
  obtain ⟨_, _, hcls, hitems⟩ := hitems.cons
  obtain ⟨-, rfl⟩ := hitems.nil
  obtain ⟨r, -, hr, hcross⟩ := (hcls.once).cls
  obtain ⟨b, hb, hencode⟩ := CharClass.encode_of_within
    (show CharClass.within ⟨_, false, false, _⟩ wordBytes = true by decide) hr
  rw [hencode] at hcross
  exact ⟨b, hb, hcross⟩

/-- What a name goes on with is crossed byte by byte. -/
theorem crosses_word {xs : List (Spanned Value)}
    (h : Steps (BodyYields (basis source) Nonterminal.identRune.body) c xs next) :
    ∃ t, c.Crosses t next ∧ ∀ b ∈ t, b ∈ wordBytes := by
  induction h with
  | nil c => exact ⟨[], ⟨.refl c, rfl⟩, fun b hb => absurd hb List.not_mem_nil⟩
  | cons hfirst _ ih =>
    obtain ⟨t, hcross, ht⟩ := ih
    obtain ⟨b, hb, hcross'⟩ := crosses_identRune hfirst.call
    refine ⟨b :: t, hcross'.trans hcross, ?_⟩
    rw [List.forall_mem_cons]
    exact ⟨hb, ht⟩

/-- The text of a name is an identifier. -/
theorem Grown.identText (h : Grown source .identText v) : ∃ t, v = .text t ∧ isIdentifier t = true := by
  obtain ⟨c, x, next, hrule, rfl⟩ := h
  obtain ⟨y, hyields, rfl⟩ := yields_sequence rfl hrule
  obtain ⟨⟨slots, hitems⟩, hvalue⟩ := SequenceYields.matched hyields rfl
  obtain ⟨_, mid, hcls, hitems⟩ := hitems.cons
  obtain ⟨_, _, hstar, hitems⟩ := hitems.cons
  obtain ⟨-, rfl⟩ := hitems.nil
  obtain ⟨r, -, hr, hfirst⟩ := (hcls.once).cls
  obtain ⟨b, hb, hencode⟩ := CharClass.encode_of_within
    (show CharClass.within ⟨_, false, false, _⟩ letters = true by decide) hr
  rw [hencode] at hfirst
  obtain ⟨xs, -, hsteps⟩ := ItemYields.star hstar
  obtain ⟨t, hrest, ht⟩ := crosses_word hsteps
  refine ⟨b :: t, hvalue.trans (congrArg Value.text (hfirst.trans hrest).textFrom), ?_⟩
  rw [isIdentifier, Bool.and_eq_true, List.contains_iff_mem, List.all_eq_true]
  refine ⟨hb, ?_⟩
  intro b' hb'
  exact List.contains_iff_mem.mpr (ht b' hb')

/-- The name that a let or definition gives is an identifier. -/
theorem Grown.identifier (h : Grown source .identifier v) : ∃ t, v = .text t ∧ isIdentifier t = true := by
  obtain ⟨c, x, next, hrule, rfl⟩ := h
  obtain ⟨y, hyields, rfl⟩ := yields_sequence rfl hrule
  obtain ⟨slots, z, hitems, hslot, hvalue⟩ := SequenceYields.bound hyields
  obtain ⟨name, _, hname, hitems⟩ := hitems.cons
  obtain ⟨_, _, -, hitems⟩ := hitems.cons
  obtain ⟨rfl, -⟩ := hitems.nil
  cases hslot
  obtain ⟨t, ht, hidentifier⟩ := (grown_of_body hname.once).identText
  exact ⟨t, hvalue.trans ht, hidentifier⟩

/-- What a let or definition defines is an identifier. -/
theorem definedName_identifier (h : Grown source .letting x.value ∨ Grown source .definition x.value) :
    ∃ t, definedName x = .ok t ∧ isIdentifier t = true := by
  obtain ⟨tag, fields, name, hv, hname, hgrown⟩ : ∃ tag fields name, x.value = .node tag fields ∧
      part fields "name" = .ok name ∧ Grown source .identifier name.value := by
    rcases h with h | h
    · exact h.letting
    · obtain ⟨tag, fields, name, _, hv, hname, hgrown, _⟩ := h.definition
      exact ⟨tag, fields, name, hv, hname, hgrown⟩
  obtain ⟨t, ht, hidentifier⟩ := hgrown.identifier
  refine ⟨t, ?_, hidentifier⟩
  simp only [definedName, textPart, hv, Value.asNode, ok_bind, hname, ht, Value.asText]

/-! ## Literals -/

/-- The digits of a code point are crossed one by one. -/
theorem crosses_digits {xs : List (Spanned Value)}
    (h : Steps (BodyYields (basis source) (classBody "[0-9A-Fa-f]" [('0', '9'), ('A', 'F'), ('a', 'f')] false)) c xs next) :
    ∃ digits, c.Crosses digits next ∧ (∀ b ∈ digits, (hexDigit? b).isSome = true) ∧ (xs ≠ [] → digits ≠ []) := by
  induction h with
  | nil c => exact ⟨[], ⟨.refl c, rfl⟩, fun b hb => absurd hb List.not_mem_nil, fun hne => absurd rfl hne⟩
  | cons hfirst _ ih =>
    obtain ⟨digits, hcross, hdigits, -⟩ := ih
    obtain ⟨r, -, hr, hcross'⟩ := hfirst.cls
    obtain ⟨b, hb, hencode⟩ := CharClass.encode_of_within
      (show CharClass.within ⟨_, false, false, _⟩ hexBytes = true by decide) hr
    have hall : hexBytes.all (fun b => (hexDigit? b).isSome) = true := by decide
    rw [hencode] at hcross'
    refine ⟨b :: digits, hcross'.trans hcross, ?_, fun _ => List.cons_ne_nil b digits⟩
    rw [List.forall_mem_cons]
    exact ⟨List.all_eq_true.mp hall b hb, hdigits⟩

/-- An escape is a code point in braces, or a backslash before what any character takes. -/
theorem yields_escape (h : RuleYields (basis source) Nonterminal.escape.place c x next) :
    ∃ part : LiteralPart, part.StandsBefore next.remaining ∧ c.Crosses part.text next ∧ x.value = .text part.text := by
  obtain ⟨y, ⟨seq, hseq, hyields⟩, rfl⟩ := yields_alternatives
    (show Nonterminal.escape.alternatives = [_, _] from rfl) h
  simp only [List.mem_cons, List.not_mem_nil, or_false] at hseq
  rcases hseq with rfl | rfl
  · obtain ⟨⟨slots, hitems⟩, hvalue⟩ := SequenceYields.matched hyields rfl
    obtain ⟨_, mid, hopen, hitems⟩ := hitems.cons
    obtain ⟨_, mid', hdigits, hitems⟩ := hitems.cons
    obtain ⟨_, _, hclose, hitems⟩ := hitems.cons
    obtain ⟨-, rfl⟩ := hitems.nil
    obtain ⟨xs, -, hne, hsteps⟩ := ItemYields.plus hdigits
    obtain ⟨digits, hcross, hhex, hsome⟩ := crosses_digits hsteps
    have htext : c.Crosses (LiteralPart.code digits).text next :=
      (hopen.once).literal.trans (hcross.trans (hclose.once).literal)
    refine ⟨.code digits, ⟨hsome hne, hhex⟩, htext, ?_⟩
    rw [hvalue]
    exact congrArg Value.text htext.textFrom
  · obtain ⟨⟨slots, hitems⟩, hvalue⟩ := SequenceYields.matched hyields rfl
    obtain ⟨_, mid, hbackslash, hitems⟩ := hitems.cons
    obtain ⟨_, _, hany, hitems⟩ := hitems.cons
    obtain ⟨-, rfl⟩ := hitems.nil
    obtain ⟨t, hne, hlength, hcross⟩ := (hany.once).any
    have htext : c.Crosses (LiteralPart.quoted t).text next := (hbackslash.once).literal.trans hcross
    refine ⟨.quoted t, ⟨hne, hlength⟩, htext, ?_⟩
    rw [hvalue]
    exact congrArg Value.text htext.textFrom

/-- What stands for itself is a character, no brace and no backslash. -/
theorem yields_plain (h : RuleYields (basis source) Nonterminal.plain.place c x next) :
    ∃ part : LiteralPart, part.StandsBefore next.remaining ∧ c.Crosses part.text next ∧ x.value = .text part.text := by
  obtain ⟨y, hyields, rfl⟩ := yields_sequence rfl h
  obtain ⟨⟨slots, hitems⟩, hvalue⟩ := SequenceYields.matched hyields rfl
  obtain ⟨_, _, hcls, hitems⟩ := hitems.cons
  obtain ⟨-, rfl⟩ := hitems.nil
  obtain ⟨r, hscalar, hr, hcross⟩ := (hcls.once).cls
  have hbare : ∀ b : Nat, b = '\x7b'.toNat ∨ b = '\x7d'.toNat ∨ b = '\\'.toNat → r ≠ b := by
    rintro b hb rfl
    revert hr
    rcases hb with rfl | rfl | rfl <;> decide
  refine ⟨.plain r, ⟨hscalar, hbare _ (.inl rfl), hbare _ (.inr (.inl rfl)), hbare _ (.inr (.inr rfl))⟩, hcross, ?_⟩
  rw [hvalue]
  exact congrArg Value.text hcross.textFrom

/-- A part of a literal whose value is a text is an escape or stands for itself. -/
theorem yields_literalPart (h : RuleYields (basis source) Nonterminal.literalPart.place c x next) {t : Bytes}
    (ht : x.value = .text t) :
    ∃ part : LiteralPart, part.StandsBefore next.remaining ∧ c.Crosses part.text next ∧ t = part.text := by
  obtain ⟨y, ⟨seq, hseq, hyields⟩, rfl⟩ := yields_alternatives
    (show Nonterminal.literalPart.alternatives = [_, _, _, _] from rfl) h
  have hnode : ∀ n : Nonterminal, n.decorated = true → ¬SequenceYields (basis source) (sequenceOf [step n.body]) c x next := by
    intro n hdecorated hyields
    have hgrown : Grown source n x.value := ⟨c, x, next, yields_of_call hyields, rfl⟩
    obtain ⟨fields, hfields⟩ := hgrown.tag hdecorated
    rw [hfields] at ht
    cases ht
  have hpart : ∀ {part : LiteralPart}, x.value = .text part.text → t = part.text := by
    intro part hpart
    exact Value.text.inj (ht.symm.trans hpart)
  simp only [List.mem_cons, List.not_mem_nil, or_false] at hseq
  rcases hseq with rfl | rfl | rfl | rfl
  · exact absurd hyields (hnode .interpolation rfl)
  · exact absurd hyields (hnode .strayBrace rfl)
  · obtain ⟨part, hstands, hcross, hvalue⟩ := yields_escape (yields_of_call hyields)
    exact ⟨part, hstands, hcross, hpart hvalue⟩
  · obtain ⟨part, hstands, hcross, hvalue⟩ := yields_plain (yields_of_call hyields)
    exact ⟨part, hstands, hcross, hpart hvalue⟩

/-- A part between quotes is a part in front of which no quote stands. -/
theorem yields_unquoted {quote : String} (halternatives : n.alternatives = [Nonterminal.alternatives.unquoted quote])
    (hdecorated : n.decorated = false) (h : RuleYields (basis source) n.place c x next) {t : Bytes}
    (ht : x.value = .text t) :
    ∃ part : LiteralPart, part.StandsBefore next.remaining ∧ c.Crosses part.text next ∧ t = part.text := by
  obtain ⟨y, hyields, rfl⟩ := yields_sequence halternatives h
  rw [hdecorated] at ht
  obtain ⟨slots, z, hitems, hslot, hvalue⟩ := SequenceYields.bound hyields
  obtain ⟨_, _, hquote, hitems⟩ := hitems.cons
  obtain ⟨part, _, hpart, hitems⟩ := hitems.cons
  obtain ⟨rfl, rfl⟩ := hitems.nil
  obtain rfl := ItemYields.notAhead hquote
  cases hslot
  exact yields_literalPart (hpart.once).call (hvalue.symm.trans ht)

/-- The texts between two quotes are the parts of a literal, side by side. -/
theorem parted_of_steps {quote : String} (halternatives : n.alternatives = [Nonterminal.alternatives.unquoted quote])
    (hdecorated : n.decorated = false) {xs : List (Spanned Value)}
    (h : Steps (BodyYields (basis source) n.body) c xs next) {ts : List Bytes} (hts : xs.map (·.value) = ts.map .text) :
    ∃ parts, Parted next.remaining parts ∧ spelling parts = ts.flatten ∧
      c.remaining = spelling parts ++ next.remaining := by
  induction h generalizing ts with
  | nil c =>
    cases ts with
    | nil => exact ⟨[], trivial, rfl, rfl⟩
    | cons t ts => cases hts
  | @cons c mid next x xs hfirst _ ih =>
    cases ts with
    | nil => cases hts
    | cons t ts =>
      obtain ⟨ht, hrest⟩ := List.cons.inj hts
      obtain ⟨part, hstands, hcross, rfl⟩ := yields_unquoted halternatives hdecorated hfirst.call ht
      obtain ⟨parts, hparted, hspelling, hremaining⟩ := ih hrest
      rw [hremaining] at hstands
      refine ⟨part :: parts, ⟨hstands, hparted⟩, ?_, ?_⟩
      · rw [spelling_cons, hspelling, List.flatten_cons]
      · rw [hcross.remaining, hremaining, spelling_cons, List.append_assoc]

/-- A literal has parts. If all of them are texts, these are parts that stand side by side in the source. -/
theorem Grown.literal (h : Grown source .literal v) : ∃ fields xs, v = .node (Bytes.ascii "Literal") fields ∧
    listPart fields "parts" = .ok xs ∧ ∀ ts : List Bytes, xs.map (·.value) = ts.map .text →
      ∃ parts rest, Parted rest parts ∧ spelling parts = ts.flatten := by
  obtain ⟨c, x, next, hrule, rfl⟩ := h
  obtain ⟨y, ⟨seq, hseq, hyields⟩, rfl⟩ := yields_alternatives
    (show Nonterminal.literal.alternatives = [_, _] from rfl) hrule
  obtain ⟨quote, n, hn, hdecorated, rfl⟩ : ∃ (quote : String) (n : Nonterminal),
      n.alternatives = [Nonterminal.alternatives.unquoted quote] ∧ n.decorated = false ∧
        seq = Nonterminal.alternatives.quoted quote n := by
    simp only [List.mem_cons, List.not_mem_nil, or_false] at hseq
    rcases hseq with rfl | rfl
    · exact ⟨"'", .singleQuoted, rfl, rfl, rfl⟩
    · exact ⟨"\"", .doubleQuoted, rfl, rfl, rfl⟩
  obtain ⟨slots, hitems, hvalue⟩ := SequenceYields.record hyields rfl
  obtain ⟨_, _, -, hitems⟩ := hitems.cons
  obtain ⟨list, _, hlist, hitems⟩ := hitems.cons
  obtain ⟨_, _, -, hitems⟩ := hitems.cons
  obtain ⟨caseless, _, -, hitems⟩ := hitems.cons
  obtain ⟨_, _, -, hitems⟩ := hitems.cons
  obtain ⟨rfl, -⟩ := hitems.nil
  obtain ⟨xs, hxs, hsteps⟩ := ItemYields.star hlist
  obtain ⟨w, start, stop⟩ := y
  obtain rfl : w = _ := hvalue
  obtain ⟨u, ustart, ustop⟩ := list
  obtain rfl : u = _ := hxs
  refine ⟨_, xs, rfl, rfl, fun ts hts => ?_⟩
  obtain ⟨parts, hparted, hspelling, -⟩ := parted_of_steps hn hdecorated hsteps hts
  exact ⟨parts, _, hparted, hspelling⟩

/-! ## Sources -/

/-- The tree of a source comes from the rule of the root. -/
theorem parseSource_grown {tree : Spanned Value} (h : (parseSource source).1 = .ok tree) :
    Grown source .grammar tree.value := by
  rw [parseSource_eq, Nonterminal.start_metaGrammar] at h
  have htree : (Parser.parse {} metaGrammar Client.none Nonterminal.grammar.place source (Env.fresh ())).1 =
      .ok (.tree tree) := by
    split at h
    · cases h
    · next hparse =>
      cases h
      exact hparse
    · cases h
  obtain ⟨n, next, hanswer⟩ := parse_tree (pure_none source) {} htree
  exact ⟨_, _, next, ⟨n, hanswer⟩, rfl⟩

end Packrat.Source
