import Packrat.Grammar.Builder
import Packrat.Terminal

/-!
# `Packrat.Proofs.Pattern` — what a grammar matches, as a relation

A pattern is what is left of an expression without names, actions and decorations. Which part of a text a
pattern matches is given by rules of inference, without any reference to an evaluator: no memo, no depth, no
values.

## Contents
- **Patterns.** `Pattern`, and the pattern of a body, of an expression and of a rule.
- **Matching.** `Matches`, the big-step relation, and `Matches.unique`: it has one answer.
-/

namespace Packrat

variable {α : Type}

/-! ## Patterns -/

/-- An expression without names, actions and decorations. -/
inductive Pattern where
  | empty
  | literal (spelling : Bytes) (caseless braceSensitive : Bool)
  | cls (cls : CharClass)
  | any
  /-- A call of the rule at a place of the grammar's table. -/
  | call (target : Option Nat)
  | seq (p q : Pattern)
  /-- An ordered choice. -/
  | choice (p q : Pattern)
  | fail
  | optional (p : Pattern)
  | star (p : Pattern)
  | plus (p : Pattern)
  | ahead (p : Pattern)
  | notAhead (p : Pattern)
  /-- Something whose match is computed at run time: code, an interpolated literal or a matcher. -/
  | computed

/-- A pattern with a repetition behind it. -/
def Repetition.pattern : Repetition → Pattern → Pattern
  | .once, p => p
  | .optional, p => .optional p
  | .star, p => .star p
  | .plus, p => .plus p

/-- A pattern with a lookahead before it. -/
def Lookahead.pattern : Lookahead → Pattern → Pattern
  | .none, p => p
  | .ahead, p => .ahead p
  | .notAhead, p => .notAhead p

mutual

/-- The pattern of a body. -/
def bodyPattern : Body α → Pattern
  | .code _ => .computed
  | .call _ _ target => .call target
  | .group alternatives => exprPattern alternatives
  | .literal spelling caseless braceSensitive => .literal spelling caseless braceSensitive
  | .interpolated _ _ => .computed
  | .cls cls => .cls cls
  | .any => .any
termination_by structural body => body

/-- The pattern of an expression. -/
def exprPattern : List (Sequence α (Body α)) → Pattern
  | [] => .fail
  | seq :: rest => .choice (sequencePattern seq) (exprPattern rest)
termination_by structural alternatives => alternatives

/-- The pattern of a sequence. -/
def sequencePattern : Sequence α (Body α) → Pattern
  | ⟨items, _, _, _⟩ => itemsPattern items
termination_by structural seq => seq

/-- The pattern of the items of a sequence. -/
def itemsPattern : List (Item (Body α)) → Pattern
  | [] => .empty
  | item :: rest => .seq (itemPattern item) (itemsPattern rest)
termination_by structural items => items

/-- The pattern of an item. -/
def itemPattern : Item (Body α) → Pattern
  | ⟨_, _, lookahead, body, repetition, _, _⟩ =>
    lookahead.pattern (repetition.pattern (bodyPattern body))
termination_by structural item => item

end

/-- The pattern of a rule. -/
def Rule.pattern (rule : Rule α) : Pattern :=
  if rule.isExternal then .computed else exprPattern rule.body

/-- The patterns of the rules of a grammar. -/
def Grammar.patterns (g : Grammar α) : List Pattern := g.rules.map Rule.pattern

theorem Grammar.getElem?_patterns {g : Grammar α} {index : Nat} {rule : Rule α}
    (h : g.rules[index]? = some rule) : g.patterns[index]? = some rule.pattern := by
  unfold Grammar.patterns
  rw [List.getElem?_map, h]
  rfl

/-- Whether nothing in a pattern is computed at run time. -/
def Pattern.isStatic : Pattern → Bool
  | .computed => false
  | .seq p q => p.isStatic && q.isStatic
  | .choice p q => p.isStatic && q.isStatic
  | .optional p => p.isStatic
  | .star p => p.isStatic
  | .plus p => p.isStatic
  | .ahead p => p.isStatic
  | .notAhead p => p.isStatic
  | _ => true

@[simp] theorem Repetition.isStatic_pattern (repetition : Repetition) (p : Pattern) :
    (repetition.pattern p).isStatic = p.isStatic := by
  cases repetition <;> rfl

@[simp] theorem Lookahead.isStatic_pattern (lookahead : Lookahead) (p : Pattern) :
    (lookahead.pattern p).isStatic = p.isStatic := by
  cases lookahead <;> rfl

theorem Body.isCode_eq_false {body : Body α} (h : (bodyPattern body).isStatic = true) :
    body.isCode = false := by
  cases body with
  | code host => cases h
  | _ => rfl

/-- Whether a grammar consists of literals, classes, calls, groups, repetitions and lookaheads only. Names,
decorations and actions behind sequences do not count. -/
def Grammar.isStatic (g : Grammar α) : Bool := g.patterns.all Pattern.isStatic

/-! ## Matching -/

/-- A pattern matches the first `n` bytes of a text (`some n`), or fails on it (`none`). -/
inductive Matches (rules : List Pattern) : Pattern → Bytes → Option Nat → Prop
  | empty {t} : Matches rules .empty t (some 0)
  | literal {spelling caseless braceSensitive t} :
      Matches rules (.literal spelling caseless braceSensitive) t
        (Terminal.literal? spelling braceSensitive caseless t)
  | cls {cls t} : Matches rules (.cls cls) t ((Terminal.class? cls t).map (·.2))
  | any {t} : Matches rules .any t ((Terminal.any? t).map (·.2))
  | call {i p t a} (hrule : rules[i]? = some p) (hp : Matches rules p t a) :
      Matches rules (.call (some i)) t a
  | seqNext {p q t m n} (hp : Matches rules p t (some m)) (hq : Matches rules q (t.drop m) (some n)) :
      Matches rules (.seq p q) t (some (m + n))
  | seqFailFirst {p q t} (hp : Matches rules p t none) : Matches rules (.seq p q) t none
  | seqFailSecond {p q t m} (hp : Matches rules p t (some m)) (hq : Matches rules q (t.drop m) none) :
      Matches rules (.seq p q) t none
  | choiceFirst {p q t n} (hp : Matches rules p t (some n)) : Matches rules (.choice p q) t (some n)
  | choiceNext {p q t a} (hp : Matches rules p t none) (hq : Matches rules q t a) :
      Matches rules (.choice p q) t a
  | fail {t} : Matches rules .fail t none
  | optionalSome {p t n} (hp : Matches rules p t (some n)) : Matches rules (.optional p) t (some n)
  | optionalNone {p t} (hp : Matches rules p t none) : Matches rules (.optional p) t (some 0)
  | starStop {p t} (hp : Matches rules p t none) : Matches rules (.star p) t (some 0)
  /-- A match that takes nothing ends a repetition. -/
  | starIdle {p t} (hp : Matches rules p t (some 0)) : Matches rules (.star p) t (some 0)
  | starNext {p t m n} (hp : Matches rules p t (some m)) (hm : 0 < m)
      (hrest : Matches rules (.star p) (t.drop m) (some n)) : Matches rules (.star p) t (some (m + n))
  | plusFail {p t} (hp : Matches rules p t none) : Matches rules (.plus p) t none
  | plusNext {p t m n} (hp : Matches rules p t (some m))
      (hrest : Matches rules (.star p) (t.drop m) (some n)) : Matches rules (.plus p) t (some (m + n))
  | aheadSome {p t n} (hp : Matches rules p t (some n)) : Matches rules (.ahead p) t (some 0)
  | aheadNone {p t} (hp : Matches rules p t none) : Matches rules (.ahead p) t none
  | notAheadSome {p t n} (hp : Matches rules p t (some n)) : Matches rules (.notAhead p) t none
  | notAheadNone {p t} (hp : Matches rules p t none) : Matches rules (.notAhead p) t (some 0)

namespace Matches

variable {rules : List Pattern} {p : Pattern} {t : Bytes} {a b : Option Nat}

/-- A pattern has one answer on a text. -/
theorem unique (h : Matches rules p t a) (h' : Matches rules p t b) : a = b := by
  -- Two derivations for one pattern end in the same rule: for another rule a part would need another answer.
  induction h generalizing b with
  | empty => cases h'; rfl
  | literal => cases h'; rfl
  | cls => cases h'; rfl
  | any => cases h'; rfl
  | call hrule hp ih =>
    cases h' with
    | call hrule' hp' =>
      have heq := Option.some.inj (hrule.symm.trans hrule')
      subst heq
      exact ih hp'
  | seqNext hp hq ihp ihq =>
    cases h' with
    | seqNext hp' hq' =>
      cases ihp hp'
      cases ihq hq'
      rfl
    | seqFailFirst hp' => cases ihp hp'
    | seqFailSecond hp' hq' =>
      cases ihp hp'
      cases ihq hq'
  | seqFailFirst hp ihp =>
    cases h' with
    | seqNext hp' hq' => cases ihp hp'
    | seqFailFirst hp' => rfl
    | seqFailSecond hp' hq' => rfl
  | seqFailSecond hp hq ihp ihq =>
    cases h' with
    | seqNext hp' hq' =>
      cases ihp hp'
      cases ihq hq'
    | seqFailFirst hp' => rfl
    | seqFailSecond hp' hq' => rfl
  | choiceFirst hp ihp =>
    cases h' with
    | choiceFirst hp' => exact ihp hp'
    | choiceNext hp' hq' => cases ihp hp'
  | choiceNext hp hq ihp ihq =>
    cases h' with
    | choiceFirst hp' => cases ihp hp'
    | choiceNext hp' hq' => exact ihq hq'
  | fail => cases h'; rfl
  | optionalSome hp ihp =>
    cases h' with
    | optionalSome hp' => exact ihp hp'
    | optionalNone hp' => cases ihp hp'
  | optionalNone hp ihp =>
    cases h' with
    | optionalSome hp' => cases ihp hp'
    | optionalNone hp' => rfl
  | starStop hp ihp =>
    cases h' with
    | starStop hp' => rfl
    | starIdle hp' => rfl
    | starNext hp' hm' hrest' => cases ihp hp'
  | starIdle hp ihp =>
    cases h' with
    | starStop hp' => rfl
    | starIdle hp' => rfl
    | starNext hp' hm' hrest' =>
      cases ihp hp'
      exact absurd hm' (Nat.lt_irrefl 0)
  | starNext hp hm hrest ihp ihrest =>
    cases h' with
    | starStop hp' => cases ihp hp'
    | starIdle hp' =>
      cases ihp hp'
      exact absurd hm (Nat.lt_irrefl 0)
    | starNext hp' hm' hrest' =>
      cases ihp hp'
      cases ihrest hrest'
      rfl
  | plusFail hp ihp =>
    cases h' with
    | plusFail hp' => rfl
    | plusNext hp' hrest' => cases ihp hp'
  | plusNext hp hrest ihp ihrest =>
    cases h' with
    | plusFail hp' => cases ihp hp'
    | plusNext hp' hrest' =>
      cases ihp hp'
      cases ihrest hrest'
      rfl
  | aheadSome hp ihp =>
    cases h' with
    | aheadSome hp' => rfl
    | aheadNone hp' => cases ihp hp'
  | aheadNone hp ihp =>
    cases h' with
    | aheadSome hp' => cases ihp hp'
    | aheadNone hp' => rfl
  | notAheadSome hp ihp =>
    cases h' with
    | notAheadSome hp' => rfl
    | notAheadNone hp' => cases ihp hp'
  | notAheadNone hp ihp =>
    cases h' with
    | notAheadSome hp' => cases ihp hp'
    | notAheadNone hp' => rfl

end Matches

end Packrat
