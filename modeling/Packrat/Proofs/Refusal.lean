import Packrat.Proofs.Coding
import Packrat.Proofs.Reading

/-!
# `Packrat.Proofs.Refusal` — where a grammar fails at the first byte

Most alternatives of a grammar fail at the first byte of the text, and which bytes those are can be computed.
The computation only looks at ASCII bytes and at the end of the text, where decoding is simple.

## Contents
- **Refusals.** `refusesExpr` and its companions, and `refusesRule` on the depth of calls.
- **Soundness.** What is refused fails.
-/

-- the linter does not see an assumption that only a companion of a mutual block uses
set_option linter.unusedSectionVars false

namespace Packrat

variable {α : Type}

/-! ## Refusals -/

/-- Whether a terminal matches nothing at a text with the given first rune. -/
def Body.bars (front : Option Rune) : Body α → Bool
  | .literal spelling caseless _ =>
    match Spelled.all spelling with
    | [] => false
    | first :: _ => front.all fun r => !Terminal.agree caseless r first.rune
  | .cls k => front.all fun r => !k.contains r
  | .any => front.isNone
  | _ => false

section

variable (calls : Nat → Bool) (front : Option Rune)

mutual

/-- Whether a body fails at a text with the given first rune, as far as can be told from the rules that do. -/
def refusesBody : Body α → Bool
  | .call _ decorated target => !decorated && target.any calls
  | .group alternatives => refusesExpr alternatives
  | .literal spelling caseless braceSensitive =>
    (Body.literal spelling caseless braceSensitive : Body α).bars front
  | .cls k => (Body.cls k : Body α).bars front
  | .any => (Body.any : Body α).bars front
  | .code _ => false
  | .interpolated _ _ => false
termination_by structural body => body

/-- Whether every alternative fails. -/
def refusesExpr : List (Sequence α (Body α)) → Bool
  | [] => true
  | seq :: rest => refusesSequence seq && refusesExpr rest
termination_by structural alternatives => alternatives

/-- Whether a sequence fails. -/
def refusesSequence : Sequence α (Body α) → Bool
  | ⟨items, _, _, _⟩ => refusesItems items
termination_by structural seq => seq

/-- Whether an item fails behind items that take nothing. -/
def refusesItems : List (Item (Body α)) → Bool
  | [] => false
  | ⟨_, _, lookahead, body, repetition, _, _⟩ :: rest =>
    refusesBody body &&
      match lookahead, repetition with
      | .none, .once => true
      | .none, .plus => true
      | .none, .optional => refusesItems rest
      | .none, .star => refusesItems rest
      | .notAhead, .once => refusesItems rest
      | _, _ => false
termination_by structural items => items

end

end

/-- Whether a rule fails at a text with the given first rune, looking at most so many calls deep. -/
def refusesRule (rules : List (Rule α)) (front : Option Rune) : Nat → Nat → Bool
  | 0, _ => false
  | fuel + 1, i =>
    (rules[i]?).any fun rule => rule.matcher.isNone && refusesExpr (refusesRule rules front fuel) front rule.body

/-! ## Soundness -/

/-- The first rune of a text, if it starts with an ASCII byte or there is none. -/
inductive Front : Option Rune → Bytes → Prop
  | empty : Front none []
  | ascii {b : UInt8} (hb : b < 0x80) (rest : Bytes) : Front (some b.toNat) (b :: rest)

section Soundness

variable {s : Basis α} {calls : Nat → Bool} {front : Option Rune} {text : Bytes}

/-- A terminal that is barred matches nothing. -/
theorem Body.taken?_of_bars {body : Body α} (hfront : Front front text) (h : body.bars front = true) :
    body.taken? text = none := by
  have hrune : Terminal.rune? text = front.map (·, 1) := by
    cases hfront with
    | empty => rfl
    | ascii hb rest => exact Terminal.rune?_ascii hb rest
  cases body with
  | literal spelling caseless braceSensitive =>
    unfold Body.taken? Terminal.literal?
    simp only
    split
    · rfl
    · cases hall : Spelled.all spelling with
      | nil =>
        simp only [Body.bars, hall] at h
        cases h
      | cons first others =>
        -- a literal is barred by its first character
        simp only [Body.bars, hall] at h
        rw [List.map_cons, Terminal.runes?, hrune]
        cases front with
        | none => rfl
        | some r =>
          have hdiffer : Terminal.agree caseless r first.rune = false := by simpa using h
          simp only [Option.map_some, hdiffer]
          rfl
  | cls k =>
    simp only [Body.taken?, Terminal.class?, hrune]
    cases front with
    | none => rfl
    | some r =>
      have hout : k.contains r = false := by simpa [Body.bars] using h
      simp [hout]
  | any =>
    cases hfront with
    | empty => rfl
    | ascii hb rest => cases h
  | _ => cases h

variable (hreach : s.reach = s.input.length) (hfront : Front front text)
  (hcalls : ∀ i, calls i = true → RuleFails s i text)

include hreach hfront hcalls

mutual

theorem refusesBody_sound : ∀ body : Body α, refusesBody calls front body = true → BodyFails s body text
  | .call name decorated target, h => by
    unfold refusesBody at h
    cases target with
    | none => simp at h
    | some i =>
      cases decorated with
      | true => cases h
      | false => exact BodyFails.call (hcalls i h)
  | .group alternatives, h => BodyFails.group (refusesExpr_sound alternatives h)
  | .literal spelling caseless braceSensitive, h =>
    BodyFails.terminal rfl (Body.taken?_of_bars hfront h)
  | .cls k, h => BodyFails.terminal rfl (Body.taken?_of_bars hfront h)
  | .any, h => BodyFails.terminal rfl (Body.taken?_of_bars hfront h)
  | .code _, h => nomatch h
  | .interpolated _ _, h => nomatch h
termination_by structural body => body

theorem refusesExpr_sound :
    ∀ alternatives : List (Sequence α (Body α)), refusesExpr calls front alternatives = true →
      ExprFails s alternatives text
  | [], _ => ExprFails.nil
  | seq :: rest, h => by
    unfold refusesExpr at h
    rw [Bool.and_eq_true] at h
    exact ExprFails.cons (refusesSequence_sound seq h.1) (refusesExpr_sound rest h.2)
termination_by structural alternatives => alternatives

theorem refusesSequence_sound :
    ∀ seq : Sequence α (Body α), refusesSequence calls front seq = true → SequenceFails s seq text
  | ⟨items, _, _, _⟩, h => SequenceFails.of_items (refusesItems_sound items h)
termination_by structural seq => seq

theorem refusesItems_sound :
    ∀ items : List (Item (Body α)), refusesItems calls front items = true → ItemsFail s items text
  | [], h => nomatch h
  | ⟨_, _, lookahead, body, repetition, _, _⟩ :: rest, h => by
    unfold refusesItems at h
    rw [Bool.and_eq_true] at h
    have hbody := refusesBody_sound body h.1
    have hrest := h.2
    split at hrest
    · exact ItemsFail.head (ItemFails.once hbody)
    · exact ItemsFail.head (ItemFails.plus hbody)
    · exact ItemsFail.skip (ItemTakes.absent hbody) (refusesItems_sound rest hrest)
    · exact ItemsFail.skip (ItemTakes.star hreach (Repeats.stop hbody)) (refusesItems_sound rest hrest)
    · exact ItemsFail.skip (ItemTakes.notAhead hbody) (refusesItems_sound rest hrest)
    · cases hrest
termination_by structural items => items

end

omit hcalls in
/-- A rule that is refused fails. -/
theorem refusesRule_sound (fuel : Nat) {i : Nat} (h : refusesRule s.grammar.rules front fuel i = true) :
    RuleFails s i text := by
  induction fuel generalizing i with
  | zero => cases h
  | succ fuel ih =>
    unfold refusesRule at h
    cases hrule : s.grammar.rules[i]? with
    | none =>
      rw [hrule] at h
      cases h
    | some rule =>
      rw [hrule, Option.any_some, Bool.and_eq_true, Option.isNone_iff_eq_none] at h
      exact RuleFails.body hrule h.1 (refusesExpr_sound hreach hfront (fun j hj => ih hj) rule.body h.2)

end Soundness

end Packrat
