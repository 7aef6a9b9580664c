import Mathlib
import Packrat.Proofs.Pattern
import Packrat.Proofs.Runs
import Packrat.Proofs.Trace

/-!
# `Packrat.Proofs.Recognition` — the evaluator recognises what the patterns match

Whatever actions and hooks do, a rule call that returns has matched what the pattern of the rule matches, and
failed where that fails. Actions need not be pure for this: they are no part of a pattern, and the trail is
out of their reach.

## Contents
- **Terminals.** A terminal takes no more than the text holds.
- **Agreement.** `Result.Agrees`: a result is what a pattern matches at a cursor.
- **Sound memos.** `Ensures`, a computation that keeps the memo sound, with a rule for each way to build one.
- **The evaluator.** `evalBody_ensures` and its companions, on the structure of an expression.
- **Rule calls.** `callRule_ensures`, on the depth.
- **Recognition.** `Parser.callRule_recognises`.
-/

namespace Packrat

variable {α β γ σ : Type}

-- the linter does not see an assumption that only a companion of a mutual block uses
set_option linter.unusedSectionVars false

/-! ## Terminals -/

namespace Terminal

theorem le_length_rune {text : Bytes} {r : Rune} {n : Nat} (h : rune? text = some (r, n)) :
    n ≤ text.length := by
  cases text with
  | nil => cases h
  | cons b rest =>
    unfold rune? at h
    simp only at h
    split at h
    · cases h
      exact Utf8.length_decode_le (b :: rest)
    · cases h

theorem le_length_any {text : Bytes} {r : Rune} {n : Nat} (h : any? text = some (r, n)) :
    n ≤ text.length := by
  cases text with
  | nil => cases h
  | cons b rest =>
    cases h
    exact Utf8.length_decode_le (b :: rest)

theorem le_length_class {cls : CharClass} {text : Bytes} {r : Rune} {n : Nat}
    (h : class? cls text = some (r, n)) : n ≤ text.length := by
  unfold class? at h
  rw [Option.filter_eq_some_iff] at h
  exact le_length_rune h.1

theorem le_length_runes {caseless : Bool} {expected : List Rune} {text : Bytes} {n : Nat}
    (h : runes? caseless expected text = some n) : n ≤ text.length := by
  induction expected generalizing text n with
  | nil =>
    cases h
    exact Nat.zero_le _
  | cons r rest ih =>
    unfold runes? at h
    split at h
    · cases h
    · next r' m hrune =>
      split at h
      · rw [Option.map_eq_some_iff] at h
        obtain ⟨k, hk, hn⟩ := h
        have hm := le_length_rune hrune
        have hle := ih hk
        rw [List.length_drop] at hle
        omega
      · cases h

theorem le_length_literal {spelling : Bytes} {braceSensitive caseless : Bool} {text : Bytes} {n : Nat}
    (h : literal? spelling braceSensitive caseless text = some n) : n ≤ text.length := by
  unfold literal? at h
  simp only at h
  split at h
  · cases h
  · exact le_length_runes h

end Terminal

/-! ## Agreement -/

/-- The text that remains further on is what is left of the text that remains. -/
theorem Cursor.remaining_eq_drop {c next : Cursor} (hinput : next.input = c.input)
    (hle : c.offset ≤ next.offset) : next.remaining = c.remaining.drop (next.offset - c.offset) := by
  rw [next.remaining_eq, c.remaining_eq, hinput, List.drop_drop]
  congr 1
  omega

theorem Cursor.offset_advance_of_le {c : Cursor} {n : Nat} (h : n ≤ c.remaining.length) :
    (c.advance n).offset = c.offset + n := by
  rw [c.remaining_eq, List.length_drop] at h
  have hle := c.offset_le
  rw [Cursor.offset_advance]
  omega

/-- Matching from a cursor to a later place is what the pattern does. -/
def Spans (rules : List Pattern) (p : Pattern) (c next : Cursor) : Prop :=
  next.input = c.input ∧ c.offset ≤ next.offset ∧
    Matches rules p c.remaining (some (next.offset - c.offset))

/-- A result is what a pattern matches at a cursor. -/
def Result.Agrees (rules : List Pattern) (p : Pattern) (c : Cursor) : Result → Prop
  | .success _ next => Spans rules p c next
  | .failure _ => Matches rules p c.remaining none

/-- What the items of a sequence answer is what a pattern matches at a cursor. -/
def ItemsResult.Agrees (rules : List Pattern) (p : Pattern) (c : Cursor) : ItemsResult → Prop
  | .success _ _ next => Spans rules p c next
  | .failure _ => Matches rules p c.remaining none

section Spans

variable {rules : List Pattern} {p q : Pattern} {c next last : Cursor}

theorem Spans.of_zero (h : Matches rules p c.remaining (some 0)) : Spans rules p c c := by
  refine ⟨rfl, Nat.le_refl _, ?_⟩
  rw [Nat.sub_self]
  exact h

/-- One match behind another. -/
theorem Spans.append {r : Pattern} (hp : Spans rules p c next) (hq : Spans rules q next last)
    (hr : Matches rules p c.remaining (some (next.offset - c.offset)) →
      Matches rules q (c.remaining.drop (next.offset - c.offset)) (some (last.offset - next.offset)) →
      Matches rules r c.remaining (some (next.offset - c.offset + (last.offset - next.offset)))) :
    Spans rules r c last := by
  obtain ⟨hinput, hle, hp⟩ := hp
  obtain ⟨hinput', hle', hq⟩ := hq
  rw [Cursor.remaining_eq_drop hinput hle] at hq
  refine ⟨hinput'.trans hinput, Nat.le_trans hle hle', ?_⟩
  have hsum : last.offset - c.offset = (next.offset - c.offset) + (last.offset - next.offset) := by omega
  rw [hsum]
  exact hr hp hq

theorem Spans.fails_next (hp : Spans rules p c next) (hq : Matches rules q next.remaining none) :
    Matches rules (.seq p q) c.remaining none := by
  obtain ⟨hinput, hle, hp⟩ := hp
  rw [Cursor.remaining_eq_drop hinput hle] at hq
  exact .seqFailSecond hp hq

end Spans

/-! ## Sound memos -/

/-- Every kept result on an input is what the rule matches there. -/
def Recalls (rules : List Pattern) (input : Bytes) (p : Progress σ) : Prop :=
  ∀ {index : Nat} {c : Cursor} {r : Result}, c.input = input →
    p.trail.memo[(index, c.offset)]? = some r → r.Agrees rules (.call (some index)) c

/-- A computation keeps the memo sound, and what it answers satisfies `Q`. -/
def Ensures (rules : List Pattern) (input : Bytes) (x : EvalM σ β) (Q : β → Prop) : Prop :=
  ∀ p, Recalls rules input p → Recalls rules input (x.run.run p).2 ∧
    ∀ b, (x.run.run p).1 = .ok b → Q b

namespace Ensures

variable {rules : List Pattern} {input : Bytes} {x : EvalM σ β} {Q : β → Prop}

theorem pure {b : β} (h : Q b) : Ensures rules input (σ := σ) (Pure.pure b) Q := by
  refine fun p hp => ⟨hp, fun b' hb' => ?_⟩
  cases hb'
  exact h

theorem fault (e : Fault) : Ensures rules input (σ := σ) (throw e) Q := by
  refine fun p hp => ⟨hp, fun b hb => ?_⟩
  cases hb

theorem bind {k : β → EvalM σ γ} {R : γ → Prop} (hx : Ensures rules input x Q)
    (hk : ∀ b, Q b → Ensures rules input (k b) R) : Ensures rules input (x >>= k) R := by
  intro p hp
  obtain ⟨hp₁, hQ⟩ := hx p hp
  cases hrun : x.run.run p with
  | mk answer p₁ =>
    rw [hrun] at hp₁ hQ
    cases answer with
    | error e =>
      rw [run_bind_error hrun]
      refine ⟨hp₁, fun c hc => ?_⟩
      cases hc
    | ok b =>
      rw [run_bind_ok hrun]
      exact hk b (hQ b rfl) p₁ hp₁

theorem weaken {R : β → Prop} (hx : Ensures rules input x Q) (hQR : ∀ b, Q b → R b) :
    Ensures rules input x R :=
  fun p hp => ⟨(hx p hp).1, fun b hb => hQR b ((hx p hp).2 b hb)⟩

/-- An action cannot reach the memo. -/
theorem onStore (m : ActionM σ β) : Ensures rules input (onStore m) (fun _ => True) :=
  fun _ hp => ⟨hp, fun _ _ => trivial⟩

theorem onUser (m : HookM σ β) : Ensures rules input (onUser m) (fun _ => True) :=
  fun _ hp => ⟨hp, fun _ _ => trivial⟩

theorem noteFailure (quiet : Bool) (offset : Nat) (label : Bytes) :
    Ensures rules input (σ := σ) (noteFailure quiet offset label) (fun _ => True) := by
  intro p hp
  refine ⟨?_, fun _ _ => trivial⟩
  cases quiet with
  | true => exact hp
  | false =>
    intro index c r hc hr
    have hmemo : (p.trail.note offset label).memo[(index, c.offset)]? = some r := hr
    rw [Trail.memo_note] at hmemo
    exact hp hc hmemo

end Ensures

section Host

variable {rules : List Pattern} {input : Bytes} (scene : Scene α σ)

theorem read_ensures (frame : Frame) (slot : Option Nat) :
    Ensures rules input (σ := σ) (frame.read slot) (fun _ => True) := by
  unfold Frame.read
  split
  · exact Ensures.pure trivial
  · exact Ensures.fault _

mutual

theorem evalHost_ensures (frame : Frame) (stop : Nat) :
    ∀ node : HostNode α, Ensures rules input (evalHost scene frame stop node) (fun _ => True)
  | .ref _ slot => by
    unfold evalHost
    exact (read_ensures frame slot).bind fun _ _ => Ensures.pure trivial
  | .const v => Ensures.pure trivial
  | .matched => by
    unfold evalHost
    split
    · exact Ensures.pure trivial
    · exact Ensures.fault _
  | .native a => Ensures.onStore _
  | .call name args constructs action => by
    unfold evalHost
    refine (evalArgs_ensures frame stop args).bind fun fields _ => ?_
    split
    · exact Ensures.pure trivial
    · split
      · exact Ensures.onStore _
      · exact Ensures.fault _
termination_by structural node => node

theorem evalArgs_ensures (frame : Frame) (stop : Nat) :
    ∀ args : List (Host α), Ensures rules input (evalArgs scene frame stop args) (fun _ => True)
  | [] => Ensures.pure trivial
  | ⟨node, pos⟩ :: rest => by
    have hnode := evalHost_ensures frame stop node
    have hrest := evalArgs_ensures frame stop rest
    have hother : Ensures rules input
        (do
          let v ← evalHost scene frame stop node
          let rest ← evalArgs scene frame stop rest
          return (([], ⟨v, frame.start, stop⟩) : Field) :: rest) (fun _ => True) :=
      hnode.bind fun v _ => hrest.bind fun fields _ => Ensures.pure trivial
    cases node with
    | ref name slot =>
      exact (read_ensures frame slot).bind fun x _ => hrest.bind fun fields _ => Ensures.pure trivial
    | const v => exact hother
    | matched => exact hother
    | native a => exact hother
    | call name args constructs action => exact hother
termination_by structural args => args

end

theorem sequenceValue_ensures (items : List (Item (Body α))) (action : Option (Host α))
    (layout : List Bytes) (c : Cursor) (slots : List (Spanned Value)) (last : Spanned Value)
    (next : Cursor) :
    Ensures rules input (sequenceValue scene items action layout c slots last next)
      (fun _ => True) := by
  unfold sequenceValue
  cases action with
  | some host => exact (evalHost_ensures scene _ _ host.node).bind fun v _ => Ensures.pure trivial
  | none =>
    simp only
    split
    · exact Ensures.pure trivial
    · split
      · exact Ensures.pure trivial
      · exact Ensures.pure trivial

end Host

/-! ## The evaluator -/

section Evaluator

variable {scene : Scene α σ} {rules : List Pattern} {input : Bytes}

theorem terminal_ensures {p : Pattern} (quiet : Bool) (c : Cursor) (label : Bytes) (taken : Option Nat)
    (hbound : ∀ n, taken = some n → n ≤ c.remaining.length) (hp : Matches rules p c.remaining taken) :
    Ensures rules input (σ := σ) (terminal quiet c label taken) (Result.Agrees rules p c) := by
  cases taken with
  | none => exact (Ensures.noteFailure quiet c.offset label).bind fun _ _ => Ensures.pure hp
  | some n =>
    have hoffset := Cursor.offset_advance_of_le (hbound n rfl)
    refine Ensures.pure ⟨Cursor.input_advance c n, by omega, ?_⟩
    rw [hoffset, Nat.add_sub_cancel_left]
    exact hp

section Repetition

variable {p : Pattern} {step : Step σ} (hstep : ∀ c : Cursor, c.input = input →
  Ensures rules input (step c) (Result.Agrees rules p c))

include hstep

/-- The fuel suffices, since every round but the last one takes something. -/
theorem collect_ensures (fuel : Nat) (collected : List (Spanned Value)) {c : Cursor}
    (hc : c.input = input) (hfuel : input.length - c.offset < fuel) :
    Ensures rules input (collect step fuel collected c)
      (fun x => Spans rules (.star p) c x.2) := by
  induction fuel generalizing collected c with
  | zero => exact absurd hfuel (Nat.not_lt_zero _)
  | succ fuel ih =>
    unfold collect
    refine (hstep c hc).bind fun r hr => ?_
    cases r with
    | failure offset => exact Ensures.pure (Spans.of_zero (.starStop hr))
    | success tree next =>
      have hinput : next.input = input := hr.1.trans hc
      have hle : c.offset ≤ next.offset := hr.2.1
      simp only
      split
      · next hidle =>
        -- where the cursor stays, the match takes nothing
        have hzero := hr.2.2
        rw [hidle, Nat.sub_self] at hzero
        exact Ensures.pure (Spans.of_zero (.starIdle hzero))
      · next hmoved =>
        -- less input is left behind a match than there was fuel for
        have hend : next.offset ≤ input.length := hinput ▸ next.offset_le
        refine (ih (tree :: collected) hinput (by omega)).weaken fun x hx => ?_
        exact hr.append hx (.starNext · (by omega) ·)

theorem repeated_ensures (hreach : input.length ≤ scene.reach) (repetition : Repetition) {c : Cursor}
    (hc : c.input = input) :
    Ensures rules input (repeated scene.reach repetition step c)
      (Result.Agrees rules (repetition.pattern p) c) := by
  cases repetition with
  | once => exact hstep c hc
  | optional =>
    refine (hstep c hc).bind fun r hr => ?_
    cases r with
    | failure offset => exact Ensures.pure (Spans.of_zero (.optionalNone hr))
    | success tree next => exact Ensures.pure ⟨hr.1, hr.2.1, .optionalSome hr.2.2⟩
  | star =>
    refine (collect_ensures hstep _ _ hc (by omega)).bind fun x hx => ?_
    exact Ensures.pure hx
  | plus =>
    refine (hstep c hc).bind fun r hr => ?_
    cases r with
    | failure offset => exact Ensures.pure (Matches.plusFail hr)
    | success tree next =>
      refine (collect_ensures hstep _ _ (hr.1.trans hc) (by omega)).bind fun x hx => ?_
      have hplus : Spans rules (.plus p) c x.2 := hr.append hx .plusNext
      exact Ensures.pure hplus

end Repetition

/-- A test of a body that is no code is a test of whether it matches. -/
theorem lookaround_ensures {p : Pattern} (lookahead : Lookahead) {step : Step σ} {c : Cursor}
    (hstep : Ensures rules input (step c) (Result.Agrees rules p c)) :
    Ensures rules input (lookaround lookahead false step c)
      (Result.Agrees rules (lookahead.pattern p) c) := by
  rw [lookaround_eq]
  refine hstep.bind fun r hr => Ensures.pure ?_
  cases r with
  | failure offset =>
    cases lookahead with
    | none => exact hr
    | ahead => exact Matches.aheadNone hr
    | notAhead => exact Spans.of_zero (.notAheadNone hr)
  | success tree next =>
    cases lookahead with
    | none => exact hr
    | ahead => exact Spans.of_zero (.aheadSome hr.2.2)
    | notAhead => exact Matches.notAheadSome hr.2.2

/-- A way to call rules matches what their patterns do, and keeps the memo sound. -/
def Recognises (rules : List Pattern) (input : Bytes) (call : Bool → Nat → Step σ) : Prop :=
  ∀ quiet i c, c.input = input →
    Ensures rules input (call quiet i c) (Result.Agrees rules (.call (some i)) c)

section Expressions

variable {call : Bool → Nat → Step σ} (hcall : Recognises rules input call)

include hcall

theorem evalCall_ensures (quiet decorated : Bool) (target : Option Nat) {c : Cursor}
    (hc : c.input = input) :
    Ensures rules input (evalCall scene call quiet decorated target c)
      (Result.Agrees rules (.call target) c) := by
  unfold evalCall
  cases target with
  | none => exact Ensures.fault _
  | some i =>
    refine (hcall quiet i c hc).bind fun r hr => ?_
    cases r with
    | failure offset => exact Ensures.pure hr
    | success tree next =>
      simp only
      split
      · exact Ensures.fault _
      · split
        · exact Ensures.pure hr
        · exact Ensures.pure hr

variable (hreach : input.length ≤ scene.reach)

include hreach

mutual

theorem evalBody_ensures (quiet : Bool) (frame : Frame) :
    ∀ (body : Body α) (c : Cursor), c.input = input → (bodyPattern body).isStatic = true →
      Ensures rules input (evalBody scene call quiet frame body c)
        (Result.Agrees rules (bodyPattern body) c)
  | .code host, c, hc, hstatic => by cases hstatic
  | .call _ decorated target, c, hc, hstatic => by
    unfold evalBody bodyPattern
    exact evalCall_ensures hcall quiet decorated target hc
  | .group alternatives, c, hc, hstatic => by
    unfold evalBody bodyPattern
    exact evalExpr_ensures quiet alternatives none c hc hstatic
  | .literal spelling caseless braceSensitive, c, hc, hstatic => by
    unfold evalBody bodyPattern
    exact terminal_ensures quiet c _ _ (fun _ => Terminal.le_length_literal) .literal
  | .interpolated segments caseless, c, hc, hstatic => by cases hstatic
  | .cls cls, c, hc, hstatic => by
    unfold evalBody bodyPattern
    refine terminal_ensures quiet c _ _ (fun n hn => ?_) .cls
    obtain ⟨⟨r, m⟩, hclass, hm⟩ := Option.map_eq_some_iff.mp hn
    exact hm ▸ Terminal.le_length_class hclass
  | .any, c, hc, hstatic => by
    unfold evalBody bodyPattern
    refine terminal_ensures quiet c _ _ (fun n hn => ?_) .any
    obtain ⟨⟨r, m⟩, hany, hm⟩ := Option.map_eq_some_iff.mp hn
    exact hm ▸ Terminal.le_length_any hany
termination_by structural body => body

theorem evalExpr_ensures (quiet : Bool) :
    ∀ (alternatives : List (Sequence α (Body α))) (earliest : Option Nat) (c : Cursor),
      c.input = input → (exprPattern alternatives).isStatic = true →
      Ensures rules input (evalExpr scene call quiet alternatives earliest c)
        (Result.Agrees rules (exprPattern alternatives) c)
  | [], earliest, c, hc, hstatic => by
    unfold evalExpr exprPattern
    exact Ensures.pure Matches.fail
  | seq :: rest, earliest, c, hc, hstatic => by
    unfold evalExpr exprPattern
    unfold exprPattern at hstatic
    obtain ⟨hseq, hrest⟩ := Bool.and_eq_true_iff.mp hstatic
    refine (evalSequence_ensures quiet seq c hc hseq).bind fun r hr => ?_
    cases r with
    | success tree next => exact Ensures.pure ⟨hr.1, hr.2.1, .choiceFirst hr.2.2⟩
    | failure offset =>
      -- the offset of the failure does not matter to the next alternative
      refine (evalExpr_ensures quiet rest _ c hc hrest).weaken fun r' hr' => ?_
      cases r' with
      | success tree next => exact ⟨hr'.1, hr'.2.1, .choiceNext hr hr'.2.2⟩
      | failure offset' => exact Matches.choiceNext hr hr'
termination_by structural alternatives => alternatives

theorem evalSequence_ensures (quiet : Bool) :
    ∀ (seq : Sequence α (Body α)) (c : Cursor), c.input = input →
      (sequencePattern seq).isStatic = true →
      Ensures rules input (evalSequence scene call quiet seq c)
        (Result.Agrees rules (sequencePattern seq) c)
  | ⟨items, action, layout, _⟩, c, hc, hstatic => by
    unfold evalSequence sequencePattern
    refine (evalItems_ensures quiet layout c.offset items _ default c hc hstatic).bind
      fun r hr => ?_
    cases r with
    | failure offset => exact Ensures.pure hr
    | success slots last next =>
      -- the action has its say only after the items have matched
      exact (sequenceValue_ensures scene items action layout c slots last next).bind
        fun v _ => Ensures.pure hr
termination_by structural seq => seq

theorem evalItems_ensures (quiet : Bool) (layout : List Bytes) (start : Nat) :
    ∀ (items : List (Item (Body α))) (slots : List (Spanned Value)) (last : Spanned Value) (c : Cursor),
      c.input = input → (itemsPattern items).isStatic = true →
      Ensures rules input (evalItems scene call quiet layout start items slots last c)
        (ItemsResult.Agrees rules (itemsPattern items) c)
  | [], slots, last, c, hc, hstatic => by
    unfold evalItems itemsPattern
    exact Ensures.pure (Spans.of_zero .empty)
  | item :: rest, slots, _, c, hc, hstatic => by
    unfold evalItems itemsPattern
    unfold itemsPattern at hstatic
    obtain ⟨hitem, hrest⟩ := Bool.and_eq_true_iff.mp hstatic
    refine (evalItem_ensures quiet ⟨slots, layout, start⟩ item c hc hitem).bind
      fun r hr => ?_
    cases r with
    | failure offset => exact Ensures.pure (Matches.seqFailFirst hr)
    | success tree next =>
      refine (evalItems_ensures quiet layout start rest _ tree next (hr.1.trans hc)
        hrest).weaken fun r' hr' => ?_
      cases r' with
      | failure offset => exact hr.fails_next hr'
      | success slots' last next' => exact hr.append hr' .seqNext
termination_by structural items => items

theorem evalItem_ensures (quiet : Bool) (frame : Frame) :
    ∀ (item : Item (Body α)) (c : Cursor), c.input = input →
      (itemPattern item).isStatic = true →
      Ensures rules input (evalItem scene call quiet frame item c)
        (Result.Agrees rules (itemPattern item) c)
  | ⟨_, _, lookahead, body, repetition, _, _⟩, c, hc, hstatic => by
    unfold evalItem itemPattern
    unfold itemPattern at hstatic
    rw [Lookahead.isStatic_pattern, Repetition.isStatic_pattern] at hstatic
    -- only a test of code asks for its value
    rw [Body.isCode_eq_false hstatic, Bool.false_and]
    apply lookaround_ensures
    exact repeated_ensures (fun c hc => evalBody_ensures _ frame body c hc hstatic) hreach
      repetition hc
termination_by structural item => item

end

theorem evalRule_ensures (quiet : Bool) (rule : Rule α)
    (hstatic : rule.pattern.isStatic = true) {c : Cursor} (hc : c.input = input) :
    Ensures rules input (evalRule scene call quiet rule c) (Result.Agrees rules rule.pattern c) := by
  unfold Rule.pattern Rule.isExternal at hstatic ⊢
  unfold evalRule
  cases hmatcher : rule.matcher with
  | some i =>
    -- what a matcher takes is computed
    rw [hmatcher] at hstatic
    cases hstatic
  | none =>
    rw [hmatcher] at hstatic
    refine (evalExpr_ensures hcall hreach quiet rule.body none c hc hstatic).bind fun r hr => ?_
    cases r with
    | failure offset => exact Ensures.pure hr
    | success tree next =>
      simp only
      split
      · exact Ensures.pure hr
      · exact Ensures.pure hr

end Expressions

/-! ## Rule calls -/

/-- A sound memo stays sound when it gets what a rule matches. -/
theorem Recalls.keep {p : Progress σ} {index : Nat} {c : Cursor} {r : Result}
    (hp : Recalls rules input p) (hc : c.input = input) (hr : r.Agrees rules (.call (some index)) c) :
    Recalls rules input
      { p with trail := { p.trail with memo := p.trail.memo.insertIfNew (index, c.offset) r } } := by
  intro index' c' r' hc' hr'
  rcases Memo.of_insertIfNew (hc.trans hc'.symm) hr' with ⟨hindex, hcursor, hresult⟩ | hold
  · subst hindex hcursor hresult
    exact hr
  · exact hp hc' hold

section Calls

variable {x : EvalM σ Result} {index : Nat} {c : Cursor} (hc : c.input = input)
  (hx : Ensures rules input x (Result.Agrees rules (.call (some index)) c))

include hc hx

theorem Ensures.keeping (quiet : Bool) :
    Ensures rules input
      (x >>= fun r => keep scene quiet index c.offset r >>= fun _ => Pure.pure r)
      (Result.Agrees rules (.call (some index)) c) := by
  refine hx.bind fun r hr p hp => ?_
  rw [run_keep]
  refine ⟨?_, fun b hb => ?_⟩
  · split
    · exact hp.keep hc hr
    · exact hp
  · cases hb
    exact hr

theorem Ensures.remembering :
    Ensures rules input
      (kept? scene index c.offset >>= fun known =>
        match known with
        | some r => Pure.pure r
        | none => x)
      (Result.Agrees rules (.call (some index)) c) := by
  intro p hp
  rw [run_bind_ok (run_kept? scene index c.offset p)]
  split
  · next r hknown =>
    split at hknown
    · refine ⟨hp, fun b hb => ?_⟩
      cases hb
      exact hp hc hknown
    · cases hknown
  · exact hx p hp

end Calls

/-- **Rule calls match what the patterns of the rules do**, by induction on the depth. -/
theorem callRule_ensures (hreach : input.length ≤ scene.reach)
    (hstatic : scene.grammar.isStatic = true) (depth : Nat) :
    Recognises scene.grammar.patterns input (callRule scene depth) := by
  induction depth with
  | zero =>
    intro quiet index c hc
    unfold callRule
    cases hrule : scene.grammar.rules[index]? with
    | none => exact Ensures.fault _
    | some rule =>
      -- without a kept result the call raises a fault, which answers nothing
      refine Ensures.remembering hc ?_
      exact (Ensures.onUser _).bind fun _ _ => Ensures.fault _
  | succ depth ih =>
    intro quiet index c hc
    unfold callRule
    cases hrule : scene.grammar.rules[index]? with
    | none => exact Ensures.fault _
    | some rule =>
      have hrule_static : rule.pattern.isStatic = true :=
        List.all_eq_true.mp hstatic _ (List.mem_of_getElem? (Grammar.getElem?_patterns hrule))
      have hbody := evalRule_ensures ih hreach quiet rule hrule_static hc
      refine Ensures.remembering hc ((Ensures.onUser _).bind fun _ _ => Ensures.keeping hc ?_ quiet)
      refine hbody.weaken fun r hr => ?_
      cases r with
      | success tree next => exact ⟨hr.1, hr.2.1, .call (Grammar.getElem?_patterns hrule) hr.2.2⟩
      | failure offset => exact Matches.call (Grammar.getElem?_patterns hrule) hr

end Evaluator

/-! ## Recognition -/

/-- A result takes the next `n` bytes from a cursor on. -/
def Result.Takes (c : Cursor) (n : Nat) : Result → Prop
  | .success _ next => next.input = c.input ∧ next.offset = c.offset + n
  | .failure _ => False

/-- A result is a failure. -/
def Result.Fails : Result → Prop
  | .success _ _ => False
  | .failure _ => True

section Results

variable {rules : List Pattern} {p : Pattern} {c : Cursor} {r : Result}

theorem Result.Agrees.takes_iff (h : r.Agrees rules p c) (n : Nat) :
    r.Takes c n ↔ Matches rules p c.remaining (some n) := by
  cases r with
  | failure offset =>
    refine ⟨fun htakes => htakes.elim, fun hmatch => ?_⟩
    cases hmatch.unique h
  | success tree next =>
    obtain ⟨hinput, hle, hmatch⟩ := h
    constructor
    · rintro ⟨_, hoffset⟩
      rw [hoffset, Nat.add_sub_cancel_left] at hmatch
      exact hmatch
    · intro hmatch'
      have hn : n = next.offset - c.offset := Option.some.inj (hmatch'.unique hmatch)
      exact ⟨hinput, by omega⟩

theorem Result.Agrees.fails_iff (h : r.Agrees rules p c) :
    r.Fails ↔ Matches rules p c.remaining none := by
  cases r with
  | failure offset => exact ⟨fun _ => h, fun _ => trivial⟩
  | success tree next =>
    refine ⟨fun hfails => hfails.elim, fun hmatch => ?_⟩
    cases hmatch.unique h.2.2

end Results

/-- A rule call with a new parser answers what the pattern of the rule matches. -/
theorem callRule_agrees {g : Grammar α} (hstatic : g.isStatic = true) {client : Client α σ}
    {index : Nat} {c : Cursor} {env : Env σ} {r : Result}
    (h : (Parser.callRule {} g client index c env).1 = .ok r) :
    r.Agrees g.patterns (.call (some index)) c := by
  have hreach : c.input.length ≤ max 0 c.input.length := Nat.le_max_right _ _
  let scene : Scene α σ := ⟨g, client, env.settings, env.parsing, [], max 0 c.input.length⟩
  have hstatic' : scene.grammar.isStatic = true := hstatic
  have hensures := callRule_ensures hreach hstatic' env.settings.maxDepth false index c rfl
  -- a new parser has kept nothing
  have hempty : Recalls g.patterns c.input (⟨env.store, {}⟩ : Progress σ) := by
    intro index' c' r' _ hr'
    rw [Std.HashMap.getElem?_empty] at hr'
    cases hr'
  exact (hensures _ hempty).2 r h

/-- **Rule calls implement parsing expression grammars.** If a grammar is static and a rule call with a new
parser returns, it takes `n` bytes exactly if the pattern of the rule matches them, and fails exactly if the
pattern does. Names, actions and decorations have no part in this: any grammar with the same patterns takes
the same, whatever its client and its environment. -/
theorem Parser.callRule_recognises {g : Grammar α} (hstatic : g.isStatic = true) (client : Client α σ)
    (index : Nat) (c : Cursor) (env : Env σ) {r : Result}
    (h : (Parser.callRule {} g client index c env).1 = .ok r) :
    (∀ n, r.Takes c n ↔ Matches g.patterns (.call (some index)) c.remaining (some n)) ∧
    (r.Fails ↔ Matches g.patterns (.call (some index)) c.remaining none) ∧
    ∀ {α' σ' : Type} (g' : Grammar α') (client' : Client α' σ') (env' : Env σ') (r' : Result),
      g'.isStatic = true → g'.patterns = g.patterns →
      (Parser.callRule {} g' client' index c env').1 = .ok r' →
      (∀ n, r'.Takes c n ↔ r.Takes c n) ∧ (r'.Fails ↔ r.Fails) := by
  have hagrees := callRule_agrees hstatic h
  refine ⟨hagrees.takes_iff, hagrees.fails_iff, ?_⟩
  intro α' σ' g' client' env' r' hstatic' hpatterns h'
  have hagrees' := callRule_agrees hstatic' h'
  rw [hpatterns] at hagrees'
  constructor
  · intro n
    rw [hagrees.takes_iff, hagrees'.takes_iff]
  · rw [hagrees.fails_iff, hagrees'.fails_iff]

/-- `S <- 'a'* !.` -/
def onlyAs : Grammar Empty where
  rules :=
    [{ name := Bytes.ascii "S"
       body :=
        [{ items := [{ body := .literal (Bytes.ascii "a") false true, repetition := .star },
            { lookahead := .notAhead, body := .any }] }] }]

theorem callRule_recognises_onlyAs :
    onlyAs.isStatic = true ∧
      Matches onlyAs.patterns (.call (some 0)) (Bytes.ascii "aa") (some 2) ∧
      ¬Matches onlyAs.patterns (.call (some 0)) (Bytes.ascii "aa") none := by
  have hreturns : (Parser.callRule {} onlyAs Client.none 0 (Cursor.ofText (Bytes.ascii "aa") 0)
      { settings := { memoize := false }, store := { user := () } }).1 =
        .ok (.success ⟨.text (Bytes.ascii "aa"), 0, 2⟩ (Cursor.ofText (Bytes.ascii "aa") 2)) := by
    cbv
  have h := Parser.callRule_recognises rfl Client.none 0 _ _ hreturns
  refine ⟨rfl, (h.1 2).mp ⟨rfl, rfl⟩, fun hfails => ?_⟩
  exact h.2.1.mpr hfails

end Packrat
