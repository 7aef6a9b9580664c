import Packrat.Proofs.Trace
import Mathlib.Data.List.Forall2

/-!
# `Packrat.Proofs.Reading` — how a grammar reads a text

Statements about what a rule takes from a given text, and what it yields there, in terms of the text that
remains. They abstract from cursors and from depth: something is read if it is read with as much depth as it
takes.

There is one rule for each way to build an expression, so that what a rule of a grammar reads is shown by
going through its expression from left to right.

## Contents
- **Answers.** `Evals`: the answer from some depth on.
- **Readers.** `Takes` and `Fails`, of bodies, items, sequences, expressions and rules.
- **Bodies.** Terminals, calls and groups.
- **Items.** Lookaheads and repetitions; `Repeats` lists what a repetition takes.
- **Sequences.** `ItemsTake` threads the slots; the value is a record, a bound value, a passed value or a text.
- **Rules.** With and without a tag.
-/

namespace Packrat

variable {α β γ : Type}

/-! ## Answers -/

/-- The answer of an evaluation, from some depth on. -/
def Evals (f : Nat → Traced β) (b : β) : Prop := ∃ n, ∀ m, n ≤ m → (f m).answer = .ok b

theorem Evals.pure (b : β) : Evals (fun _ => (Pure.pure b : Traced β)) b :=
  ⟨0, fun _ _ => rfl⟩

/-- One evaluation after another. -/
theorem Evals.bind {f : Nat → Traced β} {k : Nat → β → Traced γ} {b : β} {c : γ} (hf : Evals f b)
    (hk : Evals (fun m => k m b) c) : Evals (fun m => f m >>= k m) c := by
  obtain ⟨n, hn⟩ := hf
  obtain ⟨n', hn'⟩ := hk
  refine ⟨max n n', ?_⟩
  intro m hm
  have hfirst : (f m).answer = .ok b := hn m (Nat.le_trans (Nat.le_max_left n n') hm)
  show (f m >>= k m).answer = .ok c
  rw [Traced.bind_ok hfirst]
  exact hn' m (Nat.le_trans (Nat.le_max_right n n') hm)

/-- A fault that the depth has no part in is no answer. -/
theorem Evals.of_error {e : Fault} {b : β} (h : Evals (fun _ => (Traced.lift (.error e) : Traced β)) b) :
    False := by
  obtain ⟨n, hn⟩ := h
  cases hn n (Nat.le_refl n)

/-! ## Readers -/

/-- A place is behind another one by a text. -/
structure Cursor.Past (c : Cursor) (t : Bytes) (next : Cursor) : Prop where
  input : next.input = c.input
  offset : next.offset = c.offset + t.length

namespace Cursor.Past

variable {c mid next : Cursor} {t u rest : Bytes}

theorem refl (c : Cursor) : c.Past [] c := ⟨rfl, rfl⟩

theorem trans (h : c.Past t mid) (h' : mid.Past u next) : c.Past (t ++ u) next := by
  refine ⟨h'.input.trans h.input, ?_⟩
  rw [h'.offset, h.offset, List.length_append]
  omega

/-- What remains behind a text that remains. -/
theorem remaining (h : c.Past t next) (hc : c.remaining = t ++ rest) : next.remaining = rest := by
  rw [next.remaining_eq, h.input, h.offset, ← List.drop_drop, ← c.remaining_eq, hc, List.drop_left]

/-- Advancing over a text that remains. -/
theorem advance (hc : c.remaining = t ++ rest) : c.Past t (c.advance t.length) := by
  refine ⟨Cursor.input_advance c _, ?_⟩
  have hlength : t.length + rest.length = c.input.length - c.offset := by
    rw [← List.length_append, ← hc, c.remaining_eq, List.length_drop]
  have hle := c.offset_le
  rw [Cursor.offset_advance]
  omega

/-- The text between two places. -/
theorem textFrom (h : c.Past t next) (hc : c.remaining = t ++ rest) :
    next.textFrom c.offset = t := by
  have hle : c.offset ≤ next.offset := by
    rw [h.offset]
    exact Nat.le_add_right _ _
  unfold Cursor.textFrom
  rw [if_pos hle, h.input, ← c.remaining_eq, h.offset, Nat.add_sub_cancel_left, hc, List.take_left]

end Cursor.Past

/-- Reading a text at every place of an input where it stands before `rest`, with a value that satisfies
`Q`. -/
def Takes (input : Bytes) (p : Nat → Cursor → Traced Result) (t rest : Bytes) (Q : Value → Prop) : Prop :=
  ∀ c : Cursor, c.input = input → c.remaining = t ++ rest →
    ∃ x next, Evals (fun m => p m c) (.success x next) ∧ c.Past t next ∧ Q x.value

/-- Failing at every place of an input where a text remains. -/
def Fails (input : Bytes) (p : Nat → Cursor → Traced Result) (text : Bytes) : Prop :=
  ∀ c : Cursor, c.input = input → c.remaining = text → ∃ offset, Evals (fun m => p m c) (.failure offset)

theorem Takes.weaken {input : Bytes} {p : Nat → Cursor → Traced Result} {t rest : Bytes}
    {Q R : Value → Prop} (h : Takes input p t rest Q) (hQR : ∀ v, Q v → R v) : Takes input p t rest R := by
  intro c hc hremaining
  obtain ⟨x, next, hx, hpast, hQ⟩ := h c hc hremaining
  exact ⟨x, next, hx, hpast, hQR _ hQ⟩

section Readers

variable (s : Basis α)

/-- What a rule takes. -/
def RuleTakes (i : Nat) : Bytes → Bytes → (Value → Prop) → Prop :=
  Takes s.input fun m c => traceCall s m i c

def RuleFails (i : Nat) : Bytes → Prop := Fails s.input fun m c => traceCall s m i c

/-- What a body takes in any sequence at work. -/
def BodyTakes (body : Body α) (t rest : Bytes) (Q : Value → Prop) : Prop :=
  ∀ frame, Takes s.input (fun m c => traceBody s (traceCall s m) frame body c) t rest Q

def BodyFails (body : Body α) (text : Bytes) : Prop :=
  ∀ frame, Fails s.input (fun m c => traceBody s (traceCall s m) frame body c) text

/-- What an item takes in any sequence at work. -/
def ItemTakes (item : Item (Body α)) (t rest : Bytes) (Q : Value → Prop) : Prop :=
  ∀ frame, Takes s.input (fun m c => traceItem s (traceCall s m) frame item c) t rest Q

def ItemFails (item : Item (Body α)) (text : Bytes) : Prop :=
  ∀ frame, Fails s.input (fun m c => traceItem s (traceCall s m) frame item c) text

/-- What a sequence takes. -/
def SequenceTakes (seq : Sequence α (Body α)) : Bytes → Bytes → (Value → Prop) → Prop :=
  Takes s.input fun m c => traceSequence s (traceCall s m) seq c

def SequenceFails (seq : Sequence α (Body α)) : Bytes → Prop :=
  Fails s.input fun m c => traceSequence s (traceCall s m) seq c

/-- What an expression takes, whatever has been tried before. -/
def ExprTakes (e : Expr α) (t rest : Bytes) (Q : Value → Prop) : Prop :=
  ∀ earliest, Takes s.input (fun m c => traceExpr s (traceCall s m) e earliest c) t rest Q

def ExprFails (e : Expr α) (text : Bytes) : Prop :=
  ∀ earliest, Fails s.input (fun m c => traceExpr s (traceCall s m) e earliest c) text

/-- What items take one after the other, from slots that end up as `R` says. -/
def ItemsTake (items : List (Item (Body α))) (slots : List (Spanned Value)) (t rest : Bytes)
    (R : List (Spanned Value) → Prop) : Prop :=
  ∀ layout start last c, c.input = s.input → c.remaining = t ++ rest → ∃ slots' last' next,
    Evals (fun m => traceItems s (traceCall s m) layout start items slots last c)
      (.success slots' last' next) ∧ c.Past t next ∧ R slots'

def ItemsFail (items : List (Item (Body α))) (text : Bytes) : Prop :=
  ∀ layout start slots last c, c.input = s.input → c.remaining = text → ∃ offset,
    Evals (fun m => traceItems s (traceCall s m) layout start items slots last c) (.failure offset)

end Readers

variable {s : Basis α} {t u rest text : Bytes} {Q : Value → Prop}

-- every lemma below opens the reader at one of these
attribute [local simp] traceTerminal traceRepeated traceCollect traceBody traceItem traceItems traceSequence
  traceExpr traceRule

/-! ## Bodies -/

/-- The number of bytes that a terminal takes. -/
def Body.taken? (text : Bytes) : Body α → Option Nat
  | .literal spelling caseless braceSensitive => Terminal.literal? spelling braceSensitive caseless text
  | .cls k => (Terminal.class? k text).map (·.2)
  | .any => (Terminal.any? text).map (·.2)
  | _ => none

/-- Whether a body is a terminal that is the same in every sequence. -/
def Body.isTerminal : Body α → Bool
  | .literal _ _ _ => true
  | .cls _ => true
  | .any => true
  | _ => false

theorem traceTerminal_takes {c : Cursor} (label : Bytes) (hc : c.remaining = t ++ rest) :
    ∃ next, Evals (fun _ => traceTerminal c label (some t.length)) (.success ⟨.text t, c.offset, next.offset⟩ next)
      ∧ c.Past t next := by
  refine ⟨c.advance t.length, ⟨0, fun m _ => ?_⟩, Cursor.Past.advance hc⟩
  have htake : c.remaining.take t.length = t := by
    rw [hc]
    exact List.take_left
  show Except.ok (Result.success ⟨.text (c.remaining.take t.length), _, _⟩ _) = _
  rw [htake]

theorem traceTerminal_fails (c : Cursor) (label : Bytes) :
    Evals (fun _ => traceTerminal c label none) (.failure c.offset) :=
  ⟨0, fun _ _ => rfl⟩

/-- A terminal takes the text that it matches. -/
theorem BodyTakes.terminal {body : Body α} (hterminal : body.isTerminal = true)
    (htaken : body.taken? (t ++ rest) = some t.length) (hQ : Q (.text t)) : BodyTakes s body t rest Q := by
  intro frame c _ hremaining
  have hlabel : ∀ label, ∃ next,
      Evals (fun _ => traceTerminal c label (body.taken? c.remaining))
        (.success ⟨.text t, c.offset, next.offset⟩ next) ∧ c.Past t next := by
    intro label
    rw [hremaining, htaken]
    exact traceTerminal_takes label hremaining
  cases body with
  | literal spelling caseless braceSensitive =>
    obtain ⟨next, hnext, hpast⟩ := hlabel (labelOf (betweenQuotes spelling) caseless)
    refine ⟨⟨.text t, c.offset, next.offset⟩, next, ?_, hpast, hQ⟩
    simp only [traceBody]
    exact hnext
  | cls cls =>
    obtain ⟨next, hnext, hpast⟩ := hlabel (labelOf cls.spelling cls.caseless)
    refine ⟨⟨.text t, c.offset, next.offset⟩, next, ?_, hpast, hQ⟩
    simp only [traceBody]
    exact hnext
  | any =>
    obtain ⟨next, hnext, hpast⟩ := hlabel (Bytes.ascii "any character")
    refine ⟨⟨.text t, c.offset, next.offset⟩, next, ?_, hpast, hQ⟩
    simp only [traceBody]
    exact hnext
  | _ => cases hterminal

theorem BodyFails.terminal {body : Body α} (hterminal : body.isTerminal = true)
    (htaken : body.taken? text = none) : BodyFails s body text := by
  intro frame c _ hremaining
  have hlabel : ∀ label, Evals (fun _ => traceTerminal c label (body.taken? c.remaining))
      (.failure c.offset) := by
    intro label
    rw [hremaining, htaken]
    exact traceTerminal_fails c label
  cases body with
  | literal spelling caseless braceSensitive =>
    refine ⟨c.offset, ?_⟩
    simp only [traceBody]
    exact hlabel (labelOf (betweenQuotes spelling) caseless)
  | cls cls =>
    refine ⟨c.offset, ?_⟩
    simp only [traceBody]
    exact hlabel (labelOf cls.spelling cls.caseless)
  | any =>
    refine ⟨c.offset, ?_⟩
    simp only [traceBody]
    exact hlabel (Bytes.ascii "any character")
  | _ => cases hterminal

theorem BodyTakes.call {name : Bytes} {i : Nat} (h : RuleTakes s i t rest Q) :
    BodyTakes s (.call name false (some i)) t rest Q := by
  intro frame c hc hremaining
  obtain ⟨x, next, hx, hpast, hQ⟩ := h c hc hremaining
  refine ⟨x, next, ?_, hpast, hQ⟩
  cases hrule : s.grammar.rules[i]? with
  | none =>
    simp only [traceCall_none hrule] at hx
    exact hx.of_error.elim
  | some rule =>
    simp only [traceBody, traceRuleCall, hrule]
    exact hx.bind (Evals.pure _)

theorem BodyFails.call {name : Bytes} {i : Nat} (h : RuleFails s i text) :
    BodyFails s (.call name false (some i)) text := by
  intro frame c hc hremaining
  obtain ⟨offset, hoffset⟩ := h c hc hremaining
  refine ⟨offset, ?_⟩
  simp only [traceBody, traceRuleCall]
  exact hoffset.bind (Evals.pure _)

theorem BodyTakes.group {e : Expr α} (h : ExprTakes s e t rest Q) : BodyTakes s (.group e) t rest Q := by
  intro frame c hc hremaining
  obtain ⟨x, next, hx, hpast, hQ⟩ := h none c hc hremaining
  refine ⟨x, next, ?_, hpast, hQ⟩
  simp only [traceBody]
  exact hx

theorem BodyFails.group {e : Expr α} (h : ExprFails s e text) : BodyFails s (.group e) text := by
  intro frame c hc hremaining
  obtain ⟨offset, hoffset⟩ := h none c hc hremaining
  refine ⟨offset, ?_⟩
  simp only [traceBody]
  exact hoffset

/-! ## Items -/

section Items

variable {name : Option Bytes} {autobind : Bool} {body : Body α} {slot : Option Nat} {position : Position}

/-- An item without a lookahead answers as its repetition does. -/
theorem evals_item {frame : Frame} {repetition : Repetition} {c next : Cursor} {x : Spanned Value}
    (h : Evals (fun m => traceRepeated s.reach repetition (traceBody s (traceCall s m) frame body) c)
      (.success x next)) :
    Evals (fun m => traceItem s (traceCall s m) frame
      ⟨name, autobind, .none, body, repetition, slot, position⟩ c) (.success x next) :=
  h.bind (Evals.pure _)

theorem ItemTakes.once (h : BodyTakes s body t rest Q) :
    ItemTakes s ⟨name, autobind, .none, body, .once, slot, position⟩ t rest Q := by
  intro frame c hc hremaining
  obtain ⟨x, next, hx, hpast, hQ⟩ := h frame c hc hremaining
  exact ⟨x, next, evals_item hx, hpast, hQ⟩

theorem ItemFails.once (h : BodyFails s body text) :
    ItemFails s ⟨name, autobind, .none, body, .once, slot, position⟩ text := by
  intro frame c hc hremaining
  obtain ⟨offset, hoffset⟩ := h frame c hc hremaining
  refine ⟨c.offset, ?_⟩
  exact hoffset.bind (Evals.pure _)

theorem ItemTakes.present (h : BodyTakes s body t rest Q) :
    ItemTakes s ⟨name, autobind, .none, body, .optional, slot, position⟩ t rest
      (fun v => ∃ x : Spanned Value, v = .option (some x) ∧ Q x.value) := by
  intro frame c hc hremaining
  obtain ⟨x, next, hx, hpast, hQ⟩ := h frame c hc hremaining
  have hrepeated : Evals (fun m => traceRepeated s.reach .optional (traceBody s (traceCall s m) frame body) c)
      (.success ⟨.option (some x), c.offset, next.offset⟩ next) := by
    simp only [traceRepeated]
    exact hx.bind (Evals.pure _)
  exact ⟨⟨.option (some x), c.offset, next.offset⟩, next, evals_item hrepeated, hpast, x, rfl, hQ⟩

theorem ItemTakes.absent (h : BodyFails s body rest) :
    ItemTakes s ⟨name, autobind, .none, body, .optional, slot, position⟩ [] rest
      (fun v => v = .option none) := by
  intro frame c hc hremaining
  obtain ⟨offset, hoffset⟩ := h frame c hc hremaining
  have hrepeated : Evals (fun m => traceRepeated s.reach .optional (traceBody s (traceCall s m) frame body) c)
      (.success ⟨.option none, c.offset, c.offset⟩ c) := by
    simp only [traceRepeated]
    exact hoffset.bind (Evals.pure _)
  exact ⟨⟨.option none, c.offset, c.offset⟩, c, evals_item hrepeated, Cursor.Past.refl c, rfl⟩

/-- A test for something that does not stand here. -/
theorem ItemTakes.notAhead (h : BodyFails s body rest) :
    ItemTakes s ⟨name, autobind, .notAhead, body, .once, slot, position⟩ [] rest (fun _ => True) := by
  intro frame c hc hremaining
  obtain ⟨offset, n, hn⟩ := h frame c hc hremaining
  have hhush : Evals (fun m => (traceBody s (traceCall s m) frame body c).hush) (.failure offset) := ⟨n, hn⟩
  refine ⟨⟨.unit, c.offset, c.offset⟩, c, ?_, Cursor.Past.refl c, trivial⟩
  exact hhush.bind (Evals.pure _)

/-- A test for something that stands here. -/
theorem ItemFails.notAhead (hcode : body.isCode = false) (h : BodyTakes s body t rest Q) :
    ItemFails s ⟨name, autobind, .notAhead, body, .once, slot, position⟩ (t ++ rest) := by
  intro frame c hc hremaining
  obtain ⟨x, next, ⟨n, hn⟩, _, _⟩ := h frame c hc hremaining
  have hhush : Evals (fun m => (traceBody s (traceCall s m) frame body c).hush) (.success x next) := ⟨n, hn⟩
  have hjudge : Lookahead.judge .notAhead (body.isCode && Repetition.once = .once) c (.success x next)
      = .failure c.offset := by
    rw [hcode]
    rfl
  refine ⟨c.offset, ?_⟩
  rw [← hjudge]
  exact hhush.bind (Evals.pure _)

theorem ItemFails.plus (h : BodyFails s body text) :
    ItemFails s ⟨name, autobind, .none, body, .plus, slot, position⟩ text := by
  intro frame c hc hremaining
  obtain ⟨offset, hoffset⟩ := h frame c hc hremaining
  have hrepeated : Evals (fun m => traceRepeated s.reach .plus (traceBody s (traceCall s m) frame body) c)
      (.failure c.offset) := by
    simp only [traceRepeated]
    exact hoffset.bind (Evals.pure _)
  refine ⟨c.offset, ?_⟩
  exact hrepeated.bind (Evals.pure _)

/-- What a body takes again and again: some texts, none of them empty, and then it fails. The values satisfy
`Qs`, one by one. -/
inductive Repeats (s : Basis α) (body : Body α) (rest : Bytes) : Bytes → List (Value → Prop) → Prop
  | stop (h : BodyFails s body rest) : Repeats s body rest [] []
  | more {t u : Bytes} {Q : Value → Prop} {Qs : List (Value → Prop)} (hne : t ≠ [])
      (h : BodyTakes s body t (u ++ rest) Q) (hmore : Repeats s body rest u Qs) :
      Repeats s body rest (t ++ u) (Q :: Qs)

theorem Repeats.one (hne : t ≠ []) (h : BodyTakes s body t rest Q) (hstop : BodyFails s body rest) :
    Repeats s body rest t [Q] := by
  have hmore : Repeats s body rest (t ++ []) [Q] := Repeats.more hne h (Repeats.stop hstop)
  rw [List.append_nil] at hmore
  exact hmore

/-- Values satisfy predicates, one by one. -/
def AllHold (Qs : List (Value → Prop)) (xs : List (Spanned Value)) : Prop :=
  List.Forall₂ (fun x Q => Q x.value) xs Qs

/-- The fuel of a repetition suffices for as many elements as there are bytes. -/
theorem traceCollect_takes {Qs : List (Value → Prop)} (h : Repeats s body rest t Qs) (frame : Frame)
    (fuel : Nat) (collected : List (Spanned Value)) (c : Cursor) (hc : c.input = s.input)
    (hremaining : c.remaining = t ++ rest) (hfuel : t.length < fuel) : ∃ xs next,
    Evals (fun m => traceCollect (traceBody s (traceCall s m) frame body) fuel collected c)
      (collected.reverse ++ xs, next) ∧ c.Past t next ∧ AllHold Qs xs := by
  induction h generalizing fuel collected c with
  | stop hfails =>
    obtain ⟨offset, hoffset⟩ := hfails frame c hc hremaining
    cases fuel with
    | zero => cases hfuel
    | succ fuel =>
      refine ⟨[], c, ?_, Cursor.Past.refl c, List.Forall₂.nil⟩
      rw [List.append_nil]
      simp only [traceCollect]
      exact hoffset.bind (Evals.pure _)
  | @more t u Q Qs hne htakes hmore ih =>
    rw [List.append_assoc] at hremaining
    obtain ⟨x, next, hx, hpast, hQ⟩ := htakes frame c hc hremaining
    have hpos : 0 < t.length := List.length_pos_iff.mpr hne
    cases fuel with
    | zero => cases hfuel
    | succ fuel =>
      -- an element that is not empty leaves less text than fuel
      have hshort : u.length < fuel := by
        rw [List.length_append] at hfuel
        omega
      obtain ⟨xs, last, hxs, hpast', hall⟩ := ih fuel (x :: collected) next
        (hpast.input.trans hc) (hpast.remaining hremaining) hshort
      refine ⟨x :: xs, last, ?_, hpast.trans hpast', List.Forall₂.cons hQ hall⟩
      rw [List.reverse_cons, List.append_assoc] at hxs
      have hmoved : next.offset ≠ c.offset := by
        rw [hpast.offset]
        omega
      simp only [traceCollect]
      refine hx.bind ?_
      simp only [if_neg hmoved]
      exact hxs

/-- The fuel of a basis suffices for its input. -/
theorem length_lt_reach (hreach : s.reach = s.input.length) {c : Cursor} (hc : c.input = s.input)
    (hremaining : c.remaining = t ++ rest) : t.length < s.reach + 1 := by
  have hlength : t.length + rest.length = c.input.length - c.offset := by
    rw [← List.length_append, ← hremaining, c.remaining_eq, List.length_drop]
  rw [hreach, ← hc]
  omega

theorem ItemTakes.star (hreach : s.reach = s.input.length) {Qs : List (Value → Prop)}
    (h : Repeats s body rest t Qs) :
    ItemTakes s ⟨name, autobind, .none, body, .star, slot, position⟩ t rest
      (fun v => ∃ xs, v = .list xs ∧ AllHold Qs xs) := by
  intro frame c hc hremaining
  obtain ⟨xs, next, hxs, hpast, hall⟩ :=
    traceCollect_takes h frame (s.reach + 1) [] c hc hremaining (length_lt_reach hreach hc hremaining)
  have hrepeated : Evals (fun m => traceRepeated s.reach .star (traceBody s (traceCall s m) frame body) c)
      (.success ⟨.list xs, c.offset, next.offset⟩ next) := by
    simp only [traceRepeated]
    exact hxs.bind (Evals.pure _)
  exact ⟨⟨.list xs, c.offset, next.offset⟩, next, evals_item hrepeated, hpast, xs, rfl, hall⟩

theorem ItemTakes.plus (hreach : s.reach = s.input.length) {Qs : List (Value → Prop)}
    (hfirst : BodyTakes s body t (u ++ rest) Q) (hmore : Repeats s body rest u Qs) :
    ItemTakes s ⟨name, autobind, .none, body, .plus, slot, position⟩ (t ++ u) rest
      (fun v => ∃ xs, v = .list xs ∧ AllHold (Q :: Qs) xs) := by
  intro frame c hc hremaining
  rw [List.append_assoc] at hremaining
  obtain ⟨x, mid, hx, hpast, hQ⟩ := hfirst frame c hc hremaining
  have hremaining' : mid.remaining = u ++ rest := hpast.remaining hremaining
  have hc' : mid.input = s.input := hpast.input.trans hc
  obtain ⟨xs, next, hxs, hpast', hall⟩ := traceCollect_takes hmore frame (s.reach + 1) [x] mid hc'
    hremaining' (length_lt_reach hreach hc' hremaining')
  have hrepeated : Evals (fun m => traceRepeated s.reach .plus (traceBody s (traceCall s m) frame body) c)
      (.success ⟨.list (x :: xs), c.offset, next.offset⟩ next) := by
    simp only [traceRepeated]
    refine hx.bind ?_
    exact hxs.bind (Evals.pure _)
  exact ⟨⟨.list (x :: xs), c.offset, next.offset⟩, next, evals_item hrepeated, hpast.trans hpast', x :: xs, rfl,
    List.Forall₂.cons hQ hall⟩

theorem ItemTakes.plus_of_repeats (hreach : s.reach = s.input.length) {Qs : List (Value → Prop)}
    (h : Repeats s body rest t Qs) (hne : Qs ≠ []) :
    ItemTakes s ⟨name, autobind, .none, body, .plus, slot, position⟩ t rest
      (fun v => ∃ xs, v = .list xs ∧ AllHold Qs xs) := by
  cases h with
  | stop h => exact absurd rfl hne
  | more _ hfirst hmore => exact ItemTakes.plus hreach hfirst hmore

end Items

/-! ## Sequences -/

section Sequences

variable {item : Item (Body α)} {items : List (Item (Body α))} {slots : List (Spanned Value)}
  {R : List (Spanned Value) → Prop}

theorem ItemsTake.nil (hR : R slots) : ItemsTake s [] slots [] rest R := by
  intro layout start last c _ _
  refine ⟨slots, last, c, ?_, Cursor.Past.refl c, hR⟩
  simp only [traceItems]
  exact Evals.pure _

theorem ItemsTake.weaken {R' : List (Spanned Value) → Prop} (h : ItemsTake s items slots t rest R)
    (hR : ∀ slots, R slots → R' slots) : ItemsTake s items slots t rest R' := by
  intro layout start last c hc hremaining
  obtain ⟨slots', last', next, hslots, hpast, hslots'⟩ := h layout start last c hc hremaining
  exact ⟨slots', last', next, hslots, hpast, hR _ hslots'⟩

/-- The slots behind an item. -/
def Item.fill (item : Item (Body α)) (slots : List (Spanned Value)) (x : Spanned Value) :
    List (Spanned Value) :=
  match item.slot with
  | none => slots
  | some i => slots.set i x

theorem ItemsTake.cons (hitem : ItemTakes s item t (u ++ rest) Q)
    (hitems : ∀ x : Spanned Value, Q x.value → ItemsTake s items (item.fill slots x) u rest R) :
    ItemsTake s (item :: items) slots (t ++ u) rest R := by
  intro layout start last c hc hremaining
  rw [List.append_assoc] at hremaining
  obtain ⟨x, mid, hx, hpast, hQ⟩ := hitem ⟨slots, layout, start⟩ c hc hremaining
  obtain ⟨slots', last', next, hslots, hpast', hR⟩ :=
    hitems x hQ layout start x mid (hpast.input.trans hc) (hpast.remaining hremaining)
  refine ⟨slots', last', next, ?_, hpast.trans hpast', hR⟩
  simp only [traceItems]
  exact hx.bind hslots

/-- An item that binds no name. -/
theorem ItemsTake.next (hslot : item.slot = none) (hitem : ItemTakes s item t (u ++ rest) Q)
    (hitems : ItemsTake s items slots u rest R) : ItemsTake s (item :: items) slots (t ++ u) rest R := by
  refine ItemsTake.cons hitem fun x _ => ?_
  have hfill : item.fill slots x = slots := by
    unfold Item.fill
    rw [hslot]
  rw [hfill]
  exact hitems

theorem ItemsTake.last (hitem : ItemTakes s item t rest Q)
    (hR : ∀ x : Spanned Value, Q x.value → R (item.fill slots x)) : ItemsTake s [item] slots t rest R := by
  have h : ItemsTake s [item] slots (t ++ []) rest R :=
    ItemsTake.cons hitem fun x hx => ItemsTake.nil (hR x hx)
  rw [List.append_nil] at h
  exact h

theorem ItemsFail.head (h : ItemFails s item text) : ItemsFail s (item :: items) text := by
  intro layout start slots last c hc hremaining
  obtain ⟨offset, hoffset⟩ := h ⟨slots, layout, start⟩ c hc hremaining
  refine ⟨c.offset, ?_⟩
  simp only [traceItems]
  refine hoffset.bind ?_
  exact ⟨0, fun _ _ => rfl⟩

theorem ItemsFail.tail (h : ItemTakes s item t rest Q) (hrest : ItemsFail s items rest) :
    ItemsFail s (item :: items) (t ++ rest) := by
  intro layout start slots last c hc hremaining
  obtain ⟨x, mid, hx, hpast, _⟩ := h ⟨slots, layout, start⟩ c hc hremaining
  obtain ⟨offset, hoffset⟩ := hrest layout start (item.fill slots x) x mid (hpast.input.trans hc)
    (hpast.remaining hremaining)
  refine ⟨offset, ?_⟩
  simp only [traceItems]
  exact hx.bind hoffset

/-- An item that takes nothing before items that fail. -/
theorem ItemsFail.skip (h : ItemTakes s item [] text Q) (hrest : ItemsFail s items text) :
    ItemsFail s (item :: items) text :=
  ItemsFail.tail (t := []) h hrest

/-- An item that takes nothing and binds no name. -/
theorem ItemsTake.skip (hslot : item.slot = none) (hitem : ItemTakes s item [] (t ++ rest) Q)
    (hitems : ItemsTake s items slots t rest R) : ItemsTake s (item :: items) slots t rest R :=
  ItemsTake.next (t := []) hslot hitem hitems

variable {layout : List Bytes} {position : Position}

/-- A sequence that binds names makes a record of them. -/
theorem SequenceTakes.record (hlayout : layout.isEmpty = false)
    (h : ItemsTake s items (List.replicate layout.length default) t rest
      (fun slots => Q (.node [] (layout.zip slots)))) :
    SequenceTakes s ⟨items, none, layout, position⟩ t rest Q := by
  intro c hc hremaining
  obtain ⟨slots, last, next, hslots, hpast, hQ⟩ := h layout c.offset default c hc hremaining
  refine ⟨⟨.node [] (layout.zip slots), c.offset, next.offset⟩, next, ?_, hpast, hQ⟩
  simp only [traceSequence]
  refine hslots.bind ?_
  simp only [traceValue, hlayout]
  exact (Evals.pure _).bind (Evals.pure _)

/-- A sequence whose action is a name yields the value bound to it. -/
theorem SequenceTakes.bound {name : Bytes} {i : Nat} {p : Position}
    (h : ItemsTake s items (List.replicate layout.length default) t rest
      (fun slots => ∃ x, slots[i]? = some x ∧ Q x.value)) :
    SequenceTakes s ⟨items, some ⟨.ref name (some i), p⟩, layout, position⟩ t rest Q := by
  intro c hc hremaining
  obtain ⟨slots, last, next, hslots, hpast, x, hx, hQ⟩ := h layout c.offset default c hc hremaining
  refine ⟨⟨x.value, c.offset, next.offset⟩, next, ?_, hpast, hQ⟩
  simp only [traceSequence]
  refine hslots.bind ?_
  simp only [traceValue, traceHost, Frame.value, Option.bind_some, hx]
  exact (Evals.pure _).bind (Evals.pure _)

/-- A sequence of one call or group passes its value on. -/
theorem SequenceTakes.passed (hpasses : passesOn [item] = true) (h : ItemTakes s item t rest Q) :
    SequenceTakes s ⟨[item], none, [], position⟩ t rest Q := by
  intro c hc hremaining
  obtain ⟨x, next, hx, hpast, hQ⟩ := h ⟨[], [], c.offset⟩ c hc hremaining
  refine ⟨x, next, ?_, hpast, hQ⟩
  have hitems : Evals (fun m => traceItems s (traceCall s m) [] c.offset [item] [] default c)
      (.success (item.fill [] x) x next) := by
    simp only [traceItems]
    exact hx.bind (Evals.pure _)
  simp only [traceSequence]
  refine hitems.bind ?_
  simp only [traceValue, List.isEmpty_nil, Bool.not_true, Bool.false_eq_true, if_false, hpasses, if_true]
  exact (Evals.pure _).bind (Evals.pure _)

/-- Any other sequence makes the text that it takes. -/
theorem SequenceTakes.matched (hpasses : passesOn items = false)
    (h : ItemsTake s items [] t rest (fun _ => True)) (hQ : Q (.text t)) :
    SequenceTakes s ⟨items, none, [], position⟩ t rest Q := by
  intro c hc hremaining
  obtain ⟨slots, last, next, hslots, hpast, _⟩ := h [] c.offset default c hc hremaining
  have htext : next.textFrom c.offset = t := hpast.textFrom hremaining
  refine ⟨⟨.text t, c.offset, next.offset⟩, next, ?_, hpast, hQ⟩
  simp only [traceSequence]
  refine hslots.bind ?_
  simp only [traceValue, List.isEmpty_nil, Bool.not_true, Bool.false_eq_true, if_false, hpasses, htext]
  exact (Evals.pure _).bind (Evals.pure _)

theorem SequenceFails.of_items {action : Option (Host α)} (h : ItemsFail s items text) :
    SequenceFails s ⟨items, action, layout, position⟩ text := by
  intro c hc hremaining
  obtain ⟨offset, hoffset⟩ := h layout c.offset (List.replicate layout.length default) default c hc hremaining
  refine ⟨offset, ?_⟩
  simp only [traceSequence]
  exact hoffset.bind (Evals.pure _)

variable {seq : Sequence α (Body α)} {e : Expr α}

theorem ExprTakes.first (h : SequenceTakes s seq t rest Q) : ExprTakes s (seq :: e) t rest Q := by
  intro earliest c hc hremaining
  obtain ⟨x, next, hx, hpast, hQ⟩ := h c hc hremaining
  refine ⟨x, next, ?_, hpast, hQ⟩
  simp only [traceExpr]
  exact hx.bind (Evals.pure _)

theorem ExprTakes.later (hfirst : SequenceFails s seq (t ++ rest)) (h : ExprTakes s e t rest Q) :
    ExprTakes s (seq :: e) t rest Q := by
  intro earliest c hc hremaining
  obtain ⟨offset, hoffset⟩ := hfirst c hc hremaining
  obtain ⟨x, next, hx, hpast, hQ⟩ := h (some ((earliest.map (min · offset)).getD offset)) c hc hremaining
  refine ⟨x, next, ?_, hpast, hQ⟩
  simp only [traceExpr]
  exact hoffset.bind hx

theorem ExprFails.nil : ExprFails s [] text := by
  intro earliest c _ _
  refine ⟨earliest.getD c.offset, ?_⟩
  simp only [traceExpr]
  exact Evals.pure _

theorem ExprFails.cons (hfirst : SequenceFails s seq text) (h : ExprFails s e text) :
    ExprFails s (seq :: e) text := by
  intro earliest c hc hremaining
  obtain ⟨offset, hoffset⟩ := hfirst c hc hremaining
  obtain ⟨offset', hoffset'⟩ := h (some ((earliest.map (min · offset)).getD offset)) c hc hremaining
  refine ⟨offset', ?_⟩
  simp only [traceExpr]
  exact hoffset.bind hoffset'

end Sequences

/-! ## Rules -/

section Rules

variable {i : Nat} {rule : Rule α} (hrule : s.grammar.rules[i]? = some rule)

/-- The evaluation of a rule is that of its expression, one level deeper. -/
theorem evals_rule (hrule : s.grammar.rules[i]? = some rule) {c : Cursor} {r : Result}
    (h : Evals (fun m => traceRule s (traceCall s m) rule c) r) : Evals (fun m => traceCall s m i c) r := by
  obtain ⟨n, hn⟩ := h
  refine ⟨n + 1, ?_⟩
  intro m hm
  obtain ⟨k, hk⟩ : ∃ k, m = k + 1 := ⟨m - 1, by omega⟩
  subst hk
  show (traceCall s (k + 1) i c).answer = .ok r
  rw [traceCall_succ hrule]
  exact hn k (by omega)

variable (hmatcher : rule.matcher = none)

include hrule hmatcher

theorem RuleTakes.plain (hdecorated : rule.decorated = false) (h : ExprTakes s rule.body t rest Q) :
    RuleTakes s i t rest Q := by
  intro c hc hremaining
  obtain ⟨x, next, hx, hpast, hQ⟩ := h none c hc hremaining
  refine ⟨x, next, evals_rule hrule ?_, hpast, hQ⟩
  simp only [traceRule, hmatcher]
  refine hx.bind ?_
  simp only [hdecorated]
  exact Evals.pure _

theorem RuleTakes.decorated (hdecorated : rule.decorated = true)
    (h : ExprTakes s rule.body t rest
      (fun v => ∀ start stop, Q (tagged rule.name ⟨v, start, stop⟩).value)) : RuleTakes s i t rest Q := by
  intro c hc hremaining
  obtain ⟨x, next, hx, hpast, hQ⟩ := h none c hc hremaining
  refine ⟨tagged rule.name x, next, evals_rule hrule ?_, hpast, hQ x.start x.stop⟩
  simp only [traceRule, hmatcher]
  refine hx.bind ?_
  simp only [hdecorated]
  exact Evals.pure _

theorem RuleFails.body (h : ExprFails s rule.body text) : RuleFails s i text := by
  intro c hc hremaining
  obtain ⟨offset, hoffset⟩ := h none c hc hremaining
  refine ⟨offset, evals_rule hrule ?_⟩
  simp only [traceRule, hmatcher]
  exact hoffset.bind (Evals.pure _)

end Rules

end Packrat
