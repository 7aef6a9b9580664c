import Packrat.Proofs.Outcome
import Packrat.Proofs.Runs
import Packrat.Proofs.Tokens

/-!
# `Packrat.Proofs.Course` — the course of an evaluation

What a grammar does on a given text, with nothing left open: whether it takes the text, fails or raises a
fault, how many calls inside each other that needs, and that a smaller depth does not suffice. Kept results
would blur this, since one that is found again needs no depth. A grammar without left recursion finds none as
long as its calls come in an order: by offset, and at one offset by a rank of the rules.

As in `Packrat.Proofs.Reading`, there is one rule for each way to build an expression.

## Contents
- **Order.** `Memo.Before`: kept results belong to calls that come before a point of the order.
- **Courses.** `Ending`, how an attempt ends, and `Spends`, what it takes to get there.
- **Readers.** `BodyGoes` and its companions. Depth is counted from inside the rule that is being read.
- **Bodies, items, sequences, rules.** The rules of the calculus.
- **First bytes.** What `refusesExpr` refuses fails without any call.
- **Parses.** The outcome of a parse, if the course of its start rule is known.
-/

-- the linter does not see an assumption that only a companion of a mutual block uses
set_option linter.unusedSectionVars false

namespace Packrat

variable {α β γ ρ τ σ : Type}

/-! ## Order -/

/-- Every kept result belongs to a call before an offset, or at the offset to a rule of a smaller rank. -/
def Memo.Before (memo : Memo) (rank : Nat → Nat) (offset r : Nat) : Prop :=
  ∀ i o, (i, o) ∈ memo → o < offset ∨ (o = offset ∧ rank i < r)

namespace Memo.Before

variable {memo : Memo} {rank : Nat → Nat} {offset offset' r r' i : Nat}

theorem empty : Memo.Before ∅ rank offset r := fun _ _ h => absurd h Std.HashMap.not_mem_empty

/-- The same results lie before a later point. -/
theorem mono (h : memo.Before rank offset r) (hle : offset < offset' ∨ (offset = offset' ∧ r ≤ r')) :
    memo.Before rank offset' r' := by
  intro i o hmem
  have hbefore := h i o hmem
  omega

/-- The next call in the order finds nothing. -/
theorem getElem? (h : memo.Before rank offset r) (hrank : r ≤ rank i) : memo[(i, offset)]? = none := by
  refine Std.HashMap.getElem?_eq_none fun hmem => ?_
  have hbefore := h i offset hmem
  omega

/-- The result of a call is kept before every point behind the call. -/
theorem insertIfNew {result : Result} (h : memo.Before rank offset' r')
    (hle : offset < offset' ∨ (offset = offset' ∧ rank i < r')) :
    Memo.Before (memo.insertIfNew (i, offset) result) rank offset' r' := by
  intro j o hmem
  rw [Std.HashMap.mem_insertIfNew] at hmem
  cases hmem with
  | inl hkey =>
    have hkey : (i, offset) = (j, o) := eq_of_beq hkey
    cases hkey
    exact hle
  | inr hmem => exact h j o hmem

end Memo.Before

/-! ## Courses -/

/-- An evaluation on a store that it leaves as it is, inside a lookahead if it is `quiet`, with a rank for each
rule. -/
structure Course (α σ : Type) where
  scene : Scene α σ
  store : Store σ
  rank : Nat → Nat
  quiet : Bool := false

/-- How an attempt ends: with a value that satisfies `Q`, with a failure, or with a fault. Of the text, `left`
remains where the attempt stops, and the calls made there are of rules of a smaller rank than `rank`. -/
inductive Ending (β : Type) where
  | takes (left : Bytes) (rank : Nat) (Q : β → Prop)
  | fails (left : Bytes) (rank : Nat)
  | raises (f : Fault)

/-- The same ending with another statement about the value. -/
def Ending.map (F : (β → Prop) → γ → Prop) : Ending β → Ending γ
  | .takes left rank Q => .takes left rank (F Q)
  | .fails left rank => .fails left rank
  | .raises f => .raises f

namespace Course

variable (w : Course α σ)

/-- The same evaluation inside a lookahead. -/
def hushed : Course α σ := { w with quiet := true }

/-- No hook runs, and a repetition may be as long as the text. -/
structure Plain : Prop where
  onCall : ∀ call, w.scene.client.onCall call = pure ()
  reach : w.scene.reach = w.scene.input.length

/-- The offset at which a text remains. -/
def place (text : Bytes) : Nat := w.scene.input.length - text.length

/-- A cursor stands where a text remains. -/
structure Stands (c : Cursor) (text : Bytes) : Prop where
  input : c.input = w.scene.input
  remaining : c.remaining = text

/-- With a depth of at least `n`, and whatever calls before the given point are kept, `m` ends as `Q` says and
leaves the store as it is; with a smaller depth it runs out. -/
def Spends (n : Nat) (m : Nat → EvalM σ ρ) (text : Bytes) (r : Nat) (Q : Except Fault ρ → Memo → Prop) : Prop :=
  ∀ depth p, p.store = w.store → p.trail.memo.Before w.rank (w.place text) r →
    ∃ answer p', (m depth).run.run p = (answer, p') ∧
      if n ≤ depth then p'.store = w.store ∧ Q answer p'.trail.memo else answer = .error .callDepth

/-- An answer, in the words of `success` and `failure`, and the results kept by then are as an ending says. -/
def Met (success : β → Cursor → ρ) (failure : Nat → ρ) (e : Ending β) (answer : Except Fault ρ)
    (memo : Memo) : Prop :=
  match e with
  | .takes left r Q => ∃ b next, answer = .ok (success b next) ∧ w.Stands next left ∧ Q b ∧
      memo.Before w.rank (w.place left) r
  | .fails left r => ∃ offset, answer = .ok (failure offset) ∧ memo.Before w.rank (w.place left) r
  | .raises f => answer = .error f

end Course

section Courses

variable {w : Course α σ} {c next : Cursor} {text left mid t rest : Bytes} {n j r r' : Nat}

theorem Course.Stands.offset (h : w.Stands c text) : c.offset = w.place text := by
  have hlength : text.length = c.input.length - c.offset := by
    rw [← h.remaining, c.remaining_eq, List.length_drop]
  have hle := c.offset_le
  unfold Course.place
  rw [hlength, ← h.input]
  omega

theorem Course.Stands.length_le (h : w.Stands c text) : text.length ≤ w.scene.input.length := by
  rw [← h.remaining, c.remaining_eq, List.length_drop, h.input]
  omega

theorem Course.Stands.advance (h : w.Stands c (t ++ rest)) : w.Stands (c.advance t.length) rest := by
  have hpast := Cursor.Past.advance h.remaining
  exact ⟨hpast.input.trans h.input, hpast.remaining h.remaining⟩

theorem Course.Plain.hushed (hw : w.Plain) : w.hushed.Plain := ⟨hw.onCall, hw.reach⟩

/-- A shorter text remains further on. -/
theorem Course.place_lt (w : Course α σ) (htext : text.length ≤ w.scene.input.length)
    (hlt : left.length < text.length) : w.place text < w.place left := by
  unfold Course.place
  omega

section Spends

variable {m : Nat → EvalM σ ρ} {k : Nat → ρ → EvalM σ τ} {R : Except Fault τ → Memo → Prop}
  {success : β → Cursor → ρ} {failure : Nat → ρ} {Q : β → Prop} {f : Fault}

theorem Course.Spends.pure {Q : Except Fault ρ → Memo → Prop} {x : ρ}
    (h : ∀ memo : Memo, memo.Before w.rank (w.place text) r → Q (.ok x) memo) :
    w.Spends 0 (fun _ => Pure.pure x) text r Q :=
  fun _ p hstore hbefore => ⟨.ok x, p, rfl, by rw [if_pos (Nat.zero_le _)]; exact ⟨hstore, h _ hbefore⟩⟩

theorem Course.Spends.mono {Q Q' : Except Fault ρ → Memo → Prop} (h : w.Spends n m text r Q)
    (hQ : ∀ answer memo, Q answer memo → Q' answer memo) : w.Spends n m text r Q' := by
  intro depth p hstore hbefore
  obtain ⟨answer, p', hrun, hanswer⟩ := h depth p hstore hbefore
  refine ⟨answer, p', hrun, ?_⟩
  split at hanswer
  · next hn =>
    rw [if_pos hn]
    exact ⟨hanswer.1, hQ _ _ hanswer.2⟩
  · next hn =>
    rw [if_neg hn]
    exact hanswer

/-- Fewer kept results do not change the course. -/
theorem Course.Spends.earlier {Q : Except Fault ρ → Memo → Prop} (h : w.Spends n m text r' Q) (hle : r ≤ r') :
    w.Spends n m text r Q :=
  fun depth p hstore hbefore => h depth p hstore (hbefore.mono (.inr ⟨rfl, hle⟩))

/-- One evaluation after another that answers. -/
theorem Course.Spends.bind {P : ρ → Prop} {u : Bytes} {s : Nat}
    (hm : w.Spends n m text r fun answer memo =>
      ∃ x, answer = .ok x ∧ P x ∧ memo.Before w.rank (w.place u) s)
    (hk : ∀ x, P x → w.Spends j (fun d => k d x) u s R) :
    w.Spends (max n j) (fun d => m d >>= k d) text r R := by
  intro depth p hstore hbefore
  obtain ⟨answer, mid, hrun, hanswer⟩ := hm depth p hstore hbefore
  split at hanswer
  · next hn =>
    obtain ⟨hmid, x, rfl, hx, hbefore'⟩ := hanswer
    obtain ⟨answer', p', hrun', hanswer'⟩ := hk x hx depth mid hmid hbefore'
    refine ⟨answer', p', (run_bind_ok hrun).trans hrun', ?_⟩
    split at hanswer'
    · next hn' =>
      rw [if_pos (Nat.max_le.mpr ⟨hn, hn'⟩)]
      exact hanswer'
    · next hn' =>
      rw [if_neg fun hmax => hn' (Nat.le_trans (Nat.le_max_right n j) hmax)]
      exact hanswer'
  · next hn =>
    subst hanswer
    refine ⟨_, mid, run_bind_error hrun, ?_⟩
    rw [if_neg fun hmax => hn (Nat.le_trans (Nat.le_max_left n j) hmax)]

theorem Course.Spends.bind_takes (hm : w.Spends n m text r (w.Met success failure (.takes left r' Q)))
    (hk : ∀ b next, w.Stands next left → Q b → w.Spends j (fun d => k d (success b next)) left r' R) :
    w.Spends (max n j) (fun d => m d >>= k d) text r R := by
  refine Course.Spends.bind (P := fun x => ∃ b next, x = success b next ∧ w.Stands next left ∧ Q b)
    (u := left) (s := r') (hm.mono ?_) ?_
  · rintro answer memo ⟨b, next, rfl, hnext, hQ, hbefore⟩
    exact ⟨_, rfl, ⟨b, next, rfl, hnext, hQ⟩, hbefore⟩
  · rintro x ⟨b, next, rfl, hnext, hQ⟩
    exact hk b next hnext hQ

theorem Course.Spends.bind_fails (hm : w.Spends n m text r (w.Met success failure (.fails left r')))
    (hk : ∀ offset, w.Spends j (fun d => k d (failure offset)) left r' R) :
    w.Spends (max n j) (fun d => m d >>= k d) text r R := by
  refine Course.Spends.bind (P := fun x => ∃ offset, x = failure offset) (u := left) (s := r')
    (hm.mono ?_) ?_
  · rintro answer memo ⟨offset, rfl, hbefore⟩
    exact ⟨_, rfl, ⟨offset, rfl⟩, hbefore⟩
  · rintro x ⟨offset, rfl⟩
    exact hk offset

theorem Course.Spends.bind_raises (hm : w.Spends n m text r (w.Met success failure (.raises f)))
    (hR : ∀ memo, R (.error f) memo) : w.Spends n (fun d => m d >>= k d) text r R := by
  intro depth p hstore hbefore
  obtain ⟨answer, p', hrun, hanswer⟩ := hm depth p hstore hbefore
  split at hanswer
  · next hn =>
    obtain ⟨hmid, rfl⟩ := hanswer
    refine ⟨_, p', run_bind_error hrun, ?_⟩
    rw [if_pos hn]
    exact ⟨hmid, hR _⟩
  · next hn =>
    subst hanswer
    refine ⟨_, p', run_bind_error hrun, ?_⟩
    rw [if_neg hn]

end Spends

/-! ## Readers -/

variable (w : Course α σ)

/-- What an attempt at a cursor does where a text remains. -/
def Course.Goes (n : Nat) (m : Nat → Step σ) (text : Bytes) (r : Nat) (e : Ending (Spanned Value)) : Prop :=
  ∀ c, w.Stands c text → w.Spends n (fun d => m d c) text r (w.Met .success .failure e)

/-- What a rule does. -/
def RuleGoes (n i : Nat) : Bytes → Nat → Ending (Spanned Value) → Prop :=
  w.Goes n fun d => callRule w.scene d w.quiet i

/-- What a body does in any sequence at work. -/
def BodyGoes (n : Nat) (body : Body α) (text : Bytes) (r : Nat) (e : Ending (Spanned Value)) : Prop :=
  ∀ frame, w.Goes n (fun d => evalBody w.scene (callRule w.scene d) w.quiet frame body) text r e

/-- What an item does in any sequence at work. -/
def ItemGoes (n : Nat) (item : Item (Body α)) (text : Bytes) (r : Nat) (e : Ending (Spanned Value)) : Prop :=
  ∀ frame, w.Goes n (fun d => evalItem w.scene (callRule w.scene d) w.quiet frame item) text r e

/-- What items do one after the other, from given slots and a given last value. -/
def ItemsGo (n : Nat) (items : List (Item (Body α))) (slots : List (Spanned Value)) (last : Spanned Value)
    (text : Bytes) (r : Nat) (e : Ending (List (Spanned Value) × Spanned Value)) : Prop :=
  ∀ layout start c, w.Stands c text → w.Spends n
    (fun d => evalItems w.scene (callRule w.scene d) w.quiet layout start items slots last c) text r
    (w.Met (fun x next => .success x.1 x.2 next) .failure e)

/-- What a sequence does. -/
def SequenceGoes (n : Nat) (seq : Sequence α (Body α)) : Bytes → Nat → Ending (Spanned Value) → Prop :=
  w.Goes n fun d => evalSequence w.scene (callRule w.scene d) w.quiet seq

/-- What an expression does, whatever has been tried before. -/
def ExprGoes (n : Nat) (e : Expr α) (text : Bytes) (r : Nat) (ending : Ending (Spanned Value)) : Prop :=
  ∀ earliest, w.Goes n (fun d => evalExpr w.scene (callRule w.scene d) w.quiet e earliest) text r ending

/-- What a repetition of a body does. It does not fail, so what stands for a failure does not matter. -/
def LoopGoes (n : Nat) (body : Body α) (text : Bytes) (r : Nat) (e : Ending (List (Spanned Value))) : Prop :=
  ∀ frame fuel collected c, w.Stands c text → text.length < fuel → w.Spends n
    (fun d => collect (evalBody w.scene (callRule w.scene d) w.quiet frame body) fuel collected c) text r
    (w.Met (fun xs next => (collected.reverse ++ xs, next)) (fun _ => ([], Cursor.ofText [] 0)) e)

/-- What a host expression gives. -/
def HostGives (frame : Frame) (stop : Nat) (node : HostNode α) (answer : Except Fault Value) : Prop :=
  ∀ p, p.store = w.store → (evalHost w.scene frame stop node).run.run p = (answer, p)

variable {w}
variable {e : Ending (Spanned Value)} {Q : Spanned Value → Prop} {f : Fault}

theorem Course.Met.weaken {success : β → Cursor → ρ} {failure : Nat → ρ} {P P' : β → Prop}
    {answer : Except Fault ρ} {memo : Memo} (h : w.Met success failure (.takes left r P) answer memo)
    (hr : r ≤ r') (hP : ∀ b, P b → P' b) : w.Met success failure (.takes left r' P') answer memo := by
  obtain ⟨b, next, hanswer, hnext, hb, hbefore⟩ := h
  exact ⟨b, next, hanswer, hnext, hP b hb, hbefore.mono (.inr ⟨rfl, hr⟩)⟩

theorem Course.Goes.weaken {m : Nat → Step σ} {k : Nat} {Q' : Spanned Value → Prop}
    (h : w.Goes n m text r (.takes left r' Q)) (hk : r' ≤ k) (hQ : ∀ x, Q x → Q' x) :
    w.Goes n m text r (.takes left k Q') :=
  fun c hc => (h c hc).mono fun _ _ hmet => hmet.weaken hk hQ

/-! ## Bodies -/

/-- A terminal takes the text that it matches. -/
theorem BodyGoes.terminal_takes {body : Body α} (hterminal : body.isTerminal = true) (ht : t ≠ [])
    (htaken : body.taken? (t ++ rest) = some t.length)
    (hQ : Q ⟨.text t, w.place (t ++ rest), w.place rest⟩) :
    BodyGoes w 0 body (t ++ rest) r (.takes rest 0 Q) := by
  intro frame c hc
  have hnext := hc.advance
  have hmoved : w.place (t ++ rest) < w.place rest := by
    refine w.place_lt hc.length_le ?_
    have hpos : 0 < t.length := List.length_pos_iff.mpr ht
    rw [List.length_append]
    omega
  have hterm : ∀ label, w.Spends 0 (fun _ => terminal w.quiet c label (body.taken? c.remaining)) (t ++ rest) r
      (w.Met .success .failure (.takes rest 0 Q)) := by
    intro label
    rw [hc.remaining, htaken]
    refine Course.Spends.pure fun memo hbefore => ⟨_, _, rfl, hnext, ?_, hbefore.mono (.inl hmoved)⟩
    rw [hc.remaining, List.take_left, hc.offset, hnext.offset]
    exact hQ
  cases body with
  | literal spelling caseless braceSensitive => exact hterm (labelOf (betweenQuotes spelling) caseless)
  | cls cls => exact hterm (labelOf cls.spelling cls.caseless)
  | any => exact hterm (Bytes.ascii "any character")
  | _ => cases hterminal

/-- Noting a failure goes on as if nothing had happened. -/
theorem spends_noteFailure {quiet : Bool} {offset : Nat} {label : Bytes} {x : ρ}
    {R : Except Fault ρ → Memo → Prop} (hR : ∀ memo : Memo, memo.Before w.rank (w.place text) r → R (.ok x) memo) :
    w.Spends 0 (fun _ => noteFailure quiet offset label >>= fun _ => Pure.pure x) text r R := by
  intro depth p hstore hbefore
  cases quiet with
  | true =>
    refine ⟨.ok x, p, rfl, ?_⟩
    rw [if_pos (Nat.zero_le _)]
    exact ⟨hstore, hR _ hbefore⟩
  | false =>
    refine ⟨.ok x, { p with trail := p.trail.note offset label }, rfl, ?_⟩
    rw [if_pos (Nat.zero_le _)]
    refine ⟨hstore, ?_⟩
    rw [Trail.memo_note]
    exact hR _ hbefore

theorem BodyGoes.terminal_fails {body : Body α} (hterminal : body.isTerminal = true)
    (htaken : body.taken? text = none) : BodyGoes w 0 body text r (.fails text r) := by
  intro frame c hc
  have hterm : ∀ label, w.Spends 0 (fun _ => terminal w.quiet c label (body.taken? c.remaining)) text r
      (w.Met .success .failure (.fails text r)) := by
    intro label
    rw [hc.remaining, htaken]
    exact spends_noteFailure fun memo hbefore => ⟨_, rfl, hbefore⟩
  cases body with
  | literal spelling caseless braceSensitive => exact hterm (labelOf (betweenQuotes spelling) caseless)
  | cls cls => exact hterm (labelOf cls.spelling cls.caseless)
  | any => exact hterm (Bytes.ascii "any character")
  | _ => cases hterminal

theorem BodyGoes.call {name : Bytes} {i : Nat} {rule : Rule α} (hrule : w.scene.grammar.rules[i]? = some rule)
    (h : RuleGoes w n i text r e) : BodyGoes w n (.call name false (some i)) text r e := by
  intro frame c hc
  have hcall := h c hc
  show w.Spends n (fun d => callRule w.scene d w.quiet i c >>= _) text r _
  cases e with
  | takes left r' Q =>
    rw [← Nat.max_zero n]
    refine hcall.bind_takes fun x next hnext hQ => ?_
    simp only [hrule]
    exact Course.Spends.pure fun memo hbefore => ⟨x, next, rfl, hnext, hQ, hbefore⟩
  | fails left r' =>
    rw [← Nat.max_zero n]
    refine hcall.bind_fails fun offset => ?_
    exact Course.Spends.pure fun memo hbefore => ⟨offset, rfl, hbefore⟩
  | raises f => exact hcall.bind_raises fun _ => rfl

theorem BodyGoes.group {alternatives : Expr α} (h : ExprGoes w n alternatives text r e) :
    BodyGoes w n (.group alternatives) text r e :=
  fun _ => h none

/-! ## Items -/

section Items

variable {name : Option Bytes} {autobind : Bool} {body : Body α} {slot : Option Nat} {position : Position}

/-- An item without a lookahead ends as its repetition does. -/
theorem goes_item {frame : Frame} {repetition : Repetition} {c : Cursor}
    (h : w.Spends n (fun d => repeated w.scene.reach repetition
      (evalBody w.scene (callRule w.scene d) w.quiet frame body) c) text r (w.Met .success .failure e)) :
    w.Spends n (fun d => evalItem w.scene (callRule w.scene d) w.quiet frame
      ⟨name, autobind, .none, body, repetition, slot, position⟩ c) text r (w.Met .success .failure e) := by
  have hquiet : (w.quiet || decide (Lookahead.none ≠ Lookahead.none)) = w.quiet := Bool.or_false _
  simp only [evalItem, lookaround, hquiet]
  cases e with
  | takes left r' Q =>
    rw [← Nat.max_zero n]
    refine h.bind_takes fun x next hnext hQ => ?_
    exact Course.Spends.pure fun memo hbefore => ⟨x, next, rfl, hnext, hQ, hbefore⟩
  | fails left r' =>
    rw [← Nat.max_zero n]
    refine h.bind_fails fun offset => ?_
    exact Course.Spends.pure fun memo hbefore => ⟨_, rfl, hbefore⟩
  | raises f => exact h.bind_raises fun _ => rfl

theorem ItemGoes.once (h : BodyGoes w n body text r e) :
    ItemGoes w n ⟨name, autobind, .none, body, .once, slot, position⟩ text r e :=
  fun frame c hc => goes_item (h frame c hc)

theorem ItemGoes.present (h : BodyGoes w n body text r (.takes left r' Q)) :
    ItemGoes w n ⟨name, autobind, .none, body, .optional, slot, position⟩ text r
      (.takes left r' fun x => ∃ y, x = ⟨.option (some y), w.place text, w.place left⟩ ∧ Q y) := by
  intro frame c hc
  refine goes_item ?_
  rw [← Nat.max_zero n]
  refine (h frame c hc).bind_takes fun x next hnext hQ => ?_
  refine Course.Spends.pure fun memo hbefore => ⟨_, next, rfl, hnext, ?_, hbefore⟩
  rw [hc.offset, hnext.offset]
  exact ⟨x, rfl, hQ⟩

theorem ItemGoes.absent (h : BodyGoes w n body text r (.fails text r')) :
    ItemGoes w n ⟨name, autobind, .none, body, .optional, slot, position⟩ text r
      (.takes text r' fun x => x.value = .option none) := by
  intro frame c hc
  refine goes_item ?_
  rw [← Nat.max_zero n]
  refine (h frame c hc).bind_fails fun offset => ?_
  exact Course.Spends.pure fun memo hbefore => ⟨_, c, rfl, hc, rfl, hbefore⟩

/-- A test for something that does not stand here. -/
theorem ItemGoes.notAhead (h : BodyGoes w.hushed n body text r (.fails text r')) :
    ItemGoes w n ⟨name, autobind, .notAhead, body, .once, slot, position⟩ text r
      (.takes text r' fun _ => True) := by
  intro frame c hc
  have hquiet : (w.quiet || decide (Lookahead.notAhead ≠ Lookahead.none)) = true := Bool.or_true _
  simp only [evalItem, lookaround, hquiet]
  have hbody : w.Spends n (fun d => evalBody w.scene (callRule w.scene d) true frame body c) text r
      (w.Met .success .failure (.fails text r')) := h frame c ⟨hc.input, hc.remaining⟩
  rw [← Nat.max_zero n]
  refine hbody.bind_fails fun offset => ?_
  exact Course.Spends.pure fun memo hbefore => ⟨_, c, rfl, hc, trivial, hbefore⟩

/-- A repetition stops where its body fails. -/
theorem LoopGoes.stop (h : BodyGoes w n body text r (.fails text r')) :
    LoopGoes w n body text r (.takes text r' (· = [])) := by
  intro frame fuel collected c hc hfuel
  obtain ⟨fuel, rfl⟩ : ∃ k, fuel = k + 1 := ⟨fuel - 1, by omega⟩
  simp only [collect]
  rw [← Nat.max_zero n]
  refine (h frame c hc).bind_fails fun offset => ?_
  refine Course.Spends.pure fun memo hbefore => ⟨[], c, ?_, hc, rfl, hbefore⟩
  simp only [List.append_nil]

theorem LoopGoes.stuck (h : BodyGoes w n body text r (.raises f)) :
    LoopGoes w n body text r (.raises f) := by
  intro frame fuel collected c hc hfuel
  obtain ⟨fuel, rfl⟩ : ∃ k, fuel = k + 1 := ⟨fuel - 1, by omega⟩
  simp only [collect]
  exact (h frame c hc).bind_raises fun _ => rfl

/-- A value is the first element of a list whose other elements satisfy a predicate. -/
def Leads (Q : Spanned Value → Prop) (R : List (Spanned Value) → Prop) (xs : List (Spanned Value)) : Prop :=
  ∃ x rest, xs = x :: rest ∧ Q x ∧ R rest

/-- A repetition goes on behind what its body takes. -/
theorem LoopGoes.more {loop : Ending (List (Spanned Value))} (hlt : mid.length < text.length)
    (h : BodyGoes w n body text r (.takes mid r' Q)) (hmore : LoopGoes w j body mid r' loop) :
    LoopGoes w (max n j) body text r (loop.map (Leads Q)) := by
  intro frame fuel collected c hc hfuel
  obtain ⟨fuel, rfl⟩ : ∃ k, fuel = k + 1 := ⟨fuel - 1, by omega⟩
  simp only [collect]
  refine (h frame c hc).bind_takes fun x next hnext hQ => ?_
  have hmoved : next.offset ≠ c.offset := by
    have hplace : w.place text < w.place mid := w.place_lt hc.length_le hlt
    rw [hc.offset, hnext.offset]
    omega
  simp only [if_neg hmoved]
  refine (hmore frame fuel (x :: collected) next hnext (by omega)).mono fun answer memo hmet => ?_
  cases loop with
  | takes left r'' R =>
    obtain ⟨xs, last, rfl, hlast, hR, hbefore⟩ := hmet
    refine ⟨x :: xs, last, ?_, hlast, ⟨x, xs, rfl, hQ, hR⟩, hbefore⟩
    simp only [List.reverse_cons, List.append_assoc, List.cons_append, List.nil_append]
  | fails left r'' => exact hmet
  | raises f => exact hmet

theorem LoopGoes.weaken {R R' : List (Spanned Value) → Prop} (h : LoopGoes w n body text r (.takes left r' R))
    (hR : ∀ xs, R xs → R' xs) : LoopGoes w n body text r (.takes left r' R') :=
  fun frame fuel collected c hc hfuel =>
    (h frame fuel collected c hc hfuel).mono fun _ _ hmet => hmet.weaken (Nat.le_refl _) hR

/-- A value is the list of some elements. -/
def Lists (R : List (Spanned Value) → Prop) (x : Spanned Value) : Prop := ∃ xs, x.value = .list xs ∧ R xs

/-- The fuel of a repetition exceeds the text that remains. -/
theorem Course.Plain.lt_fuel (hw : w.Plain) {c : Cursor} (hc : w.Stands c text) :
    text.length < w.scene.reach + 1 := by
  have hle := hc.length_le
  rw [hw.reach]
  omega

theorem ItemGoes.star (hw : w.Plain) {R : List (Spanned Value) → Prop}
    (h : LoopGoes w n body text r (.takes left r' R)) :
    ItemGoes w n ⟨name, autobind, .none, body, .star, slot, position⟩ text r (.takes left r' (Lists R)) := by
  intro frame c hc
  refine goes_item ?_
  rw [← Nat.max_zero n]
  refine (h frame (w.scene.reach + 1) [] c hc (hw.lt_fuel hc)).bind_takes fun xs next hnext hR => ?_
  exact Course.Spends.pure fun memo hbefore => ⟨_, next, rfl, hnext, ⟨xs, rfl, hR⟩, hbefore⟩

theorem ItemGoes.star_raises (hw : w.Plain) (h : LoopGoes w n body text r (.raises f)) :
    ItemGoes w n ⟨name, autobind, .none, body, .star, slot, position⟩ text r (.raises f) := by
  intro frame c hc
  refine goes_item ?_
  exact (h frame (w.scene.reach + 1) [] c hc (hw.lt_fuel hc)).bind_raises fun _ => rfl

theorem ItemGoes.plus (hw : w.Plain) {R : List (Spanned Value) → Prop} {k : Nat}
    (h : BodyGoes w n body text r (.takes mid r' Q))
    (hmore : LoopGoes w j body mid r' (.takes left k R)) :
    ItemGoes w (max n j) ⟨name, autobind, .none, body, .plus, slot, position⟩ text r
      (.takes left k (Lists (Leads Q R))) := by
  intro frame c hc
  refine goes_item ?_
  refine (h frame c hc).bind_takes fun x next hnext hQ => ?_
  rw [← Nat.max_zero j]
  refine (hmore frame (w.scene.reach + 1) [x] next hnext (hw.lt_fuel hnext)).bind_takes
    fun xs last hlast hR => ?_
  exact Course.Spends.pure fun memo hbefore => ⟨_, last, rfl, hlast, ⟨x :: xs, rfl, x, xs, rfl, hQ, hR⟩, hbefore⟩

theorem ItemGoes.plus_fails (h : BodyGoes w n body text r (.fails text r')) :
    ItemGoes w n ⟨name, autobind, .none, body, .plus, slot, position⟩ text r (.fails text r') := by
  intro frame c hc
  refine goes_item ?_
  rw [← Nat.max_zero n]
  refine (h frame c hc).bind_fails fun offset => ?_
  exact Course.Spends.pure fun memo hbefore => ⟨_, rfl, hbefore⟩

end Items

/-! ## Sequences -/

section Sequences

variable {item : Item (Body α)} {items : List (Item (Body α))} {slots : List (Spanned Value)}
  {last : Spanned Value} {layout : List Bytes} {position : Position}
  {end_ : Ending (List (Spanned Value) × Spanned Value)}
  {R : List (Spanned Value) × Spanned Value → Prop}

/-- Behind the last item, more calls may be counted than have been made. -/
theorem ItemsGo.nil (hr : r ≤ r') (hR : R (slots, last)) :
    ItemsGo w 0 [] slots last text r (.takes text r' R) := by
  intro layout start c hc
  simp only [evalItems]
  exact Course.Spends.pure fun memo hbefore => ⟨(slots, last), c, rfl, hc, hR, hbefore.mono (.inr ⟨rfl, hr⟩)⟩

theorem ItemsGo.cons (hitem : ItemGoes w n item text r (.takes mid r' Q))
    (hitems : ∀ x, Q x → ItemsGo w j items (item.fill slots x) x mid r' end_) :
    ItemsGo w (max n j) (item :: items) slots last text r end_ := by
  intro layout start c hc
  simp only [evalItems]
  refine (hitem ⟨slots, layout, start⟩ c hc).bind_takes fun x next hnext hQ => ?_
  exact hitems x hQ layout start next hnext

theorem ItemsGo.fails (hitem : ItemGoes w n item text r (.fails left r')) :
    ItemsGo w n (item :: items) slots last text r (.fails left r') := by
  intro layout start c hc
  simp only [evalItems]
  rw [← Nat.max_zero n]
  refine (hitem ⟨slots, layout, start⟩ c hc).bind_fails fun offset => ?_
  exact Course.Spends.pure fun memo hbefore => ⟨_, rfl, hbefore⟩

theorem ItemsGo.raises (hitem : ItemGoes w n item text r (.raises f)) :
    ItemsGo w n (item :: items) slots last text r (.raises f) := by
  intro layout start c hc
  simp only [evalItems]
  exact (hitem ⟨slots, layout, start⟩ c hc).bind_raises fun _ => rfl

/-- What does not hang on the value of a sequence: its items fail or raise a fault. -/
theorem SequenceGoes.fails {action : Option (Host α)}
    (h : ItemsGo w n items (List.replicate layout.length default) default text r (.fails left r')) :
    SequenceGoes w n ⟨items, action, layout, position⟩ text r (.fails left r') := by
  intro c hc
  simp only [evalSequence]
  rw [← Nat.max_zero n]
  refine (h layout c.offset c hc).bind_fails fun offset => ?_
  exact Course.Spends.pure fun memo hbefore => ⟨_, rfl, hbefore⟩

theorem SequenceGoes.raises {action : Option (Host α)}
    (h : ItemsGo w n items (List.replicate layout.length default) default text r (.raises f)) :
    SequenceGoes w n ⟨items, action, layout, position⟩ text r (.raises f) := by
  intro c hc
  simp only [evalSequence]
  exact (h layout c.offset c hc).bind_raises fun _ => rfl

/-- A sequence yields the value of its action, spanning what it takes. -/
theorem SequenceGoes.acts {node : HostNode α} {p : Position}
    (h : ItemsGo w n items (List.replicate layout.length default) default text r (.takes left r' R))
    (hvalue : ∀ x, R x → ∃ v, HostGives w ⟨x.1, layout, w.place text⟩ (w.place left) node (.ok v) ∧
      Q ⟨v, w.place text, w.place left⟩) :
    SequenceGoes w n ⟨items, some ⟨node, p⟩, layout, position⟩ text r (.takes left r' Q) := by
  intro c hc
  simp only [evalSequence]
  rw [← Nat.max_zero n]
  refine (h layout c.offset c hc).bind_takes fun x next hnext hR => ?_
  obtain ⟨v, hv, hQ⟩ := hvalue x hR
  simp only [sequenceValue, bind_assoc, pure_bind, hc.offset, hnext.offset]
  intro depth p hstore hbefore
  refine ⟨_, p, run_bind_ok (hv p hstore), ?_⟩
  rw [if_pos (Nat.zero_le _)]
  exact ⟨hstore, _, next, rfl, hnext, hQ, hbefore⟩

/-- The action of a sequence raises a fault. -/
theorem SequenceGoes.acts_raises {node : HostNode α} {p : Position}
    (h : ItemsGo w n items (List.replicate layout.length default) default text r (.takes left r' R))
    (hvalue : ∀ x, R x → HostGives w ⟨x.1, layout, w.place text⟩ (w.place left) node (.error f)) :
    SequenceGoes w n ⟨items, some ⟨node, p⟩, layout, position⟩ text r (.raises f) := by
  intro c hc
  simp only [evalSequence]
  rw [← Nat.max_zero n]
  refine (h layout c.offset c hc).bind_takes fun x next hnext hR => ?_
  have hf := hvalue x hR
  simp only [sequenceValue, bind_assoc, pure_bind, hc.offset, hnext.offset]
  intro depth p hstore hbefore
  refine ⟨_, p, run_bind_error (hf p hstore), ?_⟩
  rw [if_pos (Nat.zero_le _)]
  exact ⟨hstore, rfl⟩

/-- A sequence of one call or group passes its value on. -/
theorem SequenceGoes.passed (hpasses : passesOn [item] = true) (h : ItemGoes w n item text r (.takes left r' Q)) :
    SequenceGoes w n ⟨[item], none, [], position⟩ text r (.takes left r' Q) := by
  have hitems : ItemsGo w n [item] [] default text r (.takes left r' fun x => Q x.2) := by
    rw [← Nat.max_zero n]
    exact ItemsGo.cons h fun x hx => ItemsGo.nil (Nat.le_refl _) hx
  intro c hc
  simp only [evalSequence]
  rw [← Nat.max_zero n]
  refine (hitems [] c.offset c hc).bind_takes fun x next hnext hQ => ?_
  simp only [sequenceValue, List.isEmpty_nil, Bool.not_true, Bool.false_eq_true, if_false, hpasses, if_true,
    pure_bind]
  exact Course.Spends.pure fun memo hbefore => ⟨_, next, rfl, hnext, hQ, hbefore⟩

/-- Any other sequence without names makes the text that it takes. -/
theorem SequenceGoes.matched (hpasses : passesOn items = false)
    (h : ItemsGo w n items [] default (t ++ rest) r (.takes rest r' R))
    (hQ : Q ⟨.text t, w.place (t ++ rest), w.place rest⟩) :
    SequenceGoes w n ⟨items, none, [], position⟩ (t ++ rest) r (.takes rest r' Q) := by
  intro c hc
  simp only [evalSequence]
  rw [← Nat.max_zero n]
  refine (h [] c.offset c hc).bind_takes fun x next hnext _ => ?_
  have hlength := hc.length_le
  rw [List.length_append] at hlength
  have hpast : c.Past t next := by
    refine ⟨hnext.input.trans hc.input.symm, ?_⟩
    rw [hnext.offset, hc.offset]
    unfold Course.place
    rw [List.length_append]
    omega
  simp only [sequenceValue, List.isEmpty_nil, Bool.not_true, Bool.false_eq_true, if_false, hpasses, pure_bind,
    hpast.textFrom hc.remaining]
  refine Course.Spends.pure fun memo hbefore => ⟨_, next, rfl, hnext, ?_, hbefore⟩
  rw [hc.offset, hnext.offset]
  exact hQ

variable {seq : Sequence α (Body α)} {alternatives : Expr α}

/-- Behind the last alternative, more calls may be counted than have been made. -/
theorem ExprGoes.nil (hr : r ≤ r') : ExprGoes w 0 [] text r (.fails text r') := by
  intro earliest c hc
  simp only [evalExpr]
  exact Course.Spends.pure fun memo hbefore => ⟨_, rfl, hbefore.mono (.inr ⟨rfl, hr⟩)⟩

theorem ExprGoes.first (h : SequenceGoes w n seq text r (.takes left r' Q)) :
    ExprGoes w n (seq :: alternatives) text r (.takes left r' Q) := by
  intro earliest c hc
  simp only [evalExpr]
  rw [← Nat.max_zero n]
  refine (h c hc).bind_takes fun x next hnext hQ => ?_
  exact Course.Spends.pure fun memo hbefore => ⟨x, next, rfl, hnext, hQ, hbefore⟩

theorem ExprGoes.raises (h : SequenceGoes w n seq text r (.raises f)) :
    ExprGoes w n (seq :: alternatives) text r (.raises f) := by
  intro earliest c hc
  simp only [evalExpr]
  exact (h c hc).bind_raises fun _ => rfl

/-- A later alternative is tried where an earlier one fails without leaving the place. -/
theorem ExprGoes.later (hfirst : SequenceGoes w n seq text r (.fails text r'))
    (h : ExprGoes w j alternatives text r' e) : ExprGoes w (max n j) (seq :: alternatives) text r e := by
  intro earliest c hc
  simp only [evalExpr]
  exact (hfirst c hc).bind_fails fun offset => h _ c hc

end Sequences

/-! ## Rules -/

/-- How far the calls of an ending are at least: behind the call of a rule of a given rank on a text. -/
def Ending.Behind (text : Bytes) (rank : Nat) : Ending β → Prop
  | .takes left r _ => left.length < text.length ∨ (left = text ∧ rank < r)
  | .fails left r => left.length < text.length ∨ (left = text ∧ rank < r)
  | .raises _ => True

/-- The results kept by then still lie before the end of a call when that of the call itself is added. -/
theorem Course.Met.keep {success : β → Cursor → ρ} {failure : Nat → ρ} {i : Nat} {ending : Ending β}
    {answer : Except Fault ρ} {memo : Memo} {result : Result} (htext : text.length ≤ w.scene.input.length)
    (hbehind : ending.Behind text (w.rank i)) (h : w.Met success failure ending answer memo) :
    w.Met success failure ending answer (memo.insertIfNew (i, w.place text) result) := by
  have hadd : ∀ {left r'}, left.length < text.length ∨ (left = text ∧ w.rank i < r') →
      memo.Before w.rank (w.place left) r' →
      Memo.Before (memo.insertIfNew (i, w.place text) result) w.rank (w.place left) r' := by
    intro left r' hleft hbefore
    refine hbefore.insertIfNew ?_
    cases hleft with
    | inl hlt => exact .inl (w.place_lt htext hlt)
    | inr hsame => exact .inr ⟨by rw [hsame.1], hsame.2⟩
  cases ending with
  | takes left r' Q =>
    obtain ⟨b, next, hanswer, hnext, hQ, hbefore⟩ := h
    exact ⟨b, next, hanswer, hnext, hQ, hadd hbehind hbefore⟩
  | fails left r' =>
    obtain ⟨offset, hanswer, hbefore⟩ := h
    exact ⟨offset, hanswer, hadd hbehind hbefore⟩
  | raises f => exact h

/-- A rule without a tag is evaluated as its expression. -/
theorem evalRule_goes {rule : Rule α} (hmatcher : rule.matcher = none) (hdecorated : rule.decorated = false)
    (h : ExprGoes w n rule.body text r e) :
    w.Goes n (fun d => evalRule w.scene (callRule w.scene d) w.quiet rule) text r e := by
  intro c hc
  simp only [evalRule, hmatcher]
  have hbody := h none c hc
  cases e with
  | takes left r' Q =>
    rw [← Nat.max_zero n]
    refine hbody.bind_takes fun x next hnext hQ => ?_
    simp only [hdecorated]
    exact Course.Spends.pure fun memo hbefore => ⟨x, next, rfl, hnext, hQ, hbefore⟩
  | fails left r' =>
    rw [← Nat.max_zero n]
    refine hbody.bind_fails fun offset => ?_
    exact Course.Spends.pure fun memo hbefore => ⟨offset, rfl, hbefore⟩
  | raises f => exact hbody.bind_raises fun _ => rfl

/-- A rule ends as its expression does, one level deeper. The order of the calls shows that no result of the
rule is kept yet. -/
theorem RuleGoes.body {i : Nat} {rule : Rule α} (hw : w.Plain) (hrule : w.scene.grammar.rules[i]? = some rule)
    (hmatcher : rule.matcher = none) (hdecorated : rule.decorated = false) (hrank : r ≤ w.rank i)
    (hbehind : e.Behind text (w.rank i)) (h : ExprGoes w n rule.body text (w.rank i) e) :
    RuleGoes w (n + 1) i text r e := by
  intro c hc depth p hstore hbefore
  have hlookup : (kept? w.scene i c.offset).run.run p = (.ok none, p) := by
    rw [run_kept?, hc.offset, hbefore.getElem? hrank, ite_self]
  have hhook : ∀ {ρ : Type} (k : Unit → EvalM σ ρ),
      (onUser (w.scene.client.onCall ⟨rule.name, c.offset, w.quiet⟩) >>= k).run.run p = (k ()).run.run p := by
    intro ρ k
    rw [hw.onCall]
    rfl
  -- nothing is kept of the rule here, and the hook does nothing: what remains is its expression
  cases depth with
  | zero =>
    refine ⟨.error .callDepth, p, ?_, rfl⟩
    simp only [callRule, hrule]
    exact (run_bind_ok hlookup).trans (hhook _)
  | succ depth =>
    have hbody := evalRule_goes hmatcher hdecorated h c hc
    obtain ⟨answer, p', hrun, hanswer⟩ := hbody depth p hstore (hbefore.mono (.inr ⟨rfl, hrank⟩))
    have hstart : (callRule w.scene (depth + 1) w.quiet i c).run.run p =
        (evalRule w.scene (callRule w.scene depth) w.quiet rule c >>= fun r =>
          keep w.scene w.quiet i c.offset r >>= fun _ => Pure.pure r).run.run p := by
      simp only [callRule, hrule]
      exact (run_bind_ok hlookup).trans (hhook _)
    rw [hstart]
    cases answer with
    | error f =>
      refine ⟨.error f, p', run_bind_error hrun, ?_⟩
      split at hanswer
      · next hn =>
        rw [if_pos (Nat.succ_le_succ hn)]
        refine ⟨hanswer.1, ?_⟩
        cases e with
        | takes left r' Q => exact hanswer.2
        | fails left r' => exact hanswer.2
        | raises f' => exact hanswer.2
      · next hn =>
        rw [if_neg fun hle => hn (Nat.le_of_succ_le_succ hle)]
        exact hanswer
    | ok result =>
      rw [run_bind_ok hrun, run_keep]
      split at hanswer
      · next hn =>
        refine ⟨.ok result, _, rfl, ?_⟩
        rw [if_pos (Nat.succ_le_succ hn)]
        split
        · refine ⟨hanswer.1, ?_⟩
          rw [hc.offset]
          -- what is called next comes behind this call, and so is still not kept
          exact Course.Met.keep hc.length_le hbehind hanswer.2
        · exact hanswer
      · cases hanswer

/-! ## Host expressions -/

section Hosts

variable {frame : Frame} {stop : Nat} {args : List (Host α)} {fields : List Field} {p : Position}

theorem HostGives.ref {name : Bytes} {i : Nat} {x : Spanned Value} (hx : frame.slots[i]? = some x) :
    HostGives w frame stop (.ref name (some i)) (.ok x.value) := by
  intro p _
  simp only [evalHost, Frame.read, Option.bind_some, hx]
  rfl

theorem HostGives.native {a : α} {answer : Except Fault Value}
    (hact : (w.scene.client.act a ⟨frame.slots, frame.layout, w.scene.input, frame.start, stop,
      w.scene.settings, w.scene.parsing⟩).run.run w.store = (answer, w.store)) :
    HostGives w frame stop (.native a) answer := by
  intro p hstore
  rw [← hstore] at hact
  simp only [evalHost, run_onStore, hact]

variable (w) in
/-- What the arguments of a call give. -/
def ArgsGive (frame : Frame) (stop : Nat) (args : List (Host α)) (fields : List Field) : Prop :=
  ∀ p, p.store = w.store → (evalArgs w.scene frame stop args).run.run p = (.ok fields, p)

theorem ArgsGive.nil : ArgsGive w frame stop [] [] := fun _ _ => rfl

theorem ArgsGive.ref {name : Bytes} {i : Nat} {x : Spanned Value} (hx : frame.slots[i]? = some x)
    (h : ArgsGive w frame stop args fields) :
    ArgsGive w frame stop (⟨.ref name (some i), p⟩ :: args) ((name, x) :: fields) := by
  intro q hstore
  simp only [evalArgs, Frame.read, Option.bind_some, hx, pure_bind]
  exact run_bind_ok (h q hstore)

/-- An argument that is no name spans what the sequence has matched. -/
theorem ArgsGive.call {name : Bytes} {inner : List (Host α)} {constructs : Bool} {action : Option Nat} {v : Value}
    (hv : HostGives w frame stop (.call name inner constructs action) (.ok v))
    (h : ArgsGive w frame stop args fields) :
    ArgsGive w frame stop (⟨.call name inner constructs action, p⟩ :: args)
      (([], ⟨v, frame.start, stop⟩) :: fields) := by
  intro q hstore
  simp only [evalArgs]
  exact (run_bind_ok (hv q hstore)).trans (run_bind_ok (h q hstore))

theorem HostGives.constructs {name : Bytes} {action : Option Nat} (h : ArgsGive w frame stop args fields) :
    HostGives w frame stop (.call name args true action) (.ok (.node name fields)) := by
  intro q hstore
  simp only [evalHost]
  exact run_bind_ok (h q hstore)

theorem HostGives.calls {name label : Bytes} {i : Nat} {named : NamedAction α} {answer : Except Fault Value}
    (h : ArgsGive w frame stop args fields) (hnamed : w.scene.grammar.actions[i]? = some (label, named))
    (hrun : (w.scene.client.run named ⟨fields.map (·.2), fields.map (·.1), w.scene.input, frame.start, stop,
      w.scene.settings, w.scene.parsing⟩).run.run w.store = (answer, w.store)) :
    HostGives w frame stop (.call name args false (some i)) answer := by
  intro q hstore
  simp only [evalHost]
  refine (run_bind_ok (h q hstore)).trans ?_
  rw [← hstore] at hrun
  simp only [Bool.false_eq_true, if_false, Option.bind_some, hnamed, run_onStore, hrun]

/-- A call of an action that every grammar knows and that looks at its arguments only. -/
theorem HostGives.builtin {name label : Bytes} {i : Nat} {b : Builtin} {answer : Except Fault Value}
    (h : ArgsGive w frame stop args fields) (hnamed : w.scene.grammar.actions[i]? = some (label, .builtin b))
    (hrun : ∀ ctx : Context, ctx.args = fields.map (·.2) → b.run ctx = answer) :
    HostGives w frame stop (.call name args false (some i)) answer := by
  have hlift : ∀ ctx : Context, ctx.args = fields.map (·.2) →
      (w.scene.client.run (.builtin b) ctx).run.run w.store = (answer, w.store) := by
    intro ctx hctx
    rw [← hrun ctx hctx]
    rfl
  exact HostGives.calls h hnamed (hlift _ rfl)

end Hosts

/-! ## First bytes -/

section Refusals

variable {front : Option Rune} (hfront : Front front text)

include hfront

mutual

theorem refusesBody_goes : ∀ (body : Body α) {w : Course α σ}, w.Plain →
    refusesBody (fun _ => false) front body = true → BodyGoes w 0 body text r (.fails text r)
  | .call name decorated target, _, _, h => by
    unfold refusesBody at h
    simp at h
  | .group alternatives, _, hw, h => BodyGoes.group (refusesExpr_goes alternatives hw h)
  | .literal spelling caseless braceSensitive, _, _, h =>
    BodyGoes.terminal_fails rfl (Body.taken?_of_bars hfront h)
  | .cls k, _, _, h => BodyGoes.terminal_fails rfl (Body.taken?_of_bars hfront h)
  | .any, _, _, h => BodyGoes.terminal_fails rfl (Body.taken?_of_bars hfront h)
  | .code _, _, _, h => nomatch h
  | .interpolated _ _, _, _, h => nomatch h
termination_by structural body => body

/-- An expression that is refused without looking at other rules fails without calling any. -/
theorem refusesExpr_goes : ∀ (alternatives : List (Sequence α (Body α))) {w : Course α σ}, w.Plain →
    refusesExpr (fun _ => false) front alternatives = true → ExprGoes w 0 alternatives text r (.fails text r)
  | [], _, _, _ => ExprGoes.nil (Nat.le_refl _)
  | seq :: rest, _, hw, h => by
    unfold refusesExpr at h
    rw [Bool.and_eq_true] at h
    exact ExprGoes.later (refusesSequence_goes seq hw h.1) (refusesExpr_goes rest hw h.2)
termination_by structural alternatives => alternatives

theorem refusesSequence_goes : ∀ (seq : Sequence α (Body α)) {w : Course α σ}, w.Plain →
    refusesSequence (fun _ => false) front seq = true → SequenceGoes w 0 seq text r (.fails text r)
  | ⟨items, _, _, _⟩, _, hw, h => SequenceGoes.fails (refusesItems_goes items hw h)
termination_by structural seq => seq

theorem refusesItems_goes : ∀ (items : List (Item (Body α))) {slots : List (Spanned Value)}
    {last : Spanned Value} {w : Course α σ}, w.Plain → refusesItems (fun _ => false) front items = true →
      ItemsGo w 0 items slots last text r (.fails text r)
  | [], _, _, _, _, h => nomatch h
  | ⟨_, _, lookahead, body, repetition, _, _⟩ :: rest, _, _, w, hw, h => by
    unfold refusesItems at h
    rw [Bool.and_eq_true] at h
    have hbody := refusesBody_goes body hw h.1
    have hrest := h.2
    split at hrest
    · exact ItemsGo.fails (ItemGoes.once hbody)
    · exact ItemsGo.fails (ItemGoes.plus_fails hbody)
    · exact ItemsGo.cons (ItemGoes.absent hbody) fun _ _ => refusesItems_goes rest hw hrest
    · exact ItemsGo.cons (ItemGoes.star hw (LoopGoes.stop hbody)) fun _ _ => refusesItems_goes rest hw hrest
    · have hhushed : BodyGoes w.hushed 0 body text r (.fails text r) :=
        refusesBody_goes body hw.hushed h.1
      exact ItemsGo.cons (ItemGoes.notAhead hhushed) fun _ _ => refusesItems_goes rest hw hrest
    · cases hrest
termination_by structural items => items

end

omit hfront in
/-- The first rune of a text that is empty or starts with one of some ASCII bytes. -/
theorem exists_front {set : Bytes} (htext : Source.StartsIn set text) (hascii : set.all (· < 0x80) = true) :
    ∃ front ∈ none :: set.map fun b => some b.toNat, Front front text := by
  cases text with
  | nil => exact ⟨none, List.mem_cons_self, .empty⟩
  | cons b rest =>
    have hb : b ∈ set := htext b rfl
    have hsmall : b < 0x80 := of_decide_eq_true (List.all_eq_true.mp hascii b hb)
    exact ⟨some b.toNat, List.mem_cons_of_mem _ (List.mem_map_of_mem hb), .ascii hsmall rest⟩

end Refusals

/-- A body fails before the bytes that it refuses, which can be checked for given bytes. -/
theorem BodyGoes.refused (hw : w.Plain) {set : Bytes} {body : Body α} (htext : Source.StartsIn set text)
    (hbody : (set.all (· < 0x80) && (none :: set.map fun b => some b.toNat).all fun front =>
      refusesBody (fun _ => false) front body) = true) :
    BodyGoes w 0 body text r (.fails text r) := by
  rw [Bool.and_eq_true, List.all_eq_true (p := fun front => refusesBody (fun _ => false) front body)] at hbody
  obtain ⟨front, hmem, hfront⟩ := exists_front htext hbody.1
  exact refusesBody_goes hfront body hw (hbody.2 front hmem)

/-- So does a sequence. -/
theorem SequenceGoes.refused (hw : w.Plain) {set : Bytes} {seq : Sequence α (Body α)}
    (htext : Source.StartsIn set text)
    (hseq : (set.all (· < 0x80) && (none :: set.map fun b => some b.toNat).all fun front =>
      refusesSequence (fun _ => false) front seq) = true) :
    SequenceGoes w 0 seq text r (.fails text r) := by
  rw [Bool.and_eq_true, List.all_eq_true (p := fun front => refusesSequence (fun _ => false) front seq)] at hseq
  obtain ⟨front, hmem, hfront⟩ := exists_front htext hseq.1
  exact refusesSequence_goes hfront seq hw (hseq.2 front hmem)

/-- A rule that is refused fails. -/
theorem RuleGoes.refused (hw : w.Plain) {i : Nat} {rule : Rule α} (hrule : w.scene.grammar.rules[i]? = some rule)
    (hmatcher : rule.matcher = none) (hdecorated : rule.decorated = false) (hrank : r ≤ w.rank i) {set : Bytes}
    (htext : Source.StartsIn set text)
    (hbody : (set.all (· < 0x80) && (none :: set.map fun b => some b.toNat).all fun front =>
      refusesExpr (fun _ => false) front rule.body) = true) :
    RuleGoes w 1 i text r (.fails text (w.rank i + 1)) := by
  refine RuleGoes.body hw hrule hmatcher hdecorated hrank (.inr ⟨rfl, Nat.lt_succ_self _⟩) ?_
  rw [Bool.and_eq_true, List.all_eq_true (p := fun front => refusesExpr (fun _ => false) front rule.body)] at hbody
  obtain ⟨front, hmem, hfront⟩ := exists_front htext hbody.1
  intro earliest c hc
  refine (refusesExpr_goes hfront rule.body hw (hbody.2 front hmem) earliest c hc).mono fun _ _ hmet => ?_
  obtain ⟨offset, hanswer, hbefore⟩ := hmet
  exact ⟨offset, hanswer, hbefore.mono (.inr ⟨rfl, Nat.le_succ _⟩)⟩

/-! ## Tokens -/

/-- A class takes a rune of its own. -/
theorem BodyGoes.rune {k : CharClass} {u : Bytes} {a : Rune} (hu : Source.Encodes u a) (hk : k.contains a = true) :
    BodyGoes w 0 (.cls k) (u ++ rest) r
      (.takes rest 0 (· = ⟨.text u, w.place (u ++ rest), w.place rest⟩)) := by
  refine BodyGoes.terminal_takes rfl hu.ne_nil ?_ rfl
  simp only [Body.taken?, Terminal.class?, hu.rune? rest]
  simp [hk]

/-- A class takes an ASCII byte that it accepts. -/
theorem BodyGoes.byte {k : CharClass} {set : Bytes} {b : UInt8} (hb : b ∈ set)
    (hset : (set.all fun b => b < 0x80 && k.contains b.toNat) = true) :
    BodyGoes w 0 (.cls k) (b :: rest) r
      (.takes rest 0 (· = ⟨.text [b], w.place (b :: rest), w.place rest⟩)) := by
  have hboth := List.all_eq_true.mp hset b hb
  rw [Bool.and_eq_true, decide_eq_true_eq] at hboth
  exact BodyGoes.rune (Source.encodes_ascii hboth.1) hboth.2

/-- Values are the texts of the bytes of a text, one by one. -/
def Bytewise (t : Bytes) (xs : List (Spanned Value)) : Prop := xs.map (·.value) = t.map fun b => .text [b]

/-- A class takes the ASCII bytes that it accepts, as long as there are any. -/
theorem LoopGoes.bytes {k : CharClass} {set : Bytes} (ht : ∀ b ∈ t, b ∈ set)
    (hstop : BodyGoes w 0 (.cls k) rest 0 (.fails rest 0))
    (hset : (set.all fun b => b < 0x80 && k.contains b.toNat) = true) :
    LoopGoes w 0 (.cls k) (t ++ rest) 0 (.takes rest 0 (Bytewise t)) := by
  induction t with
  | nil =>
    refine (LoopGoes.stop hstop).weaken fun xs hxs => ?_
    rw [hxs]
    rfl
  | cons b t ih =>
    have hmore := ih fun b' hb' => ht b' (List.mem_cons_of_mem b hb')
    have hlt : (t ++ rest).length < (b :: t ++ rest).length := Nat.lt_succ_self _
    refine (LoopGoes.more hlt (BodyGoes.byte (ht b List.mem_cons_self) hset) hmore).weaken ?_
    rintro xs ⟨x, others, rfl, rfl, hothers⟩
    unfold Bytewise at hothers ⊢
    rw [List.map_cons, List.map_cons, hothers]

/-- ASCII characters are matched where they stand. -/
theorem Terminal.runes?_word {word : Bytes} (hword : ∀ b ∈ word, b < 0x80) (rest : Bytes) :
    Terminal.runes? false (word.map (·.toNat)) (word ++ rest) = some word.length := by
  induction word with
  | nil => rfl
  | cons b word ih =>
    have hrest := ih fun b' hb' => hword b' (List.mem_cons_of_mem b hb')
    rw [List.map_cons, Terminal.runes?, List.cons_append, Terminal.rune?_ascii (hword b List.mem_cons_self)]
    simp [Terminal.agree, hrest, Nat.add_comm]

/-- A literal of ASCII characters in their usual spelling. -/
def Body.spells (word : Bytes) : Body α → Bool
  | .literal spelling caseless braceSensitive =>
    !caseless && !(braceSensitive && (Spelled.all spelling).any (·.isBareBrace)) &&
      (Spelled.all spelling).map (·.rune) == word.map (·.toNat) && word.all (· < 0x80) && !word.isEmpty
  | _ => false

/-- A literal takes the word that it spells. -/
theorem BodyGoes.word {body : Body α} (hword : body.spells t = true) :
    BodyGoes w 0 body (t ++ rest) r (.takes rest 0 (· = ⟨.text t, w.place (t ++ rest), w.place rest⟩)) := by
  cases body with
  | literal spelling caseless braceSensitive =>
    simp only [Body.spells, Bool.and_eq_true, Bool.not_eq_true', beq_iff_eq, List.isEmpty_eq_false_iff] at hword
    obtain ⟨⟨⟨⟨hcase, hbrace⟩, hspelling⟩, hascii⟩, hne⟩ := hword
    refine BodyGoes.terminal_takes rfl hne ?_ rfl
    simp only [Body.taken?, Terminal.literal?, hbrace, hcase, hspelling]
    exact Terminal.runes?_word (fun b hb => of_decide_eq_true (List.all_eq_true.mp hascii b hb)) rest
  | _ => cases hword

/-! ## Parses -/

/-- What a parse makes of the ending of its start rule. -/
def Ending.Reported : Ending (Spanned Value) → Except Fault Outcome → Prop
  | .takes _ _ Q, answer => ∃ x, answer = .ok (.tree x) ∧ Q x
  | .fails _ _, answer => ∃ error, answer = .ok (.failure error)
  | .raises f, answer => answer = .error f

/-- The evaluation of the start rule of a parse. -/
def parseCourse (g : Grammar α) (client : Client α σ) (input : Bytes) (env : Env σ) (rank : Nat → Nat) :
    Course α σ where
  scene := parseScene g client input env
  store := (env.reset client input).store
  rank := rank

/-- A parse ends as its start rule does, if the depth suffices. -/
theorem parse_goes (p : Parser) {g : Grammar α} {client : Client α σ} {index : Nat} {input : Bytes}
    {env : Env σ} {rank : Nat → Nat} (hempty : ¬g.isEmpty = true) (hparsing : ¬env.parsing = true)
    (h : RuleGoes (parseCourse g client input env rank) n index input 0 e) :
    if n ≤ env.settings.maxDepth then e.Reported (Parser.parse p g client index input env).1
    else (Parser.parse p g client index input env).1 = .error .callDepth := by
  have hstart : (parseCourse g client input env rank).Stands (Cursor.ofText input 0) input := ⟨rfl, rfl⟩
  obtain ⟨answer, progress, hrun, hanswer⟩ := h _ hstart env.settings.maxDepth
    ⟨(env.reset client input).store, {}⟩ rfl Memo.Before.empty
  rw [parse_eq_outcomeOf p hempty hparsing hrun]
  split at hanswer
  · next hn =>
    rw [if_pos hn]
    cases e with
    | takes left r' Q =>
      obtain ⟨x, next, rfl, _, hQ, _⟩ := hanswer.2
      exact ⟨x, rfl, hQ⟩
    | fails left r' =>
      obtain ⟨offset, rfl, _⟩ := hanswer.2
      exact ⟨_, rfl⟩
    | raises f =>
      cases hanswer.2
      rfl
  · next hn =>
    rw [if_neg hn, hanswer]
    rfl

end Courses

end Packrat
