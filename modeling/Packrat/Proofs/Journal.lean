import Packrat.Proofs.Outcome
import Packrat.Proofs.Runs
import Packrat.Proofs.Trace

/-!
# `Packrat.Proofs.Journal` — evaluation with a journal

The evaluator of `Packrat.Eval` says how a run ends, but not what it looked at on the way or where a value
comes from. Here the same rules are evaluated once more, and every access to a table or a slot, every value
that the engine itself makes, and every answer of a rule call is entered into a journal. The entries are what
statements about whole runs are made of.

## Contents
- **Entries.** `Entry`, what a run can enter; `Attempt`, a sequence at work that remembers which named items
  have matched.
- **Computations with a journal.** `JournalM`, with `enter` and `silently`.
- **Evaluation.** `journalHost`, `journalBody` … follow `evalHost`, `evalBody` … case by case;
  `Parser.parseJournaled` follows `Parser.parse`.
- **Agreement.** `Journals`: a computation with a journal does what the one without does, keeps an invariant of
  the memo, and enters only what it may. One rule for each way to build a computation, and one for rule calls.
- **Parses.** `Parser.parseJournaled_journals`: what is shown of the start rule holds of the parse.
-/

namespace Packrat

variable {α β γ σ : Type}

/-! ## Entries -/

/-- A sequence at work, with the values of the named items that have matched in this attempt. -/
structure Attempt extends Frame where
  bound : List Field

/-- What a run looks at or makes. -/
inductive Entry where
  /-- A rule is looked up at the place that a call leads to. -/
  | rule (target : Option Nat)
  /-- An action is looked up at the place that a host call leads to. -/
  | action (target : Option Nat)
  /-- A matcher is looked up. -/
  | matcher (index : Nat)
  /-- A value is put into one of so many slots. -/
  | write (slot count : Nat)
  /-- A bound name is read from a slot. -/
  | read (name : Bytes) (slot : Option Nat) (attempt : Attempt)
  /-- The text that a sequence has matched is cut out of the input. -/
  | matched (start stop : Nat)
  /-- A terminal, or a sequence without action and names, makes a text. -/
  | text (x : Spanned Value)
  /-- A repetition makes a list. -/
  | list (elements : List (Spanned Value)) (start stop : Nat)
  /-- A rule call at a cursor answers. -/
  | answered (c : Cursor) (r : Result)

/-! ## Computations with a journal -/

/-- A step of an evaluation that keeps a journal, the latest entry last. A fault leaves the journal as it
is. -/
abbrev JournalM (σ : Type) := ExceptT Fault (StateM (Progress σ × List Entry))

/-- Makes an entry. -/
def enter (e : Entry) : JournalM σ Unit := modify fun (p, journal) => (p, journal ++ [e])

/-- Runs a computation without entering anything. -/
def silently (y : EvalM σ β) : JournalM σ β :=
  ExceptT.mk fun (p, journal) => ((y.run.run p).1, ((y.run.run p).2, journal))

/-! ## Evaluation -/

mutual

/-- The value of a host expression; every bound name that it reads and every action that it looks up is
entered. -/
def journalHost (scene : Scene α σ) (attempt : Attempt) (stop : Nat) : HostNode α → JournalM σ Value
  | .ref name slot => do
    enter (.read name slot attempt)
    return (← silently (attempt.read slot)).value
  | .call name args constructs action => do
    let args ← journalArgs scene attempt stop args
    if constructs then pure (nodeOf name args)
    else do
      enter (.action action)
      match action.bind (scene.grammar.actions[·]?) with
      | some (_, named) =>
        silently (onStore (scene.client.run named
          ⟨args.map (·.2), args.map (·.1), scene.input, attempt.start, stop, scene.settings,
            scene.parsing⟩))
      | none => throw .outOfRange
  | .const v => pure v
  | .matched => do
    enter (.matched attempt.start stop)
    silently (evalHost scene attempt.toFrame stop .matched)
  | .native a => silently (evalHost scene attempt.toFrame stop (.native a))
termination_by structural node => node

/-- The arguments of a call. -/
def journalArgs (scene : Scene α σ) (attempt : Attempt) (stop : Nat) :
    List (Host α) → JournalM σ (List Field)
  | [] => pure []
  | ⟨.ref name slot, _⟩ :: rest => do
    enter (.read name slot attempt)
    let x ← silently (attempt.read slot)
    let rest ← journalArgs scene attempt stop rest
    return (name, x) :: rest
  | ⟨node, _⟩ :: rest => do
    let v ← journalHost scene attempt stop node
    let rest ← journalArgs scene attempt stop rest
    return ([], ⟨v, attempt.start, stop⟩) :: rest
termination_by structural args => args

end

/-- The text of an interpolated literal. -/
def journalSegments (scene : Scene α σ) (attempt : Attempt) (stop : Nat) :
    List (Segment α) → JournalM σ Bytes
  | [] => pure []
  | .spelling text :: rest => do return unescape text ++ (← journalSegments scene attempt stop rest)
  | .code host :: rest => do
    let v ← journalHost scene attempt stop host.node
    return v.toText ++ (← journalSegments scene attempt stop rest)

/-- The answer of a terminal; the text that it makes is entered. -/
def journalTerminal (quiet : Bool) (c : Cursor) (label : Bytes) : Option Nat → JournalM σ Result
  | some taken => do
    let next := c.advance taken
    let x : Spanned Value := ⟨.text (c.remaining.take taken), c.offset, next.offset⟩
    enter (.text x)
    return .success x next
  | none => silently (terminal quiet c label none)

/-- Repeats a step, as `collect` does. -/
def journalCollect (step : Cursor → JournalM σ Result) :
    Nat → List (Spanned Value) → Cursor → JournalM σ (List (Spanned Value) × Cursor)
  | 0, collected, c => pure (collected.reverse, c)
  | fuel + 1, collected, c => do
    match ← step c with
    | .failure _ => pure (collected.reverse, c)
    | .success tree next =>
      if next.offset = c.offset then pure (collected.reverse, c)
      else journalCollect step fuel (tree :: collected) next

/-- Runs a step as often as a repetition asks for; the lists that `*` and `+` make are entered. -/
def journalRepeated (reach : Nat) (repetition : Repetition) (step : Cursor → JournalM σ Result)
    (c : Cursor) : JournalM σ Result :=
  match repetition with
  | .once => step c
  | .optional => do
    match ← step c with
    | .failure _ => return .success ⟨.option none, c.offset, c.offset⟩ c
    | .success tree next => return .success ⟨.option (some tree), c.offset, next.offset⟩ next
  | .star => do
    let (elements, next) ← journalCollect step (reach + 1) [] c
    enter (.list elements c.offset next.offset)
    return .success ⟨.list elements, c.offset, next.offset⟩ next
  | .plus => do
    match ← step c with
    | .failure _ => return .failure c.offset
    | .success tree next =>
      let (elements, next) ← journalCollect step (reach + 1) [tree] next
      enter (.list elements c.offset next.offset)
      return .success ⟨.list elements, c.offset, next.offset⟩ next

/-- Runs a step with a lookahead. -/
def journalLookaround (lookahead : Lookahead) (asCondition : Bool) (step : Cursor → JournalM σ Result)
    (c : Cursor) : JournalM σ Result := do
  return lookahead.judge asCondition c (← step c)

/-- The value of a sequence that has matched from `c` to `next`; the matched text is entered if that is
it. -/
def journalValue (scene : Scene α σ) (items : List (Item (Body α))) (action : Option (Host α))
    (c : Cursor) (attempt : Attempt) (last : Spanned Value) (next : Cursor) :
    JournalM σ (Spanned Value) := do
  match action with
  | some host =>
    let v ← journalHost scene attempt next.offset host.node
    return ⟨v, c.offset, next.offset⟩
  | none =>
    if !attempt.layout.isEmpty then
      return ⟨.node [] (attempt.layout.zip attempt.slots), c.offset, next.offset⟩
    else if passesOn items then return last
    else do
      let x : Spanned Value := ⟨.text (next.textFrom c.offset), c.offset, next.offset⟩
      enter (.text x)
      return x

/-- What the items of a sequence answer: the attempt behind them, the value of the last item and the place
behind it, or the offset at which an item fails. -/
inductive AttemptResult where
  | success (attempt : Attempt) (last : Spanned Value) (next : Cursor)
  | failure (offset : Nat)

/-- The same answer without the values of the named items. -/
def AttemptResult.toItemsResult : AttemptResult → ItemsResult
  | .success attempt last next => .success attempt.slots last next
  | .failure offset => .failure offset

/-- The attempt behind an item that has matched: its slot holds its value, and its name is bound to it. -/
def Attempt.record (attempt : Attempt) (item : Item (Body α)) (tree : Spanned Value) : Attempt where
  slots := match item.slot with
    | none => attempt.slots
    | some i => attempt.slots.set i tree
  layout := attempt.layout
  start := attempt.start
  bound := match item.name with
    | none => attempt.bound
    | some name => attempt.bound ++ [(name, tree)]

/-- Enters the slot that an item writes, if it writes one. -/
def enterWrite (attempt : Attempt) : Option Nat → JournalM σ Unit
  | none => pure ()
  | some i => enter (.write i attempt.slots.length)

section

variable (scene : Scene α σ) (call : Bool → Nat → Cursor → JournalM σ Result)

/-- Calls a rule and, if asked for, tags its value. -/
def journalRuleCall (quiet : Bool) (decorated : Bool) (target : Option Nat) (c : Cursor) :
    JournalM σ Result := do
  enter (.rule target)
  match target with
  | none => throw .outOfRange
  | some i =>
    match ← call quiet i c with
    | .failure offset => return .failure offset
    | .success tree next =>
      match scene.grammar.rules[i]? with
      | none => throw .outOfRange
      | some rule =>
        if decorated && !rule.decorated then return .success (tagged rule.name tree) next
        else return .success tree next

mutual

/-- Matches a body in a sequence at work. -/
def journalBody (quiet : Bool) (attempt : Attempt) : Body α → Cursor → JournalM σ Result
  | .code host => fun c => do
    let v ← journalHost scene attempt c.offset host.node
    return .success ⟨v, c.offset, c.offset⟩ c
  | .call _ decorated target => journalRuleCall scene call quiet decorated target
  | .group alternatives => fun c => journalExpr quiet alternatives none c
  | .literal spelling caseless braceSensitive => fun c =>
    journalTerminal quiet c (labelOf (betweenQuotes spelling) caseless)
      (Terminal.literal? spelling braceSensitive caseless c.remaining)
  | .interpolated segments caseless => fun c => do
    let text ← journalSegments scene attempt c.offset segments
    journalTerminal quiet c (quoteText text) (Terminal.text? text caseless c.remaining)
  | .cls cls => fun c =>
    journalTerminal quiet c (labelOf cls.spelling cls.caseless)
      ((Terminal.class? cls c.remaining).map (·.2))
  | .any => fun c =>
    journalTerminal quiet c (Bytes.ascii "any character") ((Terminal.any? c.remaining).map (·.2))
termination_by structural body => body

/-- Tries alternatives in turn. -/
def journalExpr (quiet : Bool) :
    List (Sequence α (Body α)) → Option Nat → Cursor → JournalM σ Result
  | [], earliest => fun c => return .failure (earliest.getD c.offset)
  | seq :: rest, earliest => fun c => do
    match ← journalSequence quiet seq c with
    | .success tree next => return .success tree next
    | .failure offset => journalExpr quiet rest (some ((earliest.map (min · offset)).getD offset)) c
termination_by structural alternatives => alternatives

/-- Matches a sequence, in an attempt in which no name is bound yet. -/
def journalSequence (quiet : Bool) : Sequence α (Body α) → Cursor → JournalM σ Result
  | ⟨items, action, layout, _⟩ => fun c => do
    let attempt : Attempt := ⟨⟨List.replicate layout.length default, layout, c.offset⟩, []⟩
    match ← journalItems quiet items attempt default c with
    | .failure offset => return .failure offset
    | .success attempt last next =>
      return .success (← journalValue scene items action c attempt last next) next
termination_by structural seq => seq

/-- Matches the items of a sequence, one after the other. -/
def journalItems (quiet : Bool) :
    List (Item (Body α)) → Attempt → Spanned Value → Cursor → JournalM σ AttemptResult
  | [], attempt, last, c => return .success attempt last c
  | item :: rest, attempt, _, c => do
    match ← journalItem quiet attempt item c with
    | .failure _ => return .failure c.offset
    | .success tree next => do
      enterWrite attempt item.slot
      journalItems quiet rest (attempt.record item tree) tree next
termination_by structural items => items

/-- Matches one item in a sequence at work. -/
def journalItem (quiet : Bool) (attempt : Attempt) : Item (Body α) → Cursor → JournalM σ Result
  | ⟨_, _, lookahead, body, repetition, _, _⟩ =>
    journalLookaround lookahead (body.isCode && repetition = .once)
      (journalRepeated scene.reach repetition
        (journalBody (quiet || lookahead ≠ .none) attempt body))
termination_by structural item => item

end

/-- Matches what a rule stands for. -/
def journalRule (quiet : Bool) (rule : Rule α) (c : Cursor) : JournalM σ Result := do
  match rule.matcher with
  | none =>
    match ← journalExpr scene call quiet rule.body none c with
    | .failure offset => return .failure offset
    | .success tree next =>
      if rule.decorated then return .success (tagged rule.name tree) next
      else return .success tree next
  | some i =>
    enter (.matcher i)
    match scene.grammar.matchers[i]? with
    | none => throw .outOfRange
    | some matcher =>
      match ← silently (ExceptT.mk (pure (matcher c)) : EvalM σ (Match Value)) with
      | .failure _ =>
        silently (noteFailure quiet c.offset rule.name)
        return .failure c.offset
      | .success v taken =>
        let next := c.advance taken
        return .success ⟨v, c.offset, next.offset⟩ next

end

/-- Calls a rule; that it is looked up is entered, and what it answers. -/
def journalCall (scene : Scene α σ) : Nat → Bool → Nat → Cursor → JournalM σ Result
  | depth, quiet, index, c => do
    enter (.rule (some index))
    match scene.grammar.rules[index]? with
    | none => throw .outOfRange
    | some rule => do
      match ← silently (kept? scene index c.offset) with
      | some r =>
        enter (.answered c r)
        return r
      | none =>
        silently (onUser (scene.client.onCall ⟨rule.name, c.offset, quiet⟩))
        match depth with
        | 0 => throw .callDepth
        | depth + 1 =>
          let r ← journalRule scene (journalCall scene depth) quiet rule c
          silently (keep scene quiet index c.offset r)
          enter (.answered c r)
          return r
termination_by structural depth => depth

/-- Evaluates a rule outside every lookahead, with the journal of that. -/
def Parser.evaluateJournaled (p : Parser) (g : Grammar α) (client : Client α σ) (index : Nat) (c : Cursor)
    (env : Env σ) : Except Fault Result × Progress σ × List Entry :=
  let scene : Scene α σ := ⟨g, client, env.settings, env.parsing, p.input, p.reach⟩
  (journalCall scene env.settings.maxDepth false index c).run.run (⟨env.store, p.trail⟩, [])

/-- Parses a text, with the journal of that. A refused parse looks at nothing. -/
def Parser.parseJournaled (p : Parser) (g : Grammar α) (client : Client α σ) (index : Nat) (input : Bytes)
    (env : Env σ) : Run σ Outcome × List Entry :=
  if g.isEmpty then ((.error (.ofIssue .empty), env, p), [])
  else if env.parsing then ((.error .reentrant, env, p), [])
  else
    let env := env.reset client input
    let p : Parser := ⟨input, input.length, {}⟩
    let (answer, progress, journal) := p.evaluateJournaled g client index (Cursor.ofText input 0) env
    let env := env.finish progress.store
    let p := p.withTrail progress.trail
    match answer with
    | .error fault => ((.error fault, env, p), journal)
    | .ok (.success tree _) => ((.ok (.tree tree), env, p), journal)
    | .ok (.failure offset) =>
      let (error, env) := reportFailure env progress.trail offset
      ((.ok (.failure error), env, p), journal)

/-! ## Agreement -/

/-- A computation without a journal keeps an invariant of the memo, and its answers satisfy `Q`. -/
def Keeps (I : Memo → Prop) (y : EvalM σ β) (Q : β → Prop) : Prop :=
  ∀ p, I p.trail.memo → I (y.run.run p).2.trail.memo ∧ ∀ b, (y.run.run p).1 = .ok b → Q b

/-- A computation with a journal does what one without does, whose answers are those under `f`. It keeps an
invariant of the memo, enters only what satisfies `E`, and its answers satisfy `Q`. -/
def Journals (I : Memo → Prop) (E : Entry → Prop) (f : β → γ) (x : JournalM σ β) (y : EvalM σ γ)
    (Q : β → Prop) : Prop :=
  ∀ p journal, I p.trail.memo → (∀ e ∈ journal, E e) →
    ∃ answer p' journal', x.run.run (p, journal) = (answer, p', journal') ∧
      y.run.run p = (answer.map f, p') ∧ I p'.trail.memo ∧ (∀ e ∈ journal', E e) ∧
      ∀ b, answer = .ok b → Q b

section Keeping

variable {I : Memo → Prop}

/-- An action cannot reach the memo. -/
theorem Keeps.onStore (m : ActionM σ β) : Keeps I (onStore m) (fun _ => True) :=
  fun _ hp => ⟨hp, fun _ _ => trivial⟩

/-- A hook cannot reach the memo. -/
theorem Keeps.onUser (m : HookM σ β) : Keeps I (onUser m) (fun _ => True) :=
  fun _ hp => ⟨hp, fun _ _ => trivial⟩

theorem Keeps.fault (e : Fault) {Q : β → Prop} : Keeps I (throw e : EvalM σ β) Q := by
  intro p hp
  refine ⟨hp, ?_⟩
  intro b hb
  cases hb

theorem Keeps.pure {b : β} {Q : β → Prop} (hb : Q b) : Keeps I (Pure.pure b : EvalM σ β) Q := by
  intro p hp
  refine ⟨hp, ?_⟩
  intro b' hb'
  cases hb'
  exact hb

theorem Keeps.noteFailure (quiet : Bool) (offset : Nat) (label : Bytes) :
    Keeps (σ := σ) I (noteFailure quiet offset label) (fun _ => True) := by
  intro p hp
  refine ⟨?_, fun _ _ => trivial⟩
  cases quiet with
  | true => exact hp
  | false =>
    show I (p.trail.note offset label).memo
    rw [Trail.memo_note]
    exact hp

/-- A terminal that does not match fails where it stands. -/
theorem Keeps.terminal_none (quiet : Bool) (c : Cursor) (label : Bytes) :
    Keeps (σ := σ) I (terminal quiet c label none) (fun r => r = .failure c.offset) := by
  intro p hp
  have hrun := (Keeps.noteFailure (I := I) (σ := σ) quiet c.offset label p hp).1
  cases quiet with
  | true =>
    refine ⟨hp, ?_⟩
    intro r hr
    cases hr
    rfl
  | false =>
    refine ⟨hrun, ?_⟩
    intro r hr
    cases hr
    rfl

/-- A matcher cannot reach the memo. -/
theorem Keeps.answer (r : Except Fault β) :
    Keeps (σ := σ) I (ExceptT.mk (Pure.pure r)) (fun b => r = .ok b) :=
  fun _ hp => ⟨hp, fun _ hb => hb⟩

/-- A result that is found is one that was kept. -/
theorem Keeps.kept? (scene : Scene α σ) {index offset : Nat} {Q : Result → Prop}
    (h : ∀ (memo : Memo) r, I memo → memo[(index, offset)]? = some r → Q r) :
    Keeps I (kept? scene index offset) (fun found => ∀ r, found = some r → Q r) := by
  intro p hp
  rw [run_kept?]
  refine ⟨hp, ?_⟩
  intro found hfound r hr
  have hfound' := Except.ok.inj hfound
  rw [hr] at hfound'
  split at hfound'
  · exact h _ r hp hfound'
  · cases hfound'

/-- A result may be kept if the invariant allows it at its key. -/
theorem Keeps.keep (scene : Scene α σ) (quiet : Bool) {index offset : Nat} {r : Result}
    (h : ∀ memo : Memo, I memo → I (memo.insertIfNew (index, offset) r)) :
    Keeps I (keep scene quiet index offset r) (fun _ => True) := by
  intro p hp
  unfold Packrat.keep
  split
  · exact ⟨h _ hp, fun _ _ => trivial⟩
  · exact ⟨hp, fun _ _ => trivial⟩

end Keeping

namespace Journals

variable {I : Memo → Prop} {E : Entry → Prop} {f : β → γ} {x : JournalM σ β} {y : EvalM σ γ} {Q : β → Prop}

theorem pure {b : β} (hb : Q b) : Journals (σ := σ) I E f (Pure.pure b) (Pure.pure (f b)) Q := by
  intro p journal hp hjournal
  refine ⟨.ok b, p, journal, rfl, rfl, hp, hjournal, ?_⟩
  intro b' hb'
  cases hb'
  exact hb

theorem fault (e : Fault) : Journals (σ := σ) I E f (throw e) (throw e) Q := by
  intro p journal hp hjournal
  refine ⟨.error e, p, journal, rfl, rfl, hp, hjournal, ?_⟩
  intro b hb
  cases hb

/-- Nothing is entered. -/
theorem silently {y : EvalM σ β} (hy : Keeps I y Q) : Journals I E id (silently y) y Q := by
  intro p journal hp hjournal
  obtain ⟨hp', hQ⟩ := hy p hp
  refine ⟨(y.run.run p).1, (y.run.run p).2, journal, rfl, ?_, hp', hjournal, hQ⟩
  rw [Except.map_id]
  rfl

/-- One computation after another. -/
theorem bind {β' γ' : Type} {g : β' → γ'} {k : β → JournalM σ β'} {l : γ → EvalM σ γ'} {R : β' → Prop}
    (hx : Journals I E f x y Q) (hk : ∀ b, Q b → Journals I E g (k b) (l (f b)) R) :
    Journals I E g (x >>= k) (y >>= l) R := by
  intro p journal hp hjournal
  obtain ⟨answer, p₁, journal₁, hrun, hplain, hp₁, hjournal₁, hQ⟩ := hx p journal hp hjournal
  cases answer with
  | error e =>
    refine ⟨.error e, p₁, journal₁, run_bind_error hrun, run_bind_error hplain, hp₁, hjournal₁, ?_⟩
    intro b hb
    cases hb
  | ok b =>
    obtain ⟨answer', p₂, journal₂, hrun', hplain', hend⟩ := hk b (hQ b rfl) p₁ journal₁ hp₁ hjournal₁
    exact ⟨answer', p₂, journal₂, (run_bind_ok hrun).trans hrun', (run_bind_ok hplain).trans hplain', hend⟩

theorem weaken {R : β → Prop} (hx : Journals I E f x y Q) (hQR : ∀ b, Q b → R b) :
    Journals I E f x y R := by
  intro p journal hp hjournal
  obtain ⟨answer, p', journal', hrun, hplain, hp', hjournal', hQ⟩ := hx p journal hp hjournal
  exact ⟨answer, p', journal', hrun, hplain, hp', hjournal', fun b hb => hQR b (hQ b hb)⟩

/-- An entry is made, and nothing else. -/
theorem entering {e : Entry} (he : E e) (hx : Journals I E f x y Q) :
    Journals I E f (enter e >>= fun _ => x) y Q := by
  intro p journal hp hjournal
  have hjournal' : ∀ e' ∈ journal ++ [e], E e' := by
    intro e' he'
    rcases List.mem_append.mp he' with hold | hnew
    · exact hjournal e' hold
    · rw [List.mem_singleton.mp hnew]
      exact he
  obtain ⟨answer, p', journal'', hrun, hend⟩ := hx p (journal ++ [e]) hp hjournal'
  exact ⟨answer, p', journal'', hrun, hend⟩

/-- The slot of an item is entered, if it has one. -/
theorem writing {attempt : Attempt} {slot : Option Nat}
    (he : ∀ i, slot = some i → E (.write i attempt.slots.length)) (hx : Journals I E f x y Q) :
    Journals I E f (enterWrite attempt slot >>= fun _ => x) y Q := by
  cases slot with
  | none => exact hx
  | some i => exact hx.entering (he i rfl)

/-- What every rule call does, by induction on the depth: the calls that a rule makes are one level deeper.
`R` says which rules are called, `P` from where, and `R'` what they answer. -/
theorem ruleCall {scene : Scene α σ} (R : Nat → Prop) (P : Cursor → Prop) (R' : Cursor → Result → Prop)
    (hlookup : ∀ i, R i → E (.rule (some i)))
    (hkept : ∀ (memo : Memo) (i : Nat) (c : Cursor) (r : Result),
      P c → I memo → memo[(i, c.offset)]? = some r → R' c r)
    (hkeep : ∀ (memo : Memo) (i : Nat) (c : Cursor) (r : Result),
      P c → I memo → R' c r → I (memo.insertIfNew (i, c.offset) r))
    (hanswered : ∀ c r, P c → R' c r → E (.answered c r))
    (hrule : ∀ (call : Bool → Nat → Cursor → JournalM σ Result) (call' : Bool → Nat → Step σ),
      (∀ quiet i c, R i → P c → Journals I E id (call quiet i c) (call' quiet i c) (R' c)) →
      ∀ quiet, ∀ rule ∈ scene.grammar.rules, ∀ c, P c →
        Journals I E id (journalRule scene call quiet rule c) (evalRule scene call' quiet rule c) (R' c))
    (depth : Nat) (quiet : Bool) (index : Nat) (c : Cursor) (hindex : R index) (hc : P c) :
    Journals I E id (journalCall scene depth quiet index c) (callRule scene depth quiet index c)
      (R' c) := by
  induction depth generalizing quiet index c with
  | zero =>
    unfold journalCall callRule
    refine entering (hlookup index hindex) ?_
    cases scene.grammar.rules[index]? with
    | none => exact fault _
    | some rule =>
      refine (silently (Keeps.kept? scene (fun memo r => hkept memo index c r hc))).bind fun found hr => ?_
      cases found with
      | some r => exact (pure (hr r rfl)).entering (hanswered c r hc (hr r rfl))
      | none => exact (silently (Keeps.onUser _)).bind fun _ _ => fault _
  | succ depth ih =>
    unfold journalCall callRule
    refine entering (hlookup index hindex) ?_
    cases hat : scene.grammar.rules[index]? with
    | none => exact fault _
    | some rule =>
      refine (silently (Keeps.kept? scene (fun memo r => hkept memo index c r hc))).bind fun found hr => ?_
      cases found with
      | some r => exact (pure (hr r rfl)).entering (hanswered c r hc (hr r rfl))
      | none =>
        refine (silently (Keeps.onUser _)).bind fun _ _ => ?_
        refine (hrule _ _ ih quiet rule (List.mem_of_getElem? hat) c hc).bind fun r hr => ?_
        refine (silently (Keeps.keep scene quiet fun memo hmemo => hkeep memo index c r hc hmemo hr)).bind
          fun _ _ => ?_
        exact (pure hr).entering (hanswered c r hc hr)

end Journals

/-! ## Parses -/

section Parses

variable {g : Grammar α} {client : Client α σ} {index : Nat} {input : Bytes} {env : Env σ}
  {E : Entry → Prop} {I : Memo → Prop} {Q : Result → Prop}

/-- A parse with a journal does what the parse without does and enters only what may be entered, if its start
rule does so. Its tree is one that the start rule answers. -/
theorem Parser.parseJournaled_journals (p : Parser) (hempty : I ∅)
    (h : Journals I E id
      (journalCall (parseScene g client input env) env.settings.maxDepth false index
        (Cursor.ofText input 0))
      (Packrat.callRule (parseScene g client input env) env.settings.maxDepth false index
        (Cursor.ofText input 0)) Q) :
    (p.parseJournaled g client index input env).1 = p.parse g client index input env ∧
      (∀ e ∈ (p.parseJournaled g client index input env).2, E e) ∧
      ∀ tree, (p.parse g client index input env).1 = .ok (.tree tree) → ∃ next, Q (.success tree next) := by
  unfold Parser.parseJournaled Parser.parse
  -- A refused parse enters nothing and has no tree.
  by_cases hg : g.isEmpty = true
  · simp only [if_pos hg]
    refine ⟨trivial, ?_, ?_⟩
    · intro e he
      cases he
    · intro tree htree
      cases htree
  by_cases hparsing : env.parsing = true
  · simp only [if_neg hg, if_pos hparsing]
    refine ⟨trivial, ?_, ?_⟩
    · intro e he
      cases he
    · intro tree htree
      cases htree
  simp only [if_neg hg, if_neg hparsing]
  obtain ⟨answer, progress, journal, hrun, hplain, _, hjournal, hQ⟩ :=
    h ⟨(env.reset client input).store, {}⟩ [] hempty (fun e he => by cases he)
  rw [Except.map_id] at hplain
  have heval : Parser.evaluateJournaled ⟨input, input.length, {}⟩ g client index (Cursor.ofText input 0)
      (env.reset client input) = (answer, progress, journal) := hrun
  have hevalPlain : Parser.evaluate ⟨input, input.length, {}⟩ g client index (Cursor.ofText input 0)
      (env.reset client input) = (answer, progress) := hplain
  simp only [heval, hevalPlain]
  cases answer with
  | error fault =>
    refine ⟨rfl, hjournal, ?_⟩
    intro tree htree
    cases htree
  | ok r =>
    cases r with
    | failure offset =>
      refine ⟨rfl, hjournal, ?_⟩
      intro tree htree
      cases htree
    | success tree next =>
      refine ⟨rfl, hjournal, ?_⟩
      intro tree' htree
      cases htree
      exact ⟨next, hQ _ rfl⟩

end Parses

end Packrat
