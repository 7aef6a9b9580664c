import Packrat.Proofs.Pattern
import Packrat.Proofs.Termination

/-!
# `Packrat.Proofs.Recognisers` — what an expression recognises, apart from its value

A recogniser says where a match ends and forgets what it yields. Recognisers go together as patterns do: one after
the other, one instead of the other, several times, or to look ahead. The expressions of a grammar are evaluated
to recognisers that go together in this way, as long as the items read nothing of the sequence that they stand in.

## Contents
- **Recognisers.** `Recogniser`, and the ways to put recognisers together.
- **Evaluation.** `recogniseExpr` and its companions, and how they follow the structure of an expression.
- **Repetition.** `Recogniser.Repeats` is a greedy repetition round by round, and `Recogniser.GoesForward` what makes
  it end.
-/

namespace Packrat

variable {α β γ σ : Type}

/-! ## Recognisers -/

/-- The place behind a match. -/
def Result.place? : Result → Option Cursor
  | .success _ next => some next
  | .failure _ => none

/-- The place behind the items of a sequence. -/
def ItemsResult.place? : ItemsResult → Option Cursor
  | .success _ _ next => some next
  | .failure _ => none

/-- Recognises something at a cursor, inside or outside of lookaheads: it answers the place behind, if there is a
match. -/
abbrev Recogniser (σ : Type) := Bool → Cursor → EvalM σ (Option Cursor)

namespace Recogniser

/-- Recognises nothing, and takes nothing. -/
def empty : Recogniser σ := fun _ c => pure (some c)

/-- Fails everywhere. -/
def fail : Recogniser σ := fun _ _ => pure none

/-- One after the other. -/
def andThen (r s : Recogniser σ) : Recogniser σ := fun quiet c => do
  match ← r quiet c with
  | none => return none
  | some next => s quiet next

/-- The second where the first fails. -/
def orElse (r s : Recogniser σ) : Recogniser σ := fun quiet c => do
  match ← r quiet c with
  | none => s quiet c
  | some next => return some next

/-- Takes nothing where there is no match. -/
def optional (r : Recogniser σ) : Recogniser σ := r.orElse empty

/-- A test, which takes nothing. Inside of it everything is quiet. -/
def ahead (r : Recogniser σ) : Recogniser σ := fun _ c => do
  match ← r true c with
  | none => return none
  | some _ => return some c

/-- The opposite test. -/
def notAhead (r : Recogniser σ) : Recogniser σ := fun _ c => do
  match ← r true c with
  | none => return some c
  | some _ => return none

/-- At most so many rounds. A repetition ends where there is no match or one that takes nothing. -/
def rounds (r : Recogniser σ) : Nat → Recogniser σ
  | 0 => empty
  | fuel + 1 => fun quiet c => do
    match ← r quiet c with
    | none => return some c
    | some next => if next.offset = c.offset then return some c else r.rounds fuel quiet next

end Recogniser

/-- A recogniser with a repetition behind it, where no input is longer than `reach`. -/
def Repetition.recogniser (reach : Nat) (r : Recogniser σ) : Repetition → Recogniser σ
  | .once => r
  | .optional => r.optional
  | .star => r.rounds (reach + 1)
  | .plus => r.andThen (r.rounds (reach + 1))

/-- A recogniser with a lookahead before it. -/
def Lookahead.recogniser (r : Recogniser σ) : Lookahead → Recogniser σ
  | .none => r
  | .ahead => r.ahead
  | .notAhead => r.notAhead

namespace Recogniser

variable {r s t : Recogniser σ}

theorem andThen_empty (r : Recogniser σ) : r.andThen empty = r := by
  funext quiet c
  unfold andThen empty
  conv => rhs; rw [← bind_pure (r quiet c)]
  congr
  funext place
  cases place <;> rfl

theorem andThen_assoc (r s t : Recogniser σ) : (r.andThen s).andThen t = r.andThen (s.andThen t) := by
  funext quiet c
  unfold andThen
  rw [bind_assoc]
  congr
  funext place
  cases place with
  | none => exact pure_bind _ _
  | some next => rfl

theorem orElse_fail (r : Recogniser σ) : r.orElse fail = r := by
  funext quiet c
  unfold orElse fail
  conv => rhs; rw [← bind_pure (r quiet c)]
  congr
  funext place
  cases place <;> rfl

theorem orElse_assoc (r s t : Recogniser σ) : (r.orElse s).orElse t = r.orElse (s.orElse t) := by
  funext quiet c
  unfold orElse
  rw [bind_assoc]
  congr
  funext place
  cases place with
  | none => rfl
  | some next => exact pure_bind _ _

end Recogniser

/-! ## Evaluation -/

/-- What is kept of a computation in two parts can be told from what is kept of the first. -/
theorem map_bind_of_factors {β' γ' : Type} {f : β → β'} {g : γ → γ'} {x : EvalM σ β} {k : β → EvalM σ γ}
    {l : β' → EvalM σ γ'} (h : ∀ b, g <$> k b = l (f b)) : g <$> (x >>= k) = (f <$> x) >>= l := by
  rw [map_bind, bind_map_left]
  congr
  funext b
  exact h b

theorem place_collect (step : Step σ) (r : Recogniser σ) (quiet : Bool)
    (h : ∀ c, Result.place? <$> step c = r quiet c) (fuel : Nat) (collected : List (Spanned Value)) (c : Cursor) :
    (fun x => some x.2) <$> collect step fuel collected c = r.rounds fuel quiet c := by
  induction fuel generalizing collected c with
  | zero => rfl
  | succ fuel ih =>
    unfold collect Recogniser.rounds
    rw [← h c]
    refine map_bind_of_factors fun result => ?_
    cases result with
    | failure offset => rfl
    | success tree next =>
      simp only [Result.place?]
      by_cases hidle : next.offset = c.offset
      · rw [if_pos hidle, if_pos hidle]
        rfl
      · rw [if_neg hidle, if_neg hidle]
        exact ih (tree :: collected) next

/-- A repetition recognises what it recognises of the places of its step. -/
theorem place_repeated (reach : Nat) (repetition : Repetition) (step : Step σ) (r : Recogniser σ) (quiet : Bool)
    (h : ∀ c, Result.place? <$> step c = r quiet c) (c : Cursor) :
    Result.place? <$> repeated reach repetition step c = repetition.recogniser reach r quiet c := by
  have hlist : ∀ (start : Nat) (collected : List (Spanned Value)) (c : Cursor),
      Result.place? <$> (collect step (reach + 1) collected c >>= fun x =>
        pure (.success ⟨.list x.1, start, x.2.offset⟩ x.2)) = r.rounds (reach + 1) quiet c := by
    intro start collected c
    rw [← place_collect step r quiet h (reach + 1) collected c, bind_pure_comp, Functor.map_map]
    rfl
  cases repetition with
  | once => exact h c
  | optional =>
    show Result.place? <$> (step c >>= _) = r quiet c >>= _
    rw [← h c]
    refine map_bind_of_factors fun result => ?_
    cases result <;> rfl
  | star => exact hlist c.offset [] c
  | plus =>
    show Result.place? <$> (step c >>= _) = r quiet c >>= _
    rw [← h c]
    refine map_bind_of_factors fun result => ?_
    cases result with
    | failure offset => rfl
    | success tree next => exact hlist c.offset [tree] next

/-- A test of something that is no code recognises what it recognises of the places of its step. -/
theorem place_lookaround (lookahead : Lookahead) (step : Bool → Step σ) (r : Recogniser σ)
    (h : ∀ quiet c, Result.place? <$> step quiet c = r quiet c) (quiet : Bool) (c : Cursor) :
    Result.place? <$> lookaround lookahead false (step (quiet || lookahead ≠ .none)) c =
      lookahead.recogniser r quiet c := by
  rw [lookaround_eq]
  cases lookahead with
  | none =>
    rw [show (quiet || decide (Lookahead.none ≠ .none)) = quiet from Bool.or_false quiet, bind_pure_comp,
      Functor.map_map, Lookahead.recogniser, ← h quiet c]
    congr
    funext result
    cases result <;> rfl
  | ahead =>
    rw [show (quiet || decide (Lookahead.ahead ≠ .none)) = true from Bool.or_true quiet]
    show _ = r true c >>= _
    rw [← h true c]
    refine map_bind_of_factors fun result => ?_
    cases result <;> rfl
  | notAhead =>
    rw [show (quiet || decide (Lookahead.notAhead ≠ .none)) = true from Bool.or_true quiet]
    show _ = r true c >>= _
    rw [← h true c]
    refine map_bind_of_factors fun result => ?_
    cases result <;> rfl

/-- Whether a body reads nothing of the sequence that it stands in. A group has a scope of its own. -/
def Body.isClosed : Body α → Bool
  | .code _ => false
  | .interpolated _ _ => false
  | _ => true

section Evaluation

variable (scene : Scene α σ) (call : Bool → Nat → Step σ)

/-- What a body recognises that reads nothing of its sequence. -/
def recogniseBody (body : Body α) : Recogniser σ := fun quiet c =>
  Result.place? <$> evalBody scene call quiet ⟨[], [], 0⟩ body c

/-- What an item recognises. -/
def recogniseItem (item : Item (Body α)) : Recogniser σ :=
  item.lookahead.recogniser (item.repetition.recogniser scene.reach (recogniseBody scene call item.body))

/-- What items recognise, one after the other. -/
def recogniseItems : List (Item (Body α)) → Recogniser σ
  | [] => .empty
  | item :: rest => (recogniseItem scene call item).andThen (recogniseItems rest)

/-- What an expression recognises. -/
def recogniseExpr (e : Expr α) : Recogniser σ := fun quiet c =>
  Result.place? <$> evalExpr scene call quiet e none c

/-- A group recognises what stands in it. -/
theorem recogniseBody_group (e : Expr α) : recogniseBody scene call (.group e) = recogniseExpr scene call e := by
  funext quiet c
  unfold recogniseBody
  rw [evalBody]
  rfl

theorem recogniseItems_singleton (item : Item (Body α)) :
    recogniseItems scene call [item] = recogniseItem scene call item :=
  Recogniser.andThen_empty _

theorem recogniseItems_append (items rest : List (Item (Body α))) : recogniseItems scene call (items ++ rest) =
    (recogniseItems scene call items).andThen (recogniseItems scene call rest) := by
  induction items with
  | nil =>
    funext quiet c
    exact (pure_bind _ _).symm
  | cons item items ih =>
    rw [List.cons_append, recogniseItems, ih, recogniseItems, Recogniser.andThen_assoc]

variable {scene} {call}

/-- Which values the slots hold does not matter to a body that does not read them. -/
theorem evalBody_frame {body : Body α} (h : body.isClosed = true) (quiet : Bool) (frame frame' : Frame) :
    evalBody scene call quiet frame body = evalBody scene call quiet frame' body := by
  cases body with
  | code host => cases h
  | interpolated segments caseless => cases h
  | call name decorated target => rfl
  | group alternatives => rfl
  | literal spelling caseless braceSensitive => rfl
  | cls cls => rfl
  | any => rfl

theorem place_evalItem {item : Item (Body α)} (h : item.body.isClosed = true) (quiet : Bool) (frame : Frame)
    (c : Cursor) :
    Result.place? <$> evalItem scene call quiet frame item c = recogniseItem scene call item quiet c := by
  obtain ⟨name, autobind, lookahead, body, repetition, slot, position⟩ := item
  have hcode : body.isCode = false := by
    cases body with
    | code host => cases h
    | _ => rfl
  -- only a test of code asks for its value
  rw [evalItem, hcode, Bool.false_and]
  unfold recogniseItem
  refine place_lookaround lookahead
    (fun quiet => repeated scene.reach repetition (evalBody scene call quiet frame body)) _ ?_ quiet c
  intro quiet c
  refine place_repeated scene.reach repetition _ _ quiet ?_ c
  intro c
  rw [evalBody_frame h quiet frame ⟨[], [], 0⟩]
  rfl

theorem place_evalItems {items : List (Item (Body α))} (h : ∀ item ∈ items, item.body.isClosed = true)
    (quiet : Bool) (layout : List Bytes) (start : Nat) (slots : List (Spanned Value)) (last : Spanned Value)
    (c : Cursor) :
    ItemsResult.place? <$> evalItems scene call quiet layout start items slots last c =
      recogniseItems scene call items quiet c := by
  induction items generalizing slots last c with
  | nil => rfl
  | cons item rest ih =>
    rw [List.forall_mem_cons] at h
    rw [evalItems]
    unfold recogniseItems Recogniser.andThen
    rw [← place_evalItem h.1 quiet ⟨slots, layout, start⟩ c]
    refine map_bind_of_factors fun result => ?_
    cases result with
    | failure offset => rfl
    | success tree next =>
      -- the next item may find a slot filled, but it does not look there
      exact ih h.2 _ tree next

/-- Without an action nothing is left to do behind the items. -/
theorem sequenceValue_none (scene : Scene α σ) (items : List (Item (Body α))) (layout : List Bytes) (c : Cursor)
    (slots : List (Spanned Value)) (last : Spanned Value) (next : Cursor) :
    ∃ v, sequenceValue scene items none layout c slots last next = pure v := by
  unfold sequenceValue
  simp only
  by_cases hnamed : (!layout.isEmpty) = true
  · rw [if_pos hnamed]
    exact ⟨_, rfl⟩
  · rw [if_neg hnamed]
    by_cases hpasses : passesOn items = true
    · rw [if_pos hpasses]
      exact ⟨_, rfl⟩
    · rw [if_neg hpasses]
      exact ⟨_, rfl⟩

/-- An alternative without an action recognises what its items do. -/
theorem place_evalSequence {items : List (Item (Body α))} (h : ∀ item ∈ items, item.body.isClosed = true)
    (layout : List Bytes) (position : Position) (quiet : Bool) (c : Cursor) :
    Result.place? <$> evalSequence scene call quiet ⟨items, none, layout, position⟩ c =
      recogniseItems scene call items quiet c := by
  rw [evalSequence, ← place_evalItems h quiet layout c.offset _ default c]
  conv => rhs; rw [← bind_pure (ItemsResult.place? <$> _)]
  refine map_bind_of_factors fun result => ?_
  cases result with
  | failure offset => rfl
  | success slots last next =>
    obtain ⟨v, hv⟩ := sequenceValue_none scene items layout c slots last next
    simp only [hv]
    rfl

/-- Which alternatives have failed before does not matter to where a choice ends. -/
theorem place_evalExpr (e : Expr α) (earliest : Option Nat) (quiet : Bool) (c : Cursor) :
    Result.place? <$> evalExpr scene call quiet e earliest c = recogniseExpr scene call e quiet c := by
  unfold recogniseExpr
  induction e generalizing earliest with
  | nil => rfl
  | cons seq rest ih =>
    rw [evalExpr, evalExpr, map_bind, map_bind]
    congr
    funext result
    cases result with
    | success tree next => rfl
    | failure offset =>
      -- both go on with the rest, each from an offset of its own
      exact (ih _).trans (ih _).symm

theorem recogniseExpr_cons (seq : Sequence α (Body α)) (rest : Expr α) :
    recogniseExpr scene call (seq :: rest) =
      Recogniser.orElse (fun quiet c => Result.place? <$> evalSequence scene call quiet seq c)
        (recogniseExpr scene call rest) := by
  funext quiet c
  unfold recogniseExpr Recogniser.orElse
  rw [evalExpr]
  refine map_bind_of_factors fun result => ?_
  cases result with
  | success tree next => rfl
  | failure offset => exact place_evalExpr rest _ quiet c

/-- A single alternative is tried alone. -/
theorem recogniseExpr_singleton (seq : Sequence α (Body α)) : recogniseExpr scene call [seq] =
    fun quiet c => Result.place? <$> evalSequence scene call quiet seq c := by
  rw [recogniseExpr_cons]
  exact Recogniser.orElse_fail _

/-- Alternatives are tried one after the other. -/
theorem recogniseExpr_append (e₁ e₂ : Expr α) : recogniseExpr scene call (e₁ ++ e₂) =
    (recogniseExpr scene call e₁).orElse (recogniseExpr scene call e₂) := by
  induction e₁ with
  | nil =>
    funext quiet c
    exact (pure_bind _ _).symm
  | cons seq rest ih => rw [List.cons_append, recogniseExpr_cons, ih, recogniseExpr_cons, Recogniser.orElse_assoc]

end Evaluation

/-! ## Repetition -/

/-- What is kept of the answers can be told from the answers. -/
theorem Keeps.map {I : Memo → Prop} {x : EvalM σ β} {Q : β → Prop} {R : γ → Prop} {f : β → γ} (hx : Keeps I x Q)
    (hQR : ∀ b, Q b → R (f b)) : Keeps I (f <$> x) R := by
  intro p hp
  obtain ⟨hmemo, hQ⟩ := hx p hp
  rw [← bind_pure_comp]
  cases hrun : x.run.run p with
  | mk answer p' =>
    rw [hrun] at hmemo hQ
    cases answer with
    | error e =>
      rw [run_bind_error hrun]
      exact ⟨hmemo, fun _ hc => nomatch hc⟩
    | ok b =>
      rw [run_bind_ok hrun]
      refine ⟨hmemo, fun c hc => ?_⟩
      cases hc
      exact hQR b (hQ b rfl)

/-- What a machine can follow keeps the memo within reach. -/
theorem Follows.keeps {scene : Scene α σ} {depth : Nat} {quiet : Bool} {x : MachineM σ β} {y : EvalM σ β}
    {Q : β → Prop} (h : Follows scene depth quiet x y Q) (hdepth : depth ≤ scene.settings.maxDepth) :
    Keeps (Memo.Within scene.reach) y Q := by
  intro p hp
  -- a machine in the middle of a parse, where so much depth is left
  let m : Machine σ :=
    { env := { settings := scene.settings, parsing := scene.parsing, store := p.store }
      input := scene.input
      trail := p.trail
      callDepth := scene.settings.maxDepth - depth
      lookaheadDepth := if quiet then 1 else 0 }
  have hserves : m.Serves scene depth quiet :=
    ⟨rfl, rfl, rfl, Nat.sub_add_cancel hdepth, by cases quiet <;> rfl, hp⟩
  obtain ⟨peak, -, -, hmemo, hQ⟩ := h m hserves
  exact ⟨hmemo, hQ⟩

namespace Recogniser

/-- A recogniser never goes backwards, and keeps what is remembered within reach. -/
def GoesForward (scene : Scene α σ) (r : Recogniser σ) : Prop :=
  ∀ quiet c, c.input.length ≤ scene.reach →
    Keeps (Memo.Within scene.reach) (r quiet c)
      (fun place => ∀ next, place = some next → c.offset ≤ next.offset ∧ next.input.length ≤ scene.reach)

/-- A greedy repetition, round by round: from a cursor and a state on, it ends in this way. -/
inductive Repeats (r : Recogniser σ) (quiet : Bool) :
    Cursor → Progress σ → Except Fault (Option Cursor) × Progress σ → Prop
  /-- There is no further match. -/
  | stop {c : Cursor} {p p' : Progress σ} (h : (r quiet c).run.run p = (.ok none, p')) :
      Repeats r quiet c p (.ok (some c), p')
  /-- The last match takes nothing. -/
  | idle {c next : Cursor} {p p' : Progress σ} (h : (r quiet c).run.run p = (.ok (some next), p'))
      (hidle : next.offset = c.offset) : Repeats r quiet c p (.ok (some c), p')
  | fault {c : Cursor} {p p' : Progress σ} {f : Fault} (h : (r quiet c).run.run p = (.error f, p')) :
      Repeats r quiet c p (.error f, p')
  /-- There is a further match, and the repetition goes on behind it. -/
  | next {c next : Cursor} {p p' : Progress σ} {ending : Except Fault (Option Cursor) × Progress σ}
      (h : (r quiet c).run.run p = (.ok (some next), p')) (hmoved : next.offset ≠ c.offset)
      (hrest : Repeats r quiet next p' ending) : Repeats r quiet c p ending

/-- A recogniser is the greedy repetition of another one, on inputs within reach and as long as nothing is
remembered that goes backwards. -/
def Greedy (scene : Scene α σ) (r s : Recogniser σ) : Prop :=
  ∀ quiet c p, c.input.length ≤ scene.reach → Memo.Within scene.reach p.trail.memo →
    r.Repeats quiet c p ((s quiet c).run.run p)

variable {scene : Scene α σ} {r : Recogniser σ}

/-- The rounds end before the fuel does: every round but the last one uses up some of the input. -/
theorem GoesForward.repeats (h : r.GoesForward scene) (fuel : Nat) (quiet : Bool) {c : Cursor} {p : Progress σ}
    (hc : c.input.length ≤ scene.reach) (hfuel : scene.reach < fuel + c.offset)
    (hp : Memo.Within scene.reach p.trail.memo) : r.Repeats quiet c p ((r.rounds fuel quiet c).run.run p) := by
  induction fuel generalizing c p with
  | zero =>
    have hoffset := c.offset_le
    omega
  | succ fuel ih =>
    obtain ⟨hmemo, hplace⟩ := h quiet c hc p hp
    unfold rounds
    cases hrun : (r quiet c).run.run p with
    | mk answer p' =>
      rw [hrun] at hmemo hplace
      cases answer with
      | error f =>
        rw [run_bind_error hrun]
        exact .fault hrun
      | ok place =>
        rw [run_bind_ok hrun]
        cases place with
        | none => exact .stop hrun
        | some next =>
          obtain ⟨hle, hnext⟩ := hplace _ rfl next rfl
          simp only
          -- a round that uses up nothing is the last; any other one leaves less input than fuel
          by_cases hidle : next.offset = c.offset
          · rw [if_pos hidle]
            exact .idle hrun hidle
          · rw [if_neg hidle]
            exact .next hrun hidle (ih hnext (by omega) hmemo)

/-- As many rounds as the input has room for are a greedy repetition. -/
theorem GoesForward.greedy (h : r.GoesForward scene) : Greedy scene r (r.rounds (scene.reach + 1)) :=
  fun quiet _ _ hc hp => h.repeats _ quiet hc (by omega) hp

end Recogniser

/-- What a body recognises in the course of a parse goes forward. -/
theorem recogniseBody_goesForward (scene : Scene α σ) {depth : Nat} (hdepth : depth ≤ scene.settings.maxDepth)
    (body : Body α) : (recogniseBody scene (callRule scene depth) body).GoesForward scene := by
  intro quiet c hc
  have hfollows := runBody_follows (runCall_follows scene depth) quiet ⟨[], [], 0⟩ body c hc
  refine (hfollows.keeps hdepth).map fun result hwithin => ?_
  intro next hnext
  cases result with
  | failure offset => cases hnext
  | success tree place =>
    cases hnext
    exact hwithin

/-- So does what an expression recognises. -/
theorem recogniseExpr_goesForward (scene : Scene α σ) {depth : Nat} (hdepth : depth ≤ scene.settings.maxDepth)
    (e : Expr α) : (recogniseExpr scene (callRule scene depth) e).GoesForward scene := by
  rw [← recogniseBody_group]
  exact recogniseBody_goesForward scene hdepth (.group e)

end Packrat
