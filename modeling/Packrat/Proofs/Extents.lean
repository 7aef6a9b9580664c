import Packrat.Proofs.Journal

/-!
# `Packrat.Proofs.Extents` — values that span what was matched

## Contents
- **Places.** `Cursor.Reaches`: on the same input, not before.
- **Exact values.** `Spanned.Covers`, `Tiles` and `Result.Exact`; what terminals, tags and lookaheads do to
  them.
- **Exact entries.** `Entry.Exact`, for the journal of a run, and `Memo.Exact`, for what it keeps.
-/

namespace Packrat

variable {α β γ σ : Type}

/-! ## Places -/

/-- A place is on the same input as another one, and not before it. -/
structure Cursor.Reaches (c next : Cursor) : Prop where
  input : next.input = c.input
  le : c.offset ≤ next.offset

namespace Cursor.Reaches

variable {c mid next : Cursor}

theorem refl (c : Cursor) : c.Reaches c := ⟨rfl, Nat.le_refl _⟩

theorem trans (h : c.Reaches mid) (h' : mid.Reaches next) : c.Reaches next :=
  ⟨h'.input.trans h.input, Nat.le_trans h.le h'.le⟩

theorem advance (c : Cursor) (n : Nat) : c.Reaches (c.advance n) := by
  refine ⟨Cursor.input_advance c n, ?_⟩
  rw [Cursor.offset_advance]
  have hle := c.offset_le
  omega

theorem le_length (h : c.Reaches next) : next.offset ≤ c.input.length := by
  rw [← h.input]
  exact next.offset_le

end Cursor.Reaches

/-! ## Exact values -/

/-- A value spans what lies between two places. -/
structure Spanned.Covers (x : Spanned β) (c next : Cursor) : Prop where
  start : x.start = c.offset
  stop : x.stop = next.offset

/-- Elements lie side by side from `start` to `stop`. -/
def Tiles : List (Spanned β) → Nat → Nat → Prop
  | [], start, stop => start = stop
  | x :: rest, start, stop => x.start = start ∧ Tiles rest x.stop stop

/-- One more element at the end. -/
theorem Tiles.concat {elements : List (Spanned β)} {start stop : Nat} {x : Spanned β}
    (h : Tiles elements start stop) (hx : x.start = stop) : Tiles (elements ++ [x]) start x.stop := by
  induction elements generalizing start with
  | nil =>
    unfold Tiles at h
    subst h
    exact ⟨hx, rfl⟩
  | cons y rest ih => exact ⟨h.1, ih h.2⟩

/-- What an attempt at a place answers: a value that spans what is taken, or a failure within the rest of the
input. -/
def Result.Exact (c : Cursor) : Result → Prop
  | .success x next => c.Reaches next ∧ x.Covers c next
  | .failure offset => c.offset ≤ offset ∧ offset ≤ c.input.length

/-- A text is what it spans in an input. -/
def Spanned.IsTextOf (x : Spanned Value) (input : Bytes) : Prop :=
  x.start ≤ x.stop ∧ x.stop ≤ input.length ∧ x.value = .text ((input.drop x.start).take (x.stop - x.start))

/-- A failure where the attempt started is within the input. -/
theorem Result.exact_failure (c : Cursor) : (Result.failure c.offset).Exact c :=
  ⟨Nat.le_refl _, c.offset_le⟩

/-- The matched text behind a cursor. -/
theorem isTextOf_textFrom {c next : Cursor} (h : c.Reaches next) :
    (⟨.text (next.textFrom c.offset), c.offset, next.offset⟩ : Spanned Value).IsTextOf c.input := by
  refine ⟨h.le, h.le_length, ?_⟩
  show Value.text (next.textFrom c.offset) = _
  unfold Cursor.textFrom
  rw [if_pos h.le, h.input]

/-- The text that a terminal takes, of which no more than what remains is taken. -/
theorem isTextOf_take (c : Cursor) (n : Nat) :
    (⟨.text (c.remaining.take n), c.offset, (c.advance n).offset⟩ : Spanned Value).IsTextOf c.input := by
  have hreach := Cursor.Reaches.advance c n
  refine ⟨hreach.le, hreach.le_length, ?_⟩
  show Value.text (c.remaining.take n) = .text ((c.input.drop c.offset).take ((c.advance n).offset - c.offset))
  rw [Cursor.offset_advance, c.remaining_eq]
  congr 1
  rw [List.take_eq_take_iff, List.length_drop]
  have hle := c.offset_le
  omega

/-- Tagging a value keeps what it spans. -/
theorem covers_tagged {x : Spanned Value} {c next : Cursor} (tag : Bytes) (h : x.Covers c next) :
    (tagged tag x).Covers c next := by
  unfold tagged
  split
  · exact ⟨h.start, h.stop⟩
  · exact ⟨h.start, h.stop⟩

/-- What an item with a lookahead answers. A positive test keeps a value that goes beyond the place behind
the item, which is where the item started. -/
def Lookahead.Exact (lookahead : Lookahead) (c : Cursor) : Result → Prop
  | .success x next => c.Reaches next ∧ (lookahead = .none → x.Covers c next)
  | .failure offset => c.offset ≤ offset ∧ offset ≤ c.input.length

theorem judge_exact (lookahead : Lookahead) (asCondition : Bool) {c : Cursor} {r : Result} (h : r.Exact c) :
    lookahead.Exact c (lookahead.judge asCondition c r) := by
  have hfailure : lookahead.Exact c (.failure c.offset) := Result.exact_failure c
  cases lookahead with
  | none =>
    cases r with
    | failure offset => exact hfailure
    | success x next => exact ⟨h.1, fun _ => h.2⟩
  | ahead =>
    cases r with
    | failure offset => exact hfailure
    | success x next =>
      simp only [Lookahead.judge]
      split
      · exact hfailure
      · refine ⟨Cursor.Reaches.refl c, ?_⟩
        intro hnone
        cases hnone
  | notAhead =>
    -- a negative test that holds yields nothing, here
    have hsuccess : Lookahead.notAhead.Exact c (.success ⟨.unit, c.offset, c.offset⟩ c) := by
      refine ⟨Cursor.Reaches.refl c, ?_⟩
      intro _
      exact ⟨rfl, rfl⟩
    cases r with
    | failure offset => exact hsuccess
    | success x next =>
      simp only [Lookahead.judge]
      split
      · exact hsuccess
      · exact hfailure

/-! ## Exact entries -/

/-- What is entered spans what it says in an input. -/
def Entry.Exact (input : Bytes) : Entry → Prop
  | .rule _ => True
  | .action _ => True
  | .matcher _ => True
  | .write _ _ => True
  | .read _ _ _ => True
  | .matched start stop => start ≤ stop ∧ stop ≤ input.length
  | .text x => x.IsTextOf input
  | .list elements start stop => Tiles elements start stop ∧ start ≤ stop ∧ stop ≤ input.length
  | .answered c r => c.input = input ∧ r.Exact c

/-- Every kept result is exact at its key. -/
def Memo.Exact (input : Bytes) (memo : Memo) : Prop :=
  ∀ (index : Nat) (c : Cursor) (r : Result), c.input = input → memo[(index, c.offset)]? = some r → r.Exact c

/-- A result that is exact may be kept. -/
theorem Memo.Exact.insertIfNew {input : Bytes} {memo : Memo} (h : memo.Exact input) (index : Nat)
    {c : Cursor} {r : Result} (hinput : c.input = input) (hr : r.Exact c) :
    Memo.Exact input (memo.insertIfNew (index, c.offset) r) := by
  intro index' c' r' hinput' hr'
  rcases Memo.of_insertIfNew (hinput.trans hinput'.symm) hr' with ⟨_, hc, hnew⟩ | hold
  · subst hc
    subst hnew
    exact hr
  · exact h index' c' r' hinput' hold

theorem Memo.exact_empty (input : Bytes) : Memo.Exact input ∅ := by
  intro index c r _ hr
  rw [Std.HashMap.getElem?_empty] at hr
  cases hr

end Packrat
