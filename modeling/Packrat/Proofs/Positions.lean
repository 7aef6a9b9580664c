import Packrat.Parse
import Packrat.Proofs.Queries

/-!
# `Packrat.Proofs.Positions` — lines and columns, counted in one pass

A position query scans twice: for the line endings first, and then from the last of them for the column. A single
pass over the runes up to the offset, with no more memory than the rune before, finds the same. So positions come
in the order of their offsets, also where an offset cuts a sequence or a line ending in two.

## Contents
- **Counting.** `Position.next`, what one rune does to a position, and `Position.ofRunes`, the pass.
- **Order.** No rune leads back, and neither does one more octet of a text.
- **New environments.** `positionAt_counted`.
-/

namespace Packrat

variable {α σ : Type}

/-! ## Counting -/

/-- The runes that end a line: LF, VT, FF, CR, and the next-line, line-separator and paragraph-separator
characters. -/
def lineEnds : List Rune := [0x0A, 0x0B, 0x0C, 0x0D, 0x85, 0x2028, 0x2029]

namespace Position

/-- The position after one rune. A line ending starts a line, but a LF right after a CR belongs to the line ending
before; a tab leads to the start of an alignment unit, unless that lies behind; any other rune takes one column. -/
def next (tabs : Tabs) (pos : Position) (previous : Option Rune) (r : Rune) : Position :=
  if r ∈ lineEnds then
    if r = 0x0A ∧ previous = some 0x0D then pos else ⟨pos.line + 1, 1⟩
  else if r = 0x09 then
    let moved := pos.column + tabs.width
    ⟨pos.line, max pos.column (moved - (moved - 1) % tabs.alignment)⟩
  else ⟨pos.line, pos.column + 1⟩

/-- The position behind a run of runes, counted from the first to the last. -/
def ofRunes (tabs : Tabs) (rs : List Rune) : Position :=
  (rs.foldl (fun (pos, previous) r => (pos.next tabs previous r, some r)) ((⟨1, 1⟩ : Position), none)).1

theorem isLineEnding_iff (r : Rune) : r.isLineEnding = true ↔ r ∈ lineEnds := by
  have hrow (n : Nat) : n = 0x0A ∨ n = 0x0B ∨ n = 0x0C ∨ n = 0x0D ↔ 0x0A ≤ n ∧ n ≤ 0x0D := by omega
  simp only [Rune.isLineEnding, lineEnds, List.mem_cons, List.not_mem_nil, or_false, Bool.or_eq_true,
    Bool.and_eq_true, decide_eq_true_eq, beq_iff_eq, ← hrow, or_assoc]

/-- A step of a walk is a step of the count. -/
theorem step_eq_next (tabs : Tabs) (pos : Position) (previous : Option Rune) (r : Rune) :
    pos.step tabs (previous.getD 0) r = pos.next tabs previous r := by
  have hreturn : previous.getD 0 = 0x0D ↔ previous = some 0x0D := by
    cases previous with
    | none => exact ⟨fun h => absurd h (by decide), fun h => by cases h⟩
    | some r => exact ⟨congrArg some, Option.some.inj⟩
  unfold step next
  by_cases hending : r ∈ lineEnds
  · rw [if_pos ((isLineEnding_iff r).mpr hending), if_pos hending]
    simp only [hreturn, and_comm]
  · rw [if_neg (mt (isLineEnding_iff r).mp hending), if_neg hending, advanceColumn]
    by_cases htab : r = 0x09
    · rw [if_pos (beq_iff_eq.mpr htab), if_pos htab, Tabs.next, Nat.max_comm]
    · rw [if_neg (mt beq_iff_eq.mp htab), if_neg htab]

/-- A walk goes where the count goes. -/
theorem walk_eq_ofRunes (tabs : Tabs) (rs : List Rune) : origin.walk tabs 0 rs = ofRunes tabs rs := by
  have hfold : ∀ (pos : Position) (previous : Option Rune), pos.walk tabs (previous.getD 0) rs =
      (rs.foldl (fun (pos, previous) r => (pos.next tabs previous r, some r)) (pos, previous)).1 := by
    induction rs with
    | nil => exact fun _ _ => rfl
    | cons r rest ih =>
      intro pos previous
      rw [walk, List.foldl_cons, step_eq_next]
      exact ih (pos.next tabs previous r) (some r)
  exact hfold origin none

/-! ## Order -/

theorem not_before_trans {p q r : Position} (h : q.before p = false) (h' : r.before q = false) :
    r.before p = false := by
  simp only [before, Bool.or_eq_false_iff, Bool.and_eq_false_iff, beq_eq_false_iff_ne, decide_eq_false_iff_not] at *
  omega

theorem not_before_of_line_lt {p q : Position} (h : p.line < q.line) : q.before p = false := by
  simp only [before, Bool.or_eq_false_iff, Bool.and_eq_false_iff, beq_eq_false_iff_ne, decide_eq_false_iff_not]
  omega

theorem not_before_of_column_le {line c d : Nat} (h : c ≤ d) : (⟨line, d⟩ : Position).before ⟨line, c⟩ = false := by
  simp only [before, Bool.or_eq_false_iff, Bool.and_eq_false_iff, decide_eq_false_iff_not]
  omega

theorem le_advanceColumn (tabs : Tabs) (column : Nat) (r : Rune) : column ≤ advanceColumn tabs column r := by
  unfold advanceColumn
  by_cases htab : (r == 0x09) = true
  · rw [if_pos htab]
    exact tabs.le_next column
  · rw [if_neg htab]
    exact Nat.le_succ column

/-- No rune leads back. -/
theorem not_before_step (tabs : Tabs) (pos : Position) (previous r : Rune) :
    (pos.step tabs previous r).before pos = false := by
  unfold step
  by_cases hending : r.isLineEnding = true
  · rw [if_pos hending]
    by_cases hfeed : previous = 0x0D ∧ r = 0x0A
    · rw [if_pos hfeed]
      exact before_irrefl pos
    · rw [if_neg hfeed]
      exact not_before_of_line_lt (Nat.lt_succ_self pos.line)
  · rw [if_neg hending]
    exact not_before_of_column_le (le_advanceColumn tabs pos.column r)

theorem not_before_walk (tabs : Tabs) (pos : Position) (previous : Rune) (rs : List Rune) :
    (pos.walk tabs previous rs).before pos = false := by
  induction rs generalizing pos previous with
  | nil => exact before_irrefl pos
  | cons r rest ih => exact not_before_trans (not_before_step tabs pos previous r) (ih _ r)

end Position

namespace Locator

/-- One more octet does not lead back: behind a boundary it is a rune more, and inside a sequence it makes another
rune of the sequence that was cut off, which starts a line or takes the same column. -/
theorem not_before_position_succ (tabs : Tabs) {text : Bytes} {i : Nat} (hi : i < text.length) :
    (position text tabs (i + 1)).before (position text tabs i) = false := by
  rw [position_eq_walk tabs hi, position_eq_walk tabs (Nat.le_of_lt hi)]
  by_cases hboundary : Utf8.Boundary text i
  · rw [Utf8.runes_take_append hboundary (Nat.le_succ i), Position.walk_append]
    exact Position.not_before_walk tabs _ _ _
  · obtain ⟨before, r, hhere, hfurther, hr, -, -⟩ :=
      Utf8.runes_take_inside hboundary (List.getElem?_eq_getElem hi)
    rw [hhere, hfurther, Position.walk_append, Position.walk_append]
    generalize Position.origin.walk tabs 0 before = pos
    show (pos.step tabs (before.getLastD 0) r).before (pos.step tabs (before.getLastD 0) Rune.replacement) = false
    rw [Position.step_replacement]
    rcases Position.step_beyond_ascii tabs pos (before.getLastD 0) hr with hline | hcolumn
    · rw [hline]
      exact Position.not_before_of_line_lt (Nat.lt_succ_self pos.line)
    · rw [hcolumn]
      exact Position.before_irrefl _

theorem not_before_position (text : Bytes) (tabs : Tabs) {i j : Nat} (hij : i ≤ j) :
    (position text tabs j).before (position text tabs i) = false := by
  induction hij with
  | refl => exact Position.before_irrefl _
  | @step j _ ih =>
    by_cases hj : j < text.length
    · exact Position.not_before_trans ih (not_before_position_succ tabs hj)
    · -- behind the end all offsets are the end
      have hend : position text tabs (j + 1) = position text tabs j := by
        rw [← position_min, ← position_min tabs text j, Nat.min_eq_right (Nat.le_of_not_lt hj),
          Nat.min_eq_right (Nat.le_succ_of_le (Nat.le_of_not_lt hj))]
      rw [hend]
      exact ih

end Locator

/-! ## New environments -/

/-- **Positions are counted in one pass, in the order of their offsets.** In an environment that has just been reset
to a text, whatever its tabs: the position of an offset is that behind the runes of the text up to there, and no
position comes before that of a smaller offset. -/
theorem positionAt_counted (client : Client α σ) (env : Env σ) (text : Bytes) :
    (∀ offset, ((env.reset client text).positionAt offset).1 =
      Position.ofRunes env.settings.tabs (Utf8.runes (text.take offset))) ∧
    (∀ i j, i ≤ j →
      ((env.reset client text).positionAt j).1.before ((env.reset client text).positionAt i).1 = false) := by
  have hnew : ∀ offset, ((env.reset client text).positionAt offset).1 =
      Locator.position text env.settings.tabs offset := fun _ => rfl
  refine ⟨fun offset => ?_, fun i j hij => ?_⟩
  · have htake : text.take (min offset text.length) = text.take offset := by
      rw [List.take_eq_take_iff, Nat.min_assoc, Nat.min_self]
    rw [hnew, ← Locator.position_min, Locator.position_eq_walk _ (Nat.min_le_right _ _), htake,
      Position.walk_eq_ofRunes]
  · rw [hnew, hnew]
    exact Locator.not_before_position text env.settings.tabs hij

example : Position.ofRunes {} (Utf8.runes [0x61, 0x0D, 0x0A, 0x09, 0xE2, 0x80]) = ⟨2, 10⟩ := by decide

end Packrat
