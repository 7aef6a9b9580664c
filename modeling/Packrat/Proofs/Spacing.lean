import Packrat.Matcher
import Packrat.Proofs.Encodings
import Packrat.Proofs.Positions
import Packrat.Proofs.Reading

/-!
# `Packrat.Proofs.Spacing` — what spacing skips

Spacing takes blank runes and comments as long as one stands in front. A line comment leaves the line feed behind it
in place, and a block comment ends where it is closed for the first time, however it goes on inside. A block comment
that is not closed is none, and spacing stops in front of it.

## Contents
- **First occurrences.** `FirstAfter`, and where `indexOf` finds a pattern.
- **One blank.** `Blank`: a blank rune or a comment in front of a rest. Its length is found where one stands.
- **Runs of blanks.** `Blanks`, and what spacing takes of a text.
- **Spacing.** `spacing_exact`.
-/

namespace Packrat

/-! ## First occurrences -/

namespace Bytes

variable {pattern text : Bytes} {n : Nat}

/-- No occurrence of a pattern comes earlier than the one between two texts. -/
def FirstAfter (pattern before behind : Bytes) : Prop :=
  ∀ earlier later, before ++ (pattern ++ behind) = earlier ++ (pattern ++ later) → before.length ≤ earlier.length

/-- A pattern is found behind the text that its first occurrence comes after. -/
theorem indexOf_eq_some_iff (hne : pattern ≠ []) :
    indexOf pattern text = some n ↔
      ∃ before behind, text = before ++ (pattern ++ behind) ∧ FirstAfter pattern before behind ∧
        n = before.length := by
  induction text generalizing n with
  | nil =>
    rw [indexOf, if_neg (by rwa [List.isEmpty_iff])]
    constructor
    · intro h
      cases h
    · rintro ⟨before, behind, htext, -, -⟩
      have hempty := List.append_eq_nil_iff.mp (List.append_eq_nil_iff.mp htext.symm).2
      exact absurd hempty.1 hne
  | cons b text ih =>
    rw [indexOf]
    by_cases hstart : startsWith pattern (b :: text) = true
    · -- the pattern stands in front, and nothing comes earlier
      obtain ⟨behind, hbehind⟩ := startsWith_iff.mp hstart
      rw [if_pos hstart]
      constructor
      · rintro ⟨⟩
        exact ⟨[], behind, hbehind, fun _ _ _ => Nat.zero_le _, rfl⟩
      · rintro ⟨before, behind', htext, hfirst, rfl⟩
        have hle : before.length ≤ 0 := hfirst [] behind (htext.symm.trans hbehind)
        rw [Nat.le_zero.mp hle]
    · -- every occurrence is one of the tail, a byte later
      rw [if_neg hstart, Option.map_eq_some_iff]
      constructor
      · rintro ⟨k, hk, rfl⟩
        obtain ⟨before, behind, rfl, hfirst, rfl⟩ := ih.mp hk
        refine ⟨b :: before, behind, rfl, ?_, rfl⟩
        intro earlier later h
        cases earlier with
        | nil => exact absurd (startsWith_iff.mpr ⟨later, h⟩) hstart
        | cons b' earlier => exact Nat.succ_le_succ (hfirst earlier later (List.cons.inj h).2)
      · rintro ⟨before, behind, htext, hfirst, rfl⟩
        cases before with
        | nil => exact absurd (startsWith_iff.mpr ⟨behind, htext⟩) hstart
        | cons b' before =>
          obtain ⟨rfl, rfl⟩ := List.cons.inj htext
          refine ⟨before.length, ih.mpr ⟨before, behind, rfl, ?_, rfl⟩, rfl⟩
          intro earlier later h
          exact Nat.le_of_succ_le_succ (hfirst (b :: earlier) later (congrArg (b :: ·) h))

end Bytes

namespace Matcher

variable {text u rest : Bytes} {n : Nat}

/-! ## One blank -/

/-- The blank runes. -/
def blankRunes : List Rune := 0x20 :: 0x09 :: lineEnds

/-- A blank rune, or a comment, that stands in front of a rest. -/
inductive Blank : Bytes → Bytes → Prop
  | rune {r : Rune} {rest : Bytes} (hr : r ∈ blankRunes) : Blank (Utf8.encode r) rest
  /-- A line comment goes up to the next LF or to the end. -/
  | line {body rest : Bytes} (hbody : 0x0A ∉ body) (hrest : rest = [] ∨ ∃ more, rest = 0x0A :: more) :
    Blank (lineOpening ++ body) rest
  /-- A block comment goes up to the first closing behind its opening. -/
  | block {body rest : Bytes} (hfirst : Bytes.FirstAfter blockClosing body rest) :
    Blank (blockOpening ++ (body ++ blockClosing)) rest

theorem isBlank_iff (r : Rune) : isBlank r = true ↔ r ∈ blankRunes := by
  have hvertical : (0x0B : Rune) ∈ lineEnds ∧ (0x0C : Rune) ∈ lineEnds := by decide
  simp only [isBlank, blankRunes, Bool.or_eq_true, beq_iff_eq, Position.isLineEnding_iff, List.mem_cons, or_assoc]
  constructor
  · rintro (h | h | rfl | rfl | h)
    · exact .inl h
    · exact .inr (.inl h)
    · exact .inr (.inr hvertical.1)
    · exact .inr (.inr hvertical.2)
    · exact .inr (.inr h)
  · rintro (h | h | h)
    · exact .inl h
    · exact .inr (.inl h)
    · exact .inr (.inr (.inr (.inr h)))

/-- No comment starts as a blank rune does. -/
theorem not_opening_of_blank {r : Rune} (hr : r ∈ blankRunes) (rest : Bytes) :
    r.isScalar = true ∧ Bytes.startsWith lineOpening (Utf8.encode r ++ rest) = false ∧
      Bytes.startsWith blockOpening (Utf8.encode r ++ rest) = false := by
  simp only [blankRunes, lineEnds, List.mem_cons, List.not_mem_nil, or_false] at hr
  rcases hr with rfl | rfl | rfl | rfl | rfl | rfl | rfl | rfl | rfl <;> exact ⟨rfl, rfl, rfl⟩

/-- The text up to the next LF is followed by it or by nothing. -/
theorem line_ends (text : Bytes) :
    text.dropWhile (· != 0x0A) = [] ∨ ∃ more, text.dropWhile (· != 0x0A) = 0x0A :: more := by
  cases hdrop : text.dropWhile (· != 0x0A) with
  | nil => exact .inl rfl
  | cons b more =>
    have hhead := List.head?_dropWhile_not (· != 0x0A) text
    rw [hdrop] at hhead
    have hb : b = 0x0A := by simpa using hhead
    exact .inr ⟨more, by rw [hb]⟩

theorem Blank.length_pos (h : Blank u rest) : 0 < u.length := by
  cases h with
  | rune hr =>
    have hscalar := (not_opening_of_blank hr []).1
    exact List.length_pos_iff.mpr (Utf8.encode_ne_nil hscalar)
  | line => exact Nat.lt_of_lt_of_le (by decide) (List.length_append ▸ Nat.le_add_right lineOpening.length _)
  | block => exact Nat.lt_of_lt_of_le (by decide) (List.length_append ▸ Nat.le_add_right blockOpening.length _)

/-- Where the length of a blank is found, one stands. -/
theorem exists_blank_of_length (h : blankLength? text = some n) :
    ∃ u rest, text = u ++ rest ∧ Blank u rest ∧ n = u.length := by
  unfold blankLength? at h
  split at h
  · next hline =>
    obtain ⟨more, rfl⟩ := Bytes.startsWith_iff.mp hline
    have hopening : ∀ b ∈ lineOpening, (b != 0x0A) = true := by decide
    have hbody : 0x0A ∉ more.takeWhile (· != 0x0A) := by
      intro hmem
      have hother := List.all_eq_true.mp List.all_takeWhile _ hmem
      exact bne_iff_ne.mp hother rfl
    rw [List.takeWhile_append_of_pos hopening] at h
    cases h
    refine ⟨_, more.dropWhile (· != 0x0A), ?_, .line hbody (line_ends more), rfl⟩
    rw [List.append_assoc, List.takeWhile_append_dropWhile]
  · split at h
    · next hblock =>
      obtain ⟨more, rfl⟩ := Bytes.startsWith_iff.mp hblock
      have hdrop : (blockOpening ++ more).drop 2 = more := rfl
      rw [hdrop, Option.map_eq_some_iff] at h
      obtain ⟨k, hk, rfl⟩ := h
      obtain ⟨body, rest, rfl, hfirst, rfl⟩ := (Bytes.indexOf_eq_some_iff (by decide)).mp hk
      refine ⟨_, rest, ?_, .block hfirst, ?_⟩
      · simp only [List.append_assoc]
      · have hmarks : blockOpening.length = 2 ∧ blockClosing.length = 2 := ⟨rfl, rfl⟩
        rw [List.length_append, List.length_append]
        omega
    · split at h
      · next r k hrune =>
        obtain ⟨-, ⟨rest, rfl⟩, rfl⟩ := Terminal.of_rune? hrune
        split at h
        · next hr =>
          cases h
          exact ⟨_, rest, rfl, .rune ((isBlank_iff r).mp hr), rfl⟩
        · cases h
      · cases h

/-- Where a blank stands, its length is found. -/
theorem Blank.length_found (h : Blank u rest) : blankLength? (u ++ rest) = some u.length := by
  unfold blankLength?
  cases h with
  | @rune r _ hr =>
    obtain ⟨hscalar, hline, hblock⟩ := not_opening_of_blank hr rest
    rw [hline, hblock, Terminal.rune?_encode hscalar]
    simp only [Bool.false_eq_true, if_false, (isBlank_iff r).mpr hr, if_true]
  | @line body _ hbody hrest =>
    have hstart : Bytes.startsWith lineOpening (lineOpening ++ body ++ rest) = true :=
      Bytes.startsWith_iff.mpr ⟨body ++ rest, List.append_assoc ..⟩
    have hall : ∀ b ∈ lineOpening ++ body, (b != 0x0A) = true := by
      intro b hb
      rw [bne_iff_ne]
      rintro rfl
      exact (List.mem_append.mp hb).elim (by decide) hbody
    have hstop : rest.takeWhile (· != 0x0A) = [] := by rcases hrest with rfl | ⟨more, rfl⟩ <;> rfl
    rw [if_pos hstart, List.takeWhile_append_of_pos hall, hstop, List.append_nil]
  | @block body _ hfirst =>
    have hother : Bytes.startsWith lineOpening (blockOpening ++ (body ++ blockClosing) ++ rest) = false := rfl
    have hstart : Bytes.startsWith blockOpening (blockOpening ++ (body ++ blockClosing) ++ rest) = true :=
      Bytes.startsWith_iff.mpr ⟨_, List.append_assoc ..⟩
    have hdrop : (blockOpening ++ (body ++ blockClosing) ++ rest).drop 2 = body ++ (blockClosing ++ rest) := by
      rw [List.append_assoc, List.append_assoc]
      rfl
    have hfound : Bytes.indexOf blockClosing (body ++ (blockClosing ++ rest)) = some body.length :=
      (Bytes.indexOf_eq_some_iff (by decide)).mpr ⟨body, rest, rfl, hfirst, rfl⟩
    have hmarks : blockOpening.length = 2 ∧ blockClosing.length = 2 := ⟨rfl, rfl⟩
    rw [hother, if_neg Bool.false_ne_true, if_pos hstart, hdrop, hfound, Option.map_some, List.length_append,
      List.length_append]
    congr 1
    omega

/-! ## Runs of blanks -/

/-- A text made of blanks and comments, one after the other, that stands in front of a rest. -/
inductive Blanks : Bytes → Bytes → Prop
  | nil {rest : Bytes} : Blanks [] rest
  | cons {u t rest : Bytes} (hu : Blank u (t ++ rest)) (ht : Blanks t rest) : Blanks (u ++ t) rest

/-- Skipping bytes of a blank is dropping them first. -/
theorem spacingFrom_eq (skip : Nat) (text : Bytes) :
    spacingFrom skip text = min skip text.length + spacingLength (text.drop skip) := by
  induction text generalizing skip with
  | nil => cases skip <;> rfl
  | cons b text ih =>
    cases skip with
    | zero => simp [spacingLength]
    | succ skip =>
      rw [spacingFrom, ih, List.drop_succ_cons, List.length_cons]
      omega

theorem spacingLength_of_none (h : blankLength? text = none) : spacingLength text = 0 := by
  cases text with
  | nil => rfl
  | cons b text => rw [spacingLength, spacingFrom, h]

/-- Behind a blank, spacing goes on. -/
theorem spacingLength_of_blank (h : Blank u rest) : spacingLength (u ++ rest) = u.length + spacingLength rest := by
  have hfound := h.length_found
  have hpos := h.length_pos
  cases u with
  | nil => cases hpos
  | cons b u =>
    rw [List.cons_append] at hfound ⊢
    rw [spacingLength, spacingFrom, hfound, List.length_cons]
    show 1 + spacingFrom u.length (u ++ rest) = u.length + 1 + spacingLength rest
    rw [spacingFrom_eq, List.drop_left, List.length_append]
    omega

/-- Spacing takes blanks for as long as one stands in front. -/
theorem spacingLength_splits (text : Bytes) :
    ∃ skipped rest, text = skipped ++ rest ∧ Blanks skipped rest ∧ spacingLength text = skipped.length ∧
      blankLength? rest = none := by
  induction hn : text.length using Nat.strongRecOn generalizing text with
  | ind n ih =>
    cases hfound : blankLength? text with
    | none => exact ⟨[], text, rfl, .nil, spacingLength_of_none hfound, hfound⟩
    | some k =>
      obtain ⟨u, behind, rfl, hu, rfl⟩ := exists_blank_of_length hfound
      have hshorter : behind.length < n := by
        have hpos := hu.length_pos
        rw [List.length_append] at hn
        omega
      obtain ⟨skipped, rest, rfl, hskipped, hlength, hend⟩ := ih _ hshorter behind rfl
      refine ⟨u ++ skipped, rest, (List.append_assoc ..).symm, .cons hu hskipped, ?_, hend⟩
      rw [spacingLength_of_blank hu, hlength, List.length_append]

/-! ## Spacing -/

/-- **Spacing skips exactly the blanks and comments.** At every place it succeeds, and what it takes is made of blank
runes and comments. No other one stands in front of the rest, so that spacing takes nothing there. -/
theorem spacing_exact (c : Cursor) :
    ∃ skipped rest, c.remaining = skipped ++ rest ∧ spacing c = .ok (.success .unit skipped.length) ∧
      Blanks skipped rest ∧ (∀ u more, rest = u ++ more → ¬Blank u more) ∧
      (c.advance skipped.length).remaining = rest ∧
      spacing (c.advance skipped.length) = .ok (.success .unit 0) := by
  obtain ⟨skipped, rest, hsplit, hskipped, hlength, hend⟩ := spacingLength_splits c.remaining
  have hnext : (c.advance skipped.length).remaining = rest := (Cursor.Past.advance hsplit).remaining hsplit
  refine ⟨skipped, rest, hsplit, ?_, hskipped, ?_, hnext, ?_⟩
  · rw [spacing, hlength]
  · rintro u more rfl hblank
    rw [hblank.length_found] at hend
    cases hend
  · rw [spacing, hnext, spacingLength_of_none hend]

end Matcher

end Packrat
