import Packrat.CaseFold
import Packrat.Proofs.CaseClasses
import Packrat.Proofs.Scanning

/-!
# `Packrat.Proofs.Folding` — the fold of a text, and matching without case

The fold of a text is made of the encodings of the folds of its runes, one for each rune or malformed sequence. So
it is read rune for rune as the text was, and folding it again changes nothing.

A text is matched without case rune by rune, where the runes of the input have to be well-formed. As every fold of a
text is made of encodings, the match can be told from the folds alone: it is the front of the input that folds to
what the text folds to.

## Contents
- **Folds.** The runes of a fold; texts fold alike if their runes do; `casefold_stable`.
- **Matches.** `matchText_folds`.
-/

namespace Packrat

variable {expected p q t : Bytes} {n : Nat}

/-! ## Folds -/

namespace Utf8

/-- The fold of a text is made of the encodings of the folds of its runes. -/
theorem casefold_eq (text : Bytes) : casefold text = ((runes text).map Rune.fold).flatMap encode :=
  (List.flatMap_map ..).symm

/-- The folds of the runes of a text are scalar values. -/
theorem isScalar_of_mem_folds (text : Bytes) : ∀ r ∈ (runes text).map Rune.fold, r.isScalar = true := by
  rw [List.forall_mem_map]
  intro r hr
  rw [Rune.isScalar_fold]
  exact isScalar_of_mem_runes text r hr

/-- The runes of the fold of a text are the folds of its runes, one after the other. -/
theorem runes_casefold (text : Bytes) : runes (casefold text) = (runes text).map Rune.fold := by
  rw [casefold_eq, runes_encoded (isScalar_of_mem_folds text)]

/-- Texts have the same fold exactly if their runes have the same folds, one after the other. -/
theorem casefold_eq_iff : casefold p = casefold t ↔ (runes p).map Rune.fold = (runes t).map Rune.fold := by
  constructor
  · intro h
    rw [← runes_casefold, h, runes_casefold]
  · intro h
    rw [casefold_eq, casefold_eq, h]

/-- There are as many runes as are counted. -/
theorem length_runes (text : Bytes) : (runes text).length = count text := List.length_map ..

/-- **Folding a text is stable.** Whatever the text, its fold is well-formed and reads, rune for rune, as the folds
of the runes of the text; so it has as many runes, and is its own fold. -/
theorem casefold_stable (text : Bytes) :
    isWellFormed (casefold text) = true ∧ runes (casefold text) = (runes text).map Rune.fold ∧
      casefold (casefold text) = casefold text ∧ count (casefold text) = count text := by
  refine ⟨?_, runes_casefold text, ?_, ?_⟩
  · rw [casefold_eq]
    exact isWellFormed_encoded _
  · rw [casefold_eq_iff, runes_casefold, List.map_map]
    exact List.map_congr_left fun r _ => Rune.fold_fold r
  · rw [← length_runes, ← length_runes, runes_casefold, List.length_map]

example : casefold [0xCE, 0xA3, 0xE2, 0x41, 0x80, 0x4B] = [0xCF, 0x83, 0xEF, 0xBF, 0xBD, 0x6B] := by decide

end Utf8

/-! ## Matches -/

/-- A well-formed text stands at a place and folds to what another text folds to. -/
structure StandsFolded (c : Cursor) (expected p : Bytes) : Prop where
  stands : p <+: c.remaining
  wellFormed : Utf8.isWellFormed p = true
  folds : Utf8.casefold p = Utf8.casefold expected

/-- A text is matched without case where a text of the same fold stands, and that text is taken. -/
theorem text?_eq_some_iff {c : Cursor} :
    Terminal.text? expected true c.remaining = some n ↔ ∃ p, StandsFolded c expected p ∧ n = p.length := by
  unfold Terminal.text?
  rw [if_pos rfl, Terminal.runes?_eq_some_iff]
  constructor
  · rintro ⟨rs, hrs, hagree, hstands, rfl⟩
    refine ⟨rs.flatMap Utf8.encode, ⟨hstands, Utf8.isWellFormed_encoded rs, ?_⟩, rfl⟩
    rw [Utf8.casefold_eq_iff, Utf8.runes_encoded hrs]
    exact Terminal.forall₂_agree_caseless.mp hagree
  · rintro ⟨p, ⟨hstands, hwell, hfolds⟩, rfl⟩
    refine ⟨Utf8.runes p, Utf8.isScalar_of_mem_runes p, ?_, ?_, ?_⟩
    · exact Terminal.forall₂_agree_caseless.mpr (Utf8.casefold_eq_iff.mp hfolds)
    · rw [Utf8.encoded_runes p hwell]
      exact hstands
    · rw [Utf8.encoded_runes p hwell]

/-- At most one text that stands at a place has a fold: a match of either takes as many bytes as it has. -/
theorem StandsFolded.unique {c : Cursor} (hp : StandsFolded c expected p) (hq : StandsFolded c expected q) : p = q := by
  have hpmatch := text?_eq_some_iff.mpr ⟨p, hp, rfl⟩
  rw [text?_eq_some_iff.mpr ⟨q, hq, rfl⟩] at hpmatch
  have hlength : q.length = p.length := Option.some.inj hpmatch
  rw [List.prefix_iff_eq_take.mp hp.stands, List.prefix_iff_eq_take.mp hq.stands, hlength]

/-- **Matching without case is equality of folds.** For every text and every place: the match takes and yields `p`
exactly if `p` stands there, is well-formed and folds to what the text folds to; there is at most one such `p`; and
the match fails exactly if there is none. -/
theorem matchText_folds (c : Cursor) (expected : Bytes) :
    (∀ (p : Bytes) (n : Nat),
      matchText c expected true = .success p n ↔ StandsFolded c expected p ∧ n = p.length) ∧
    (∀ p q : Bytes, StandsFolded c expected p → StandsFolded c expected q → p = q) ∧
    (matchText c expected true = .failure c.offset ↔ ¬∃ p, StandsFolded c expected p) := by
  refine ⟨fun p n => ?_, fun p q => StandsFolded.unique, ?_⟩
  · unfold matchText
    rw [Match.ofLength_eq_success, text?_eq_some_iff]
    constructor
    · rintro ⟨⟨q, hq, rfl⟩, rfl⟩
      rw [← List.prefix_iff_eq_take.mp hq.stands]
      exact ⟨hq, rfl⟩
    · rintro ⟨hp, rfl⟩
      exact ⟨⟨p, hp, rfl⟩, List.prefix_iff_eq_take.mp hp.stands⟩
  · unfold matchText
    rw [Match.ofLength_eq_failure, Option.eq_none_iff_forall_ne_some]
    constructor
    · rintro hnone ⟨p, hp⟩
      exact hnone _ (text?_eq_some_iff.mpr ⟨p, hp, rfl⟩)
    · intro hnone n hn
      obtain ⟨p, hp, -⟩ := text?_eq_some_iff.mp hn
      exact hnone ⟨p, hp⟩

theorem matchText_folds_sigma :
    matchText (Cursor.ofText [0xCF, 0x82, 0xEF, 0xBF, 0xBD, 0x21] 0) [0xCE, 0xA3, 0x80] true =
        .success [0xCF, 0x82, 0xEF, 0xBF, 0xBD] 5 ∧
      (∀ p, StandsFolded (Cursor.ofText [0xCF, 0x82, 0xEF, 0xBF, 0xBD, 0x21] 0) [0xCE, 0xA3, 0x80] p →
        p = [0xCF, 0x82, 0xEF, 0xBF, 0xBD]) ∧
      ¬∃ p, StandsFolded (Cursor.ofText [0xCF, 0x82, 0x80, 0x21] 0) [0xCE, 0xA3, 0x80] p := by
  obtain ⟨hsuccess, hunique, -⟩ :=
    matchText_folds (Cursor.ofText [0xCF, 0x82, 0xEF, 0xBF, 0xBD, 0x21] 0) [0xCE, 0xA3, 0x80]
  obtain ⟨-, -, hfailure⟩ := matchText_folds (Cursor.ofText [0xCF, 0x82, 0x80, 0x21] 0) [0xCE, 0xA3, 0x80]
  -- the replacement is expected for the malformed octet, and found as itself only
  have hstands : StandsFolded (Cursor.ofText [0xCF, 0x82, 0xEF, 0xBF, 0xBD, 0x21] 0) [0xCE, 0xA3, 0x80]
      [0xCF, 0x82, 0xEF, 0xBF, 0xBD] := ⟨by decide, by decide, by decide⟩
  exact ⟨(hsuccess _ _).mpr ⟨hstands, rfl⟩, fun p hp => hunique p _ hp hstands, hfailure.mp rfl⟩

end Packrat
