import Packrat.Terminal

/-!
# `Packrat.Proofs.CaseClasses` — classes and literals without case

A class without case holds the runes that fold to what it covers or to whose upper case it covers. The two tables
reach every rune of the same fold from every other one, but for the final sigma: no rune has it as its fold or
upper case.

## Contents
- **Tables.** How `Rune.fold` and `Rune.upper` go together.
- **Membership.** Where runes of the same fold are held together.
- **One character.** Classes and literals of a single character.
- **Exactness.** `CharClass.caseless_exact`.
-/

namespace Packrat

/-! ## Tables -/

namespace Rune

/-- The capital letter sigma. -/
def capitalSigma : Rune := 0x3A3

/-- The small letter sigma, to which all three fold. -/
def smallSigma : Rune := 0x3C3

/-- The small letter sigma at the end of a word. -/
def finalSigma : Rune := 0x3C2

/-- The tables end with the Cyrillic letters. -/
theorem uncased_of_le {r : Nat} (h : 0x460 ≤ r) : Rune.fold r = r ∧ Rune.upper r = r := by
  have hblocks : ∀ blocks : List (Rune × Rune), (blocks.all fun block => decide (block.2 < 0x460)) = true →
      Rune.inBlocks r blocks = false := by
    intro blocks hall
    rw [Rune.inBlocks, List.any_eq_false]
    intro block hmem
    have hlast : (block.2 : Nat) < 0x460 := of_decide_eq_true (List.all_eq_true.mp hall block hmem)
    simp only [Bool.and_eq_true, decide_eq_true_eq, not_and]
    exact fun _ => Nat.not_le_of_lt (Nat.lt_of_lt_of_le hlast h)
  have heven := hblocks evenBlocks (by decide)
  have hodd := hblocks oddBlocks (by decide)
  have hle : ∀ m : Nat, m < 0x460 → ¬r ≤ m := fun m hm => Nat.not_le_of_lt (Nat.lt_of_lt_of_le hm h)
  have hne : ∀ m : Nat, m < 0x460 → ¬r = m := fun m hm heq => hle m hm (Nat.le_of_eq heq)
  have hlt : ¬r < 0x80 := Nat.not_lt_of_le (Nat.le_trans (by decide) h)
  constructor
  · simp (disch := decide) only [Rune.fold, Rune.isAlternatingUpper, heven, hodd, hle, hne, hlt, Bool.and_false,
      Bool.or_false, Bool.and_eq_true, decide_eq_true_eq, beq_iff_eq, Bool.false_eq_true, and_false, false_and,
      if_false]
  · simp (disch := decide) only [Rune.upper, Rune.isAlternatingLower, heven, hodd, hle, hne, hlt, Bool.and_false,
      Bool.or_false, Bool.and_eq_true, decide_eq_true_eq, beq_iff_eq, Bool.false_eq_true, and_false, false_and,
      if_false]

/-- What holds of the cased runes and of all runes without case can be computed. -/
theorem forall_cased {p : Rune → Bool} (hcased : (List.range 0x460).all p = true)
    (huncased : ∀ r : Rune, r.fold = r → r.upper = r → p r = true) (r : Rune) : p r = true := by
  by_cases h : r < 0x460
  · exact List.all_eq_true.mp hcased r (List.mem_range.mpr h)
  · obtain ⟨hfold, hupper⟩ := uncased_of_le (Nat.le_of_not_lt h)
    exact huncased r hfold hupper

/-- Folding leads from scalar values to scalar values only, and to no others. -/
theorem isScalar_fold (r : Rune) : r.fold.isScalar = r.isScalar :=
  eq_of_beq (forall_cased (p := fun r => r.fold.isScalar == r.isScalar) (by decide +kernel)
    (fun r hfold _ => by rw [hfold]; exact BEq.rfl) r)

/-- How the two tables go together at a rune. -/
def tablesAgree (r : Rune) : Bool :=
  r.fold.fold == r.fold && r.upper.fold == r.fold && r.fold.upper == r.upper &&
    (r == finalSigma || r == r.fold || r == r.upper)

theorem tablesAgree_all (r : Rune) : r.fold.fold = r.fold ∧ r.upper.fold = r.fold ∧ r.fold.upper = r.upper ∧
    (r = finalSigma ∨ r = r.fold ∨ r = r.upper) := by
  have h := forall_cased (p := tablesAgree) (by decide +kernel)
    (fun r hfold hupper => by simp [tablesAgree, hfold, hupper]) r
  simpa only [tablesAgree, Bool.and_eq_true, Bool.or_eq_true, beq_iff_eq, and_assoc, or_assoc] using h

theorem fold_fold (r : Rune) : r.fold.fold = r.fold := (tablesAgree_all r).1

theorem fold_upper (r : Rune) : r.upper.fold = r.fold := (tablesAgree_all r).2.1

theorem upper_fold (r : Rune) : r.fold.upper = r.upper := (tablesAgree_all r).2.2.1

/-- A rune other than a final sigma is its own fold or its own upper case. -/
theorem eq_fold_or_upper {r : Rune} (hfinal : r ≠ finalSigma) : r = r.fold ∨ r = r.upper :=
  (tablesAgree_all r).2.2.2.resolve_left hfinal

/-- A rune other than a final sigma is reached from every rune of its fold. -/
theorem fold_eq_iff {x r : Rune} (hfinal : x ≠ finalSigma) :
    r.fold = x.fold ↔ x = r ∨ x = r.fold ∨ x = r.upper := by
  constructor
  · intro h
    rcases eq_fold_or_upper hfinal with hx | hx
    · exact .inr (.inl (hx.trans h.symm))
    · right
      right
      rw [← upper_fold r, h, upper_fold x]
      exact hx
  · rintro (rfl | rfl | rfl)
    · rfl
    · exact (fold_fold r).symm
    · exact (fold_upper r).symm

end Rune

/-! ## Membership -/

namespace CharClass

variable {cls : CharClass} {r : Rune}

/-- Whether a class covers a rune with the given fold, other than a final sigma. -/
def coversFold (cls : CharClass) (f : Rune) : Bool := cls.covers f || cls.covers f.upper

/-- A class without case holds a rune by the fold of it, and a final sigma also by itself. -/
theorem contains_caseless (hcase : cls.caseless = true) (r : Rune) :
    cls.contains r = ((cls.coversFold r.fold || (r == Rune.finalSigma && cls.covers r)) != cls.negated) := by
  have hcovered : (cls.covers r || (cls.covers r.fold || cls.covers r.upper)) =
      (cls.coversFold r.fold || (r == Rune.finalSigma && cls.covers r)) := by
    rw [coversFold, Rune.upper_fold]
    by_cases hfinal : r = Rune.finalSigma
    · rw [beq_iff_eq.mpr hfinal, Bool.true_and, Bool.or_comm]
    · rw [beq_false_of_ne hfinal, Bool.false_and, Bool.or_false]
      rcases Rune.eq_fold_or_upper hfinal with h | h
      · rw [← h, ← Bool.or_assoc, Bool.or_self]
      · rw [← h, Bool.or_comm, Bool.or_assoc, Bool.or_self]
  rw [contains, hcase, Bool.true_and, hcovered]

/-- A class loses a final sigma if it covers it and neither of the others. -/
def losesSigma (cls : CharClass) : Bool :=
  cls.covers Rune.finalSigma && !cls.covers Rune.smallSigma && !cls.covers Rune.capitalSigma

/-- A class without case holds all runes of a fold or none, unless it loses a final sigma. -/
theorem contains_congr_iff (hcase : cls.caseless = true) :
    (∀ r₁ r₂ : Rune, r₁.isScalar = true → r₂.isScalar = true → r₁.fold = r₂.fold →
      cls.contains r₁ = cls.contains r₂) ↔ cls.losesSigma = false := by
  constructor
  · intro hall
    have hsigma := hall Rune.finalSigma Rune.smallSigma (by decide) (by decide) (by decide)
    rw [contains_caseless hcase, contains_caseless hcase] at hsigma
    change ((cls.coversFold Rune.smallSigma || (true && cls.covers Rune.finalSigma)) != cls.negated) =
      ((cls.coversFold Rune.smallSigma || (false && cls.covers Rune.smallSigma)) != cls.negated) at hsigma
    rw [coversFold, show Rune.upper Rune.smallSigma = Rune.capitalSigma by decide] at hsigma
    unfold losesSigma
    grind
  · intro hkeeps
    have hfold : ∀ r : Rune, cls.contains r = (cls.coversFold r.fold != cls.negated) := by
      intro r
      rw [contains_caseless hcase]
      by_cases hfinal : r = Rune.finalSigma
      · subst hfinal
        rw [coversFold, show Rune.fold Rune.finalSigma = Rune.smallSigma by decide,
          show Rune.upper Rune.smallSigma = Rune.capitalSigma by decide]
        unfold losesSigma at hkeeps
        grind
      · rw [beq_false_of_ne hfinal, Bool.false_and, Bool.or_false]
    intro r₁ r₂ _ _ hsame
    rw [hfold, hfold, hsame]

/-! ## One character -/

theorem covers_single {x r : Rune} {negated caseless : Bool} {spelling : Bytes} :
    (CharClass.mk [⟨x, x⟩] negated caseless spelling).covers r = true ↔ x = r := by
  simp only [covers, List.any_cons, List.any_nil, Bool.or_false, RuneRange.contains, Bool.and_eq_true,
    decide_eq_true_eq]
  exact Nat.le_antisymm_iff.symm

/-- A class of one character other than a final sigma holds what agrees with it up to case. -/
theorem contains_single {x : Rune} {spelling : Bytes} (hfinal : x ≠ Rune.finalSigma) (r : Rune) :
    (CharClass.mk [⟨x, x⟩] false true spelling).contains r = Terminal.agree true r x := by
  rw [Bool.eq_iff_iff]
  simp only [contains, Bool.true_and, Bool.bne_false, Bool.or_eq_true, covers_single]
  rw [Terminal.agree, if_pos rfl, beq_iff_eq, Rune.fold_eq_iff hfinal]

/-- A body of one character gives the class of that character. -/
theorem parse?_single {body : Bytes} {cls : CharClass} {s : Spelled} (h : parse? body true = .ok cls)
    (hcaret : splitCaret body = (false, body)) (hbody : Spelled.all body = [s]) :
    ∃ spelling, cls = ⟨[⟨s.rune, s.rune⟩], false, true, spelling⟩ := by
  have hne : body.isEmpty = false := by
    cases body with
    | nil => cases hbody
    | cons b rest => rfl
  simp only [parse?, hcaret, hne, hbody, Bool.false_eq_true, if_false] at h
  cases h
  exact ⟨_, rfl⟩

theorem caseless_of_parse? {body : Bytes} {caseless : Bool} {cls : CharClass} (h : parse? body caseless = .ok cls) :
    cls.caseless = caseless := by
  simp only [parse?] at h
  by_cases hempty : (splitCaret body).2.isEmpty = true
  · rw [if_pos hempty] at h
    cases h
  rw [if_neg hempty] at h
  cases hranges : ranges? (Spelled.all (splitCaret body).2) with
  | none =>
    rw [hranges] at h
    cases h
  | some ranges =>
    rw [hranges] at h
    cases h
    rfl

/-- A literal of one character matches one rune that agrees with it. -/
theorem literal?_single {body : Bytes} {s : Spelled} {braceSensitive : Bool} (hbody : Spelled.all body = [s])
    (hbrace : (braceSensitive && s.isBareBrace) = false) (text : Bytes) :
    Terminal.literal? body braceSensitive true text =
      ((Terminal.rune? text).filter fun (r, _) => Terminal.agree true r s.rune).map (·.2) := by
  simp only [Terminal.literal?, hbody, List.any_cons, List.any_nil, Bool.or_false, hbrace, Bool.false_eq_true,
    if_false, List.map_cons, List.map_nil, Terminal.runes?]
  cases Terminal.rune? text with
  | none => rfl
  | some found =>
    obtain ⟨r, n⟩ := found
    cases hagree : Terminal.agree true r s.rune <;> simp [hagree, Option.filter]

/-! ## Exactness -/

/-- **Classes without case respect folding, but for the final sigma.** A class without case holds all runes of a
fold or none, unless it covers the final sigma and neither of the others. A class of one character matches what
the literal of that character matches, unless the character is a final sigma. -/
theorem caseless_exact {body : Bytes} {cls : CharClass} (h : parse? body true = .ok cls) :
    ((∀ r₁ r₂ : Rune, r₁.isScalar = true → r₂.isScalar = true → r₁.fold = r₂.fold →
      cls.contains r₁ = cls.contains r₂) ↔ cls.losesSigma = false) ∧
    (∀ (s : Spelled) (braceSensitive : Bool), splitCaret body = (false, body) → Spelled.all body = [s] →
      (braceSensitive && s.isBareBrace) = false →
      ((∀ text, (Terminal.class? cls text).map (·.2) = Terminal.literal? body braceSensitive true text) ↔
        s.rune ≠ Rune.finalSigma)) := by
  refine ⟨contains_congr_iff (caseless_of_parse? h), fun s braceSensitive hcaret hbody hbrace => ?_⟩
  obtain ⟨spelling, rfl⟩ := parse?_single h hcaret hbody
  constructor
  · -- the literal matches a small sigma, and the class does not
    intro hall hfinal
    have hsigma := hall (Utf8.encode Rune.smallSigma)
    rw [literal?_single hbody hbrace, hfinal] at hsigma
    have hliteral : ((Terminal.rune? (Utf8.encode Rune.smallSigma)).filter fun (r, _) =>
        Terminal.agree true r Rune.finalSigma).map (·.2) = some 2 := by decide
    rw [hliteral] at hsigma
    cases hsigma
  · intro hfinal text
    rw [literal?_single hbody hbrace, Terminal.class?]
    congr 2
    funext found
    exact contains_single hfinal found.1

/-- A class of a final sigma misses the small sigma, which the literal of a final sigma matches. -/
theorem finalSigma_lost :
    ∃ cls, parse? (Utf8.encode Rune.finalSigma) true = .ok cls ∧
      Rune.fold Rune.finalSigma = Rune.fold Rune.smallSigma ∧
      cls.contains Rune.finalSigma = true ∧ cls.contains Rune.smallSigma = false ∧
      Terminal.class? cls (Utf8.encode Rune.smallSigma) = none ∧
      Terminal.literal? (Utf8.encode Rune.finalSigma) true true (Utf8.encode Rune.smallSigma) = some 2 :=
  ⟨_, rfl, by decide⟩

theorem caseless_exact_letter :
    ∃ cls, parse? (Bytes.ascii "k") true = .ok cls ∧ cls.contains 0x4B = cls.contains 0x6B ∧
      (Terminal.class? cls (Bytes.ascii "K")).map (·.2) = Terminal.literal? (Bytes.ascii "k") true true
        (Bytes.ascii "K") := by
  have hparse : parse? (Bytes.ascii "k") true = .ok ⟨[⟨0x6B, 0x6B⟩], false, true, Bytes.ascii "[k]"⟩ := rfl
  obtain ⟨hfold, hsingle⟩ := caseless_exact hparse
  exact ⟨_, rfl, hfold.mpr (by decide) 0x4B 0x6B (by decide) (by decide) (by decide),
    (hsingle ⟨0x6B, 1, false⟩ true (by decide) (by decide) (by decide)).mpr (by decide) (Bytes.ascii "K")⟩

end CharClass

end Packrat
