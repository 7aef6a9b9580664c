import Packrat.Proofs.Json.Parsing

/-!
# `Packrat.Proofs.Json.Strings` — what the strings of JSON texts denote

An escape denotes a unit of UTF-16, and two surrogates one after the other denote one code point. The grammar reads
every escape for itself: a string is read as its code points exactly if none of its escapes is a surrogate.

## Contents
- **Code points.** `codePoints` pairs the surrogates.
- **Bytes.** What is read instead of a pair is longer than its code point.
- **Strings.** `string_exact`.
-/

namespace Packrat.Json

/-! ## Code points -/

/-- A surrogate that stands first in a pair. -/
def IsHigh (unit : Nat) : Prop := 0xD800 ≤ unit ∧ unit ≤ 0xDBFF

/-- A surrogate that stands second in a pair. -/
def IsLow (unit : Nat) : Prop := 0xDC00 ≤ unit ∧ unit ≤ 0xDFFF

instance (unit : Nat) : Decidable (IsHigh unit) := by unfold IsHigh; infer_instance

instance (unit : Nat) : Decidable (IsLow unit) := by unfold IsLow; infer_instance

namespace Glyph

/-- The code point that a character denotes by itself, or its unit of UTF-16 if that is a surrogate. -/
def point : Glyph → Rune
  | plain r => r
  | short letter => (unescaped letter).toNat
  | code digits => hexNumber digits

/-- Whether an escape denotes a surrogate. -/
def IsSurrogate : Glyph → Prop
  | code digits => Rune.isSurrogate (hexNumber digits) = true
  | _ => False

instance : DecidablePred IsSurrogate
  | code digits => inferInstanceAs (Decidable (Rune.isSurrogate (hexNumber digits) = true))
  | plain _ => inferInstanceAs (Decidable False)
  | short _ => inferInstanceAs (Decidable False)

/-- The supplementary code point of a pair of escapes, if they are a pair of surrogates. -/
def paired? : Glyph → Glyph → Option Rune
  | code high, code low =>
    if IsHigh (hexNumber high) ∧ IsLow (hexNumber low) then
      some (0x10000 + 0x400 * (hexNumber high - 0xD800) + (hexNumber low - 0xDC00))
    else none
  | _, _ => none

end Glyph

/-- The code points that the characters of a string denote: one for each of them, but for the pairs of
surrogates. -/
def codePoints : List Glyph → List Rune
  | [] => []
  | [g] => [g.point]
  | g :: g' :: rest =>
    match g.paired? g' with
    | some r => r :: codePoints rest
    | none => g.point :: codePoints (g' :: rest)

/-- No escape denotes a surrogate without its other half. -/
def Paired (glyphs : List Glyph) : Prop := ∀ r ∈ codePoints glyphs, r.isScalar = true

instance (glyphs : List Glyph) : Decidable (Paired glyphs) :=
  inferInstanceAs (Decidable (∀ r ∈ codePoints glyphs, r.isScalar = true))

example : codePoints [.plain 0x61, .code (Bytes.ascii "d83d"), .code (Bytes.ascii "DE00")] = [0x61, 0x1F600] := by
  decide

/-! ## Bytes -/

variable {glyphs : List Glyph} {g : Glyph}

theorem denotes_eq_encode (hvalid : g.Valid) : g.denotes = Utf8.encode g.point := by
  cases g with
  | plain r => rfl
  | short letter =>
    have hletters : letter ∈ [0x22, 0x5C, 0x2F, 0x62, 0x66, 0x6E, 0x72, 0x74] := hvalid
    simp only [List.mem_cons, List.not_mem_nil, or_false] at hletters
    rcases hletters with rfl | rfl | rfl | rfl | rfl | rfl | rfl | rfl <;> rfl
  | code digits => rfl

theorem not_isSurrogate_of_isScalar (h : g.point.isScalar = true) : ¬g.IsSurrogate := by
  cases g with
  | code digits =>
    intro hsurrogate
    simp only [Glyph.point, Rune.isScalar, Bool.and_eq_true, Bool.not_eq_true'] at h
    rw [Glyph.IsSurrogate, h.2] at hsurrogate
    cases hsurrogate
  | plain r => exact id
  | short letter => exact id

/-- A pair of surrogates is read as two replacements, which are longer than the code point of the pair. -/
theorem length_encode_paired {g g' : Glyph} {r : Rune} (h : g.paired? g' = some r) :
    g.IsSurrogate ∧ g'.IsSurrogate ∧ (Utf8.encode r).length < (g.denotes ++ g'.denotes).length := by
  cases g with
  | code high =>
    cases g' with
    | code low =>
      rw [Glyph.paired?] at h
      split at h
      · next hpair =>
        obtain ⟨hhigh, hlow⟩ := hpair
        have hsurrogate : ∀ {unit : Nat}, IsHigh unit ∨ IsLow unit →
            Rune.isSurrogate unit = true ∧ Utf8.encode unit = Utf8.replacementBytes := by
          intro unit hunit
          have hrange : 0xD800 ≤ unit ∧ unit ≤ 0xDFFF := by
            unfold IsHigh IsLow at hunit
            omega
          have hsur : Rune.isSurrogate unit = true := by
            rw [Rune.isSurrogate, Bool.and_eq_true, decide_eq_true_eq, decide_eq_true_eq]
            exact hrange
          refine ⟨hsur, Utf8.encode_of_not_isScalar ?_⟩
          rw [Rune.isScalar, hsur, Bool.not_true, Bool.and_false]
        refine ⟨(hsurrogate (.inl hhigh)).1, (hsurrogate (.inr hlow)).1, ?_⟩
        rw [Glyph.denotes, Glyph.denotes, (hsurrogate (.inl hhigh)).2, (hsurrogate (.inr hlow)).2]
        have hfour : ∀ r : Rune, (Utf8.encode r).length ≤ 4 := by
          intro r
          unfold Utf8.encode
          repeat' split
          all_goals simp [Utf8.replacementBytes]
        exact Nat.lt_of_le_of_lt (hfour r) (by decide)
      · cases h
    | _ => cases h
  | _ => cases h

/-- Without surrogates the bytes read are those of the code points; with them there are more. -/
theorem denoted_cases (hvalid : ∀ g ∈ glyphs, g.Valid) (hpaired : Paired glyphs) :
    ((∀ g ∈ glyphs, ¬g.IsSurrogate) ∧ denoted glyphs = (codePoints glyphs).flatMap Utf8.encode) ∨
      ((∃ g ∈ glyphs, g.IsSurrogate) ∧
        ((codePoints glyphs).flatMap Utf8.encode).length < (denoted glyphs).length) := by
  -- a character that is not the first of a pair is read as its code point
  have halone : ∀ {g : Glyph} {rest : List Glyph} {points : List Rune}, g.Valid → g.point.isScalar = true →
      (((∀ g ∈ rest, ¬g.IsSurrogate) ∧ denoted rest = points.flatMap Utf8.encode) ∨
        ((∃ g ∈ rest, g.IsSurrogate) ∧ (points.flatMap Utf8.encode).length < (denoted rest).length)) →
      (((∀ g' ∈ g :: rest, ¬g'.IsSurrogate) ∧ denoted (g :: rest) = (g.point :: points).flatMap Utf8.encode) ∨
        ((∃ g' ∈ g :: rest, g'.IsSurrogate) ∧
          ((g.point :: points).flatMap Utf8.encode).length < (denoted (g :: rest)).length)) := by
    intro g rest points hg hscalar hrest
    have hdenoted : denoted (g :: rest) = Utf8.encode g.point ++ denoted rest := by
      rw [← denotes_eq_encode hg]
      rfl
    rw [List.flatMap_cons, hdenoted]
    rcases hrest with ⟨hnone, hsame⟩ | ⟨⟨g', hmem, hsurrogate⟩, hlt⟩
    · left
      rw [List.forall_mem_cons, hsame]
      exact ⟨⟨not_isSurrogate_of_isScalar hscalar, hnone⟩, rfl⟩
    · right
      refine ⟨⟨g', List.mem_cons_of_mem g hmem, hsurrogate⟩, ?_⟩
      rw [List.length_append, List.length_append]
      exact Nat.add_lt_add_left hlt _
  unfold Paired at hpaired
  induction glyphs using codePoints.induct with
  | case1 => exact .inl ⟨fun g hmem => absurd hmem List.not_mem_nil, rfl⟩
  | case2 g =>
    rw [codePoints, List.forall_mem_singleton] at hpaired
    rw [codePoints]
    exact halone (hvalid g List.mem_cons_self) hpaired
      (.inl ⟨fun g hmem => absurd hmem List.not_mem_nil, rfl⟩)
  | case3 g g' rest r hpair ih =>
    rw [codePoints, hpair, List.forall_mem_cons] at hpaired
    rw [codePoints, hpair]
    obtain ⟨hfirst, -, hlt⟩ := length_encode_paired hpair
    have hrest : ((codePoints rest).flatMap Utf8.encode).length ≤ (denoted rest).length := by
      rcases ih (fun g hmem => hvalid g (List.mem_cons_of_mem _ (List.mem_cons_of_mem _ hmem))) hpaired.2 with
        ⟨-, hsame⟩ | ⟨-, hlt⟩
      · rw [hsame]
      · exact Nat.le_of_lt hlt
    refine .inr ⟨⟨g, List.mem_cons_self, hfirst⟩, ?_⟩
    show (Utf8.encode r ++ (codePoints rest).flatMap Utf8.encode).length <
      (g.denotes ++ (g'.denotes ++ denoted rest)).length
    rw [← List.append_assoc, List.length_append, List.length_append]
    exact Nat.add_lt_add_of_lt_of_le hlt hrest
  | case4 g g' rest hnone ih =>
    rw [codePoints, hnone, List.forall_mem_cons] at hpaired
    rw [codePoints, hnone]
    rw [List.forall_mem_cons] at hvalid
    exact halone hvalid.1 hpaired.1 (ih hvalid.2 hpaired.2)

/-! ## Strings -/

theorem deepest_le (glyphs : List Glyph) : deepest glyphs ≤ 3 := by
  induction glyphs with
  | nil => decide
  | cons g rest ih =>
    refine Nat.max_le.mpr ⟨?_, ih⟩
    cases g with
    | plain r => exact Nat.le_succ_of_le (Nat.le_succ 1)
    | short letter => exact Nat.le_succ 2
    | code digits => exact Nat.le_refl 3

/-- A string parses to the text that is read for its characters. -/
theorem parse_string {before after : Bytes} (hvalid : ∀ g ∈ glyphs, g.Valid) (hbefore : Blank before)
    (hafter : Blank after) :
    ∃ x, parse (before ++ (quoted glyphs ++ after)) = .ok (.tree x) ∧ x.value = .text (denoted glyphs) := by
  have hparse := parse_concrete (c := .string glyphs after) hbefore ⟨hvalid, hafter⟩
  have hdepth : (Concrete.string glyphs after).depth + 1 ≤ (Env.fresh ()).settings.maxDepth := by
    have hdeepest := deepest_le glyphs
    show deepest glyphs + 2 + 1 ≤ 1024
    omega
  rw [if_pos hdepth] at hparse
  obtain ⟨x, hx, hvalue⟩ := hparse
  exact ⟨x, hx, Value.eq_text_of_unspanned hvalue⟩

/-- **Strings are read escape by escape.** A string whose surrogates stand in pairs parses, and it parses to the
encoding of the code points that it denotes exactly if no escape is a surrogate. -/
theorem string_exact {before after : Bytes} (hvalid : ∀ g ∈ glyphs, g.Valid) (hpaired : Paired glyphs)
    (hbefore : Blank before) (hafter : Blank after) :
    ∃ x, parse (before ++ (quoted glyphs ++ after)) = .ok (.tree x) ∧ x.value = .text (denoted glyphs) ∧
      (x.value = .text ((codePoints glyphs).flatMap Utf8.encode) ↔ ∀ g ∈ glyphs, ¬g.IsSurrogate) := by
  obtain ⟨x, hx, hvalue⟩ := parse_string hvalid hbefore hafter
  refine ⟨x, hx, hvalue, ?_⟩
  rw [hvalue, Value.text.injEq]
  rcases denoted_cases hvalid hpaired with ⟨hnone, hsame⟩ | ⟨⟨g, hmem, hsurrogate⟩, hlt⟩
  · exact ⟨fun _ => hnone, fun _ => hsame⟩
  · constructor
    · intro hsame
      rw [hsame] at hlt
      exact absurd hlt (Nat.lt_irrefl _)
    · exact fun hnone => absurd hsurrogate (hnone g hmem)

/-- The escapes of U+1F600 are read as two replacements. -/
theorem pair_replaced :
    codePoints [.code (Bytes.ascii "d83d"), .code (Bytes.ascii "de00")] = [0x1F600] ∧
    ∃ x, parse (Bytes.ascii "\"\\ud83d\\ude00\"") = .ok (.tree x) ∧
      x.value = .text (Utf8.replacementBytes ++ Utf8.replacementBytes) ∧
      x.value ≠ .text (Utf8.encode 0x1F600) := by
  have hvalid : ∀ g ∈ [Glyph.code (Bytes.ascii "d83d"), Glyph.code (Bytes.ascii "de00")], g.Valid := by decide
  obtain ⟨x, hx, hvalue⟩ := parse_string hvalid blank_nil blank_nil
  refine ⟨by decide, x, hx, hvalue, ?_⟩
  rw [hvalue, Ne, Value.text.injEq]
  decide

theorem string_exact_mixed :
    ∃ x, parse (Bytes.ascii " \"a\\n\\u20AC\" ") = .ok (.tree x) ∧
      x.value = .text ([0x61, 0x0A, 0x20AC].flatMap Utf8.encode) := by
  have hvalid : ∀ g ∈ [Glyph.plain 0x61, .short (Bytes.char 'n'), .code (Bytes.ascii "20AC")], g.Valid := by decide
  have hblank : Blank (Bytes.ascii " ") := by decide
  obtain ⟨x, hx, -, hexact⟩ := string_exact hvalid (by decide) hblank hblank
  exact ⟨x, hx, hexact.mpr (by decide)⟩

end Packrat.Json
