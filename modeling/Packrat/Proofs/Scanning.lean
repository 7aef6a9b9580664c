import Packrat.Eval
import Packrat.Proofs.Spellings

/-!
# `Packrat.Proofs.Scanning` — matching a text as it is spelled

A literal can be matched in two ways: its spelling is scanned side by side with the text, or the text that it
denotes is written down first and then compared. The two come to the same unless an escape denotes a surrogate,
which is written as a replacement but found nowhere. Every well-formed text has a spelling that denotes it, the one
that `escapeLiteral` writes.

## Contents
- **Matches at a place.** `matchText` and `matchLiteral`, by which the evaluator answers.
- **Scanning.** `Terminal.scan?` goes through a spelling and a text at the same time.
- **Denoted texts.** What the characters of a spelling are, and what matches their runes.
- **Literals.** `literal_scans`.
- **Escaped texts.** `escapeLiteral_denotes`.
-/

namespace Packrat

variable {spelling t : Bytes} {r : Rune} {n : Nat} {caseless : Bool}

/-! ## Matches at a place -/

/-- The match of so many bytes at a place, with the text that they are. -/
def Match.ofLength (c : Cursor) (taken : Option Nat) : Match Bytes :=
  Match.ofOption c (taken.map fun n => (c.remaining.take n, n))

/-- Matches a text at a place. -/
def matchText (c : Cursor) (expected : Bytes) (caseless : Bool) : Match Bytes :=
  Match.ofLength c (Terminal.text? expected caseless c.remaining)

/-- Matches the text that a spelling denotes at a place. -/
def matchLiteral (c : Cursor) (spelling : Bytes) (braceSensitive caseless : Bool) : Match Bytes :=
  Match.ofLength c (Terminal.literal? spelling braceSensitive caseless c.remaining)

theorem Match.ofLength_eq_failure {c : Cursor} {taken : Option Nat} :
    Match.ofLength c taken = .failure c.offset ↔ taken = none := by
  cases taken with
  | none => exact ⟨fun _ => rfl, fun _ => rfl⟩
  | some n => exact ⟨fun h => (nomatch h), fun h => (nomatch h)⟩

theorem Match.ofLength_eq_success {c : Cursor} {taken : Option Nat} {u : Bytes} :
    Match.ofLength c taken = .success u n ↔ taken = some n ∧ u = c.remaining.take n := by
  cases taken with
  | none => exact ⟨fun h => (nomatch h), fun h => (nomatch h.1)⟩
  | some m =>
    constructor
    · intro h
      cases h
      exact ⟨rfl, rfl⟩
    · rintro ⟨hm, rfl⟩
      cases hm
      rfl

/-- A text is matched where it stands. -/
theorem matchText_of_isPrefix {c : Cursor} (h : t <+: c.remaining) : matchText c t false = .success t t.length := by
  have hstarts : Bytes.startsWith t c.remaining = true := List.isPrefixOf_iff_prefix.mpr h
  unfold matchText Terminal.text?
  rw [if_neg Bool.false_ne_true, if_pos hstarts]
  exact Match.ofLength_eq_success.mpr ⟨rfl, List.prefix_iff_eq_take.mp h⟩

theorem matchText_of_not_isPrefix {c : Cursor} (h : ¬t <+: c.remaining) : matchText c t false = .failure c.offset := by
  have hstarts : ¬Bytes.startsWith t c.remaining = true := mt List.isPrefixOf_iff_prefix.mp h
  unfold matchText Terminal.text?
  rw [if_neg Bool.false_ne_true, if_neg hstarts]
  rfl

section Evaluation

variable {α σ : Type} (scene : Scene α σ) (call : Bool → Nat → Step σ) (quiet : Bool) (frame : Frame) (c : Cursor)

/-- What a terminal with a label answers by a match. -/
def Match.answer (label : Bytes) : Match Bytes → EvalM σ Result
  | .success text length =>
    let next := c.advance length
    pure (.success ⟨.text text, c.offset, next.offset⟩ next)
  | .failure offset => do
    noteFailure quiet offset label
    return .failure offset

theorem Match.answer_ofLength (label : Bytes) (taken : Option Nat) :
    Match.answer quiet c label (Match.ofLength c taken) = (terminal quiet c label taken : EvalM σ Result) := by
  cases taken with
  | none => rfl
  | some n => rfl

/-- A literal of a grammar is matched by its spelling. -/
theorem evalBody_literal (spelling : Bytes) (caseless braceSensitive : Bool) :
    evalBody scene call quiet frame (.literal spelling caseless braceSensitive) c =
      Match.answer quiet c (labelOf (betweenQuotes spelling) caseless)
        (matchLiteral c spelling braceSensitive caseless) := by
  unfold matchLiteral
  rw [Match.answer_ofLength, evalBody]

/-- An interpolated literal is matched by the text that its segments make. -/
theorem evalBody_interpolated (segments : List (Segment α)) (caseless : Bool) :
    evalBody scene call quiet frame (.interpolated segments caseless) c =
      evalSegments scene frame c.offset segments >>= fun text =>
        Match.answer quiet c (quoteText text) (matchText c text caseless) := by
  unfold matchText
  simp only [Match.answer_ofLength]
  rw [evalBody]

end Evaluation

/-! ## Scanning -/

namespace Terminal

/-- Scans a spelling side by side with a text, where `skip` bytes of the spelling have been read. -/
def scanFrom? (braceSensitive caseless : Bool) : Nat → Bytes → Bytes → Option Nat
  | _, [], _ => some 0
  | 0, b :: rest, text =>
    let s := Spelled.read (b :: rest)
    if braceSensitive && s.isBareBrace then none
    else
      match rune? text with
      | none => none
      | some (r, n) =>
        if agree caseless r s.rune then
          (scanFrom? braceSensitive caseless (s.length - 1) rest (text.drop n)).map (n + ·)
        else none
  | skip + 1, _ :: rest, text => scanFrom? braceSensitive caseless skip rest text

/-- Scans a spelling side by side with a text: each character is compared as soon as it has been read, and the
first bare brace ends the attempt. -/
def scan? (spelling : Bytes) (braceSensitive caseless : Bool) (text : Bytes) : Option Nat :=
  scanFrom? braceSensitive caseless 0 spelling text

theorem scanFrom?_eq (braceSensitive caseless : Bool) (skip : Nat) (spelling text : Bytes) :
    scanFrom? braceSensitive caseless skip spelling text =
      if braceSensitive && (Spelled.allFrom skip spelling).any (·.isBareBrace) then none
      else runes? caseless ((Spelled.allFrom skip spelling).map (·.rune)) text := by
  induction spelling generalizing skip text with
  | nil =>
    have hnone : Spelled.allFrom skip [] = [] := by cases skip <;> rfl
    rw [hnone, List.any_nil, Bool.and_false]
    cases skip <;> rfl
  | cons b rest ih =>
    cases skip with
    | succ skip => exact ih skip text
    | zero =>
      rw [scanFrom?, Spelled.allFrom]
      simp only [List.any_cons, List.map_cons]
      by_cases hbare : (braceSensitive && (Spelled.read (b :: rest)).isBareBrace) = true
      · rw [if_pos hbare, if_pos]
        rw [Bool.and_or_distrib_left, hbare, Bool.true_or]
      · -- whether a brace follows can be seen now or when it is reached
        rw [if_neg hbare, Bool.and_or_distrib_left, Bool.eq_false_iff.mpr hbare, Bool.false_or, runes?]
        simp only [ih]
        cases rune? text with
        | none => rw [ite_self]
        | some found =>
          obtain ⟨r, n⟩ := found
          simp only
          by_cases hagree : agree caseless r (Spelled.read (b :: rest)).rune = true
          · rw [if_pos hagree, if_pos hagree, apply_ite (Option.map (n + ·)), Option.map_none]
          · rw [if_neg hagree, if_neg hagree, ite_self]

/-- Scanning a spelling side by side with a text is matching the literal. -/
theorem scan?_eq_literal? (spelling : Bytes) (braceSensitive caseless : Bool) (text : Bytes) :
    scan? spelling braceSensitive caseless text = literal? spelling braceSensitive caseless text :=
  scanFrom?_eq braceSensitive caseless 0 spelling text

/-- A spelling is scanned by its first character, and then by those behind it. -/
theorem scan?_of_ne_nil {spelling : Bytes} (h : spelling ≠ []) (braceSensitive caseless : Bool) (text : Bytes) :
    scan? spelling braceSensitive caseless text =
      if braceSensitive && (Spelled.read spelling).isBareBrace then none
      else
        match rune? text with
        | none => none
        | some (r, n) =>
          if agree caseless r (Spelled.read spelling).rune then
            (scan? (spelling.drop (Spelled.read spelling).length) braceSensitive caseless (text.drop n)).map (n + ·)
          else none := by
  have hskip : ∀ skip rest text, scanFrom? braceSensitive caseless skip rest text =
      scan? (rest.drop skip) braceSensitive caseless text := by
    intro skip rest text
    rw [scan?, scanFrom?_eq, scanFrom?_eq, Spelled.allFrom_eq_all_drop, Spelled.allFrom_eq_all_drop, List.drop_zero]
  obtain ⟨b, rest, rfl⟩ := List.exists_cons_of_ne_nil h
  obtain ⟨n, hn⟩ := Nat.exists_eq_add_one_of_ne_zero (Nat.ne_of_gt (Spelled.length_read_pos h))
  rw [scan?, scanFrom?]
  simp only [hskip, hn, Nat.add_sub_cancel, List.drop_succ_cons]

end Terminal

/-! ## Denoted texts -/

namespace Spelled

/-- The characters of a spelling are read one after the other. -/
theorem exists_of_mem_all {s : Spelled} (h : s ∈ all spelling) : ∃ u, s = read u := by
  induction spelling using allInduction with
  | nil => exact absurd h List.not_mem_nil
  | cons spelling hne ih =>
    rw [all_of_ne_nil hne] at h
    rcases List.mem_cons.mp h with rfl | hmem
    · exact ⟨spelling, rfl⟩
    · exact ih _ (Nat.le_refl _) hmem

/-- A character is a scalar value, unless an escape denotes a surrogate. -/
theorem read_cases (u : Bytes) :
    (read u).rune.isScalar = true ∨ (read u).escaped = true ∧ (read u).rune.isSurrogate = true := by
  have hbounded : ∀ r : Rune, r ≤ Rune.maximum → r.isScalar = true ∨ r.isSurrogate = true := by
    intro r hr
    cases hsurrogate : r.isSurrogate with
    | false => exact .inl (by rw [Rune.isScalar, hsurrogate, decide_eq_true hr]; rfl)
    | true => exact .inr rfl
  rcases u with - | ⟨b, - | ⟨letter, rest⟩⟩
  · exact .inl (Utf8.isScalar_decode _)
  · exact .inl (Utf8.isScalar_decode _)
  · rw [read]
    by_cases hb : (b == Bytes.char '\\') = true
    · rw [if_pos hb]
      cases hspecial : special? letter rest with
      | none => exact .inl (Utf8.isScalar_decode _)
      | some s =>
        rw [Option.getD_some]
        obtain ⟨w, r, hescape, -, rfl⟩ := special?_eq_some_iff.mp hspecial
        cases hescape with
        | letter hletter => exact .inl (letters_ascii hletter).2
        | @byte a b x y hx hy =>
          have hx := (hexDigit?_ascii hx).2.2
          have hy := (hexDigit?_ascii hy).2.2
          have hscalar : Rune.isScalar (16 * x + y) = true := Utf8.isScalar_iff.mpr (by omega)
          exact .inl hscalar
        | code _ _ hsmall => exact (hbounded _ hsmall).imp id fun hsurrogate => ⟨rfl, hsurrogate⟩
    · rw [if_neg hb]
      exact .inl (Utf8.isScalar_decode _)

/-- No character is beyond the last code point. -/
theorem rune_read_le (t : Bytes) : (read t).rune ≤ Rune.maximum := by
  rcases read_cases t with hscalar | ⟨-, hsurrogate⟩
  · exact of_decide_eq_true (Bool.and_eq_true_iff.mp hscalar).1
  · have hlast : (read t).rune ≤ 0xDFFF := of_decide_eq_true (Bool.and_eq_true_iff.mp hsurrogate).2
    exact Nat.le_trans hlast (by decide)

theorem isScalar_of_mem_all {s : Spelled} (h : s ∈ all spelling) (hs : s.escaped = true → s.rune.isSurrogate = false) :
    s.rune.isScalar = true := by
  obtain ⟨u, rfl⟩ := exists_of_mem_all h
  refine (read_cases u).resolve_right ?_
  rintro ⟨hescaped, hsurrogate⟩
  rw [hs hescaped] at hsurrogate
  cases hsurrogate

end Spelled

theorem Rune.isScalar_of_isSurrogate (h : r.isSurrogate = true) : r.isScalar = false := by
  rw [Rune.isScalar, h, Bool.not_true, Bool.and_false]

namespace Terminal

/-- Nothing matches what is no scalar value. -/
theorem runes?_of_not_isScalar {expected : List Rune} (hr : r ∈ expected) (hscalar : r.isScalar = false)
    (text : Bytes) : runes? caseless expected text = none := by
  rw [Option.eq_none_iff_forall_ne_some]
  intro n hn
  obtain ⟨rs, hrs, hall, -, -⟩ := runes?_eq_some_iff.mp hn
  rw [isScalar_of_agreeing hall hrs r hr] at hscalar
  cases hscalar

/-- Scalar values are matched, with case, where their encodings stand. -/
theorem runes?_exact {expected : List Rune} (h : ∀ r ∈ expected, r.isScalar = true) (text : Bytes) :
    runes? false expected text = text? (expected.flatMap Utf8.encode) false text := by
  have hiff : ∀ n, runes? false expected text = some n ↔
      expected.flatMap Utf8.encode <+: text ∧ n = (expected.flatMap Utf8.encode).length := by
    intro n
    rw [runes?_eq_some_iff]
    constructor
    · rintro ⟨rs, -, hall, hfront, rfl⟩
      rw [forall₂_agree_exact.mp hall] at hfront ⊢
      exact ⟨hfront, rfl⟩
    · rintro ⟨hfront, rfl⟩
      exact ⟨expected, h, forall₂_agree_exact.mpr rfl, hfront, rfl⟩
  unfold text?
  rw [if_neg Bool.false_ne_true]
  have hstarts : Bytes.startsWith (expected.flatMap Utf8.encode) text = true ↔
      expected.flatMap Utf8.encode <+: text := List.isPrefixOf_iff_prefix
  by_cases hfront : expected.flatMap Utf8.encode <+: text
  · rw [if_pos (hstarts.mpr hfront), (hiff _).mpr ⟨hfront, rfl⟩]
  · rw [if_neg (mt hstarts.mp hfront), Option.eq_none_iff_forall_ne_some]
    exact fun n hn => hfront ((hiff n).mp hn).1

/-- Scalar values are matched as the text of their encodings is. -/
theorem runes?_eq_text? {expected : List Rune} (h : ∀ r ∈ expected, r.isScalar = true) (caseless : Bool)
    (text : Bytes) : runes? caseless expected text = text? (expected.flatMap Utf8.encode) caseless text := by
  cases caseless with
  | false => exact runes?_exact h text
  | true =>
    unfold text?
    rw [if_pos rfl, Utf8.runes_encoded h]

theorem literal?_false (spelling : Bytes) (caseless : Bool) (text : Bytes) :
    literal? spelling false caseless text = runes? caseless ((Spelled.all spelling).map (·.rune)) text := by
  unfold literal?
  rfl

end Terminal

/-! ## Literals -/

/-- **Scanning a literal is unescaping it first.** A literal is scanned side by side with the text. Unless an escape
denotes a surrogate, the match is that of the text which the spelling denotes, in either case mode: the same answer,
the same matched text, the same place behind it. If one does, there is no match. A brace-sensitive literal fails where
the literal fails, and everywhere if it has a bare brace; otherwise it makes no difference. -/
theorem literal_scans (spelling : Bytes) :
    (∀ (c : Cursor) (braceSensitive caseless : Bool), matchLiteral c spelling braceSensitive caseless =
      Match.ofLength c (Terminal.scan? spelling braceSensitive caseless c.remaining)) ∧
    ((∀ s ∈ Spelled.all spelling, s.escaped = true → s.rune.isSurrogate = false) →
      ∀ (c : Cursor) (caseless : Bool),
        matchLiteral c spelling false caseless = matchText c (unescape spelling) caseless) ∧
    ((∃ s ∈ Spelled.all spelling, s.escaped = true ∧ s.rune.isSurrogate = true) →
      ∀ (c : Cursor) (braceSensitive caseless : Bool),
        matchLiteral c spelling braceSensitive caseless = .failure c.offset) ∧
    (∀ (c : Cursor) (caseless : Bool),
      (matchLiteral c spelling true caseless = .failure c.offset ↔
        matchLiteral c spelling false caseless = .failure c.offset ∨
          ∃ s ∈ Spelled.all spelling, s.isBareBrace = true) ∧
      ((∀ s ∈ Spelled.all spelling, s.isBareBrace = false) →
        matchLiteral c spelling true caseless = matchLiteral c spelling false caseless)) := by
  refine ⟨?_, ?_, ?_, ?_⟩
  · intro c braceSensitive caseless
    rw [Terminal.scan?_eq_literal?]
    rfl
  · intro hescapes c caseless
    have hscalar : ∀ r ∈ (Spelled.all spelling).map (·.rune), r.isScalar = true :=
      List.forall_mem_map.mpr fun s hs => Spelled.isScalar_of_mem_all hs (hescapes s hs)
    unfold matchLiteral matchText
    rw [Terminal.literal?_false, Terminal.runes?_eq_text? hscalar, unescape_eq]
  · rintro ⟨s, hs, -, hsurrogate⟩ c braceSensitive caseless
    -- no encoding decodes to a surrogate, so that nothing agrees with it
    have hlost : Terminal.runes? caseless ((Spelled.all spelling).map (·.rune)) c.remaining = none :=
      Terminal.runes?_of_not_isScalar (List.mem_map_of_mem hs) (Rune.isScalar_of_isSurrogate hsurrogate) _
    refine Match.ofLength_eq_failure.mpr ?_
    unfold Terminal.literal?
    simp only [hlost, ite_self]
  · intro c caseless
    by_cases hbare : ∃ s ∈ Spelled.all spelling, s.isBareBrace = true
    · have hfails : matchLiteral c spelling true caseless = .failure c.offset :=
        Match.ofLength_eq_failure.mpr (Terminal.literal?_of_bare hbare caseless _)
      refine ⟨⟨fun _ => .inr hbare, fun _ => hfails⟩, fun hnone => ?_⟩
      obtain ⟨s, hs, hbrace⟩ := hbare
      rw [hnone s hs] at hbrace
      cases hbrace
    · have hnone : ∀ s ∈ Spelled.all spelling, s.isBareBrace = false :=
        fun s hs => Bool.eq_false_iff.mpr fun hbrace => hbare ⟨s, hs, hbrace⟩
      have hsame : matchLiteral c spelling true caseless = matchLiteral c spelling false caseless := by
        unfold matchLiteral
        rw [Terminal.literal?_of_not_bare hnone, Terminal.literal?_of_not_bare hnone]
      rw [hsame]
      exact ⟨⟨.inl, fun h => h.resolve_right hbare⟩, fun _ => rfl⟩

theorem literal_scans_mixed :
    matchLiteral (Cursor.ofText [0x61, 0xE2, 0x82, 0xAC, 0x21] 0) (Bytes.ascii "\\x41\\u\x7b20AC\x7d") false true =
        matchText (Cursor.ofText [0x61, 0xE2, 0x82, 0xAC, 0x21] 0) [0x41, 0xE2, 0x82, 0xAC] true ∧
      matchText (Cursor.ofText [0x61, 0xE2, 0x82, 0xAC, 0x21] 0) [0x41, 0xE2, 0x82, 0xAC] true =
        .success [0x61, 0xE2, 0x82, 0xAC] 4 ∧
      matchLiteral (Cursor.ofText [0xEF, 0xBF, 0xBD] 0) (Bytes.ascii "\\u\x7bD800\x7d") false false = .failure 0 ∧
      matchLiteral (Cursor.ofText (Bytes.ascii "a\x7b") 0) (Bytes.ascii "a\x7b") true false = .failure 0 := by
  obtain ⟨-, hscanned, -, -⟩ := literal_scans (Bytes.ascii "\\x41\\u\x7b20AC\x7d")
  obtain ⟨-, -, hsurrogate, -⟩ := literal_scans (Bytes.ascii "\\u\x7bD800\x7d")
  obtain ⟨-, -, -, hbrace⟩ := literal_scans (Bytes.ascii "a\x7b")
  refine ⟨hscanned (by decide) _ true, rfl, ?_, ?_⟩
  · exact hsurrogate (by decide) (Cursor.ofText [0xEF, 0xBF, 0xBD] 0) false false
  · exact (hbrace (Cursor.ofText (Bytes.ascii "a\x7b") 0) false).1.mpr (.inr (by decide))

/-! ## Escaped texts -/

/-- Whether a rune has to be escaped in a literal. -/
def Rune.needsEscape (r : Rune) : Bool := r == '\\'.toNat || r == '\x7b'.toNat || r == '\x7d'.toNat

/-- A rune as the character that an escaped text has for it. -/
def Spelled.inscribed (r : Rune) : Spelled :=
  if r.needsEscape then ⟨r, 2, true⟩ else ⟨r, (Utf8.encode r).length, false⟩

theorem escapeLiteral_append (t u : Bytes) : escapeLiteral (t ++ u) = escapeLiteral t ++ escapeLiteral u :=
  List.flatMap_append

/-- A backslash is put before a rune as a whole, and only before those that need one. -/
theorem escapeLiteral_encode (hr : r.isScalar = true) :
    escapeLiteral (Utf8.encode r) =
      if r.needsEscape then [Bytes.char '\\', r.toUInt8] else Utf8.encode r := by
  by_cases hsmall : r < 0x80
  · have hall := List.all_eq_true.mp (show (List.range 0x80).all (fun r : Nat => escapeLiteral [r.toUInt8] ==
      if Rune.needsEscape r then [Bytes.char '\\', r.toUInt8] else [r.toUInt8]) = true by decide +kernel) r
      (List.mem_range.mpr hsmall)
    rw [Utf8.encode_of_lt hsmall]
    exact eq_of_beq hall
  · have hplain : r.needsEscape = false := by
      have hne : ∀ n : Nat, n < 0x80 → (r == n) = false := fun n hn =>
        beq_eq_false_iff_ne.mpr fun heq => hsmall (heq ▸ hn)
      rw [Rune.needsEscape, hne _ (by decide), hne _ (by decide), hne _ (by decide)]
      rfl
    have hself : ∀ b ∈ Utf8.encode r, (if needsEscape b then [Bytes.char '\\', b] else [b]) = [b] := by
      intro b hb
      have hlarge := Utf8.le_of_mem_encode hr hsmall hb
      have hbyte := forall_byte (p := fun b => decide (b.toNat < 0x80) || !needsEscape b) (by decide +kernel) b
      rw [Bool.or_eq_true, decide_eq_true_eq, Bool.not_eq_true'] at hbyte
      rw [hbyte.resolve_left (Nat.not_lt_of_le hlarge)]
      rfl
    rw [hplain, escapeLiteral, List.flatMap_congr hself, List.flatMap_singleton']
    rfl

/-- The characters of an escaped text are its runes, and none of them is a bare brace. -/
theorem Spelled.all_escapeLiteral {rs : List Rune} (h : ∀ r ∈ rs, r.isScalar = true) :
    all (escapeLiteral (rs.flatMap Utf8.encode)) = rs.map inscribed := by
  induction rs with
  | nil => rfl
  | cons r rs ih =>
    rw [List.forall_mem_cons] at h
    rw [List.flatMap_cons, escapeLiteral_append, escapeLiteral_encode h.1, List.map_cons, ← ih h.2, inscribed]
    by_cases hescape : r.needsEscape = true
    · rw [if_pos hescape, if_pos hescape]
      refine all_of_read ?_ rfl (List.cons_ne_nil _ _)
      rw [Rune.needsEscape, Bool.or_eq_true, Bool.or_eq_true, beq_iff_eq, beq_iff_eq, beq_iff_eq] at hescape
      -- none of the three is a letter with a meaning of its own
      rcases hescape with (rfl | rfl) | rfl
      · rfl
      · rfl
      · rfl
    · rw [if_neg hescape, if_neg hescape]
      refine all_of_read (read_encode h.1 ?_ _) rfl (Utf8.encode_ne_nil h.1)
      rintro rfl
      exact hescape rfl

theorem Spelled.rune_inscribed (r : Rune) : (inscribed r).rune = r := by
  unfold inscribed
  split <;> rfl

theorem Spelled.isBareBrace_inscribed (r : Rune) : (inscribed r).isBareBrace = false := by
  unfold inscribed
  split
  · rfl
  · next hescape =>
    rw [Rune.needsEscape, Bool.or_eq_true, Bool.or_eq_true, beq_iff_eq, beq_iff_eq, beq_iff_eq, not_or,
      not_or] at hescape
    simp only [isBareBrace, isBare, Bool.not_false, Bool.true_and, Bool.or_eq_false_iff, beq_eq_false_iff_ne]
    exact ⟨hescape.1.2, hescape.2⟩

/-- **Escaped text denotes itself.** Unescaping an escaped text gives the text back exactly if it is well-formed. Then
the escaped text, as a brace-sensitive literal with case, matches at a place exactly if the text stands there, and
takes all of it. -/
theorem escapeLiteral_denotes (t : Bytes) :
    (unescape (escapeLiteral t) = t ↔ Utf8.isWellFormed t = true) ∧
    (Utf8.isWellFormed t = true → ∀ c : Cursor,
      (t <+: c.remaining → matchLiteral c (escapeLiteral t) true false = .success t t.length) ∧
      (¬t <+: c.remaining → matchLiteral c (escapeLiteral t) true false = .failure c.offset)) := by
  have hrunes : Utf8.isWellFormed t = true →
      (Spelled.all (escapeLiteral t)).map (·.rune) = Utf8.runes t ∧
        ∀ s ∈ Spelled.all (escapeLiteral t), s.isBareBrace = false := by
    intro hwell
    have hall := Spelled.all_escapeLiteral (Utf8.isScalar_of_mem_runes t)
    rw [Utf8.encoded_runes t hwell] at hall
    rw [hall, List.map_map, List.forall_mem_map]
    refine ⟨?_, fun r _ => Spelled.isBareBrace_inscribed r⟩
    conv => rhs; rw [← List.map_id (Utf8.runes t)]
    exact List.map_congr_left fun r _ => Spelled.rune_inscribed r
  refine ⟨⟨fun hsame => ?_, fun hwell => ?_⟩, fun hwell c => ?_⟩
  · rw [← hsame, unescape_eq]
    exact Utf8.isWellFormed_encoded _
  · rw [unescape_eq, (hrunes hwell).1, Utf8.encoded_runes t hwell]
  · obtain ⟨hsame, hbare⟩ := hrunes hwell
    have hmatch : matchLiteral c (escapeLiteral t) true false = matchText c t false := by
      unfold matchLiteral matchText
      rw [Terminal.literal?_of_not_bare hbare, hsame, Terminal.runes?_eq_text? (Utf8.isScalar_of_mem_runes t),
        Utf8.encoded_runes t hwell]
    rw [hmatch]
    exact ⟨matchText_of_isPrefix, matchText_of_not_isPrefix⟩

theorem escapeLiteral_denotes_braces :
    Utf8.isWellFormed (Bytes.ascii "\x7b\\x41\x7d") = true ∧
      unescape (escapeLiteral (Bytes.ascii "\x7b\\x41\x7d")) = Bytes.ascii "\x7b\\x41\x7d" ∧
      matchLiteral (Cursor.ofText (Bytes.ascii "-\x7b\\x41\x7d-") 1) (escapeLiteral (Bytes.ascii "\x7b\\x41\x7d")) true
        false = .success (Bytes.ascii "\x7b\\x41\x7d") 6 ∧
      matchLiteral (Cursor.ofText (Bytes.ascii "\x7bA\x7d") 0) (escapeLiteral (Bytes.ascii "\x7b\\x41\x7d")) true
        false = .failure 0 := by
  have hwell : Utf8.isWellFormed (Bytes.ascii "\x7b\\x41\x7d") = true := by decide
  obtain ⟨hdenoted, hmatched⟩ := escapeLiteral_denotes (Bytes.ascii "\x7b\\x41\x7d")
  refine ⟨hwell, hdenoted.mpr hwell, ?_, ?_⟩
  · exact (hmatched hwell (Cursor.ofText (Bytes.ascii "-\x7b\\x41\x7d-") 1)).1 (by decide)
  · exact (hmatched hwell (Cursor.ofText (Bytes.ascii "\x7bA\x7d") 0)).2 (by decide)

end Packrat
