import Packrat.Proofs.Json.Parsing
import Packrat.Proofs.Splitting

/-!
# `Packrat.Proofs.Json.Acceptance` — the texts that the JSON grammar accepts

What the rules take is split along the concrete syntax: a text that parses is the text of a tree. The grammar accepts
the JSON texts, and those in which a comma stands before the first part of an array or object.

## Contents
- **Bytes.** Classes and words of the grammar.
- **Tokens.** White space, strings, numbers, words.
- **Values.** By induction on the length, as values are parts of longer ones.
- **Acceptance.** `accepts_exact`.
-/

namespace Packrat.Json

open Source (StartsIn bytesFrom decimalDigits hexBytes)

variable {u rest : Bytes} {p : Pattern}

/-- A rule takes a text in front of a rest. -/
def Taken (s : Symbol) (u rest : Bytes) : Prop := Reads grammar.patterns (.call (some s.place)) u rest

theorem Taken.alternatives {s : Symbol} (h : Taken s u rest) :
    Reads grammar.patterns (exprPattern s.alternatives) u rest :=
  Reads.call h (Grammar.getElem?_patterns (rule_at s))

/-- A sequence of one item takes what the item takes. -/
theorem reads_single (h : Reads grammar.patterns (.seq p .empty) u rest) : Reads grammar.patterns p u rest := by
  obtain ⟨v, w, rfl, hv, hw⟩ := h.seq
  obtain rfl := hw.empty
  rw [List.append_nil]
  exact hv

/-- The only alternative takes what a choice takes. -/
theorem reads_only (h : Reads grammar.patterns (.choice p .fail) u rest) : Reads grammar.patterns p u rest :=
  h.choice.resolve_right Reads.fail

/-! ## Bytes -/

/-- A class of ASCII bytes takes one of them. -/
theorem reads_byte {k : CharClass} {set : Bytes} (hk : k.within set = true)
    (h : Reads grammar.patterns (.cls k) u rest) : ∃ b ∈ set, u = [b] := by
  obtain ⟨r, -, rfl, hr⟩ := h.cls
  exact CharClass.encode_of_within hk hr

/-- A repetition of a class of ASCII bytes takes a run of them. -/
theorem reads_bytes {k : CharClass} {set : Bytes} (hk : k.within set = true)
    (h : Reads grammar.patterns (.star (.cls k)) u rest) : ∀ b ∈ u, b ∈ set := by
  obtain ⟨us, rfl, hall⟩ := h.star
  intro b hb
  obtain ⟨v, hv, hbv⟩ := List.mem_flatten.mp hb
  obtain ⟨more, hreads⟩ := hall v hv
  obtain ⟨b', hb', rfl⟩ := reads_byte hk hreads
  rw [List.mem_singleton.mp hbv]
  exact hb'

/-- A word takes itself. -/
theorem reads_word {spelling : String} {t : Bytes} (ht : unescape (Bytes.ascii spelling) = t)
    (h : Reads grammar.patterns (bodyPattern (word spelling)) u rest) : u = t :=
  (Reads.literal h).trans ht

/-! ## Tokens -/

theorem taken_blanks (h : Taken .blanks u rest) : Blank u :=
  reads_bytes (k := blankClass) (by decide) (reads_single (reads_only h.alternatives))

theorem taken_hex (h : Taken .hex u rest) : ∃ d, (hexDigit? d).isSome = true ∧ u = [d] := by
  obtain ⟨d, hd, rfl⟩ : ∃ d ∈ hexBytes, u = [d] :=
    reads_byte (k := hexClass) (by decide) (reads_single (reads_only h.alternatives))
  have hdigits : hexBytes.all (fun d => (hexDigit? d).isSome) = true := by decide
  exact ⟨d, List.all_eq_true.mp hdigits d hd, rfl⟩

/-- A letter behind a backslash is read as the escape of it. -/
theorem taken_letter (letter : UInt8) {spelling : String} {byte : UInt8}
    (hspelling : unescape (Bytes.ascii spelling) = [letter]) (hvalid : (Glyph.short letter).Valid)
    (h : Reads grammar.patterns (sequencePattern (shortEscape spelling byte)) u rest) :
    ∃ g : Glyph, g.Valid ∧ Bytes.char '\\' :: u = g.text :=
  ⟨.short letter, hvalid, by rw [reads_word hspelling (reads_single h)]; rfl⟩

/-- What stands behind a backslash. -/
theorem taken_escape (h : Taken .escape u rest) : ∃ g : Glyph, g.Valid ∧ Bytes.char '\\' :: u = g.text := by
  rcases h.alternatives.choice with h | h
  · obtain ⟨v, w, rfl, hletter, h⟩ := h.seq
    obtain ⟨a, t, rfl, ha, h⟩ := (reads_only (reads_single h)).seq
    obtain ⟨b, t, rfl, hb, h⟩ := h.seq
    obtain ⟨c, d, rfl, hc, hd⟩ := h.seq
    obtain ⟨d, hdigit₄, rfl⟩ := taken_hex (reads_single hd)
    obtain ⟨c, hdigit₃, rfl⟩ := taken_hex hc
    obtain ⟨b, hdigit₂, rfl⟩ := taken_hex hb
    obtain ⟨a, hdigit₁, rfl⟩ := taken_hex ha
    rw [reads_word (show unescape (Bytes.ascii "u") = Bytes.ascii "u" by decide) hletter]
    refine ⟨.code [a, b, c, d], ⟨rfl, ?_⟩, rfl⟩
    simp only [List.forall_mem_cons, List.not_mem_nil, false_implies, implies_true, and_true]
    exact ⟨hdigit₁, hdigit₂, hdigit₃, hdigit₄⟩
  rcases h.choice with h | h
  · exact taken_letter (Bytes.char 'b') (by decide) (by decide) h
  rcases h.choice with h | h
  · exact taken_letter (Bytes.char 'f') (by decide) (by decide) h
  rcases h.choice with h | h
  · exact taken_letter (Bytes.char 'n') (by decide) (by decide) h
  rcases h.choice with h | h
  · exact taken_letter (Bytes.char 'r') (by decide) (by decide) h
  rcases h.choice with h | h
  · exact taken_letter (Bytes.char 't') (by decide) (by decide) h
  · obtain ⟨b, hb, rfl⟩ : ∃ b ∈ Bytes.ascii "\"\\/", u = [b] :=
      reads_byte (k := escapedClass) (by decide) (reads_single (reads_only h))
    have hvalid : (Bytes.ascii "\"\\/").all (fun b => decide (Glyph.short b).Valid) = true := by decide
    exact ⟨.short b, of_decide_eq_true (List.all_eq_true.mp hvalid b hb), rfl⟩

theorem taken_char (h : Taken .char u rest) : ∃ g : Glyph, g.Valid ∧ u = g.text := by
  rcases h.alternatives.choice with h | h
  · obtain ⟨v, w, rfl, hslash, h⟩ := h.seq
    rw [reads_word (show unescape (Bytes.ascii "\\\\") = Bytes.ascii "\\" by decide) hslash]
    exact taken_escape (reads_single h)
  · obtain ⟨r, hscalar, rfl, hr⟩ := Reads.cls (reads_single (reads_only h))
    refine ⟨.plain r, ⟨hscalar, ?_⟩, rfl⟩
    have hcovers : plainClass.covers r = false := by
      simpa [CharClass.contains, plainClass] using hr
    simp only [CharClass.covers, plainClass, List.any_cons, List.any_nil, RuneRange.contains, Bool.or_eq_false_iff,
      Bool.and_eq_false_iff, decide_eq_false_iff_not] at hcovers
    have hranges : ∀ r : Nat, (¬0x22 ≤ r ∨ ¬r ≤ 0x22) ∧ (¬0x5C ≤ r ∨ ¬r ≤ 0x5C) ∧ (¬0 ≤ r ∨ ¬r ≤ 0x1F) ∧ True →
        0x20 ≤ r ∧ r ≠ 0x22 ∧ r ≠ 0x5C := fun r _ => by omega
    exact hranges r hcovers

theorem taken_string (h : Taken .string u rest) :
    ∃ glyphs after, (∀ g ∈ glyphs, g.Valid) ∧ Blank after ∧ u = quoted glyphs ++ after := by
  obtain ⟨a, t, rfl, hopen, h⟩ := (reads_only h.alternatives).seq
  obtain ⟨chars, t, rfl, hchars, h⟩ := h.seq
  obtain ⟨b, after, rfl, hclose, hafter⟩ := h.seq
  have hquote : unescape (Bytes.ascii "\"") = Bytes.ascii "\"" := by decide
  rw [reads_word hquote hopen, reads_word hquote hclose]
  obtain ⟨us, rfl, hall⟩ := hchars.star
  obtain ⟨glyphs, hvalid, hglyphs⟩ : ∃ glyphs, (∀ g ∈ glyphs, g.Valid) ∧ us.flatten = spelled glyphs := by
    clear * - hall
    induction us with
    | nil => exact ⟨[], fun g hg => absurd hg List.not_mem_nil, rfl⟩
    | cons v us ih =>
      rw [List.forall_mem_cons] at hall
      obtain ⟨⟨more, hv⟩, hall⟩ := hall
      obtain ⟨g, hg, rfl⟩ := taken_char hv
      obtain ⟨glyphs, hvalid, hus⟩ := ih hall
      refine ⟨g :: glyphs, List.forall_mem_cons.mpr ⟨hg, hvalid⟩, ?_⟩
      rw [List.flatten_cons, hus]
      rfl
  refine ⟨glyphs, after, hvalid, taken_blanks (reads_single hafter), ?_⟩
  rw [hglyphs, quoted]
  simp only [List.cons_append, List.append_assoc]
  rfl

/-- A run of digits that is not empty. -/
theorem reads_digits (h : Reads grammar.patterns (.plus (.cls digitClass)) u rest) : u ≠ [] ∧ Digits u := by
  have hclass : CharClass.within digitClass decimalDigits = true := by decide
  obtain ⟨v, w, rfl, hv, hw⟩ := h.plus
  obtain ⟨d, hd, rfl⟩ := reads_byte hclass hv
  refine ⟨List.cons_ne_nil _ _, ?_⟩
  intro b hb
  rcases List.mem_cons.mp hb with rfl | hb
  · exact hd
  · exact reads_bytes hclass hw b hb

theorem reads_integer (h : Reads grammar.patterns (bodyPattern (.group [plain [step (word "0")],
    plain [step (.cls nonzeroClass), step (.cls digitClass) .star]])) u rest) : IsInteger u := by
  rcases h.choice with h | h
  · exact .inl (reads_word (by decide) (reads_single h))
  · obtain ⟨v, ds, rfl, hv, hds⟩ := (reads_only h).seq
    obtain ⟨d, hd, rfl⟩ : ∃ d ∈ bytesFrom '1' '9', v = [d] := reads_byte (k := nonzeroClass) (by decide) hv
    exact .inr ⟨d, ds, hd, reads_bytes (k := digitClass) (by decide) (reads_single hds), rfl⟩

theorem reads_fraction (h : Reads grammar.patterns (itemPattern
    (step (.group [plain [step (word "."), step (.cls digitClass) .plus]]) .optional)) u rest) : IsFraction u := by
  rcases Reads.optional h with rfl | h
  · exact .inl rfl
  · obtain ⟨v, w, rfl, hv, h⟩ := (reads_only h).seq
    obtain ⟨hne, hdigits⟩ := reads_digits (reads_single h)
    rw [reads_word (show unescape (Bytes.ascii ".") = Bytes.ascii "." by decide) hv]
    exact .inr ⟨w, hne, hdigits, rfl⟩

theorem reads_exponent (h : Reads grammar.patterns (itemPattern (step (.group [plain [step (.cls exponentClass),
    step (.cls signClass) .optional, step (.cls digitClass) .plus]]) .optional)) u rest) : IsExponent u := by
  rcases Reads.optional h with rfl | h
  · exact .inl rfl
  · obtain ⟨v, w, rfl, hv, h⟩ := (reads_only h).seq
    obtain ⟨sign, ds, rfl, hsign, hds⟩ := h.seq
    obtain ⟨e, he, rfl⟩ : ∃ e ∈ Bytes.ascii "eE", v = [e] := reads_byte (k := exponentClass) (by decide) hv
    obtain ⟨hne, hdigits⟩ := reads_digits (reads_single hds)
    refine .inr ⟨e, sign, ds, he, ?_, hne, hdigits, rfl⟩
    rcases Reads.optional hsign with rfl | hsign
    · exact .inl rfl
    · exact .inr (reads_byte (k := signClass) (by decide) hsign)

theorem taken_number (h : Taken .number u rest) : ∃ spelling after, IsNumber spelling ∧ Blank after ∧
    u = spelling ++ after := by
  obtain ⟨spelling, after, rfl, hnumeral, h⟩ := (reads_only h.alternatives).seq
  refine ⟨spelling, after, ?_, taken_blanks (reads_single h), rfl⟩
  obtain ⟨minus, t, rfl, hminus, h⟩ := (reads_only hnumeral).seq
  obtain ⟨int, t, rfl, hint, h⟩ := h.seq
  obtain ⟨fraction, exponent, rfl, hfraction, h⟩ := h.seq
  refine ⟨minus, int, fraction, exponent, ?_, reads_integer hint, reads_fraction hfraction,
    reads_exponent (reads_single h), rfl⟩
  rcases Reads.optional hminus with rfl | hminus
  · exact .inl rfl
  · exact .inr (reads_word (by decide) hminus)

theorem taken_keyword (h : Taken .keyword u rest) : ∃ (word : Keyword) (after : Bytes), Blank after ∧
    u = word.text ++ after := by
  have hword : ∀ {spelling : String} {action : Host JsonAction} (k : Keyword), unescape (Bytes.ascii spelling) = k.text →
      Reads grammar.patterns (sequencePattern (acts [step (word spelling), step Symbol.blanks.body] [] action)) u rest →
      ∃ (word : Keyword) (after : Bytes), Blank after ∧ u = word.text ++ after := by
    intro spelling action k hspelling h
    obtain ⟨v, after, rfl, hv, h⟩ := h.seq
    exact ⟨k, after, taken_blanks (reads_single h), by rw [reads_word hspelling hv]⟩
  rcases h.alternatives.choice with h | h
  · exact hword (.bool true) (by decide) h
  rcases h.choice with h | h
  · exact hword (.bool false) (by decide) h
  · exact hword .null (by decide) (reads_only h)

/-! ## Values -/

/-- Texts below a length that the rule for values takes are texts of trees. -/
def ValuesTaken (n : Nat) : Prop :=
  ∀ u rest, u.length < n → Taken .value u rest → ∃ c : Concrete, c.Formed true ∧ u = c.text

theorem taken_part {n : Nat} (ih : ValuesTaken n) {kind : Kind} (hu : u.length < n) (h : Taken kind.part u rest) :
    ∃ (name : Option Name) (c : Concrete), NameFits kind name ∧ c.Formed true ∧ u = nameText name ++ c.text := by
  cases kind with
  | array =>
    obtain ⟨c, hc, rfl⟩ := ih u rest hu h
    exact ⟨none, c, trivial, hc, rfl⟩
  | object =>
    obtain ⟨key, t, rfl, hkey, h⟩ := (reads_only h.alternatives).seq
    obtain ⟨colon, t, rfl, hcolon, h⟩ := h.seq
    obtain ⟨blanks, value, rfl, hblanks, hvalue⟩ := h.seq
    simp only [List.length_append] at hu
    obtain ⟨c, hc, rfl⟩ := ih value rest (by omega) (reads_single hvalue)
    have hblank := taken_blanks hblanks
    have htext := reads_word (show unescape (Bytes.ascii ":") = Bytes.ascii ":" by decide) hcolon
    obtain ⟨glyphs, after, hvalid, hafter, rfl⟩ := taken_string hkey
    refine ⟨some ⟨glyphs, after, blanks⟩, c, ⟨hvalid, hafter, hblank⟩, hc, ?_⟩
    rw [htext, nameText, Name.text]
    simp only [List.append_assoc]
    rfl

/-- Texts that the parts behind the first one take are those of parts with commas. -/
theorem taken_parts {n : Nat} (ih : ValuesTaken n) {kind : Kind} {us : List Bytes} (hu : us.flatten.length < n)
    (h : ∀ v ∈ us, ∃ more, Reads grammar.patterns (bodyPattern kind.further) v more) :
    ∃ parts, Concrete.FormedParts true kind false parts ∧ us.flatten = Concrete.textOfParts parts := by
  induction us with
  | nil => exact ⟨[], trivial, rfl⟩
  | cons v us ihs =>
    rw [List.forall_mem_cons] at h
    rw [List.flatten_cons, List.length_append] at hu
    obtain ⟨⟨more, hv⟩, hus⟩ := h
    obtain ⟨parts, hparts, htext⟩ := ihs (by omega) hus
    obtain ⟨comma, t, rfl, hcomma, hv⟩ := (reads_only hv).seq
    obtain ⟨blanks, part, rfl, hblanks, hpart⟩ := hv.seq
    simp only [List.length_append] at hu
    obtain ⟨name, c, hname, hc, rfl⟩ := taken_part ih (by omega) (reads_single hpart)
    refine ⟨⟨some blanks, name, c⟩ :: parts, ⟨⟨.inl rfl, taken_blanks hblanks⟩, hname, hc, hparts⟩, ?_⟩
    rw [List.flatten_cons, htext, reads_word (show unescape (Bytes.ascii ",") = Bytes.ascii "," by decide) hcomma]
    simp only [Concrete.textOfParts, commaText, List.append_assoc, List.cons_append]
    rfl

/-- A stray comma may stand before parts with commas. -/
theorem formedParts_stray {kind : Kind} {parts : List (Part Concrete)}
    (h : Concrete.FormedParts true kind false parts) : Concrete.FormedParts true kind true parts := by
  cases parts with
  | nil => trivial
  | cons part parts =>
    obtain ⟨comma, name, value⟩ := part
    obtain ⟨hcomma, hothers⟩ := h
    refine ⟨?_, hothers⟩
    cases comma with
    | none => rfl
    | some blanks => exact ⟨.inr rfl, hcomma.2⟩

theorem taken_container {n : Nat} (ih : ValuesTaken n) {kind : Kind} (hu : u.length < n + 1)
    (h : Reads grammar.patterns (sequencePattern kind.sequence) u rest) :
    ∃ c : Concrete, c.Formed true ∧ u = c.text := by
  obtain ⟨opens, t, rfl, hopens, h⟩ := h.seq
  obtain ⟨opening, t, rfl, hopening, h⟩ := h.seq
  obtain ⟨first, t, rfl, hfirst, h⟩ := h.seq
  obtain ⟨others, t, rfl, hothers, h⟩ := h.seq
  obtain ⟨closes, after, rfl, hcloses, hafter⟩ := h.seq
  have hopens' : opens = [kind.opens] := by
    cases kind with
    | array => exact reads_word (by decide) hopens
    | object => exact reads_word (by decide) hopens
  have hcloses' : closes = [kind.closes] := by
    cases kind with
    | array => exact reads_word (by decide) hcloses
    | object => exact reads_word (by decide) hcloses
  subst hopens' hcloses'
  have hblank := taken_blanks hopening
  have hblank' := taken_blanks (reads_single hafter)
  simp only [List.length_append, List.length_singleton] at hu
  obtain ⟨us, rfl, hall⟩ := hothers.star
  obtain ⟨parts, hparts, htext⟩ := taken_parts ih (by omega) hall
  have hwhole : ∀ parts' : List (Part Concrete), Concrete.FormedParts true kind true parts' →
      first ++ us.flatten = Concrete.textOfParts parts' → ∃ c : Concrete, c.Formed true ∧
        [kind.opens] ++ (opening ++ (first ++ (us.flatten ++ ([kind.closes] ++ after)))) = c.text := by
    intro parts' hparts' htext'
    refine ⟨.container kind opening parts' after, ⟨hblank, hparts', hblank'⟩, ?_⟩
    rw [Concrete.text, ← htext']
    simp only [List.append_assoc, List.cons_append, List.nil_append]
  rcases Reads.optional hfirst with rfl | hfirst
  · exact hwhole parts (formedParts_stray hparts) htext
  · obtain ⟨name, c, hname, hc, rfl⟩ := taken_part ih (by omega) hfirst
    refine hwhole (⟨none, name, c⟩ :: parts) ⟨rfl, hname, hc, hparts⟩ ?_
    rw [htext]
    simp only [Concrete.textOfParts, commaText, List.append_assoc, List.nil_append]

/-- The rule for values takes texts of trees. -/
theorem taken_value (n : Nat) : ValuesTaken n := by
  induction n with
  | zero => exact fun u rest hu => absurd hu (Nat.not_lt_zero _)
  | succ n ih =>
    intro u rest hu h
    rcases h.alternatives.choice with h | h
    · exact taken_container ih hu (reads_only (Taken.alternatives (s := .object) (reads_single h)))
    rcases h.choice with h | h
    · exact taken_container ih hu (reads_only (Taken.alternatives (s := .array) (reads_single h)))
    rcases h.choice with h | h
    · obtain ⟨glyphs, after, hvalid, hafter, rfl⟩ := taken_string (reads_single h)
      exact ⟨.string glyphs after, ⟨hvalid, hafter⟩, rfl⟩
    rcases h.choice with h | h
    · obtain ⟨spelling, after, hspelling, hafter, rfl⟩ := taken_number (reads_single h)
      exact ⟨.number spelling after, ⟨hspelling, hafter⟩, rfl⟩
    · obtain ⟨word, after, hafter, rfl⟩ := taken_keyword (reads_single (reads_only h))
      exact ⟨.keyword word after, hafter, rfl⟩

/-! ## Acceptance -/

theorem static_grammar : grammar.isStatic = true := rfl

/-- A text that parses is a text, with stray commas or without. -/
theorem isText_of_parse {text : Bytes} {x : Spanned Value} (h : parse text = .ok (.tree x)) : IsText true text := by
  rw [parse_eq] at h
  obtain ⟨u, rest, rfl, htaken⟩ := parse_reads {} static_grammar (by decide) (by decide) h
  obtain ⟨before, t, rfl, hbefore, h⟩ := (reads_only (Taken.alternatives (s := .text) htaken)).seq
  obtain ⟨value, t, rfl, hvalue, hend⟩ := h.seq
  obtain ⟨c, hc, rfl⟩ := taken_value _ value _ (Nat.lt_succ_self _) hvalue
  -- nothing remains behind the value
  obtain ⟨rfl, hnone⟩ := Reads.notAhead (reads_single hend)
  rw [hnone.any_none, List.append_nil, List.append_nil]
  exact ⟨before, c, taken_blanks hbefore, hc, rfl⟩

mutual

/-- A tree without stray commas is one with stray commas or without. -/
theorem Concrete.Formed.mono {stray : Bool} : ∀ {c : Concrete}, c.Formed false → c.Formed stray
  | .keyword _ _, h => h
  | .number _ _, h => h
  | .string _ _, h => h
  | .container _ _ parts _, h => ⟨h.1, formedParts_mono parts h.2.1, h.2.2⟩
termination_by structural c => c

theorem formedParts_mono {stray : Bool} {kind : Kind} {first : Bool} : ∀ (parts : List (Part Concrete)),
    Concrete.FormedParts false kind first parts → Concrete.FormedParts stray kind first parts
  | [], _ => trivial
  | ⟨comma, name, value⟩ :: rest, h => by
    obtain ⟨hcomma, hname, hvalue, hrest⟩ := h
    refine ⟨?_, hname, Concrete.Formed.mono hvalue, formedParts_mono rest hrest⟩
    cases comma with
    | none => exact hcomma
    | some blanks => exact ⟨.inl (hcomma.1.resolve_right Bool.false_ne_true), hcomma.2⟩
termination_by structural parts => parts

end

/-! ## Well-formedness -/

/-- A text is made of the encodings of scalar values. -/
def Encoded (t : Bytes) : Prop := ∃ runes : List Rune, (∀ r ∈ runes, r.isScalar = true) ∧ t = runes.flatMap Utf8.encode

namespace Encoded

variable {t v : Bytes}

theorem append (ht : Encoded t) (hv : Encoded v) : Encoded (t ++ v) := by
  obtain ⟨runes, hrunes, rfl⟩ := ht
  obtain ⟨runes', hrunes', rfl⟩ := hv
  refine ⟨runes ++ runes', ?_, (List.flatMap_append).symm⟩
  intro r hr
  exact (List.mem_append.mp hr).elim (hrunes r) (hrunes' r)

theorem encode {r : Rune} (hr : r.isScalar = true) : Encoded (Utf8.encode r) :=
  ⟨[r], List.forall_mem_singleton.mpr hr, (List.flatMap_singleton ..).symm⟩

theorem ascii {set : Bytes} (ht : ∀ b ∈ t, b ∈ set) (hset : set.all (· < 0x80) = true) : Encoded t := by
  induction t with
  | nil => exact ⟨[], fun r hr => absurd hr List.not_mem_nil, rfl⟩
  | cons b t ih =>
    rw [List.forall_mem_cons] at ht
    have hsmall : b.toNat < 0x80 := UInt8.lt_iff_toNat_lt.mp (of_decide_eq_true (List.all_eq_true.mp hset b ht.1))
    have hscalar : Rune.isScalar b.toNat = true := Utf8.isScalar_iff.mpr (by omega)
    have hencode : Utf8.encode b.toNat = [b] := by
      unfold Utf8.encode
      rw [if_pos hsmall]
      exact congrArg (fun b : UInt8 => [b]) UInt8.ofNat_toNat
    have hwhole := append (encode hscalar) (ih ht.2)
    rwa [hencode] at hwhole

/-- Bytes that are given can be checked. -/
theorem given (h : t.all (· < 0x80) = true) : Encoded t := ascii (fun _ hb => hb) h

theorem cons {b : UInt8} (hb : b < 0x80) (ht : Encoded t) : Encoded (b :: t) :=
  append (given (t := [b]) (by rw [List.all_cons, List.all_nil, Bool.and_true]; exact decide_eq_true hb)) ht

/-- Such a text is well-formed. -/
theorem isWellFormed (h : Encoded t) : Utf8.isWellFormed t = true := by
  obtain ⟨runes, -, rfl⟩ := h
  exact Utf8.isWellFormed_encoded runes

end Encoded

theorem Blank.encoded {t : Bytes} (h : Blank t) : Encoded t := .ascii h (by decide)

theorem Digits.encoded {t : Bytes} (h : Digits t) : Encoded t := .ascii h (by decide)

theorem IsNumber.encoded {t : Bytes} (h : IsNumber t) : Encoded t := by
  obtain ⟨minus, int, fraction, exponent, hminus, hint, hfraction, hexponent, rfl⟩ := h
  refine .append ?_ (.append ?_ (.append ?_ ?_))
  · rcases hminus with rfl | rfl <;> exact .given (by decide)
  · rcases hint with rfl | ⟨d, ds, hd, hds, rfl⟩
    · exact .given (by decide)
    · exact .append (t := [d]) (.ascii (List.forall_mem_singleton.mpr hd) (by decide)) hds.encoded
  · rcases hfraction with rfl | ⟨ds, -, hds, rfl⟩
    · exact .given (by decide)
    · exact .cons (by decide) hds.encoded
  · rcases hexponent with rfl | ⟨e, sign, ds, he, hsign, -, hds, rfl⟩
    · exact .given (by decide)
    · refine .append (t := [e]) (.ascii (List.forall_mem_singleton.mpr he) (by decide)) (.append ?_ hds.encoded)
      rcases hsign with rfl | ⟨s, hs, rfl⟩
      · exact .given (by decide)
      · exact .ascii (List.forall_mem_singleton.mpr hs) (by decide)

theorem Glyph.encoded {g : Glyph} (h : g.Valid) : Encoded g.text := by
  cases g with
  | plain r => exact .encode h.1
  | short letter => exact .cons (by decide) (.ascii (List.forall_mem_singleton.mpr h) (by decide))
  | code digits =>
    exact .cons (by decide) (.cons (by decide) (.ascii (fun b hb => Source.mem_hexBytes (h.2 b hb)) (by decide)))

theorem encoded_quoted {glyphs : List Glyph} (h : ∀ g ∈ glyphs, g.Valid) : Encoded (quoted glyphs) := by
  refine .cons (by decide) (.append ?_ (.given (by decide)))
  induction glyphs with
  | nil => exact .given rfl
  | cons g glyphs ih =>
    rw [List.forall_mem_cons] at h
    exact .append (Glyph.encoded h.1) (ih h.2)

theorem encoded_name {kind : Kind} {name : Option Name} (h : NameFits kind name) : Encoded (nameText name) := by
  cases name with
  | none => exact .given rfl
  | some name =>
    cases kind with
    | array => exact h.elim
    | object => exact .append (encoded_quoted h.1) (.append h.2.1.encoded (.cons (by decide) h.2.2.encoded))

mutual

/-- The text of a tree is well-formed. -/
theorem Concrete.encoded {stray : Bool} : ∀ {c : Concrete}, c.Formed stray → Encoded c.text
  | .keyword word _, h => by
    refine .append ?_ (Blank.encoded h)
    rcases word with _ | _ | _ <;> exact .given (by decide)
  | .number _ _, h => .append h.1.encoded h.2.encoded
  | .string _ _, h => .append (encoded_quoted h.1) h.2.encoded
  | .container kind _ parts _, h => by
    have hparts := encoded_parts parts h.2.1
    refine .cons (by cases kind <;> decide) (.append h.1.encoded (.append hparts ?_))
    exact .cons (by cases kind <;> decide) h.2.2.encoded
termination_by structural c => c

theorem encoded_parts {stray : Bool} {kind : Kind} {first : Bool} : ∀ (parts : List (Part Concrete)),
    Concrete.FormedParts stray kind first parts → Encoded (Concrete.textOfParts parts)
  | [], _ => .given rfl
  | ⟨comma, name, value⟩ :: rest, h => by
    obtain ⟨hcomma, hname, hvalue, hrest⟩ := h
    refine .append ?_ (.append (encoded_name hname) (.append (Concrete.encoded hvalue) (encoded_parts rest hrest)))
    cases comma with
    | none => exact .given rfl
    | some blanks => exact .cons (by decide) hcomma.2.encoded
termination_by structural parts => parts

end

/-! ## Exactness -/

/-- **The JSON grammar accepts the JSON texts, and those with stray commas.** A text that is not refused for its
depth parses exactly if it is a text of a tree in which a comma may stand before the first part of an array or object;
it is then well-formed. So it parses exactly if it is a JSON text of RFC 7159, unless it is a text with such a
comma. -/
theorem accepts_exact {text : Bytes} (h : parse text ≠ .error .callDepth) :
    ((∃ x, parse text = .ok (.tree x)) ↔ Utf8.isWellFormed text = true ∧ IsText true text) ∧
      (((∃ x, parse text = .ok (.tree x)) ↔ Utf8.isWellFormed text = true ∧ IsText false text) ↔
        ¬(IsText true text ∧ ¬IsText false text)) := by
  have hencoded : ∀ {stray}, IsText stray text → Utf8.isWellFormed text = true := by
    rintro stray ⟨before, c, hbefore, hc, rfl⟩
    exact (hbefore.encoded.append (Concrete.encoded hc)).isWellFormed
  have haccepts : (∃ x, parse text = .ok (.tree x)) ↔ IsText true text := by
    constructor
    · rintro ⟨x, hx⟩
      exact isText_of_parse hx
    · rintro ⟨before, c, hbefore, hc, rfl⟩
      have hparse := parse_concrete hbefore hc
      split at hparse
      · obtain ⟨x, hx, -⟩ := hparse
        exact ⟨x, hx⟩
      · exact absurd hparse h
  have hmono : IsText false text → IsText true text := by
    rintro ⟨before, c, hbefore, hc, htext⟩
    exact ⟨before, c, hbefore, hc.mono, htext⟩
  have hwhole : ∀ {stray}, (Utf8.isWellFormed text = true ∧ IsText stray text) ↔ IsText stray text :=
    ⟨And.right, fun htext => ⟨hencoded htext, htext⟩⟩
  rw [hwhole, hwhole, haccepts]
  refine ⟨Iff.rfl, ?_⟩
  constructor
  · exact fun hsame hstray => hstray.2 (hsame.mp hstray.1)
  · exact fun hnone => ⟨fun htext => Classical.not_not.mp fun hother => hnone ⟨htext, hother⟩, hmono⟩

/-- The list whose first part has a comma in front of it. -/
def strayList : Concrete := .container .array [] [⟨some [], none, .number (Bytes.ascii "1") []⟩] []

theorem isNumber_one : IsNumber (Bytes.ascii "1") := by
  have hint : IsInteger (Bytes.ascii "1") :=
    .inr ⟨Bytes.char '1', [], by decide, fun b hb => absurd hb List.not_mem_nil, rfl⟩
  exact ⟨[], Bytes.ascii "1", [], [], .inl rfl, hint, .inl rfl, .inl rfl, rfl⟩

/-- The text `[,1]` is accepted, and is no JSON text. -/
theorem stray_comma_accepted :
    (∃ x, parse (Bytes.ascii "[,1]") = .ok (.tree x)) ∧ ¬IsText false (Bytes.ascii "[,1]") := by
  constructor
  · have hformed : strayList.Formed true :=
      ⟨by decide, ⟨⟨.inr rfl, by decide⟩, trivial, ⟨isNumber_one, by decide⟩, trivial⟩, by decide⟩
    obtain ⟨x, hx, -⟩ := parse_concrete blank_nil hformed
    exact ⟨x, hx⟩
  · rintro ⟨before, c, hbefore, hc, htext⟩
    have hfront : ∀ {set t : Bytes} {b : UInt8} {more : Bytes}, StartsIn set t → b :: more = t → b ∈ set := by
      rintro set t b more hstart rfl
      exact hstart b rfl
    have hblank : ∀ {t v : Bytes}, Blank t → (Bytes.char '[' :: v = t ∨ Bytes.char ',' :: v = t) → False := by
      rintro t v ht (rfl | rfl)
      · exact absurd (ht _ List.mem_cons_self) (by decide)
      · exact absurd (ht _ List.mem_cons_self) (by decide)
    cases before with
    | cons b before =>
      obtain ⟨rfl, -⟩ := List.cons.inj htext
      exact hblank hbefore (.inl rfl)
    | nil =>
      cases c with
      | keyword word after =>
        rcases word with _ | _ | _
        · exact absurd (List.cons.inj htext).1 (by decide)
        · exact absurd (List.cons.inj htext).1 (by decide)
        · exact absurd (List.cons.inj htext).1 (by decide)
      | number spelling after => exact absurd (hfront (hc.1.startsIn after) htext) (by decide)
      | string glyphs after => exact absurd (List.cons.inj htext).1 (by decide)
      | container kind opening parts after =>
        obtain ⟨hopens, htext⟩ := List.cons.inj htext
        cases kind with
        | object => exact absurd hopens (by decide)
        | array =>
          cases opening with
          | cons b opening =>
            obtain ⟨rfl, -⟩ := List.cons.inj htext
            exact hblank hc.1 (.inr rfl)
          | nil =>
            cases parts with
            | nil => exact absurd (List.cons.inj htext).1 (by decide)
            | cons part parts =>
              obtain ⟨comma, name, value⟩ := part
              obtain ⟨hcomma, hname, hvalue, -⟩ := hc.2.1
              cases comma with
              | some blanks => exact absurd hcomma.1 (by decide)
              | none =>
                cases name with
                | some name => exact hname
                | none =>
                  have hstart := Concrete.starts hvalue.mono (Concrete.textOfParts parts ++ Kind.array.closes :: after)
                  simp only [Concrete.textOfParts, commaText, nameText, List.nil_append, List.append_assoc] at htext
                  exact absurd (hfront hstart htext) (by decide)

theorem accepts_exact_list : ∃ x, parse (Bytes.ascii "[1]") = .ok (.tree x) := by
  have hformed : (Concrete.container .array [] [⟨none, none, .number (Bytes.ascii "1") []⟩] []).Formed false :=
    ⟨by decide, ⟨rfl, trivial, ⟨isNumber_one, by decide⟩, trivial⟩, by decide⟩
  have hdepth : parse (Bytes.ascii "[1]") ≠ .error .callDepth := by
    have hstray : Concrete.Formed true _ := hformed.mono
    obtain ⟨x, hx, -⟩ := parse_concrete blank_nil hstray
    intro hdeep
    cases hx.symm.trans hdeep
  exact (accepts_exact hdepth).1.mpr ⟨by decide, [], _, blank_nil, hformed.mono, rfl⟩

end Packrat.Json
