import Packrat.Proofs.HostReading

/-!
# `Packrat.Proofs.TerminalReading` — literals and classes are read as they are printed

## Contents
- **Flags.** The `i` behind a literal or class.
- **Classes.** The text between brackets.
- **Literals.** Escapes and interpolations between quotes.
-/

namespace Packrat.Source

variable {α : Type} {source : Bytes} {scope : Scope} {n : Nonterminal} {quote : String}
  {g s t u rest : Bytes} {r : Rune} {Q : Value → Prop}

/-! ## Flags -/

/-- The flag is read where no name goes on. -/
theorem takes_caseFlag (caseless : Bool) (hrest : StartsIn breaks rest) :
    BodyTakes (basis source) Nonterminal.caseFlag.body (caseFlag caseless) rest
      (fun v => v.truthy = caseless) := by
  refine takes_plain rfl (ExprTakes.first ?_)
  cases caseless with
  | false =>
    refine SequenceTakes.matched rfl ?_ rfl
    exact ItemsTake.last (ItemTakes.absent (fails_of_refused hrest (by decide +kernel))) fun _ _ => trivial
  | true =>
    refine SequenceTakes.matched rfl (ItemsTake.last (ItemTakes.present (Q := fun _ => True) ?_) fun _ _ => trivial) rfl
    refine BodyTakes.group (ExprTakes.first (SequenceTakes.matched rfl ?_ trivial))
    have hbar : ItemsTake (basis source) [barring Nonterminal.identRune.body] [] [] rest (fun _ => True) :=
      ItemsTake.last (ItemTakes.notAhead (fails_identRune hrest)) fun _ _ => trivial
    exact ItemsTake.next (t := Bytes.ascii "i") (u := []) rfl (ItemTakes.once (takes_word rfl)) hbar

/-! ## Classes -/

/-- A word of one rune is not another rune. -/
theorem fails_rune {w : String} {c : Rune}
    (hw : ∀ text, (wordBody w).taken? text = Terminal.runes? false [c] text) (hu : Encodes u r) (hr : r ≠ c)
    (rest : Bytes) : BodyFails (basis source) (wordBody w) (u ++ rest) := by
  have hagree : Terminal.agree false r c = false := beq_eq_false_iff_ne.mpr hr
  refine BodyFails.terminal rfl ?_
  rw [hw, Terminal.runes?, hu.rune?]
  simp only [hagree]
  rfl

/-- The body that matches a rune, or a backslash and a rune. -/
def bracketUnit : Body Empty :=
  .group [sequenceOf [barring (wordBody "]"),
    step (.group [sequenceOf [step (wordBody "\\"), step .any], sequenceOf [step .any]])]]

theorem takes_bracketUnit (hfails : BodyFails (basis source) (wordBody "]") (u ++ rest))
    (h : ExprTakes (basis source) [sequenceOf [step (wordBody "\\"), step .any], sequenceOf [step .any]]
      u rest (fun _ => True)) : BodyTakes (basis source) bracketUnit u rest (fun _ => True) := by
  refine BodyTakes.group (ExprTakes.first (SequenceTakes.matched rfl ?_ trivial))
  refine ItemsTake.skip rfl (ItemTakes.notAhead hfails) ?_
  exact ItemsTake.last (ItemTakes.once (BodyTakes.group h)) fun _ _ => trivial

/-- The text between brackets is read up to the closing one. -/
theorem takes_bracketBody (hu : Escapable (· ≠ ']'.toNat) u) :
    BodyTakes (basis source) Nonterminal.bracketBody.body u (Bytes.ascii "]" ++ rest) (fun v => v = .text u) := by
  have hunits : ∃ Qs, Repeats (basis source) bracketUnit (Bytes.ascii "]" ++ rest) u Qs := by
    induction hu with
    | nil =>
      refine ⟨[], Repeats.stop (BodyFails.group (ExprFails.cons (SequenceFails.of_items ?_) ExprFails.nil))⟩
      exact ItemsFail.head (ItemFails.notAhead rfl (takes_word rfl))
    | @plain u t r hu hr hbackslash _ ih =>
      obtain ⟨Qs, hmore⟩ := ih
      refine ⟨(fun _ => True) :: Qs, Repeats.more hu.ne_nil ?_ hmore⟩
      refine takes_bracketUnit (fails_rune (c := ']'.toNat) (fun _ => rfl) hu hr _) (ExprTakes.later ?_ (ExprTakes.first ?_))
      · exact SequenceFails.of_items (ItemsFail.head (ItemFails.once
          (fails_rune (c := '\\'.toNat) (fun _ => rfl) hu hbackslash _)))
      · refine SequenceTakes.matched rfl ?_ trivial
        exact ItemsTake.last (ItemTakes.once (takes_any hu)) fun _ _ => trivial
    | @escaped u t r hu _ ih =>
      obtain ⟨Qs, hmore⟩ := ih
      refine ⟨(fun _ => True) :: Qs, ?_⟩
      rw [← List.append_assoc]
      refine Repeats.more (List.cons_ne_nil _ _) ?_ hmore
      refine takes_bracketUnit (BodyFails.terminal rfl rfl) (ExprTakes.first ?_)
      refine SequenceTakes.matched rfl ?_ trivial
      refine ItemsTake.next rfl (ItemTakes.once (takes_word rfl)) ?_
      exact ItemsTake.last (ItemTakes.once (takes_any hu)) fun _ _ => trivial
  obtain ⟨Qs, hunits⟩ := hunits
  refine takes_plain rfl (ExprTakes.first (SequenceTakes.matched rfl ?_ rfl))
  exact ItemsTake.last (ItemTakes.star (reach_basis source) hunits) fun _ _ => trivial

theorem takes_bracket {k : CharClass} (hu : Escapable (· ≠ ']'.toNat) u)
    (hparse : CharClass.parse? u k.caseless = .ok k) (hg : Gap g) (hbreak : StartsIn breaks (g ++ rest))
    (hrest : StartsIn solid rest) :
    BodyTakes (basis source) Nonterminal.bracket.body
      (Bytes.ascii "[" ++ (u ++ (Bytes.ascii "]" ++ (caseFlag k.caseless ++ g)))) rest
      (BodyMeant scope (.cls k : Body α)) := by
  refine takes_record rfl rfl rfl ?_
  refine ItemsTake.next rfl (ItemTakes.once (takes_word rfl)) ?_
  refine ItemsTake.cons (ItemTakes.once (takes_bracketBody hu)) fun x hx => ?_
  refine ItemsTake.next rfl (ItemTakes.once (takes_word rfl)) ?_
  refine ItemsTake.cons (ItemTakes.once (takes_caseFlag k.caseless hbreak)) fun y hy => ?_
  refine ItemsTake.last (ItemTakes.once (takes_gap hg hrest)) fun _ _ => ?_
  have hcaseless : y.value.truthy = k.caseless := hy
  refine bodyMeant_cls (x := x) (y := y) rfl hx rfl ?_
  rw [hcaseless]
  exact hparse

/-! ## Literals -/

/-- The rule for the parts of a literal between two quotes of a kind. -/
inductive IsQuote : String → Nonterminal → Prop
  | single : IsQuote "'" .singleQuoted
  | double : IsQuote "\"" .doubleQuoted

/-- The bytes that the parts of a literal start with. -/
def partStarts : Bytes := Bytes.ascii "\\\x7b"

theorem takes_part (hquote : IsQuote quote n) (hne : u ≠ []) (hstart : StartsIn partStarts u)
    (h : BodyTakes (basis source) Nonterminal.literalPart.body u rest Q) :
    BodyTakes (basis source) n.body u rest Q := by
  have hfront : StartsIn partStarts (u ++ rest) := hstart.append_of_ne_nil hne
  cases hquote with
  | single =>
    refine takes_yielding rfl rfl ?_
    refine ItemsTake.skip rfl (ItemTakes.notAhead (fails_of_refused hfront (by decide))) ?_
    exact ItemsTake.last (ItemTakes.once h) fun x hx => ⟨x, rfl, hx⟩
  | double =>
    refine takes_yielding rfl rfl ?_
    refine ItemsTake.skip rfl (ItemTakes.notAhead (fails_of_refused hfront (by decide))) ?_
    exact ItemsTake.last (ItemTakes.once h) fun x hx => ⟨x, rfl, hx⟩

/-- The parts of a literal end at its closing quote. -/
theorem fails_part (hquote : IsQuote quote n) (rest : Bytes) :
    BodyFails (basis source) n.body (Bytes.ascii quote ++ rest) := by
  cases hquote with
  | single =>
    refine fails_body (ExprFails.cons (SequenceFails.of_items (ItemsFail.head ?_)) ExprFails.nil)
    exact ItemFails.notAhead rfl (takes_word rfl)
  | double =>
    refine fails_body (ExprFails.cons (SequenceFails.of_items (ItemsFail.head ?_)) ExprFails.nil)
    exact ItemFails.notAhead rfl (takes_word rfl)

/-- The hexadecimal digits. -/
def hexBytes : Bytes := decimalDigits ++ bytesFrom 'A' 'F' ++ bytesFrom 'a' 'f'

theorem mem_hexBytes {b : UInt8} (h : (hexDigit? b).isSome = true) : b ∈ hexBytes := by
  have hall := forall_byte (p := fun b => (hexDigit? b).isNone || hexBytes.contains b) (by decide +kernel) b
  rw [Bool.or_eq_true, List.contains_iff_mem] at hall
  rcases hall with hnone | hmem
  · rw [Option.isNone_iff_eq_none] at hnone
    rw [hnone] at h
    cases h
  · exact hmem

theorem takes_escape (hne : t ≠ []) (ht : ∀ b ∈ t, (hexDigit? b).isSome = true) :
    BodyTakes (basis source) Nonterminal.literalPart.body
      (Bytes.ascii "\\u\x7b" ++ (t ++ Bytes.ascii "\x7d")) rest
      (PartMeant scope (.spelling (Bytes.ascii "\\u\x7b" ++ (t ++ Bytes.ascii "\x7d")) : Segment α)) := by
  have hstart : StartsIn (Bytes.ascii "\\")
      (Bytes.ascii "\\u\x7b" ++ (t ++ Bytes.ascii "\x7d") ++ rest) := StartsIn.cons List.mem_cons_self
  have hdigits : ItemTakes (basis source)
      (step (classBody "[0-9A-Fa-f]" [('0', '9'), ('A', 'F'), ('a', 'f')] false) .plus) t
      (Bytes.ascii "\x7d" ++ rest) (fun _ => True) := by
    cases t with
    | nil => exact absurd rfl hne
    | cons b t =>
      have hclose : StartsIn (Bytes.ascii "\x7d") (Bytes.ascii "\x7d" ++ rest) := StartsIn.cons List.mem_cons_self
      have hmem : ∀ b' ∈ b :: t, b' ∈ hexBytes := fun b' hb' => mem_hexBytes (ht b' hb')
      obtain ⟨Qs, hmore⟩ : ∃ Qs, Repeats (basis source)
          (classBody "[0-9A-Fa-f]" [('0', '9'), ('A', 'F'), ('a', 'f')] false) (Bytes.ascii "\x7d" ++ rest) t Qs :=
        repeats_bytes (fun b' hb' => hmem b' (List.mem_cons_of_mem b hb'))
          (fails_of_refused hclose (by decide)) (by decide)
      intro frame
      refine Takes.weaken (ItemTakes.plus (reach_basis source)
        (takes_byte (hmem b List.mem_cons_self) (by decide)) hmore frame) ?_
      exact fun _ _ => trivial
  refine takes_plain rfl (takes_choice [.interpolation, .strayBrace] [.plain] hstart ?_ (by decide))
  refine takes_plain rfl (ExprTakes.first (SequenceTakes.matched rfl ?_ rfl))
  refine ItemsTake.next rfl (ItemTakes.once (takes_word rfl)) ?_
  refine ItemsTake.next rfl hdigits ?_
  exact ItemsTake.last (ItemTakes.once (takes_word rfl)) fun _ _ => trivial

/-- Escapes are one part each. -/
theorem repeats_escapes (scope : Scope) (hquote : IsQuote quote n) (hs : HexEscapes s) {Qs : List (Value → Prop)}
    (hmore : Repeats (basis source) n.body rest t Qs) : ∃ parts : List (Segment α),
      Repeats (basis source) n.body rest (s ++ t) (parts.map (PartMeant scope) ++ Qs) ∧
        parts.any isCodeSegment = false ∧ spelledBy parts = s ∧
          ∀ spelling more, mergeParts spelling (parts ++ more) = mergeParts (spelling ++ s) more := by
  induction hs with
  | nil =>
    refine ⟨[], hmore, rfl, rfl, fun spelling more => ?_⟩
    rw [List.append_nil]
    rfl
  | @cons digits s hne hdigits _ ih =>
    obtain ⟨parts, hparts, hplain, hspelled, hmerge⟩ := ih
    have hescape : Bytes.ascii "\\u\x7b" ++ (digits ++ (Bytes.ascii "\x7d" ++ s))
        = Bytes.ascii "\\u\x7b" ++ (digits ++ Bytes.ascii "\x7d") ++ s := by simp only [List.append_assoc]
    rw [hescape]
    refine ⟨.spelling (Bytes.ascii "\\u\x7b" ++ (digits ++ Bytes.ascii "\x7d")) :: parts, ?_, hplain, ?_, ?_⟩
    · rw [List.append_assoc]
      refine Repeats.more (List.cons_ne_nil _ _) ?_ hparts
      exact takes_part hquote (List.cons_ne_nil _ _) (StartsIn.cons List.mem_cons_self)
        (takes_escape hne hdigits)
    · rw [spelledBy, hspelled]
    · intro spelling more
      rw [List.cons_append, mergeParts, hmerge, List.append_assoc]

theorem mergeParts_spelling {parts : List (Segment α)} (hne : s ≠ []) (hcode : startsInCode parts = true) :
    mergeParts s parts = .spelling s :: mergeParts [] parts := by
  have hsegment : spellingSegment s = [(.spelling s : Segment α)] := by
    cases s with
    | nil => exact absurd rfl hne
    | cons b s => rfl
  cases parts with
  | nil => exact hsegment
  | cons part rest =>
    cases part with
    | spelling t => cases hcode
    | code host =>
      rw [mergeParts, mergeParts, hsegment]
      rfl

section

variable {tables : NameTables} {visible : List Bytes} (hvisible : ∀ b, Value.boolWord b ∉ visible)

include hvisible

/-- Segments are read as parts that make them again. -/
theorem repeats_segments (scope : Scope) (rest : Bytes) (hquote : IsQuote quote n) (segments : List (Segment α))
    {linked : List (Segment α)} (hlink : linkSegments tables visible segments = .ok linked)
    (h : SegmentsPrinted segments t) : ∃ parts : List (Segment α),
      Repeats (basis source) n.body (Bytes.ascii quote ++ rest) t (parts.map (PartMeant scope)) ∧
        mergeParts [] parts = segments ∧ parts.any isCodeSegment = segments.any isCodeSegment ∧
          (startsInCode segments = true → startsInCode parts = true) := by
  induction segments generalizing t linked with
  | nil =>
    have ht : t = [] := h
    subst ht
    exact ⟨[], Repeats.stop (fails_part hquote rest), rfl, rfl, fun h => h⟩
  | cons segment segments ih =>
    cases segment with
    | spelling s =>
      obtain ⟨hne, hs, hcode, u, hu, ht⟩ := h
      subst ht
      unfold linkSegments at hlink
      obtain ⟨linked', hlink', _⟩ := bind_eq_ok.mp hlink
      obtain ⟨parts, hparts, hmerge, hany, hfront⟩ := ih hlink' hu
      obtain ⟨chunks, hchunks, hplain, _, hmergeChunks⟩ :=
        repeats_escapes (α := α) scope hquote hs hparts
      refine ⟨chunks ++ parts, ?_, ?_, ?_, fun hfalse => by cases hfalse⟩
      · rw [List.map_append]
        exact hchunks
      · rw [hmergeChunks, List.nil_append, mergeParts_spelling hne (hfront hcode), hmerge]
      · rw [List.any_append, hplain, hany]
        rfl
    | code host =>
      obtain ⟨u, v, hu, hv, ht⟩ := h
      subst ht
      unfold linkSegments at hlink
      obtain ⟨node', hnode, hlink⟩ := bind_eq_ok.mp hlink
      obtain ⟨linked', hlink', _⟩ := bind_eq_ok.mp hlink
      obtain ⟨parts, hparts, hmerge, hany, _⟩ := ih hlink' hv
      refine ⟨.code host :: parts, ?_, ?_, rfl, fun _ => rfl⟩
      · refine Repeats.more hu.startsIn.1 ?_ hparts
        refine takes_part hquote hu.startsIn.1 (hu.startsIn.2.widen (by decide)) ?_
        exact takes_plain rfl (ExprTakes.first (takes_calling (takes_interpolation hvisible hnode hu)))
      · rw [mergeParts, hmerge]
        rfl

end

/-- A literal from its parts. -/
theorem takes_literal {caseless : Bool} {body : Body α} (hg : Gap g) (hbreak : StartsIn breaks (g ++ rest))
    (hrest : StartsIn solid rest)
    (hparts : ∀ quote n rest, IsQuote quote n → ∃ parts : List (Segment α),
      Repeats (basis source) n.body (Bytes.ascii quote ++ rest) u (parts.map (PartMeant scope)) ∧
        ∀ x y xs, x.value = .list xs → AllHold (parts.map (PartMeant scope)) xs → y.value.truthy = caseless →
          BodyMeant scope body (.node Nonterminal.literal.name
            [(Bytes.ascii "parts", x), (Bytes.ascii "caseless", y)]))
    (h : Quoted caseless u t) :
    BodyTakes (basis source) Nonterminal.literal.body (t ++ g) rest (BodyMeant scope body) := by
  obtain ⟨q, hq, ht⟩ := h
  subst ht
  -- the two alternatives are one sequence with one quote or the other
  have hsequence : ∀ quote n, IsQuote quote n → SequenceTakes (basis source)
      (Nonterminal.alternatives.quoted quote n)
      (Bytes.ascii quote ++ (u ++ (Bytes.ascii quote ++ (caseFlag caseless ++ g)))) rest
      (fun v => ∀ start stop, BodyMeant scope body (tagged Nonterminal.literal.name ⟨v, start, stop⟩).value) := by
    intro quote n hquote
    obtain ⟨parts, hrepeats, hmeant⟩ := hparts quote n (caseFlag caseless ++ g ++ rest) hquote
    have hword : ∀ back, BodyTakes (basis source) (wordBody quote) (Bytes.ascii quote) back (fun _ => True) := by
      intro back
      cases hquote with
      | single => exact takes_word rfl
      | double => exact takes_word rfl
    have hstar : ItemTakes (basis source) (bound "parts" 0 n.body .star) u
        (Bytes.ascii quote ++ (caseFlag caseless ++ g) ++ rest)
        (fun v => ∃ xs, v = .list xs ∧ AllHold (parts.map (PartMeant scope)) xs) := by
      rw [List.append_assoc]
      exact ItemTakes.star (reach_basis source) hrepeats
    refine SequenceTakes.record rfl ?_
    refine ItemsTake.next rfl (ItemTakes.once (hword _)) ?_
    refine ItemsTake.cons hstar fun x hx => ?_
    refine ItemsTake.next rfl (ItemTakes.once (hword _)) ?_
    refine ItemsTake.cons (ItemTakes.once (takes_caseFlag caseless hbreak)) fun y hy => ?_
    refine ItemsTake.last (ItemTakes.once (takes_gap hg hrest)) fun _ _ start stop => ?_
    obtain ⟨xs, hxs, hall⟩ := hx
    exact hmeant x y xs hxs hall hy
  rw [List.append_assoc, List.append_assoc, List.append_assoc]
  refine takes_tagged rfl ?_
  rcases hq with hq | hq
  · subst hq
    exact ExprTakes.first (hsequence _ _ .single)
  · subst hq
    refine ExprTakes.later ?_ (ExprTakes.first (hsequence _ _ .double))
    exact SequenceFails.of_items (ItemsFail.head (ItemFails.once (BodyFails.terminal rfl rfl)))

end Packrat.Source
