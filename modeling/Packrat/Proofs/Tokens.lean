import Packrat.Proofs.Coding
import Packrat.Proofs.Nonterminals
import Packrat.Proofs.Printing

/-!
# `Packrat.Proofs.Tokens` — the tokens of grammar sources are read as they are printed

## Contents
- **Runes.** A rune that a text starts with is decoded, whatever follows.
- **Gaps.** `takes_gap`: a gap is read up to the next token.
- **Names.** Identifiers and dotted names.
-/

namespace Packrat

/-! ## Runes -/

namespace Source

variable {source g t u rest : Bytes} {r : Rune} {Q : Value → Prop}

theorem Encodes.ne_nil (hu : Encodes u r) : u ≠ [] := by
  intro hnil
  subst hnil
  cases hu

theorem Encodes.decode_append (hu : Encodes u r) (rest : Bytes) :
    Utf8.decode (u ++ rest) = ⟨r, u.length, true⟩ := by
  have hwell : (Utf8.decode u).wellFormed = true := by rw [hu]
  rw [Utf8.decode_append hwell, hu]

theorem Encodes.any? (hu : Encodes u r) (rest : Bytes) : Terminal.any? (u ++ rest) = some (r, u.length) := by
  have hdecode := hu.decode_append rest
  cases u with
  | nil => exact absurd rfl hu.ne_nil
  | cons b u =>
    rw [List.cons_append] at hdecode ⊢
    rw [Terminal.any?, hdecode]

theorem Encodes.rune? (hu : Encodes u r) (rest : Bytes) :
    Terminal.rune? (u ++ rest) = some (r, u.length) := by
  have hdecode := hu.decode_append rest
  cases u with
  | nil => exact absurd rfl hu.ne_nil
  | cons b u =>
    rw [List.cons_append] at hdecode ⊢
    rw [Terminal.rune?, hdecode]
    rfl

/-- An ASCII byte is a rune. -/
theorem encodes_ascii {b : UInt8} (hb : b < 0x80) : Encodes [b] b.toNat := Utf8.decode_ascii hb []

/-- A class takes a rune of its own. -/
theorem takes_rune {k : CharClass} (hu : Encodes u r) (hr : k.contains r = true) (hQ : Q (.text u)) :
    BodyTakes (basis source) (.cls k) u rest Q := by
  refine BodyTakes.terminal rfl ?_ hQ
  simp only [Body.taken?, Terminal.class?, hu.rune? rest]
  simp [hr]

theorem takes_any (hu : Encodes u r) : BodyTakes (basis source) .any u rest (fun _ => True) := by
  refine BodyTakes.terminal rfl ?_ trivial
  simp only [Body.taken?, hu.any? rest]
  rfl

/-- A class takes an ASCII byte that it accepts. -/
theorem takes_byte {k : CharClass} {set : Bytes} {b : UInt8} (hb : b ∈ set)
    (hset : (set.all fun b => b < 0x80 && k.contains b.toNat) = true) :
    BodyTakes (basis source) (.cls k) [b] rest (fun v => v = .text [b]) := by
  have hboth := List.all_eq_true.mp hset b hb
  rw [Bool.and_eq_true, decide_eq_true_eq] at hboth
  exact takes_rune (encodes_ascii hboth.1) hboth.2 rfl

/-- A class takes one byte after the other. -/
theorem repeats_bytes {k : CharClass} {set : Bytes} (ht : ∀ b ∈ t, b ∈ set)
    (hrest : BodyFails (basis source) (.cls k) rest)
    (hset : (set.all fun b => b < 0x80 && k.contains b.toNat) = true) :
    ∃ Qs, Repeats (basis source) (.cls k) rest t Qs := by
  induction t with
  | nil => exact ⟨[], Repeats.stop hrest⟩
  | cons b t ih =>
    obtain ⟨Qs, hmore⟩ := ih fun b' hb' => ht b' (List.mem_cons_of_mem b hb')
    exact ⟨_, Repeats.more (List.cons_ne_nil b []) (takes_byte (ht b List.mem_cons_self) hset) hmore⟩

/-! ## Gaps -/

/-- The bytes that tokens start with, or that stand between them. -/
def solid : Bytes := wordBytes ++ Bytes.ascii "&!~@('\"[.\x7b/)?*+<=:,\x7d$-"

/-- The bytes that end a name. -/
def breaks : Bytes := Bytes.ascii " \t\r\n#&!~@('\"[\x7b/)?*+<=:,\x7d$-"

/-- What ends a token fails before the bytes that may follow it. -/
structure TokensEnd : Prop where
  gap : refused solid gapUnit = true
  name : refused breaks Nonterminal.identRune.body = true
  dots : refused breaks (.group [sequenceOf [step (wordBody "."), step Nonterminal.identText.body]]) = true

theorem tokensEnd : TokensEnd := by constructor <;> decide +kernel

theorem takes_blank {b : UInt8} (hb : b ∈ blanks) :
    BodyTakes (basis source) gapUnit [b] rest (fun _ => True) := by
  refine BodyTakes.group (ExprTakes.first (SequenceTakes.matched rfl ?_ trivial))
  exact ItemsTake.last (ItemTakes.once (takes_byte hb (by decide))) fun _ _ => trivial

/-- The runes of a comment are taken up to the end of the line. -/
theorem takes_comment (ht : Runes (· ≠ '\n'.toNat) t) :
    BodyTakes (basis source) gapUnit (Bytes.ascii "#" ++ t) (Bytes.ascii "\n" ++ rest) (fun _ => True) := by
  have hrunes : ∃ Qs, Repeats (basis source) (classBody "[^\n]" [('\n', '\n')] true)
      (Bytes.ascii "\n" ++ rest) t Qs := by
    induction ht with
    | nil => exact ⟨[], Repeats.stop (BodyFails.terminal rfl rfl)⟩
    | @cons u t r hu hr _ ih =>
      obtain ⟨Qs, hmore⟩ := ih
      have hcontains : CharClass.contains ⟨[⟨'\n'.toNat, '\n'.toNat⟩], true, false, Bytes.ascii "[^\n]"⟩ r
          = true := by
        simp [CharClass.contains, CharClass.covers, RuneRange.contains]
        exact hr
      exact ⟨_, Repeats.more hu.ne_nil (takes_rune (Q := fun _ => True) hu hcontains trivial) hmore⟩
  obtain ⟨Qs, hrunes⟩ := hrunes
  have hblank : BodyFails (basis source) (classBody "[ \t\r\n]"
      [(' ', ' '), ('\t', '\t'), ('\r', '\r'), ('\n', '\n')] false)
      (Bytes.ascii "#" ++ t ++ (Bytes.ascii "\n" ++ rest)) := BodyFails.terminal rfl rfl
  refine BodyTakes.group (ExprTakes.later ?_ (ExprTakes.first (SequenceTakes.matched rfl ?_ trivial)))
  · exact SequenceFails.of_items (ItemsFail.head (ItemFails.once hblank))
  · refine ItemsTake.next rfl (ItemTakes.once (BodyTakes.terminal (Q := fun _ => True) rfl rfl trivial)) ?_
    exact ItemsTake.last (ItemTakes.star (reach_basis source) hrunes) fun _ _ => trivial

/-- A gap is read up to the next token. -/
theorem takes_gap (hg : Gap g) (hrest : StartsIn solid rest) :
    BodyTakes (basis source) Nonterminal.gap.body g rest (fun _ => True) := by
  have hunits : ∃ Qs, Repeats (basis source) gapUnit rest g Qs := by
    induction hg with
    | nil => exact ⟨[], Repeats.stop (fails_of_refused hrest (TokensEnd.gap tokensEnd))⟩
    | @blank b g hb _ ih =>
      obtain ⟨Qs, hmore⟩ := ih
      exact ⟨_, Repeats.more (List.cons_ne_nil b []) (takes_blank hb) hmore⟩
    | @comment t g ht _ ih =>
      obtain ⟨Qs, hmore⟩ := ih
      have hnewline : Repeats (basis source) gapUnit rest (Bytes.ascii "\n" ++ g) _ :=
        Repeats.more (List.cons_ne_nil _ []) (takes_blank (by decide)) hmore
      refine ⟨(fun _ => True) :: (fun _ => True) :: Qs, ?_⟩
      rw [← List.append_assoc]
      refine Repeats.more (List.cons_ne_nil _ _) ?_ hnewline
      rw [List.append_assoc]
      exact takes_comment ht
  obtain ⟨Qs, hunits⟩ := hunits
  refine takes_plain rfl (ExprTakes.first (SequenceTakes.matched rfl ?_ trivial))
  exact ItemsTake.last (ItemTakes.star (reach_basis source) hunits) fun _ _ => trivial

theorem Gap.startsIn (hg : Gap g) : StartsIn breaks g := by
  cases hg with
  | nil => exact StartsIn.nil
  | blank hb _ => exact (StartsIn.cons hb).widen (by decide)
  | comment _ _ => exact StartsIn.cons (by decide)

/-! ## Names -/

theorem takes_identRune {b : UInt8} (hb : b ∈ wordBytes) :
    BodyTakes (basis source) Nonterminal.identRune.body [b] rest (fun _ => True) := by
  refine takes_plain rfl (ExprTakes.first (SequenceTakes.matched rfl ?_ trivial))
  exact ItemsTake.last (ItemTakes.once (takes_byte hb (by decide))) fun _ _ => trivial

/-- An identifier is read where no rune of a name follows. -/
theorem takes_identText (hname : isIdentifier t = true)
    (hrest : BodyFails (basis source) Nonterminal.identRune.body rest) :
    BodyTakes (basis source) Nonterminal.identText.body t rest (fun v => v = .text t) := by
  cases t with
  | nil => cases hname
  | cons b t =>
    simp only [isIdentifier, Bool.and_eq_true, List.contains_iff_mem, List.all_eq_true] at hname
    obtain ⟨hb, ht⟩ := hname
    have hrunes : ∃ Qs, Repeats (basis source) Nonterminal.identRune.body rest t Qs := by
      clear hb
      induction t with
      | nil => exact ⟨[], Repeats.stop hrest⟩
      | cons b' t ih =>
        obtain ⟨Qs, hmore⟩ := ih fun b'' hb'' => ht b'' (List.mem_cons_of_mem b' hb'')
        exact ⟨_, Repeats.more (List.cons_ne_nil b' []) (takes_identRune (ht b' List.mem_cons_self)) hmore⟩
    obtain ⟨Qs, hrunes⟩ := hrunes
    refine takes_plain rfl (ExprTakes.first (SequenceTakes.matched rfl ?_ rfl))
    refine ItemsTake.next (t := [b]) rfl (ItemTakes.once (takes_byte hb (by decide))) ?_
    exact ItemsTake.last (ItemTakes.star (reach_basis source) hrunes) fun _ _ => trivial

/-- An identifier ends where a byte of no name follows. -/
theorem fails_identRune (hrest : StartsIn breaks rest) :
    BodyFails (basis source) Nonterminal.identRune.body rest :=
  fails_of_refused hrest (TokensEnd.name tokensEnd)

theorem takes_identifier (hname : isIdentifier t = true) (hg : Gap g) (hbreak : StartsIn breaks (g ++ rest))
    (hrest : StartsIn solid rest) :
    BodyTakes (basis source) Nonterminal.identifier.body (t ++ g) rest (fun v => v = .text t) := by
  refine takes_yielding rfl rfl ?_
  refine ItemsTake.cons (ItemTakes.once (takes_identText hname (fails_identRune hbreak))) fun x hx => ?_
  exact ItemsTake.last (ItemTakes.once (takes_gap hg hrest)) fun _ _ => ⟨x, rfl, hx⟩

/-- The part of a dotted name behind its first identifier. -/
theorem repeats_dots (source : Bytes) (hname : Dotted t) (hrest : StartsIn breaks rest) : ∃ first others Qs,
    t = first ++ others ∧ isIdentifier first = true ∧
      BodyFails (basis source) Nonterminal.identRune.body (others ++ rest) ∧
      Repeats (basis source) (.group [sequenceOf [step (wordBody "."), step Nonterminal.identText.body]])
        rest others Qs := by
  induction hname with
  | single h =>
    refine ⟨_, [], [], (List.append_nil _).symm, h, fails_identRune hrest, Repeats.stop ?_⟩
    exact fails_of_refused hrest (TokensEnd.dots tokensEnd)
  | @dot name rest' h _ ih =>
    obtain ⟨first, others, Qs, ht, hfirst, hstop, hmore⟩ := ih
    refine ⟨name, Bytes.ascii "." ++ rest', (fun _ => True) :: Qs, rfl, h, BodyFails.call ?_, ?_⟩
    · exact RuleFails.body Nonterminal.identRune.rule_at rfl
        (ExprFails.cons (SequenceFails.of_items (ItemsFail.head (ItemFails.once
          (BodyFails.terminal rfl rfl)))) ExprFails.nil)
    · rw [ht, ← List.append_assoc]
      refine Repeats.more (List.cons_ne_nil _ _) ?_ hmore
      refine BodyTakes.group (ExprTakes.first (SequenceTakes.matched rfl ?_ trivial))
      refine ItemsTake.next rfl (ItemTakes.once (BodyTakes.terminal (Q := fun _ => True) rfl rfl trivial)) ?_
      exact ItemsTake.last (ItemTakes.once (takes_identText hfirst hstop)) fun _ _ => trivial

theorem takes_qualifiedName (hname : Dotted t) (hg : Gap g) (hbreak : StartsIn breaks (g ++ rest))
    (hrest : StartsIn solid rest) :
    BodyTakes (basis source) Nonterminal.qualifiedName.body (t ++ g) rest (fun v => v = .text t) := by
  obtain ⟨first, others, Qs, ht, hfirst, hstop, hdots⟩ := repeats_dots source hname hbreak
  refine takes_yielding rfl rfl ?_
  refine ItemsTake.cons (Q := fun v => v = .text t) (ItemTakes.once ?_) fun x hx => ?_
  · refine BodyTakes.group (ExprTakes.first (SequenceTakes.matched rfl ?_ rfl))
    rw [ht]
    refine ItemsTake.next rfl (ItemTakes.once (takes_identText hfirst hstop)) ?_
    exact ItemsTake.last (ItemTakes.star (reach_basis source) hdots) fun _ _ => trivial
  · exact ItemsTake.last (ItemTakes.once (takes_gap hg hrest)) fun _ _ => ⟨x, rfl, hx⟩

end Source

end Packrat
