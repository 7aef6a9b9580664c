import Mathlib.Data.List.Forall2
import Packrat.Proofs.Queries

/-!
# `Packrat.Proofs.Resynchrony` — where decoding goes on behind a malformed sequence

A malformed sequence reaches up to a lead octet or the end of the text. The octet that breaks a sequence off
belongs to it, and is lost if it is itself a lead octet: exactly then a malformed sequence has a lead octet inside.

## Contents
- **Octets asked for.** `Answers`: what decoding finds while octets are as they are asked for, and where they stop
  being so.
- **Begun forms.** `Begun`: the octets of a scalar value, though not all of them.
- **Malformed sequences.** `malformed_cases`: the three ways a sequence can be malformed.
- **Resynchrony.** `Utf8.resynchronizes`.
-/

namespace Packrat.Utf8

variable {bits : Rune} {n : Nat} {follow : List OctetRange} {text begun : Bytes} {b lead : UInt8}

/-! ## Octets asked for -/

/-- Octets are as they are asked for, one for each range. -/
abbrev Answers (ranges : List OctetRange) (octets : Bytes) : Prop :=
  List.Forall₂ (fun range b => range.contains b = true) ranges octets

/-- A sequence with all its octets is well-formed. -/
theorem decodeRest_of_answers (h : Answers follow text) (bits : Rune) (n : Nat) :
    (decodeRest bits n follow text).wellFormed = true ∧
      (decodeRest bits n follow text).length = n + text.length := by
  induction h generalizing bits n with
  | nil => exact ⟨rfl, rfl⟩
  | cons hb _ ih =>
    obtain ⟨hwell, hlength⟩ := ih (64 * bits + (_ - 0x80)) (n + 1)
    rw [decodeRest, if_pos hb, List.length_cons]
    exact ⟨hwell, hlength.trans (Nat.add_right_comm ..)⟩

/-- The first octet that is not as it is asked for ends a sequence. -/
theorem decodeRest_broken {asked unasked : List OctetRange} {range : OctetRange} (h : Answers asked begun)
    (hb : range.contains b = false) (bits : Rune) (n : Nat) (rest : Bytes) :
    decodeRest bits n (asked ++ range :: unasked) (begun ++ b :: rest) = malformed (n + begun.length + 1) rest := by
  induction h generalizing bits n with
  | nil =>
    rw [List.nil_append, List.nil_append, decodeRest, if_neg (Bool.eq_false_iff.mp hb)]
    rfl
  | @cons first octet _ octets hoctet _ ih =>
    rw [List.cons_append, List.cons_append, decodeRest, if_pos hoctet, ih, List.length_cons]
    congr 1
    omega

/-- A sequence is malformed if the text ends in it, or if one of its octets is not as it is asked for. -/
theorem decodeRest_cases (h : (decodeRest bits n follow text).wellFormed = false) :
    (∃ asked unasked, follow = asked ++ unasked ∧ unasked ≠ [] ∧ Answers asked text ∧
      (decodeRest bits n follow text).length = n + text.length) ∨
    (∃ asked range unasked begun b rest, follow = asked ++ range :: unasked ∧ text = begun ++ b :: rest ∧
      Answers asked begun ∧ range.contains b = false) := by
  induction follow generalizing bits n text with
  | nil =>
    rw [decodeRest] at h
    cases h
  | cons range follow ih =>
    cases text with
    | nil => exact .inl ⟨[], range :: follow, rfl, List.cons_ne_nil _ _, .nil, rfl⟩
    | cons b rest =>
      by_cases hb : range.contains b = true
      · rw [decodeRest, if_pos hb] at h
        rcases ih h with ⟨asked, unasked, rfl, hne, hanswers, hlength⟩ |
          ⟨asked, last, unasked, begun, b', rest', rfl, rfl, hanswers, hb'⟩
        · refine .inl ⟨range :: asked, unasked, rfl, hne, .cons hb hanswers, ?_⟩
          rw [decodeRest, if_pos hb, hlength, List.length_cons]
          omega
        · exact .inr ⟨range :: asked, last, unasked, b :: begun, b', rest', rfl, rfl, .cons hb hanswers, hb'⟩
      · exact .inr ⟨[], range, follow, [], b, rest, rfl, rfl, .nil, Bool.eq_false_iff.mpr hb⟩

/-! ## Begun forms -/

/-- What a lead octet asks for are continuation octets, and there are some for each. -/
theorem Lead.follow_continues {announced : Lead} (h : Lead.ofOctet b = some announced) :
    ∀ range ∈ announced.follow, (∀ x, range.contains x = true → isLead x = false) ∧
      range.contains range.first = true := by
  have hall := forall_byte (p := fun b => (Lead.ofOctet b).all fun announced =>
    announced.follow.all fun range =>
      OctetRange.continuation.contains range.first && OctetRange.continuation.contains range.last &&
        range.contains range.first) (by decide +kernel) b
  simp only [h, Option.all_some, List.all_eq_true, Bool.and_eq_true] at hall
  intro range hrange
  obtain ⟨⟨hfirst, hlast⟩, hself⟩ := hall range hrange
  refine ⟨fun x hx => ?_, hself⟩
  rw [OctetRange.contains_iff] at hx
  rw [OctetRange.contains_continuation_iff] at hfirst hlast
  rw [isLead, Bool.not_eq_false', OctetRange.contains_continuation_iff]
  omega

/-- Octets that are asked for are no lead octets. -/
theorem Answers.not_isLead {ranges : List OctetRange} {octets : Bytes} (h : Answers ranges octets)
    (hranges : ∀ range ∈ ranges, ∀ x, range.contains x = true → isLead x = false) :
    ∀ x ∈ octets, isLead x = false := by
  induction h with
  | nil => exact fun x hx => absurd hx List.not_mem_nil
  | @cons range octet _ octets hoctet _ ih =>
    rw [List.forall_mem_cons] at hranges ⊢
    exact ⟨hranges.1 octet hoctet, ih hranges.2⟩

/-- The octets of a scalar value from its first one on, though not all of them. -/
def Begun (octets : Bytes) : Prop :=
  octets ≠ [] ∧ ∃ r, Rune.isScalar r = true ∧ octets <+: encode r ∧ octets ≠ encode r

/-- A lead octet with some of the octets that it asks for is a begun form: the others can be chosen. -/
theorem begun_of_answers {announced : Lead} {asked unasked : List OctetRange} (hlead : Lead.ofOctet lead = some announced)
    (hfollow : announced.follow = asked ++ unasked) (hunasked : unasked ≠ []) (h : Answers asked begun) :
    Begun (lead :: begun) := by
  have hcontinues := Lead.follow_continues hlead
  rw [hfollow] at hcontinues
  -- complete the sequence with the least octets that are asked for
  have hothers : Answers unasked (unasked.map (·.first)) := by
    rw [Answers, List.forall₂_map_right_iff, List.forall₂_same]
    exact fun range hrange => (hcontinues range (List.mem_append_right _ hrange)).2
  have hwhole : Answers announced.follow (begun ++ unasked.map (·.first)) := by
    rw [hfollow]
    exact List.rel_append h hothers
  obtain ⟨hwell, hlength⟩ := decodeRest_of_answers hwhole announced.bits 1
  have hdecode : decode (lead :: (begun ++ unasked.map (·.first))) =
      decodeRest announced.bits 1 announced.follow (begun ++ unasked.map (·.first)) := by
    rw [decode, hlead]
  rcases decode_cases (lead :: (begun ++ unasked.map (·.first))) with ⟨r, hr, hfront, hform⟩ | ⟨-, -, hmalformed⟩
  · have hsame : encode r = lead :: (begun ++ unasked.map (·.first)) := by
      refine hfront.eq_of_length ?_
      rw [← hdecode, hform] at hlength
      rw [List.length_cons, Nat.add_comm, ← hlength]
    refine ⟨List.cons_ne_nil _ _, r, hr, ?_, ?_⟩
    · rw [hsame, ← List.cons_append]
      exact List.prefix_append _ _
    · rw [hsame]
      intro heq
      have hlengths := congrArg List.length heq
      have hpos := List.length_pos_iff.mpr hunasked
      simp only [List.length_cons, List.length_append, List.length_map] at hlengths
      omega
  · rw [hdecode, hwell] at hmalformed
    cases hmalformed

/-- The octets of a well-formed sequence are as they are asked for. -/
theorem answers_of_wellFormed (h : (decodeRest bits n follow text).wellFormed = true) :
    ∃ octets rest, text = octets ++ rest ∧ Answers follow octets ∧
      (decodeRest bits n follow text).length = n + octets.length := by
  induction follow generalizing bits n text with
  | nil => exact ⟨[], text, rfl, .nil, by rw [decodeRest]; rfl⟩
  | cons range follow ih =>
    obtain ⟨b, rest, rfl, hb, hrest⟩ := decodeRest_cons_wellFormed h
    obtain ⟨octets, rest, rfl, hanswers, hlength⟩ := ih hrest
    refine ⟨b :: octets, rest, rfl, .cons hb hanswers, ?_⟩
    rw [decodeRest, if_pos hb, hlength, List.length_cons]
    omega

/-- A begun form is a lead octet with some of the octets that it asks for. -/
theorem answers_of_begun (h : Begun begun) : ∃ a octets announced asked range unasked, begun = a :: octets ∧
    Lead.ofOctet a = some announced ∧ announced.follow = asked ++ range :: unasked ∧ Answers asked octets := by
  obtain ⟨hne, r, hr, ⟨others, hothers⟩, hproper⟩ := h
  cases begun with
  | nil => exact absurd rfl hne
  | cons a octets =>
    have hform := decode_of_isPrefix hr (List.prefix_refl _)
    rw [← hothers, List.cons_append, decode] at hform
    cases hlead : Lead.ofOctet a with
    | none =>
      rw [hlead] at hform
      cases congrArg Decoded.wellFormed hform
    | some announced =>
      rw [hlead] at hform
      obtain ⟨u, rest, hu, hanswers, hlength⟩ := answers_of_wellFormed (congrArg Decoded.wellFormed hform)
      rw [show (decodeRest _ _ _ _).length = _ from congrArg Decoded.length hform] at hlength
      have hrest : rest = [] := by
        have hlengths := congrArg List.length hu
        simp only [List.length_append, List.length_cons] at hlength hlengths
        exact List.length_eq_zero_iff.mp (by omega)
      rw [hrest, List.append_nil] at hu
      rw [← hu] at hanswers
      have hcount := hanswers.length_eq
      have hpos : others ≠ [] := by
        rintro rfl
        exact hproper ((List.append_nil _).symm.trans hothers)
      have hmore : announced.follow.drop octets.length ≠ [] := by
        have := List.length_pos_iff.mpr hpos
        rw [List.length_append] at hcount
        rw [Ne, List.drop_eq_nil_iff]
        omega
      obtain ⟨range, unasked, hdrop⟩ := List.exists_cons_of_ne_nil hmore
      refine ⟨a, octets, announced, announced.follow.take octets.length, range, unasked, rfl, hlead, ?_, ?_⟩
      · rw [← hdrop, List.take_append_drop]
      · exact List.forall₂_take_append _ _ _ hanswers

/-! ## Malformed sequences -/

/-- A lead octet that breaks a begun form off belongs to the malformed sequence. -/
theorem decode_interrupted (h : Begun begun) (hlead : isLead lead = true) (rest : Bytes) :
    decode (begun ++ lead :: rest) = malformed (begun.length + 1) rest := by
  obtain ⟨a, octets, announced, asked, range, unasked, rfl, hannounced, hfollow, hanswers⟩ := answers_of_begun h
  have hcontinues := Lead.follow_continues hannounced range (hfollow ▸ List.mem_append_right _ List.mem_cons_self)
  have hbreaks : range.contains lead = false := by
    rw [Bool.eq_false_iff]
    intro hin
    rw [hcontinues.1 lead hin] at hlead
    cases hlead
  rw [List.cons_append, decode, hannounced]
  show decodeRest announced.bits 1 announced.follow (octets ++ lead :: rest) = _
  rw [hfollow, decodeRest_broken hanswers hbreaks, List.length_cons, Nat.add_comm 1]

/-- A malformed sequence is one that the end of the text cuts, or one that an octet breaks off: one that may not
stand first, or one that does not go on with a begun form. -/
theorem malformed_cases (htext : text ≠ []) (h : (decode text).wellFormed = false) :
    ((decode text).length = text.length ∧ ∀ x ∈ text.tail, isLead x = false) ∨
    (∃ begun b rest, text = begun ++ b :: rest ∧ decode text = malformed (begun.length + 1) rest ∧
      (∀ x ∈ begun.tail, isLead x = false) ∧ (begun = [] ∨ Begun begun)) := by
  cases text with
  | nil => exact absurd rfl htext
  | cons a tail =>
    rw [decode] at h ⊢
    cases hlead : Lead.ofOctet a with
    | none =>
      exact .inr ⟨[], a, tail, rfl, rfl, fun x hx => absurd hx List.not_mem_nil, .inl rfl⟩
    | some announced =>
      rw [hlead] at h
      have hcontinues := Lead.follow_continues hlead
      rcases decodeRest_cases h with ⟨asked, unasked, hfollow, -, hanswers, hlength⟩ |
        ⟨asked, range, unasked, begun, b, rest, hfollow, rfl, hanswers, hbreaks⟩
      · rw [hfollow] at hcontinues
        refine .inl ⟨?_, hanswers.not_isLead fun range hrange => (hcontinues range (List.mem_append_left _ hrange)).1⟩
        rw [List.length_cons, Nat.add_comm]
        exact hlength
      · rw [hfollow] at hcontinues
        refine .inr ⟨a :: begun, b, rest, rfl, ?_,
          hanswers.not_isLead fun range hrange => (hcontinues range (List.mem_append_left _ hrange)).1,
          .inr (begun_of_answers hlead hfollow (List.cons_ne_nil _ _) hanswers)⟩
        show decodeRest announced.bits 1 announced.follow (begun ++ b :: rest) = _
        rw [hfollow, decodeRest_broken hanswers hbreaks, List.length_cons, Nat.add_comm 1]

theorem takeWhile_ends {α : Type} (p : α → Bool) (l : List α) :
    (l.takeWhile p).length = l.length ∨ ∃ x, l[(l.takeWhile p).length]? = some x ∧ p x = false := by
  induction l with
  | nil => exact .inl rfl
  | cons a l ih =>
    cases ha : p a with
    | false =>
      rw [List.takeWhile_cons_of_neg (by rw [ha]; exact Bool.false_ne_true)]
      exact .inr ⟨a, rfl, ha⟩
    | true =>
      rw [List.takeWhile_cons_of_pos ha]
      exact ih.imp (congrArg (· + 1)) id

/-- Behind a malformed sequence there is a lead octet or nothing. -/
theorem malformed_ends (htext : text ≠ []) (h : (decode text).wellFormed = false) :
    (decode text).length = text.length ∨ ∃ b, text[(decode text).length]? = some b ∧ isLead b = true := by
  rcases malformed_cases htext h with ⟨hlength, -⟩ | ⟨begun, b, rest, rfl, hdecode, -, -⟩
  · exact .inl hlength
  have hend : (decode (begun ++ b :: rest)).length = begun.length + 1 + (rest.takeWhile (!isLead ·)).length := by
    rw [hdecode, malformed]
  rw [hend]
  rcases takeWhile_ends (!isLead ·) rest with hall | ⟨x, hx, hlead⟩
  · left
    rw [hall, List.length_append, List.length_cons]
    omega
  · refine .inr ⟨x, ?_, by rwa [Bool.not_eq_false'] at hlead⟩
    rw [List.append_cons, List.getElem?_append_right (by simp), List.length_append, List.length_singleton,
      Nat.add_sub_cancel_left]
    exact hx

/-- A begun form is given up at a lead octet. -/
def Interrupted (text : Bytes) : Prop :=
  ∃ begun lead rest, Begun begun ∧ isLead lead = true ∧ text = begun ++ lead :: rest

/-- A lead octet stands inside a malformed sequence only if it breaks off a begun form. -/
theorem interrupted_of_inside {i : Nat} {x : UInt8} (h : (decode text).wellFormed = false) (hi : 0 < i)
    (hlength : i < (decode text).length) (hx : text[i]? = some x) (hlead : isLead x = true) : Interrupted text := by
  have htext : text ≠ [] := by
    rintro rfl
    cases hx
  have hfront : ∀ {octets : Bytes}, octets[i]? = some x → x ∈ octets.tail := by
    intro octets hoctets
    rw [← Nat.sub_add_cancel hi, ← List.getElem?_tail] at hoctets
    exact List.mem_of_getElem? hoctets
  rcases malformed_cases htext h with ⟨-, hinside⟩ | ⟨begun, b, rest, rfl, hdecode, hbegun, hform⟩
  · rw [hinside x (hfront hx)] at hlead
    cases hlead
  rcases Nat.lt_trichotomy i begun.length with hlt | heq | hgt
  · rw [List.getElem?_append_left hlt] at hx
    rw [hbegun x (hfront hx)] at hlead
    cases hlead
  · rw [heq, List.getElem?_append_right (Nat.le_refl _), Nat.sub_self] at hx
    cases hx
    rcases hform with rfl | hform
    · exact absurd heq (Nat.ne_of_gt hi)
    · exact ⟨begun, x, rest, hform, hlead, rfl⟩
  · obtain ⟨j, rfl⟩ : ∃ j, i = begun.length + 1 + j := ⟨i - begun.length - 1, by omega⟩
    rw [List.getElem?_append_right (by omega), show begun.length + 1 + j - begun.length = j + 1 by omega] at hx
    rw [hdecode] at hlength
    rw [malformed_inside hlength hx] at hlead
    cases hlead

/-! ## Resynchrony -/

/-- **A malformed sequence reaches up to the next lead octet, unless a lead octet breaks it off.** What is decoded
at a place as malformed ends where the text does or a lead octet stands, and is matched as one rune. None of its
octets behind the first one is a lead octet, except where a lead octet interrupts a begun form: that one is taken,
with the continuation octets behind it. -/
theorem resynchronizes {text : Bytes} {pos : Nat} (hpos : pos < text.length)
    (hrune : (decodeAt text pos).1 = Rune.replacement)
    (hspelled : (text.drop pos).take (decodeAt text pos).2 ≠ replacementBytes) :
    (pos + (decodeAt text pos).2 = text.length ∨
      ∃ b, text[pos + (decodeAt text pos).2]? = some b ∧ isLead b = true) ∧
    ((∀ i b, 0 < i → i < (decodeAt text pos).2 → text[pos + i]? = some b → isLead b = false) ↔
      ¬Interrupted (text.drop pos)) ∧
    (∀ begun lead rest, Begun begun → isLead lead = true → text.drop pos = begun ++ lead :: rest →
      (decodeAt text pos).2 = begun.length + 1 + (rest.takeWhile (!isLead ·)).length) ∧
    Terminal.any? (text.drop pos) = some (Rune.replacement, (decodeAt text pos).2) := by
  have hne : text.drop pos ≠ [] := by
    rw [Ne, List.drop_eq_nil_iff]
    omega
  -- a replacement that is not spelled out can only stand for a malformed sequence
  have hmalformed : (decode (text.drop pos)).wellFormed = false := by
    rcases decode_cases (text.drop pos) with ⟨r, hr, hfront, hdecode⟩ | ⟨-, -, hmalformed⟩
    · rw [decodeAt, hdecode] at hrune hspelled
      have hr' : r = Rune.replacement := hrune
      subst hr'
      exact absurd (List.prefix_iff_eq_take.mp hfront).symm hspelled
    · exact hmalformed
  refine ⟨?_, ⟨?_, ?_⟩, ?_, ?_⟩
  · rcases malformed_ends hne hmalformed with hend | ⟨b, hb, hlead⟩
    · rw [List.length_drop] at hend
      left
      rw [decodeAt]
      omega
    · rw [List.getElem?_drop] at hb
      exact .inr ⟨b, hb, hlead⟩
  · rintro hinside ⟨begun, lead, rest, hbegun, hlead, htext⟩
    have hpos := List.length_pos_iff.mpr hbegun.1
    have hlength : begun.length < (decodeAt text pos).2 := by
      rw [decodeAt, htext, decode_interrupted hbegun hlead, malformed]
      dsimp only
      omega
    have hat : text[pos + begun.length]? = some lead := by
      rw [← List.getElem?_drop, htext, List.getElem?_append_right (Nat.le_refl _), Nat.sub_self]
      rfl
    rw [hinside begun.length lead hpos hlength hat] at hlead
    cases hlead
  · intro hwhole i b hi hlength hb
    rw [← List.getElem?_drop] at hb
    cases hlead : isLead b with
    | false => rfl
    | true => exact absurd (interrupted_of_inside hmalformed hi hlength hb hlead) hwhole
  · intro begun lead rest hbegun hlead htext
    rw [decodeAt, htext, decode_interrupted hbegun hlead]
    rfl
  · obtain ⟨b, rest, htext⟩ := List.exists_cons_of_ne_nil hne
    have hfound : Terminal.any? (text.drop pos) =
        some ((decode (text.drop pos)).rune, (decode (text.drop pos)).length) := by
      rw [htext]
      rfl
    rw [hfound, decodeAt, rune_of_malformed (Bool.eq_false_iff.mp hmalformed)]

/-- The letter behind a lead octet that lacks the rest of its sequence is taken with it. -/
theorem letter_swallowed :
    decodeAt [0xE2, 0x41] 0 = (Rune.replacement, 2) ∧ [0xE2, 0x41].take 2 ≠ replacementBytes ∧
      [0xE2, 0x41][0 + 1]? = some 0x41 ∧ isLead 0x41 = true ∧ decode [0x41] = ⟨0x41, 1, true⟩ ∧
      Terminal.any? [0xE2, 0x41] = some (Rune.replacement, 2) := by decide

/-- A whole character is taken with the two octets in front of it. -/
theorem resynchronizes_euro :
    (decodeAt [0x78, 0xE2, 0x82, 0xE2, 0x82, 0xAC] 1).2 = 5 ∧ Interrupted [0xE2, 0x82, 0xE2, 0x82, 0xAC] ∧
      Terminal.any? [0xE2, 0x82, 0xE2, 0x82, 0xAC] = some (Rune.replacement, 5) := by
  have hbegun : Begun [0xE2, 0x82] := ⟨by decide, 0x20AC, by decide, by decide, by decide⟩
  have hpos : 1 < ([0x78, 0xE2, 0x82, 0xE2, 0x82, 0xAC] : Bytes).length := by decide
  obtain ⟨-, -, hlength, hany⟩ := resynchronizes hpos (by decide) (by decide)
  have hfive := hlength [0xE2, 0x82] 0xE2 [0x82, 0xAC] hbegun (by decide) rfl
  rw [hfive] at hany
  exact ⟨hfive, ⟨[0xE2, 0x82], 0xE2, [0x82, 0xAC], hbegun, by decide, rfl⟩, hany⟩

end Packrat.Utf8
