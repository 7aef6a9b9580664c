import Mathlib.Data.List.Forall2
import Packrat.Proofs.Queries
import Packrat.Terminal

/-!
# `Packrat.Proofs.Encodings` — texts that are made of encodings

A well-formed text is the encodings of its runes, one after the other. A list of runes that are expected one after
the other is therefore found in front of a text exactly if the text starts with the encodings of runes that agree
with them.

## Contents
- **Runes.** The encoding of a scalar value, and the runes of any text.
- **Well-formed texts.** They are those made of encodings: `isWellFormed_encoded` and `encoded_runes`.
- **Expected runes.** `Terminal.runes?_eq_some_iff`.
-/

namespace Packrat

namespace Utf8

variable {t : Bytes} {rs : List Rune} {r : Rune}

/-! ## Runes -/

theorem encode_ne_nil (hr : r.isScalar = true) : encode r ≠ [] := by
  intro hnil
  have hdecode := decode_of_isPrefix hr (List.prefix_refl (encode r))
  rw [hnil] at hdecode
  cases hdecode

/-- An ASCII character is written as one byte. -/
theorem encode_of_lt (hr : r < 0x80) : encode r = [r.toUInt8] := by
  unfold encode
  rw [if_pos hr]

/-- The octets of any other scalar value are no ASCII characters. -/
theorem le_of_mem_encode {b : UInt8} (hscalar : r.isScalar = true) (hr : ¬r < 0x80) (hb : b ∈ encode r) :
    0x80 ≤ b.toNat := by
  have hlong : 1 < (encode r).length := by
    rw [encode_of_isScalar hscalar, if_neg hr]
    split
    · exact Nat.one_lt_two
    · split <;> simp
  exact ((shortest_encode hscalar).of_length_gt_one hlong).2 b hb

/-- Whatever is decoded is a scalar value. -/
theorem isScalar_decode (text : Bytes) : (decode text).rune.isScalar = true := by
  rcases decode_cases text with ⟨r, hr, -, hdecode⟩ | ⟨-, hrune, -⟩
  · rw [hdecode]
    exact hr
  · rw [hrune]
    decide

/-- What is shown of a text from what is behind its first sequence holds of every text. -/
theorem scanInduction {motive : Bytes → Prop} (nil : motive [])
    (cons : ∀ text, text ≠ [] → motive (text.drop (decode text).length) → motive text) (text : Bytes) :
    motive text := by
  induction hn : text.length using Nat.strongRecOn generalizing text with
  | ind n ih =>
    by_cases hne : text = []
    · rw [hne]
      exact nil
    · have hpos := length_decode_pos hne
      have hlength := List.length_pos_iff.mpr hne
      exact cons text hne (ih _ (by rw [List.length_drop]; omega) _ rfl)

theorem isScalar_of_mem_runes (text : Bytes) : ∀ r ∈ runes text, r.isScalar = true := by
  induction text using scanInduction with
  | nil => exact fun r hr => absurd hr List.not_mem_nil
  | cons text hne ih =>
    rw [runes_of_ne_nil hne, List.forall_mem_cons]
    exact ⟨isScalar_decode text, ih⟩

/-! ## Well-formed texts -/

theorem isWellFormed_of_ne_nil {text : Bytes} (h : text ≠ []) :
    isWellFormed text = ((decode text).wellFormed && isWellFormed (text.drop (decode text).length)) := by
  obtain ⟨b, rest, rfl⟩ := List.exists_cons_of_ne_nil h
  unfold isWellFormed
  rw [scan_cons, List.all_cons]

/-- The runes of encodings are those that are encoded. -/
theorem runes_encoded (h : ∀ r ∈ rs, r.isScalar = true) : runes (rs.flatMap encode) = rs := by
  induction rs with
  | nil => rfl
  | cons r rs ih =>
    rw [List.forall_mem_cons] at h
    have hne : encode r ++ rs.flatMap encode ≠ [] := List.append_ne_nil_of_left_ne_nil (encode_ne_nil h.1) _
    rw [List.flatMap_cons, runes_of_ne_nil hne, decode_of_isPrefix h.1 (List.prefix_append _ _), List.drop_left,
      ih h.2]

/-- Whatever is encoded, scalar value or not, the text is well-formed. -/
theorem isWellFormed_encoded (rs : List Rune) : isWellFormed (rs.flatMap encode) = true := by
  induction rs with
  | nil => rfl
  | cons r rs ih =>
    obtain ⟨a, ha, hencode⟩ : ∃ a : Rune, a.isScalar = true ∧ encode r = encode a := by
      cases hr : r.isScalar with
      | true => exact ⟨r, hr, rfl⟩
      | false => exact ⟨Rune.replacement, by decide, encode_of_not_isScalar hr⟩
    have hne : encode a ++ rs.flatMap encode ≠ [] := List.append_ne_nil_of_left_ne_nil (encode_ne_nil ha) _
    rw [List.flatMap_cons, hencode, isWellFormed_of_ne_nil hne, decode_of_isPrefix ha (List.prefix_append _ _),
      List.drop_left, ih]
    rfl

/-- A well-formed text is made of the encodings of its runes. -/
theorem encoded_runes (text : Bytes) (h : isWellFormed text = true) : (runes text).flatMap encode = text := by
  induction text using scanInduction with
  | nil => rfl
  | cons text hne ih =>
    rw [isWellFormed_of_ne_nil hne, Bool.and_eq_true] at h
    rcases decode_cases text with ⟨r, -, ⟨rest, rfl⟩, hdecode⟩ | ⟨-, -, hmalformed⟩
    · rw [hdecode, List.drop_left] at h ih
      rw [runes_of_ne_nil hne, hdecode, List.drop_left, List.flatMap_cons, ih h.2]
    · rw [hmalformed] at h
      exact absurd h.1 Bool.false_ne_true

end Utf8

/-! ## Expected runes -/

namespace Terminal

variable {t : Bytes} {r : Rune} {n : Nat}

/-- A rune is matched where its encoding stands. -/
theorem rune?_encode (hr : r.isScalar = true) (t : Bytes) :
    rune? (Utf8.encode r ++ t) = some (r, (Utf8.encode r).length) := by
  have hdecode := Utf8.decode_of_isPrefix hr (List.prefix_append (Utf8.encode r) t)
  cases hencode : Utf8.encode r ++ t with
  | nil =>
    rw [hencode] at hdecode
    cases hdecode
  | cons b u =>
    rw [hencode] at hdecode
    rw [rune?, hdecode]
    rfl

/-- Where a rune is matched, its encoding stands. -/
theorem of_rune? (h : rune? t = some (r, n)) :
    r.isScalar = true ∧ Utf8.encode r <+: t ∧ n = (Utf8.encode r).length := by
  cases t with
  | nil => cases h
  | cons b t =>
    rw [rune?] at h
    rcases Utf8.decode_cases (b :: t) with ⟨a, ha, hfront, hdecode⟩ | ⟨-, -, hmalformed⟩
    · rw [hdecode] at h
      cases h
      exact ⟨ha, hfront, rfl⟩
    · simp only [hmalformed, Bool.false_eq_true, if_false] at h
      cases h

/-- Runes agree with case, one after the other, if they are the same. -/
theorem forall₂_agree_exact {rs es : List Rune} :
    List.Forall₂ (fun r e => agree false r e = true) rs es ↔ rs = es := by
  rw [← List.forall₂_eq_eq_eq]
  simp only [agree, Bool.false_eq_true, if_false, beq_iff_eq]

/-- They agree without case if they have the same folds. -/
theorem forall₂_agree_caseless {rs es : List Rune} :
    List.Forall₂ (fun r e => agree true r e = true) rs es ↔ rs.map Rune.fold = es.map Rune.fold := by
  rw [← List.forall₂_eq_eq_eq, List.forall₂_map_left_iff, List.forall₂_map_right_iff]
  simp only [agree, if_true, beq_iff_eq]

/-- Expected runes are matched where a text starts with encodings of runes that agree with them. -/
theorem runes?_eq_some_iff {caseless : Bool} {expected : List Rune} :
    runes? caseless expected t = some n ↔
      ∃ rs : List Rune, (∀ r ∈ rs, r.isScalar = true) ∧
        List.Forall₂ (fun r e => agree caseless r e = true) rs expected ∧
        rs.flatMap Utf8.encode <+: t ∧ n = (rs.flatMap Utf8.encode).length := by
  induction expected generalizing t n with
  | nil =>
    constructor
    · intro h
      cases h
      exact ⟨[], fun r hr => absurd hr List.not_mem_nil, .nil, List.nil_prefix, rfl⟩
    · rintro ⟨rs, -, hagree, -, rfl⟩
      cases hagree
      rfl
  | cons e expected ih =>
    rw [runes?]
    constructor
    · intro h
      split at h
      · cases h
      · next r m hrune =>
        -- a rune that is matched is well-formed, so that its octets are its encoding
        obtain ⟨hr, ⟨behind, rfl⟩, rfl⟩ := of_rune? hrune
        split at h
        · next hagree =>
          rw [List.drop_left, Option.map_eq_some_iff] at h
          obtain ⟨k, hk, rfl⟩ := h
          obtain ⟨rs, hrs, hall, hfront, rfl⟩ := ih.mp hk
          refine ⟨r :: rs, List.forall_mem_cons.mpr ⟨hr, hrs⟩, .cons hagree hall, ?_, ?_⟩
          · rw [List.flatMap_cons]
            exact (List.prefix_append_right_inj _).mpr hfront
          · rw [List.flatMap_cons, List.length_append]
        · cases h
    · rintro ⟨rs, hrs, hall, ⟨behind, rfl⟩, rfl⟩
      cases hall with
      | @cons r _ rs _ hagree hall =>
        rw [List.forall_mem_cons] at hrs
        have hk := ih.mpr ⟨rs, hrs.2, hall, List.prefix_append _ behind, rfl⟩
        rw [List.flatMap_cons, List.append_assoc, rune?_encode hrs.1]
        show (if agree caseless r e = true then _ else _) = _
        rw [if_pos hagree, List.drop_left, hk, Option.map_some, List.length_append]

end Terminal

end Packrat
