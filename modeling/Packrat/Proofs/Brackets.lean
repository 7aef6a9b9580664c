import Packrat.Proofs.Spellings

/-!
# `Packrat.Proofs.Brackets` — what the body of a class denotes

Inside brackets a dash makes a range only between two characters, a caret negates only at the front, and a backslash
starts one of several escapes. Here a class is a list of items, and its body is what they are written as, each rune
by itself or by some escape. A class read from such a body is the list that it was written from.

## Contents
- **Escapes.** `Spelled.Escapes`, all that a backslash can start, and `Spelled.read_eq_iff`: the reader finds exactly
  these.
- **Items.** `ClassItem`, and `CharClass.ItemsSpelled` and `CharClass.BodySpelled`, how a class is written.
- **Reading.** `CharClass.body_denotes`.
-/

namespace Packrat

variable {t u body more : Bytes} {r : Rune}

/-! ## Escapes -/

namespace Spelled

/-- A rune is spelled with a backslash where `more` follows: by an escape with a meaning, or by a backslash before
the rune itself, unless an escape with a meaning starts there. -/
inductive Escapes (more : Bytes) : Bytes → Rune → Prop where
  | special {w : Bytes} {r : Rune} (h : Escape w r) : Escapes more (Bytes.char '\\' :: w) r
  | quoted {w : Bytes} (hne : w ≠ []) (hlength : (Utf8.decode (w ++ more)).length = w.length)
      (hplain : ∀ w' r, Escape w' r → ¬w' <+: w ++ more) :
      Escapes more (Bytes.char '\\' :: w) (Utf8.decode (w ++ more)).rune

/-- A text that one character takes starts with a backslash if the character is escaped. -/
theorem backslash_of_escaped (h : (read t).escaped = true) :
    ∃ letter rest, t = Bytes.char '\\' :: letter :: rest ∧
      read t = (special? letter rest).getD (quoted (letter :: rest)) := by
  match t with
  | [] => cases h
  | [b] => cases h
  | b :: letter :: rest =>
    rw [read] at h ⊢
    split at h
    · next hb =>
      rw [eq_of_beq hb, if_pos BEq.rfl]
      exact ⟨letter, rest, rfl, rfl⟩
    · cases h

/-- The texts that the reader takes for an escaped rune are those that spell it with a backslash. -/
theorem read_eq_iff : read (u ++ more) = ⟨r, u.length, true⟩ ↔ Escapes more u r := by
  constructor
  · intro h
    obtain ⟨letter, rest, htext, hread⟩ := backslash_of_escaped (congrArg Spelled.escaped h)
    rw [h] at hread
    cases hspecial : special? letter rest with
    | some s =>
      obtain ⟨w, r', hescape, hfront, rfl⟩ := special?_eq_some_iff.mp hspecial
      rw [hspecial, Option.getD_some, Spelled.mk.injEq] at hread
      obtain ⟨rfl, hlength, -⟩ := hread
      -- `u` and the escape are fronts of the same text, and equally long
      have hu : u = Bytes.char '\\' :: w := by
        have hw : Bytes.char '\\' :: w <+: u ++ more := by
          rw [htext]
          exact List.cons_prefix_cons.mpr ⟨rfl, hfront⟩
        exact List.IsPrefix.eq_of_length
          (List.prefix_of_prefix_length_le (List.prefix_append u more) hw (Nat.le_of_eq hlength)) hlength
      rw [hu]
      exact .special hescape
    | none =>
      rw [hspecial, Option.getD_none, quoted, Spelled.mk.injEq] at hread
      obtain ⟨rfl, hlength, -⟩ := hread
      cases u with
      | nil => cases hlength
      | cons c w =>
        obtain ⟨rfl, hw⟩ : c = Bytes.char '\\' ∧ w ++ more = letter :: rest := List.cons.inj htext
        rw [List.length_cons, Nat.add_right_cancel_iff] at hlength
        have hne : w ≠ [] := by
          rw [← List.length_pos_iff, hlength]
          exact Utf8.length_decode_pos (List.cons_ne_nil letter rest)
        rw [← hw] at hlength ⊢
        -- an escape with a meaning would have been found
        refine .quoted hne hlength.symm fun w' r hescape hfront => ?_
        · rw [hw] at hfront
          rw [special?_eq_some_iff.mpr ⟨w', r, hescape, hfront, rfl⟩] at hspecial
          cases hspecial
  · intro h
    cases h with
    | @special w _ hescape =>
      obtain ⟨letter, w', rfl⟩ := List.exists_cons_of_ne_nil hescape.ne_nil
      have hspecial : special? letter (w' ++ more) = some ⟨r, (letter :: w').length + 1, true⟩ :=
        special?_eq_some_iff.mpr ⟨_, _, hescape, List.prefix_append _ _, rfl⟩
      show (special? letter (w' ++ more)).getD _ = _
      rw [hspecial]
      rfl
    | @quoted w hne hlength hplain =>
      obtain ⟨letter, w', rfl⟩ := List.exists_cons_of_ne_nil hne
      have hspecial : special? letter (w' ++ more) = none := by
        rw [Option.eq_none_iff_forall_ne_some]
        intro s hs
        obtain ⟨w, r, hescape, hfront, -⟩ := special?_eq_some_iff.mp hs
        exact hplain w r hescape hfront
      show (special? letter (w' ++ more)).getD (Spelled.quoted (letter :: w' ++ more)) = _
      rw [hspecial, Option.getD_none, Spelled.quoted, hlength]
      rfl

end Spelled

/-! ## Items -/

/-- An item of a class: a rune, or the runes from a first one to a last one. -/
inductive ClassItem where
  | single (r : Rune)
  | pair (first last : Rune)

namespace ClassItem

def range : ClassItem → RuneRange
  | single r => ⟨r, r⟩
  | pair first last => ⟨first, last⟩

/-- The runes of an item. -/
def Holds : ClassItem → Rune → Prop
  | single s, r => r = s
  | pair first last, r => first ≤ r ∧ r ≤ last

/-- A pair whose last rune comes before its first. -/
def Reversed : ClassItem → Prop
  | single _ => False
  | pair first last => last < first

instance (item : ClassItem) (r : Rune) : Decidable (item.Holds r) :=
  match item with
  | single s => inferInstanceAs (Decidable (r = s))
  | pair first last => inferInstanceAs (Decidable (first ≤ r ∧ r ≤ last))

instance (item : ClassItem) : Decidable item.Reversed :=
  match item with
  | single _ => inferInstanceAs (Decidable False)
  | pair first last => inferInstanceAs (Decidable (last < first))

theorem contains_range (item : ClassItem) (r : Rune) : item.range.contains r = true ↔ item.Holds r := by
  cases item with
  | single s =>
    rw [range, RuneRange.contains, Bool.and_eq_true, decide_eq_true_eq, decide_eq_true_eq]
    exact ⟨fun h => Nat.le_antisymm h.2 h.1, fun h => ⟨Nat.le_of_eq h.symm, Nat.le_of_eq h⟩⟩
  | pair first last =>
    rw [range, RuneRange.contains, Bool.and_eq_true, decide_eq_true_eq, decide_eq_true_eq]
    exact Iff.rfl

end ClassItem

namespace CharClass

/-- A rune of an item is written by itself, where it is neither a backslash nor a dash, or by an escape. -/
inductive Spells (more : Bytes) : Bytes → Rune → Prop where
  | raw {r : Rune} (hscalar : r.isScalar = true) (hbackslash : r ≠ '\\'.toNat) (hdash : r ≠ '-'.toNat) :
      Spells more (Utf8.encode r) r
  | escaped {u : Bytes} {r : Rune} (h : Spelled.Escapes more u r) : Spells more u r

/-- Items are written one after the other, with a raw dash between the runes of a pair. -/
inductive ItemsSpelled : List ClassItem → Bytes → Prop where
  | nil : ItemsSpelled [] []
  | single {u t : Bytes} {r : Rune} {items : List ClassItem} (h : Spells t u r) (ht : ItemsSpelled items t) :
      ItemsSpelled (.single r :: items) (u ++ t)
  | pair {u v t : Bytes} {first last : Rune} {items : List ClassItem}
      (hfirst : Spells (Bytes.char '-' :: (v ++ t)) u first) (hlast : Spells t v last) (ht : ItemsSpelled items t) :
      ItemsSpelled (.pair first last :: items) (u ++ Bytes.char '-' :: (v ++ t))

/-- The body of a class: its items, behind a caret if it is negated and without one at the front if not. -/
inductive BodySpelled : Bool → List ClassItem → Bytes → Prop where
  | negated {items : List ClassItem} {t : Bytes} (h : ItemsSpelled items t) :
      BodySpelled true items (Bytes.char '^' :: t)
  | plain {items : List ClassItem} {t : Bytes} (h : ItemsSpelled items t) (hfront : t.head? ≠ some (Bytes.char '^')) :
      BodySpelled false items t

variable {items : List ClassItem} {negated : Bool}

/-! ## Reading -/

/-- What spells a rune is read as that rune, and never as a bare dash. -/
theorem Spells.all (h : Spells more u r) :
    u ≠ [] ∧ ∃ s, Spelled.all (u ++ more) = s :: Spelled.all more ∧ s.rune = r ∧ s.isBare '-' = false := by
  cases h with
  | raw hscalar hbackslash hdash =>
    have hne := Utf8.encode_ne_nil hscalar
    refine ⟨hne, _, Spelled.all_of_read (Spelled.read_encode hscalar hbackslash more) rfl hne, rfl, ?_⟩
    rw [Spelled.isBare, Bool.and_eq_false_iff]
    exact .inr (beq_eq_false_iff_ne.mpr hdash)
  | escaped h =>
    have hne : u ≠ [] := by
      cases h <;> exact List.cons_ne_nil _ _
    exact ⟨hne, _, Spelled.all_of_read (Spelled.read_eq_iff.mpr h) rfl hne, rfl, rfl⟩

/-- A character that no bare dash follows is a range of its own. -/
theorem ranges?_cons (s : Spelled) {rest : List Spelled} (hrest : ∀ dash ∈ rest.head?, dash.isBare '-' = false) :
    ranges? (s :: rest) = (ranges? rest).map (⟨s.rune, s.rune⟩ :: ·) := by
  match rest with
  | [] => rfl
  | [dash] => rfl
  | dash :: last :: rest =>
    rw [ranges?, if_neg]
    exact Bool.eq_false_iff.mp (hrest dash rfl)

/-- Items are read as their ranges, unless one of them is reversed. -/
theorem ItemsSpelled.ranges (h : ItemsSpelled items t) :
    (∀ s ∈ (Spelled.all t).head?, s.isBare '-' = false) ∧
    ranges? (Spelled.all t) = if ∃ item ∈ items, item.Reversed then none else some (items.map ClassItem.range) := by
  induction h with
  | nil =>
    refine ⟨fun s hs => (nomatch hs), ?_⟩
    rw [if_neg (by rintro ⟨item, hitem, -⟩; exact absurd hitem List.not_mem_nil)]
    rfl
  | @single u t r items h _ ih =>
    obtain ⟨-, s, hall, rfl, hbare⟩ := h.all
    obtain ⟨hhead, hranges⟩ := ih
    rw [hall]
    refine ⟨fun s' hs' => Option.mem_some.mp hs' ▸ hbare, ?_⟩
    have hreversed : (∃ item ∈ ClassItem.single s.rune :: items, item.Reversed) ↔ ∃ item ∈ items, item.Reversed := by
      rw [List.exists_mem_cons_iff]
      exact or_iff_right id
    rw [ranges?_cons s hhead, hranges]
    simp only [hreversed]
    split <;> rfl
  | @pair u v t first last items hfirst hlast _ ih =>
    obtain ⟨-, s, hall, rfl, hbare⟩ := hfirst.all
    obtain ⟨-, s', hall', rfl, -⟩ := hlast.all
    have hdash : Spelled.all (Bytes.char '-' :: (v ++ t)) = ⟨'-'.toNat, 1, false⟩ :: s' :: Spelled.all t := by
      rw [← hall']
      exact Spelled.all_ascii (by decide) (by decide) _
    rw [hall, hdash]
    refine ⟨fun s' hs' => Option.mem_some.mp hs' ▸ hbare, ?_⟩
    have hreversed : (∃ item ∈ ClassItem.pair s.rune s'.rune :: items, item.Reversed) ↔
        s'.rune < s.rune ∨ ∃ item ∈ items, item.Reversed := List.exists_mem_cons_iff ..
    rw [ranges?, if_pos (by decide), ih.2]
    simp only [hreversed]
    by_cases hpair : s'.rune < s.rune
    · rw [if_pos hpair, if_pos (.inl hpair)]
    · simp only [if_neg hpair, or_iff_right hpair]
      split <;> rfl

theorem ItemsSpelled.ne_nil (h : ItemsSpelled items t) (hne : items ≠ []) : t ≠ [] := by
  cases h with
  | nil => exact absurd rfl hne
  | single h _ => exact List.append_ne_nil_of_left_ne_nil h.all.1 _
  | pair h _ _ => exact List.append_ne_nil_of_left_ne_nil h.all.1 _

theorem BodySpelled.splitCaret (h : BodySpelled negated items body) :
    ∃ t, ItemsSpelled items t ∧ CharClass.splitCaret body = (negated, t) := by
  cases h with
  | @negated _ t h => exact ⟨t, h, rfl⟩
  | plain h hfront =>
    refine ⟨body, h, ?_⟩
    cases body with
    | nil => rfl
    | cons b rest =>
      rw [CharClass.splitCaret, if_neg]
      exact fun heq => hfront (congrArg some (eq_of_beq heq))

/-- What the body of a class with some items is read as. -/
theorem parse?_body (hne : items ≠ []) (h : BodySpelled negated items body) (caseless : Bool) :
    parse? body caseless = if ∃ item ∈ items, item.Reversed then .error .reversedRange
      else .ok ⟨items.map ClassItem.range, negated, caseless, Bytes.ascii "[" ++ body ++ Bytes.ascii "]"⟩ := by
  obtain ⟨t, ht, hsplit⟩ := h.splitCaret
  rw [parse?, hsplit]
  simp only
  rw [if_neg (fun hempty => ht.ne_nil hne (List.isEmpty_iff.mp hempty)), ht.ranges.2]
  by_cases hreversed : ∃ item ∈ items, item.Reversed
  · rw [if_pos hreversed, if_pos hreversed]
  · rw [if_neg hreversed, if_neg hreversed]

/-- The ranges of some items cover the runes of these. -/
theorem covers_items {cls : CharClass} (h : cls.ranges = items.map ClassItem.range) (r : Rune) :
    cls.covers r = true ↔ ∃ item ∈ items, item.Holds r := by
  rw [covers, h, List.any_map, List.any_eq_true]
  exact exists_congr fun item => and_congr_right fun _ => item.contains_range r

/-- **The body of a class denotes its items.** However the runes of a class are spelled: reading its body fails
exactly if some pair is reversed; otherwise it finds the ranges of the items in their order and whether the class is
negated. So a rune belongs to the class exactly if some item holds it, or none if the class is negated; without case,
its fold and its upper case are tried as well. The spellings with a backslash are all those that the reader takes for
an escaped rune. -/
theorem body_denotes {items : List ClassItem} (hne : items ≠ []) {negated : Bool} {body : Bytes}
    (h : BodySpelled negated items body) (caseless : Bool) :
    (∀ u more r, Spelled.Escapes more u r ↔ Spelled.read (u ++ more) = ⟨r, u.length, true⟩) ∧
    (parse? body caseless = .error .reversedRange ↔ ∃ item ∈ items, item.Reversed) ∧
    ((∀ item ∈ items, ¬item.Reversed) →
      ∃ cls, parse? body caseless = .ok cls ∧ cls.ranges = items.map ClassItem.range ∧ cls.negated = negated ∧
        cls.caseless = caseless ∧ cls.spelling = Bytes.ascii "[" ++ body ++ Bytes.ascii "]" ∧
        ∀ r, cls.contains r = (decide (∃ item ∈ items,
          item.Holds r ∨ caseless = true ∧ (item.Holds r.fold ∨ item.Holds r.upper)) != negated)) := by
  have hparse := parse?_body hne h caseless
  refine ⟨fun u more r => Spelled.read_eq_iff.symm, ?_, fun hordered => ?_⟩
  · rw [hparse]
    split
    · next hreversed => exact iff_of_true rfl hreversed
    · next hordered => exact iff_of_false (fun heq => nomatch heq) hordered
  · rw [if_neg (fun ⟨item, hitem, hreversed⟩ => hordered item hitem hreversed)] at hparse
    refine ⟨_, hparse, rfl, rfl, rfl, rfl, fun r => ?_⟩
    rw [contains]
    congr 1
    rw [Bool.eq_iff_iff, decide_eq_true_eq, Bool.or_eq_true, Bool.and_eq_true, Bool.or_eq_true, covers_items rfl,
      covers_items rfl, covers_items rfl]
    constructor
    · rintro (⟨item, hitem, h⟩ | ⟨hcaseless, ⟨item, hitem, h⟩ | ⟨item, hitem, h⟩⟩)
      · exact ⟨item, hitem, .inl h⟩
      · exact ⟨item, hitem, .inr ⟨hcaseless, .inl h⟩⟩
      · exact ⟨item, hitem, .inr ⟨hcaseless, .inr h⟩⟩
    · rintro ⟨item, hitem, h | ⟨hcaseless, h | h⟩⟩
      · exact .inl ⟨item, hitem, h⟩
      · exact .inr ⟨hcaseless, .inl ⟨item, hitem, h⟩⟩
      · exact .inr ⟨hcaseless, .inr ⟨item, hitem, h⟩⟩

/-- What is no dash, no small letter and no closing bracket: a quoted dash, a pair, and an octet in hexadecimal. -/
theorem body_denotes_dash_letters_bracket :
    ∃ cls, parse? (Bytes.ascii "^\\-a-z\\x5D") false = .ok cls ∧
      cls.ranges = [⟨0x2D, 0x2D⟩, ⟨0x61, 0x7A⟩, ⟨0x5D, 0x5D⟩] ∧ cls.negated = true ∧
      cls.contains 0x6D = false ∧ cls.contains 0x4D = true := by
  have hbody : BodySpelled true [.single 0x2D, .pair 0x61 0x7A, .single 0x5D] (Bytes.ascii "^\\-a-z\\x5D") := by
    have hbracket : ItemsSpelled [.single 0x5D] (Bytes.ascii "\\x5D" ++ []) :=
      .single (.escaped (Spelled.read_eq_iff.mp (by decide))) .nil
    have hletters : ItemsSpelled [.pair 0x61 0x7A, .single 0x5D] (Bytes.ascii "a-z\\x5D") :=
      .pair (.raw (by decide) (by decide) (by decide)) (.raw (by decide) (by decide) (by decide)) hbracket
    have hdash : ItemsSpelled [.single 0x2D, .pair 0x61 0x7A, .single 0x5D]
        (Bytes.ascii "\\-" ++ Bytes.ascii "a-z\\x5D") :=
      .single (.escaped (Spelled.read_eq_iff.mp (by decide))) hletters
    exact .negated hdash
  obtain ⟨-, -, hread⟩ := body_denotes (List.cons_ne_nil _ _) hbody false
  obtain ⟨cls, hcls, hranges, hnegated, -, -, hcontains⟩ := hread (by decide)
  refine ⟨cls, hcls, hranges, hnegated, ?_, ?_⟩
  · rw [hcontains]
    decide
  · rw [hcontains]
    decide

end CharClass

end Packrat
