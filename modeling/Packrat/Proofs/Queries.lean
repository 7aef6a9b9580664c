import Packrat.Position.Locator
import Packrat.Proofs.Coding

/-!
# `Packrat.Proofs.Queries` — where a position query may resume

A query resumes its scan at the nearest earlier one and recovers no more of what stands before it than whether
the octet there is a CR. That is enough at some offsets of a text, the *resumable* ones, and at no others.

## Contents
- **Truncated sequences.** What is decoded of a text that is cut off.
- **Boundaries.** Offsets at which a rune starts; a text is read in two parts at these only.
- **Inside a sequence.** What stands where no rune starts.
- **Walking.** `Position.walk` goes rune by rune; `advance` goes where it does.
- **Resuming.** `Resumable`, and that a scan that resumes there finds what a scan from the start finds.
- **Queries.** `Locator.answers_exact`: earlier queries leave the answers as they are exactly if they are at
  resumable offsets.
-/

namespace Packrat

namespace Utf8

/-! ## Truncated sequences -/

theorem malformed_take (n k : Nat) (rest : Bytes) :
    malformed n (rest.take k)
      = if (malformed n rest).length ≤ n + k then malformed n rest else ⟨Rune.replacement, n + k, false⟩ := by
  unfold malformed
  rw [← List.take_takeWhile, List.length_take]
  by_cases hk : (rest.takeWhile (!isLead ·)).length ≤ k
  · rw [Nat.min_eq_right hk, if_pos (Nat.add_le_add_left hk n)]
  · rw [Nat.min_eq_left (Nat.le_of_not_le hk), if_neg (by dsimp only; omega)]

theorem decodeRest_take (bits : Rune) (n k : Nat) (follow : List OctetRange) (text : Bytes) :
    decodeRest bits n follow (text.take k)
      = if (decodeRest bits n follow text).length ≤ n + k then decodeRest bits n follow text
        else ⟨Rune.replacement, n + k, false⟩ := by
  induction follow generalizing bits n k text with
  | nil =>
    rw [decodeRest, decodeRest, if_pos (Nat.le_add_right n k)]
  | cons range follow ih =>
    cases text with
    | nil =>
      rw [List.take_nil, if_pos]
      rw [decodeRest]
      exact Nat.le_add_right n k
    | cons b rest =>
      cases k with
      | zero =>
        rw [List.take_zero, if_neg]
        · rfl
        · have hmore := le_length_decodeRest (64 * bits + (b.toNat - 0x80)) (n + 1) follow rest
          rw [decodeRest]
          by_cases hb : range.contains b = true
          · rw [if_pos hb]
            omega
          · rw [if_neg hb]
            unfold malformed
            dsimp only
            omega
      | succ k =>
        have hnk : n + (k + 1) = n + 1 + k := by omega
        rw [List.take_succ_cons, decodeRest, decodeRest, hnk]
        by_cases hb : range.contains b = true
        · rw [if_pos hb, if_pos hb]
          exact ih _ _ _ _
        · rw [if_neg hb, if_neg hb]
          exact malformed_take _ _ _

/-- A sequence that is cut off is decoded as one replacement. -/
theorem decode_take (k : Nat) (text : Bytes) :
    decode (text.take k)
      = if (decode text).length ≤ k then decode text else ⟨Rune.replacement, k, false⟩ := by
  cases text with
  | nil =>
    rw [List.take_nil, if_pos]
    exact Nat.zero_le k
  | cons b rest =>
    cases k with
    | zero =>
      have hpos : 0 < (decode (b :: rest)).length := length_decode_pos (List.cons_ne_nil b rest)
      rw [List.take_zero, if_neg (by omega)]
      rfl
    | succ k =>
      rw [List.take_succ_cons, decode, decode, Nat.add_comm k 1]
      cases Lead.ofOctet b with
      | none => exact malformed_take 1 k rest
      | some lead => exact decodeRest_take lead.bits 1 k lead.follow rest

theorem runes_nil : runes [] = [] := rfl

theorem runes_of_ne_nil {text : Bytes} (h : text ≠ []) :
    runes text = (decode text).rune :: runes (text.drop (decode text).length) := by
  cases text with
  | nil => exact absurd rfl h
  | cons b rest =>
    unfold runes
    rw [scan_cons]
    rfl

/-- A text of one sequence is read as one rune. -/
theorem runes_of_length {text : Bytes} (h : text ≠ []) (hlength : text.length ≤ (decode text).length) :
    runes text = [(decode text).rune] := by
  rw [runes_of_ne_nil h, List.drop_eq_nil_iff.mpr hlength, runes_nil]

/-! ## Boundaries -/

/-- The offsets of a text at which a rune starts, and its end. -/
inductive Boundary : Bytes → Nat → Prop
  | front (text : Bytes) : Boundary text 0
  | after {text : Bytes} {k : Nat} (h : text ≠ []) (hk : Boundary (text.drop (decode text).length) k) :
      Boundary text ((decode text).length + k)

theorem take_ne_nil {text : Bytes} {k : Nat} (h : text ≠ []) (hk : k ≠ 0) : text.take k ≠ [] := by
  rw [Ne, List.take_eq_nil_iff]
  exact fun hor => hor.elim hk h

/-- The runes up to an offset behind the first rune. -/
theorem runes_take_of_le {text : Bytes} {k : Nat} (h : text ≠ []) (hk : (decode text).length ≤ k) :
    runes (text.take k)
      = (decode text).rune :: runes ((text.drop (decode text).length).take (k - (decode text).length)) := by
  have hpos := length_decode_pos h
  rw [runes_of_ne_nil (take_ne_nil h (by omega)), decode_take, if_pos hk, List.drop_take]

/-- The runes up to an offset inside the first rune. -/
theorem runes_take_of_lt {text : Bytes} {k : Nat} (hpos : k ≠ 0) (hk : k < (decode text).length) :
    runes (text.take k) = [Rune.replacement] := by
  have h : text ≠ [] := by
    rintro rfl
    exact absurd hk (Nat.not_lt_zero k)
  have hdecode : decode (text.take k) = ⟨Rune.replacement, k, false⟩ := by
    rw [decode_take, if_neg (by omega)]
  rw [runes_of_length (take_ne_nil h hpos), hdecode]
  rw [hdecode]
  exact List.length_take_le k text

/-- Behind a boundary a text is read as if it started there. -/
theorem runes_take_append {text : Bytes} {s i : Nat} (hs : Boundary text s) (hi : s ≤ i) :
    runes (text.take i) = runes (text.take s) ++ runes ((text.drop s).take (i - s)) := by
  induction hs generalizing i with
  | front text => rfl
  | @after text k h _ ih =>
    rw [runes_take_of_le h (Nat.le_trans (Nat.le_add_right _ k) hi), runes_take_of_le h (Nat.le_add_right _ k),
      ih (by omega), Nat.add_sub_cancel_left, List.drop_drop, Nat.sub_sub]
    rfl

theorem Boundary.le_length {text : Bytes} {s : Nat} (hs : Boundary text s) : s ≤ text.length := by
  induction hs with
  | front text => exact Nat.zero_le _
  | @after text k h _ ih =>
    have hlength := length_decode_le text
    rw [List.length_drop] at ih
    omega

/-- The end of a text is a boundary. -/
theorem boundary_length (text : Bytes) : Boundary text text.length := by
  induction hn : text.length using Nat.strongRecOn generalizing text with
  | _ n ih =>
    by_cases h : text = []
    · rw [← hn, h]
      exact .front []
    · have hpos := length_decode_pos h
      have hlength := length_decode_le text
      have hrest := ih (text.drop (decode text).length).length (by rw [List.length_drop]; omega)
        (text.drop (decode text).length) rfl
      have hbehind := Boundary.after h hrest
      rw [List.length_drop, Nat.add_sub_cancel' hlength, hn] at hbehind
      exact hbehind

/-- An offset at which no rune starts lies inside the sequence of a rune that starts before it. -/
theorem exists_boundary_before {text : Bytes} {s : Nat} (hs : ¬Boundary text s) (hlength : s ≤ text.length) :
    ∃ b j, Boundary text b ∧ s = b + j ∧ 0 < j ∧ j < (decode (text.drop b)).length := by
  induction s using Nat.strongRecOn generalizing text with
  | _ s ih =>
    have hs0 : s ≠ 0 := by
      rintro rfl
      exact hs (.front text)
    have h : text ≠ [] := by
      rintro rfl
      exact hs0 (Nat.le_zero.mp hlength)
    have hpos := length_decode_pos h
    by_cases hinside : s < (decode text).length
    · exact ⟨0, s, .front text, (Nat.zero_add s).symm, Nat.pos_of_ne_zero hs0, hinside⟩
    · have hrest : ¬Boundary (text.drop (decode text).length) (s - (decode text).length) := by
        intro hb
        have hbehind := Boundary.after h hb
        rw [Nat.add_sub_cancel' (Nat.le_of_not_lt hinside)] at hbehind
        exact hs hbehind
      obtain ⟨b, j, hb, hsb, hj, hjlength⟩ := ih (s - (decode text).length) (by omega) hrest
        (by rw [List.length_drop]; omega)
      rw [List.drop_drop] at hjlength
      exact ⟨_, j, .after h hb, by omega, hj, hjlength⟩

/-- The offsets at which runes start, the first of them at `offset`, and the offset behind the last. -/
def starts (offset : Nat) : List Decoded → List Nat
  | [] => [offset]
  | d :: rest => offset :: starts (offset + d.length) rest

theorem starts_add (n offset : Nat) (ds : List Decoded) :
    starts (n + offset) ds = (starts offset ds).map (n + ·) := by
  induction ds generalizing offset with
  | nil => rfl
  | cons d rest ih =>
    rw [starts, starts, List.map_cons, Nat.add_assoc, ih]

theorem starts_scan {text : Bytes} (h : text ≠ []) :
    starts 0 (scan text)
      = 0 :: (starts 0 (scan (text.drop (decode text).length))).map ((decode text).length + ·) := by
  cases text with
  | nil => exact absurd rfl h
  | cons b rest =>
    rw [scan_cons, starts, Nat.zero_add, ← starts_add, Nat.add_zero]

/-- Boundaries can be computed. -/
theorem boundary_iff {text : Bytes} {s : Nat} : Boundary text s ↔ s ∈ starts 0 (scan text) := by
  constructor
  · intro hs
    induction hs with
    | front text =>
      cases scan text with
      | nil => exact List.mem_cons_self
      | cons d rest => exact List.mem_cons_self
    | @after text k h _ ih =>
      rw [starts_scan h]
      exact List.mem_cons_of_mem 0 (List.mem_map_of_mem ih)
  · induction hn : text.length using Nat.strongRecOn generalizing text s with
    | _ n ih =>
      intro hs
      by_cases h : text = []
      · rw [h] at hs
        rw [List.mem_singleton.mp hs]
        exact .front text
      · rw [starts_scan h, List.mem_cons, List.mem_map] at hs
        rcases hs with hzero | ⟨k, hk, hsk⟩
        · rw [hzero]
          exact .front text
        · have hpos := length_decode_pos h
          have hlength := length_decode_le text
          rw [← hsk]
          refine .after h (ih _ ?_ rfl hk)
          rw [List.length_drop]
          omega

instance (text : Bytes) (s : Nat) : Decidable (Boundary text s) :=
  decidable_of_iff _ boundary_iff.symm

/-! ## Inside a sequence -/

/-- The continuation octets behind a broken sequence belong to it. -/
theorem malformed_inside {n j : Nat} {rest : Bytes} {b : UInt8} (hj : n + j < (malformed n rest).length)
    (hb : rest[j]? = some b) : isLead b = false := by
  have htake : j < (rest.takeWhile (!isLead ·)).length := Nat.lt_of_add_lt_add_left hj
  have htaken := List.takeWhile_prefix (!isLead ·) (l := rest)
  have hsame : (rest.takeWhile (!isLead ·))[j] = b := by
    rw [htaken.getElem htake]
    exact List.getElem_of_getElem? hb |>.2
  have hall := List.all_eq_true.mp (List.all_takeWhile (p := (!isLead ·)) (l := rest)) b
    (hsame ▸ List.getElem_mem htake)
  rwa [Bool.not_eq_true'] at hall

/-- An octet that is no continuation octet stands behind an octet of a multi-byte sequence, if it has a part in
one at all: it is the one that breaks it. -/
theorem decodeRest_inside {bits : Rune} {n : Nat} {follow : List OctetRange} {text : Bytes} {previous : UInt8}
    {j : Nat} {b : UInt8} (hfollow : ∀ range ∈ follow, 0x80 ≤ range.first.toNat) (hprevious : 0x80 ≤ previous.toNat)
    (hj : n + j < (decodeRest bits n follow text).length) (hb : text[j]? = some b) :
    isLead b = false ∨ ∃ a, (previous :: text)[j]? = some a ∧ 0x80 ≤ a.toNat := by
  induction follow generalizing bits n text previous j with
  | nil =>
    rw [decodeRest] at hj
    exact absurd hj (by dsimp only; omega)
  | cons range follow ih =>
    cases text with
    | nil => cases hb
    | cons x rest =>
      cases j with
      | zero => exact .inr ⟨previous, rfl, hprevious⟩
      | succ j =>
        rw [List.getElem?_cons_succ] at hb ⊢
        rw [decodeRest] at hj
        by_cases hx : range.contains x = true
        · rw [if_pos hx] at hj
          have hfirst := hfollow range List.mem_cons_self
          have hx80 : 0x80 ≤ x.toNat := Nat.le_trans hfirst (OctetRange.contains_iff.mp hx).1
          have hj' : n + 1 + j < (decodeRest (64 * bits + (x.toNat - 0x80)) (n + 1) follow rest).length := by omega
          exact ih (fun r hr => hfollow r (List.mem_cons_of_mem range hr)) hx80 hj' hb
        · left
          rw [if_neg hx] at hj
          have hj' : n + 1 + j < (malformed (n + 1) rest).length := by omega
          exact malformed_inside hj' hb

theorem decode_inside {text : Bytes} {j : Nat} {b : UInt8} (hj : 0 < j) (hlength : j < (decode text).length)
    (hb : text[j]? = some b) (hlead : isLead b = true) : ∃ a, text[j - 1]? = some a ∧ 0x80 ≤ a.toNat := by
  cases text with
  | nil => cases hb
  | cons x rest =>
    obtain ⟨j, rfl⟩ : ∃ i, j = i + 1 := ⟨j - 1, by omega⟩
    rw [List.getElem?_cons_succ] at hb
    rw [decode] at hlength
    -- what a lead octet asks for is beyond ASCII, and so is the lead octet if it asks for anything
    have hfollow := forall_byte (p := fun x => (Lead.ofOctet x).all fun lead =>
      lead.follow.all (fun range => 0x80 ≤ range.first.toNat) &&
        (lead.follow.isEmpty || 0x80 ≤ x.toNat)) (by decide +kernel) x
    cases hx : Lead.ofOctet x with
    | none =>
      rw [hx] at hlength
      have hnone := malformed_inside (n := 1) (by dsimp only at hlength; omega) hb
      rw [hlead] at hnone
      cases hnone
    | some lead =>
      rw [hx] at hlength hfollow
      simp only [Option.all_some, Bool.and_eq_true, List.all_eq_true, decide_eq_true_eq, Bool.or_eq_true] at hfollow
      have hx80 : 0x80 ≤ x.toNat := by
        rcases hfollow.2 with hempty | hx80
        · have hnil : lead.follow = [] := List.isEmpty_iff.mp hempty
          simp only [hnil] at hlength
          rw [decodeRest] at hlength
          exact absurd hlength (by dsimp only; omega)
        · exact hx80
      rcases decodeRest_inside hfollow.1 hx80 (by rw [Nat.add_comm]; exact hlength) hb with hnone | hbehind
      · rw [hlead] at hnone
        cases hnone
      · exact hbehind

/-- A shortest form of several octets is that of a rune beyond ASCII, and has no ASCII octets. -/
theorem Shortest.of_length_gt_one {u : Bytes} {r : Nat} (hu : Shortest u r) (h : 1 < u.length) :
    0x80 ≤ r ∧ ∀ a ∈ u, 0x80 ≤ a.toNat := by
  cases hu with
  | one => exact absurd h (Nat.lt_irrefl 1)
  | two ha hb hr =>
    rw [OctetRange.contains_continuation_iff] at hb
    simp only [List.mem_cons, List.not_mem_nil, or_false, forall_eq_or_imp, forall_eq]
    omega
  | three ha hb hc hr =>
    rw [contains_second_three ha] at hb
    rw [OctetRange.contains_continuation_iff] at hc
    simp only [List.mem_cons, List.not_mem_nil, or_false, forall_eq_or_imp, forall_eq]
    omega
  | four ha hb hc hd hr =>
    rw [contains_second_four ha] at hb
    rw [OctetRange.contains_continuation_iff] at hc hd
    simp only [List.mem_cons, List.not_mem_nil, or_false, forall_eq_or_imp, forall_eq]
    omega

/-- Neither the rune of a multi-byte sequence is ASCII nor, where it is well-formed, are its octets. -/
theorem decode_long {text : Bytes} {j : Nat} (hj : 0 < j) (hlength : j < (decode text).length) :
    0x80 ≤ (decode text).rune ∧
      ((decode text).wellFormed = true → ∃ a, text[j]? = some a ∧ 0x80 ≤ a.toNat) := by
  by_cases hwell : (decode text).wellFormed = true
  · obtain ⟨u, r, rest, hu, htext⟩ := exists_shortest_of_wellFormed hwell
    rw [htext] at hlength ⊢
    rw [hu.decode_append] at hlength ⊢
    obtain ⟨hlarge, hoctets⟩ := hu.of_length_gt_one (Nat.lt_of_le_of_lt hj hlength)
    refine ⟨hlarge, fun _ => ⟨u[j], ?_, hoctets _ (List.getElem_mem hlength)⟩⟩
    rw [List.getElem?_append_left hlength, List.getElem?_eq_getElem hlength]
  · rw [rune_of_malformed hwell]
    exact ⟨by decide, fun h => absurd h hwell⟩

/-- An ASCII rune is decoded of its one octet. -/
theorem eq_cons_of_rune_ascii {text : Bytes} (h : (decode text).rune < 0x80) :
    ∃ b rest, text = b :: rest ∧ (decode text).rune = b.toNat ∧ (decode text).length = 1 := by
  by_cases hwell : (decode text).wellFormed = true
  · obtain ⟨u, r, rest, hu, htext⟩ := exists_shortest_of_wellFormed hwell
    rw [htext] at h ⊢
    rw [hu.decode_append] at h ⊢
    by_cases hlength : 1 < u.length
    · exact absurd h (Nat.not_lt.mpr (hu.of_length_gt_one hlength).1)
    · cases hu with
      | one ha hr => exact ⟨_, rest, rfl, hr, rfl⟩
      | two => exact absurd (Nat.lt_succ_self 1) hlength
      | three => exact absurd (by simp) hlength
      | four => exact absurd (by simp) hlength
  · rw [rune_of_malformed hwell] at h
    exact absurd h (by decide)

/-- Inside a sequence a text is cut off to a replacement, and one octet further to some rune beyond ASCII. -/
theorem runes_take_inside {text : Bytes} {s : Nat} (hs : ¬Boundary text s) {x : UInt8}
    (hx : text[s]? = some x) :
    ∃ before r, runes (text.take s) = before ++ [Rune.replacement] ∧ runes (text.take (s + 1)) = before ++ [r] ∧
      0x80 ≤ r ∧ (r = Rune.replacement ∨ 0x80 ≤ x.toNat) ∧
      (isLead x = true → ∃ a, text[s - 1]? = some a ∧ 0x80 ≤ a.toNat) := by
  obtain ⟨hlt, -⟩ := List.getElem?_eq_some_iff.mp hx
  obtain ⟨b, j, hb, rfl, hj, hlength⟩ := exists_boundary_before hs (Nat.le_of_lt hlt)
  have hsplit : ∀ k, runes (text.take (b + k)) = runes (text.take b) ++ runes ((text.drop b).take k) := by
    intro k
    rw [runes_take_append hb (Nat.le_add_right b k), Nat.add_sub_cancel_left]
  have hhere : runes ((text.drop b).take j) = [Rune.replacement] := runes_take_of_lt (Nat.ne_of_gt hj) hlength
  have hx' : (text.drop b)[j]? = some x := by
    rw [List.getElem?_drop]
    exact hx
  have hbehind : isLead x = true → ∃ a, text[b + j - 1]? = some a ∧ 0x80 ≤ a.toNat := by
    intro hlead
    have hinside := decode_inside hj hlength hx' hlead
    rwa [List.getElem?_drop, ← Nat.add_sub_assoc hj] at hinside
  refine ⟨runes (text.take b), ?_⟩
  rw [hsplit, hhere, Nat.add_assoc, hsplit]
  -- one octet further the sequence is still cut off, or it is complete
  by_cases hinside : j + 1 < (decode (text.drop b)).length
  · rw [runes_take_of_lt (Nat.succ_ne_zero j) hinside]
    exact ⟨_, rfl, rfl, by decide, .inl rfl, hbehind⟩
  · have hwhole : (decode (text.drop b)).length = j + 1 := by omega
    have hne : text.drop b ≠ [] := by
      intro hnil
      rw [hnil] at hx'
      cases hx'
    have hrunes := runes_take_of_le hne (Nat.le_of_eq hwhole)
    rw [hwhole, Nat.sub_self, List.take_zero, runes_nil] at hrunes
    obtain ⟨hlarge, hoctets⟩ := decode_long hj hlength
    rw [hrunes]
    refine ⟨_, rfl, rfl, hlarge, ?_, hbehind⟩
    by_cases hwell : (decode (text.drop b)).wellFormed = true
    · obtain ⟨a, ha, ha80⟩ := hoctets hwell
      rw [hx'] at ha
      cases ha
      exact .inr ha80
    · exact .inl (rune_of_malformed hwell)

end Utf8

/-! ## Walking -/

/-- The position after one rune, right after the rune `previous`. -/
def Position.step (tabs : Tabs) (pos : Position) (previous r : Rune) : Position :=
  if r.isLineEnding then if previous = 0x0D ∧ r = 0x0A then pos else ⟨pos.line + 1, 1⟩
  else ⟨pos.line, advanceColumn tabs pos.column r⟩

/-- The position after a run of runes, rune by rune. -/
def Position.walk (tabs : Tabs) : Position → Rune → List Rune → Position
  | pos, _, [] => pos
  | pos, previous, r :: rest => walk tabs (pos.step tabs previous r) r rest

/-- Walking line by line is walking rune by rune. `taken` holds what the line already has: nothing right after
a CR. -/
theorem lastLine_walk (tabs : Tabs) (pos : Position) (previous : Rune) (taken rs : List Rune)
    (h : previous = 0x0D → taken = []) :
    (⟨(lastLine pos (taken ++ rs) previous rs).1.line,
        (lastLine pos (taken ++ rs) previous rs).2.foldl (advanceColumn tabs)
          (lastLine pos (taken ++ rs) previous rs).1.column⟩ : Position)
      = Position.walk tabs ⟨pos.line, taken.foldl (advanceColumn tabs) pos.column⟩ previous rs := by
  induction rs generalizing pos previous taken with
  | nil =>
    rw [List.append_nil, lastLine, Position.walk]
  | cons r rest ih =>
    rw [Position.walk, Position.step, lastLine]
    by_cases hending : r.isLineEnding = true
    · rw [if_pos hending]
      by_cases hboth : previous = 0x0D ∧ r = 0x0A
      · have hnot : ¬(r.isLineEnding && (previous != 0x0D || r != 0x0A)) = true := by
          simp [hboth.1, hboth.2]
        rw [if_pos hboth, if_neg hnot, if_pos (beq_iff_eq.mpr hboth.2), h hboth.1]
        exact ih pos r [] (fun _ => rfl)
      · have hline : (r.isLineEnding && (previous != 0x0D || r != 0x0A)) = true := by
          rw [Decidable.not_and_iff_not_or_not] at hboth
          simpa [hending] using hboth
        rw [if_neg hboth, if_pos hline]
        exact ih ⟨pos.line + 1, 1⟩ r [] (fun _ => rfl)
    · have hnot : ¬(r.isLineEnding && (previous != 0x0D || r != 0x0A)) = true := by simp [hending]
      have hfeed : ¬(r == 0x0A) = true := by
        intro heq
        rw [beq_iff_eq.mp heq] at hending
        exact hending rfl
      have hreturn : r = 0x0D → taken ++ [r] = [] := by
        rintro rfl
        exact absurd rfl hending
      rw [if_neg hending, if_neg hnot, if_neg hfeed]
      have hrest := ih pos r (taken ++ [r]) hreturn
      rw [List.append_assoc, List.foldl_append] at hrest
      exact hrest

/-- `advance` goes where `walk` goes. -/
theorem advance_eq_walk (tabs : Tabs) (pos : Position) (previous : Rune) (rs : List Rune) :
    advance tabs pos previous rs = pos.walk tabs previous rs :=
  lastLine_walk tabs pos previous [] rs (fun _ => rfl)

namespace Position

theorem step_of_ending {tabs : Tabs} {pos : Position} {previous r : Rune} (hr : r.isLineEnding = true)
    (hfeed : ¬(previous = 0x0D ∧ r = 0x0A)) : pos.step tabs previous r = ⟨pos.line + 1, 1⟩ := by
  rw [step, if_pos hr, if_neg hfeed]

theorem step_of_not_ending {tabs : Tabs} {pos : Position} {previous r : Rune} (hr : r.isLineEnding = false) :
    pos.step tabs previous r = ⟨pos.line, advanceColumn tabs pos.column r⟩ := by
  rw [step, hr]
  rfl

theorem step_return_feed (tabs : Tabs) (pos : Position) : pos.step tabs 0x0D 0x0A = pos := rfl

theorem step_replacement (tabs : Tabs) (pos : Position) (previous : Rune) :
    pos.step tabs previous Rune.replacement = ⟨pos.line, pos.column + 1⟩ := rfl

theorem lt_advanceColumn {tabs : Tabs} (htabs : ∀ column, column < tabs.next column) (column : Nat) (r : Rune) :
    column < advanceColumn tabs column r := by
  unfold advanceColumn
  by_cases hr : (r == 0x09) = true
  · rw [if_pos hr]
    exact htabs column
  · rw [if_neg hr]
    exact Nat.lt_succ_self column

/-- A rune beyond ASCII starts a line or takes one column. -/
theorem step_beyond_ascii (tabs : Tabs) (pos : Position) (previous : Rune) {r : Nat} (hr : 0x80 ≤ r) :
    pos.step tabs previous r = ⟨pos.line + 1, 1⟩ ∨ pos.step tabs previous r = ⟨pos.line, pos.column + 1⟩ := by
  by_cases hending : Rune.isLineEnding r = true
  · left
    exact step_of_ending hending (fun hand => absurd hr (by rw [hand.2]; decide))
  · right
    rw [step_of_not_ending (Bool.not_eq_true _ ▸ hending), advanceColumn, if_neg]
    intro htab
    have htab' : r = 0x09 := eq_of_beq htab
    omega

theorem walk_append (tabs : Tabs) (pos : Position) (previous : Rune) (rs rs' : List Rune) :
    pos.walk tabs previous (rs ++ rs')
      = (pos.walk tabs previous rs).walk tabs (rs.getLastD previous) rs' := by
  induction rs generalizing pos previous with
  | nil => rfl
  | cons r rest ih =>
    rw [List.cons_append, walk, walk, ih, List.getLastD_cons]

/-- What stands before a run matters only as far as it is a CR and a LF follows. -/
theorem walk_congr (tabs : Tabs) (pos : Position) {previous previous' : Rune} {rs : List Rune}
    (h : rs.head? = some 0x0A → (previous = 0x0D ↔ previous' = 0x0D)) :
    pos.walk tabs previous rs = pos.walk tabs previous' rs := by
  cases rs with
  | nil => rfl
  | cons r rest =>
    rw [walk, walk, step, step]
    by_cases hr : r = 0x0A
    · simp only [h (congrArg some hr)]
    · simp only [hr, and_false]

end Position

/-! ## Resuming -/

/-- The offsets at which a scan may resume: a rune starts there, and a CR right before a LF there is a rune. -/
def Resumable (text : Bytes) (s : Nat) : Prop :=
  Utf8.Boundary text s ∧
    (text[s - 1]? = some 0x0D → text[s]? = some 0x0A → (Utf8.runes (text.take s)).getLast? = some 0x0D)

instance (text : Bytes) (s : Nat) : Decidable (Resumable text s) :=
  inferInstanceAs (Decidable (_ ∧ (_ → _ → _)))

theorem resumable_length (text : Bytes) : Resumable text text.length := by
  refine ⟨Utf8.boundary_length text, fun _ hfeed => ?_⟩
  rw [List.getElem?_eq_none (Nat.le_refl _)] at hfeed
  cases hfeed

theorem getLastD_eq_return_iff {rs : List Rune} : rs.getLastD 0 = 0x0D ↔ rs.getLast? = some 0x0D := by
  rw [List.getLastD_eq_getLast?]
  cases rs.getLast? with
  | none => exact ⟨fun h => absurd h (by decide), fun h => by cases h⟩
  | some r => exact ⟨congrArg some, Option.some.inj⟩

/-- A CR that is the last rune is the last octet. -/
theorem Utf8.Boundary.return_before {text : Bytes} {s : Nat} (hs : Boundary text s)
    (h : (runes (text.take s)).getLast? = some 0x0D) : 0 < s ∧ text[s - 1]? = some 0x0D := by
  induction hs with
  | front text => cases h
  | @after text k hne hk ih =>
    have hpos := length_decode_pos hne
    rw [runes_take_of_le hne (Nat.le_add_right _ k), Nat.add_sub_cancel_left] at h
    refine ⟨Nat.add_pos_left hpos k, ?_⟩
    by_cases hk0 : k = 0
    · rw [hk0, List.take_zero, runes_nil] at h
      have hrune : (decode text).rune = 0x0D := Option.some.inj h
      have hascii : (decode text).rune < 0x80 := by
        rw [hrune]
        decide
      obtain ⟨b, rest, htext, hb, hlength⟩ := eq_cons_of_rune_ascii hascii
      have hreturn : b = 0x0D := UInt8.toNat_inj.mp (hb.symm.trans hrune)
      rw [hk0, hlength, htext, hreturn]
      rfl
    · have hrest : text.drop (decode text).length ≠ [] := by
        intro hnil
        rw [hnil] at hk
        exact hk0 (Nat.le_zero.mp hk.le_length)
      have hlast : (runes ((text.drop (decode text).length).take k)).getLast? = some 0x0D := by
        rw [runes_of_ne_nil (take_ne_nil hrest hk0)] at h ⊢
        rwa [List.getLast?_cons_cons] at h
      obtain ⟨hk1, hreturn⟩ := ih hlast
      rw [List.getElem?_drop] at hreturn
      rw [Nat.add_sub_assoc hk1]
      exact hreturn

/-- A run of runes starts with a LF where the octets do. -/
theorem Utf8.feed_of_head {text : Bytes} {s n : Nat}
    (h : (runes ((text.drop s).take n)).head? = some 0x0A) : text[s]? = some 0x0A := by
  have hne : (text.drop s).take n ≠ [] := by
    intro hnil
    rw [hnil, runes_nil] at h
    cases h
  rw [runes_of_ne_nil hne] at h
  have hrune : (decode ((text.drop s).take n)).rune = 0x0A := Option.some.inj h
  obtain ⟨b, rest, htext, hb, -⟩ := eq_cons_of_rune_ascii (by rw [hrune]; decide)
  have hfeed : b = 0x0A := UInt8.toNat_inj.mp (hb.symm.trans hrune)
  have hfront : ((text.drop s).take n)[0]? = some 0x0A := by
    rw [htext, hfeed]
    rfl
  have hn : 0 < n := by
    refine Nat.pos_of_ne_zero ?_
    rintro rfl
    exact hne List.take_zero
  rwa [List.getElem?_take_of_lt hn, List.getElem?_drop, Nat.add_zero] at hfront

namespace Locator

theorem previousRune_eq_return_iff {text : Bytes} {s : Nat} :
    previousRune text s = 0x0D ↔ 0 < s ∧ text[s - 1]? = some 0x0D := by
  have hcondition : (0 < s && text[s - 1]? == some 0x0D) = true ↔ 0 < s ∧ text[s - 1]? = some 0x0D := by
    rw [Bool.and_eq_true, decide_eq_true_eq, beq_iff_eq]
  rw [← hcondition, previousRune]
  by_cases h : (0 < s && text[s - 1]? == some 0x0D) = true
  · rw [if_pos h]
    exact ⟨fun _ => h, fun _ => rfl⟩
  · rw [if_neg h]
    exact ⟨fun h0 => absurd h0 (by decide), fun h' => absurd h' h⟩

/-- What a scan takes to precede a resumable offset is a CR exactly if the rune there is, where it matters. -/
theorem previousRune_iff {text : Bytes} {s : Nat} (hs : Resumable text s) (hfeed : text[s]? = some 0x0A) :
    previousRune text s = 0x0D ↔ (Utf8.runes (text.take s)).getLastD 0 = 0x0D := by
  rw [previousRune_eq_return_iff]
  constructor
  · rintro ⟨-, hreturn⟩
    exact getLastD_eq_return_iff.mpr (hs.2 hreturn hfeed)
  · intro hlast
    exact hs.1.return_before (getLastD_eq_return_iff.mp hlast)

theorem position_eq_walk (tabs : Tabs) {text : Bytes} {i : Nat} (hi : i ≤ text.length) :
    position text tabs i = Position.origin.walk tabs 0 (Utf8.runes (text.take i)) := by
  show scanTo text tabs 0 Position.origin (min i text.length) = _
  rw [Nat.min_eq_left hi, scanTo, advance_eq_walk]
  rfl

theorem position_min (tabs : Tabs) (text : Bytes) (offset : Nat) :
    position text tabs (min offset text.length) = position text tabs offset := by
  show scanTo text tabs 0 Position.origin (min (min offset text.length) text.length) = _
  rw [Nat.min_assoc, Nat.min_self]
  rfl

/-- A scan that resumes at a resumable offset finds what a scan from the start finds. -/
theorem scanTo_of_resumable (tabs : Tabs) {text : Bytes} {s i : Nat} (hs : Resumable text s) (hsi : s ≤ i)
    (hi : i ≤ text.length) : scanTo text tabs s (position text tabs s) i = position text tabs i := by
  rw [scanTo, advance_eq_walk, position_eq_walk tabs hi, position_eq_walk tabs (Nat.le_trans hsi hi),
    Utf8.runes_take_append hs.1 hsi, Position.walk_append]
  apply Position.walk_congr
  intro hhead
  exact previousRune_iff hs (Utf8.feed_of_head hhead)

/-! ## Where a scan may not resume -/

theorem take_one_drop {text : Bytes} {s : Nat} {x : UInt8} (hx : text[s]? = some x) :
    (text.drop s).take 1 = [x] := by
  obtain ⟨hs, hx⟩ := List.getElem?_eq_some_iff.mp hx
  rw [List.drop_eq_getElem_cons hs, hx]
  rfl

/-- A scan that resumes one octet before its goal walks over that octet. -/
theorem scanTo_succ (tabs : Tabs) {text : Bytes} {s : Nat} {x : UInt8} (hx : text[s]? = some x) (pos : Position) :
    scanTo text tabs s pos (s + 1)
      = pos.step tabs (previousRune text s) (if x.toNat < 0x80 then x.toNat else Rune.replacement) := by
  have hrunes := forall_byte (p := fun x =>
    Utf8.runes [x] == [if x.toNat < 0x80 then x.toNat else Rune.replacement]) (by decide +kernel) x
  rw [scanTo, advance_eq_walk, Nat.add_sub_cancel_left, take_one_drop hx, eq_of_beq hrunes]
  rfl

/-- A scan that resumes between a CR that is no rune and a LF takes them for one line ending. -/
theorem scanTo_ne_of_return (tabs : Tabs) {text : Bytes} {s : Nat} (hs : Utf8.Boundary text s)
    (hreturn : text[s - 1]? = some 0x0D) (hfeed : text[s]? = some 0x0A)
    (hlast : (Utf8.runes (text.take s)).getLast? ≠ some 0x0D) :
    scanTo text tabs s (position text tabs s) (s + 1) ≠ position text tabs (s + 1) := by
  obtain ⟨hlt, -⟩ := List.getElem?_eq_some_iff.mp hfeed
  have hs0 : 0 < s := by
    refine Nat.pos_of_ne_zero ?_
    rintro rfl
    rw [hfeed] at hreturn
    cases hreturn
  have hprevious : previousRune text s = 0x0D := previousRune_eq_return_iff.mpr ⟨hs0, hreturn⟩
  have hlast' : (Utf8.runes (text.take s)).getLastD 0 ≠ 0x0D := mt getLastD_eq_return_iff.mp hlast
  have hrunes : Utf8.runes [0x0A] = [0x0A] := by decide
  rw [scanTo_succ tabs hfeed, hprevious, position_eq_walk tabs hlt, position_eq_walk tabs (Nat.le_of_lt hlt),
    Utf8.runes_take_append hs (Nat.le_succ s), Nat.succ_eq_add_one, Nat.add_sub_cancel_left,
    take_one_drop hfeed, hrunes, Position.walk_append]
  show Position.step tabs _ 0x0D 0x0A ≠ Position.step tabs _ _ 0x0A
  rw [Position.step_return_feed, Position.step_of_ending rfl (fun hand => hlast' hand.1)]
  intro heq
  exact absurd (congrArg Position.line heq) (Nat.ne_of_lt (Nat.lt_succ_self _))

/-- A scan that resumes inside a sequence counts it twice. -/
theorem scanTo_ne_of_inside {tabs : Tabs} (htabs : ∀ column, column < tabs.next column) {text : Bytes} {s : Nat}
    (hs : ¬Utf8.Boundary text s) (hlt : s < text.length) :
    scanTo text tabs s (position text tabs s) (s + 1) ≠ position text tabs (s + 1) := by
  obtain ⟨x, hx⟩ : ∃ x, text[s]? = some x := ⟨_, List.getElem?_eq_getElem hlt⟩
  obtain ⟨before, r, hhere, hfurther, hr, hx80, hbehind⟩ := Utf8.runes_take_inside hs hx
  rw [scanTo_succ tabs hx, position_eq_walk tabs hlt, position_eq_walk tabs (Nat.le_of_lt hlt), hhere, hfurther,
    Position.walk_append, Position.walk_append]
  generalize Position.origin.walk tabs 0 before = pos
  show Position.step tabs ⟨pos.line, pos.column + 1⟩ _ _ ≠ pos.step tabs _ r
  -- the cut-off sequence counts as one column, and the scan makes a step of its own for the next octet
  by_cases hascii : x.toNat < 0x80
  · have hsame : r = Rune.replacement := hx80.resolve_right (Nat.not_le.mpr hascii)
    rw [if_pos hascii, hsame, Position.step_replacement]
    by_cases hending : Rune.isLineEnding x.toNat = true
    · have hfeed : ¬(previousRune text s = 0x0D ∧ x.toNat = 0x0A) := by
        rintro ⟨hprevious, hx10⟩
        have hlead : Utf8.isLead x = true := by
          rw [UInt8.toNat_inj.mp (show x.toNat = (0x0A : UInt8).toNat from hx10)]
          rfl
        obtain ⟨a, ha, ha80⟩ := hbehind hlead
        rw [(previousRune_eq_return_iff.mp hprevious).2] at ha
        cases ha
        exact absurd ha80 (by decide)
      rw [Position.step_of_ending hending hfeed]
      intro heq
      exact absurd (congrArg Position.line heq) (Nat.succ_ne_self _)
    · rw [Position.step_of_not_ending (Bool.not_eq_true _ ▸ hending)]
      intro heq
      exact absurd (congrArg Position.column heq) (Nat.ne_of_gt (Position.lt_advanceColumn htabs _ _))
  · rw [if_neg hascii, Position.step_replacement]
    rcases Position.step_beyond_ascii tabs pos (before.getLastD 0) hr with hstep | hstep
    · rw [hstep]
      intro heq
      exact absurd (congrArg Position.line heq) (Nat.ne_of_lt (Nat.lt_succ_self _))
    · rw [hstep]
      intro heq
      exact absurd (congrArg Position.column heq) (Nat.succ_ne_self _)

/-! ## Queries -/

/-- The answers to queries, one after the other. -/
def answers (tabs : Tabs) : Locator → List Nat → List Position
  | _, [] => []
  | l, offset :: rest => (l.locate tabs offset).1 :: answers tabs (l.locate tabs offset).2 rest

/-- Every answer kept is that to a query at a resumable offset, without any earlier query. -/
def Sound (l : Locator) (text : Bytes) (tabs : Tabs) : Prop :=
  l.text = text ∧ ∀ entry ∈ l.found, entry.1 ≤ text.length ∧ Resumable text entry.1 ∧
    entry.2 = position text tabs entry.1

theorem sound_ofText (text : Bytes) (tabs : Tabs) : (ofText text).Sound text tabs := by
  refine ⟨rfl, ?_⟩
  intro entry hentry
  cases hentry

/-- A query at a kept offset repeats the answer. Any other one scans on from a kept answer or from the start, and
keeps what it finds. -/
theorem locate_cases (l : Locator) (tabs : Tabs) (offset : Nat) :
    (∃ entry ∈ l.found, entry.1 = min offset l.text.length ∧ l.locate tabs offset = (entry.2, l)) ∨
      ∃ start pos earlier later, ((start, pos) = (0, Position.origin) ∨ (start, pos) ∈ l.found) ∧
        start ≤ min offset l.text.length ∧ earlier ++ later = l.found ∧
        l.locate tabs offset = (scanTo l.text tabs start pos (min offset l.text.length),
          ⟨l.text, earlier ++ (min offset l.text.length,
            scanTo l.text tabs start pos (min offset l.text.length)) :: later⟩) := by
  generalize hindex : min offset l.text.length = index
  have hfound : l.found.takeWhile (fun entry => entry.1 < index) ++ l.found.dropWhile (fun entry => entry.1 < index)
      = l.found := List.takeWhile_append_dropWhile
  have hscanned : ∃ start pos earlier later, ((start, pos) = (0, Position.origin) ∨ (start, pos) ∈ l.found) ∧
      start ≤ index ∧ earlier ++ later = l.found ∧
      locate.scanned l tabs (l.found.takeWhile (fun entry => entry.1 < index))
          (l.found.dropWhile (fun entry => entry.1 < index)) index
        = (scanTo l.text tabs start pos index,
            ⟨l.text, earlier ++ (index, scanTo l.text tabs start pos index) :: later⟩) := by
    refine ⟨_, _, _, _, ?_, ?_, hfound, rfl⟩
    · -- the scan starts at the last kept answer before the offset, if there is one
      cases hlast : (l.found.takeWhile (fun entry => entry.1 < index)).getLast? with
      | none => exact .inl rfl
      | some entry =>
        right
        exact (List.takeWhile_sublist _).subset (List.mem_of_getLast? hlast)
    · cases hlast : (l.found.takeWhile (fun entry => entry.1 < index)).getLast? with
      | none => exact Nat.zero_le index
      | some entry =>
        have hbefore := List.all_eq_true.mp List.all_takeWhile entry (List.mem_of_getLast? hlast)
        exact Nat.le_of_lt (of_decide_eq_true hbefore)
  unfold locate
  simp only [hindex]
  cases hlater : l.found.dropWhile (fun entry => entry.1 < index) with
  | nil =>
    rw [hlater] at hscanned
    exact .inr hscanned
  | cons entry later =>
    rw [hlater] at hscanned hfound
    by_cases hhere : entry.1 = index
    · left
      refine ⟨entry, ?_, hhere, if_pos hhere⟩
      rw [← hfound]
      exact List.mem_append_right _ List.mem_cons_self
    · right
      simp only [if_neg hhere]
      exact hscanned

/-- What is kept is sound, so is the answer, and so is what is kept with it at a resumable offset. -/
theorem Sound.locate {l : Locator} {text : Bytes} {tabs : Tabs} (hl : l.Sound text tabs) (offset : Nat) :
    (l.locate tabs offset).1 = position text tabs offset ∧
      (Resumable text (min offset text.length) → (l.locate tabs offset).2.Sound text tabs) := by
  obtain ⟨htext, hfound⟩ := hl
  have hindex : min offset text.length ≤ text.length := Nat.min_le_right _ _
  rcases locate_cases l tabs offset with ⟨entry, hentry, hhere, hlocate⟩ |
    ⟨start, pos, earlier, later, hresume, hstart, hsplit, hlocate⟩
  · rw [hlocate, ← position_min, ← htext, ← hhere, htext]
    exact ⟨(hfound entry hentry).2.2, fun _ => ⟨htext, hfound⟩⟩
  · rw [htext] at hstart hlocate
    -- a kept answer is at a resumable offset, from where a scan answers as one from the start does
    have hscan : scanTo text tabs start pos (min offset text.length) = position text tabs offset := by
      rw [← position_min]
      rcases hresume with horigin | hkept
      · cases horigin
        show _ = scanTo text tabs 0 Position.origin (min (min offset text.length) text.length)
        rw [Nat.min_eq_left hindex]
      · obtain ⟨-, hresumable, hpos⟩ := hfound _ hkept
        rw [show pos = position text tabs start from hpos]
        exact scanTo_of_resumable tabs hresumable hstart hindex
    rw [hlocate, hscan]
    refine ⟨rfl, fun hresumable => ⟨rfl, ?_⟩⟩
    intro entry hentry
    rcases List.mem_append.mp hentry with hearlier | hlater
    · exact hfound entry (hsplit ▸ List.mem_append_left _ hearlier)
    · rcases List.mem_cons.mp hlater with hnew | hlater
      · rw [hnew]
        exact ⟨hindex, hresumable, (position_min tabs text offset).symm⟩
      · exact hfound entry (hsplit ▸ List.mem_append_right _ hlater)

/-- The second query scans on from the answer to the first. -/
theorem answers_next (tabs : Tabs) {text : Bytes} {s : Nat} (hlt : s < text.length) :
    answers tabs (ofText text) [s, s + 1]
      = [position text tabs s, scanTo text tabs s (position text tabs s) (s + 1)] := by
  have hfirst : (ofText text).locate tabs s = (position text tabs s, ⟨text, [(s, position text tabs s)]⟩) := by
    show (_, (⟨text, [(min s text.length, _)]⟩ : Locator)) = _
    rw [Nat.min_eq_left (Nat.le_of_lt hlt)]
    rfl
  have hsecond : ((⟨text, [(s, position text tabs s)]⟩ : Locator).locate tabs (s + 1)).1
      = scanTo text tabs s (position text tabs s) (s + 1) := by
    simp [locate, locate.scanned, Nat.min_eq_left (show s + 1 ≤ text.length from hlt)]
  rw [answers, answers, answers, hfirst, hsecond]

theorem Sound.answers {l : Locator} {text : Bytes} {tabs : Tabs} (hl : l.Sound text tabs) (earlier : List Nat)
    (last : Nat) (hearlier : ∀ s ∈ earlier, Resumable text (min s text.length)) :
    answers tabs l (earlier ++ [last]) = (earlier ++ [last]).map (position text tabs) := by
  induction earlier generalizing l with
  | nil =>
    show [(l.locate tabs last).1] = [position text tabs last]
    rw [(hl.locate last).1]
  | cons s rest ih =>
    obtain ⟨hanswer, hkept⟩ := hl.locate s
    have hrest := ih (hkept (hearlier s List.mem_cons_self)) (fun o ho => hearlier o (List.mem_cons_of_mem s ho))
    rw [List.cons_append, Locator.answers, hanswer, hrest, List.map_cons]

/-- **Where earlier queries leave the answers as they are.** After queries at resumable offsets, in whatever order,
every query is answered as if it were the first. After a query at any other offset the next octet is not, if
tabs move at all. -/
theorem answers_exact (text : Bytes) (tabs : Tabs) :
    (∀ (earlier : List Nat) (last : Nat), (∀ s ∈ earlier, Resumable text (min s text.length)) →
      answers tabs (ofText text) (earlier ++ [last]) = (earlier ++ [last]).map (position text tabs)) ∧
    ((∀ column, column < tabs.next column) → ∀ s, ¬Resumable text (min s text.length) →
      answers tabs (ofText text) [s, s + 1] ≠ [s, s + 1].map (position text tabs)) := by
  refine ⟨fun earlier last hearlier => (sound_ofText text tabs).answers earlier last hearlier, ?_⟩
  intro htabs s hs
  have hlt : s < text.length := by
    refine Nat.lt_of_not_le fun hle => hs ?_
    rw [Nat.min_eq_right hle]
    exact resumable_length text
  rw [Nat.min_eq_left (Nat.le_of_lt hlt)] at hs
  rw [answers_next tabs hlt, List.map_cons, List.map_cons, List.map_nil]
  intro heq
  have hnext : scanTo text tabs s (position text tabs s) (s + 1) = position text tabs (s + 1) :=
    (List.cons.inj (List.cons.inj heq).2).1
  by_cases hboundary : Utf8.Boundary text s
  · have hbroken : text[s - 1]? = some 0x0D ∧ text[s]? = some 0x0A ∧
        (Utf8.runes (text.take s)).getLast? ≠ some 0x0D := by
      refine Classical.byContradiction fun hnone => hs ⟨hboundary, fun hreturn hfeed => ?_⟩
      exact Classical.byContradiction fun hlast => hnone ⟨hreturn, hfeed, hlast⟩
    exact scanTo_ne_of_return tabs hboundary hbroken.1 hbroken.2.1 hbroken.2.2 hnext
  · exact scanTo_ne_of_inside htabs hboundary hlt hnext

/-- Behind a query inside a two-byte sequence, the end of the sequence is found one column further on. -/
theorem answers_inside_rune :
    answers {} (ofText [0xC3, 0xA9]) [1, 2] ≠ [1, 2].map (position [0xC3, 0xA9] {}) := by
  decide

theorem answers_exact_lines :
    answers {} (ofText [0x61, 0xC3, 0xA9, 0x0D, 0x0A, 0x62]) [5, 0, 4, 3, 9, 2]
        = [⟨2, 1⟩, ⟨1, 1⟩, ⟨2, 1⟩, ⟨1, 3⟩, ⟨2, 2⟩, ⟨1, 3⟩] ∧
      answers {} (ofText [0xE2, 0x0D, 0x0A]) [2, 3] ≠ [2, 3].map (position [0xE2, 0x0D, 0x0A] {}) := by
  constructor
  · exact (answers_exact [0x61, 0xC3, 0xA9, 0x0D, 0x0A, 0x62] {}).1 [5, 0, 4, 3, 9] 2 (by decide)
  · refine (answers_exact [0xE2, 0x0D, 0x0A] {}).2 ?_ 2 (by decide)
    intro column
    show column < max (column + 8 - (column + 8 - 1) % 8) column
    omega

end Locator

end Packrat
