import Packrat.Cursor
import Packrat.Terminal

/-!
# `Packrat.Proofs.Coding` — UTF-8 is coded exactly

`Packrat.Utf8` decodes by what a lead octet announces. A decoder that is driven by a table of octet classes and
a table of transitions reads the same runes. What they call well-formed is what `encode` writes.

## Contents
- **Octets.** Their values, and statements about all of them.
- **Well-formed sequences.** Their octets, and that nothing behind them matters.
- **The automaton.** `Automaton.decode`, driven by its tables, is `decode`.
- **Shortest forms.** What may stand in each place, and that it is what is decoded.
- **Encoding.** The shortest forms are what `encode` writes.
- **Encoding by bits.** `Bitwise.encode`, which masks and shifts, is `encode`.
- **Exactness.** `Utf8.coding_exact`.
-/

namespace Packrat

/-! ## Octets -/

/-- What holds of all bytes can be computed. -/
theorem forall_byte {p : UInt8 → Bool} (h : (List.range 256).all (fun i => p i.toUInt8) = true) (b : UInt8) :
    p b = true := by
  have hb := List.all_eq_true.mp h b.toNat (List.mem_range.mpr b.toNat_lt)
  have hsame : b.toNat.toUInt8 = b := UInt8.ofNat_toNat
  rw [hsame] at hb
  exact hb

namespace Utf8

deriving instance DecidableEq for OctetRange
deriving instance DecidableEq for Lead

/-- Whether an octet lies in a range is a matter of its value. -/
theorem OctetRange.contains_iff {range : OctetRange} {b : UInt8} :
    range.contains b = true ↔ range.first.toNat ≤ b.toNat ∧ b.toNat ≤ range.last.toNat := by
  rw [OctetRange.contains, Bool.and_eq_true, decide_eq_true_eq, decide_eq_true_eq, UInt8.le_iff_toNat_le,
    UInt8.le_iff_toNat_le]

theorem OctetRange.contains_continuation_iff {b : UInt8} :
    OctetRange.continuation.contains b = true ↔ 0x80 ≤ b.toNat ∧ b.toNat ≤ 0xBF :=
  OctetRange.contains_iff

theorem toNat_toUInt8 {n : Nat} (h : n < 256) : n.toUInt8.toNat = n := by
  show (UInt8.ofNat n).toNat = n
  rw [UInt8.toNat_ofNat']
  exact Nat.mod_eq_of_lt h

theorem toNat_continuationOctet (r : Rune) (unit : Nat) :
    (continuationOctet r unit).toNat = 0x80 + r / unit % 64 := by
  unfold continuationOctet
  exact toNat_toUInt8 (by omega)

/-! ## Well-formed sequences -/

/-- Decoding an ASCII byte looks at nothing else. -/
theorem decode_ascii {b : UInt8} (hb : b < 0x80) (rest : Bytes) :
    decode (b :: rest) = ⟨b.toNat, 1, true⟩ := by
  have hlt : b.toNat < 0x80 := UInt8.lt_iff_toNat_lt.mp hb
  have hlead : Lead.ofOctet b = some ⟨b.toNat, []⟩ := by
    unfold Lead.ofOctet
    exact if_pos hlt
  rw [decode, hlead]
  rfl

/-- Octets behind a well-formed sequence have no part in it. -/
theorem decodeRest_append {bits : Rune} {n : Nat} {follow : List OctetRange} {t : Bytes}
    (h : (decodeRest bits n follow t).wellFormed = true) (rest : Bytes) :
    decodeRest bits n follow (t ++ rest) = decodeRest bits n follow t := by
  induction follow generalizing bits n t with
  | nil => rw [decodeRest, decodeRest]
  | cons r follow ih =>
    cases t with
    | nil =>
      rw [decodeRest] at h
      cases h
    | cons b t =>
      rw [decodeRest] at h
      rw [List.cons_append, decodeRest, decodeRest]
      split at h
      · next hr =>
        rw [if_pos hr, if_pos hr]
        exact ih h
      · cases h

theorem decode_append {t : Bytes} (h : (decode t).wellFormed = true) (rest : Bytes) :
    decode (t ++ rest) = decode t := by
  cases t with
  | nil => cases h
  | cons b t =>
    rw [decode] at h
    rw [List.cons_append, decode, decode]
    cases hlead : Lead.ofOctet b with
    | none =>
      rw [hlead] at h
      cases h
    | some lead =>
      rw [hlead] at h
      exact decodeRest_append h rest

/-! ## The automaton -/

namespace Automaton

/-- The class of each octet: which octets may follow depends on the class alone, and a lead octet of class `c`
keeps the bits below its `c` highest ones. -/
def classes : List Nat :=
  List.replicate 128 0 ++ List.replicate 16 1 ++ List.replicate 16 9 ++ List.replicate 32 7 ++ [8, 8] ++
    List.replicate 30 2 ++ [10] ++ List.replicate 12 3 ++ [4, 3, 3] ++ [11, 6, 6, 6, 5] ++ List.replicate 11 8

/-- The state after an octet, at the sum of the state before and the class of the octet. -/
def transitions : List Nat :=
  [0, 12, 24, 36, 60, 96, 84, 12, 12, 12, 48, 72, 12, 12, 12, 12,
    12, 12, 12, 12, 12, 12, 12, 12, 12, 0, 12, 12, 12, 12, 12, 0,
    12, 0, 12, 12, 12, 24, 12, 12, 12, 12, 12, 24, 12, 24, 12, 12,
    12, 12, 12, 12, 12, 12, 12, 24, 12, 12, 12, 12, 12, 24, 12, 12,
    12, 12, 12, 12, 12, 24, 12, 12, 12, 12, 12, 12, 12, 12, 12, 36,
    12, 36, 12, 12, 12, 36, 12, 12, 12, 12, 12, 36, 12, 36, 12, 12,
    12, 36, 12, 12, 12, 12, 12, 12, 12, 12, 12, 12]

/-- The state between runes. -/
def accept : Nat := 0

/-- The state after an octet that breaks a sequence. -/
def reject : Nat := 12

/-- The class of an octet. -/
def classOf (b : UInt8) : Nat := classes.getD b.toNat 0

/-- The state after an octet. -/
def next (state : Nat) (b : UInt8) : Nat := transitions.getD (state + classOf b) reject

/-- The bits read after an octet. -/
def shift (state : Nat) (bits : Rune) (b : UInt8) : Rune :=
  if state = accept then b.toNat &&& (0xFF >>> classOf b) else (b.toNat &&& 0x3F) ||| (bits <<< 6)

/-- Reads octets until a rune is complete or a sequence is broken, after `n` octets that gave `bits`. -/
def run (state : Nat) (bits : Rune) (n : Nat) : Bytes → Decoded
  | [] => malformed n []
  | b :: rest =>
    if next state b = accept then ⟨shift state bits b, n + 1, true⟩
    else if next state b = reject then malformed (n + 1) rest
    else run (next state b) (shift state bits b) (n + 1) rest

/-- The rune at the front of a text. -/
def decode (text : Bytes) : Decoded := run accept 0 0 text

/-- What a state between the octets of a sequence still asks for. -/
def owed : Nat → List OctetRange
  | 24 => [.continuation]
  | 36 => [.continuation, .continuation]
  | 48 => [⟨0xA0, 0xBF⟩, .continuation]
  | 60 => [⟨0x80, 0x9F⟩, .continuation]
  | 72 => [⟨0x90, 0xBF⟩, .continuation, .continuation]
  | 84 => [.continuation, .continuation, .continuation]
  | 96 => [⟨0x80, 0x8F⟩, .continuation, .continuation]
  | _ => []

/-- The states between the octets of a sequence. -/
def pending : List Nat := [24, 36, 48, 60, 72, 84, 96]

/-- Whether a state asks for the given octets: none of them where a rune is complete. -/
def asksFor (state : Nat) (follow : List OctetRange) : Bool :=
  if follow.isEmpty then state == accept else pending.contains state && owed state == follow

theorem asksFor_nil {state : Nat} (h : asksFor state [] = true) : state = accept := eq_of_beq h

theorem asksFor_cons {state : Nat} {range : OctetRange} {follow : List OctetRange}
    (h : asksFor state (range :: follow) = true) : state ∈ pending ∧ owed state = range :: follow := by
  unfold asksFor at h
  rw [List.isEmpty_cons, if_neg Bool.false_ne_true, Bool.and_eq_true, List.contains_iff_mem, beq_iff_eq] at h
  exact h

theorem ne_accept_of_pending {state : Nat} (h : state ∈ pending) : state ≠ accept := by
  rintro rfl
  exact absurd h (by decide)

theorem ne_reject_of_pending {state : Nat} (h : state ∈ pending) : state ≠ reject := by
  rintro rfl
  exact absurd h (by decide)

/-- A lead octet leads to the state that asks for the octets that it announces, with the same bits. -/
theorem next_lead (b : UInt8) :
    (match Lead.ofOctet b with
      | none => next accept b == reject
      | some lead => asksFor (next accept b) lead.follow && shift accept 0 b == lead.bits) = true :=
  forall_byte (p := fun b => match Lead.ofOctet b with
    | none => next accept b == reject
    | some lead => asksFor (next accept b) lead.follow && shift accept 0 b == lead.bits)
    (by decide +kernel) b

/-- A further octet leads to the state that asks for one octet less, if it is the one that is asked for. -/
theorem next_pending (b : UInt8) :
    (pending.all fun state => match owed state with
      | [] => false
      | range :: follow =>
        if range.contains b then asksFor (next state b) follow && OctetRange.continuation.contains b
        else next state b == reject) = true :=
  forall_byte (p := fun b => pending.all fun state => match owed state with
    | [] => false
    | range :: follow =>
      if range.contains b then asksFor (next state b) follow && OctetRange.continuation.contains b
      else next state b == reject)
    (by decide +kernel) b

/-- A continuation octet brings six bits. -/
theorem shift_continuation {state : Nat} {b : UInt8} (hstate : state ≠ accept)
    (hb : OctetRange.continuation.contains b = true) (bits : Rune) :
    shift state bits b = 64 * bits + (b.toNat - 0x80) := by
  obtain ⟨hfirst, hlast⟩ := OctetRange.contains_continuation_iff.mp hb
  have hmask : b.toNat &&& 0x3F = b.toNat % 2 ^ 6 := Nat.and_two_pow_sub_one_eq_mod b.toNat 6
  have hlow : b.toNat % 2 ^ 6 = b.toNat - 0x80 := by omega
  have hlt : b.toNat - 0x80 < 2 ^ 6 := by omega
  unfold shift
  rw [if_neg hstate, hmask, hlow, Nat.or_comm, ← Nat.shiftLeft_add_eq_or_of_lt hlt, Nat.shiftLeft_eq,
    Nat.mul_comm]

/-- From a state that asks for some octets, the automaton reads them as `decodeRest` does. -/
theorem run_eq_decodeRest {state : Nat} {follow : List OctetRange} (hasks : asksFor state follow = true)
    (hfollow : follow ≠ []) (bits : Rune) (n : Nat) (text : Bytes) :
    run state bits n text = decodeRest bits n follow text := by
  induction follow generalizing state bits n text with
  | nil => exact absurd rfl hfollow
  | cons range follow ih =>
    obtain ⟨hpending, howed⟩ := asksFor_cons hasks
    cases text with
    | nil => rfl
    | cons b rest =>
      have hnext := List.all_eq_true.mp (next_pending b) state hpending
      rw [howed] at hnext
      simp only at hnext
      rw [run, decodeRest]
      by_cases hrange : range.contains b = true
      · rw [if_pos hrange, Bool.and_eq_true] at hnext
        rw [if_pos hrange, shift_continuation (ne_accept_of_pending hpending) hnext.2]
        cases follow with
        | nil =>
          -- the last octet of the sequence completes the rune
          rw [if_pos (asksFor_nil hnext.1), decodeRest]
        | cons range' follow' =>
          have hmore := (asksFor_cons hnext.1).1
          rw [if_neg (ne_accept_of_pending hmore), if_neg (ne_reject_of_pending hmore)]
          exact ih hnext.1 (List.cons_ne_nil _ _) _ _ _
      · rw [if_neg hrange] at hnext
        have hreject : next state b = reject := eq_of_beq hnext
        rw [if_neg hrange, hreject, if_neg (by decide), if_pos rfl]

/-- The automaton and `decode` read the same runes. -/
theorem decode_eq (text : Bytes) : decode text = Utf8.decode text := by
  cases text with
  | nil => rfl
  | cons b rest =>
    have hlead := next_lead b
    rw [decode, run, Utf8.decode]
    cases hoctet : Lead.ofOctet b with
    | none =>
      rw [hoctet] at hlead
      have hreject : next accept b = reject := eq_of_beq hlead
      rw [hreject, if_neg (by decide), if_pos rfl]
    | some lead =>
      rw [hoctet] at hlead
      simp only [Bool.and_eq_true, beq_iff_eq] at hlead
      obtain ⟨hasks, hbits⟩ := hlead
      simp only
      rw [hbits]
      cases hfollow : lead.follow with
      | nil =>
        rw [hfollow] at hasks
        rw [if_pos (asksFor_nil hasks), decodeRest]
      | cons range follow =>
        rw [hfollow] at hasks
        have hmore := (asksFor_cons hasks).1
        rw [if_neg (ne_accept_of_pending hmore), if_neg (ne_reject_of_pending hmore)]
        exact run_eq_decodeRest hasks (List.cons_ne_nil _ _) _ _ _

end Automaton

/-- A sequence that is broken is read as a replacement. -/
theorem decodeRest_of_malformed {bits : Rune} {n : Nat} {follow : List OctetRange} {text : Bytes}
    (h : ¬(decodeRest bits n follow text).wellFormed = true) :
    (decodeRest bits n follow text).rune = Rune.replacement := by
  induction follow generalizing bits n text with
  | nil =>
    rw [decodeRest] at h
    exact absurd rfl h
  | cons range follow ih =>
    cases text with
    | nil => rfl
    | cons b rest =>
      rw [decodeRest] at h ⊢
      by_cases hb : range.contains b = true
      · rw [if_pos hb] at h ⊢
        exact ih h
      · rw [if_neg hb]
        rfl

theorem rune_of_malformed {text : Bytes} (h : ¬(decode text).wellFormed = true) :
    (decode text).rune = Rune.replacement := by
  cases text with
  | nil => rfl
  | cons b rest =>
    rw [decode] at h ⊢
    cases hlead : Lead.ofOctet b with
    | none => rfl
    | some lead =>
      rw [hlead] at h
      exact decodeRest_of_malformed h

/-! ## Shortest forms -/

/-- The octets that may stand second, by the value of the lead octet: the others would make a form that is not
the shortest, a surrogate, or a code point beyond Unicode. -/
def second (lead : Nat) : OctetRange :=
  if lead = 0xE0 then ⟨0xA0, 0xBF⟩
  else if lead = 0xED then ⟨0x80, 0x9F⟩
  else if lead = 0xF0 then ⟨0x90, 0xBF⟩
  else if lead = 0xF4 then ⟨0x80, 0x8F⟩
  else .continuation

/-- What lead octets announce, by the number of octets to follow. -/
theorem Lead.ofOctet_eq (b : UInt8) :
    Lead.ofOctet b =
      if b.toNat < 0x80 then some ⟨b.toNat, []⟩
      else if b.toNat < 0xC2 then none
      else if b.toNat < 0xE0 then some ⟨b.toNat - 0xC0, [.continuation]⟩
      else if b.toNat < 0xF0 then some ⟨b.toNat - 0xE0, [second b.toNat, .continuation]⟩
      else if b.toNat < 0xF5 then
        some ⟨b.toNat - 0xF0, [second b.toNat, .continuation, .continuation]⟩
      else none := by
  have hall := forall_byte (p := fun b => Lead.ofOctet b ==
    if b.toNat < 0x80 then some ⟨b.toNat, []⟩
    else if b.toNat < 0xC2 then none
    else if b.toNat < 0xE0 then some ⟨b.toNat - 0xC0, [.continuation]⟩
    else if b.toNat < 0xF0 then some ⟨b.toNat - 0xE0, [second b.toNat, .continuation]⟩
    else if b.toNat < 0xF5 then
      some ⟨b.toNat - 0xF0, [second b.toNat, .continuation, .continuation]⟩
    else none) (by decide +kernel) b
  exact eq_of_beq hall

/-- The well-formed sequences of octets, with the runes that they are the shortest forms of. -/
inductive Shortest : Bytes → Rune → Prop
  | one {a : UInt8} {r : Nat} (ha : a.toNat < 0x80) (hr : r = a.toNat) : Shortest [a] r
  | two {a b : UInt8} {r : Nat} (ha : 0xC2 ≤ a.toNat ∧ a.toNat < 0xE0)
      (hb : OctetRange.continuation.contains b = true)
      (hr : r = 64 * (a.toNat - 0xC0) + (b.toNat - 0x80)) : Shortest [a, b] r
  | three {a b c : UInt8} {r : Nat} (ha : 0xE0 ≤ a.toNat ∧ a.toNat < 0xF0)
      (hb : (second a.toNat).contains b = true) (hc : OctetRange.continuation.contains c = true)
      (hr : r = 64 * (64 * (a.toNat - 0xE0) + (b.toNat - 0x80)) + (c.toNat - 0x80)) :
      Shortest [a, b, c] r
  | four {a b c d : UInt8} {r : Nat} (ha : 0xF0 ≤ a.toNat ∧ a.toNat < 0xF5)
      (hb : (second a.toNat).contains b = true) (hc : OctetRange.continuation.contains c = true)
      (hd : OctetRange.continuation.contains d = true)
      (hr : r = 64 * (64 * (64 * (a.toNat - 0xF0) + (b.toNat - 0x80)) + (c.toNat - 0x80)) + (d.toNat - 0x80)) :
      Shortest [a, b, c, d] r

/-- A second octet of three keeps the rune at or above U+0800 and out of the surrogates. -/
theorem contains_second_three {lead : Nat} {b : UInt8} (hlead : 0xE0 ≤ lead ∧ lead < 0xF0) :
    (second lead).contains b = true ↔ (0x80 ≤ b.toNat ∧ b.toNat ≤ 0xBF) ∧
      0x20 ≤ 64 * (lead - 0xE0) + (b.toNat - 0x80) ∧
      ¬(0x360 ≤ 64 * (lead - 0xE0) + (b.toNat - 0x80) ∧ 64 * (lead - 0xE0) + (b.toNat - 0x80) < 0x380) := by
  unfold second
  by_cases hE0 : lead = 0xE0
  · rw [if_pos hE0, OctetRange.contains_iff]
    show (0xA0 ≤ b.toNat ∧ b.toNat ≤ 0xBF) ↔ _
    omega
  rw [if_neg hE0]
  by_cases hED : lead = 0xED
  · rw [if_pos hED, OctetRange.contains_iff]
    show (0x80 ≤ b.toNat ∧ b.toNat ≤ 0x9F) ↔ _
    omega
  rw [if_neg hED, if_neg (by omega), if_neg (by omega), OctetRange.contains_continuation_iff]
  omega

/-- A second octet of four keeps the rune from U+10000 to U+10FFFF. -/
theorem contains_second_four {lead : Nat} {b : UInt8} (hlead : 0xF0 ≤ lead ∧ lead < 0xF5) :
    (second lead).contains b = true ↔ (0x80 ≤ b.toNat ∧ b.toNat ≤ 0xBF) ∧
      0x10 ≤ 64 * (lead - 0xF0) + (b.toNat - 0x80) ∧ 64 * (lead - 0xF0) + (b.toNat - 0x80) ≤ 0x10F := by
  unfold second
  rw [if_neg (by omega), if_neg (by omega)]
  by_cases hF0 : lead = 0xF0
  · rw [if_pos hF0, OctetRange.contains_iff]
    show (0x90 ≤ b.toNat ∧ b.toNat ≤ 0xBF) ↔ _
    omega
  rw [if_neg hF0]
  by_cases hF4 : lead = 0xF4
  · rw [if_pos hF4, OctetRange.contains_iff]
    show (0x80 ≤ b.toNat ∧ b.toNat ≤ 0x8F) ↔ _
    omega
  rw [if_neg hF4, OctetRange.contains_continuation_iff]
  omega

/-- A shortest form is decoded to its rune, whatever follows. -/
theorem Shortest.decode_append {u : Bytes} {r : Rune} (hu : Shortest u r) (rest : Bytes) :
    decode (u ++ rest) = ⟨r, u.length, true⟩ := by
  cases hu with
  | one ha hr =>
    rw [hr]
    simp only [List.cons_append, List.nil_append, decode, Lead.ofOctet_eq]
    rw [if_pos ha]
    rfl
  | two ha hb hr =>
    rw [hr]
    simp only [List.cons_append, List.nil_append, decode, Lead.ofOctet_eq]
    rw [if_neg (by omega), if_neg (by omega), if_pos ha.2]
    dsimp only
    rw [decodeRest, if_pos hb, decodeRest]
    rfl
  | three ha hb hc hr =>
    rw [hr]
    simp only [List.cons_append, List.nil_append, decode, Lead.ofOctet_eq]
    rw [if_neg (by omega), if_neg (by omega), if_neg (by omega), if_pos ha.2]
    dsimp only
    rw [decodeRest, if_pos hb, decodeRest, if_pos hc, decodeRest]
    rfl
  | four ha hb hc hd hr =>
    rw [hr]
    simp only [List.cons_append, List.nil_append, decode, Lead.ofOctet_eq]
    rw [if_neg (by omega), if_neg (by omega), if_neg (by omega), if_neg (by omega), if_pos ha.2]
    dsimp only
    rw [decodeRest, if_pos hb, decodeRest, if_pos hc, decodeRest, if_pos hd, decodeRest]
    rfl

/-- A well-formed sequence goes on with an octet that is asked for. -/
theorem decodeRest_cons_wellFormed {bits : Rune} {n : Nat} {range : OctetRange} {follow : List OctetRange}
    {text : Bytes} (h : (decodeRest bits n (range :: follow) text).wellFormed = true) :
    ∃ b rest, text = b :: rest ∧ range.contains b = true ∧
      (decodeRest (64 * bits + (b.toNat - 0x80)) (n + 1) follow rest).wellFormed = true := by
  cases text with
  | nil =>
    rw [decodeRest] at h
    cases h
  | cons b rest =>
    rw [decodeRest] at h
    by_cases hb : range.contains b = true
    · rw [if_pos hb] at h
      exact ⟨b, rest, rfl, hb, h⟩
    · rw [if_neg hb] at h
      cases h

/-- What is decoded as well-formed starts with a shortest form. -/
theorem exists_shortest_of_wellFormed {text : Bytes} (h : (decode text).wellFormed = true) :
    ∃ u r rest, Shortest u r ∧ text = u ++ rest := by
  cases text with
  | nil => cases h
  | cons a rest =>
    rw [decode, Lead.ofOctet_eq] at h
    by_cases hone : a.toNat < 0x80
    · exact ⟨[a], _, rest, .one hone rfl, rfl⟩
    rw [if_neg hone] at h
    by_cases hcont : a.toNat < 0xC2
    · rw [if_pos hcont] at h
      cases h
    rw [if_neg hcont] at h
    by_cases htwo : a.toNat < 0xE0
    · rw [if_pos htwo] at h
      obtain ⟨b, rest, hrest, hb, -⟩ := decodeRest_cons_wellFormed h
      exact ⟨[a, b], _, rest, .two (by omega) hb rfl, by rw [hrest]; rfl⟩
    rw [if_neg htwo] at h
    by_cases hthree : a.toNat < 0xF0
    · rw [if_pos hthree] at h
      obtain ⟨b, rest, hrest, hb, h⟩ := decodeRest_cons_wellFormed h
      obtain ⟨c, rest, hrest', hc, -⟩ := decodeRest_cons_wellFormed h
      exact ⟨[a, b, c], _, rest, .three (by omega) hb hc rfl, by rw [hrest, hrest']; rfl⟩
    rw [if_neg hthree] at h
    by_cases hfour : a.toNat < 0xF5
    · rw [if_pos hfour] at h
      obtain ⟨b, rest, hrest, hb, h⟩ := decodeRest_cons_wellFormed h
      obtain ⟨c, rest, hrest', hc, h⟩ := decodeRest_cons_wellFormed h
      obtain ⟨d, rest, hrest'', hd, -⟩ := decodeRest_cons_wellFormed h
      exact ⟨[a, b, c, d], _, rest, .four (by omega) hb hc hd rfl, by rw [hrest, hrest', hrest'']; rfl⟩
    · rw [if_neg hfour] at h
      cases h

/-! ## Encoding -/

theorem isScalar_iff {r : Nat} :
    Rune.isScalar r = true ↔ r ≤ 0x10FFFF ∧ ¬(0xD800 ≤ r ∧ r ≤ 0xDFFF) := by
  unfold Rune.isScalar Rune.isSurrogate Rune.maximum
  rw [Bool.and_eq_true, decide_eq_true_eq, Bool.not_eq_true', ← Bool.not_eq_true, Bool.and_eq_true,
    decide_eq_true_eq, decide_eq_true_eq]

/-- Octets are told apart by their values. -/
theorem toUInt8_eq_iff {n : Nat} {b : UInt8} (h : n < 256) : n.toUInt8 = b ↔ n = b.toNat := by
  constructor
  · intro heq
    rw [← heq, toNat_toUInt8 h]
  · intro heq
    apply UInt8.toNat_inj.mp
    rw [toNat_toUInt8 h, heq]

theorem continuationOctet_eq_iff {r : Nat} {unit : Nat} {b : UInt8} :
    continuationOctet r unit = b ↔ 0x80 + r / unit % 64 = b.toNat :=
  toUInt8_eq_iff (by omega)

/-- How a scalar value is written, by its size. -/
theorem encode_of_isScalar {r : Nat} (hr : Rune.isScalar r = true) :
    encode r =
      if r < 0x80 then [r.toUInt8]
      else if r < 0x800 then [(0xC0 + r / 64).toUInt8, continuationOctet r 1]
      else if r < 0x10000 then
        [(0xE0 + r / 4096).toUInt8, continuationOctet r 64, continuationOctet r 1]
      else
        [(0xF0 + r / 262144).toUInt8, continuationOctet r 4096, continuationOctet r 64,
          continuationOctet r 1] := by
  unfold encode
  rw [hr]
  rfl

theorem encode_of_not_isScalar {r : Nat} (hr : Rune.isScalar r = false) : encode r = replacementBytes := by
  have hlarge : ¬r < 0x80 := by
    intro hlt
    rw [isScalar_iff.mpr (by omega)] at hr
    cases hr
  unfold encode
  rw [if_neg hlarge, hr]
  rfl

/-- A shortest form is that of a scalar value, and the one that `encode` writes. -/
theorem Shortest.eq_encode {u : Bytes} {r : Nat} (hu : Shortest u r) :
    Rune.isScalar r = true ∧ encode r = u := by
  cases hu with
  | @one a _ ha hr =>
    have hscalar : Rune.isScalar r = true := isScalar_iff.mpr (by omega)
    refine ⟨hscalar, ?_⟩
    have ha' : r.toUInt8 = a := (toUInt8_eq_iff (by omega)).mpr hr
    rw [encode_of_isScalar hscalar, if_pos (by omega), ha']
  | @two a b _ ha hb hr =>
    rw [OctetRange.contains_continuation_iff] at hb
    have hscalar : Rune.isScalar r = true := isScalar_iff.mpr (by omega)
    refine ⟨hscalar, ?_⟩
    have ha' : (0xC0 + r / 64).toUInt8 = a := (toUInt8_eq_iff (by omega)).mpr (by omega)
    have hb' : continuationOctet r 1 = b := continuationOctet_eq_iff.mpr (by omega)
    rw [encode_of_isScalar hscalar, if_neg (by omega), if_pos (by omega), ha', hb']
  | @three a b c _ ha hb hc hr =>
    rw [contains_second_three ha] at hb
    rw [OctetRange.contains_continuation_iff] at hc
    have hscalar : Rune.isScalar r = true := isScalar_iff.mpr (by omega)
    refine ⟨hscalar, ?_⟩
    have ha' : (0xE0 + r / 4096).toUInt8 = a := (toUInt8_eq_iff (by omega)).mpr (by omega)
    have hb' : continuationOctet r 64 = b := continuationOctet_eq_iff.mpr (by omega)
    have hc' : continuationOctet r 1 = c := continuationOctet_eq_iff.mpr (by omega)
    rw [encode_of_isScalar hscalar, if_neg (by omega), if_neg (by omega), if_pos (by omega),
      ha', hb', hc']
  | @four a b c d _ ha hb hc hd hr =>
    rw [contains_second_four ha] at hb
    rw [OctetRange.contains_continuation_iff] at hc hd
    have hscalar : Rune.isScalar r = true := isScalar_iff.mpr (by omega)
    refine ⟨hscalar, ?_⟩
    have ha' : (0xF0 + r / 262144).toUInt8 = a := (toUInt8_eq_iff (by omega)).mpr (by omega)
    have hb' : continuationOctet r 4096 = b := continuationOctet_eq_iff.mpr (by omega)
    have hc' : continuationOctet r 64 = c := continuationOctet_eq_iff.mpr (by omega)
    have hd' : continuationOctet r 1 = d := continuationOctet_eq_iff.mpr (by omega)
    rw [encode_of_isScalar hscalar, if_neg (by omega), if_neg (by omega), if_neg (by omega),
      ha', hb', hc', hd']

/-- A scalar value is written in its shortest form. -/
theorem shortest_encode {r : Nat} (hr : Rune.isScalar r = true) : Shortest (encode r) r := by
  have hbound := isScalar_iff.mp hr
  rw [encode_of_isScalar hr]
  by_cases hone : r < 0x80
  · rw [if_pos hone]
    have ha := toNat_toUInt8 (n := r) (by omega)
    exact .one (by omega) (by omega)
  rw [if_neg hone]
  -- the bound that is passed is what makes the next longer form the shortest
  have hlast := toNat_continuationOctet r 1
  by_cases htwo : r < 0x800
  · rw [if_pos htwo]
    have ha := toNat_toUInt8 (n := 0xC0 + r / 64) (by omega)
    refine .two (by omega) ?_ (by omega)
    rw [OctetRange.contains_continuation_iff]
    omega
  rw [if_neg htwo]
  have hmiddle := toNat_continuationOctet r 64
  by_cases hthree : r < 0x10000
  · rw [if_pos hthree]
    have ha := toNat_toUInt8 (n := 0xE0 + r / 4096) (by omega)
    refine .three (by omega) ?_ ?_ (by omega)
    · rw [contains_second_three (by omega)]
      omega
    · rw [OctetRange.contains_continuation_iff]
      omega
  rw [if_neg hthree]
  have hfront := toNat_continuationOctet r 4096
  have ha := toNat_toUInt8 (n := 0xF0 + r / 262144) (by omega)
  refine .four (by omega) ?_ ?_ ?_ (by omega)
  · rw [contains_second_four (by omega)]
    omega
  · rw [OctetRange.contains_continuation_iff]
    omega
  · rw [OctetRange.contains_continuation_iff]
    omega

/-- A scalar value that stands in front is decoded, whatever follows. -/
theorem decode_of_isPrefix {r : Nat} {text : Bytes} (hr : Rune.isScalar r = true) (h : encode r <+: text) :
    decode text = ⟨r, (encode r).length, true⟩ := by
  obtain ⟨rest, hrest⟩ := h
  rw [← hrest]
  exact (shortest_encode hr).decode_append rest

/-- Decoding calls a sequence well-formed if the encoding of a scalar value stands in front, and else reads a
replacement. -/
theorem decode_cases (text : Bytes) :
    (∃ r, Rune.isScalar r = true ∧ encode r <+: text ∧ decode text = ⟨r, (encode r).length, true⟩) ∨
      ((∀ r, Rune.isScalar r = true → ¬encode r <+: text) ∧ (decode text).rune = Rune.replacement ∧
        (decode text).wellFormed = false) := by
  by_cases hwell : (decode text).wellFormed = true
  · left
    obtain ⟨u, r, rest, hu, htext⟩ := exists_shortest_of_wellFormed hwell
    obtain ⟨hscalar, hencode⟩ := hu.eq_encode
    have hfront : encode r <+: text := ⟨rest, by rw [hencode, htext]⟩
    exact ⟨r, hscalar, hfront, decode_of_isPrefix hscalar hfront⟩
  · right
    refine ⟨?_, rune_of_malformed hwell, Bool.not_eq_true _ ▸ hwell⟩
    intro r hr hfront
    rw [decode_of_isPrefix hr hfront] at hwell
    exact hwell rfl

/-! ## Encoding by bits -/

namespace Bitwise

/-- The number of octets of a rune beyond ASCII. -/
def length (r : Rune) : Nat := if r < 0x800 then 2 else if r < 0x10000 then 3 else 4

/-- What marks the octet at a place of a sequence of `n`. -/
def mark (n : Nat) : Nat → Nat
  | 0 => (0xF0 <<< (4 - n)) &&& 0xF0
  | _ + 1 => 0x80

/-- The octet at a place of a sequence of `n`. -/
def octet (r : Rune) (n i : Nat) : UInt8 :=
  (((r >>> (6 * (n - i - 1))) &&& 0x3F) ||| mark n i).toUInt8

/-- The shortest form of a rune, put together from its bits. -/
def encode (r : Rune) : Bytes :=
  if r < 0x80 then [r.toUInt8]
  else if 0x110000 ≤ r ∨ r &&& 0xFFFFF800 = 0xD800 then replacementBytes
  else (List.range (length r)).map (octet r (length r))

/-- The surrogates are told by their highest bits. -/
theorem surrogate_iff {r : Nat} (h : r < 0x110000) : r &&& 0xFFFFF800 = 0xD800 ↔ 0xD800 ≤ r ∧ r ≤ 0xDFFF := by
  have hhigh : r &&& 0xFFFFF800 = r / 2 ^ 11 * 2 ^ 11 := by
    have hmask : (0xFFFFF800 : Nat) = (2 ^ 21 - 1) <<< 11 := by decide
    rw [hmask, ← Nat.shiftLeft_eq, ← Nat.shiftRight_eq_div_pow]
    apply Nat.eq_of_testBit_eq
    intro i
    rw [Nat.testBit_and, Nat.testBit_shiftLeft, Nat.testBit_shiftLeft, Nat.testBit_shiftRight,
      Nat.testBit_two_pow_sub_one]
    by_cases hi : 11 ≤ i
    · rw [Nat.add_sub_cancel' hi]
      by_cases hi' : i < 32
      · simp [hi]; omega
      · -- the mask ends where the rune does
        have hpow : 2 ^ 32 ≤ 2 ^ i := Nat.pow_le_pow_right (by decide) (by omega)
        have hzero : r.testBit i = false := Nat.testBit_lt_two_pow (by omega)
        simp [hzero]
    · simp [hi]
  rw [hhigh]
  omega

/-- Bits below a mark are added to it. -/
theorem or_mark {bits k low : Nat} (h : bits < 1 <<< k) : bits ||| low <<< k = low <<< k + bits := by
  rw [Nat.one_shiftLeft] at h
  rw [Nat.or_comm, Nat.shiftLeft_add_eq_or_of_lt h]

theorem low_bits (r : Nat) {k unit : Nat} (hunit : 1 <<< k = unit) : (r >>> k) &&& 0x3F = r / unit % 64 := by
  rw [← hunit, Nat.one_shiftLeft, Nat.shiftRight_eq_div_pow]
  exact Nat.and_two_pow_sub_one_eq_mod _ 6

/-- The bits of an octet stand below its mark. -/
theorem octet_eq {r n i lead low unit : Nat} (k : Nat) (hunit : 1 <<< (6 * (n - i - 1)) = unit)
    (hmark : mark n i = lead) (hlead : low <<< k = lead) (hr : r / unit % 64 < 1 <<< k) :
    octet r n i = (lead + r / unit % 64).toUInt8 := by
  unfold octet
  rw [low_bits r hunit, hmark, ← hlead, or_mark hr]

theorem octet_succ {r n i : Nat} (unit : Nat) (hunit : 1 <<< (6 * (n - (i + 1) - 1)) = unit) :
    octet r n (i + 1) = continuationOctet r unit :=
  octet_eq 6 hunit (show mark n (i + 1) = 0x80 from rfl) (show 2 <<< 6 = 0x80 from rfl)
    (Nat.mod_lt _ (by decide))

/-- The octets are those that `Utf8.encode` writes. -/
theorem encode_eq (r : Rune) : encode r = Utf8.encode r := by
  revert r
  show ∀ r : Nat, _
  intro r
  unfold encode Utf8.encode
  -- The bit tests agree with the bounds, and then each octet with the quotient that it stands for.
  by_cases hone : r < 0x80
  · rw [if_pos hone, if_pos hone]
  rw [if_neg hone, if_neg hone]
  by_cases hlarge : 0x110000 ≤ r
  · have hscalar : ¬Rune.isScalar r = true := by rw [isScalar_iff]; omega
    rw [if_pos (.inl hlarge), if_pos (by simp [hscalar])]
  have hbits := surrogate_iff (Nat.lt_of_not_le hlarge)
  by_cases hsurrogate : 0xD800 ≤ r ∧ r ≤ 0xDFFF
  · have hscalar : ¬Rune.isScalar r = true := by rw [isScalar_iff]; omega
    rw [if_pos (.inr (hbits.mpr hsurrogate)), if_pos (by simp [hscalar])]
  have hscalar : Rune.isScalar r = true := by rw [isScalar_iff]; omega
  have hnone : ¬(0x110000 ≤ r ∨ r &&& 0xFFFFF800 = 0xD800) := by
    rw [hbits]
    omega
  rw [if_neg hnone, if_neg (by simp [hscalar])]
  by_cases htwo : r < 0x800
  · rw [if_pos htwo]
    have hlead : octet r 2 0 = (0xC0 + r / 64 % 64).toUInt8 :=
      octet_eq 5 rfl rfl (show 6 <<< 5 = 0xC0 from rfl) (show r / 64 % 64 < 32 by omega)
    rw [Nat.mod_eq_of_lt (by omega)] at hlead
    unfold length
    rw [if_pos htwo]
    show [octet r 2 0, octet r 2 1] = _
    rw [hlead, octet_succ 1 rfl]
  rw [if_neg htwo]
  by_cases hthree : r < 0x10000
  · rw [if_pos hthree]
    have hlead : octet r 3 0 = (0xE0 + r / 4096 % 64).toUInt8 :=
      octet_eq 4 rfl rfl (show 14 <<< 4 = 0xE0 from rfl) (show r / 4096 % 64 < 16 by omega)
    rw [Nat.mod_eq_of_lt (by omega)] at hlead
    unfold length
    rw [if_neg htwo, if_pos hthree]
    show [octet r 3 0, octet r 3 1, octet r 3 2] = _
    rw [hlead, octet_succ 64 rfl, octet_succ 1 rfl]
  · rw [if_neg hthree]
    have hlead : octet r 4 0 = (0xF0 + r / 262144 % 64).toUInt8 :=
      octet_eq 3 rfl rfl (show 30 <<< 3 = 0xF0 from rfl) (show r / 262144 % 64 < 8 by omega)
    rw [Nat.mod_eq_of_lt (by omega)] at hlead
    unfold length
    rw [if_neg htwo, if_neg hthree]
    show [octet r 4 0, octet r 4 1, octet r 4 2, octet r 4 3] = _
    rw [hlead, octet_succ 4096 rfl, octet_succ 64 rfl, octet_succ 1 rfl]

end Bitwise

/-! ## Exactness -/

/-- The rune at a byte offset of a text, with the number of bytes it takes. -/
def decodeAt (text : Bytes) (pos : Nat) : Rune × Nat :=
  ((decode (text.drop pos)).rune, (decode (text.drop pos)).length)

/-- Matches one rune at a place. -/
def matchRune (c : Cursor) : Match Rune := Match.ofOption c (Terminal.rune? c.remaining)

/-- Matches one rune as the automaton reads it: a replacement counts only as its own encoding. -/
def Automaton.matchRune (c : Cursor) : Match Rune :=
  let d := Automaton.decode c.remaining
  if c.atEnd then .failure c.offset
  else if d.rune = Rune.replacement ∧ c.remaining.take d.length ≠ replacementBytes then .failure c.offset
  else .success d.rune d.length

/-- A rune is matched at a place where its encoding stands. -/
theorem matchRune_of_isPrefix {r : Nat} {c : Cursor} (hr : Rune.isScalar r = true)
    (h : encode r <+: c.remaining) : matchRune c = .success r (encode r).length := by
  unfold matchRune
  have hdecode := decode_of_isPrefix hr h
  cases hremaining : c.remaining with
  | nil =>
    rw [hremaining] at hdecode
    cases hdecode
  | cons b rest =>
    rw [hremaining] at hdecode
    rw [Terminal.rune?, hdecode]
    rfl

/-- Nothing is matched where nothing is well-formed. -/
theorem matchRune_of_malformed {c : Cursor} (h : (decode c.remaining).wellFormed = false) :
    matchRune c = .failure c.offset := by
  unfold matchRune
  cases hremaining : c.remaining with
  | nil => rfl
  | cons b rest =>
    rw [hremaining] at h
    rw [Terminal.rune?, h]
    rfl

theorem Automaton.matchRune_eq (c : Cursor) : Automaton.matchRune c = Utf8.matchRune c := by
  unfold Automaton.matchRune
  rw [Automaton.decode_eq]
  rcases decode_cases c.remaining with ⟨r, hr, hfront, hdecode⟩ | ⟨hnone, hrune, hmalformed⟩
  · have hend : c.atEnd ≠ true := by
      intro hend
      have hnil : c.remaining = [] := List.isEmpty_iff.mp hend
      rw [hnil] at hdecode
      cases hdecode
    have htake : c.remaining.take (encode r).length = encode r := (List.prefix_iff_eq_take.mp hfront).symm
    rw [matchRune_of_isPrefix hr hfront, hdecode, if_neg hend, if_neg]
    rintro ⟨hreplacement, hother⟩
    have hsame : r = Rune.replacement := hreplacement
    subst hsame
    exact hother htake
  · rw [matchRune_of_malformed hmalformed]
    by_cases hend : c.atEnd = true
    · rw [if_pos hend]
    · rw [if_neg hend, if_pos]
      refine ⟨hrune, ?_⟩
      intro htake
      -- the encoding of a replacement would stand in front
      refine hnone Rune.replacement (by decide) ?_
      show replacementBytes <+: c.remaining
      rw [← htake]
      exact List.take_prefix _ _

/-- **UTF-8 is coded exactly.** The automaton reads what `decode` reads, and the same octets are written bit
by bit; what stands for a scalar value is decoded to it and matched as it, whatever follows; anything else is decoded
to a replacement, of at least a byte and no more than there are, and not matched; what is no scalar value is written
as a replacement. -/
theorem coding_exact :
    (∀ (text : Bytes) (c : Cursor), Automaton.decode text = decode text ∧
      Automaton.matchRune c = matchRune c) ∧
    (∀ r : Rune, Bitwise.encode r = encode r) ∧
    (∀ (r : Rune) (tail : Bytes), r.isScalar = true →
      decodeAt (encode r ++ tail) 0 = (r, (encode r).length)) ∧
    (∀ (text : Bytes) (pos : Nat), pos < text.length →
      (∀ r : Rune, r.isScalar = true → encode r <+: text.drop pos →
        decodeAt text pos = (r, (encode r).length) ∧
          matchRune (Cursor.ofText text pos) = .success r (encode r).length) ∧
      ((∀ r : Rune, r.isScalar = true → ¬encode r <+: text.drop pos) →
        (decodeAt text pos).1 = Rune.replacement ∧ 1 ≤ (decodeAt text pos).2 ∧
          (decodeAt text pos).2 ≤ text.length - pos ∧
          matchRune (Cursor.ofText text pos) = .failure pos)) ∧
    (∀ r : Rune, r.isScalar = false → encode r = encode Rune.replacement) := by
  refine ⟨fun text c => ⟨Automaton.decode_eq text, Automaton.matchRune_eq c⟩, Bitwise.encode_eq, ?_, ?_, ?_⟩
  · intro r tail hr
    unfold decodeAt
    rw [List.drop_zero, decode_of_isPrefix hr (List.prefix_append _ _)]
  · intro text pos hpos
    constructor
    · intro r hr hfront
      unfold decodeAt
      rw [decode_of_isPrefix hr hfront]
      exact ⟨rfl, matchRune_of_isPrefix hr hfront⟩
    · intro hnone
      rcases decode_cases (text.drop pos) with ⟨r, hr, hfront, -⟩ | ⟨-, hrune, hmalformed⟩
      · exact absurd hfront (hnone r hr)
      have hne : text.drop pos ≠ [] := by
        rw [Ne, List.drop_eq_nil_iff]
        omega
      have hlength := length_decode_le (text.drop pos)
      rw [List.length_drop] at hlength
      have hmatch := matchRune_of_malformed (c := Cursor.ofText text pos) hmalformed
      rw [Cursor.offset_ofText, Nat.min_eq_left (Nat.le_of_lt hpos)] at hmatch
      exact ⟨hrune, length_decode_pos hne, hlength, hmatch⟩
  · intro r hr
    exact encode_of_not_isScalar hr

theorem coding_exact_euro :
    decodeAt [0x78, 0xE2, 0x82, 0xAC, 0x82] 1 = (0x20AC, 3) ∧
      matchRune (Cursor.ofText [0x78, 0xE2, 0x41] 1) = .failure 1 ∧
      encode 0xDFFF = [0xEF, 0xBF, 0xBD] := by
  refine ⟨?_, ?_, ?_⟩
  · exact ((coding_exact.2.2.2.1 [0x78, 0xE2, 0x82, 0xAC, 0x82] 1 (by decide)).1 0x20AC (by decide) (by decide)).1
  · refine ((coding_exact.2.2.2.1 [0x78, 0xE2, 0x41] 1 (by decide)).2 ?_).2.2.2
    intro r hr hfront
    have hwell := congrArg Decoded.wellFormed (decode_of_isPrefix hr hfront)
    exact Bool.false_ne_true hwell
  · exact coding_exact.2.2.2.2 0xDFFF (by decide)

end Utf8

/-- An ASCII character is the rune in front of whatever it stands in front of. -/
theorem Terminal.rune?_ascii {b : UInt8} (hb : b < 0x80) (rest : Bytes) :
    Terminal.rune? (b :: rest) = some (b.toNat, 1) := by
  rw [Terminal.rune?, Utf8.decode_ascii hb]
  rfl

end Packrat
