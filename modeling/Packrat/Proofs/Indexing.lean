import Packrat.Proofs.Brackets
import Packrat.Proofs.Origins
import Packrat.Proofs.Scanning

/-!
# `Packrat.Proofs.Indexing` — spellings are read within their bounds

The readers of `Packrat.Spelling` take characters from the front of a text, and cannot leave it. Here a spelling stays
whole and is read by offsets: bytes are looked up by their index, code points are collected in words of 32 bits, and
a loop goes on until it is told to end. Where an index is out of range, where a shift loses bits, and where a loop
never ends, there is no answer. The readers are shown to answer all the same, each what its counterpart does.

## Contents
- **Classes.** The ranges of a class, a step at a time.
- **Words.** `shiftLeft?` and `shiftRight?`, which lose no bits.
- **Offsets.** What remains at an offset of a text, and `Loop`, which goes on from there.
- **Decoding.** `decodeAt?`, the automaton with its tables, follows `Utf8.decode`.
- **One character.** `readAt?` follows `Spelled.read`, which takes at least a byte and at most all of them.
- **Loops.** `unescape?`, `matchLiteral?` and `parseClass?` read one character after the other.
- **Bounds.** `readers_answer`.
-/

namespace Packrat

variable {s t text body : Bytes} {i pos : Nat}

namespace CharClass

/-! ## Classes -/

/-- What stands behind a dash at the front, if anything does. -/
def dashed? : Bytes → Option Bytes
  | b :: letter :: rest => if b == Bytes.char '-' then some (letter :: rest) else none
  | _ => none

theorem eq_of_dashed? {u : Bytes} (h : dashed? t = some u) : t = Bytes.char '-' :: u ∧ u ≠ [] := by
  match t with
  | [] => cases h
  | [b] => cases h
  | b :: letter :: rest =>
    rw [dashed?] at h
    split at h
    · next hb =>
      cases h
      exact ⟨congrArg (· :: letter :: rest) (eq_of_beq hb), List.cons_ne_nil _ _⟩
    · cases h

/-- The ranges of a class are read one after the other: two characters with a dash between them, or one alone. -/
theorem ranges?_of_ne_nil (h : t ≠ []) :
    ranges? (Spelled.all t) =
      match dashed? (t.drop (Spelled.read t).length) with
      | some u =>
        if (Spelled.read u).rune < (Spelled.read t).rune then none
        else (ranges? (Spelled.all (u.drop (Spelled.read u).length))).map
          (⟨(Spelled.read t).rune, (Spelled.read u).rune⟩ :: ·)
      | none =>
        (ranges? (Spelled.all (t.drop (Spelled.read t).length))).map
          (⟨(Spelled.read t).rune, (Spelled.read t).rune⟩ :: ·) := by
  rw [Spelled.all_of_ne_nil h]
  match t.drop (Spelled.read t).length with
  | [] => rfl
  | [b] => rfl
  | b :: letter :: rest =>
    rw [dashed?]
    by_cases hb : (b == Bytes.char '-') = true
    · rw [if_pos hb, eq_of_beq hb, Spelled.all_ascii (by decide) (by decide),
        Spelled.all_of_ne_nil (List.cons_ne_nil letter rest), ranges?, if_pos (by decide)]
    · rw [if_neg hb]
      refine ranges?_cons _ fun dash hdash => Bool.eq_false_iff.mpr fun hbare => hb ?_
      rw [Spelled.all_of_ne_nil (List.cons_ne_nil b _)] at hdash
      cases hdash
      rw [Spelled.front_of_isBare (by decide) hbare, beq_self_eq_true]

theorem drop_splitCaret (body : Bytes) :
    body.drop (if (splitCaret body).1 then 1 else 0) = (splitCaret body).2 := by
  cases body with
  | nil => rfl
  | cons b rest =>
    rw [splitCaret]
    split <;> rfl

end CharClass

namespace Indexed

open Utf8.Automaton (accept reject classes transitions classOf next shift owed pending run)

/-! ## Words -/

/-- A word of 32 bits, shifted to the left. There is none if a bit is lost, or becomes the sign of a signed word. -/
def shiftLeft? (w : UInt32) (k : Nat) : Option UInt32 :=
  if k < 32 ∧ w.toNat <<< k < 2 ^ 31 then some (w <<< k.toUInt32) else none

/-- A word of 32 bits, shifted to the right. There is none if it is shifted by more places than it has. -/
def shiftRight? (w : UInt32) (k : Nat) : Option UInt32 := if k < 32 then some (w >>> k.toUInt32) else none

theorem shiftLeft?_eq {w : UInt32} {k : Nat} (hk : k < 32) (hw : w.toNat <<< k < 2 ^ 31) :
    ∃ v, shiftLeft? w k = some v ∧ v.toNat = w.toNat <<< k := by
  refine ⟨_, if_pos ⟨hk, hw⟩, ?_⟩
  have hplaces : k.toUInt32.toNat = k := UInt32.toNat_ofNat_of_lt' (Nat.lt_trans hk (by decide))
  rw [UInt32.toNat_shiftLeft, hplaces, Nat.mod_eq_of_lt hk, Nat.mod_eq_of_lt (by omega)]

theorem shiftRight?_eq (w : UInt32) {k : Nat} (hk : k < 32) :
    ∃ v, shiftRight? w k = some v ∧ v.toNat = w.toNat >>> k := by
  refine ⟨_, if_pos hk, ?_⟩
  have hplaces : k.toUInt32.toNat = k := UInt32.toNat_ofNat_of_lt' (Nat.lt_trans hk (by decide))
  rw [UInt32.toNat_shiftRight, hplaces, Nat.mod_eq_of_lt hk]

/-! ## Offsets -/

theorem length_of_drop (h : s.drop i = t) : s.length - i = t.length := by rw [← h, List.length_drop]

theorem le_of_drop (h : s.drop i = []) : s.length ≤ i := List.drop_eq_nil_iff.mp h

theorem lt_of_drop (h : s.drop i = t) (hne : t ≠ []) : i < s.length := by
  have hlength := length_of_drop h
  have hpos := List.length_pos_iff.mpr hne
  omega

/-- What remains further on. -/
theorem drop_add (h : s.drop i = t) (n : Nat) : s.drop (i + n) = t.drop n := by rw [← h, List.drop_drop]

/-- The byte at an offset, and what remains behind it. -/
theorem of_drop_cons {b : UInt8} (h : s.drop i = b :: t) : i < s.length ∧ s[i]? = some b ∧ s.drop (i + 1) = t := by
  have hlength := length_of_drop h
  rw [List.length_cons] at hlength
  refine ⟨by omega, ?_, ?_⟩
  · rw [← List.head?_drop, h, List.head?_cons]
  · rw [← List.tail_drop, h, List.tail_cons]

/-- A loop, which goes on from what it is run with. There is no answer if it leaves its bounds, nor if it never ends. -/
abbrev Loop (ι ρ : Type) := ReaderT ι Option ρ

/-! ## Decoding -/

/-- The state behind an octet, and the bits read by then. -/
def octet? (state : Nat) (bits : UInt32) (b : UInt8) : Option (Nat × UInt32) := do
  let octetClass ← classes[b.toNat]?
  let behind ← transitions[state + octetClass]?
  if state = accept then return (behind, b.toUInt32 &&& (← shiftRight? 0xFF octetClass))
  else return (behind, (b.toUInt32 &&& 0x3F) ||| (← shiftLeft? bits 6))

section

variable (s : Bytes)

/-- The offset of the first octet, from an offset on, at which a sequence may start. -/
def leadFrom? : Loop Nat Nat := fun i => do
  if i < s.length then
    if Utf8.isLead (← s[i]?) then return i else leadFrom?.run (i + 1)
  else return i
partial_fixpoint

/-- Reads octets from an offset on, until a rune is complete or a sequence is broken. -/
def decodeFrom? : Loop (Nat × UInt32 × Nat) (Rune × Nat) := fun (state, bits, i) => do
  if i < s.length ∧ state ≠ reject then
    let (state, bits) ← octet? state bits (← s[i]?)
    if state = accept then return (bits.toNat, i + 1) else decodeFrom?.run (state, bits, i + 1)
  else return (Rune.replacement, ← leadFrom? s i)
partial_fixpoint

/-- The rune at an offset, with the number of bytes that it takes. -/
def decodeAt? (pos : Nat) : Option (Rune × Nat) := do
  let (r, stop) ← decodeFrom? s (accept, 0, pos)
  return (r, stop - pos)

end

/-- The octets of a text have their classes in the table, and a state that asks for octets has one behind each. -/
theorem classes_getElem? (b : UInt8) : classes[b.toNat]? = some (classOf b) := by
  have hall := forall_byte (p := fun b => classes[b.toNat]? == some (classOf b)) (by decide +kernel) b
  exact eq_of_beq hall

theorem transitions_getElem? {state : Nat} (h : state ∈ accept :: pending) (b : UInt8) :
    transitions[state + classOf b]? = some (next state b) := by
  have hall := forall_byte (p := fun b => (accept :: pending).all fun state =>
    transitions[state + classOf b]? == some (next state b)) (by decide +kernel) b
  exact eq_of_beq (List.all_eq_true.mp hall state h)

theorem classOf_lt (b : UInt8) : classOf b < 32 := by
  have hall := forall_byte (p := fun b => decide (classOf b < 32)) (by decide +kernel) b
  exact of_decide_eq_true hall

/-- The tables have an entry for every octet, and the shifts lose no bits. -/
theorem octet?_eq {state : Nat} {bits : UInt32} (hstate : state ∈ accept :: pending)
    (hbits : state ≠ accept → bits.toNat <<< 6 < 2 ^ 31) (b : UInt8) :
    ∃ v, octet? state bits b = some (next state b, v) ∧
      v.toNat = shift state bits.toNat b := by
  unfold octet? shift
  rw [classes_getElem?]
  simp only [Option.bind_eq_bind, Option.bind_some, transitions_getElem? hstate]
  by_cases haccept : state = accept
  · obtain ⟨mask, hmask, hvalue⟩ := shiftRight?_eq 0xFF (classOf_lt b)
    rw [if_pos haccept, if_pos haccept, hmask]
    refine ⟨_, rfl, ?_⟩
    rw [UInt32.toNat_and, hvalue, UInt8.toNat_toUInt32]
    rfl
  · obtain ⟨high, hhigh, hvalue⟩ := shiftLeft?_eq (k := 6) (by decide) (hbits haccept)
    rw [if_neg haccept, if_neg haccept, hhigh]
    refine ⟨_, rfl, ?_⟩
    rw [UInt32.toNat_or, UInt32.toNat_and, hvalue, UInt8.toNat_toUInt32]
    rfl

theorem leadFrom?_eq (h : s.drop i = t) : leadFrom? s i = some (i + (t.takeWhile (!Utf8.isLead ·)).length) := by
  induction t generalizing i with
  | nil =>
    rw [leadFrom?, if_neg (Nat.not_lt_of_le (le_of_drop h))]
    rfl
  | cons b t ih =>
    obtain ⟨hlt, hbyte, hbehind⟩ := of_drop_cons h
    rw [leadFrom?, if_pos hlt, hbyte]
    simp only [ReaderT.run, Option.bind_eq_bind, Option.bind_some]
    cases hlead : Utf8.isLead b with
    | true =>
      rw [if_pos rfl, List.takeWhile_cons_of_neg (by simp [hlead])]
      rfl
    | false =>
      rw [if_neg Bool.false_ne_true, ih hbehind, List.takeWhile_cons_of_pos (by simp [hlead]), List.length_cons]
      congr 1
      omega

/-- A state is not behind a broken sequence, and there is room for the bits of all the octets that it asks for. -/
structure Room (state bits : Nat) : Prop where
  whole : state ∈ accept :: pending
  fits : (bits + 1) * 64 ^ (owed state).length ≤ 2 ^ 31

/-- A lead octet leaves room for what it announces. -/
theorem room_lead (b : UInt8) :
    next accept b = accept ∨ next accept b = reject ∨ Room (next accept b) (shift accept 0 b) := by
  have hall := forall_byte (p := fun b => next accept b == accept || next accept b == reject ||
    (decide (next accept b ∈ accept :: pending) &&
      decide ((shift accept 0 b + 1) * 64 ^ (owed (next accept b)).length ≤ 2 ^ 31))) (by decide +kernel) b
  simp only [Bool.or_eq_true, Bool.and_eq_true, beq_iff_eq, decide_eq_true_eq, or_assoc] at hall
  exact hall.imp id (Or.imp id fun h => ⟨h.1, h.2⟩)

namespace Room

variable {state bits : Nat}

theorem ne_reject (h : Room state bits) : state ≠ reject := by
  rintro rfl
  exact absurd h.whole (by decide)

/-- Where octets are asked for, six more bits fit. -/
theorem shiftLeft_lt (h : Room state bits) (hstate : state ≠ accept) : bits <<< 6 < 2 ^ 31 := by
  have hpending : state ∈ pending := (List.mem_cons.mp h.whole).resolve_left hstate
  have howed : owed state ≠ [] := (by decide : ∀ state ∈ pending, owed state ≠ []) state hpending
  obtain ⟨range, follow, hfollow⟩ := List.exists_cons_of_ne_nil howed
  have hbits := h.fits
  rw [hfollow, List.length_cons, Nat.pow_succ', ← Nat.mul_assoc] at hbits
  have hpow : (bits + 1) * 64 ≤ (bits + 1) * 64 * 64 ^ follow.length :=
    Nat.le_mul_of_pos_right _ (Nat.pow_pos (by decide))
  rw [Nat.shiftLeft_eq]
  omega

/-- An octet completes a rune, breaks a sequence, or leaves room for the octets behind it. -/
theorem step (h : Room state bits) (b : UInt8) :
    next state b = accept ∨ next state b = reject ∨ Room (next state b) (shift state bits b) := by
  rcases List.mem_cons.mp h.whole with rfl | hpending
  · -- whatever was read before is dropped
    exact room_lead b
  · have hnext := List.all_eq_true.mp (Utf8.Automaton.next_pending b) state hpending
    cases howed : owed state with
    | nil =>
      rw [howed] at hnext
      cases hnext
    | cons range follow =>
      rw [howed] at hnext
      simp only at hnext
      by_cases hrange : range.contains b = true
      · rw [if_pos hrange, Bool.and_eq_true] at hnext
        cases follow with
        | nil => exact .inl (Utf8.Automaton.asksFor_nil hnext.1)
        | cons range' follow =>
          obtain ⟨hmore, howed'⟩ := Utf8.Automaton.asksFor_cons hnext.1
          refine .inr (.inr ⟨List.mem_cons_of_mem _ hmore, ?_⟩)
          obtain ⟨hfirst, hlast⟩ := Utf8.OctetRange.contains_continuation_iff.mp hnext.2
          rw [Utf8.Automaton.shift_continuation (Utf8.Automaton.ne_accept_of_pending hpending) hnext.2, howed']
          have hbits := h.fits
          rw [howed, List.length_cons, Nat.pow_succ', ← Nat.mul_assoc] at hbits
          exact Nat.le_trans (Nat.mul_le_mul_right _ (by omega)) hbits
      · rw [if_neg hrange] at hnext
        exact .inr (.inl (eq_of_beq hnext))

end Room

/-- Octets are read as the automaton reads them. -/
theorem decodeFrom?_eq {state start n : Nat} {bits : UInt32} (hroom : Room state bits.toNat)
    (h : s.drop (start + n) = t) :
    decodeFrom? s (state, bits, start + n) =
      some ((run state bits.toNat n t).rune, start + (run state bits.toNat n t).length) := by
  induction t generalizing state bits n with
  | nil =>
    rw [decodeFrom?]
    simp only
    rw [if_neg (fun hlt => Nat.not_lt_of_le (le_of_drop h) hlt.1), leadFrom?_eq h]
    rfl
  | cons b t ih =>
    obtain ⟨hlt, hbyte, hbehind⟩ := of_drop_cons h
    obtain ⟨v, hoctet, hv⟩ := octet?_eq hroom.whole hroom.shiftLeft_lt b
    rw [decodeFrom?, run]
    simp only [ReaderT.run, if_pos (And.intro hlt hroom.ne_reject), hbyte, Option.bind_eq_bind, Option.bind_some,
      hoctet, ← hv]
    rcases hroom.step b with haccept | hreject | hmore
    · rw [if_pos haccept, if_pos haccept]
      rfl
    · -- the loop ends at the state, and goes on to where a sequence may start
      have hne : next state b ≠ accept := by
        rw [hreject]
        decide
      rw [if_neg hne, if_neg hne, if_pos hreject, hreject, decodeFrom?]
      simp only
      rw [if_neg (fun hlt => hlt.2 rfl), leadFrom?_eq hbehind]
      simp only [Utf8.malformed, Nat.add_assoc]
      rfl
    · rw [← hv] at hmore
      by_cases haccept : next state b = accept
      · rw [if_pos haccept, if_pos haccept]
        rfl
      · rw [if_neg haccept, if_neg haccept, if_neg hmore.ne_reject, Nat.add_assoc]
        exact ih hmore hbehind

theorem decodeAt?_eq (s : Bytes) (pos : Nat) : decodeAt? s pos = some (Utf8.decodeAt s pos) := by
  have hroom : Room accept (0 : UInt32).toNat := ⟨List.mem_cons_self, by decide⟩
  have hremains : s.drop (pos + 0) = s.drop pos := rfl
  have hdecode := decodeFrom?_eq hroom hremains
  have hrun : run accept (0 : UInt32).toNat 0 (s.drop pos) = Utf8.decode (s.drop pos) :=
    Utf8.Automaton.decode_eq (s.drop pos)
  simp only [hrun, Nat.add_zero] at hdecode
  unfold decodeAt?
  simp only [hdecode, Option.bind_eq_bind, Option.bind_some, Nat.add_sub_cancel_left]
  rfl

/-! ## One character -/

section

variable (s : Bytes)

/-- The hexadecimal digits from an offset on, up to the one that takes the value above the largest code point. -/
def hexFrom? : Loop (UInt32 × Nat) (UInt32 × Nat) := fun (value, i) => do
  if i < s.length then
    match hexDigit? (← s[i]?) with
    | none => return (value, i)
    | some d =>
      if value.toNat ≤ Rune.maximum then hexFrom?.run ((← shiftLeft? value 4) ||| d.toUInt32, i + 1)
      else return (value, i)
  else return (value, i)
partial_fixpoint

/-- The escape by two hexadecimal digits, if it is complete. -/
def twoHexAt? (pos : Nat) : Option (Option Spelled) := do
  if pos + 3 < s.length then
    match hexDigit? (← s[pos + 2]?), hexDigit? (← s[pos + 3]?) with
    | some x, some y => return some ⟨((← shiftLeft? x.toUInt32 4) ||| y.toUInt32).toNat, 4, true⟩
    | _, _ => return none
  else return none

/-- The escape by hexadecimal digits in braces, if it is complete. -/
def bracedHexAt? (pos : Nat) : Option (Option Spelled) := do
  if pos + 2 < s.length then
    if (← s[pos + 2]?) == Bytes.char '\x7b' then
      let (value, i) ← hexFrom? s (0, pos + 3)
      if pos + 3 < i ∧ i < s.length then
        if (← s[i]?) == Bytes.char '\x7d' && value.toNat ≤ Rune.maximum then
          return some ⟨value.toNat, i + 1 - pos, true⟩
        else return none
      else return none
    else return none
  else return none

/-- The escape whose letter stands behind a backslash, if it is complete. -/
def specialAt? (pos : Nat) : Option (Option Spelled) := do
  let letter ← s[pos + 1]?
  if letter == Bytes.char 'n' then return some ⟨0x0A, 2, true⟩
  else if letter == Bytes.char 'r' then return some ⟨0x0D, 2, true⟩
  else if letter == Bytes.char 't' then return some ⟨0x09, 2, true⟩
  else if letter == Bytes.char '0' then return some ⟨0, 2, true⟩
  else if letter == Bytes.char 'x' then twoHexAt? s pos
  else if letter == Bytes.char 'u' then bracedHexAt? s pos
  else return none

/-- The character at an offset. -/
def readAt? (pos : Nat) : Option Spelled := do
  if (← s[pos]?) != Bytes.char '\\' || s.length ≤ pos + 1 then
    let (r, n) ← decodeAt? s pos
    return ⟨r, n, false⟩
  else
    match ← specialAt? s pos with
    | some c => return c
    | none =>
      let (r, n) ← decodeAt? s (pos + 1)
      return ⟨r, n + 1, true⟩

end

/-- A digit behind a value that is no larger than a code point needs no more bits than there are. -/
theorem hexStep_eq {value : UInt32} {d : Nat} (hvalue : value.toNat ≤ Rune.maximum) (hd : d < 16) :
    ∃ v, shiftLeft? value 4 = some v ∧ (v ||| d.toUInt32).toNat = 16 * value.toNat + d := by
  have hsmall : value.toNat ≤ 0x10FFFF := hvalue
  have hfits : value.toNat <<< 4 < 2 ^ 31 := by
    rw [Nat.shiftLeft_eq]
    omega
  obtain ⟨v, hv, htoNat⟩ := shiftLeft?_eq (by decide) hfits
  have hdigit : d.toUInt32.toNat = d := UInt32.toNat_ofNat_of_lt' (Nat.lt_trans hd (by decide))
  refine ⟨v, hv, ?_⟩
  rw [UInt32.toNat_or, htoNat, hdigit, ← Nat.shiftLeft_add_eq_or_of_lt hd, Nat.shiftLeft_eq]
  omega

/-- Digits are read as `Spelled.hexRun` reads them. -/
theorem hexFrom?_eq (value : UInt32) {start n m : Nat} {r : Rune} {more : Bytes} (h : s.drop (start + n) = t)
    (hrun : Spelled.hexRun value.toNat n t = (r, m, more)) :
    ∃ v, hexFrom? s (value, start + n) = some (v, start + m) ∧ v.toNat = r ∧ s.drop (start + m) = more := by
  induction t generalizing value n with
  | nil =>
    cases hrun
    rw [hexFrom?]
    simp only [if_neg (Nat.not_lt_of_le (le_of_drop h))]
    exact ⟨value, rfl, rfl, h⟩
  | cons b t ih =>
    obtain ⟨hlt, hbyte, hbehind⟩ := of_drop_cons h
    rw [hexFrom?]
    simp only [ReaderT.run, if_pos hlt, hbyte, Option.bind_eq_bind, Option.bind_some]
    rw [Spelled.hexRun] at hrun
    cases hdigit : hexDigit? b with
    | none =>
      rw [hdigit, ite_self] at hrun
      cases hrun
      exact ⟨value, rfl, rfl, h⟩
    | some d =>
      rw [hdigit] at hrun
      -- beyond the largest rune no digit is read, so that the word never overflows
      by_cases hsmall : value.toNat ≤ Rune.maximum
      · obtain ⟨v, hv, htoNat⟩ := hexStep_eq hsmall (hexDigit?_ascii hdigit).2.2
        rw [if_pos hsmall] at hrun
        simp only [if_pos hsmall, hv, Option.bind_some]
        refine ih _ (n := n + 1) hbehind ?_
        rw [htoNat]
        exact hrun
      · rw [if_neg hsmall] at hrun
        cases hrun
        simp only [if_neg hsmall]
        exact ⟨value, rfl, rfl, h⟩

theorem twoHexAt?_eq (h : s.drop (pos + 2) = t) :
    twoHexAt? s pos = some ((Spelled.twoHex? t).map fun r => ⟨r, 4, true⟩) := by
  have hlength := length_of_drop h
  unfold twoHexAt?
  match t with
  | [] =>
    rw [List.length_nil] at hlength
    rw [if_neg (by omega)]
    rfl
  | [a] =>
    rw [List.length_singleton] at hlength
    rw [if_neg (by omega)]
    rfl
  | a :: b :: u =>
    rw [List.length_cons, List.length_cons] at hlength
    obtain ⟨-, ha, hbehind⟩ := of_drop_cons h
    obtain ⟨-, hb, -⟩ := of_drop_cons hbehind
    rw [if_pos (by omega), Spelled.twoHex?]
    simp only [Option.bind_eq_bind, ha, hb, Option.bind_some]
    cases hx : hexDigit? a with
    | none => rfl
    | some x =>
      cases hy : hexDigit? b with
      | none => rfl
      | some y =>
        have hxlt := (hexDigit?_ascii hx).2.2
        have hvalue : x.toUInt32.toNat = x := UInt32.toNat_ofNat_of_lt' (Nat.lt_trans hxlt (by decide))
        have hsmall : x.toUInt32.toNat ≤ Rune.maximum := by
          rw [hvalue]
          exact Nat.le_trans (Nat.le_of_lt hxlt) (by decide)
        obtain ⟨v, hv, htoNat⟩ := hexStep_eq hsmall (hexDigit?_ascii hy).2.2
        rw [hvalue] at htoNat
        simp only [hv, Option.bind_some, htoNat]
        rfl

theorem bracedHexAt?_eq (h : s.drop (pos + 2) = t) :
    bracedHexAt? s pos = some ((Spelled.bracedHex? t).map fun (r, n) => ⟨r, n + 2, true⟩) := by
  unfold bracedHexAt?
  cases t with
  | nil =>
    rw [if_neg (Nat.not_lt_of_le (le_of_drop h))]
    rfl
  | cons b t =>
    obtain ⟨hlt, hbyte, hbehind⟩ := of_drop_cons h
    rw [if_pos hlt, hbyte, Spelled.bracedHex?]
    simp only [Option.bind_eq_bind, Option.bind_some]
    by_cases hopen : (b == Bytes.char '\x7b') = true
    · rw [if_pos hopen, if_pos hopen]
      have hdigits : s.drop (pos + 3 + 0) = t := hbehind
      obtain ⟨r, m, more, hrun⟩ : ∃ r m more, Spelled.hexRun 0 0 t = (r, m, more) := ⟨_, _, _, rfl⟩
      obtain ⟨v, hhex, rfl, hmore⟩ := hexFrom?_eq 0 hdigits hrun
      rw [Nat.add_zero] at hhex
      simp only [hhex, hrun, Option.bind_some]
      cases m with
      | zero =>
        rw [if_neg (fun hsome => Nat.lt_irrefl _ hsome.1)]
        rfl
      | succ n =>
        cases more with
        | nil =>
          rw [if_neg (fun hsome => Nat.not_lt_of_le (le_of_drop hmore) hsome.2)]
          rfl
        | cons close more =>
          obtain ⟨hlt, hclose, -⟩ := of_drop_cons hmore
          rw [if_pos ⟨by omega, hlt⟩, hclose]
          simp only [Option.bind_some]
          have hlength : pos + 3 + (n + 1) + 1 - pos = n + 3 + 2 := by omega
          rw [hlength]
          split <;> rfl
    · rw [if_neg hopen, if_neg hopen]
      rfl

theorem specialAt?_eq {letter : UInt8} (h : s.drop (pos + 1) = letter :: t) :
    specialAt? s pos = some (Spelled.special? letter t) := by
  obtain ⟨-, hletter, hbehind⟩ := of_drop_cons h
  unfold specialAt? Spelled.special?
  rw [hletter]
  simp only [Option.bind_eq_bind, Option.bind_some, twoHexAt?_eq hbehind, bracedHexAt?_eq hbehind]
  split_ifs <;> rfl

/-- A character is read by indices as it is read from what remains. -/
theorem readAt?_eq (hpos : pos < s.length) : readAt? s pos = some (Spelled.read (s.drop pos)) := by
  have hplain : (do
      let (r, n) ← decodeAt? s pos
      return (⟨r, n, false⟩ : Spelled)) = some (Spelled.plain (s.drop pos)) := by
    rw [decodeAt?_eq]
    rfl
  unfold readAt?
  match hdrop : s.drop pos with
  | [] => exact absurd hpos (Nat.not_lt_of_le (le_of_drop hdrop))
  | [b] =>
    obtain ⟨-, hbyte, hbehind⟩ := of_drop_cons hdrop
    rw [hdrop] at hplain
    simp only [hbyte, Option.bind_eq_bind, Option.bind_some]
    rw [if_pos]
    · exact hplain
    · rw [decide_eq_true (le_of_drop hbehind), Bool.or_true]
  | b :: letter :: rest =>
    obtain ⟨-, hbyte, hbehind⟩ := of_drop_cons hdrop
    obtain ⟨hlt, -, -⟩ := of_drop_cons hbehind
    rw [hdrop] at hplain
    simp only [hbyte, Option.bind_eq_bind, Option.bind_some]
    rw [decide_eq_false (Nat.not_le_of_lt hlt), Bool.or_false, Spelled.read]
    by_cases hb : (b == Bytes.char '\\') = true
    · rw [if_neg (by simp [bne, hb]), if_pos hb, specialAt?_eq hbehind, decodeAt?_eq]
      simp only [Option.bind_some]
      cases Spelled.special? letter rest with
      | some c => rfl
      | none =>
        rw [Utf8.decodeAt, hbehind]
        rfl
    · rw [if_pos (by simp [bne, hb]), if_neg hb]
      exact hplain

/-! ## Loops -/

section

variable (spelling : Bytes)

/-- The text that the characters from an offset on denote, behind a text. -/
def unescapeFrom? : Loop (Nat × Bytes) Bytes := fun (i, denoted) => do
  if i < spelling.length then
    let c ← readAt? spelling i
    unescapeFrom?.run (i + c.length, denoted ++ Utf8.encode c.rune)
  else return denoted
partial_fixpoint

/-- The text that a spelling denotes. -/
def unescape? : Option Bytes := unescapeFrom? spelling (0, [])

end

theorem unescapeFrom?_eq (h : s.drop i = t) (denoted : Bytes) :
    unescapeFrom? s (i, denoted) = some (denoted ++ unescape t) := by
  induction t using Spelled.allInduction generalizing i denoted with
  | nil =>
    rw [unescapeFrom?]
    simp only [if_neg (Nat.not_lt_of_le (le_of_drop h))]
    exact congrArg some (List.append_nil denoted).symm
  | cons t hne ih =>
    have hlt := lt_of_drop h hne
    rw [unescapeFrom?]
    simp only [ReaderT.run, if_pos hlt, readAt?_eq hlt, h, Option.bind_eq_bind, Option.bind_some]
    rw [ih _ (Nat.le_refl _) (drop_add h _), List.append_assoc, unescape, unescape, Spelled.all_of_ne_nil hne,
      List.flatMap_cons]

/-- Matches one rune at a place: a replacement counts only as its own encoding. -/
def matchRune? (c : Cursor) : Option (Match Rune) := do
  if c.atEnd then return .failure c.offset
  else
    let (r, n) ← decodeAt? c.input c.offset
    if r = Rune.replacement ∧ c.remaining.take n ≠ Utf8.replacementBytes then return .failure c.offset
    else return .success r n

section

variable (start : Cursor) (spelling : Bytes) (braceSensitive caseless : Bool)

/-- Matches the characters of a spelling from an offset on, where those before have been matched up to a place. -/
def matchFrom? : Loop (Nat × Cursor) (Match Bytes) := fun (i, next) => do
  if i < spelling.length then
    let expected ← readAt? spelling i
    if braceSensitive && expected.isBareBrace then return .failure start.offset
    else
      match ← matchRune? next with
      | .failure _ => return .failure start.offset
      | .success r n =>
        if Terminal.agree caseless r expected.rune then
          matchFrom?.run (i + expected.length, next.advance n)
        else return .failure start.offset
  else return .success (next.textFrom start.offset) (next.offset - start.offset)
partial_fixpoint

/-- Matches the text that a spelling denotes at a place. -/
def matchLiteral? : Option (Match Bytes) := matchFrom? start spelling braceSensitive caseless (0, start)

end

theorem matchRune?_eq (c : Cursor) : matchRune? c = some (Utf8.matchRune c) := by
  rw [← Utf8.Automaton.matchRune_eq]
  unfold matchRune? Utf8.Automaton.matchRune
  rw [decodeAt?_eq, Utf8.decodeAt, ← c.remaining_eq, Utf8.Automaton.decode_eq]
  simp only [Option.bind_eq_bind, Option.bind_some]
  split_ifs <;> rfl

theorem matchFrom?_eq {start next : Cursor} (hcross : start.Crosses text next) (h : s.drop i = t)
    (braceSensitive caseless : Bool) :
    matchFrom? start s braceSensitive caseless (i, next) = some (Match.ofLength start
      ((Terminal.scan? t braceSensitive caseless next.remaining).map (text.length + ·))) := by
  induction t using Spelled.allInduction generalizing i next text with
  | nil =>
    rw [matchFrom?]
    simp only [if_neg (Nat.not_lt_of_le (le_of_drop h))]
    rw [hcross.textFrom, hcross.offset, Nat.add_sub_cancel_left]
    show some (Match.success text text.length) = some (Match.success (start.remaining.take text.length) text.length)
    rw [hcross.remaining, List.take_left]
  | cons t hne ih =>
    have hlt := lt_of_drop h hne
    rw [matchFrom?, Terminal.scan?_of_ne_nil hne]
    simp only [ReaderT.run, if_pos hlt, readAt?_eq hlt, h, Option.bind_eq_bind, Option.bind_some]
    by_cases hbare : (braceSensitive && (Spelled.read t).isBareBrace) = true
    · rw [if_pos hbare, if_pos hbare]
      rfl
    rw [if_neg hbare, if_neg hbare, matchRune?_eq, Utf8.matchRune]
    simp only [Option.bind_some]
    cases hrune : Terminal.rune? next.remaining with
    | none => rfl
    | some found =>
      obtain ⟨r, n⟩ := found
      simp only [Match.ofOption]
      by_cases hagree : Terminal.agree caseless r (Spelled.read t).rune = true
      · have hcross' := Cursor.Crosses.take (c := next) (Terminal.le_length_rune hrune)
        rw [if_pos hagree, if_pos hagree, ih _ (Nat.le_refl _) (hcross.trans hcross') (drop_add h _)]
        have hremaining : (next.advance n).remaining = next.remaining.drop n :=
          hcross'.toPast.remaining (List.take_append_drop n next.remaining).symm
        rw [hremaining, List.length_append, List.length_take_of_le (Terminal.le_length_rune hrune), Option.map_map]
        congr 3
        exact funext fun k => Nat.add_assoc ..
      · rw [if_neg hagree, if_neg hagree]
        rfl

section

variable (body : Bytes)

/-- Whether a dash stands at an offset, with something behind it. -/
def dashAt? (i : Nat) : Option Bool :=
  if i + 1 < body.length then body[i]?.map (· == Bytes.char '-') else some false

/-- The ranges of a class from an offset on, behind others. -/
def rangesFrom? : Loop (Nat × List RuneRange) (Except GrammarIssue (List RuneRange)) := fun (i, ranges) => do
  if i < body.length then
    let first ← readAt? body i
    let behind := i + first.length
    if ← dashAt? body behind then
      let last ← readAt? body (behind + 1)
      if last.rune < first.rune then return .error .reversedRange
      else rangesFrom?.run (behind + 1 + last.length, ranges ++ [⟨first.rune, last.rune⟩])
    else rangesFrom?.run (behind, ranges ++ [⟨first.rune, first.rune⟩])
  else return .ok ranges
partial_fixpoint

/-- Whether a caret stands at the front. -/
def caretAtFront? : Option Bool :=
  if body.isEmpty then some false else body[0]?.map (· == Bytes.char '^')

/-- The class with the given body, or what is wrong with it. -/
def parseClass? (caseless : Bool) : Option (Except GrammarIssue CharClass) := do
  let negated ← caretAtFront? body
  let i := if negated then 1 else 0
  if i < body.length then
    match ← rangesFrom? body (i, []) with
    | .error issue => return .error issue
    | .ok ranges => return .ok ⟨ranges, negated, caseless, Bytes.ascii "[" ++ body ++ Bytes.ascii "]"⟩
  else return .error .emptyClass

end

theorem dashAt?_eq (h : s.drop i = t) : dashAt? s i = some (CharClass.dashed? t).isSome := by
  have hlength := length_of_drop h
  unfold dashAt?
  match t with
  | [] =>
    rw [List.length_nil] at hlength
    rw [if_neg (by omega)]
    rfl
  | [b] =>
    rw [List.length_singleton] at hlength
    rw [if_neg (by omega)]
    rfl
  | b :: letter :: rest =>
    rw [List.length_cons, List.length_cons] at hlength
    rw [if_pos (by omega), (of_drop_cons h).2.1, CharClass.dashed?]
    cases hdash : b == Bytes.char '-' with
    | true => simp [hdash]
    | false => simp [hdash]

theorem rangesFrom?_eq (h : s.drop i = t) (ranges : List RuneRange) :
    rangesFrom? s (i, ranges) =
      some (match CharClass.ranges? (Spelled.all t) with
        | none => .error .reversedRange
        | some more => .ok (ranges ++ more)) := by
  induction t using Spelled.allInduction generalizing i ranges with
  | nil =>
    rw [rangesFrom?]
    simp only [if_neg (Nat.not_lt_of_le (le_of_drop h))]
    show some (Except.ok ranges) = some (Except.ok (ranges ++ []))
    rw [List.append_nil]
  | cons t hne ih =>
    have hlt := lt_of_drop h hne
    have hbehind := drop_add h (Spelled.read t).length
    rw [rangesFrom?, CharClass.ranges?_of_ne_nil hne]
    simp only [ReaderT.run, if_pos hlt, readAt?_eq hlt, h, Option.bind_eq_bind, Option.bind_some, dashAt?_eq hbehind]
    cases hdashed : CharClass.dashed? (t.drop (Spelled.read t).length) with
    | none =>
      simp only [Option.isSome_none, Bool.false_eq_true, if_false]
      rw [ih _ (Nat.le_refl _) hbehind]
      cases CharClass.ranges? (Spelled.all (t.drop (Spelled.read t).length)) with
      | none => rfl
      | some more => simp
    | some u =>
      obtain ⟨hdash, hne'⟩ := CharClass.eq_of_dashed? hdashed
      obtain ⟨-, -, hlast⟩ := of_drop_cons (hbehind.trans hdash)
      have hlt' := lt_of_drop hlast hne'
      have hfar := drop_add hlast (Spelled.read u).length
      have hrest : t.drop ((Spelled.read t).length + 1 + (Spelled.read u).length) = u.drop (Spelled.read u).length :=
        drop_add (of_drop_cons hdash).2.2 _
      simp only [Option.isSome_some, if_true, readAt?_eq hlt', hlast, Option.bind_some]
      -- a range, from the character in front of the dash to the one behind it
      by_cases hreversed : (Spelled.read u).rune < (Spelled.read t).rune
      · rw [if_pos hreversed, if_pos hreversed]
        rfl
      · rw [if_neg hreversed, if_neg hreversed, ih _ (by omega) (hfar.trans hrest.symm), hrest]
        cases CharClass.ranges? (Spelled.all (u.drop (Spelled.read u).length)) with
        | none => rfl
        | some more => simp

theorem caretAtFront?_eq (body : Bytes) : caretAtFront? body = some (CharClass.splitCaret body).1 := by
  cases body with
  | nil => rfl
  | cons b rest =>
    rw [CharClass.splitCaret]
    cases hcaret : b == Bytes.char '^' with
    | true => simp [caretAtFront?, hcaret]
    | false => simp [caretAtFront?, hcaret]

theorem parseClass?_eq (body : Bytes) (caseless : Bool) :
    parseClass? body caseless = some (CharClass.parse? body caseless) := by
  have hitems := CharClass.drop_splitCaret body
  unfold parseClass? CharClass.parse?
  rw [caretAtFront?_eq]
  cases hsplit : CharClass.splitCaret body with
  | mk negated items =>
    rw [hsplit] at hitems
    simp only [Option.bind_eq_bind, Option.bind_some, rangesFrom?_eq hitems]
    cases items with
    | nil =>
      rw [if_neg (Nat.not_lt_of_le (le_of_drop hitems))]
      rfl
    | cons b rest =>
      rw [if_pos (of_drop_cons hitems).1, if_neg (by rw [List.isEmpty_cons]; exact Bool.false_ne_true)]
      cases CharClass.ranges? (Spelled.all (b :: rest)) with
      | none => rfl
      | some ranges => rfl

/-! ## Bounds -/

/-- **A spelling is read within its bounds.** At every offset of a spelling a character is read by indices, without an
index out of range or a shift that loses bits; it takes at least a byte and no more than there are, and its rune is no
larger than the largest code point. So the loops over a spelling end on every spelling, within its bounds as well:
unescaping it gives a well-formed text, and matching it as a literal and reading it as a class answer what their
counterparts do. -/
theorem readers_answer :
    (∀ (spelling : Bytes) (pos : Nat), pos < spelling.length →
      ∃ c, readAt? spelling pos = some c ∧ c = Spelled.read (spelling.drop pos) ∧
        1 ≤ c.length ∧ c.length ≤ spelling.length - pos ∧ c.rune ≤ Rune.maximum) ∧
    (∀ spelling : Bytes, unescape? spelling = some (unescape spelling) ∧
      Utf8.isWellFormed (unescape spelling) = true) ∧
    (∀ (c : Cursor) (spelling : Bytes) (braceSensitive caseless : Bool),
      matchLiteral? c spelling braceSensitive caseless = some (matchLiteral c spelling braceSensitive caseless)) ∧
    (∀ (body : Bytes) (caseless : Bool), parseClass? body caseless = some (CharClass.parse? body caseless)) := by
  refine ⟨?_, ?_, ?_, parseClass?_eq⟩
  · intro spelling pos hpos
    have hne : spelling.drop pos ≠ [] := fun hnil => Nat.not_lt_of_le (le_of_drop hnil) hpos
    have hlength := Spelled.length_read_le (spelling.drop pos)
    rw [List.length_drop] at hlength
    exact ⟨_, readAt?_eq hpos, rfl, Spelled.length_read_pos hne, hlength, Spelled.rune_read_le _⟩
  · intro spelling
    refine ⟨unescapeFrom?_eq List.drop_zero [], ?_⟩
    rw [unescape_eq]
    exact Utf8.isWellFormed_encoded _
  · intro c spelling braceSensitive caseless
    have hcross : c.Crosses [] c := ⟨Cursor.Past.refl c, rfl⟩
    unfold matchLiteral? matchLiteral
    rw [matchFrom?_eq hcross List.drop_zero, Terminal.scan?_eq_literal?]
    simp

/-- The largest code point is read by its digits. Of a larger number six digits are read, which fit into a word, and
then the letter of the escape stands for itself. -/
theorem readers_answer_largest :
    (∃ c, readAt? (Bytes.ascii "-\\u\x7b10FFFF\x7d") 1 = some c ∧ c = ⟨0x10FFFF, 10, true⟩) ∧
      (∃ c, readAt? (Bytes.ascii "-\\u\x7bFFFFFFFFF\x7d") 1 = some c ∧ c = ⟨0x75, 2, true⟩) := by
  obtain ⟨hread, -⟩ := readers_answer
  obtain ⟨c, hlargest, hc, -⟩ := hread (Bytes.ascii "-\\u\x7b10FFFF\x7d") 1 (by decide)
  obtain ⟨d, hbeyond, hd, -⟩ := hread (Bytes.ascii "-\\u\x7bFFFFFFFFF\x7d") 1 (by decide)
  exact ⟨⟨c, hlargest, hc.trans (by decide)⟩, ⟨d, hbeyond, hd.trans (by decide)⟩⟩

end Indexed

end Packrat
