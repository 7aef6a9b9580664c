import Packrat.Proofs.CaseClasses
import Packrat.Proofs.Encodings

/-!
# `Packrat.Proofs.Spellings` — two readers of one spelling

The grammar of grammar sources splits a literal into parts: escapes in braces, backslashes before a character, and
characters that stand for themselves. When a literal is matched, its spelling is read again, character by character.
The two agree on where characters end, except that a code point in braces that is too large is no character for the
second reader: its letter is one, and its braces are bare.

## Contents
- **Parts.** `LiteralPart`, and `Parted`: what the parts of a literal are where something else follows.
- **Reading.** What `Spelled.read` finds at the front of a text.
- **Escapes.** `Spelled.Escape`, the escapes with a meaning, and `Spelled.special?_eq_some_iff`: the reader knows
  exactly these.
- **Characters in turn.** A character takes at least a byte and at most all of them, so that `Spelled.all` can be
  followed by `Spelled.allInduction`.
- **Reading parts.** `Starts`: what stands at the front of a spelling, part by part.
- **Matching.** `literal?_unescape_iff`: which literals match the text that they denote.
-/

namespace Packrat

/-! ## Parts -/

/-- A part of a literal. -/
inductive LiteralPart where
  /-- A code point in hexadecimal notation, in braces. -/
  | code (digits : Bytes)
  /-- A backslash before a character or a malformed sequence. -/
  | quoted (sequence : Bytes)
  /-- A character that stands for itself. -/
  | plain (r : Rune)

/-- The code point that hexadecimal digits denote, behind one that has been read already. -/
def codePoint (acc : Rune) (digits : Bytes) : Rune := digits.foldl (fun r b => 16 * r + (hexDigit? b).getD 0) acc

namespace LiteralPart

def text : LiteralPart → Bytes
  | code digits => Bytes.char '\\' :: Bytes.char 'u' :: Bytes.char '\x7b' :: (digits ++ [Bytes.char '\x7d'])
  | quoted sequence => Bytes.char '\\' :: sequence
  | plain r => Utf8.encode r

/-- The parts that the grammar of grammar sources can read in front of a text. -/
def StandsBefore (more : Bytes) : LiteralPart → Prop
  | code digits => digits ≠ [] ∧ ∀ b ∈ digits, (hexDigit? b).isSome = true
  | quoted sequence => sequence ≠ [] ∧ (Utf8.decode (sequence ++ more)).length = sequence.length
  | plain r => r.isScalar = true ∧ r ≠ '\x7b'.toNat ∧ r ≠ '\x7d'.toNat ∧ r ≠ '\\'.toNat

end LiteralPart

/-- The spelling of a literal with the given parts. -/
def spelling (parts : List LiteralPart) : Bytes := parts.flatMap LiteralPart.text

/-- The parts of a literal stand one after the other, the last one in front of `rest`. -/
def Parted (rest : Bytes) : List LiteralPart → Prop
  | [] => True
  | part :: parts => part.StandsBefore (spelling parts ++ rest) ∧ Parted rest parts

/-- The code points of a literal are all scalar values. -/
def ScalarCodes (parts : List LiteralPart) : Prop :=
  ∀ digits, .code digits ∈ parts → (codePoint 0 digits).isScalar = true

/-- A character of a spelling that something can match: a scalar value, and no bare brace. -/
def Spelled.Matchable (s : Spelled) : Prop := s.rune.isScalar = true ∧ s.isBareBrace = false

variable {parts : List LiteralPart} {part : LiteralPart} {rest more t u : Bytes} {r : Rune} {b letter : UInt8}
  {n m acc : Nat}

theorem spelling_cons (part : LiteralPart) (parts : List LiteralPart) :
    spelling (part :: parts) = part.text ++ spelling parts := rfl

/-! ## Reading -/

/-- A scalar value whose encoding starts with an ASCII byte is that byte. -/
theorem Utf8.encode_ascii (hr : r.isScalar = true) (hb : b < 0x80) (h : Utf8.encode r ++ more = b :: t) :
    r = b.toNat ∧ more = t := by
  have hdecode : Utf8.decode (b :: t) = ⟨r, (Utf8.encode r).length, true⟩ :=
    Utf8.decode_of_isPrefix hr ⟨more, h⟩
  rw [Utf8.decode_ascii hb, Utf8.Decoded.mk.injEq] at hdecode
  obtain ⟨hrune, hlength, -⟩ := hdecode
  obtain ⟨b', hb'⟩ := List.length_eq_one_iff.mp hlength.symm
  rw [hb'] at h
  exact ⟨hrune.symm, (List.cons.inj h).2⟩

namespace Spelled

/-- The characters of a spelling are the first one and those behind it. -/
theorem all_of_read {s : Spelled} (hread : read (u ++ more) = s) (hlength : s.length = u.length) (hne : u ≠ []) :
    all (u ++ more) = s :: all more := by
  cases u with
  | nil => exact absurd rfl hne
  | cons b u =>
    show read (b :: (u ++ more)) :: allFrom ((read (b :: (u ++ more))).length - 1) (u ++ more) = _
    rw [List.cons_append] at hread
    rw [hread, hlength, allFrom_eq_all_drop, List.length_cons, Nat.add_sub_cancel, List.drop_left]

/-- What does not start with a backslash stands for itself. -/
theorem read_of_ne (hb : b ≠ Bytes.char '\\') (t : Bytes) : read (b :: t) = plain (b :: t) := by
  cases t with
  | nil => rfl
  | cons letter t =>
    rw [read, if_neg]
    exact fun heq => hb (eq_of_beq heq)

/-- An ASCII character other than the backslash stands for itself. -/
theorem read_ascii (hascii : b < 0x80) (hb : b ≠ Bytes.char '\\') (t : Bytes) :
    read (b :: t) = ⟨b.toNat, 1, false⟩ := by
  rw [read_of_ne hb, plain, Utf8.decode_ascii hascii]

theorem all_ascii (hascii : b < 0x80) (hb : b ≠ Bytes.char '\\') (t : Bytes) :
    all (b :: t) = ⟨b.toNat, 1, false⟩ :: all t :=
  all_of_read (u := [b]) (read_ascii hascii hb t) rfl (List.cons_ne_nil b [])

/-- A scalar value other than the backslash stands for itself. -/
theorem read_encode (hr : r.isScalar = true) (hbackslash : r ≠ '\\'.toNat) (t : Bytes) :
    read (Utf8.encode r ++ t) = ⟨r, (Utf8.encode r).length, false⟩ := by
  have hdecode := Utf8.decode_of_isPrefix hr (List.prefix_append (Utf8.encode r) t)
  cases hencode : Utf8.encode r ++ t with
  | nil => exact absurd (List.append_eq_nil_iff.mp hencode).1 (Utf8.encode_ne_nil hr)
  | cons b u =>
    have hb : b ≠ Bytes.char '\\' := by
      rintro rfl
      exact hbackslash (Utf8.encode_ascii hr (by decide) hencode).1
    rw [hencode] at hdecode
    rw [read_of_ne hb, plain, hdecode]

theorem matchable_of_escaped {s : Spelled} (hscalar : s.rune.isScalar = true) (hescaped : s.escaped = true) :
    s.Matchable := by
  refine ⟨hscalar, ?_⟩
  simp [isBareBrace, isBare, hescaped]

end Spelled

/-! ## Escapes -/

section Digits

open Spelled

theorem le_codePoint (acc : Nat) (digits : Bytes) : acc ≤ codePoint acc digits := by
  induction digits generalizing acc with
  | nil => exact Nat.le_refl acc
  | cons b digits ih =>
    have hstep : acc ≤ 16 * acc + (hexDigit? b).getD 0 := by omega
    exact Nat.le_trans hstep (ih _)

/-- Digits are read up to the closing brace, unless they give too large a code point on the way. -/
theorem hexRun_digits {digits : Bytes} (hdigits : ∀ b ∈ digits, (hexDigit? b).isSome = true) (acc n : Nat)
    (hsmall : codePoint acc digits ≤ Rune.maximum) :
    hexRun acc n (digits ++ Bytes.char '\x7d' :: more) =
      (codePoint acc digits, n + digits.length, Bytes.char '\x7d' :: more) := by
  have hacc : acc ≤ Rune.maximum := Nat.le_trans (le_codePoint acc digits) hsmall
  induction digits generalizing acc n with
  | nil =>
    have hclose : hexDigit? (Bytes.char '\x7d') = none := by decide
    show hexRun acc n (Bytes.char '\x7d' :: more) = _
    rw [hexRun, if_pos hacc, hclose]
    rfl
  | cons b digits ih =>
    rw [List.forall_mem_cons] at hdigits
    obtain ⟨d, hd⟩ := Option.isSome_iff_exists.mp hdigits.1
    have hnext : codePoint acc (b :: digits) = codePoint (16 * acc + d) digits := by
      show codePoint (16 * acc + (hexDigit? b).getD 0) digits = _
      rw [hd]
      rfl
    rw [hnext] at hsmall ⊢
    rw [List.cons_append, hexRun, if_pos hacc, hd]
    show hexRun (16 * acc + d) (n + 1) _ = _
    rw [ih hdigits.2 _ _ hsmall (Nat.le_trans (le_codePoint _ _) hsmall), List.length_cons]
    congr 2
    omega

/-- Digits that give too large a code point are not read to their end. -/
theorem maximum_lt_hexRun {digits : Bytes} (hdigits : ∀ b ∈ digits, (hexDigit? b).isSome = true) (more : Bytes)
    (acc n : Nat) (hlarge : Rune.maximum < codePoint acc digits) :
    Rune.maximum < (hexRun acc n (digits ++ more)).1 := by
  induction digits generalizing acc n with
  | nil =>
    have hacc : ¬acc ≤ Rune.maximum := Nat.not_le_of_lt hlarge
    cases more with
    | nil => exact hlarge
    | cons b more =>
      rw [List.nil_append, hexRun, if_neg hacc]
      exact hlarge
  | cons b digits ih =>
    rw [List.forall_mem_cons] at hdigits
    obtain ⟨d, hd⟩ := Option.isSome_iff_exists.mp hdigits.1
    rw [List.cons_append, hexRun]
    split
    · rw [hd]
      refine ih hdigits.2 _ _ ?_
      have hnext : codePoint acc (b :: digits) = codePoint (16 * acc + (hexDigit? b).getD 0) digits := rfl
      rw [hnext, hd] at hlarge
      exact hlarge
    · next hacc => exact Nat.lt_of_not_le hacc

/-- A code point in braces is read exactly if it is not too large. -/
theorem bracedHex?_digits {digits : Bytes} (hne : digits ≠ []) (hdigits : ∀ b ∈ digits, (hexDigit? b).isSome = true) :
    bracedHex? (Bytes.char '\x7b' :: (digits ++ Bytes.char '\x7d' :: more)) =
      if codePoint 0 digits ≤ Rune.maximum then some (codePoint 0 digits, digits.length + 2) else none := by
  rw [bracedHex?, if_pos BEq.rfl]
  by_cases hsmall : codePoint 0 digits ≤ Rune.maximum
  · obtain ⟨n, hn⟩ := Nat.exists_eq_add_one_of_ne_zero (Nat.ne_of_gt (List.length_pos_iff.mpr hne))
    rw [hexRun_digits hdigits 0 0 hsmall, Nat.zero_add, hn, if_pos hsmall]
    show (if _ then _ else _) = _
    rw [if_pos]
    rw [Bool.and_eq_true]
    exact ⟨BEq.rfl, decide_eq_true hsmall⟩
  · have hbeyond := maximum_lt_hexRun hdigits (Bytes.char '\x7d' :: more) 0 0 (Nat.lt_of_not_le hsmall)
    rw [if_neg hsmall]
    split
    · next r n close more hrun =>
      rw [hrun] at hbeyond
      rw [if_neg]
      rw [Bool.and_eq_true, not_and, decide_eq_true_eq]
      exact fun _ => Nat.not_le_of_lt hbeyond
    · rfl

end Digits

namespace Spelled

/-- The letters that a backslash gives a meaning to. -/
def letters : List (UInt8 × Rune) :=
  [(Bytes.char 'n', 0x0A), (Bytes.char 'r', 0x0D), (Bytes.char 't', 0x09), (Bytes.char '0', 0)]

/-- The escapes with a meaning: what stands behind the backslash, and the rune that it denotes there. -/
inductive Escape : Bytes → Rune → Prop where
  | letter {c : UInt8} {r : Rune} (h : (c, r) ∈ letters) : Escape [c] r
  | byte {a b : UInt8} {x y : Nat} (ha : hexDigit? a = some x) (hb : hexDigit? b = some y) :
      Escape [Bytes.char 'x', a, b] (16 * x + y)
  | code {digits : Bytes} (hne : digits ≠ []) (hdigits : ∀ b ∈ digits, (hexDigit? b).isSome = true)
      (hsmall : codePoint 0 digits ≤ Rune.maximum) :
      Escape (Bytes.char 'u' :: Bytes.char '\x7b' :: (digits ++ [Bytes.char '\x7d'])) (codePoint 0 digits)

theorem letters_ascii {c : UInt8} {r : Rune} (h : (c, r) ∈ letters) : c < 0x80 ∧ r.isScalar = true :=
  (by decide : ∀ x ∈ letters, x.1 < 0x80 ∧ x.2.isScalar = true) (c, r) h

theorem Escape.ne_nil (h : Escape u r) : u ≠ [] := by
  cases h <;> exact List.cons_ne_nil _ _

/-- What is read as hexadecimal digits are digits, up to some rest. -/
theorem digits_of_hexRun (h : hexRun acc n t = (r, m, more)) :
    ∃ digits, t = digits ++ more ∧ (∀ b ∈ digits, (hexDigit? b).isSome = true) ∧ m = n + digits.length ∧
      r = codePoint acc digits := by
  induction t generalizing acc n with
  | nil =>
    cases h
    exact ⟨[], rfl, fun b hb => absurd hb List.not_mem_nil, rfl, rfl⟩
  | cons b t ih =>
    have hstop : (acc, n, b :: t) = (r, m, more) →
        ∃ digits, b :: t = digits ++ more ∧ (∀ b ∈ digits, (hexDigit? b).isSome = true) ∧ m = n + digits.length ∧
          r = codePoint acc digits := by
      intro heq
      cases heq
      exact ⟨[], rfl, fun b hb => absurd hb List.not_mem_nil, rfl, rfl⟩
    rw [hexRun] at h
    split at h
    · cases hdigit : hexDigit? b with
      | none =>
        rw [hdigit] at h
        exact hstop h
      | some d =>
        rw [hdigit] at h
        obtain ⟨digits, rfl, hdigits, rfl, rfl⟩ := ih h
        refine ⟨b :: digits, rfl, ?_, ?_, ?_⟩
        · rw [List.forall_mem_cons]
          exact ⟨by rw [hdigit]; rfl, hdigits⟩
        · rw [List.length_cons]
          omega
        · show _ = codePoint (16 * acc + (hexDigit? b).getD 0) digits
          rw [hdigit]
          rfl
    · exact hstop h

/-- A code point in braces has some digits, and is not too large. -/
theorem bracedHex?_eq_some_iff : bracedHex? t = some (r, n) ↔
    ∃ digits, digits ≠ [] ∧ (∀ b ∈ digits, (hexDigit? b).isSome = true) ∧ codePoint 0 digits ≤ Rune.maximum ∧
      Bytes.char '\x7b' :: (digits ++ [Bytes.char '\x7d']) <+: t ∧ r = codePoint 0 digits ∧ n = digits.length + 2 := by
  constructor
  · intro h
    cases t with
    | nil => cases h
    | cons b u =>
      rw [bracedHex?] at h
      split at h
      · next hopen =>
        split at h
        · next r' m close rest hrun =>
          split at h
          · next hclosed =>
            cases h
            obtain ⟨digits, rfl, hdigits, hm, rfl⟩ := digits_of_hexRun hrun
            obtain ⟨hclose, hsmall⟩ := Bool.and_eq_true_iff.mp hclosed
            refine ⟨digits, List.length_pos_iff.mp (by omega), hdigits, of_decide_eq_true hsmall, ⟨rest, ?_⟩, rfl,
              by omega⟩
            rw [eq_of_beq hopen, eq_of_beq hclose, List.cons_append, List.append_assoc]
            rfl
          · cases h
        · cases h
      · cases h
  · rintro ⟨digits, hne, hdigits, hsmall, ⟨rest, rfl⟩, rfl, rfl⟩
    rw [List.cons_append, List.append_assoc]
    exact (bracedHex?_digits hne hdigits).trans (if_pos hsmall)

theorem digits_of_twoHex? (h : twoHex? t = some r) :
    ∃ a b x y u, t = a :: b :: u ∧ hexDigit? a = some x ∧ hexDigit? b = some y ∧ r = 16 * x + y := by
  match t with
  | [] => cases h
  | [a] => cases h
  | a :: b :: u =>
    rw [twoHex?] at h
    split at h
    · next x y hx hy =>
      cases h
      exact ⟨a, b, x, y, u, rfl, hx, hy, rfl⟩
    · cases h

/-- The reader knows exactly the escapes with a meaning. -/
theorem special?_eq_some_iff {s : Spelled} : special? letter t = some s ↔
    ∃ w r, Escape w r ∧ w <+: letter :: t ∧ s = ⟨r, w.length + 1, true⟩ := by
  constructor
  · intro h
    -- the four letters with a meaning of their own are tested one after the other
    have hone : ∀ {c : UInt8} {r : Rune}, (c, r) ∈ letters → (letter == c) = true → some ⟨r, 2, true⟩ = some s →
        ∃ w r, Escape w r ∧ w <+: letter :: t ∧ s = ⟨r, w.length + 1, true⟩ := by
      intro c r hmem hc hs
      cases hs
      rw [eq_of_beq hc]
      exact ⟨[c], r, .letter hmem, ⟨t, rfl⟩, rfl⟩
    unfold special? at h
    split at h
    · next hletter => exact hone (by decide) hletter h
    split at h
    · next hletter => exact hone (by decide) hletter h
    split at h
    · next hletter => exact hone (by decide) hletter h
    split at h
    · next hletter => exact hone (by decide) hletter h
    split at h
    · next hletter =>
      obtain ⟨r, hr, rfl⟩ := Option.map_eq_some_iff.mp h
      obtain ⟨a, b, x, y, rest, rfl, ha, hb, rfl⟩ := digits_of_twoHex? hr
      rw [eq_of_beq hletter]
      exact ⟨_, _, .byte ha hb, ⟨rest, rfl⟩, rfl⟩
    split at h
    · next hletter =>
      obtain ⟨⟨r, n⟩, hbraced, rfl⟩ := Option.map_eq_some_iff.mp h
      obtain ⟨digits, hne, hdigits, hsmall, hfront, rfl, rfl⟩ := bracedHex?_eq_some_iff.mp hbraced
      rw [eq_of_beq hletter]
      refine ⟨_, _, .code hne hdigits hsmall, List.cons_prefix_cons.mpr ⟨rfl, hfront⟩, ?_⟩
      simp
    · cases h
  · rintro ⟨w, r, hescape, ⟨rest, hrest⟩, rfl⟩
    cases hescape with
    | letter hletter =>
      cases hrest
      simp only [letters, List.mem_cons, Prod.mk.injEq, List.not_mem_nil, or_false] at hletter
      rcases hletter with ⟨rfl, rfl⟩ | ⟨rfl, rfl⟩ | ⟨rfl, rfl⟩ | ⟨rfl, rfl⟩ <;> rfl
    | @byte a b x y ha hb =>
      cases hrest
      show (twoHex? (a :: b :: rest)).map _ = _
      rw [twoHex?, ha, hb]
      rfl
    | @code digits hne hdigits hsmall =>
      cases hrest
      have hbraced : bracedHex? (Bytes.char '\x7b' :: (digits ++ [Bytes.char '\x7d']) ++ rest) =
          some (codePoint 0 digits, digits.length + 2) :=
        bracedHex?_eq_some_iff.mpr ⟨digits, hne, hdigits, hsmall, List.prefix_append _ _, rfl, rfl⟩
      show (bracedHex? (Bytes.char '\x7b' :: (digits ++ [Bytes.char '\x7d']) ++ rest)).map _ = _
      rw [hbraced]
      simp

end Spelled

/-! ## Characters in turn -/

namespace Spelled

/-- An escape takes its backslash and what stands behind it, no more. -/
theorem length_special {letter : UInt8} {c : Spelled} (h : special? letter t = some c) :
    0 < c.length ∧ c.length ≤ t.length + 2 := by
  obtain ⟨w, r, -, hfront, rfl⟩ := special?_eq_some_iff.mp h
  have hlength := hfront.length_le
  rw [List.length_cons] at hlength
  exact ⟨Nat.succ_pos _, Nat.succ_le_succ hlength⟩

theorem length_read_pos (h : t ≠ []) : 0 < (read t).length := by
  match t with
  | [] => exact absurd rfl h
  | [b] => exact Utf8.length_decode_pos h
  | b :: letter :: rest =>
    rw [read]
    split
    · cases hspecial : special? letter rest with
      | none => exact Nat.succ_pos _
      | some c => exact (length_special hspecial).1
    · exact Utf8.length_decode_pos h

theorem length_read_le (t : Bytes) : (read t).length ≤ t.length := by
  match t with
  | [] => exact Utf8.length_decode_le []
  | [b] => exact Utf8.length_decode_le [b]
  | b :: letter :: rest =>
    rw [read]
    split
    · cases hspecial : special? letter rest with
      | none => exact Nat.succ_le_succ (Utf8.length_decode_le (letter :: rest))
      | some c => exact (length_special hspecial).2
    · exact Utf8.length_decode_le (b :: letter :: rest)

/-- The characters of a spelling are the first one and those behind it. -/
theorem all_of_ne_nil (h : t ≠ []) : all t = read t :: all (t.drop (read t).length) := by
  have hpos := length_read_pos h
  have hne : t.take (read t).length ≠ [] := by
    rw [Ne, List.take_eq_nil_iff]
    exact fun hnil => hnil.elim (Nat.ne_of_gt hpos) h
  have hread : read (t.take (read t).length ++ t.drop (read t).length) = read t := by rw [List.take_append_drop]
  have hall := all_of_read hread (List.length_take_of_le (length_read_le t)).symm hne
  rwa [List.take_append_drop] at hall

/-- What is no escape and denotes an ASCII character is that character. -/
theorem front_of_isBare {b letter : UInt8} {rest : Bytes} {c : Char} (hc : c.toNat < 0x80)
    (h : (read (b :: letter :: rest)).isBare c = true) : b = Bytes.char c := by
  rw [isBare, Bool.and_eq_true, Bool.not_eq_true', beq_iff_eq] at h
  obtain ⟨hescaped, hrune⟩ := h
  by_cases hb : (b == Bytes.char '\\') = true
  · -- whatever a backslash starts is escaped
    rw [read, if_pos hb] at hescaped
    cases hspecial : special? letter rest with
    | none =>
      rw [hspecial] at hescaped
      cases hescaped
    | some s =>
      obtain ⟨_, _, -, -, rfl⟩ := special?_eq_some_iff.mp hspecial
      rw [hspecial] at hescaped
      cases hescaped
  · rw [read, if_neg hb, plain] at hrune
    rcases Utf8.decode_cases (b :: letter :: rest) with ⟨r, -, ⟨more, hfront⟩, hdecode⟩ | ⟨-, hreplacement, -⟩
    · rw [hdecode] at hrune
      obtain rfl : r = c.toNat := hrune
      rw [Utf8.encode_of_lt hc] at hfront
      exact (List.cons.inj hfront).1.symm
    · have hbeyond : Rune.replacement = c.toNat := hreplacement.symm.trans hrune
      rw [← hbeyond] at hc
      exact absurd hc (by decide)

/-- What is shown of a text from what is behind its first character, or further on, holds of every text. -/
theorem allInduction {motive : Bytes → Prop} (nil : motive [])
    (cons : ∀ text, text ≠ [] → (∀ n, (read text).length ≤ n → motive (text.drop n)) → motive text) (text : Bytes) :
    motive text := by
  induction hn : text.length using Nat.strongRecOn generalizing text with
  | ind n ih =>
    by_cases hne : text = []
    · rw [hne]
      exact nil
    · have hpos := length_read_pos hne
      have hlength := List.length_pos_iff.mpr hne
      exact cons text hne fun k hk => ih _ (by rw [List.length_drop]; omega) _ rfl

end Spelled

/-! ## Reading parts -/

section Parts

open Spelled

/-- What starts with neither a backslash nor a byte of a longer encoding is a character of its own. -/
theorem Parted.plain_of_ascii (h : Parted rest parts) (hb : b < 0x80) (hbackslash : b ≠ Bytes.char '\\')
    (ht : spelling parts = b :: t) :
    (b ≠ Bytes.char '\x7b' ∧ b ≠ Bytes.char '\x7d') ∧
      ∃ parts', parts = .plain b.toNat :: parts' ∧ spelling parts' = t := by
  cases parts with
  | nil => cases ht
  | cons part parts =>
    cases part with
    | code digits => exact absurd (List.cons.inj ht).1.symm hbackslash
    | quoted sequence => exact absurd (List.cons.inj ht).1.symm hbackslash
    | plain r =>
      obtain ⟨⟨hscalar, hopen, hclose, -⟩, -⟩ := h
      obtain ⟨rfl, hmore⟩ := Utf8.encode_ascii hscalar hb ht
      exact ⟨⟨fun hbrace => hopen (by rw [hbrace]; rfl), fun hbrace => hclose (by rw [hbrace]; rfl)⟩, parts, rfl, hmore⟩

/-- Hexadecimal digits stand for themselves, and two of them denote a byte. -/
theorem hexDigit?_ascii {d : Nat} (hb : hexDigit? b = some d) : b < 0x80 ∧ b ≠ Bytes.char '\\' ∧ d < 16 := by
  have hall := forall_byte (p := fun b => (hexDigit? b).all fun d =>
    decide (b < 0x80) && b != Bytes.char '\\' && decide (d < 16)) (by decide +kernel) b
  rw [hb] at hall
  simp only [Option.all_some, Bool.and_eq_true, decide_eq_true_eq, bne_iff_ne] at hall
  exact ⟨hall.1.1, hall.1.2, hall.2⟩

/-- How the characters of a spelling start: with a character that something can match, which takes the first parts
without a code that is no scalar value, or else with a code that is none, which nothing can match. -/
def Starts (parts : List LiteralPart) : Prop :=
  (∃ digits, .code digits ∈ parts ∧ (codePoint 0 digits).isScalar = false ∧
    ∃ s ∈ Spelled.all (spelling parts), ¬s.Matchable) ∨
  ∃ used more s, parts = used ++ more ∧ used ≠ [] ∧ ScalarCodes used ∧ s.Matchable ∧
    Spelled.all (spelling parts) = s :: Spelled.all (spelling more)

theorem starts_plain (h : (LiteralPart.plain r).StandsBefore more) : Starts (.plain r :: parts) := by
  obtain ⟨hscalar, hopen, hclose, hbackslash⟩ := h
  refine .inr ⟨[.plain r], parts, ⟨r, (Utf8.encode r).length, false⟩, rfl, List.cons_ne_nil _ _, ?_, ⟨hscalar, ?_⟩, ?_⟩
  · intro digits hmem
    cases List.mem_singleton.mp hmem
  · simp only [Spelled.isBareBrace, Spelled.isBare, Bool.not_false, Bool.true_and, Bool.or_eq_false_iff,
      beq_eq_false_iff_ne]
    exact ⟨hopen, hclose⟩
  · rw [spelling_cons]
    exact Spelled.all_of_read (Spelled.read_encode hscalar hbackslash _) rfl (Utf8.encode_ne_nil hscalar)

theorem spelling_code (digits : Bytes) (parts : List LiteralPart) :
    spelling (.code digits :: parts) = [Bytes.char '\\', Bytes.char 'u'] ++
      Bytes.char '\x7b' :: (digits ++ Bytes.char '\x7d' :: spelling parts) := by
  simp only [spelling_cons, LiteralPart.text, List.cons_append, List.append_assoc, List.nil_append]

/-- A code in braces is read as its code point, or as its letter if that is too large. -/
theorem read_code {digits : Bytes} (hne : digits ≠ []) (hdigits : ∀ b ∈ digits, (hexDigit? b).isSome = true)
    (parts : List LiteralPart) :
    Spelled.read (spelling (.code digits :: parts)) =
      if codePoint 0 digits ≤ Rune.maximum then ⟨codePoint 0 digits, digits.length + 4, true⟩ else ⟨0x75, 2, true⟩ := by
  have hletter : Spelled.read (spelling (.code digits :: parts)) =
      ((bracedHex? (Bytes.char '\x7b' :: (digits ++ Bytes.char '\x7d' :: spelling parts))).map
        fun code => (⟨code.1, code.2 + 2, true⟩ : Spelled)).getD ⟨0x75, 2, true⟩ := by
    have hquoted : ∀ t, Spelled.quoted (Bytes.char 'u' :: t) = ⟨0x75, 2, true⟩ := by
      intro t
      rw [Spelled.quoted, Utf8.decode_ascii (by decide)]
      rfl
    rw [spelling_code, ← hquoted (Bytes.char '\x7b' :: (digits ++ Bytes.char '\x7d' :: spelling parts))]
    rfl
  rw [hletter, bracedHex?_digits hne hdigits]
  split
  · rfl
  · rfl

theorem starts_code {digits : Bytes} (h : (LiteralPart.code digits).StandsBefore more) :
    Starts (.code digits :: parts) := by
  obtain ⟨hne, hdigits⟩ := h
  have hread := read_code hne hdigits parts
  by_cases hsmall : codePoint 0 digits ≤ Rune.maximum
  · -- the code is one character
    rw [if_pos hsmall] at hread
    have hlength : digits.length + 4 = (LiteralPart.code digits).text.length := by
      simp [LiteralPart.text]
    have hall : Spelled.all (spelling (.code digits :: parts)) =
        ⟨codePoint 0 digits, digits.length + 4, true⟩ :: Spelled.all (spelling parts) :=
      Spelled.all_of_read hread hlength (List.cons_ne_nil _ _)
    cases hscalar : (codePoint 0 digits).isScalar with
    | true =>
      refine .inr ⟨[.code digits], parts, _, rfl, List.cons_ne_nil _ _, ?_, Spelled.matchable_of_escaped hscalar rfl,
        hall⟩
      intro digits' hmem
      cases List.mem_singleton.mp hmem
      exact hscalar
    | false =>
      refine .inl ⟨digits, List.mem_cons_self, hscalar, ⟨codePoint 0 digits, digits.length + 4, true⟩, ?_,
        fun hmatchable => ?_⟩
      · rw [hall]
        exact List.mem_cons_self
      · exact Bool.false_ne_true (hscalar.symm.trans hmatchable.1)
  · -- the letter is one, and behind it stands a bare brace
    rw [if_neg hsmall, spelling_code] at hread
    have hscalar : (codePoint 0 digits).isScalar = false := by
      rw [Rune.isScalar, decide_eq_false hsmall, Bool.false_and]
    have hall := Spelled.all_of_read hread rfl (List.cons_ne_nil _ _)
    refine .inl ⟨digits, List.mem_cons_self, hscalar, ⟨0x7B, 1, false⟩, ?_, fun hmatchable => ?_⟩
    · rw [spelling_code, hall, Spelled.all_ascii (by decide) (by decide)]
      exact List.mem_cons_of_mem _ List.mem_cons_self
    · exact absurd hmatchable.2 (by decide)

theorem starts_quoted {sequence : Bytes} (h : (LiteralPart.quoted sequence).StandsBefore (spelling parts ++ rest))
    (hparts : Parted rest parts) : Starts (.quoted sequence :: parts) := by
  obtain ⟨hne, hlength⟩ := h
  -- what remains of the text behind the literal does not matter
  have hdecode : (Utf8.decode (sequence ++ spelling parts)).length = sequence.length := by
    have htake := Utf8.decode_take (sequence ++ spelling parts).length (sequence ++ (spelling parts ++ rest))
    rw [hlength, if_pos (by rw [List.length_append]; exact Nat.le_add_right _ _), ← List.append_assoc,
      List.take_left] at htake
    rw [htake, List.append_assoc, hlength]
  obtain ⟨letter, behind, rfl⟩ := List.exists_cons_of_ne_nil hne
  have hread : Spelled.read ((LiteralPart.quoted (letter :: behind)).text ++ spelling parts) =
      (Spelled.special? letter (behind ++ spelling parts)).getD
        (Spelled.quoted (letter :: behind ++ spelling parts)) := rfl
  have hone : ∀ s : Spelled, Spelled.read ((LiteralPart.quoted (letter :: behind)).text ++ spelling parts) = s →
      s.length = behind.length + 2 → s.rune.isScalar = true → s.escaped = true →
      Starts (.quoted (letter :: behind) :: parts) := by
    intro s hs hlength hscalar hescaped
    refine .inr ⟨[.quoted (letter :: behind)], parts, s, rfl, List.cons_ne_nil _ _, ?_,
      Spelled.matchable_of_escaped hscalar hescaped, Spelled.all_of_read hs hlength (List.cons_ne_nil _ _)⟩
    intro digits hmem
    cases List.mem_singleton.mp hmem
  -- a letter with a meaning is a character
  have halone : letter < 0x80 → behind = [] := by
    intro hletter
    rw [List.cons_append, Utf8.decode_ascii hletter] at hdecode
    exact List.length_eq_zero_iff.mp (Nat.succ.inj hdecode).symm
  cases hspecial : Spelled.special? letter (behind ++ spelling parts) with
  | none =>
    rw [hspecial] at hread
    refine hone _ hread ?_ (Utf8.isScalar_decode _) rfl
    exact congrArg (· + 1) hdecode
  | some s =>
    rw [hspecial] at hread
    obtain ⟨w, r, hescape, ⟨t, ht⟩, rfl⟩ := Spelled.special?_eq_some_iff.mp hspecial
    cases hescape with
    | letter hletter =>
      obtain ⟨rfl, -⟩ := List.cons.inj ht
      obtain ⟨hascii, hscalar⟩ := Spelled.letters_ascii hletter
      refine hone _ hread ?_ hscalar rfl
      rw [halone hascii]
      rfl
    | @byte a b x y hx hy =>
      -- two digits, which are parts of their own
      obtain ⟨rfl, htail⟩ := List.cons.inj ht
      obtain rfl := halone (by decide)
      have ht : spelling parts = a :: b :: t := htail.symm
      obtain ⟨ha, ha', hx⟩ := hexDigit?_ascii hx
      obtain ⟨hb, hb', hy⟩ := hexDigit?_ascii hy
      obtain ⟨-, parts', rfl, hparts'⟩ := hparts.plain_of_ascii ha ha' ht
      obtain ⟨-, parts'', rfl, rfl⟩ := hparts.2.plain_of_ascii hb hb' hparts'
      have hscalar : Rune.isScalar (16 * x + y) = true := Utf8.isScalar_iff.mpr (by omega)
      refine .inr ⟨[.quoted [Bytes.char 'x'], .plain a.toNat, .plain b.toNat], parts'', ⟨16 * x + y, 4, true⟩, rfl,
        List.cons_ne_nil _ _, ?_, Spelled.matchable_of_escaped hscalar rfl, ?_⟩
      · intro digits hmem
        simp only [List.mem_cons, reduceCtorEq, List.not_mem_nil, or_self] at hmem
      · have hall : Spelled.all ([Bytes.char '\\', Bytes.char 'x', a, b] ++ spelling parts'') =
            ⟨16 * x + y, 4, true⟩ :: Spelled.all (spelling parts'') := by
          refine Spelled.all_of_read ?_ rfl (List.cons_ne_nil _ _)
          rw [ht] at hread
          exact hread
        rw [spelling_cons, ht]
        exact hall
    | @code digits _ _ _ =>
      -- a bare brace is no part
      obtain ⟨rfl, htail⟩ := List.cons.inj ht
      obtain rfl := halone (by decide)
      exact absurd rfl (hparts.plain_of_ascii (by decide) (by decide) htail.symm).1.1

theorem Parted.behind {used more : List LiteralPart} (h : Parted rest (used ++ more)) : Parted rest more := by
  induction used with
  | nil => exact h
  | cons part used ih => exact ih h.2

/-- The characters of a spelling can all be matched exactly if its codes are scalar values. -/
theorem matchable_iff (h : Parted rest parts) :
    (∀ s ∈ Spelled.all (spelling parts), s.Matchable) ↔ ScalarCodes parts := by
  induction hn : parts.length using Nat.strongRecOn generalizing parts with
  | ind n ih =>
    cases parts with
    | nil =>
      exact ⟨fun _ digits hmem => absurd hmem List.not_mem_nil, fun _ s hs => absurd hs List.not_mem_nil⟩
    | cons part parts =>
      have hstarts : Starts (part :: parts) := by
        cases part with
        | code digits => exact starts_code h.1
        | quoted sequence => exact starts_quoted h.1 h.2
        | plain r => exact starts_plain h.1
      rcases hstarts with ⟨digits, hmem, hscalar, s, hs, hmatchable⟩ | ⟨used, more, s, hparts, hused, hcodes, hs, hall⟩
      · constructor
        · exact fun hall => absurd (hall s hs) hmatchable
        · intro hcodes
          exact absurd (hcodes digits hmem) (by rw [hscalar]; exact Bool.false_ne_true)
      · have hlength : more.length < n := by
          have hpos := List.length_pos_iff.mpr hused
          rw [← hn, hparts, List.length_append]
          omega
        rw [hparts] at h
        have hmore := ih more.length hlength h.behind rfl
        rw [hall, List.forall_mem_cons, hmore, hparts]
        constructor
        · rintro ⟨-, hscalar⟩ digits hmem
          rcases List.mem_append.mp hmem with hmem | hmem
          · exact hcodes digits hmem
          · exact hscalar digits hmem
        · exact fun hscalar => ⟨hs, fun digits hmem => hscalar digits (List.mem_append_right used hmem)⟩

end Parts

/-! ## Matching -/

/-- The text that a spelling denotes is made of encodings. -/
theorem unescape_eq (spelling : Bytes) :
    unescape spelling = ((Spelled.all spelling).map (·.rune)).flatMap Utf8.encode :=
  (List.flatMap_map ..).symm

namespace Terminal

/-- Runes that agree are both scalar values, or neither is. -/
theorem isScalar_of_agree {caseless : Bool} {e : Rune} (h : agree caseless r e = true) :
    r.isScalar = e.isScalar := by
  cases caseless with
  | false =>
    have hsame : r = e := eq_of_beq h
    rw [hsame]
  | true =>
    have hfold : r.fold = e.fold := eq_of_beq h
    rw [← Rune.isScalar_fold r, hfold, Rune.isScalar_fold e]

theorem agree_self (caseless : Bool) (r : Rune) : agree caseless r r = true := by
  cases caseless <;> exact BEq.rfl

/-- So what agrees with scalar values, one after the other, are scalar values. -/
theorem isScalar_of_agreeing {caseless : Bool} {rs es : List Rune}
    (h : List.Forall₂ (fun r e => agree caseless r e = true) rs es) (hrs : ∀ r ∈ rs, r.isScalar = true) :
    ∀ e ∈ es, e.isScalar = true := by
  induction h with
  | nil => exact hrs
  | cons hagree _ ih =>
    rw [List.forall_mem_cons] at hrs ⊢
    exact ⟨(isScalar_of_agree hagree).symm.trans hrs.1, ih hrs.2⟩

/-- The encodings of runes are matched one after the other exactly if they are scalar values. -/
theorem runes?_encoded (caseless : Bool) (runes : List Rune) :
    runes? caseless runes (runes.flatMap Utf8.encode) = some (runes.flatMap Utf8.encode).length ↔
      ∀ r ∈ runes, r.isScalar = true := by
  rw [runes?_eq_some_iff]
  constructor
  · rintro ⟨rs, hrs, hall, -, -⟩
    exact isScalar_of_agreeing hall hrs
  · intro h
    exact ⟨runes, h, List.forall₂_same.mpr fun r _ => agree_self caseless r, List.prefix_refl _, rfl⟩

/-- A literal without a bare brace is matched as any other. -/
theorem literal?_of_not_bare {spelling : Bytes} (h : ∀ s ∈ Spelled.all spelling, s.isBareBrace = false)
    (braceSensitive caseless : Bool) (text : Bytes) :
    literal? spelling braceSensitive caseless text = runes? caseless ((Spelled.all spelling).map (·.rune)) text := by
  unfold literal?
  simp only
  rw [if_neg]
  rw [Bool.and_eq_true, not_and, Bool.not_eq_true, List.any_eq_false]
  exact fun _ s hs => Bool.eq_false_iff.mp (h s hs)

/-- A brace-sensitive literal with a bare brace matches nothing. -/
theorem literal?_of_bare {spelling : Bytes} (h : ∃ s ∈ Spelled.all spelling, s.isBareBrace = true) (caseless : Bool)
    (text : Bytes) :
    literal? spelling true caseless text = none := by
  unfold literal?
  simp only
  rw [if_pos]
  rw [Bool.true_and]
  exact List.any_eq_true.mpr h

/-- A literal matches the text that it denotes exactly if something can match each of its characters. -/
theorem literal?_unescape_iff (spelling : Bytes) (caseless : Bool) :
    literal? spelling true caseless (unescape spelling) = some (unescape spelling).length ↔
      ∀ s ∈ Spelled.all spelling, s.Matchable := by
  by_cases hbare : ∃ s ∈ Spelled.all spelling, s.isBareBrace = true
  · rw [literal?_of_bare hbare]
    obtain ⟨s, hs, hbrace⟩ := hbare
    refine ⟨fun h => (nomatch h), fun hall => ?_⟩
    rw [(hall s hs).2] at hbrace
    cases hbrace
  · have hnone : ∀ s ∈ Spelled.all spelling, s.isBareBrace = false :=
      fun s hs => Bool.eq_false_iff.mpr fun hbrace => hbare ⟨s, hs, hbrace⟩
    rw [literal?_of_not_bare hnone, unescape_eq, runes?_encoded, List.forall_mem_map]
    exact ⟨fun hall s hs => ⟨hall s hs, hnone s hs⟩, fun hall s hs => (hall s hs).1⟩

end Terminal

end Packrat
