import Packrat.Bytes

/-!
# `Packrat.Utf8` — runes and their encoding

A rune is a code point. Decoding never fails: a malformed sequence decodes to U+FFFD, and the answer says
that it was malformed and how many bytes it took.

## Contents
- **Decoding.** `Lead` says which octets may follow a lead octet; `decode` reads one rune. An octet that
  breaks a sequence belongs to the malformed sequence, as do the continuation octets after it.
- **Walking.** `scan` decodes a whole text; `runes` and `count` are read off it.
- **Encoding.** `encode` writes the shortest form; what is not a Unicode scalar value is written as U+FFFD.
- **Lines.** `isLineEnding`.
-/

namespace Packrat

/-- A code point; not every rune is a Unicode scalar value. -/
abbrev Rune := Nat

namespace Rune

/-- The rune that stands for a malformed sequence. -/
def replacement : Rune := 0xFFFD

/-- The largest code point of Unicode. -/
def maximum : Rune := 0x10FFFF

/-- Whether a code point is a surrogate. -/
def isSurrogate (r : Rune) : Bool := 0xD800 ≤ r && r ≤ 0xDFFF

/-- Whether a code point is a Unicode scalar value. -/
def isScalar (r : Rune) : Bool := r ≤ maximum && !isSurrogate r

/-- The runes that end a line: LF, VT, FF, CR, NEL, and the line and paragraph separators. -/
def isLineEnding (r : Rune) : Bool :=
  (0x0A ≤ r && r ≤ 0x0D) || r == 0x85 || r == 0x2028 || r == 0x2029

end Rune

namespace Utf8

/-! ## Decoding -/

/-- An inclusive range of octets. -/
structure OctetRange where
  first : UInt8
  last : UInt8

namespace OctetRange

/-- Whether an octet lies in the range. -/
def contains (r : OctetRange) (b : UInt8) : Bool := r.first ≤ b && b ≤ r.last

/-- The continuation octets. -/
def continuation : OctetRange := ⟨0x80, 0xBF⟩

end OctetRange

/-- What a lead octet announces: the high bits of the rune and the range of each octet to follow. -/
structure Lead where
  bits : Rune
  follow : List OctetRange

/-- The well-formed sequences, by their first octet. The narrower second ranges exclude overlong forms,
surrogates and code points above U+10FFFF. -/
def Lead.ofOctet (b : UInt8) : Option Lead :=
  let n := b.toNat
  if n < 0x80 then some ⟨n, []⟩
  else if n < 0xC2 then none
  else if n < 0xE0 then some ⟨n - 0xC0, [.continuation]⟩
  else if n = 0xE0 then some ⟨0, [⟨0xA0, 0xBF⟩, .continuation]⟩
  else if n = 0xED then some ⟨0xD, [⟨0x80, 0x9F⟩, .continuation]⟩
  else if n < 0xF0 then some ⟨n - 0xE0, [.continuation, .continuation]⟩
  else if n = 0xF0 then some ⟨0, [⟨0x90, 0xBF⟩, .continuation, .continuation]⟩
  else if n < 0xF4 then some ⟨n - 0xF0, [.continuation, .continuation, .continuation]⟩
  else if n = 0xF4 then some ⟨4, [⟨0x80, 0x8F⟩, .continuation, .continuation]⟩
  else none

/-- Whether an octet is no continuation octet, so that a sequence may start at it. -/
def isLead (b : UInt8) : Bool := !OctetRange.continuation.contains b

/-- One decoded rune, with the number of bytes it took. -/
structure Decoded where
  rune : Rune
  length : Nat
  wellFormed : Bool
deriving DecidableEq

/-- A malformed sequence of `n` octets together with the continuation octets at the front of `rest`. -/
def malformed (n : Nat) (rest : Bytes) : Decoded :=
  ⟨Rune.replacement, n + (rest.takeWhile (!isLead ·)).length, false⟩

/-- Reads the octets that a lead octet announced, after `n` octets that gave `bits`. -/
def decodeRest (bits : Rune) (n : Nat) : List OctetRange → Bytes → Decoded
  | [], _ => ⟨bits, n, true⟩
  | _ :: _, [] => malformed n []
  | r :: follow, b :: rest =>
    if r.contains b then decodeRest (64 * bits + (b.toNat - 0x80)) (n + 1) follow rest
    else malformed (n + 1) rest

/-- The rune at the front of a text. -/
def decode : Bytes → Decoded
  | [] => malformed 0 []
  | b :: rest =>
    match Lead.ofOctet b with
    | none => malformed 1 rest
    | some lead => decodeRest lead.bits 1 lead.follow rest

theorem le_length_decodeRest (bits : Rune) (n : Nat) (follow : List OctetRange) (text : Bytes) :
    n ≤ (decodeRest bits n follow text).length := by
  induction follow generalizing bits n text with
  | nil => simp [decodeRest]
  | cons r follow ih =>
    cases text with
    | nil => simp [decodeRest, malformed]
    | cons b rest =>
      rw [decodeRest]
      split
      · exact Nat.le_trans (Nat.le_succ n) (ih _ _ _)
      · simp only [malformed]; omega

theorem length_decodeRest_le (bits : Rune) (n : Nat) (follow : List OctetRange) (text : Bytes) :
    (decodeRest bits n follow text).length ≤ n + text.length := by
  induction follow generalizing bits n text with
  | nil => simp [decodeRest]
  | cons r follow ih =>
    cases text with
    | nil => simp [decodeRest, malformed]
    | cons b rest =>
      rw [decodeRest]
      split
      · have h := ih (64 * bits + (b.toNat - 0x80)) (n + 1) rest
        simp only [List.length_cons]
        omega
      · have h := (List.takeWhile_sublist (!isLead ·) (l := rest)).length_le
        simp only [malformed, List.length_cons]
        omega

/-- Decoding a non-empty text takes at least one byte. -/
theorem length_decode_pos {text : Bytes} (h : text ≠ []) : 0 < (decode text).length := by
  cases text with
  | nil => exact absurd rfl h
  | cons b rest =>
    rw [decode]
    split
    · simp only [malformed]; omega
    · exact le_length_decodeRest _ 1 _ _

/-- Decoding takes no more bytes than there are. -/
theorem length_decode_le (text : Bytes) : (decode text).length ≤ text.length := by
  cases text with
  | nil => simp [decode, malformed]
  | cons b rest =>
    rw [decode]
    split
    · have h := (List.takeWhile_sublist (!isLead ·) (l := rest)).length_le
      simp only [malformed, List.length_cons]
      omega
    · have h := length_decodeRest_le
      simp only [List.length_cons]
      rw [Nat.add_comm]
      exact h _ 1 _ _

/-! ## Walking -/

/-- The runes of a text after its first `skip` bytes. -/
def scanFrom : Nat → Bytes → List Decoded
  | _, [] => []
  | 0, b :: rest =>
    let d := decode (b :: rest)
    d :: scanFrom (d.length - 1) rest
  | skip + 1, _ :: rest => scanFrom skip rest

/-- The runes of a text, one after the other. -/
def scan (text : Bytes) : List Decoded := scanFrom 0 text

/-- Skipping bytes is dropping them first. -/
theorem scanFrom_eq_scan_drop (skip : Nat) (text : Bytes) :
    scanFrom skip text = scan (text.drop skip) := by
  induction text generalizing skip with
  | nil => cases skip <;> rfl
  | cons b rest ih =>
    cases skip with
    | zero => rfl
    | succ skip => exact ih skip

/-- A walk takes the rune at the front, and goes on after it. -/
theorem scan_cons (b : UInt8) (rest : Bytes) :
    scan (b :: rest)
      = decode (b :: rest) :: scan ((b :: rest).drop (decode (b :: rest)).length) := by
  have hpos : 0 < (decode (b :: rest)).length := length_decode_pos (by simp)
  conv => lhs; rw [scan, scanFrom]
  obtain ⟨k, hk⟩ : ∃ k, (decode (b :: rest)).length = k + 1 :=
    ⟨(decode (b :: rest)).length - 1, by omega⟩
  simp [hk, scanFrom_eq_scan_drop]

/-- The code points of a text, with U+FFFD for each malformed sequence. -/
def runes (text : Bytes) : List Rune := (scan text).map (·.rune)

/-- The number of runes of a text. -/
def count (text : Bytes) : Nat := (scan text).length

/-- Whether every sequence of a text is well-formed. -/
def isWellFormed (text : Bytes) : Bool := (scan text).all (·.wellFormed)

/-! ## Encoding -/

/-- The bytes of U+FFFD. -/
def replacementBytes : Bytes := [0xEF, 0xBF, 0xBD]

/-- The octet that carries the six bits of `r` that start at the bit of weight `unit`. -/
def continuationOctet (r : Rune) (unit : Nat) : UInt8 := (0x80 + r / unit % 64).toUInt8

/-- The shortest form of a Unicode scalar value, or that of U+FFFD for any other code point. -/
def encode (r : Rune) : Bytes :=
  if r < 0x80 then [r.toUInt8]
  else if !r.isScalar then replacementBytes
  else if r < 0x800 then [(0xC0 + r / 64).toUInt8, continuationOctet r 1]
  else if r < 0x10000 then
    [(0xE0 + r / 4096).toUInt8, continuationOctet r 64, continuationOctet r 1]
  else
    [(0xF0 + r / 262144).toUInt8, continuationOctet r 4096, continuationOctet r 64,
      continuationOctet r 1]

example : encode 0x20AC = [0xE2, 0x82, 0xAC] := by decide
example : decode [0xE2, 0x82, 0xAC, 0x41] = ⟨0x20AC, 3, true⟩ := by decide
example : decode [0xE2, 0x41, 0x82, 0x42] = ⟨0xFFFD, 3, false⟩ := by decide
example : encode 0xD800 = replacementBytes := by decide

end Utf8

end Packrat
