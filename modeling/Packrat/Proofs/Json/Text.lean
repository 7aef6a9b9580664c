import Packrat.Json.Printer
import Packrat.Proofs.Printing

/-!
# `Packrat.Proofs.Json.Text` — the texts of JSON documents

The grammar of RFC 7159, as trees and their texts. A tree of the concrete syntax has all that its text has: how
each character of a string is written, and the white space behind each token.

Next to the grammar stands a slightly larger one, in which a comma may stand before the first part of an array or
object.

## Contents
- **Tokens.** White space, numbers, and the characters of strings.
- **Trees.** `Concrete`, with its text, its document, and when it is well formed.
- **Texts.** `IsText`.
-/

namespace Packrat.Json

open Source (bytesFrom decimalDigits)

/-! ## Tokens -/

def blankBytes : Bytes := Bytes.ascii " \t\r\n"

/-- A run of white space. -/
def Blank (t : Bytes) : Prop := ∀ b ∈ t, b ∈ blankBytes

instance (t : Bytes) : Decidable (Blank t) := inferInstanceAs (Decidable (∀ b ∈ t, b ∈ blankBytes))

theorem blank_nil : Blank [] := fun _ hb => absurd hb List.not_mem_nil

/-- A run of digits. -/
def Digits (t : Bytes) : Prop := ∀ b ∈ t, b ∈ decimalDigits

/-- The integer part of a number, which has no leading zeros. -/
def IsInteger (t : Bytes) : Prop :=
  t = Bytes.ascii "0" ∨ ∃ d ds, d ∈ bytesFrom '1' '9' ∧ Digits ds ∧ t = d :: ds

/-- A number has a fraction or none. -/
def IsFraction (t : Bytes) : Prop :=
  t = [] ∨ ∃ ds, ds ≠ [] ∧ Digits ds ∧ t = Bytes.char '.' :: ds

/-- A number has an exponent or none. -/
def IsExponent (t : Bytes) : Prop :=
  t = [] ∨ ∃ e sign ds, e ∈ Bytes.ascii "eE" ∧ (sign = [] ∨ ∃ s ∈ Bytes.ascii "+-", sign = [s]) ∧ ds ≠ [] ∧
    Digits ds ∧ t = e :: (sign ++ ds)

/-- The spelling of a number. -/
def IsNumber (t : Bytes) : Prop :=
  ∃ minus int fraction exponent, (minus = [] ∨ minus = Bytes.ascii "-") ∧ IsInteger int ∧ IsFraction fraction ∧
    IsExponent exponent ∧ t = minus ++ (int ++ (fraction ++ exponent))

/-- The words. -/
inductive Keyword where
  | null
  | bool (b : Bool)

namespace Keyword

def text : Keyword → Bytes
  | null => Bytes.ascii "null"
  | bool true => Bytes.ascii "true"
  | bool false => Bytes.ascii "false"

def doc : Keyword → Json
  | null => .null
  | bool b => .bool b

end Keyword

/-- A character of a string, as it is written. -/
inductive Glyph where
  /-- The character itself. -/
  | plain (r : Rune)
  /-- A backslash and a letter. -/
  | short (letter : UInt8)
  /-- A backslash, a `u` and the code point in hexadecimal notation. -/
  | code (digits : Bytes)

/-- The byte that a letter stands for behind a backslash. -/
def unescaped (letter : UInt8) : UInt8 :=
  if letter = Bytes.char 'b' then 0x08
  else if letter = Bytes.char 'f' then 0x0C
  else if letter = Bytes.char 'n' then 0x0A
  else if letter = Bytes.char 'r' then 0x0D
  else if letter = Bytes.char 't' then 0x09
  else letter

namespace Glyph

def text : Glyph → Bytes
  | plain r => Utf8.encode r
  | short letter => [Bytes.char '\\', letter]
  | code digits => Bytes.char '\\' :: Bytes.char 'u' :: digits

/-- The bytes that a character adds to the text of its string. -/
def denotes : Glyph → Bytes
  | plain r => Utf8.encode r
  | short letter => [unescaped letter]
  | code digits => Utf8.encode (hexNumber digits)

/-- Quotes, backslashes and control characters do not stand for themselves. -/
def Valid : Glyph → Prop
  | plain r => r.isScalar = true ∧ 0x20 ≤ r ∧ r ≠ '"'.toNat ∧ r ≠ '\\'.toNat
  | short letter => letter ∈ Bytes.ascii "\"\\/bfnrt"
  | code digits => digits.length = 4 ∧ ∀ b ∈ digits, (hexDigit? b).isSome = true

instance : DecidablePred Valid
  | plain r => inferInstanceAs (Decidable (r.isScalar = true ∧ 0x20 ≤ r ∧ r ≠ '"'.toNat ∧ r ≠ '\\'.toNat))
  | short letter => inferInstanceAs (Decidable (letter ∈ Bytes.ascii "\"\\/bfnrt"))
  | code digits => inferInstanceAs (Decidable (digits.length = 4 ∧ ∀ b ∈ digits, (hexDigit? b).isSome = true))

end Glyph

/-- The characters of a string. -/
def spelled (glyphs : List Glyph) : Bytes := glyphs.flatMap Glyph.text

/-- The text that the characters of a string stand for. -/
def denoted (glyphs : List Glyph) : Bytes := glyphs.flatMap Glyph.denotes

/-- Characters between quotes. -/
def quoted (glyphs : List Glyph) : Bytes := Bytes.char '"' :: (spelled glyphs ++ Bytes.ascii "\"")

/-! ## Trees -/

/-- What is enclosed between brackets. -/
inductive Kind where
  | array
  | object
deriving DecidableEq

namespace Kind

/-- The opening bracket. -/
def opens : Kind → UInt8
  | array => Bytes.char '['
  | object => Bytes.char '\x7b'

/-- The closing bracket. -/
def closes : Kind → UInt8
  | array => Bytes.char ']'
  | object => Bytes.char '\x7d'

/-- The document with the given parts; those of an array have no names. -/
def collect : Kind → List (Bytes × Json) → Json
  | array, parts => .array (parts.map (·.2))
  | object, parts => .object parts

end Kind

/-- The name of a member, with the white space behind it and behind the colon. -/
structure Name where
  glyphs : List Glyph
  after : Bytes
  afterColon : Bytes

def Name.text (name : Name) : Bytes :=
  quoted name.glyphs ++ (name.after ++ Bytes.char ':' :: name.afterColon)

def Name.Valid (name : Name) : Prop :=
  (∀ g ∈ name.glyphs, g.Valid) ∧ Blank name.after ∧ Blank name.afterColon

/-- A part of an array or object: the white space behind the comma in front of it, if there is one, its name, if it
has one, and its value. -/
structure Part (β : Type) where
  comma : Option Bytes
  name : Option Name
  value : β

/-- A tree of the concrete syntax. -/
inductive Concrete where
  | keyword (word : Keyword) (after : Bytes)
  | number (spelling after : Bytes)
  | string (glyphs : List Glyph) (after : Bytes)
  | container (kind : Kind) (opening : Bytes) (parts : List (Part Concrete)) (after : Bytes)

/-- A comma with white space behind it. -/
def commaText : Option Bytes → Bytes
  | none => []
  | some blanks => Bytes.char ',' :: blanks

/-- A name, if there is one. -/
def nameText : Option Name → Bytes
  | none => []
  | some name => name.text

/-- What a name stands for, if there is one. -/
def nameDenoted : Option Name → Bytes
  | none => []
  | some name => denoted name.glyphs

/-- A comma separates parts. If it may be `stray`, one may stand in front of the first part. -/
def CommaFits (stray first : Bool) : Option Bytes → Prop
  | none => first = true
  | some blanks => (first = false ∨ stray = true) ∧ Blank blanks

/-- Members have names, and elements have none. -/
def NameFits : Kind → Option Name → Prop
  | .array, none => True
  | .object, some name => name.Valid
  | _, _ => False

namespace Concrete

mutual

/-- The text of a tree, with the white space behind it. -/
def text : Concrete → Bytes
  | keyword word after => word.text ++ after
  | number spelling after => spelling ++ after
  | string glyphs after => quoted glyphs ++ after
  | container kind opening parts after =>
    kind.opens :: (opening ++ (textOfParts parts ++ kind.closes :: after))
termination_by structural c => c

/-- The text between brackets. -/
def textOfParts : List (Part Concrete) → Bytes
  | [] => []
  | ⟨comma, name, value⟩ :: rest => commaText comma ++ (nameText name ++ (value.text ++ textOfParts rest))
termination_by structural parts => parts

end

mutual

/-- The document that a tree stands for. -/
def doc : Concrete → Json
  | keyword word _ => word.doc
  | number spelling _ => .number spelling
  | string glyphs _ => .string (denoted glyphs)
  | container kind _ parts _ => kind.collect (docOfParts parts)
termination_by structural c => c

/-- The parts of the document. -/
def docOfParts : List (Part Concrete) → List (Bytes × Json)
  | [] => []
  | ⟨_, name, value⟩ :: rest => (nameDenoted name, value.doc) :: docOfParts rest
termination_by structural parts => parts

end

variable (stray : Bool)

mutual

/-- A tree follows the grammar, where commas may be stray or not. -/
def Formed : Concrete → Prop
  | keyword _ after => Blank after
  | number spelling after => IsNumber spelling ∧ Blank after
  | string glyphs after => (∀ g ∈ glyphs, g.Valid) ∧ Blank after
  | container kind opening parts after => Blank opening ∧ FormedParts kind true parts ∧ Blank after
termination_by structural c => c

/-- The parts of an array or object do, of which the first one may have something to itself. -/
def FormedParts (kind : Kind) : Bool → List (Part Concrete) → Prop
  | _, [] => True
  | first, ⟨comma, name, value⟩ :: rest =>
    CommaFits stray first comma ∧ NameFits kind name ∧ Formed value ∧ FormedParts kind false rest
termination_by structural _ parts => parts

end

end Concrete

/-! ## Texts -/

/-- A JSON text of RFC 7159, if no comma is `stray`. -/
def IsText (stray : Bool) (t : Bytes) : Prop :=
  ∃ before c, Blank before ∧ Concrete.Formed stray c ∧ t = before ++ c.text

end Packrat.Json
