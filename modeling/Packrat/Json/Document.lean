import Packrat.Source.Compile

/-!
# `Packrat.Json.Document` — JSON texts

## Contents
- **Documents.** `Json`, with numbers as they are spelled and members in their order.
- **The grammar.** Its source, its one action, and `grammar?`.
- **Reading.** `ofValue?` reads the document off a tree; `parse` parses a text.
-/

namespace Packrat

/-! ## Documents -/

/-- A JSON document. -/
inductive Json where
  | null
  | bool (b : Bool)
  | number (spelling : Bytes)
  | string (text : Bytes)
  | array (elements : List Json)
  | object (members : List (Bytes × Json))

namespace Json

/-! ## The grammar -/

/-- The actions of the JSON grammar. -/
inductive JsonAction where
  /-- The character whose code point the digits of the first argument give in base 16. -/
  | codepoint

/-- The number that a run of hexadecimal digits denotes. -/
def hexNumber (digits : Bytes) : Nat :=
  digits.foldl (fun n b => 16 * n + (hexDigit? b).getD 0) 0

/-- What the action does. -/
def act : JsonAction → Context → ActionM Unit Value
  | .codepoint, ctx => do
    let digits ← ActionM.lift (ctx.value 0)
    return .text (Utf8.encode (hexNumber digits.toText))

/-- The client of the JSON grammar. -/
def client : Client JsonAction Unit := { act }

/-- The source of the JSON grammar. -/
def source : Bytes :=
  Bytes.ascii <| String.join
    ["JSON    <- _ v:Value !. \x7b v \x7d\n",
      "Value   <- Object / Array / String / Number / Keyword\n",
      "Object  <- '\\\x7b' _ first:Member? rest:(',' _ m:Member \x7bm\x7d)* '\\\x7d' _ ",
      "\x7b Object(concat(first, rest)) \x7d\n",
      "Member  <- k:String ':' _ v:Value \x7b Member(k, v) \x7d\n",
      "Array   <- '[' _ first:Value? rest:(',' _ v:Value \x7bv\x7d)* ']' _ ",
      "\x7b Array(concat(first, rest)) \x7d\n",
      "String  <- '\"' s:Char* '\"' _ \x7b text(s) \x7d\n",
      "Char    <- '\\\\' e:Escape \x7b e \x7d\n",
      "         / c:[^\"\\\\\\x00-\\x1f] \x7b c \x7d\n",
      "Escape  <- 'u' h:(Hex Hex Hex Hex) \x7b codepoint(h) \x7d\n",
      "         / 'b' \x7b \"\\x08\" \x7d / 'f' \x7b \"\\x0c\" \x7d / 'n' \x7b \"\\n\" \x7d",
      " / 'r' \x7b \"\\r\" \x7d / 't' \x7b \"\\t\" \x7d\n",
      "         / c:[\"\\\\/] \x7b c \x7d\n",
      "Hex     <- [0-9a-fA-F]\n",
      "Number  <- n:('-'? ('0' / [1-9] [0-9]*) ('.' [0-9]+)? ([eE] [+-]? [0-9]+)?) _ ",
      "\x7b Number(n) \x7d\n",
      "Keyword <- 'true' _ \x7b true \x7d / 'false' _ \x7b false \x7d / 'null' _ \x7b Null() \x7d\n",
      "_       <- [ \\t\\r\\n]*\n"]

/-- The options under which the JSON grammar is compiled. -/
def options : Source.Options JsonAction := { actions := [(Bytes.ascii "codepoint", .codepoint)] }

/-- The JSON grammar. -/
def grammar? : Except Fault (Grammar JsonAction) := Source.compile source options

/-! ## Reading -/

mutual

/-- The document that a tree of the JSON grammar stands for. -/
def ofValue? : Value → Option Json
  | .bool b => some (.bool b)
  | .text t => some (.string t)
  | .node tag [] => if tag == Bytes.ascii "Null" then some .null else none
  | .node tag [(_, ⟨.text t, _, _⟩)] =>
    if tag == Bytes.ascii "Number" then some (.number t) else none
  | .node tag [(_, ⟨.list elements, _, _⟩)] =>
    if tag == Bytes.ascii "Array" then (ofElements? elements).map .array
    else if tag == Bytes.ascii "Object" then (ofMembers? elements).map .object
    else none
  | _ => none
termination_by structural v => v

/-- The elements that the trees in a list stand for. -/
def ofElements? : List (Spanned Value) → Option (List Json)
  | [] => some []
  | ⟨v, _, _⟩ :: rest => (ofValue? v).bind fun j => (ofElements? rest).map (j :: ·)
termination_by structural elements => elements

/-- The members that the trees in a list stand for. -/
def ofMembers? : List (Spanned Value) → Option (List (Bytes × Json))
  | [] => some []
  | ⟨.node _ [(_, ⟨.text k, _, _⟩), (_, ⟨v, _, _⟩)], _, _⟩ :: rest =>
    (ofValue? v).bind fun j => (ofMembers? rest).map ((k, j) :: ·)
  | _ :: _ => none
termination_by structural members => members

end

/-- Parses a JSON text. -/
def parse (text : Bytes) : Except Fault Outcome := do
  let g ← grammar?
  (parseFresh g client () text).1

end Json

end Packrat
