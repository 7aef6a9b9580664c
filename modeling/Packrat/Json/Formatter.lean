import Packrat.Folder
import Packrat.Json.Printer
import Packrat.Stream
import Packrat.Transcript

/-!
# `Packrat.Json.Formatter` — laying out JSON texts anew

## Contents
- **Options.** `Request` is what the arguments ask for; `Request.ofArgs` reads them from left to right.
- **Numbers.** `leadingInt32?` reads the number at the front of an argument.
- **Running.** `run`, on the request's text.
-/

namespace Packrat.Json

/-! ## Numbers -/

/-- The number at the front of an argument: blanks, a sign, and at least one digit. What follows the digits is
not looked at, and a number that does not fit in 32 bits is none. -/
def leadingInt32? (arg : Bytes) : Option Int :=
  let arg := arg.dropWhile fun b => b == 0x20 || (0x09 ≤ b && b ≤ 0x0D)
  let (negative, digits) := match arg with
    | [] => (false, [])
    | b :: rest =>
      if b == Bytes.char '-' then (true, rest)
      else if b == Bytes.char '+' then (false, rest)
      else (false, b :: rest)
  match Decimal.digits? (digits.takeWhile Decimal.isDigit) with
  | none => none
  | some n =>
    let n : Int := if negative then -n else n
    if Int32.minValue.toInt ≤ n && n ≤ Int32.maxValue.toInt then some n else none

/-! ## Options -/

/-- What the arguments ask for. -/
structure Request where
  file : Bytes := Bytes.ascii "-"
  indent : Int := 2
  compact : Bool := false
  quiet : Bool := false

/-- How reading the arguments ends. -/
inductive Reading where
  | request (r : Request)
  | help
  | mistake (message : Bytes)

/-- What an argument means. -/
inductive Argument where
  | help
  | compact
  | quiet
  /-- The next argument is the indentation. -/
  | indent
  | unknown
  | file

/-- Whether an argument is one of the two spellings of an option. -/
def isOption (arg : Bytes) (short long : String) : Bool :=
  arg == Bytes.ascii short || arg == Bytes.ascii long

/-- The meaning of an argument. A single dash is the name of a file. -/
def Argument.of (arg : Bytes) : Argument :=
  if isOption arg "-h" "--help" then .help
  else if isOption arg "-c" "--compact" then .compact
  else if isOption arg "-q" "--quiet" then .quiet
  else if isOption arg "-i" "--indent" then .indent
  else if 1 < arg.length && arg.head? == some (Bytes.char '-') then .unknown
  else .file

/-- Reads arguments from left to right on top of what is asked for already. -/
def Request.read (r : Request) : List Bytes → Reading
  | [] => .request r
  | arg :: rest =>
    match Argument.of arg, rest with
    | .help, _ => .help
    | .compact, rest => { r with compact := true }.read rest
    | .quiet, rest => { r with quiet := true }.read rest
    | .unknown, _ => .mistake (Bytes.ascii "Unknown option: " ++ arg)
    | .file, rest => { r with file := arg }.read rest
    | .indent, [] => .mistake (Bytes.ascii "Missing argument for option: " ++ arg)
    | .indent, next :: rest =>
      match leadingInt32? next with
      | some n => { r with indent := n }.read rest
      | none => .mistake (Bytes.ascii "stoi")
termination_by args => args.length

/-- What the arguments ask for. -/
def Request.ofArgs (args : List Bytes) : Reading := ({} : Request).read args

/-! ## Running -/

/-- How the program is used. -/
def usage : Bytes :=
  Bytes.ascii <| String.join
    ["Usage: jsonformat [options] [file|-]\n",
      "Options:\n",
      "  -c, --compact     Write without whitespace\n",
      "  -i, --indent N    Indent nested values by N spaces\n",
      "  -q, --quiet       Only set exit code\n",
      "  -h, --help        Show this help\n",
      "If no file is specified, reads from stdin.\n"]

/-- The transcript of a program that ends with a message. -/
def complaint (message : Bytes) : Transcript := ⟨255, [], reportLine "ERROR: " message⟩

/-- The layout that a request asks for; a negative indentation makes none unless the layout is compact. -/
def Request.layout? (r : Request) : Option Layout :=
  if r.compact then some .compact
  else if r.indent < 0 then none
  else some (.pretty r.indent.toNat)

/-- The text of a document in the layout of a request. -/
def Request.format (r : Request) (tree : Spanned Value) : Transcript :=
  match r.layout? with
  | none => complaint (Bytes.ascii "basic_string::_M_create")
  | some layout => ⟨0, ((ofValue? tree.value).map (write layout 0)).getD [] ++ [0x0A], []⟩

/-- Parses a text and writes it as requested. -/
def Request.run (r : Request) (text : Bytes) : Transcript :=
  match parse text with
  | .error fault => complaint fault.message
  | .ok (.failure e) => ⟨1, if r.quiet then [] else reportLine "Invalid JSON: " e.message, []⟩
  | .ok (.tree tree) => r.format tree

/-- Runs the program; `file` tells what opening a path gives. -/
def run (args : List Bytes) (stdin : Bytes) (file : Bytes → Opened) : Transcript :=
  match Request.ofArgs args with
  | .help => ⟨0, usage, []⟩
  | .mistake message => complaint message
  | .request r =>
    if r.file == Bytes.ascii "-" then r.run ((Stream.ofText stdin).read false).1
    else
      match file r.file with
      | .missing => complaint (Bytes.ascii "Failed to open file: " ++ r.file)
      | .folder => complaint folderRead
      | .file text => r.run ((Stream.ofText text).read false).1

end Packrat.Json
