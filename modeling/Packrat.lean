import Packrat.Bytes
import Packrat.Decimal
import Packrat.Utf8
import Packrat.CaseFold
import Packrat.Position
import Packrat.Position.Locator
import Packrat.Diagnostic
import Packrat.Fault
import Packrat.Spelling
import Packrat.CharClass
import Packrat.Terminal
import Packrat.Cursor
import Packrat.Matcher
import Packrat.Value
import Packrat.Value.Text
import Packrat.Value.Depth
import Packrat.Grammar.Expr
import Packrat.Grammar.Builder
import Packrat.Grammar.Link
import Packrat.Grammar.Combinators
import Packrat.Action
import Packrat.Watch
import Packrat.Eval
import Packrat.Parse
import Packrat.Source.Meta
import Packrat.Source.Translate
import Packrat.Source.Compile
import Packrat.Stream
import Packrat.Transcript
import Packrat.Folder
import Packrat.TreeDump
import Packrat.Calculator.Arithmetic
import Packrat.Calculator.Program
import Packrat.Json.Document
import Packrat.Json.Printer
import Packrat.Json.Formatter
import Packrat.Main
import Packrat.Proofs.Coding
import Packrat.Proofs.Queries
import Packrat.Proofs.Encodings
import Packrat.Proofs.Trace
import Packrat.Proofs.ByteOrder
import Packrat.Proofs.Simulation
import Packrat.Proofs.Memoization
import Packrat.Proofs.Outcome
import Packrat.Proofs.Diagnostics
import Packrat.Proofs.Furthest
import Packrat.Proofs.Pattern
import Packrat.Proofs.Recognition
import Packrat.Proofs.Runs
import Packrat.Proofs.Primitives
import Packrat.Proofs.Lockstep
import Packrat.Proofs.Tracking
import Packrat.Proofs.Journal
import Packrat.Proofs.Machine
import Packrat.Proofs.Termination
import Packrat.Proofs.Scoping
import Packrat.Proofs.Linking
import Packrat.Proofs.Extents
import Packrat.Proofs.Soundness
import Packrat.Proofs.Shape
import Packrat.Proofs.Translation
import Packrat.Proofs.Reading
import Packrat.Proofs.Refusal
import Packrat.Proofs.Nonterminals
import Packrat.Proofs.Printing
import Packrat.Proofs.Tokens
import Packrat.Proofs.Meaning
import Packrat.Proofs.HostReading
import Packrat.Proofs.TerminalReading
import Packrat.Proofs.ExprReading
import Packrat.Proofs.RoundTrip
import Packrat.Proofs.History
import Packrat.Proofs.Course
import Packrat.Proofs.Arithmetic
import Packrat.Proofs.Calculation
import Packrat.Proofs.Likeness
import Packrat.Proofs.Json.Text
import Packrat.Proofs.Json.Rules
import Packrat.Proofs.Json.Tree
import Packrat.Proofs.Json.Reading
import Packrat.Proofs.Json.Parsing
import Packrat.Proofs.Resynchrony
import Packrat.Proofs.CaseClasses
import Packrat.Proofs.Json.Strings
import Packrat.Proofs.Scanning
import Packrat.Proofs.Folding
import Packrat.Proofs.Splitting
import Packrat.Proofs.Json.Acceptance
import Packrat.Proofs.Json.Formatting
import Packrat.Proofs.Origins
import Packrat.Proofs.SourceTrees
import Packrat.Proofs.Literals
import Packrat.Proofs.DepthLimit
import Packrat.Proofs.Visits
import Packrat.Proofs.Survival
import Packrat.Proofs.Retagging
import Packrat.Proofs.Embedding
import Packrat.Proofs.Inclusion
import Packrat.Proofs.Qualification
import Packrat.Proofs.Hygiene
import Packrat.Proofs.Recognisers
import Packrat.Proofs.Operators
import Packrat.Proofs.Positions
import Packrat.Proofs.Brackets
import Packrat.Proofs.Indexing
import Packrat.Proofs.Interruption
import Packrat.Proofs.Spacing
import Packrat.Proofs.Streams
import Packrat.Proofs.Readability
