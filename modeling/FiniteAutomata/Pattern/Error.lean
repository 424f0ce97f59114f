import FiniteAutomata.Pattern.Position

/-! What can be wrong with the text of a pattern, and how it is shown: the
pattern, carets under the offending part, and the complaint. -/
namespace FiniteAutomata.Pattern

/-- The deepest nesting a pattern may have. -/
def nestLimit : Nat := 250

/-- What is wrong with a pattern. -/
inductive Complaint where
  | classEscapeInvalid
  | classRangeInvalid
  | classRangeLiteral
  | classUnclosed
  | decimalInvalid
  | escapeHexEmpty
  | escapeHexInvalid
  | escapeHexInvalidDigit
  | escapeUnexpectedEnd
  | escapeUnrecognized
  | flagDanglingNegation
  | flagDuplicate (earlier : Span)
  | flagRepeatedNegation (earlier : Span)
  | flagUnexpectedEnd
  | flagUnrecognized
  | groupNameDuplicate (earlier : Span)
  | groupNameEmpty
  | groupNameInvalid
  | groupNameUnexpectedEnd
  | groupUnclosed
  | groupUnopened
  | nestedTooDeep
  | repetitionCountInvalid
  | repetitionCountEmpty
  | repetitionCountUnclosed
  | repetitionMissing
  | specialBoundaryUnclosed
  | specialBoundaryUnrecognized
  | specialBoundaryUnexpectedEnd
  | unicodeClassInvalid
  | backreference
  | lookAround
  deriving DecidableEq, Repr

namespace Complaint

/-- The wording of a complaint. -/
def message : Complaint → String
  | classEscapeInvalid => "invalid escape sequence found in character class"
  | classRangeInvalid => "invalid character class range, the start must be <= the end"
  | classRangeLiteral => "invalid range boundary, must be a literal"
  | classUnclosed => "unclosed character class"
  | decimalInvalid => "decimal literal invalid"
  | escapeHexEmpty => "hexadecimal literal empty"
  | escapeHexInvalid => "hexadecimal literal is not a Unicode scalar value"
  | escapeHexInvalidDigit => "invalid hexadecimal digit"
  | escapeUnexpectedEnd => "incomplete escape sequence, reached end of pattern prematurely"
  | escapeUnrecognized => "unrecognized escape sequence"
  | flagDanglingNegation => "dangling flag negation operator"
  | flagDuplicate _ => "duplicate flag"
  | flagRepeatedNegation _ => "flag negation operator repeated"
  | flagUnexpectedEnd => "expected flag but got end of regex"
  | flagUnrecognized => "unrecognized flag"
  | groupNameDuplicate _ => "duplicate capture group name"
  | groupNameEmpty => "empty capture group name"
  | groupNameInvalid => "invalid capture group character"
  | groupNameUnexpectedEnd => "unclosed capture group name"
  | groupUnclosed => "unclosed group"
  | groupUnopened => "unopened group"
  | nestedTooDeep =>
    "exceed the maximum number of nested parentheses/brackets (" ++ toString nestLimit ++ ")"
  | repetitionCountInvalid =>
    "invalid repetition count range, the start must be <= the end"
  | repetitionCountEmpty => "repetition quantifier expects a valid decimal"
  | repetitionCountUnclosed => "unclosed counted repetition"
  | repetitionMissing => "repetition operator missing expression"
  | specialBoundaryUnclosed =>
    "special word boundary assertion is either unclosed or contains an invalid character"
  | specialBoundaryUnrecognized =>
    "unrecognized special word boundary assertion, valid choices are: " ++
      "start, end, start-half or end-half"
  | specialBoundaryUnexpectedEnd =>
    "found either the beginning of a special word boundary or a bounded repetition " ++
      "on a \\b with an opening brace, but no closing brace"
  | unicodeClassInvalid => "invalid Unicode character class"
  | backreference => "backreferences are not supported"
  | lookAround => "look-around, including look-ahead and look-behind, is not supported"

/-- The earlier part of the pattern that a complaint refers to. -/
def earlier? : Complaint → Option Span
  | flagDuplicate earlier => some earlier
  | flagRepeatedNegation earlier => some earlier
  | groupNameDuplicate earlier => some earlier
  | _ => none

end Complaint

/-- Why a pattern cannot be read. -/
structure Error where
  complaint : Complaint
  /-- The offending part of the pattern. -/
  span : Span
  /-- The whole pattern. -/
  pattern : String
  deriving DecidableEq, Repr

namespace Error

/-- Cut a text behind each line feed. A line feed at the end opens no new line,
and a carriage return before a line feed belongs to neither line. -/
def lines : List Char → List (List Char)
  | [] => []
  | '\n' :: rest => [] :: lines rest
  | '\r' :: '\n' :: rest => [] :: lines rest
  | c :: rest =>
    match lines rest with
    | [] => [[c]]
    | line :: more => (c :: line) :: more

/-- The parts of the pattern to be marked, in the order of their places. -/
def marks (e : Error) : List Span :=
  match e.complaint.earlier? with
  | none => [e.span]
  | some earlier =>
    if earlier.precedes e.span then [earlier, e.span] else [e.span, earlier]

/-- Carets under the given columns; `column` is the first column not yet written. -/
def carets (column : Nat) : List Span → List Char
  | [] => []
  | s :: rest =>
    let width := max 1 (s.stop.column - s.start.column)
    List.replicate (s.start.column - column) ' ' ++ List.replicate width '^' ++
      carets (max column s.start.column + width) rest

/-- Blanks before a number so that it has the given width. -/
def padLeft (width : Nat) (s : String) : String :=
  String.ofList (List.replicate (width - s.length) ' ') ++ s

/-- The line of a pattern with a given number, and carets below it if something
is marked there. A width of 0 stands for a pattern of a single line. -/
def markedLine (e : Error) (width : Nat) (number : Nat) (line : List Char) : String :=
  let head := if width = 0 then "    " else padLeft width (toString number) ++ ": "
  let here := e.marks.filter fun s => s.isOneLine && s.start.line == number
  let below :=
    if here.isEmpty then ""
    else String.ofList (List.replicate head.length ' ' ++ carets 1 here) ++ "\n"
  head ++ String.ofList line ++ "\n" ++ below

/-- A note on a marked part that runs over several lines. -/
def lineNote (s : Span) : String :=
  "on line " ++ toString s.start.line ++ " (column " ++ toString s.start.column ++
    ") through line " ++ toString s.stop.line ++ " (column " ++
    toString (s.stop.column - 1) ++ ")\n"

/-- The pattern with its marks. -/
def excerpt (e : Error) : String :=
  let text := e.pattern.toList
  let parts := lines text
  let count := if text.getLast? = some '\n' then parts.length + 1 else parts.length
  let width := if count ≤ 1 then 0 else (toString count).length
  String.join (parts.zipIdx.map fun (line, i) => e.markedLine width (i + 1) line)

/-- The whole report. -/
def message (e : Error) : String :=
  let ending := "error: " ++ e.complaint.message
  if e.pattern.toList.contains '\n' then
    let divider := String.ofList (List.replicate 79 '~') ++ "\n"
    let notes := e.marks.filter fun s => !s.isOneLine
    "regex parse error:\n" ++ divider ++ e.excerpt ++ divider ++
      String.join (notes.map lineNote) ++ ending
  else
    "regex parse error:\n" ++ e.excerpt ++ ending

end Error

end FiniteAutomata.Pattern
