/-! Places in the text of a pattern. A position counts bytes of the UTF-8 form,
lines, and characters of the line; a span runs from one position to another. -/
namespace FiniteAutomata.Pattern

/-- A place between two characters of a text. Bytes are counted from 0, lines and
columns from 1. -/
structure Position where
  offset : Nat
  line : Nat
  column : Nat
  deriving DecidableEq, Repr

/-- The part of a text between two positions. -/
structure Span where
  start : Position
  stop : Position
  deriving DecidableEq, Repr

namespace Position

/-- The beginning of a text. -/
def origin : Position := ⟨0, 1, 1⟩

/-- The position behind a character that stands at this one. -/
def advance (p : Position) (c : Char) : Position :=
  if c = '\n' then ⟨p.offset + c.utf8Size, p.line + 1, 1⟩
  else ⟨p.offset + c.utf8Size, p.line, p.column + 1⟩

/-- A position with the names of its three counts. -/
def text (p : Position) : String :=
  "Position(o: " ++ toString p.offset ++ ", l: " ++ toString p.line ++ ", c: " ++
    toString p.column ++ ")"

end Position

namespace Span

/-- The empty span at a position. -/
def point (p : Position) : Span := ⟨p, p⟩

/-- The span of a character that stands at a position. -/
def ofChar (p : Position) (c : Char) : Span := ⟨p, p.advance c⟩

/-- Whether the span begins and ends on the same line. -/
def isOneLine (s : Span) : Bool := s.start.line == s.stop.line

/-- Whether a span begins before another one, or ends before it when both begin
at the same place. -/
def precedes (s t : Span) : Bool :=
  decide (s.start.offset < t.start.offset) ||
    s.start.offset == t.start.offset && decide (s.stop.offset ≤ t.stop.offset)

/-- A span with the texts of both ends. -/
def text (s : Span) : String := "Span(" ++ s.start.text ++ ", " ++ s.stop.text ++ ")"

end Span

/-- A value together with the part of the text it was read from. -/
structure Located (α : Type) where
  value : α
  span : Span
  deriving DecidableEq, Repr

end FiniteAutomata.Pattern
