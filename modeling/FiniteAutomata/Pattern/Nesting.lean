import FiniteAutomata.Pattern.Position

/-! How deeply a part of a pattern is nested. A part knows, for each level of
nesting inside it, the first place where that level occurs, so a limit on the
depth can be checked at the end and the offending place named. -/
namespace FiniteAutomata.Pattern

/-- For each depth the span of the first part that lies that deep. -/
abbrev Levels := List Span

namespace Levels

/-- The levels of two parts side by side; the part on the left comes first. -/
def beside : Levels → Levels → Levels
  | [], right => right
  | left, [] => left
  | span :: left, _ :: right => span :: beside left right

/-- The levels of parts side by side. -/
def besideAll (parts : List Levels) : Levels := parts.foldr beside []

/-- The levels of a part with the given span around what it contains. -/
def enclose (span : Span) (inside : Levels) : Levels := span :: inside

end Levels

/-- A part of a pattern that has been read. -/
structure Piece (α : Type) where
  value : α
  span : Span
  levels : Levels
  deriving Repr

namespace Piece

/-- A part that contains no other. -/
def leaf {α : Type} (value : α) (span : Span) : Piece α := ⟨value, span, []⟩

/-- A part around others. -/
def around {α : Type} (value : α) (span : Span) (inside : List Levels) : Piece α :=
  ⟨value, span, .enclose span (.besideAll inside)⟩

end Piece

end FiniteAutomata.Pattern
