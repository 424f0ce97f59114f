import FiniteAutomata.Drawing

/-! A writer for drawings in the dot notation, with a line for each statement. -/
namespace FiniteAutomata.Dot

open Drawing

/-- The written form of what makes a node stand out. -/
def mark : Mark → String
  | .circle => "shape=circle"
  | .blue => "color=blue"
  | .red => "color=red"
  | .thick => "penwidth=3"

/-- The written form of an attribute. A label stands between quotes as it is. -/
def text : Attribute → String
  | .label text => "label=\"" ++ text ++ "\""
  | .mark m => mark m

/-- Attributes in brackets. -/
def listed (attributes : List Attribute) : String :=
  " [" ++ String.intercalate ", " (attributes.map text) ++ "]"

/-- The written form of a statement. -/
def statement : Statement → String
  | .label text => "label=\"" ++ text ++ "\""
  | .leftToRight => "rankdir=LR"
  | .node name attributes => name ++ listed attributes
  | .edge source target attributes => source ++ " -> " ++ target ++ listed attributes

/-- A drawing in the dot notation. -/
def write : Writer := fun statements =>
  "digraph \x7b\n" ++ String.join (statements.map fun s => "  " ++ statement s ++ ";\n") ++ "\x7d\n"

end FiniteAutomata.Dot
