import FiniteAutomata.Dfa.Basic
import FiniteAutomata.Fragment.Basic

/-! Drawings of automata as directed graphs. The start state is drawn in blue, and accepting
states are drawn in red. How a drawing is written down is left to a writer, which is asked for
one node or edge after another. -/
namespace FiniteAutomata

namespace Drawing

/-- What makes a node stand out. -/
inductive Mark where
  | circle
  | blue
  | red
  /-- The pen is three points wide. -/
  | thick
  deriving DecidableEq, Repr

/-- What is set for a node or an edge. -/
inductive Attribute where
  | label (text : String)
  | mark (mark : Mark)
  deriving DecidableEq, Repr

/-- What a writer is asked for. Attributes are in the order in which they are set. -/
inductive Statement where
  /-- The label of the whole drawing. -/
  | label (text : String)
  /-- The drawing runs from left to right. -/
  | leftToRight
  | node (name : String) (attributes : List Attribute)
  | edge (source target : String) (attributes : List Attribute)
  deriving DecidableEq, Repr

/-- A writer gets all that it is asked for and gives the text of the drawing. -/
abbrev Writer := List Statement → String

/-- A drawing with a label and the given nodes and edges. -/
def render (write : Writer) (label : String) (body : List Statement) : String :=
  write (.label label :: .leftToRight :: body)

/-- The edge for one transition. -/
def transitionEdge (source target : String) (label : String) : Statement :=
  .edge source target [.label (Text.escapeLabel label)]

/-- The marks of a start state. -/
def startMarks : List Attribute := [.mark .circle, .mark .blue, .mark .thick]

end Drawing

namespace Fragment

variable {σ : Type} [Symbol σ]

/-- The name of a state in a drawing. -/
def nodeName (s : State) : String := "s" ++ toString s

/-- The node of a state. -/
def drawnState (x : Fragment σ) (s : State) : Drawing.Statement :=
  .node (nodeName s)
    (.label (toString s) ::
      (if s = x.start then Drawing.startMarks else []) ++
      if s = x.final then [.mark .circle, .mark .red, .mark .thick] else [])

/-- The nodes of the fragment, each followed by its outgoing edges. -/
def drawing (x : Fragment σ) : List Drawing.Statement :=
  x.graph.rows.flatMap fun row =>
    x.drawnState row.1 :: row.2.map fun a =>
      Drawing.transitionEdge (nodeName row.1) (nodeName a.target) a.weight.text

/-- The fragment drawn under a label. -/
def draw (write : Drawing.Writer) (x : Fragment σ) (label : String) : String :=
  Drawing.render write label x.drawing

end Fragment

namespace Dfa

variable {σ : Type} [Symbol σ]

/-- The name of a state in a drawing. -/
def nodeName (s : State) : String := "d" ++ toString s

/-- The node of a state, which shows the set that it stands for. -/
def drawnState (d : Dfa σ) (s : State) (members : StateSet) : Drawing.Statement :=
  .node (nodeName s)
    (.label (toString s ++ "\n" ++ members.text) ::
      (if s = d.start then Drawing.startMarks else []) ++
      if d.isAccepting s then [.mark .red, .mark .thick] else [])

/-- The nodes of the automaton and then its edges. -/
def drawing (d : Dfa σ) : List Drawing.Statement :=
  d.numberedStates.map (fun (s, members) => d.drawnState s members) ++
    d.graph.rows.flatMap fun row => row.2.map fun a =>
      Drawing.transitionEdge (nodeName row.1) (nodeName a.target) (Symbol.text a.weight)

/-- The automaton drawn under a label. -/
def draw (write : Drawing.Writer) (d : Dfa σ) (label : String) : String :=
  Drawing.render write label d.drawing

end Dfa

end FiniteAutomata
