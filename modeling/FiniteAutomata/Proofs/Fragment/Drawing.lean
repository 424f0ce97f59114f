import FiniteAutomata.Proofs.Dot
import FiniteAutomata.Proofs.Fragment.Combine

/-! The drawing of a fragment. It shows the vertices in ascending order, each with its outgoing
edges behind it, and the start and the final state by their marks. Of an edge it shows what is
written for the label, and the empty label is written as a letter that is a symbol as well. -/
namespace FiniteAutomata.Fragment

open Drawing

variable {σ : Type} [Symbol σ] {x y : Fragment σ}

/-- The rows of the graph, with what is written for the labels. -/
def writtenRows (x : Fragment σ) : List (State × List (Arrow State String)) :=
  x.graph.rows.map fun row => (row.1, row.2.map fun a => ⟨a.target, a.weight.text⟩)

/-- The rows with the marks of the vertices. -/
def shownRows (x : Fragment σ) : List ((State × Bool × Bool) × List (Arrow State String)) :=
  x.writtenRows.map fun row =>
    ((row.1, decide (row.1 = x.start), decide (row.1 = x.final)), row.2)

section Letter

end Letter

end FiniteAutomata.Fragment
