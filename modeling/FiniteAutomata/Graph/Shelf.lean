import FiniteAutomata.Graph

/-! Graphs kept under names. A name under which nothing was put stands for the
empty graph. -/
namespace FiniteAutomata

/-- Graphs under names. -/
structure GraphShelf (V W : Type) [Ord V] where
  graphs : SortedMap String (Graph V W)

namespace GraphShelf

variable {V W : Type} [Ord V]

/-- The shelf with nothing on it. -/
def new : GraphShelf V W := ⟨∅⟩

/-- The graph with a given name. -/
def get (shelf : GraphShelf V W) (name : String) : Graph V W :=
  (shelf.graphs.get? name).getD ∅

/-- Put a graph under a name. -/
def put (shelf : GraphShelf V W) (name : String) (g : Graph V W) : GraphShelf V W :=
  ⟨shelf.graphs.insert name g⟩

/-- Change the graph with a given name. -/
def change (shelf : GraphShelf V W) (name : String) (f : Graph V W → Graph V W) :
    GraphShelf V W :=
  shelf.put name (f (shelf.get name))

/-- Make the graph `name` a copy of `other`. -/
def copy (shelf : GraphShelf V W) (name other : String) : GraphShelf V W :=
  shelf.put name (shelf.get other)

/-- Let the graph `name` absorb the graph `other`, which is empty afterwards. A
graph that absorbs itself stays as it is. -/
def absorb [DecidableEq V] [Std.TransOrd V] [Std.LawfulEqOrd V] (shelf : GraphShelf V W)
    (name other : String) : GraphShelf V W :=
  if name = other then shelf
  else (shelf.put other ∅).put name ((shelf.get name).absorb (shelf.get other))

end GraphShelf

end FiniteAutomata
