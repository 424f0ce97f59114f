import FiniteAutomata.Ordered.Set

/-! State numbers and sets of them. -/
namespace FiniteAutomata

/-- The number of a state. In a fragment the numbers are handed out by a session;
in a deterministic automaton they count its states from 0. -/
abbrev State := Nat

/-- A set of states. Equal sets are equal values, so a set can name a state of
the deterministic automaton that stands for it. -/
abbrev StateSet := SortedSet State

namespace StateSet

/-- The members in braces, separated by commas. -/
def text (s : StateSet) : String :=
  "\x7b" ++ String.intercalate "," (s.toList.map toString) ++ "\x7d"

end StateSet

/-- Whose states are numbered. -/
inductive Numbering where
  /-- The states of a fragment. -/
  | fragment
  /-- The states of a deterministic automaton. -/
  | deterministic

namespace Numbering

/-- The name of a kind of state number. -/
def name : Numbering → String
  | fragment => "StateId"
  | deterministic => "DfaStateId"

/-- A state number with the name of its kind. -/
def describe (n : Numbering) (s : State) : String := n.name ++ "(" ++ toString s ++ ")"

end Numbering

namespace State

/-- The number that comes first. -/
def first : State := 0

/-- State numbers in ascending order. -/
def sort (states : List State) : List State := states.mergeSort fun a b => decide (a ≤ b)

/-- The items that stand at the given positions; positions past the end are
passed over. -/
def select {α : Type} (items : List α) (states : List State) : List α :=
  states.filterMap fun s => items[s]?

/-- The items with the one at each given position replaced by `value` of that
position. -/
def overwrite {α : Type} (value : State → α) (items : List α) (states : List State) : List α :=
  states.foldl (fun items s => items.set s (value s)) items

end State

end FiniteAutomata
