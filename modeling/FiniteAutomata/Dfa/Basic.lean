import FiniteAutomata.Fault
import FiniteAutomata.Graph

/-! Deterministic automata. Each state stands for a set of states of a fragment.
State 0 is the start; a missing edge for a symbol means that the word is
rejected. -/
namespace FiniteAutomata

/-- A state with its number and the set that it stands for. -/
structure DfaState where
  id : State
  members : StateSet
  deriving DecidableEq, Repr

/-- A deterministic automaton. -/
structure Dfa (σ : Type) [Symbol σ] where
  /-- The states, in the order in which they were made. -/
  entries : List DfaState
  accepting : SortedSet State
  alphabet : SortedSet σ
  graph : Graph State σ
  deriving DecidableEq

namespace Dfa

variable {σ : Type} [Symbol σ]

/-- The automaton without states. -/
def empty (alphabet : SortedSet σ) : Dfa σ := ⟨[], ∅, alphabet, ∅⟩

/-- The state in which every run begins. -/
def start (_d : Dfa σ) : State := State.first

/-- The sets that the states stand for. -/
def states (d : Dfa σ) : List StateSet := d.entries.map DfaState.members

/-- The numbers of the states, each with its set. -/
def numberedStates (d : Dfa σ) : List (State × StateSet) :=
  d.entries.map fun s => (s.id, s.members)

/-- How many states the automaton has. -/
def size (d : Dfa σ) : Nat := d.states.length

/-- Whether the automaton has no state. -/
def isEmpty (d : Dfa σ) : Bool := d.states.isEmpty

/-- The set that the state in a given place stands for. -/
def members? (d : Dfa σ) (s : State) : Option StateSet := d.states[s]?

/-- Whether a word is accepted in a state. -/
def isAccepting (d : Dfa σ) (s : State) : Bool := decide (s ∈ d.accepting)

/-- The state that follows a state when `a` is read. -/
def transition (d : Dfa σ) (s : State) (a : σ) : Option State :=
  ((d.graph.arrows s).find? fun e => e.weight == a).map Arrow.target

/-- The state after reading a word from a state on. -/
def runFrom (d : Dfa σ) (s : State) (word : List σ) : Option State := word.foldlM d.transition s

/-- Whether the word leads from a state to an accepting one. -/
def acceptsFrom (d : Dfa σ) (s : State) (word : List σ) : Bool :=
  match d.runFrom s word with
  | some t => d.isAccepting t
  | none => false

/-- Whether the automaton accepts a word. -/
def accepts (d : Dfa σ) (word : List σ) : Bool := d.acceptsFrom d.start word

/-- A row of the transition table. -/
def rowText (row : State × List (Arrow State σ)) : String :=
  toString row.1 ++ " ->" ++
    String.join (row.2.map fun a => " " ++ Symbol.text a.weight ++ ":" ++ toString a.target) ++ "\n"

/-- The automaton as a table: its states, the accepting ones, and the transitions
of every state that has any. -/
def text (d : Dfa σ) : String :=
  "DFA\nStates:\n" ++
    String.join (d.numberedStates.map fun (s, members) =>
      toString s ++ ": " ++ members.text ++ "\n") ++
    "Accepting states:\n" ++ String.intercalate ", " (d.accepting.toList.map toString) ++ "\n" ++
    "Transitions:\n" ++
    String.join ((d.graph.rows.filter fun row => !row.2.isEmpty).map rowText)

end Dfa

end FiniteAutomata
