import FiniteAutomata.Pattern.Basic
import FiniteAutomata.Pattern.Error
import FiniteAutomata.State
import FiniteAutomata.Symbol

/-! What can go wrong with automata, each cause by itself, and its wording. -/
namespace FiniteAutomata

/-- Why an operation on automata fails. -/
inductive Fault (σ : Type) where
  /-- A state that is no vertex of the fragment was named. -/
  | unknownState (s : State)
  /-- An edge points at a state that is no vertex of the fragment. -/
  | danglingEdge (source target : State)
  /-- An edge reads a symbol that is not in the alphabet. -/
  | undeclaredSymbol (source target : State) (a : σ)
  /-- Two fragments got their states from different sessions. -/
  | differentSessions
  /-- Two fragments have a state in common. -/
  | sharedState (s : State)
  /-- The deterministic automaton would get more states than allowed. -/
  | stateLimit (limit : Nat)
  /-- A pattern cannot be read. -/
  | malformed (error : Pattern.Error)
  /-- A pattern says something that no fragment can follow. -/
  | unsupported (feature : Pattern.Feature)
  deriving DecidableEq, Repr

namespace Fault

/-- The sort of a failure. -/
inductive Category where
  /-- An automaton or a request breaks the rules that automata obey. -/
  | invariant
  /-- A limit was reached. -/
  | resource
  /-- A text is no pattern. -/
  | wording
  /-- A pattern is beyond what is supported. -/
  | feature
  deriving DecidableEq, Repr

variable {σ : Type}

/-- The sort that a failure belongs to. -/
def category : Fault σ → Category
  | unknownState _ => .invariant
  | danglingEdge .. => .invariant
  | undeclaredSymbol .. => .invariant
  | differentSessions => .invariant
  | sharedState _ => .invariant
  | stateLimit _ => .resource
  | malformed _ => .wording
  | unsupported _ => .feature

/-- What a failure is about, without its sort. -/
def detail [Symbol σ] : Fault σ → String
  | unknownState s => "state " ++ toString s ++ " is not part of the NFA"
  | danglingEdge source target =>
    "edge " ++ toString source ++ " -> " ++ toString target ++
      " points to a state outside the NFA"
  | undeclaredSymbol source target a =>
    "edge " ++ toString source ++ " -> " ++ toString target ++ " is labeled with " ++
      Symbol.quoted a ++ " which is not in the alphabet"
  | differentSessions => "fragments of different sessions can't be combined"
  | sharedState s => "state " ++ toString s ++ " is part of both fragments"
  | stateLimit limit => "more than " ++ toString limit ++ " DFA states"
  | malformed error => error.message
  | unsupported feature => feature.text

/-- The whole wording of a failure. -/
def message [Symbol σ] (f : Fault σ) : String :=
  match f.category with
  | .invariant => "Invariant violation: " ++ f.detail
  | .resource => "Resource limit exceeded: " ++ f.detail
  | .wording => f.detail
  | .feature => "Unsupported regex feature: " ++ f.detail

end Fault

end FiniteAutomata
