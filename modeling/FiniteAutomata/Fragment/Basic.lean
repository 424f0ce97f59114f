import FiniteAutomata.Fault
import FiniteAutomata.Graph
import FiniteAutomata.Session

/-! Fragments: nondeterministic automata with one start state and one final state.
A fragment is well formed when both are vertices, every edge leads to a vertex,
and every symbol on an edge is in the alphabet; `validate` checks this. Combining
fragments can lose the property, so a value of the type need not have it. -/
namespace FiniteAutomata

/-- A nondeterministic automaton that can be combined with others. -/
structure Fragment (σ : Type) [Symbol σ] where
  /-- The session that handed out the states. -/
  session : Nat
  graph : Graph State (Label σ)
  start : State
  /-- The one state in which a word is accepted. -/
  final : State
  alphabet : SortedSet σ
  deriving DecidableEq

/-- Building with state numbers from a session. A failure leaves the session as
it was at that moment. -/
abbrev Build (σ : Type) := ExceptT (Fault σ) (StateM Session)

namespace Fragment

variable {σ : Type} [Symbol σ]

/-- What makes an edge ill formed, if anything does. -/
def edgeFault? (x : Fragment σ) (e : Edge State (Label σ)) : Option (Fault σ) :=
  if e.target ∉ x.graph then some (.danglingEdge e.source e.target)
  else
    match e.weight with
    | .epsilon => none
    | .symbol a => if a ∈ x.alphabet then none else some (.undeclaredSymbol e.source e.target a)

/-- What makes the fragment ill formed, if anything does: first the start and the
final state, then the edges in their order. -/
def fault? (x : Fragment σ) : Option (Fault σ) :=
  if x.start ∉ x.graph then some (.unknownState x.start)
  else if x.final ∉ x.graph then some (.unknownState x.final)
  else x.graph.edges.findSome? x.edgeFault?

/-- Fail unless the fragment is well formed. -/
def validate (x : Fragment σ) : Except (Fault σ) Unit :=
  match x.fault? with
  | some f => .error f
  | none => .ok ()

/-- The fragment with a single edge between two states. -/
def ofEdge (session : Nat) (start final : State) (label : Label σ) : Fragment σ where
  session := session
  graph := Graph.empty.addEdge start final label
  start := start
  final := final
  alphabet := SortedSet.ofList label.symbol?.toList

/-- A fragment for the label alone. -/
def ofLabel [Counting] (label : Label σ) : StateM Session (Fragment σ) := do
  let start ← Session.fresh
  let final ← Session.fresh
  return ofEdge (← get).id start final label

/-- A fragment that accepts the one-symbol word `a`. -/
def literal [Counting] (a : σ) : StateM Session (Fragment σ) := ofLabel (.symbol a)

/-- A fragment that accepts the empty word. -/
def epsilon [Counting] : StateM Session (Fragment σ) := ofLabel .epsilon

/-- Put a fragment together from a given graph. The session keeps clear of the
states of the graph. -/
def ofParts [Counting] (graph : Graph State (Label σ)) (start final : State)
    (alphabet : SortedSet σ) : Build σ (Fragment σ) := do
  let session ← get
  let x : Fragment σ := ⟨session.id, graph, start, final, alphabet⟩
  match x.fault? with
  | some f => throw f
  | none =>
    set (graph.vertices.foldl Session.reserve session)
    return x

end Fragment

end FiniteAutomata
