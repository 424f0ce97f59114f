import FiniteAutomata.Dfa.Minimize
import FiniteAutomata.Dfa.Subset
import FiniteAutomata.Fragment.OfPattern

/-! A workbench: named fragments and automata, and the sessions they are built
from. A command names what it works on. Combining fragments uses them up, so no
fragment is ever part of two others; a command that cannot be carried out leaves
everything as it is, apart from state numbers it has taken and operands it has
used up. -/
namespace FiniteAutomata

/-- The things on the bench. -/
structure Workbench (σ : Type) [Symbol σ] where
  /-- For each session that was used, the state number that comes next. -/
  counters : SortedMap Nat State
  fragments : SortedMap String (Fragment σ)
  automata : SortedMap String (Dfa σ)

namespace Workbench

/-- Why a command is not carried out. -/
inductive Refusal (σ : Type) where
  | noFragment (name : String)
  | noAutomaton (name : String)
  | sameFragment
  | failed (fault : Fault σ)
  deriving DecidableEq, Repr

/-- The wording of a refusal. -/
def Refusal.message {σ : Type} [Symbol σ] : Refusal σ → String
  | noFragment name => "no fragment " ++ name
  | noAutomaton name => "no dfa " ++ name
  | sameFragment => "same fragment twice"
  | failed fault => fault.message

/-- The parts of a fragment that is put together by hand: the graph is that of a
named fragment or empty, with vertices and edges added and vertices removed. -/
structure Parts (σ : Type) [Symbol σ] where
  base : Option String
  vertices : List State
  edges : List (Edge State (Label σ))
  removed : List State
  start : State
  final : State
  alphabet : SortedSet σ

/-- How two fragments are put together. -/
inductive Junction where
  | concat
  | union
  deriving DecidableEq, Repr

/-- What can be asked for. Results are stored under the name `dest`. -/
inductive Command (σ : Type) [Symbol σ] where
  /-- Hand out a state number. -/
  | fresh (session : Nat)
  | literal (session : Nat) (dest : String) (a : σ)
  | epsilon (session : Nat) (dest : String)
  /-- Follow a pattern, or fail if its text could not be read. -/
  | compile (session : Nat) (dest : String) (pattern : Except Pattern.Error (Pattern σ))
  | assemble (session : Nat) (dest : String) (parts : Parts σ)
  /-- Use up `x` for its closure. -/
  | closure (x dest : String)
  /-- Use up `x`, and `y` if it is given, for their concatenation or union. -/
  | join (junction : Junction) (x : String) (y : Option String) (dest : String)
  | replicate (x dest : String)
  | determinize (x : String) (limit : Option Nat) (dest : String)
  | minimize (d dest : String)

/-- What a command brings forth. -/
inductive Product (σ : Type) [Symbol σ] where
  | state (s : State)
  | fragment (x : Fragment σ)
  | automaton (d : Dfa σ)

variable {σ : Type} [Symbol σ]

/-- The bench with nothing on it. -/
def new : Workbench σ := ⟨∅, ∅, ∅⟩

/-- A session in its present state. -/
def session (w : Workbench σ) (id : Nat) : Session :=
  ⟨id, (w.counters.get? id).getD (Session.new id).next⟩

/-- The fragment with a given name. -/
def fragment (w : Workbench σ) (name : String) : Except (Refusal σ) (Fragment σ) :=
  match w.fragments.get? name with
  | some x => .ok x
  | none => .error (.noFragment name)

/-- The automaton with a given name. -/
def automaton (w : Workbench σ) (name : String) : Except (Refusal σ) (Dfa σ) :=
  match w.automata.get? name with
  | some d => .ok d
  | none => .error (.noAutomaton name)

/-- Work on the bench. -/
abbrev Work (σ : Type) [Symbol σ] := ExceptT (Refusal σ) (StateM (Workbench σ))

/-- Build with the state numbers of a session. -/
def build {α : Type} (id : Nat) (b : Build σ α) : Work σ α := do
  let w ← get
  let (result, after) := b.run.run (w.session id)
  set { w with counters := w.counters.insert id after.next }
  match result with
  | .ok a => return a
  | .error fault => throw (.failed fault)

/-- Store a fragment. -/
def keep (dest : String) (x : Fragment σ) : Work σ (Product σ) := do
  modify fun w => { w with fragments := w.fragments.insert dest x }
  return .fragment x

/-- Store an automaton. -/
def keepAutomaton (dest : String) (d : Dfa σ) : Work σ (Product σ) := do
  modify fun w => { w with automata := w.automata.insert dest d }
  return .automaton d

/-- Take a fragment off the bench. -/
def take (name : String) : Work σ (Fragment σ) := do
  let x ← liftExcept ((← get).fragment name)
  modify fun w => { w with fragments := w.fragments.erase name }
  return x

/-- The graph that the parts of a fragment describe. -/
def Parts.graph (parts : Parts σ) (base : Graph State (Label σ)) : Graph State (Label σ) :=
  let withVertices := parts.vertices.foldl Graph.addVertex base
  let withEdges := parts.edges.foldl (fun g e => g.addEdge e.source e.target e.weight) withVertices
  parts.removed.foldl Graph.remove withEdges

/-- The graph that hand-made parts start from. -/
def baseGraph (w : Workbench σ) : Option String → Except (Refusal σ) (Graph State (Label σ))
  | none => .ok ∅
  | some name => do return (← w.fragment name).graph

/-- Put fragments together; without a second one nothing changes. -/
def Junction.apply [Counting] (junction : Junction) (x : Fragment σ) (y : Option (Fragment σ)) :
    Build σ (Fragment σ) :=
  match junction with
  | concat => liftExcept (x.concatMaybe y)
  | union => x.unionMaybe y

/-- Take the operands of a junction off the bench, both or none. -/
def takeOperands (x : String) (y : Option String) : Work σ (Fragment σ × Option (Fragment σ)) := do
  let w ← get
  let _ ← liftExcept (w.fragment x)
  match y with
  | none => return (← take x, none)
  | some y =>
    if x = y then throw .sameFragment
    let _ ← liftExcept (w.fragment y)
    return (← take x, some (← take y))

/-- Carry out a command. -/
def perform [Counting] : Command σ → Work σ (Product σ)
  | .fresh id => do return .state (← build id Session.fresh)
  | .literal id dest a => do keep dest (← build id (Fragment.literal a))
  | .epsilon id dest => do keep dest (← build id Fragment.epsilon)
  | .compile id dest pattern => do
    match pattern with
    | .error e => throw (.failed (.malformed e))
    | .ok p => keep dest (← build id (Fragment.ofPattern p))
  | .assemble id dest parts => do
    let base ← liftExcept ((← get).baseGraph parts.base)
    keep dest (← build id
      (Fragment.ofParts (parts.graph base) parts.start parts.final parts.alphabet))
  | .closure x dest => do
    let x ← take x
    keep dest (← build x.session x.closure)
  | .join junction x y dest => do
    let (x, y) ← takeOperands x y
    keep dest (← build x.session (junction.apply x y))
  | .replicate x dest => do
    let x ← liftExcept ((← get).fragment x)
    keep dest (← build x.session x.replicate)
  | .determinize x limit dest => do
    let x ← liftExcept ((← get).fragment x)
    match Dfa.ofFragment limit x with
    | .ok d => keepAutomaton dest d
    | .error fault => throw (.failed fault)
  | .minimize d dest => do
    let d ← liftExcept ((← get).automaton d)
    keepAutomaton dest d.minimize

/-- Carry out a command on a bench; the answer comes with the bench afterwards. -/
def run [Counting] (w : Workbench σ) (c : Command σ) :
    Except (Refusal σ) (Product σ) × Workbench σ :=
  (perform c).run.run w

/-- No session has counted a number that a register cannot hold. -/
def HasRoom (w : Workbench σ) : Prop := ∀ e ∈ w.counters.entries, e.2 ≤ Counting.greatest

instance (w : Workbench σ) : Decidable w.HasRoom := List.decidableBAll _ _

/-- Carry out a command in a program that ends, without an answer, as soon as a counter gets to
a number that a register cannot hold. -/
def runChecked (w : Workbench σ) (c : Command σ) :
    Option (Except (Refusal σ) (Product σ) × Workbench σ) :=
  let outcome := w.run c
  if outcome.2.HasRoom then some outcome else none

end Workbench

end FiniteAutomata
