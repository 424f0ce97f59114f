import FiniteAutomata.Fragment.Basic

/-! Combining fragments. Closure and union wrap their operands between two new
states; concatenation puts the first steps of the right operand onto the final
state of the left one and drops the right start state; a replica is the same
fragment with new states. -/
namespace FiniteAutomata.Fragment

variable {σ : Type} [Symbol σ]

/-- The closure between two given states. -/
def closureBetween (x : Fragment σ) (start final : State) : Fragment σ :=
  { x with
    graph := (((x.graph.addEdge start x.start .epsilon).addEdge start final .epsilon).addEdge
      x.final final .epsilon).addEdge x.final x.start .epsilon
    start := start
    final := final }

/-- A fragment for any number of words of `x` one after another. -/
def closure [Counting] (x : Fragment σ) : StateM Session (Fragment σ) := do
  let start ← Session.fresh
  let final ← Session.fresh
  return x.closureBetween start final

/-- Two fragments in one graph, with the start and final state of the first. They
must have been built in the same session and share no state. -/
def merge (x y : Fragment σ) : Except (Fault σ) (Fragment σ) :=
  if x.session ≠ y.session then .error .differentSessions
  else
    match y.graph.vertices.find? fun s => decide (s ∈ x.graph) with
    | some s => .error (.sharedState s)
    | none =>
      .ok { x with
        graph := x.graph.absorb y.graph
        alphabet := x.alphabet.union y.alphabet }

/-- A fragment for the words of `x` followed by words of `y`. -/
def concat (x y : Fragment σ) : Except (Fault σ) (Fragment σ) := do
  let both ← x.merge y
  let bridged := both.graph.addArrows x.final (both.graph.arrows y.start)
  return { both with graph := bridged.remove y.start, final := y.final }

/-- The union of merged fragments between two given states. -/
def unionBetween (both y : Fragment σ) (start final : State) : Fragment σ :=
  { both with
    graph := (((both.graph.addEdge start both.start .epsilon).addEdge start y.start
      .epsilon).addEdge both.final final .epsilon).addEdge y.final final .epsilon
    start := start
    final := final }

/-- A fragment for the words of `x` and the words of `y`. -/
def union [Counting] (x y : Fragment σ) : Build σ (Fragment σ) := do
  let both ← liftExcept (x.merge y)
  let start ← Session.fresh
  let final ← Session.fresh
  return both.unionBetween y start final

/-- The concatenation with a fragment that may be absent. -/
def concatMaybe (x : Fragment σ) : Option (Fragment σ) → Except (Fault σ) (Fragment σ)
  | some y => x.concat y
  | none => .ok x

/-- The union with a fragment that may be absent. -/
def unionMaybe [Counting] (x : Fragment σ) : Option (Fragment σ) → Build σ (Fragment σ)
  | some y => x.union y
  | none => return x

/-- Every state that the fragment mentions, in the order of its rows, each once. -/
def mentioned (x : Fragment σ) : List State :=
  ((x.graph.rows.flatMap fun row => row.1 :: row.2.map Arrow.target) ++
    [x.start, x.final]).eraseDups

/-- The fragment with every state renamed. -/
def rename (f : State → State) (x : Fragment σ) : Fragment σ :=
  { x with
    graph := x.graph.rows.foldl
      (fun g row => (g.addVertex (f row.1)).addArrows (f row.1) (row.2.map (Arrow.rename f))) ∅
    start := f x.start
    final := f x.final }

/-- A copy of the fragment with new states. -/
def replicate [Counting] (x : Fragment σ) : StateM Session (Fragment σ) := do
  let session ← get
  let states := x.mentioned
  set { session with next := Counting.ahead session.next states.length }
  return x.rename fun s => Counting.ahead session.next (states.idxOf s)

end FiniteAutomata.Fragment
