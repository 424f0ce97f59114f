import FiniteAutomata.Fragment.Basic
import FiniteAutomata.Search

/-! Running a fragment on a word by following all its paths at once. A state that
is no vertex may not be entered; as long as none is reached, the answer after a
word is the set of states that its paths lead to. -/
namespace FiniteAutomata.Fragment

variable {σ : Type} [Symbol σ]

/-- The outgoing edges of a state that must be a vertex. -/
def arrowsOf (x : Fragment σ) (s : State) : Except (Fault σ) (List (Arrow State (Label σ))) :=
  match x.graph.arrows? s with
  | some arrows => .ok arrows
  | none => .error (.unknownState s)

/-- The targets of those edges whose label satisfies a condition. -/
def targetsOf (x : Fragment σ) (p : Label σ → Bool) (s : State) :
    Except (Fault σ) (List State) := do
  let arrows ← x.arrowsOf s
  return (arrows.filter fun a => p a.weight).map Arrow.target

theorem targetsOf_ok {x : Fragment σ} {p : Label σ → Bool} {s : State} {l : List State}
    (h : x.targetsOf p s = .ok l) :
    ∃ arrows, x.graph.arrows? s = some arrows ∧
      l = (arrows.filter fun a => p a.weight).map Arrow.target := by
  unfold targetsOf arrowsOf at h
  split at h
  next arrows hRow => exact ⟨arrows, hRow, (Except.ok.inj h).symm⟩
  next => cases h

theorem mem_targets_of_targetsOf {x : Fragment σ} {p : Label σ → Bool} (s : State)
    (l : List State) (h : x.targetsOf p s = .ok l) : ∀ t ∈ l, t ∈ x.graph.targets := by
  obtain ⟨arrows, hRow, rfl⟩ := targetsOf_ok h
  intro t ht
  obtain ⟨a, ha, rfl⟩ := List.mem_map.mp ht
  exact Graph.target_mem_targets hRow (List.mem_filter.mp ha).1

/-- The states that can be reached from a set of states without reading. -/
def epsilonClosure (x : Fragment σ) (states : StateSet) : Except (Fault σ) StateSet :=
  Search.reach (x.targetsOf Label.isEpsilon) x.graph.targets mem_targets_of_targetsOf states

theorem mem_of_mem_epsilonClosure {x : Fragment σ} {states closure : StateSet}
    (h : x.epsilonClosure states = .ok closure) : ∀ s ∈ closure, s ∈ x.graph := by
  intro s hs
  obtain ⟨l, hEntered⟩ := Search.entered_of_mem_reach h s hs
  obtain ⟨arrows, hRow, -⟩ := targetsOf_ok hEntered
  rw [Graph.mem_iff, hRow, Option.isSome_some]

/-- The states that can be reached from a set of states over one edge that reads
`a`. -/
def move (x : Fragment σ) (states : StateSet) (a : σ) : Except (Fault σ) StateSet := do
  let found ← states.toList.mapM (x.targetsOf (· == .symbol a))
  return SortedSet.ofList found.flatten

/-- The states after reading `a`, up to steps that read nothing. -/
def step (x : Fragment σ) (states : StateSet) (a : σ) : Except (Fault σ) StateSet := do
  x.epsilonClosure (← x.move states a)

/-- The states before anything is read. -/
def initial (x : Fragment σ) : Except (Fault σ) StateSet :=
  x.epsilonClosure (.singleton x.start)

/-- Read on from a set of states. Once no state is left, the rest of the word stays unread. -/
def follow (x : Fragment σ) : List σ → StateSet → Except (Fault σ) StateSet
  | [], states => .ok states
  | a :: word, states =>
    if states.isEmpty then .ok states else do x.follow word (← x.step states a)

/-- Whether a word leads to the final state. -/
def accepts (x : Fragment σ) (word : List σ) : Except (Fault σ) Bool := do
  return decide (x.final ∈ (← x.follow word (← x.initial)))

end FiniteAutomata.Fragment
