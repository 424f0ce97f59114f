import FiniteAutomata.Dfa.Basic
import FiniteAutomata.Ordered.Classes
import FiniteAutomata.Search
import FiniteAutomata.Table

/-! Minimization by refining partitions. States from which nothing is accepted are
left out, the start state apart; the others are split until the states of a group
lead into the same groups, and each group becomes one state. -/
namespace FiniteAutomata.Dfa

variable {σ : Type} [Symbol σ]

/-- The states with an edge to a given state. -/
def predecessors (d : Dfa σ) (s : State) : List State :=
  (d.graph.rows.filter fun row => row.2.any fun a => a.target == s).map Prod.fst

theorem mem_vertices_of_predecessors {d : Dfa σ} {s t : State} (h : t ∈ d.predecessors s) :
    t ∈ d.graph.vertices := by
  obtain ⟨row, hRow, rfl⟩ := List.mem_map.mp h
  rw [Graph.vertices_eq]
  exact List.mem_map_of_mem (List.mem_filter.mp hRow).1

/-- The states from which an accepting state can be reached. -/
def live (d : Dfa σ) : StateSet :=
  let found : Except Empty StateSet :=
    Search.reach (fun s => .ok (d.predecessors s)) d.graph.vertices
      (fun _ _ h _ ht => mem_vertices_of_predecessors ((Except.ok.inj h).symm ▸ ht)) d.accepting
  match found with
  | .ok states => states

/-- The transition of a state, as far as it leads to a live state. -/
def liveTransition (d : Dfa σ) (live : StateSet) (s : State) (a : σ) : Option State :=
  (d.transition s a).filter fun t => decide (t ∈ live)

/-- Groups of states, each in ascending order. -/
abbrev Partition := List (List State)

namespace Partition

/-- The position of the group that a state belongs to, or `k` if it belongs to none, where
positions are counted from `n`. Of several groups the last one counts. -/
def groupAfter (n k : Nat) (s : State) : Partition → Nat
  | [] => k
  | group :: rest => groupAfter (n + 1) (if group.contains s then n else k) s rest

/-- The position of the group that a state belongs to; a state without a group counts to the
first. -/
def groupOf (p : Partition) (s : State) : Nat := groupAfter 0 0 s p

/-- Write `k` to the places of the states of a group. -/
def mark (k : Nat) (group : List State) (values : Array Nat) : Array Nat :=
  group.foldl (fun values s => values.setIfInBounds s k) values

/-- Write the position of every group, counted from `n`, to the places of its states, one
group after another. -/
def fill (n : Nat) : Partition → Array Nat → Array Nat
  | [], values => values
  | group :: rest, values => fill (n + 1) rest (mark n group values)

theorem getElem?_mark (k : Nat) (group : List State) (values : Array Nat) (i : Nat) :
    (mark k group values)[i]? = if i ∈ group ∧ i < values.size then some k else values[i]? := by
  induction group generalizing values with
  | nil => simp [mark]
  | cons s rest ih =>
    have hRest := ih (values.setIfInBounds s k)
    rw [Array.size_setIfInBounds, Array.getElem?_setIfInBounds] at hRest
    rw [mark, List.foldl_cons, ← mark, hRest]
    grind

/-- What stands in a place before a group is written is what its states would count to
otherwise. -/
theorem getElem?_fill (n : Nat) (p : Partition) (values : Array Nat) (i : Nat) :
    (fill n p values)[i]? = values[i]?.map fun k => groupAfter n k i p := by
  induction p generalizing n values with
  | nil => exact Option.map_id'.symm
  | cons group rest ih =>
    have hMark := getElem?_mark n group values i
    rw [fill, ih, hMark]
    simp only [groupAfter, List.contains_iff_mem]
    by_cases hMem : i ∈ group
    · by_cases hLt : i < values.size
      · simp [hMem, hLt]
      · simp [hMem, hLt]
    · simp [hMem]

/-- The groups of the first `n` states. -/
def index (n : Nat) (p : Partition) : Table p.groupOf where
  values := fill 0 p (Array.replicate n 0)
  agrees i h := by
    have hFill := getElem?_fill 0 p (Array.replicate n 0) i
    rw [Array.getElem?_eq_getElem h, Array.getElem?_replicate] at hFill
    split at hFill
    next => exact Option.some.inj hFill
    next => exact nomatch hFill

end Partition

/-- The states that are kept: the live ones and the start state. -/
def kept (d : Dfa σ) (live : StateSet) : List State :=
  (d.entries.map DfaState.id).filter fun s => decide (s ∈ live) || s == d.start

/-- The kept states that do not accept and those that do. -/
def initialPartition (d : Dfa σ) (live : StateSet) : Partition :=
  let kept := d.kept live
  [kept.filter fun s => !d.isAccepting s, kept.filter d.isAccepting].filter fun g => !g.isEmpty

/-- For each symbol of the alphabet the live state that a state leads to. -/
def liveTargets (d : Dfa σ) (live : StateSet) (s : State) : List (Option State) :=
  d.alphabet.toList.map (d.liveTransition live s)

/-- For each symbol of the alphabet the group that a state leads into. -/
def signature (d : Dfa σ) (live : StateSet) (p : Partition) (s : State) : List (Option Nat) :=
  (d.liveTargets live s).map (Option.map p.groupOf)

/-- Split every group by the groups that its states lead into. A group of a single state
stays as it is. -/
def split {d : Dfa σ} {live : StateSet} (targets : Table (d.liveTargets live)) (p : Partition) :
    Partition :=
  let groups := p.index d.size
  p.flatMap fun group =>
    if group.length = 1 then [group]
    else classes (fun s => (targets.get s).map (Option.map groups.get)) group

theorem split_eq {d : Dfa σ} {live : StateSet} (targets : Table (d.liveTargets live))
    (p : Partition) : split targets p = p.flatMap (classes (d.signature live p)) := by
  have hGroups : (p.index d.size).get = p.groupOf := funext (Table.get_eq _)
  simp only [split, Table.get_eq, hGroups]
  refine congrArg p.flatMap (funext fun group => ?_)
  split
  next hSingle => exact (classes_eq_of_length_eq_one _ hSingle).symm
  next => rfl

theorem length_flatten_split {d : Dfa σ} {live : StateSet} (targets : Table (d.liveTargets live))
    (p : Partition) : (split targets p).flatten.length = p.flatten.length := by
  rw [split_eq]
  generalize d.signature live p = key
  induction p with
  | nil => rfl
  | cons group rest ih =>
    simp only [List.flatMap_cons, List.flatten_append, List.length_append, List.flatten_cons, ih,
      (flatten_classes_perm key group).length_eq]

theorem length_split_le {d : Dfa σ} {live : StateSet} (targets : Table (d.liveTargets live))
    (p : Partition) : (split targets p).length ≤ p.flatten.length := by
  rw [← length_flatten_split targets p]
  apply length_le_length_flatten
  intro group hGroup
  rw [split_eq] at hGroup
  obtain ⟨_, _, hMem⟩ := List.mem_flatMap.mp hGroup
  exact ne_nil_of_mem_classes hMem

/-- Split until the number of groups stays the same. -/
def refine {d : Dfa σ} {live : StateSet} (targets : Table (d.liveTargets live)) (p : Partition) :
    Partition :=
  let finer := split targets p
  if p.length < finer.length then refine targets finer else finer
termination_by p.flatten.length - p.length
decreasing_by
  have hLe := length_split_le targets p
  have hFlat := length_flatten_split targets p
  simp only [finer] at *
  omega

/-- The groups in the order of their smallest members. -/
def Partition.sort (p : Partition) : Partition :=
  p.mergeSort fun g h => decide (g.headD 0 ≤ h.headD 0)

/-- The automaton whose states are the groups of a partition. The smallest member
of a group speaks for all of them. -/
def quotient (d : Dfa σ) (live : StateSet) (p : Partition) : Dfa σ where
  entries := p.mapIdx fun i group =>
    ⟨i, SortedSet.ofList (group.flatMap fun s => ((d.members? s).getD ∅).toList)⟩
  accepting := SortedSet.ofList
    ((List.range p.length).filter fun i => (p.getD i []).any d.isAccepting)
  alphabet := d.alphabet
  graph := Graph.tabulate p.length fun i =>
    ((d.graph.arrows ((p.getD i []).headD 0)).filter fun a => decide (a.target ∈ live)).map
      (Arrow.rename p.groupOf)

/-- The smallest automaton that accepts the same words. -/
def minimize (d : Dfa σ) : Dfa σ :=
  let live := d.live
  let targets := Table.ofFunction d.size (d.liveTargets live)
  d.quotient live (refine targets (d.initialPartition live)).sort

end FiniteAutomata.Dfa
