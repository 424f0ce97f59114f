import FiniteAutomata.Dfa.Basic
import FiniteAutomata.Fragment.Simulation
import FiniteAutomata.Ordered.Subset

/-! The subset construction. States are numbered as they are found: the states
are completed in the order of their numbers and the symbols tried in ascending
order. The work ends because every state stands for another set of vertices of
the fragment. -/
namespace FiniteAutomata

namespace Dfa

variable {σ : Type} [Symbol σ]

/-- Fail if there is no room for another state. -/
def checkRoom (limit : Option Nat) (d : Dfa σ) : Except (Fault σ) Unit :=
  match limit with
  | some k => if k ≤ d.size then .error (.stateLimit k) else .ok ()
  | none => .ok ()

/-- Add a state for a set. It accepts if the final state of the fragment is in the
set. -/
def addState (final : State) (d : Dfa σ) (members : StateSet) : Dfa σ :=
  { d with
    entries := d.entries ++ [⟨d.size, members⟩]
    accepting := if final ∈ members then d.accepting.insert d.size else d.accepting
    graph := d.graph.addVertex d.size }

theorem states_addState (final : State) (d : Dfa σ) (members : StateSet) :
    (d.addState final members).states = d.states ++ [members] := by
  rw [states, addState, List.map_append]
  rfl

/-- The state that stands for a set, which is added if there is none yet. -/
def register (limit : Option Nat) (final : State) (d : Dfa σ) (members : StateSet) :
    Except (Fault σ) (State × Dfa σ) :=
  match d.states.idxOf? members with
  | some s => .ok (s, d)
  | none => do
    d.checkRoom limit
    return (d.size, d.addState final members)

/-- Add the transition of a state for one symbol, unless it leads nowhere. -/
def follow (x : Fragment σ) (limit : Option Nat) (s : State) (members : StateSet) (d : Dfa σ)
    (a : σ) : Except (Fault σ) (Dfa σ) := do
  let targets ← x.step members a
  if targets.isEmpty then return d
  else
    let (t, d) ← d.register limit x.final targets
    return { d with graph := d.graph.addEdge s t a }

/-- Add every transition of a state. -/
def complete (x : Fragment σ) (limit : Option Nat) (s : State) (members : StateSet) (d : Dfa σ) :
    Except (Fault σ) (Dfa σ) :=
  x.alphabet.toList.foldlM (follow x limit s members) d

/-- How many sets of vertices have no state yet. -/
def unregistered (x : Fragment σ) (d : Dfa σ) : Nat :=
  (subsets x.graph.vertices).countP fun l => decide (l ∉ d.states.map SortedSet.toList)

section Bound

theorem mem_vertices_of_step {x : Fragment σ} {states targets : StateSet} {a : σ}
    (h : x.step states a = .ok targets) : ∀ s ∈ targets, s ∈ x.graph.vertices := by
  intro s hs
  unfold Fragment.step at h
  cases hMove : x.move states a with
  | error f => simp [hMove, bind, Except.bind] at h
  | ok moved =>
    simp only [hMove, bind, Except.bind] at h
    exact Graph.mem_vertices.mpr (Fragment.mem_of_mem_epsilonClosure h s hs)

theorem unregistered_addState {x : Fragment σ} {d : Dfa σ} {members : StateSet} (final : State)
    (hNew : members ∉ d.states) (hInside : ∀ s ∈ members, s ∈ x.graph.vertices) :
    unregistered x (d.addState final members) < unregistered x d := by
  have hMem : members.toList ∈ subsets x.graph.vertices :=
    mem_subsets_of_pairwise (List.pairwise_map.mpr x.graph.adjacency.sorted) members.sorted hInside
  have hFresh : members.toList ∉ d.states.map SortedSet.toList := by
    rintro hOld
    obtain ⟨other, hOther, hEq⟩ := List.mem_map.mp hOld
    exact hNew (SortedSet.toList_inj.mp hEq ▸ hOther)
  unfold unregistered
  have hLe : ∀ m : List (List State),
      m.countP (fun l => decide (l ∉ (d.addState final members).states.map SortedSet.toList)) ≤
        m.countP fun l => decide (l ∉ d.states.map SortedSet.toList) := fun m => by
    apply List.countP_mono_left
    intro l _ hl
    simp only [states_addState, List.map_append, List.mem_append, decide_eq_true_eq, not_or] at hl ⊢
    exact hl.1
  obtain ⟨before, after, hSplit⟩ := List.append_of_mem hMem
  have hBefore := hLe before
  have hAfter := hLe after
  have hGone : members.toList ∈ (d.addState final members).states.map SortedSet.toList := by
    simp [states_addState]
  rw [hSplit, List.countP_append, List.countP_append, List.countP_cons, List.countP_cons,
    if_neg (by simpa using hGone), if_pos (by simpa using hFresh)]
  omega

/-- Registering sets of vertices takes from the unregistered sets what it adds to
the states. -/
theorem unregistered_register {x : Fragment σ} {limit : Option Nat} {final : State}
    {d e : Dfa σ} {members : StateSet} {s : State}
    (hInside : ∀ s ∈ members, s ∈ x.graph.vertices)
    (h : d.register limit final members = .ok (s, e)) :
    unregistered x e + e.size ≤ unregistered x d + d.size ∧ d.size ≤ e.size := by
  unfold register at h
  split at h
  next => cases h; exact ⟨Nat.le_refl _, Nat.le_refl _⟩
  next hNone =>
    have hNew : members ∉ d.states := List.idxOf?_eq_none_iff.mp hNone
    cases hRoom : d.checkRoom limit with
    | error f => simp [hRoom, bind, Except.bind] at h
    | ok =>
      simp only [hRoom, bind, Except.bind, pure, Except.pure, Except.ok.injEq,
        Prod.mk.injEq] at h
      obtain ⟨-, rfl⟩ := h
      have := unregistered_addState final hNew hInside
      simp only [size, states_addState, List.length_append, List.length_singleton] at this ⊢
      omega

theorem unregistered_follow {x : Fragment σ} {limit : Option Nat} {s : State}
    {members : StateSet} {d e : Dfa σ} {a : σ} (h : follow x limit s members d a = .ok e) :
    unregistered x e + e.size ≤ unregistered x d + d.size ∧ d.size ≤ e.size := by
  unfold follow at h
  cases hStep : x.step members a with
  | error f => simp [hStep, bind, Except.bind] at h
  | ok targets =>
    simp only [hStep, bind, Except.bind] at h
    split at h
    next => cases h; exact ⟨Nat.le_refl _, Nat.le_refl _⟩
    next =>
      cases hRegister : d.register limit x.final targets with
      | error f => simp [hRegister] at h
      | ok result =>
        obtain ⟨t, d'⟩ := result
        simp only [hRegister, pure, Except.pure, Except.ok.injEq] at h
        subst h
        have := unregistered_register (mem_vertices_of_step hStep) hRegister
        exact this

theorem unregistered_complete {x : Fragment σ} {limit : Option Nat} {s : State}
    {members : StateSet} {d e : Dfa σ} (h : complete x limit s members d = .ok e) :
    unregistered x e + e.size ≤ unregistered x d + d.size ∧ d.size ≤ e.size := by
  unfold complete at h
  generalize x.alphabet.toList = symbols at h
  induction symbols generalizing d with
  | nil => cases h; exact ⟨Nat.le_refl _, Nat.le_refl _⟩
  | cons a rest ih =>
    rw [List.foldlM_cons] at h
    cases hFollow : follow x limit s members d a with
    | error f => simp [hFollow, bind, Except.bind] at h
    | ok d' =>
      simp only [hFollow, bind, Except.bind] at h
      have hFirst := unregistered_follow hFollow
      have hRest := ih h
      omega

end Bound

/-- Complete the states from number `s` on, those that are added on the way
included. -/
def explore (x : Fragment σ) (limit : Option Nat) (d : Dfa σ) (s : State) :
    Except (Fault σ) (Dfa σ) :=
  match hState : d.states[s]? with
  | none => .ok d
  | some members =>
    match hNext : complete x limit s members d with
    | .error f => .error f
    | .ok e =>
      have := unregistered_complete hNext
      have := (List.getElem?_eq_some_iff.mp hState).1
      explore x limit e (s + 1)
termination_by unregistered x d + d.size - s
decreasing_by
  simp only [size] at *
  omega

/-- The deterministic automaton of a well-formed fragment, with at most `limit`
states if a limit is given. -/
def ofFragment (limit : Option Nat) (x : Fragment σ) : Except (Fault σ) (Dfa σ) := do
  x.validate
  let (_, d) ← (empty x.alphabet).register limit x.final (← x.initial)
  explore x limit d State.first

end Dfa

namespace Fragment

variable {σ : Type} [Symbol σ]

/-- The deterministic automaton of the fragment. -/
def determinize (x : Fragment σ) : Except (Fault σ) (Dfa σ) := Dfa.ofFragment none x

/-- The deterministic automaton of the fragment, if it has at most `limit` states. -/
def determinizeWithin (limit : Nat) (x : Fragment σ) : Except (Fault σ) (Dfa σ) :=
  Dfa.ofFragment (some limit) x

end Fragment

end FiniteAutomata
