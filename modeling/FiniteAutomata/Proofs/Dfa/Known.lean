import FiniteAutomata.Proofs.Dfa.Limit

/-! The table of the sets that have a state. The subset construction can look a set up in a
hash table that grows with the automaton. The table holds exactly the sets that have a state,
each with the position of that state, so the automaton is the one that comes of searching the
states. -/
namespace FiniteAutomata.Dfa

variable {σ : Type} [Symbol σ]

instance : Hashable StateSet := ⟨fun s => hash s.toList⟩

/-- An automaton under construction with the table of the sets that have a state. -/
structure Draft (σ : Type) [Symbol σ] where
  automaton : Dfa σ
  known : Std.HashMap StateSet State
  agrees : ∀ members, known[members]? = automaton.states.idxOf? members

namespace Draft

/-- The draft without states. -/
def empty (alphabet : SortedSet σ) : Draft σ :=
  ⟨Dfa.empty alphabet, ∅, fun _ => Std.HashMap.getElem?_empty⟩

/-- What searching the states gives after a state for a new set was added. -/
theorem idxOf?_addState {d : Dfa σ} {members : StateSet} (final : State)
    (hNew : members ∉ d.states) (other : StateSet) :
    (d.addState final members).states.idxOf? other =
      if members = other then some d.size else d.states.idxOf? other := by
  rw [states_addState, List.idxOf?, List.findIdx?_append, ← List.idxOf?]
  by_cases hSame : members = other
  · have hNone : d.states.idxOf? other = none := List.idxOf?_eq_none_iff.mpr (hSame ▸ hNew)
    simp [hNone, hSame, List.idxOf?_cons, size]
  · simp [hSame, List.idxOf?_cons]

/-- Add a state for a set that has none, and enter the set into the table. -/
def addState (final : State) (w : Draft σ) (members : StateSet)
    (hNew : w.known[members]? = none) : Draft σ where
  automaton := w.automaton.addState final members
  known := w.known.insert members w.automaton.size
  agrees other := by
    have hAbsent : members ∉ w.automaton.states :=
      List.idxOf?_eq_none_iff.mp ((w.agrees members).symm.trans hNew)
    rw [idxOf?_addState final hAbsent, Std.HashMap.getElem?_insert, w.agrees]
    simp only [beq_iff_eq]

/-- The state that the table gives for a set, which is added if there is none yet. -/
def register (limit : Option Nat) (final : State) (w : Draft σ) (members : StateSet) :
    Except (Fault σ) (State × Draft σ) :=
  match hFound : w.known[members]? with
  | some s => .ok (s, w)
  | none => do
    w.automaton.checkRoom limit
    return (w.automaton.size, w.addState final members hFound)

/-- Add a transition. -/
def connect (w : Draft σ) (s t : State) (a : σ) : Draft σ where
  automaton := { w.automaton with graph := w.automaton.graph.addEdge s t a }
  known := w.known
  agrees := w.agrees

/-- Add the transition of a state for one symbol, unless it leads nowhere. -/
def follow (x : Fragment σ) (limit : Option Nat) (s : State) (members : StateSet) (w : Draft σ)
    (a : σ) : Except (Fault σ) (Draft σ) := do
  let targets ← x.step members a
  if targets.isEmpty then return w
  else
    let (t, w) ← w.register limit x.final targets
    return w.connect s t a

/-- Add every transition of a state. -/
def complete (x : Fragment σ) (limit : Option Nat) (s : State) (members : StateSet)
    (w : Draft σ) : Except (Fault σ) (Draft σ) :=
  x.alphabet.toList.foldlM (follow x limit s members) w

section Steps

variable {x : Fragment σ} {limit : Option Nat} {s : State} {members : StateSet}

theorem map_register (final : State) (w : Draft σ) (members : StateSet) :
    (fun r => (r.1, r.2.automaton)) <$> w.register limit final members =
      w.automaton.register limit final members := by
  unfold register Dfa.register
  split
  next s hFound =>
    rw [(w.agrees members).symm.trans hFound]
    rfl
  next hNone =>
    rw [(w.agrees members).symm.trans hNone]
    cases w.automaton.checkRoom limit <;> rfl

theorem map_follow (w : Draft σ) (a : σ) :
    automaton <$> follow x limit s members w a = Dfa.follow x limit s members w.automaton a := by
  unfold follow Dfa.follow
  cases x.step members a with
  | error f => rfl
  | ok targets =>
      simp only [bind, Except.bind]
      split
      next => rfl
      next =>
        rw [← map_register]
        cases w.register limit x.final targets <;> rfl

theorem map_complete (w : Draft σ) :
    automaton <$> complete x limit s members w = Dfa.complete x limit s members w.automaton := by
  unfold complete Dfa.complete
  generalize x.alphabet.toList = symbols
  induction symbols generalizing w with
  | nil => rfl
  | cons a rest ih =>
      rw [List.foldlM_cons, List.foldlM_cons, ← map_follow]
      cases follow x limit s members w a with
      | error f => rfl
      | ok w' => exact ih w'

end Steps

/-- Complete the states from number `s` on, those that are added on the way included. -/
def explore (x : Fragment σ) (limit : Option Nat) (w : Draft σ) (s : State) :
    Except (Fault σ) (Draft σ) :=
  match hState : w.automaton.states[s]? with
  | none => .ok w
  | some members =>
    match hNext : complete x limit s members w with
    | .error f => .error f
    | .ok w' =>
      have hBound : unregistered x w'.automaton + w'.automaton.size ≤
          unregistered x w.automaton + w.automaton.size ∧ w.automaton.size ≤ w'.automaton.size :=
        unregistered_complete ((map_complete w).symm.trans (congrArg (automaton <$> ·) hNext))
      have hLt := (List.getElem?_eq_some_iff.mp hState).1
      explore x limit w' (s + 1)
termination_by unregistered x w.automaton + w.automaton.size - s
decreasing_by
  simp only [size] at *
  omega

/-- The draft of the automaton of a well-formed fragment. -/
def ofFragment (limit : Option Nat) (x : Fragment σ) : Except (Fault σ) (Draft σ) := do
  x.validate
  let (_, w) ← (empty x.alphabet).register limit x.final (← x.initial)
  explore x limit w State.first

theorem map_explore (x : Fragment σ) (limit : Option Nat) (w : Draft σ) (s : State) :
    automaton <$> explore x limit w s = Dfa.explore x limit w.automaton s := by
  fun_induction explore x limit w s with
  | case1 w s hNone => exact (explore_of_none hNone).symm
  | case2 w s members hState f hNext =>
      rw [explore_of_some hState, ← map_complete, hNext]
      rfl
  | case3 w s members hState w' hNext _ _ ih =>
      rw [explore_of_some hState, ← map_complete, hNext, ih]
      rfl

/-- Looking the sets up in the table, the construction gives the same automaton or fails in the
same way. -/
theorem map_ofFragment (limit : Option Nat) (x : Fragment σ) :
    automaton <$> ofFragment limit x = Dfa.ofFragment limit x := by
  unfold ofFragment Dfa.ofFragment
  cases x.validate with
  | error f => rfl
  | ok =>
      cases x.initial with
      | error f => rfl
      | ok members =>
          change automaton <$> ((empty x.alphabet).register limit x.final members >>= _) =
            (Dfa.empty x.alphabet).register limit x.final members >>= _
          rw [← show (empty x.alphabet).automaton = Dfa.empty x.alphabet from rfl, ← map_register]
          cases (empty x.alphabet).register limit x.final members with
          | error f => rfl
          | ok found => exact map_explore x limit found.2 State.first

/-- In the end the table holds the sets of the states with the numbers of the states, and
nothing else. -/
theorem known_eq_some_iff {limit : Option Nat} {x : Fragment σ} {w : Draft σ}
    (h : ofFragment limit x = .ok w) {members : StateSet} {s : State} :
    w.known[members]? = some s ↔ ⟨s, members⟩ ∈ w.automaton.entries := by
  have hMade : Dfa.ofFragment limit x = .ok w.automaton := by
    rw [← map_ofFragment, h]
    rfl
  have hTracks := (simulates_of_ofFragment hMade).1
  have wf := hTracks.wellFormed
  rw [w.agrees, idxOf?_eq_some_iff hTracks.nodup, ← wf.mem_numberedStates_iff, numberedStates,
    List.mem_map]
  constructor
  · rintro ⟨⟨i, m⟩, hMem, hEq⟩
    cases hEq
    exact hMem
  · intro hMem
    exact ⟨_, hMem, rfl⟩

end Draft

end FiniteAutomata.Dfa
