import FiniteAutomata.Proofs.Dfa.Limit
import FiniteAutomata.Proofs.Dfa.Shape
import Mathlib.Data.Set.Card

/-! How large the automaton of a fragment can become. The work goes through the states once,
those that are added on the way included. It comes to an end because the states stand for
different nonempty sets of vertices that can be reached, and there are only finitely many of
these. -/
namespace FiniteAutomata

namespace SortedSet

variable {α : Type} [Ord α] [DecidableEq α]

/-- The elements as a finite set without an order. -/
def toFinset (s : SortedSet α) : Finset α := s.toList.toFinset

@[simp]
theorem mem_toFinset {s : SortedSet α} {a : α} : a ∈ s.toFinset ↔ a ∈ s := List.mem_toFinset

theorem toFinset_injective [Std.TransOrd α] :
    Function.Injective (toFinset : SortedSet α → Finset α) := by
  intro s t hEq
  apply SortedSet.ext
  intro a
  rw [← mem_toFinset, hEq, mem_toFinset]

/-- A list of different nonempty subsets of a finite set is no longer than there are such
subsets. -/
theorem length_le_of_subsets [Std.TransOrd α] {sets : List (SortedSet α)} {whole : Set α}
    (hFinite : whole.Finite) (hNodup : sets.Nodup) (hNonempty : ∅ ∉ sets)
    (hInside : ∀ s ∈ sets, ∀ a ∈ s, a ∈ whole) : sets.length ≤ 2 ^ whole.ncard - 1 := by
  have hCard : (sets.map toFinset).toFinset.card = sets.length := by
    rw [List.toFinset_card_of_nodup (hNodup.map toFinset_injective), List.length_map]
  have hSubset : (sets.map toFinset).toFinset ⊆ hFinite.toFinset.powerset.erase ∅ := by
    intro image hImage
    simp only [List.mem_toFinset, List.mem_map] at hImage
    obtain ⟨s, hs, rfl⟩ := hImage
    rw [Finset.mem_erase, Finset.mem_powerset]
    constructor
    · intro hEmpty
      have hNone : s = ∅ := toFinset_injective hEmpty
      exact hNonempty (hNone ▸ hs)
    · intro a ha
      exact hFinite.mem_toFinset.mpr (hInside s hs a (mem_toFinset.mp ha))
  calc sets.length = (sets.map toFinset).toFinset.card := hCard.symm
    _ ≤ (hFinite.toFinset.powerset.erase ∅).card := Finset.card_le_card hSubset
    _ = 2 ^ whole.ncard - 1 := by
      rw [Finset.card_erase_of_mem (Finset.empty_mem_powerset _), Finset.card_powerset,
        Set.ncard_eq_toFinset_card whole hFinite]

end SortedSet

namespace Dfa

variable {σ : Type} [Symbol σ] {x : Fragment σ} {limit : Option Nat} {d e : Dfa σ}

/-- Exactly `rounds` rounds of the construction from the state `s` on. Every round completes
one state, and after the last one no state is left to complete. -/
inductive Rounds (x : Fragment σ) (limit : Option Nat) : Dfa σ → State → Nat → Dfa σ → Prop where
  | done {d : Dfa σ} {s : State} (last : d.members? s = none) : Rounds x limit d s 0 d
  | round {d next e : Dfa σ} {s : State} {members : StateSet} {rounds : Nat}
      (state : d.members? s = some members) (completed : complete x limit s members d = .ok next)
      (rest : Rounds x limit next (s + 1) rounds e) : Rounds x limit d s (rounds + 1) e

/-- Work that ends has gone through all states, those that it added included. -/
theorem rounds_of_explore {s : State} (h : explore x limit d s = .ok e) (hs : s ≤ d.size) :
    ∃ rounds, Rounds x limit d s rounds e ∧ s + rounds = e.size := by
  fun_induction explore x limit d s with
  | case1 d s hNone =>
      cases h
      exact ⟨0, .done hNone, Nat.le_antisymm hs (List.getElem?_eq_none_iff.mp hNone)⟩
  | case2 => cases h
  | case3 d s members hState next hNext _ _ ih =>
      have hGrows := (unregistered_complete hNext).2
      have hLt : s < d.size := lt_size_of_members? hState
      obtain ⟨rounds, rest, hCount⟩ := ih h (Nat.le_trans hLt hGrows)
      refine ⟨rounds + 1, .round hState hNext rest, ?_⟩
      rw [← hCount, Nat.add_right_comm, Nat.add_assoc]

/-- The sets that the states stand for hold what some word leads to. -/
theorem Simulates.reachable (h : Simulates x d) (hNumbered : d.Numbered) (wf : x.WellFormed)
    {members : StateSet} (hMem : members ∈ d.states) {v : State} (hv : v ∈ members) :
    x.Reachable v := by
  obtain ⟨i, hi⟩ := List.getElem?_of_mem hMem
  obtain ⟨word, hWord⟩ := hNumbered.exists_runFrom h.wellFormed (lt_size_of_members? hi)
  obtain ⟨states, hStates⟩ := wf.exists_run word
  have hSame : d.members? i = some states := by
    rw [← idxOf?_eq_some_iff h.nodup, ← (h.runFrom_eq wf hStates).1]
    exact hWord
  cases hi.symm.trans hSame
  exact ⟨word, (Fragment.mem_run_iff hStates).mp hv⟩

/-- Without a limit the construction for a well-formed fragment ends after as many rounds as
the automaton has states. There is at least the start state, and there are no more states than
nonempty sets of vertices that can be reached. -/
theorem determinize_ends_within_powerset (hx : x.validate = .ok ()) :
    ∃ members d, x.initial = .ok members ∧ x.determinize = .ok d ∧
      Rounds x none ((empty x.alphabet).addState x.final members) State.first d.size d ∧
      1 ≤ d.size ∧ d.size ≤ 2 ^ {v | v ∈ x.graph ∧ x.Reachable v}.ncard - 1 := by
  have wf := Fragment.validate_eq_ok_iff.mp hx
  obtain ⟨d, hd⟩ := exists_ofFragment wf
  obtain ⟨h, hNumbered⟩ := simulates_of_ofFragment hd
  obtain ⟨⟨⟩, -, hRest⟩ := Outcome.bind_eq_ok_iff.mp hd
  obtain ⟨members, hInitial, hExplore⟩ := Outcome.bind_eq_ok_iff.mp hRest
  have hFinite : {v | v ∈ x.graph ∧ x.Reachable v}.Finite :=
    x.graph.vertices.finite_toSet.subset fun v hv => Graph.mem_vertices.mpr hv.1
  obtain ⟨rounds, hRounds, hCount⟩ := rounds_of_explore hExplore (Nat.zero_le _)
  refine ⟨members, d, hInitial, hd, ?_, h.wellFormed.size_pos, ?_⟩
  · rw [← hCount, State.first, Nat.zero_add]
    exact hRounds
  · apply SortedSet.length_le_of_subsets hFinite h.nodup h.nonempty
    intro found hMem v hv
    exact ⟨h.inside found hMem v hv, h.reachable hNumbered wf hMem hv⟩

/-- Two vertices such that every nonempty set of them can be reached. -/
def crossed : Fragment Char where
  session := 0
  graph := ((Graph.empty.addEdge 0 1 (.symbol 'a')).addEdge 0 0 (.symbol 'b')).addEdge 0 1
    (.symbol 'b')
  start := 0
  final := 1
  alphabet := .ofList ['a', 'b']

/-- The bound is reached: there are automata with as many states as it allows. -/
theorem determinize_ends_within_powerset_crossed :
    crossed.validate = .ok () ∧ ∃ d, crossed.determinize = .ok d ∧ d.size = 3 ∧
      d.size ≤ 2 ^ {v | v ∈ crossed.graph ∧ crossed.Reachable v}.ncard - 1 ∧
      {v | v ∈ crossed.graph ∧ crossed.Reachable v} = {0, 1} := by
  have hValid : crossed.validate = .ok () := by rfl
  obtain ⟨-, d, -, hd, -, -, hBound⟩ := determinize_ends_within_powerset hValid
  have hSize : crossed.determinize.map Dfa.size = .ok 3 := by decide +kernel
  rw [hd] at hSize
  refine ⟨hValid, d, hd, Except.ok.inj hSize, hBound, ?_⟩
  have hStart : crossed.Reachable 0 := ⟨[], .nil 0⟩
  have hEdge : crossed.graph.Joins 0 (.symbol 'a') 1 := List.mem_cons_self
  have hVertices : crossed.graph.vertices = [0, 1] := by rfl
  ext v
  constructor
  · intro h
    have hMem := Graph.mem_vertices.mpr h.1
    simpa [hVertices] using hMem
  · rintro (rfl | rfl)
    · exact ⟨by decide, hStart⟩
    · exact ⟨by decide, hStart.step hEdge⟩

end Dfa

end FiniteAutomata
