import FiniteAutomata.Dfa.Subset
import FiniteAutomata.Proofs.Dfa.Numbering
import FiniteAutomata.Proofs.Fragment.Simulation

/-! The invariant of the subset construction. At any moment the states stand for
different nonempty sets, and the edges are the steps of the simulation that have been
tried so far; a state for another set and an edge for another step keep this. -/
namespace FiniteAutomata.Dfa

variable {σ : Type} [Symbol σ]

section Registered

variable {d : Dfa σ} {members : StateSet}

theorem lt_size_of_members? {i : State} (h : d.members? i = some members) : i < d.size :=
  (List.getElem?_eq_some_iff.mp h).1

theorem mem_states_of_members? {i : State} (h : d.members? i = some members) :
    members ∈ d.states :=
  List.mem_of_getElem? h

/-- As no set has two states, looking a set up finds the state that stands for it. -/
theorem idxOf?_eq_some_iff (hNodup : d.states.Nodup) {i : State} :
    d.states.idxOf? members = some i ↔ d.members? i = some members := by
  rw [List.idxOf?_eq_some_iff, members?, List.getElem?_eq_some_iff]
  constructor
  · intro h
    obtain ⟨hLt, hEq, -⟩ := h
    exact ⟨hLt, hEq⟩
  · intro h
    obtain ⟨hLt, hEq⟩ := h
    refine ⟨hLt, hEq, fun j hj hOther => ?_⟩
    have hSame := (hNodup.getElem_inj_iff).mp (hOther.trans hEq.symm)
    exact Nat.ne_of_lt hj hSame

variable (final : State)

theorem size_addState : (d.addState final members).size = d.size + 1 := by
  rw [size, states_addState, List.length_append, List.length_singleton, size]

theorem mem_states_addState {other : StateSet} :
    other ∈ (d.addState final members).states ↔ other ∈ d.states ∨ other = members := by
  rw [states_addState, List.mem_append, List.mem_singleton]

/-- A new state gets its position as its number. -/
theorem ids_addState (h : d.entries.map DfaState.id = List.range d.size) :
    (d.addState final members).entries.map DfaState.id =
      List.range (d.addState final members).size := by
  rw [size_addState, List.range_succ, addState, List.map_append, h]
  rfl

theorem members?_addState (i : State) :
    (d.addState final members).members? i = if i = d.size then some members else d.members? i := by
  rw [members?, states_addState, List.getElem?_append, members?, size]
  split
  next hLt => rw [if_neg (Nat.ne_of_lt hLt)]
  next hGe =>
    split
    next hEq => rw [hEq, Nat.sub_self, List.getElem?_cons_zero]
    next hNe =>
      have hGt : d.states.length < i := Nat.lt_of_le_of_ne (Nat.le_of_not_lt hGe) (Ne.symm hNe)
      rw [List.getElem?_eq_none (Nat.le_of_lt hGt), List.getElem?_eq_none]
      exact Nat.sub_pos_of_lt hGt

theorem members?_addState_of_lt {i : State} (h : i < d.size) :
    (d.addState final members).members? i = d.members? i := by
  rw [members?_addState, if_neg (Nat.ne_of_lt h)]

theorem joins_addState {i t : State} {a : σ} :
    (d.addState final members).graph.Joins i a t ↔ d.graph.Joins i a t := by
  rw [Graph.Joins, Graph.Joins, addState, Graph.arrows_addVertex]

theorem arrows_addState (i : State) :
    (d.addState final members).graph.arrows i = d.graph.arrows i := Graph.arrows_addVertex ..

theorem mem_accepting_addState {i : State} :
    i ∈ (d.addState final members).accepting ↔
      i ∈ d.accepting ∨ i = d.size ∧ final ∈ members := by
  rw [addState]
  split
  next h => rw [SortedSet.mem_insert, or_comm, and_iff_left h]
  next h => exact (or_iff_left fun hNew => h hNew.2).symm

/-- Registering a set either finds its state or adds one. -/
theorem register_cases {limit : Option Nat} {e : Dfa σ} {t : State} (hNodup : d.states.Nodup)
    (h : d.register limit final members = .ok (t, e)) :
    (e = d ∧ d.members? t = some members) ∨
      (members ∉ d.states ∧ t = d.size ∧ e = d.addState final members) := by
  unfold register at h
  split at h
  next s hOld =>
    cases h
    exact Or.inl ⟨rfl, (idxOf?_eq_some_iff hNodup).mp hOld⟩
  next hNone =>
    obtain ⟨-, -, hNew⟩ := Outcome.bind_eq_ok_iff.mp h
    cases hNew
    exact Or.inr ⟨List.idxOf?_eq_none_iff.mp hNone, rfl, rfl⟩

theorem exists_register (d : Dfa σ) (members : StateSet) :
    ∃ result, d.register none final members = .ok result := by
  unfold register
  split
  next s _ => exact ⟨(s, d), rfl⟩
  next => exact ⟨(d.size, d.addState final members), rfl⟩

end Registered

/-- The steps that have been tried once the states below `s` are complete and the
symbols of `done` are tried for `s`. -/
def Tried (x : Fragment σ) (s : State) (done : List σ) (i : State) (a : σ) : Prop :=
  i < s ∧ a ∈ x.alphabet ∨ i = s ∧ a ∈ done

theorem tried_succ (x : Fragment σ) (s : State) :
    Tried x (s + 1) [] = Tried x s x.alphabet.toList := by
  funext i a
  refine propext ⟨?_, ?_⟩
  · intro h
    rcases h with ⟨hLt, ha⟩ | ⟨-, ha⟩
    · rcases Nat.lt_succ_iff_lt_or_eq.mp hLt with hLess | hEq
      · exact Or.inl ⟨hLess, ha⟩
      · exact Or.inr ⟨hEq, ha⟩
    · cases ha
  · intro h
    rcases h with ⟨hLt, ha⟩ | ⟨rfl, ha⟩
    · exact Or.inl ⟨Nat.lt_succ_of_lt hLt, ha⟩
    · exact Or.inl ⟨Nat.lt_succ_self i, ha⟩

theorem tried_append (x : Fragment σ) (s : State) (done : List σ) (a : σ) :
    Tried x s (done ++ [a]) = fun i b => Tried x s done i b ∨ i = s ∧ b = a := by
  funext i b
  rw [Tried, Tried, List.mem_append, List.mem_singleton, and_or_left, or_assoc]

/-- The automaton follows the simulation of a fragment as far as it has been tried.
Its states stand for different nonempty sets of vertices, the first for the set
before anything is read, and its edges are the steps that have been tried. -/
structure Tracks (x : Fragment σ) (tried : State → σ → Prop) (d : Dfa σ) : Prop where
  ids : d.entries.map DfaState.id = List.range d.size
  alphabet_eq : d.alphabet = x.alphabet
  nodup : d.states.Nodup
  nonempty : ∅ ∉ d.states
  inside : ∀ members ∈ d.states, ∀ v ∈ members, v ∈ x.graph
  first : ∃ members, x.initial = .ok members ∧ d.members? d.start = some members
  accepting_iff : ∀ i, i ∈ d.accepting ↔ ∃ members, d.members? i = some members ∧ x.final ∈ members
  mem_graph : ∀ i : State, i ∈ d.graph ↔ i < d.size
  ascending : ∀ i, (d.graph.arrows i).Pairwise fun b c => compare b.weight c.weight = .lt
  joins_iff : ∀ i a t, d.graph.Joins i a t ↔ tried i a ∧ ∃ members targets,
    d.members? i = some members ∧ x.step members a = .ok targets ∧ d.members? t = some targets
  registered : ∀ i a members targets, tried i a → d.members? i = some members →
    x.step members a = .ok targets → targets ≠ ∅ → targets ∈ d.states

/-- The automaton follows the simulation of a fragment in every step. -/
abbrev Simulates (x : Fragment σ) (d : Dfa σ) : Prop := Tracks x (fun _ a => a ∈ x.alphabet) d

namespace Tracks

variable {x : Fragment σ} {tried : State → σ → Prop} {d : Dfa σ}

theorem lt_size_of_joins (h : Tracks x tried d) {i t : State} {a : σ}
    (hEdge : d.graph.Joins i a t) : i < d.size ∧ t < d.size := by
  obtain ⟨-, members, targets, hSource, -, hTarget⟩ := (h.joins_iff i a t).mp hEdge
  exact ⟨lt_size_of_members? hSource, lt_size_of_members? hTarget⟩

/-- A state for another set keeps what is tracked, as no tried step leads to the new
set. -/
theorem addState (h : Tracks x tried d) {members : StateSet} (hNew : members ∉ d.states)
    (hNonempty : members ≠ ∅) (hInside : ∀ v ∈ members, v ∈ x.graph)
    (hTried : ∀ i a, tried i a → i < d.size) : Tracks x tried (d.addState x.final members) where
  ids := ids_addState x.final h.ids
  alphabet_eq := h.alphabet_eq
  nodup := by
    rw [states_addState]
    exact List.nodup_append.mpr ⟨h.nodup, List.nodup_singleton _, fun a ha b hb hEq =>
      hNew (List.mem_singleton.mp hb ▸ hEq ▸ ha)⟩
  nonempty hMem := by
    rcases (mem_states_addState _).mp hMem with hOld | hEq
    · exact h.nonempty hOld
    · exact hNonempty hEq.symm
  inside other hOther := by
    rcases (mem_states_addState _).mp hOther with hOld | rfl
    · exact h.inside other hOld
    · exact hInside
  first := by
    obtain ⟨start, hStart, hFirst⟩ := h.first
    refine ⟨start, hStart, ?_⟩
    exact (members?_addState_of_lt _ (lt_size_of_members? hFirst)).trans hFirst
  accepting_iff i := by
    rw [mem_accepting_addState, members?_addState, h.accepting_iff]
    split
    next hEq =>
      constructor
      · intro hEither
        rcases hEither with ⟨old, hOld, -⟩ | ⟨-, hFinal⟩
        · exact False.elim (Nat.ne_of_lt (lt_size_of_members? hOld) hEq)
        · exact ⟨members, rfl, hFinal⟩
      · intro hSome
        obtain ⟨_, ⟨⟩, hFinal⟩ := hSome
        exact Or.inr ⟨hEq, hFinal⟩
    next hNe => exact or_iff_left fun hLast => hNe hLast.1
  mem_graph i := by
    rw [size_addState, Nat.lt_succ_iff_lt_or_eq, ← h.mem_graph, Dfa.addState, Graph.mem_addVertex,
      or_comm]
  ascending i := by
    rw [arrows_addState]
    exact h.ascending i
  joins_iff i a t := by
    rw [joins_addState, h.joins_iff]
    refine and_congr_right fun hMet => exists_congr fun source => exists_congr fun targets => ?_
    rw [members?_addState_of_lt _ (hTried i a hMet), members?_addState]
    refine and_congr_right fun hSource => and_congr_right fun hStep => ?_
    split
    next hEq =>
      constructor
      · exact fun hOld => False.elim (Nat.ne_of_lt (lt_size_of_members? hOld) hEq)
      · intro hEq
        cases hEq
        exact False.elim (hNew (h.registered i a source members hMet hSource hStep hNonempty))
    next => rfl
  registered i a source targets hMet hSource hStep hTargets := by
    rw [members?_addState_of_lt _ (hTried i a hMet)] at hSource
    exact (mem_states_addState _).mpr
      (Or.inl (h.registered i a source targets hMet hSource hStep hTargets))

variable {s : State} {a : σ} {members targets : StateSet}

/-- A step to no state at all needs no edge. -/
theorem skip (h : Tracks x tried d) (hSource : d.members? s = some members)
    (hStep : x.step members a = .ok ∅) :
    Tracks x (fun i b => tried i b ∨ i = s ∧ b = a) d where
  __ := h
  joins_iff i b t := by
    rw [h.joins_iff, or_and_right, or_iff_left]
    intro hSome
    obtain ⟨⟨rfl, rfl⟩, source, found, hOther, hFound, hTarget⟩ := hSome
    cases hSource.symm.trans hOther
    cases hStep.symm.trans hFound
    exact h.nonempty (mem_states_of_members? hTarget)
  registered i b source found hMet hOther hFound hNonempty := by
    rcases hMet with hMet | ⟨rfl, rfl⟩
    · exact h.registered i b source found hMet hOther hFound hNonempty
    · cases hSource.symm.trans hOther
      cases hStep.symm.trans hFound
      exact False.elim (hNonempty rfl)

/-- A step to the set of a state gets an edge to that state. -/
theorem connect (h : Tracks x tried d) (hSource : d.members? s = some members)
    (hStep : x.step members a = .ok targets) {t : State} (hTarget : d.members? t = some targets)
    (hLast : ∀ b, tried s b → compare b a = .lt) :
    Tracks x (fun i b => tried i b ∨ i = s ∧ b = a)
      { d with graph := d.graph.addEdge s t a } where
  ids := h.ids
  alphabet_eq := h.alphabet_eq
  nodup := h.nodup
  nonempty := h.nonempty
  inside := h.inside
  first := h.first
  accepting_iff := h.accepting_iff
  mem_graph i := by
    rw [Graph.mem_addEdge, h.mem_graph]
    constructor
    · intro hEither
      rcases hEither with rfl | rfl | hLt
      · exact lt_size_of_members? hSource
      · exact lt_size_of_members? hTarget
      · exact hLt
    · exact fun hLt => Or.inr (Or.inr hLt)
  ascending i := by
    rw [Graph.arrows_addEdge]
    split
    next =>
      refine List.pairwise_append.mpr ⟨h.ascending s, List.pairwise_singleton _ _, ?_⟩
      intro b hb c hc
      cases List.mem_singleton.mp hc
      exact hLast b.weight ((h.joins_iff s b.weight b.target).mp hb).1
    next => exact h.ascending i
  joins_iff i b k := by
    rw [Graph.joins_addEdge, h.joins_iff, or_and_right]
    refine or_congr_right ?_
    constructor
    · intro hSome
      obtain ⟨rfl, rfl, rfl⟩ := hSome
      exact ⟨⟨rfl, rfl⟩, members, targets, hSource, hStep, hTarget⟩
    · intro hSome
      obtain ⟨⟨rfl, rfl⟩, source, found, hOther, hFound, hEnd⟩ := hSome
      cases hSource.symm.trans hOther
      cases hStep.symm.trans hFound
      refine ⟨rfl, rfl, ?_⟩
      have hk := (idxOf?_eq_some_iff h.nodup).mpr hEnd
      exact Option.some.inj (hk.symm.trans ((idxOf?_eq_some_iff h.nodup).mpr hTarget))
  registered i b source found hMet hOther hFound hNonempty := by
    rcases hMet with hMet | ⟨rfl, rfl⟩
    · exact h.registered i b source found hMet hOther hFound hNonempty
    · cases hSource.symm.trans hOther
      cases hStep.symm.trans hFound
      exact mem_states_of_members? hTarget

end Tracks

end FiniteAutomata.Dfa
