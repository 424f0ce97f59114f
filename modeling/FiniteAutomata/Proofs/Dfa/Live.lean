import FiniteAutomata.Dfa.Minimize
import FiniteAutomata.Proofs.Dfa.Automaton
import FiniteAutomata.Proofs.Search

/-! The states that minimization keeps. The live states are those from which some word
is accepted, so leaving out the edges to other states changes no answer. -/
namespace FiniteAutomata.Dfa

variable {σ : Type} [Symbol σ] {d : Dfa σ}

theorem mem_predecessors_iff {s t : State} :
    s ∈ d.predecessors t ↔ ∃ a, d.graph.Joins s a t := by
  unfold predecessors
  rw [List.mem_map]
  constructor
  · intro h
    obtain ⟨⟨v, l⟩, hRow, rfl⟩ := h
    obtain ⟨hMem, hAny⟩ := List.mem_filter.mp hRow
    obtain ⟨b, hb, hTarget⟩ := List.any_eq_true.mp hAny
    refine ⟨b.weight, ?_⟩
    have hArrows := Graph.arrows_eq_of_arrows? (Graph.mem_rows_iff.mp hMem)
    rw [Graph.Joins, hArrows, ← beq_iff_eq.mp hTarget]
    exact hb
  · intro h
    obtain ⟨a, hEdge⟩ := h
    refine ⟨(s, d.graph.arrows s), List.mem_filter.mpr ⟨?_, ?_⟩, rfl⟩
    · exact Graph.mem_rows_iff.mpr (Graph.arrows?_of_mem (Graph.mem_of_joins hEdge))
    · exact List.any_eq_true.mpr ⟨⟨t, a⟩, hEdge, beq_self_eq_true t⟩

/-- The search for live states goes over the edges backwards. -/
theorem mem_live_iff_reached {s : State} :
    s ∈ d.live ↔ Search.Reached (ε := Empty) (fun t => .ok (d.predecessors t)) d.accepting s := by
  unfold live
  dsimp only
  split
  next states hFound => exact Search.mem_reach_iff hFound

theorem follows_predecessors {s t : State} :
    Search.Follows (ε := Empty) (fun t => .ok (d.predecessors t)) t s ↔
      ∃ a, d.graph.Joins s a t := by
  rw [← mem_predecessors_iff]
  constructor
  · intro h
    obtain ⟨l, hl, hMem⟩ := h
    cases hl
    exact hMem
  · exact fun hMem => ⟨_, rfl, hMem⟩

namespace WellFormed

/-- The live states are those from which some word is accepted. -/
theorem mem_live_iff (wf : d.WellFormed) {s : State} : s ∈ d.live ↔ d.Alive s := by
  rw [mem_live_iff_reached]
  constructor
  · intro h
    obtain ⟨t, ht, path⟩ := h
    induction path with
    | refl => exact ⟨[], decide_eq_true ht⟩
    | tail _ last ih =>
        obtain ⟨a, hEdge⟩ := follows_predecessors.mp last
        exact ih.of_transition (wf.transition_eq_some_iff.mpr hEdge)
  · intro h
    obtain ⟨word, hWord⟩ := h
    induction word generalizing s with
    | nil => exact ⟨s, of_decide_eq_true hWord, .refl⟩
    | cons a word ih =>
        rw [acceptsFrom_cons, Option.any_eq_true] at hWord
        obtain ⟨t, hNext, hRest⟩ := hWord
        obtain ⟨u, hu, path⟩ := ih hRest
        have hEdge := wf.transition_eq_some_iff.mp hNext
        exact ⟨u, hu, path.tail (follows_predecessors.mpr ⟨a, hEdge⟩)⟩

theorem lt_size_of_alive (wf : d.WellFormed) {s : State} (h : d.Alive s) : s < d.size := by
  obtain ⟨word, hWord⟩ := h
  cases word with
  | nil => exact wf.accepting_lt s (of_decide_eq_true hWord)
  | cons a word =>
      rw [acceptsFrom_cons, Option.any_eq_true] at hWord
      obtain ⟨t, hNext, -⟩ := hWord
      exact wf.lt_size_of_joins (wf.transition_eq_some_iff.mp hNext)

/-- The kept states are listed in ascending order. -/
theorem pairwise_kept (wf : d.WellFormed) (live : StateSet) :
    (d.kept live).Pairwise (· < ·) := by
  rw [kept, wf.ids]
  exact List.pairwise_lt_range.filter _

theorem lt_size_of_mem_kept (wf : d.WellFormed) {live : StateSet} {s : State}
    (h : s ∈ d.kept live) : s < d.size := by
  rw [kept, wf.ids] at h
  exact List.mem_range.mp (List.mem_filter.mp h).1

/-- The kept states are the live ones and the start. -/
theorem mem_kept_iff (wf : d.WellFormed) {s : State} :
    s ∈ d.kept d.live ↔ d.Alive s ∨ s = d.start := by
  rw [kept, wf.ids, List.mem_filter, List.mem_range, Bool.or_eq_true, decide_eq_true_iff,
    wf.mem_live_iff, beq_iff_eq]
  constructor
  · exact And.right
  · intro h
    refine ⟨?_, h⟩
    cases h with
    | inl hAlive => exact wf.lt_size_of_alive hAlive
    | inr hStart => exact hStart ▸ wf.size_pos

theorem liveTransition_eq_some_iff (wf : d.WellFormed) {s t : State} {a : σ} :
    d.liveTransition d.live s a = some t ↔ d.transition s a = some t ∧ d.Alive t := by
  rw [liveTransition, Option.filter_eq_some_iff, decide_eq_true_iff, wf.mem_live_iff]

theorem start_mem_kept (wf : d.WellFormed) : d.start ∈ d.kept d.live :=
  wf.mem_kept_iff.mpr (Or.inr rfl)

theorem mem_kept_of_liveTransition (wf : d.WellFormed) {s t : State} {a : σ}
    (h : d.liveTransition d.live s a = some t) : t ∈ d.kept d.live :=
  wf.mem_kept_iff.mpr (Or.inl (wf.liveTransition_eq_some_iff.mp h).2)

theorem liveTransition_eq_none (wf : d.WellFormed) (s : State) {a : σ} (ha : a ∉ d.alphabet) :
    d.liveTransition d.live s a = none := by
  rw [liveTransition, wf.transition_eq_none_iff.mpr fun t hEdge => ha (wf.symbol_mem s a t hEdge)]
  rfl

/-- Leaving out the edges to states from which nothing is accepted changes nothing. -/
theorem acceptsFrom_cons_live (wf : d.WellFormed) (s : State) (a : σ) (word : List σ) :
    d.acceptsFrom s (a :: word) =
      (d.liveTransition d.live s a).any fun t => d.acceptsFrom t word := by
  rw [acceptsFrom_cons, Bool.eq_iff_iff, Option.any_eq_true, Option.any_eq_true]
  simp only [wf.liveTransition_eq_some_iff]
  constructor
  · intro h
    obtain ⟨t, hNext, hWord⟩ := h
    exact ⟨t, ⟨hNext, word, hWord⟩, hWord⟩
  · intro h
    obtain ⟨t, ⟨hNext, -⟩, hWord⟩ := h
    exact ⟨t, hNext, hWord⟩

theorem exists_liveTransition (wf : d.WellFormed) {s t s' : State} {a : σ}
    (hEq : d.acceptsFrom s = d.acceptsFrom t) (hs : d.liveTransition d.live s a = some s') :
    ∃ t', d.liveTransition d.live t a = some t' ∧ d.acceptsFrom s' = d.acceptsFrom t' := by
  obtain ⟨hEdge, hAlive⟩ := wf.liveTransition_eq_some_iff.mp hs
  obtain ⟨t', hOther, hSame⟩ := exists_transition_of_acceptsFrom_eq hEq hEdge hAlive
  refine ⟨t', wf.liveTransition_eq_some_iff.mpr ⟨hOther, ?_⟩, hSame⟩
  obtain ⟨word, hWord⟩ := hAlive
  exact ⟨word, hSame ▸ hWord⟩

/-- From two states that accept the same, a symbol leads on in both or in neither, and
then to states that accept the same. -/
theorem liveTransition_cases (wf : d.WellFormed) {s t : State}
    (hEq : d.acceptsFrom s = d.acceptsFrom t) (a : σ) :
    d.liveTransition d.live s a = none ∧ d.liveTransition d.live t a = none ∨
      ∃ s' t', d.liveTransition d.live s a = some s' ∧ d.liveTransition d.live t a = some t' ∧
        d.acceptsFrom s' = d.acceptsFrom t' := by
  cases hs : d.liveTransition d.live s a with
  | some s' =>
      obtain ⟨t', ht, hSame⟩ := wf.exists_liveTransition hEq hs
      exact Or.inr ⟨s', t', rfl, ht, hSame⟩
  | none =>
      cases ht : d.liveTransition d.live t a with
      | none => exact Or.inl ⟨rfl, rfl⟩
      | some t' =>
          obtain ⟨s', hs', -⟩ := wf.exists_liveTransition hEq.symm ht
          cases hs.symm.trans hs'

end WellFormed

end FiniteAutomata.Dfa
