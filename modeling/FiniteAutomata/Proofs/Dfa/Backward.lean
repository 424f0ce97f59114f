import FiniteAutomata.Proofs.Dfa.Residual

/-! The search for live states. It goes from the accepting states over the edges backwards, comes
to nothing but states of the automaton, enters each of them at most once, and finds exactly the
states from which an accepting one can be reached. -/
namespace FiniteAutomata.Dfa

variable {σ : Type} [Symbol σ] {d : Dfa σ}

/-- Some edge leads from `s` to `t`. -/
def Leads (d : Dfa σ) (s t : State) : Prop := ∃ a, d.graph.Joins s a t

/-- The stages of the search for live states: after a number of states were entered, those that
are marked and those on the stack. -/
abbrev LiveStage (d : Dfa σ) : Nat → StateSet → List State → Prop :=
  Search.Stage (ε := Empty) (fun s => .ok (d.predecessors s)) d.accepting

theorem mem_live_iff_leads {s : State} :
    s ∈ d.live ↔ ∃ t ∈ d.accepting, Relation.ReflTransGen d.Leads s t := by
  have hBackwards : Search.Follows (ε := Empty) (fun s => .ok (d.predecessors s)) =
      Function.swap d.Leads := by
    funext t s
    exact propext follows_predecessors
  rw [mem_live_iff_reached, Search.Reached, hBackwards]
  simp only [Relation.reflTransGen_swap]

theorem liveStage_live (d : Dfa σ) : d.LiveStage d.live.size d.live [] := by
  unfold live
  dsimp only
  split
  next states hFound => exact Search.stage_of_reach hFound

/-- What the search marks on its way is live. -/
theorem mem_live_of_liveStage {entered : Nat} {found : StateSet} {stack : List State}
    (h : d.LiveStage entered found stack) {s : State} (hs : s ∈ found) : s ∈ d.live :=
  mem_live_iff_reached.mpr (h.halfway.reached s hs)

theorem WellFormed.lt_size_of_mem_live (wf : d.WellFormed) {s : State} (h : s ∈ d.live) :
    s < d.size :=
  wf.lt_size_of_alive (wf.mem_live_iff.mp h)

/-- The ends of all edges are states, and so is whatever the search marks or stacks, and whatever
leads there. It takes no more steps than there are states, and ends when it has entered all that
it has marked. A state is marked in the end exactly if an accepting state can be reached from it
over any number of edges. -/
theorem live_backward_search (h : d.Constructed) :
    (∀ e ∈ d.graph.edges, e.source < d.size ∧ e.target < d.size) ∧
    (∀ entered found stack, d.LiveStage entered found stack →
      (∀ s ∈ found, s < d.size) ∧
      (∀ s ∈ stack, s ∈ found ∧ ∀ t ∈ d.predecessors s, t < d.size) ∧
      entered + stack.length ≤ d.size) ∧
    d.LiveStage d.live.size d.live [] ∧
    ∀ s, s ∈ d.live ↔ ∃ t ∈ d.accepting, Relation.ReflTransGen d.Leads s t := by
  have wf := h.wellFormed
  have hEdge : ∀ s a t, d.graph.Joins s a t → s < d.size ∧ t < d.size := fun s a t hJoins =>
    ⟨wf.lt_size_of_joins hJoins, wf.target_lt s a t hJoins⟩
  refine ⟨fun e he => hEdge _ _ _ (Graph.mem_edges_iff.mp he), ?_, liveStage_live d,
    fun s => mem_live_iff_leads⟩
  intro entered found stack hStage
  have hFound : ∀ s ∈ found, s < d.size := fun s hs =>
    wf.lt_size_of_mem_live (mem_live_of_liveStage hStage hs)
  refine ⟨hFound, fun s hs => ⟨hStage.halfway.stacked s hs, fun t ht => ?_⟩, ?_⟩
  · obtain ⟨a, hJoins⟩ := mem_predecessors_iff.mp ht
    exact (hEdge t a s hJoins).1
  · -- Every marked state was entered or is still stacked, and none is both.
    rw [← hStage.size_eq]
    exact SortedSet.size_le_of_lt hFound

/-- The search marks three of the four states. No accepting state can be reached from the other
one, although it has an edge. -/
theorem live_backward_search_trapped :
    trappedAutomaton.Constructed ∧ trappedAutomaton.LiveStage 3 (.ofList [0, 1, 3]) [] ∧
      trappedAutomaton.Leads 2 2 ∧
      ¬ ∃ t ∈ trappedAutomaton.accepting, Relation.ReflTransGen trappedAutomaton.Leads 2 t := by
  have hMade : trapped.determinize = .ok trappedAutomaton := by decide +kernel
  have hConstructed : trappedAutomaton.Constructed := .ofFragment hMade
  have hLive : trappedAutomaton.live = .ofList [0, 1, 3] := by decide +kernel
  obtain ⟨-, -, hEnd, hMarked⟩ := live_backward_search hConstructed
  rw [hLive] at hEnd
  refine ⟨hConstructed, hEnd, ⟨'a', List.mem_cons_self⟩, ?_⟩
  rw [← hMarked, hLive]
  decide

end FiniteAutomata.Dfa
