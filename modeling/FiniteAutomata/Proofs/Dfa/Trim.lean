import FiniteAutomata.Proofs.Dfa.Members
import FiniteAutomata.Proofs.Fragment.Trim

/-! Automata of trim fragments. Every state stands for some vertex, from which a path leads
to the final one, so an accepting state can be reached from everywhere. Minimization has
nothing to leave out then: it only brings states together. -/
namespace FiniteAutomata.Dfa

variable {σ : Type} [Symbol σ] {x : Fragment σ} {d : Dfa σ}

/-- Some word is accepted from every state of the automaton of a trim fragment. -/
theorem Simulates.alive (h : Simulates x d) (hNumbered : d.Numbered) (hx : x.Trim) {s : State}
    (hs : s < d.size) : d.Alive s := by
  obtain ⟨members, hMembers⟩ := exists_members? hs
  have hNonempty : ∃ v, v ∈ members := by
    apply Classical.byContradiction
    intro hNone
    apply h.nonempty
    rw [← SortedSet.eq_empty_iff.mpr (not_exists.mp hNone)]
    exact mem_states_of_members? hMembers
  obtain ⟨v, hv⟩ := hNonempty
  have hVertex := h.inside members (mem_states_of_members? hMembers) v hv
  obtain ⟨-, word, -, path⟩ := hx.on_path v hVertex
  exact ⟨word, (h.acceptsFrom_iff hNumbered hx.wellFormed hMembers word).mpr ⟨v, hv, path⟩⟩

section Alive

variable (wf : d.WellFormed) (hAlive : ∀ s < d.size, d.Alive s)
include wf hAlive

/-- If all states are alive, all are kept. -/
theorem WellFormed.kept_eq : d.kept d.live = List.range d.size := by
  rw [kept, wf.ids]
  apply List.filter_eq_self.mpr
  intro s hs
  have hLive : s ∈ d.live := wf.mem_live_iff.mpr (hAlive s (List.mem_range.mp hs))
  rw [decide_eq_true hLive, Bool.true_or]

/-- If all states are alive, all edges are kept. -/
theorem WellFormed.filter_arrows_eq (s : State) :
    ((d.graph.arrows s).filter fun b => decide (b.target ∈ d.live)) = d.graph.arrows s := by
  apply List.filter_eq_self.mpr
  intro b hb
  exact decide_eq_true (wf.mem_live_iff.mpr (hAlive b.target (wf.target_lt s b.weight _ hb)))

theorem WellFormed.liveTransition_eq (s : State) (a : σ) :
    d.liveTransition d.live s a = d.transition s a := by
  ext t
  rw [wf.liveTransition_eq_some_iff]
  apply and_iff_left_of_imp
  intro hNext
  exact hAlive t (wf.target_lt s a t (wf.transition_eq_some_iff.mp hNext))

end Alive

/-- Every state of the automaton of a trim fragment leads to an accepting one. Minimizing it
keeps all states and edges: each state goes over into one of the minimal automaton, which
accepts if it does and leads on where it leads. -/
theorem exists_determinize_of_trim (hx : x.Trim) :
    ∃ d, x.determinize = .ok d ∧
      (∀ s < d.size, ∃ word t, d.runFrom s word = some t ∧ t ∈ d.accepting) ∧
      d.kept d.live = List.range d.size ∧
      (∀ s, ((d.graph.arrows s).filter fun b => decide (b.target ∈ d.live)) = d.graph.arrows s) ∧
      ∃ f : State → State, f d.start = d.minimize.start ∧
        (∀ i < d.minimize.size, ∃ s < d.size, f s = i) ∧
        ∀ s < d.size, f s < d.minimize.size ∧
          d.minimize.isAccepting (f s) = d.isAccepting s ∧
          ∀ a, d.minimize.transition (f s) a = (d.transition s a).map f := by
  obtain ⟨d, hd⟩ := exists_ofFragment hx.wellFormed
  obtain ⟨h, hNumbered⟩ := simulates_of_ofFragment hd
  have wf := h.wellFormed
  have hAlive : ∀ s < d.size, d.Alive s := fun s hs => h.alive hNumbered hx hs
  have hExact := exact_refine wf (Table.ofFunction d.size (d.liveTargets d.live))
  have hKept : ∀ s < d.size, s ∈ d.kept d.live := fun s hs => by
    rw [wf.kept_eq hAlive]
    exact List.mem_range.mpr hs
  refine ⟨d, hd, fun s hs => alive_iff.mp (hAlive s hs), wf.kept_eq hAlive,
    wf.filter_arrows_eq hAlive, Partition.groupOf _, hExact.groupOf_start wf, ?_, ?_⟩
  · intro i hi
    have hGroup := hi.trans_eq (size_quotient d.live)
    exact ⟨_, wf.lt_size_of_mem_kept (hExact.leader_mem_kept hGroup), hExact.groupOf_leader hGroup⟩
  · intro s hs
    refine ⟨(hExact.groupOf_lt (hKept s hs)).trans_eq (size_quotient d.live).symm, ?_, fun a => ?_⟩
    · exact congrFun (acceptsFrom_quotient hExact wf (hKept s hs)) []
    · rw [← wf.liveTransition_eq hAlive]
      exact transition_quotient hExact wf (hKept s hs) a

end FiniteAutomata.Dfa
