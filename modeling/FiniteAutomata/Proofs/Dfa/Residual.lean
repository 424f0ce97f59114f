import FiniteAutomata.Proofs.Dfa.Members

/-! What a state of the minimal automaton stands for. Its group consists of the states that
accept the same words, so its set is the union of theirs; as only states of one language are
brought together, the union spells no further words. -/
namespace FiniteAutomata.Dfa

variable {σ : Type} [Symbol σ] {x : Fragment σ} {d : Dfa σ}

namespace Partition.Exact

variable {p : Partition} {i : Nat} {members : StateSet}

/-- The leader of a group accepts what the group accepts. -/
theorem acceptsFrom_leader_eq (hExact : p.Exact d) (wf : d.WellFormed) (hi : i < p.length) :
    d.acceptsFrom (p.leader i) = (d.quotient d.live p).acceptsFrom i := by
  have hSame := acceptsFrom_quotient hExact wf (hExact.leader_mem_kept hi)
  rw [hExact.groupOf_leader hi] at hSame
  exact hSame.symm

/-- A group consists of the kept states that accept what it accepts. -/
theorem mem_group_iff (hExact : p.Exact d) (wf : d.WellFormed) {g : List State}
    (hg : p[i]? = some g) {s : State} :
    s ∈ g ↔ s ∈ d.kept d.live ∧ d.acceptsFrom s = (d.quotient d.live p).acceptsFrom i := by
  constructor
  · intro hs
    have hFlat : s ∈ p.flatten := List.mem_flatten_of_mem (List.mem_of_getElem? hg) hs
    exact ⟨hExact.mem_flatten_iff.mp hFlat, (hExact.of_mem_group wf hg hs).2.symm⟩
  · intro h
    obtain ⟨hKept, hSame⟩ := h
    have hi : i < p.length := (List.getElem?_eq_some_iff.mp hg).1
    have hGroup : p.groupOf s = i := by
      rw [← hExact.acceptsFrom_leader_eq wf hi] at hSame
      rw [(hExact.groupOf_eq_iff hKept (hExact.leader_mem_kept hi)).mpr hSame]
      exact hExact.groupOf_leader hi
    obtain ⟨g', hg', hMem⟩ := exists_mem_groupOf (hExact.mem_flatten_iff.mpr hKept)
    rw [hGroup, hg] at hg'
    cases hg'
    exact hMem

/-- If any word is accepted at all, then every group accepts some word. -/
theorem alive_quotient (hExact : p.Exact d) (wf : d.WellFormed) (hStart : d.Alive d.start)
    (hi : i < p.length) : (d.quotient d.live p).Alive i := by
  rw [Alive, ← hExact.acceptsFrom_leader_eq wf hi]
  rcases wf.mem_kept_iff.mp (hExact.leader_mem_kept hi) with hAlive | hFirst
  · exact hAlive
  · rw [hFirst]
    exact hStart

/-- The set of a group is the union of the sets of all states that accept the same words.
States that accept nothing are in no group. -/
theorem mem_members_iff (hExact : p.Exact d) (wf : d.WellFormed) (hStart : d.Alive d.start)
    (hi : (d.quotient d.live p).members? i = some members) (v : State) :
    v ∈ members ↔ ∃ s m, d.members? s = some m ∧
      d.acceptsFrom s = (d.quotient d.live p).acceptsFrom i ∧ v ∈ m := by
  have hLt : i < p.length := size_quotient (d := d) d.live ▸ lt_size_of_members? hi
  obtain ⟨g, hg, hMem⟩ := mem_members?_quotient hi
  rw [hMem]
  constructor
  · intro h
    obtain ⟨s, hs, m, hm, hv⟩ := h
    exact ⟨s, m, hm, ((hExact.mem_group_iff wf hg).mp hs).2, hv⟩
  · intro h
    obtain ⟨s, m, hm, hSame, hv⟩ := h
    have hAlive : d.Alive s := by
      rw [Alive, hSame]
      exact hExact.alive_quotient wf hStart hLt
    have hKept := wf.mem_kept_iff.mpr (Or.inl hAlive)
    exact ⟨s, (hExact.mem_group_iff wf hg).mpr ⟨hKept, hSame⟩, m, hm, hv⟩

/-- If nothing is accepted, the start is alone in the group that comes first. -/
theorem members?_quotient_start (hExact : p.Exact d) (wf : d.WellFormed)
    (hDead : ¬ d.Alive d.start) :
    (d.quotient d.live p).members? (d.quotient d.live p).start = d.members? d.start := by
  have hFirst : (d.quotient d.live p).acceptsFrom 0 = d.acceptsFrom d.start := by
    rw [← hExact.groupOf_start wf, acceptsFrom_quotient hExact wf wf.start_mem_kept]
  obtain ⟨m, hm⟩ := exists_members? wf.size_pos
  obtain ⟨members, hMembers⟩ := exists_members? (wellFormed_quotient hExact wf).size_pos
  obtain ⟨g, hg, hMem⟩ := mem_members?_quotient hMembers
  -- A live state would accept what the start accepts, which is nothing.
  have hGroup : ∀ s, s ∈ g ↔ s = d.start := by
    intro s
    rw [hExact.mem_group_iff wf hg, hFirst, wf.mem_kept_iff]
    constructor
    · intro h
      obtain ⟨hAlive | hStart, hSame⟩ := h
      · rw [Alive, hSame] at hAlive
        exact False.elim (hDead hAlive)
      · exact hStart
    · intro hStart
      simp [hStart]
  change (d.quotient d.live p).members? 0 = d.members? 0
  rw [hMembers, hm]
  apply congrArg some
  apply SortedSet.ext
  intro v
  rw [hMem]
  simp only [hGroup, exists_eq_left]
  constructor
  · intro h
    obtain ⟨m', hm', hv⟩ := h
    cases hm.symm.trans hm'
    exact hv
  · exact fun hv => ⟨m, hm, hv⟩

end Partition.Exact

theorem Simulates.alive_start_iff (h : Simulates x d) (wf : x.WellFormed) :
    d.Alive d.start ↔ ∃ word, x.accepts word = .ok true := by
  simp [Alive, h.accepts_eq wf, accepts]

/-- A state of the minimal automaton accepts the words that are spelled from the states of the
fragment in its set. If the fragment accepts any word, this set is the union of the sets of
those states of the automaton that accept the same words, and as every minimal state accepts
some word, states that accept nothing add nothing. Otherwise only the start is left, with the
set that it had. -/
theorem minimize_members_residual (hx : x.validate = .ok ()) :
    ∃ d, x.determinize = .ok d ∧
      (∀ q < d.minimize.size, ∃ members, d.minimize.members? q = some members ∧
        (∀ word, d.minimize.acceptsFrom q word = true ↔
          ∃ v ∈ members, x.graph.Path v word x.final) ∧
        ((∃ word, x.accepts word = .ok true) →
          (∃ word, d.minimize.acceptsFrom q word = true) ∧
          ∀ v, v ∈ members ↔ ∃ s m, d.members? s = some m ∧
            d.acceptsFrom s = d.minimize.acceptsFrom q ∧ v ∈ m)) ∧
      ((∀ word, x.accepts word = .ok false) →
        d.minimize.size = 1 ∧ d.minimize.members? d.minimize.start = d.members? d.start) := by
  have wf := Fragment.validate_eq_ok_iff.mp hx
  obtain ⟨d, hd⟩ := exists_ofFragment wf
  obtain ⟨h, hNumbered⟩ := simulates_of_ofFragment hd
  have hExact := exact_refine h.wellFormed (Table.ofFunction d.size (d.liveTargets d.live))
  have hCanonical : d.minimize.Canonical := canonical_minimize h.wellFormed hNumbered
  refine ⟨d, hd, fun q hq => ?_, fun hEmpty => ⟨?_, ?_⟩⟩
  · obtain ⟨members, hMembers⟩ := exists_members? hq
    refine ⟨members, hMembers, hExact.acceptsFrom_quotient_iff h hNumbered wf hMembers, ?_⟩
    intro hSome
    have hStart := (h.alive_start_iff wf).mpr hSome
    have hGroup : q < (refine _ (d.initialPartition d.live)).sort.length :=
      size_quotient (d := d) d.live ▸ hq
    exact ⟨hExact.alive_quotient h.wellFormed hStart hGroup,
      hExact.mem_members_iff h.wellFormed hStart hMembers⟩
  · have hNone : ∀ word, d.minimize.accepts word = false := by
      intro word
      have hSame := congrFun (acceptsFrom_minimize h.wellFormed) word
      have hFalse := (h.accepts_eq wf word).symm.trans (hEmpty word)
      exact hSame.trans (Except.ok.inj hFalse)
    exact (hCanonical.eq_start_of_empty hNone).1
  · apply hExact.members?_quotient_start h.wellFormed
    rw [h.alive_start_iff wf]
    simp [hEmpty]

/-- From 0 both `a` and `c` lead to the final state, the latter over one more state, and `b`
leads into a trap. -/
def trapped : Fragment Char where
  session := 0
  graph := ((((Graph.empty.addEdge 0 1 (.symbol 'a')).addEdge 0 2 (.symbol 'b')).addEdge 0 3
    (.symbol 'c')).addEdge 2 2 (.symbol 'a')).addEdge 3 1 .epsilon
  start := 0
  final := 1
  alphabet := .ofList ['a', 'b', 'c']

/-- The automaton of `trapped`. Its states 1 and 3 accept the same words, and 2 accepts none. -/
def trappedAutomaton : Dfa Char where
  entries := [⟨0, .singleton 0⟩, ⟨1, .singleton 1⟩, ⟨2, .singleton 2⟩, ⟨3, .ofList [1, 3]⟩]
  accepting := .ofList [1, 3]
  alphabet := .ofList ['a', 'b', 'c']
  graph := (((Graph.empty.addEdge 0 1 'a').addEdge 0 2 'b').addEdge 0 3 'c').addEdge 2 2 'a'

theorem minimize_members_residual_trapped :
    trapped.validate = .ok () ∧ trapped.accepts ['c'] = .ok true ∧
      trapped.determinize = .ok trappedAutomaton ∧
      trappedAutomaton.minimize.members? 1 = some (.ofList [1, 3]) ∧
      ∀ v, v ∈ SortedSet.ofList [1, 3] ↔ ∃ s m, trappedAutomaton.members? s = some m ∧
        trappedAutomaton.acceptsFrom s = trappedAutomaton.minimize.acceptsFrom 1 ∧ v ∈ m := by
  have hValid : trapped.validate = .ok () := by rfl
  have hWord : trapped.accepts ['c'] = .ok true := by decide +kernel
  have hMade : trapped.determinize = .ok trappedAutomaton := by decide +kernel
  have hStates : trappedAutomaton.minimize.states = [.singleton 0, .ofList [1, 3]] := by
    -- The first round splits no group, and the groups are in order.
    rw [minimize, refine, if_neg (by decide +kernel), Partition.sort,
      List.mergeSort_of_pairwise (by decide +kernel)]
    decide +kernel
  have hSize : 1 < trappedAutomaton.minimize.size := by simp [size, hStates]
  have hBoth : trappedAutomaton.minimize.members? 1 = some (.ofList [1, 3]) := by
    simp [members?, hStates]
  obtain ⟨d, hd, hMembers, -⟩ := minimize_members_residual hValid
  cases hd.symm.trans hMade
  obtain ⟨members, hFound, -, hUnion⟩ := hMembers 1 hSize
  cases hFound.symm.trans hBoth
  exact ⟨hValid, hWord, hMade, hBoth, (hUnion ⟨_, hWord⟩).2⟩

end FiniteAutomata.Dfa
