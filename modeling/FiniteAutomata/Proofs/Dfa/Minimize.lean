import FiniteAutomata.Proofs.Dfa.Quotient
import FiniteAutomata.Proofs.Dfa.Subset
import Mathlib.Data.Fintype.Card

/-! Minimization. The minimal automaton accepts the same words, it is no larger than any
other automaton that does, and it is a normal form: fragments that accept the same
words have equal minimal automata. -/
namespace FiniteAutomata

/-- A deterministic automaton over any states, as a measure for those that are built. A
word that leads nowhere is rejected. -/
structure PartialAutomaton (σ Q : Type) where
  start : Q
  next : Q → σ → Option Q
  accepting : Q → Bool

namespace PartialAutomaton

variable {σ Q : Type} (m : PartialAutomaton σ Q)

/-- The state after reading a word from a state on. -/
def run (q : Q) (word : List σ) : Option Q := word.foldlM m.next q

/-- Whether the automaton accepts a word. -/
def accepts (word : List σ) : Bool := (m.run m.start word).any m.accepting

theorem accepts_append (v w : List σ) :
    m.accepts (v ++ w) = ((m.run m.start v).bind fun q => m.run q w).any m.accepting := by
  rw [accepts, run, List.foldlM_append]
  rfl

end PartialAutomaton

namespace Dfa

variable {σ : Type} [Symbol σ]

namespace Canonical

variable {d : Dfa σ}

/-- An automaton that accepts the same words can read every word that leads to a state of
the canonical one, as some longer word is accepted. -/
theorem exists_run (hd : d.Canonical) {Q : Type} (m : PartialAutomaton σ Q)
    (hSame : ∀ word, d.accepts word = m.accepts word) {s : State} (hs : s < d.size) :
    ∃ word q, d.runFrom d.start word = some s ∧ m.run m.start word = some q := by
  rcases Nat.eq_zero_or_pos s with rfl | hPos
  · exact ⟨[], m.start, rfl, rfl⟩
  · obtain ⟨word, hWord⟩ := hd.numbered.exists_runFrom hd.wellFormed hs
    obtain ⟨rest, hRest⟩ := hd.alive_of_pos hPos hs
    have hAccepts : m.accepts (word ++ rest) = true := by
      rw [← hSame, accepts, acceptsFrom_append d hWord, hRest]
    rw [m.accepts_append] at hAccepts
    cases hRun : m.run m.start word with
    | none => simp [hRun] at hAccepts
    | some q => exact ⟨word, q, hWord, hRun⟩

/-- No finite automaton that accepts the same words has fewer states: words that lead to
different states of the canonical automaton lead to different states of the other. -/
theorem size_le_card (hd : d.Canonical) {Q : Type} [Fintype Q] (m : PartialAutomaton σ Q)
    (hSame : ∀ word, d.accepts word = m.accepts word) : d.size ≤ Fintype.card Q := by
  have hState : ∀ s : Fin d.size, ∃ word q,
      d.runFrom d.start word = some s.val ∧ m.run m.start word = some q :=
    fun s => hd.exists_run m hSame s.isLt
  choose word state hWord hRun using hState
  have hAfter : ∀ (s : Fin d.size) (rest : List σ),
      d.acceptsFrom s.val rest = (m.run (state s) rest).any m.accepting := by
    intro s rest
    rw [← acceptsFrom_append d (hWord s) rest, ← accepts, hSame, m.accepts_append, hRun s]
    rfl
  rw [← Fintype.card_fin d.size]
  apply Fintype.card_le_of_injective state
  intro s t hEq
  apply Fin.ext
  apply hd.distinct s.val t.val s.isLt t.isLt
  funext rest
  rw [hAfter s, hAfter t, hEq]

/-- If nothing is accepted, only the start is left, and no edge. -/
theorem eq_start_of_empty (hd : d.Canonical) (hEmpty : ∀ word, d.accepts word = false) :
    d.size = 1 ∧ d.graph.edges = [] := by
  have hDead : ∀ s < d.size, ¬ d.Alive s := by
    intro s hs hAlive
    obtain ⟨word, hWord⟩ := hd.numbered.exists_runFrom hd.wellFormed hs
    obtain ⟨rest, hRest⟩ := hAlive
    have hNone := hEmpty (word ++ rest)
    rw [accepts, acceptsFrom_append d hWord, hRest] at hNone
    cases hNone
  constructor
  · have hPos := hd.wellFormed.size_pos
    have hSmall : ¬ 1 < d.size := fun hLt => hDead 1 hLt (hd.alive_of_pos Nat.one_pos hLt)
    omega
  · apply List.eq_nil_iff_forall_not_mem.mpr
    intro e he
    have hEdge := Graph.mem_edges_iff.mp he
    exact hDead _ (hd.wellFormed.target_lt _ _ _ hEdge) (hd.alive _ _ _ hEdge)

end Canonical

section Minimize

theorem canonical_minimize {d : Dfa σ} (wf : d.WellFormed) (hNumbered : d.Numbered) :
    d.minimize.Canonical :=
  canonical_quotient (exact_refine wf _) wf hNumbered

theorem acceptsFrom_minimize {d : Dfa σ} (wf : d.WellFormed) :
    d.minimize.acceptsFrom d.minimize.start = d.acceptsFrom d.start := by
  have h := exact_refine wf (Table.ofFunction d.size (d.liveTargets d.live))
  have hStart := acceptsFrom_quotient h wf wf.start_mem_kept
  rw [h.groupOf_start wf] at hStart
  exact hStart

/-- A well-formed fragment has a minimal automaton, which accepts what it accepts. -/
theorem exists_minimize {x : Fragment σ} (wf : x.WellFormed) :
    ∃ d, x.determinize = .ok d ∧ d.minimize.Canonical ∧
      ∀ word, x.accepts word = .ok (d.minimize.accepts word) := by
  obtain ⟨d, hd⟩ := exists_ofFragment wf
  obtain ⟨hSimulates, hNumbered⟩ := simulates_of_ofFragment hd
  refine ⟨d, hd, canonical_minimize hSimulates.wellFormed hNumbered, fun word => ?_⟩
  rw [hSimulates.accepts_eq wf, accepts, accepts, acceptsFrom_minimize hSimulates.wellFormed]

/-- Fragments accept the same words exactly if their minimal automata have the same
accepting states and the same graph. -/
theorem minimize_eq_iff_accepts_eq {x y : Fragment σ} (hx : x.validate = .ok ())
    (hy : y.validate = .ok ()) :
    ∃ d e, x.determinize = .ok d ∧ y.determinize = .ok e ∧
      ((∀ word, x.accepts word = y.accepts word) ↔
        d.minimize.accepting = e.minimize.accepting ∧ d.minimize.graph = e.minimize.graph) := by
  obtain ⟨d, hd, hCanonical, hWords⟩ := exists_minimize (Fragment.validate_eq_ok_iff.mp hx)
  obtain ⟨e, he, hCanonical', hWords'⟩ := exists_minimize (Fragment.validate_eq_ok_iff.mp hy)
  refine ⟨d, e, hd, he, ?_⟩
  simp only [hWords, hWords', Except.ok.injEq]
  constructor
  · intro hSame
    exact hCanonical.eq_of_acceptsFrom_eq hCanonical' (funext hSame)
  · intro hEq word
    rw [accepts_eq_of_graph_eq hEq.1 hEq.2]

/-- Symbols that no edge reads make no difference. -/
theorem minimize_eq_iff_accepts_eq_looped :
    ∃ d e, looped.determinize = .ok d ∧
      { looped with alphabet := .ofList ['a'] }.determinize = .ok e ∧
      d.minimize.accepting = e.minimize.accepting ∧ d.minimize.graph = e.minimize.graph := by
  obtain ⟨d, e, hd, he, hIff⟩ := minimize_eq_iff_accepts_eq (x := looped)
    (y := { looped with alphabet := .ofList ['a'] }) (by rfl) (by rfl)
  refine ⟨d, e, hd, he, hIff.mp fun word => ?_⟩
  rw [Fragment.accepts_eq_bind, Fragment.accepts_eq_bind]
  rfl

/-- The minimal automaton of a fragment accepts what the fragment accepts. All its states
can be reached, an accepting state can be reached from all of them but the start, no two
of them accept the same words, and no finite automaton for the same words has fewer. -/
theorem minimize_minimal {x : Fragment σ} (hx : x.validate = .ok ()) :
    ∃ d, x.determinize = .ok d ∧
      (∀ word, x.accepts word = .ok (d.minimize.accepts word)) ∧
      (∀ s < d.minimize.size, ∃ word, d.minimize.runFrom d.minimize.start word = some s) ∧
      (∀ s < d.minimize.size, s ≠ d.minimize.start → ∃ word t,
        d.minimize.runFrom s word = some t ∧ t ∈ d.minimize.accepting) ∧
      (∀ s < d.minimize.size, ∀ t < d.minimize.size, s ≠ t →
        ∃ word, d.minimize.acceptsFrom s word ≠ d.minimize.acceptsFrom t word) ∧
      (∀ (Q : Type) [Fintype Q] (m : PartialAutomaton σ Q),
        (∀ word, x.accepts word = .ok (m.accepts word)) → d.minimize.size ≤ Fintype.card Q) ∧
      ((∀ word, x.accepts word = .ok false) →
        d.minimize.size = 1 ∧ d.minimize.graph.edges = []) := by
  obtain ⟨d, hd, hCanonical, hWords⟩ := exists_minimize (Fragment.validate_eq_ok_iff.mp hx)
  refine ⟨d, hd, hWords, ?_, ?_, ?_, ?_, ?_⟩
  · intro s hs
    exact hCanonical.numbered.exists_runFrom hCanonical.wellFormed hs
  · intro s hs hNe
    exact alive_iff.mp (hCanonical.alive_of_pos (Nat.pos_of_ne_zero hNe) hs)
  · intro s hs t ht hNe
    exact Function.ne_iff.mp fun hEq => hNe (hCanonical.distinct s t hs ht hEq)
  · intro Q _ m hSame
    apply hCanonical.size_le_card m
    intro word
    exact Except.ok.inj ((hWords word).symm.trans (hSame word))
  · intro hEmpty
    apply hCanonical.eq_start_of_empty
    intro word
    exact Except.ok.inj ((hWords word).symm.trans (hEmpty word))

theorem minimize_minimal_looped :
    looped.validate = .ok () ∧ ∃ d, looped.determinize = .ok d ∧
      ∀ s < d.minimize.size, ∃ word, d.minimize.runFrom d.minimize.start word = some s := by
  have hValid : looped.validate = .ok () := by rfl
  obtain ⟨d, hd, -, hReached, -⟩ := minimize_minimal hValid
  exact ⟨hValid, d, hd, hReached⟩

end Minimize

section Constructed

/-- The automata that the operations give: those made for a fragment, with or without a
limit on their states, and those that minimizing gives from there on. -/
inductive Constructed : Dfa σ → Prop where
  | ofFragment {limit : Option Nat} {x : Fragment σ} {d : Dfa σ}
      (made : ofFragment limit x = .ok d) : Constructed d
  | minimize {d : Dfa σ} (earlier : Constructed d) : Constructed d.minimize

theorem Constructed.wellFormed {d : Dfa σ} (h : d.Constructed) : d.WellFormed := by
  induction h with
  | ofFragment made => exact (simulates_of_ofFragment made).1.wellFormed
  | @minimize d _ ih =>
      have hExact := exact_refine ih (Table.ofFunction d.size (d.liveTargets d.live))
      exact wellFormed_quotient hExact ih

/-- Minimizing changes no answer, however often it is done. -/
theorem accepts_minimize {d : Dfa σ} (h : d.Constructed) (word : List σ) :
    d.minimize.accepts word = d.accepts word :=
  congrFun (acceptsFrom_minimize h.wellFormed) word

/-- The minimal automaton of `looped`, minimized once more, still reads `b` nowhere. -/
theorem accepts_minimize_looped :
    ∃ d, looped.determinize = .ok d ∧ d.minimize.minimize.accepts ['a', 'b'] = false := by
  have wf : looped.WellFormed := Fragment.validate_eq_ok_iff.mp (by rfl)
  obtain ⟨d, hd⟩ := exists_ofFragment wf
  have hMade : d.Constructed := .ofFragment hd
  have hReject : looped.accepts ['a', 'b'] = .ok false := by decide +kernel
  rw [(simulates_of_ofFragment hd).1.accepts_eq wf] at hReject
  refine ⟨d, hd, ?_⟩
  rw [accepts_minimize hMade.minimize, accepts_minimize hMade]
  exact Except.ok.inj hReject

end Constructed

end Dfa

end FiniteAutomata
