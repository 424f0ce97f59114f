import FiniteAutomata.Proofs.Dfa.Residual
import FiniteAutomata.Proofs.Dfa.Text

/-! Minimal automata are fixed points of minimization. No two states of a canonical automaton
accept the same words, so every group is a single state, and as the groups are numbered in the
order in which they are found, every state keeps its number, its set and its edges. -/
namespace FiniteAutomata.Dfa

variable {σ : Type} [Symbol σ] {d e : Dfa σ}

/-- Well-formed automata are equal if they agree and have the same alphabet. -/
theorem Agrees.eq (h : d.Agrees e) (hd : d.WellFormed) (he : e.WellFormed)
    (hAlphabet : d.alphabet = e.alphabet) : d = e := by
  have hEntries : d.entries = e.entries :=
    entries_inj.mp ((numberedStates_inj hd he).mpr h.states)
  cases d
  cases e
  simp only [Dfa.mk.injEq]
  exact ⟨hEntries, h.accepting, hAlphabet, h.graph⟩

namespace Canonical

/-- A canonical automaton is matched with its minimal automaton number by number. -/
theorem matching_minimize (hd : d.Canonical) :
    Matching d d.minimize fun s t =>
      s < d.size ∧ t < d.minimize.size ∧ d.acceptsFrom s = d.minimize.acceptsFrom t :=
  hd.matching (canonical_minimize hd.wellFormed hd.numbered)
    (acceptsFrom_minimize hd.wellFormed).symm

/-- The group with a number consists of the state with that number. -/
theorem members?_minimize (hd : d.Canonical) {s : State} (hs : s < d.size) :
    d.minimize.members? s = d.members? s := by
  have wf := hd.wellFormed
  have hExact := exact_refine wf (Table.ofFunction d.size (d.liveTargets d.live))
  obtain ⟨-, hLt, hSame⟩ := hd.matching_minimize.self hs
  obtain ⟨members, hMembers⟩ := exists_members? hLt
  obtain ⟨group, hGroup, hUnion⟩ := mem_members?_quotient hMembers
  have hAlone : ∀ t, t ∈ group ↔ t = s := by
    intro t
    rw [hExact.mem_group_iff wf hGroup]
    constructor
    · rintro ⟨hKept, hEq⟩
      exact hd.distinct t s (hd.wellFormed.lt_size_of_mem_kept hKept) hs (hEq.trans hSame.symm)
    · rintro rfl
      have hKept : d.Alive t ∨ t = d.start := by
        rcases Nat.eq_zero_or_pos t with hZero | hPos
        · exact Or.inr hZero
        · exact Or.inl (hd.alive_of_pos hPos hs)
      exact ⟨wf.mem_kept_iff.mpr hKept, hSame⟩
  obtain ⟨own, hOwn⟩ := exists_members? hs
  rw [hMembers, hOwn]
  apply congrArg some
  apply SortedSet.ext
  intro v
  simp only [hUnion, hAlone, exists_eq_left, hOwn, Option.some.injEq, exists_eq_left']

/-- Minimization leaves a canonical automaton as it is. -/
theorem minimize_eq (hd : d.Canonical) : d.minimize = d := by
  have hMinimal := canonical_minimize hd.wellFormed hd.numbered
  have hSize : d.size = d.minimize.size := hd.matching_minimize.size_eq
  obtain ⟨hAccepting, hGraph⟩ :=
    hMinimal.eq_of_acceptsFrom_eq hd (acceptsFrom_minimize hd.wellFormed)
  refine Agrees.eq ⟨?_, hAccepting, hGraph⟩ hMinimal.wellFormed hd.wellFormed rfl
  apply List.ext_getElem?
  intro s
  by_cases hs : s < d.size
  · exact hd.members?_minimize hs
  · have hBeyond : d.size ≤ s := Nat.le_of_not_lt hs
    rw [List.getElem?_eq_none (hSize.symm.trans_le hBeyond), List.getElem?_eq_none hBeyond]

end Canonical

/-- Minimizing the automaton of a well-formed fragment once more gives the same automaton:
the same sets with the same numbers, the same accepting states, alphabet and graph. -/
theorem minimize_minimize {x : Fragment σ} (hx : x.validate = .ok ()) :
    ∃ d, x.determinize = .ok d ∧ d.minimize.minimize = d.minimize := by
  obtain ⟨d, hd, hCanonical, -⟩ := exists_minimize (Fragment.validate_eq_ok_iff.mp hx)
  exact ⟨d, hd, hCanonical.minimize_eq⟩

/-- The first time a dead state is left out and two states are brought together. -/
theorem minimize_minimize_trapped :
    trapped.validate = .ok () ∧ trapped.determinize = .ok trappedAutomaton ∧
      trappedAutomaton.minimize.minimize = trappedAutomaton.minimize := by
  have hValid : trapped.validate = .ok () := by rfl
  have hMade : trapped.determinize = .ok trappedAutomaton := by decide +kernel
  obtain ⟨d, hd, hSame⟩ := minimize_minimize hValid
  cases hd.symm.trans hMade
  exact ⟨hValid, hMade, hSame⟩

end FiniteAutomata.Dfa
