import FiniteAutomata.Proofs.Dfa.Minimize
import Mathlib.Data.List.Shortlex

/-! Numbers and words. If the states of an automaton are numbered in the order in which they
are found, then their numbers follow the least words that lead to them, where shorter words
come first and words of one length are in dictionary order. -/
namespace FiniteAutomata.Dfa

variable {σ : Type} [Symbol σ]

/-- The first word is shorter than the second, or they have one length and the first has
the smaller symbol where they first differ. -/
def Precedes (v w : List σ) : Prop := List.Shortlex (fun a b => compare a b = .lt) v w

section Words

variable {v w : List σ} {a b : σ}

theorem eq_nil_or_precedes (word : List σ) : word = [] ∨ Precedes [] word :=
  (List.shortlex_nil_or_eq_nil word).symm

/-- Whatever symbols follow, the earlier of two words stays the earlier one. -/
theorem Precedes.append_singleton (h : Precedes v w) (a b : σ) :
    Precedes (v ++ [a]) (w ++ [b]) := by
  rcases List.shortlex_def.mp h with hShorter | ⟨hLength, hLex⟩
  · apply List.Shortlex.of_length_lt
    simpa using hShorter
  · apply List.Shortlex.of_lex
    · simpa using hLength
    · clear h
      induction hLex with
      | nil => simp at hLength
      | cons _ ih => exact .cons (ih (by simpa using hLength))
      | rel hSymbol => exact .rel hSymbol

theorem precedes_append_singleton (word : List σ) (h : compare a b = .lt) :
    Precedes (word ++ [a]) (word ++ [b]) :=
  List.Shortlex.append_left ((List.shortlex_singleton_iff a b).mpr h) word

/-- A word that is no later, followed by a symbol that is no greater, is no later. -/
theorem eq_or_precedes_append_singleton (h : w = v ∨ Precedes v w) (hSymbol : (compare a b).isLE) :
    w ++ [b] = v ++ [a] ∨ Precedes (v ++ [a]) (w ++ [b]) := by
  rcases h with rfl | hPrecedes
  · cases hCompare : compare a b with
    | lt => exact Or.inr (precedes_append_singleton w hCompare)
    | eq => exact Or.inl (by rw [Std.LawfulEqCmp.compare_eq_iff_eq.mp hCompare])
    | gt => simp [hCompare] at hSymbol
  · exact Or.inr (hPrecedes.append_singleton a b)

end Words

/-- The word leads to the state, and it precedes all other words that do. -/
def LeastWord (d : Dfa σ) (s : State) (word : List σ) : Prop :=
  d.runFrom d.start word = some s ∧
    ∀ other, d.runFrom d.start other = some s → other = word ∨ Precedes word other

/-- Every state has a least word, and a smaller number means a smaller word. -/
def FollowsWords (d : Dfa σ) : Prop :=
  ∀ i j, i < j → j < d.size → ∃ v w, d.LeastWord i v ∧ d.LeastWord j w ∧ Precedes v w

namespace Numbered

variable {d : Dfa σ}

/-- Some word leads to the state and precedes all other words that lead there or to a later
state. It is found with the state: a word that leads so far goes on from a state that is no
smaller than the one that the edge to `s` comes from. -/
theorem exists_first_word (hd : d.Numbered) (wf : d.WellFormed) {s : State} (hs : s < d.size) :
    ∃ word, d.runFrom d.start word = some s ∧ ∀ other t, s ≤ t →
      d.runFrom d.start other = some t → other = word ∨ Precedes word other := by
  induction s using Nat.strongRecOn with
  | ind s ih =>
      rcases Nat.eq_zero_or_pos s with rfl | hPos
      · exact ⟨[], rfl, fun other _ _ _ => eq_nil_or_precedes other⟩
      · obtain ⟨i, a, hLt, hEdge, hFirst⟩ := hd s hPos hs
        obtain ⟨word, hWord, hLeast⟩ := ih i hLt (hLt.trans hs)
        refine ⟨word ++ [a], ?_, fun other t ht hOther => ?_⟩
        · rw [runFrom_append_singleton, hWord, Option.bind_some]
          exact wf.transition_eq_some_iff.mpr hEdge
        · rcases List.eq_nil_or_concat' other with rfl | ⟨v, b, rfl⟩
          · have hStart : d.start = t := Option.some.inj hOther
            exact False.elim (Nat.not_lt_of_le (ht.trans (Nat.le_of_eq hStart.symm)) hPos)
          · rw [runFrom_append_singleton, Option.bind_eq_some_iff] at hOther
            obtain ⟨k, hBefore, hLast⟩ := hOther
            rcases hFirst k b t ht (wf.transition_eq_some_iff.mp hLast) with
              hLess | ⟨rfl, hSymbol⟩
            · -- words that lead to different states differ before the last symbol
              have hNe : v ≠ word := by
                rintro rfl
                exact Nat.ne_of_lt hLess (Option.some.inj (hWord.symm.trans hBefore))
              have hPrecedes := (hLeast v k (Nat.le_of_lt hLess) hBefore).resolve_left hNe
              exact Or.inr (hPrecedes.append_singleton a b)
            · exact eq_or_precedes_append_singleton (hLeast v i (Nat.le_refl i) hBefore) hSymbol

theorem followsWords (hd : d.Numbered) (wf : d.WellFormed) : d.FollowsWords := by
  intro i j hij hj
  obtain ⟨v, hv, hFirst⟩ := hd.exists_first_word wf (hij.trans hj)
  obtain ⟨w, hw, hFirst'⟩ := hd.exists_first_word wf hj
  have hNe : w ≠ v := by
    rintro rfl
    exact Nat.ne_of_lt hij (Option.some.inj (hv.symm.trans hw))
  refine ⟨v, w, ⟨hv, fun other => hFirst other i (Nat.le_refl i)⟩,
    ⟨hw, fun other => hFirst' other j (Nat.le_refl j)⟩, ?_⟩
  exact (hFirst w j (Nat.le_of_lt hij) hw).resolve_left hNe

end Numbered

/-- In the automaton of a fragment and in its minimal automaton the numbers of the states
follow the least words that lead to them. -/
theorem determinize_followsWords {x : Fragment σ} (hx : x.validate = .ok ()) :
    ∃ d, x.determinize = .ok d ∧ d.FollowsWords ∧ d.minimize.FollowsWords := by
  obtain ⟨d, hd⟩ := exists_ofFragment (Fragment.validate_eq_ok_iff.mp hx)
  obtain ⟨hSimulates, hNumbered⟩ := simulates_of_ofFragment hd
  have wf := hSimulates.wellFormed
  have hMinimal := canonical_minimize wf hNumbered
  exact ⟨d, hd, hNumbered.followsWords wf, hMinimal.numbered.followsWords hMinimal.wellFormed⟩

/-- A fragment for `ab` and `ba`. The edge that reads `b` was added first, but `a` is tried
first. -/
def forked : Fragment Char where
  session := 0
  graph := (((Graph.empty.addEdge 0 1 (.symbol 'b')).addEdge 0 2 (.symbol 'a')).addEdge 1 3
    (.symbol 'a')).addEdge 2 3 (.symbol 'b')
  start := 0
  final := 3
  alphabet := .ofList ['a', 'b']

theorem determinize_followsWords_forked :
    forked.validate = .ok () ∧ ∃ d, forked.determinize = .ok d ∧ d.size = 4 ∧
      d.minimize.FollowsWords ∧
      ∃ v w, d.LeastWord 1 v ∧ d.LeastWord 2 w ∧ Precedes v w := by
  have hValid : forked.validate = .ok () := by rfl
  obtain ⟨d, hd, hWords, hMinimal⟩ := determinize_followsWords hValid
  have hSize : forked.determinize.map Dfa.size = .ok 4 := by decide +kernel
  rw [hd] at hSize
  have hFour : d.size = 4 := Except.ok.inj hSize
  exact ⟨hValid, d, hd, hFour, hMinimal, hWords 1 2 (by decide) (by omega)⟩

end FiniteAutomata.Dfa
