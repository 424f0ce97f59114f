/-! Character classes given as tables of code point ranges. -/
namespace FiniteAutomata.Text

/-- Inclusive ranges of code points in ascending order. -/
abbrev Ranges := List (Nat × Nat)

namespace Ranges

/-- Whether a character lies in one of the ranges. -/
def holds (table : Ranges) (c : Char) : Bool :=
  table.any fun range => range.1 ≤ c.toNat && c.toNat ≤ range.2

theorem holds_iff {table : Ranges} {c : Char} :
    table.holds c = true ↔ ∃ range ∈ table, range.1 ≤ c.toNat ∧ c.toNat ≤ range.2 := by
  simp [holds]

end Ranges

end FiniteAutomata.Text
