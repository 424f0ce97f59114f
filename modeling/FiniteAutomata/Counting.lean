import FiniteAutomata.State

/-! How the counters of sessions go on. Unless something else is said, they count without end.
A machine counts in registers of 64 bits, and what comes after the greatest number depends on
how the program was built: either the counter begins again at 0, or the program ends. -/
namespace FiniteAutomata

/-- What a counter does to go on. -/
class Counting where
  /-- The number that comes after a number. -/
  succ : State → State

namespace Counting

/-- The greatest number that a register can hold. -/
def greatest : State := UInt64.size - 1

/-- Counting without end. -/
instance unbounded : Counting := ⟨fun s => s + 1⟩

/-- Counting in registers, where 0 comes after the greatest number. -/
abbrev wrapping : Counting := ⟨fun s => (s + 1) % (greatest + 1)⟩

/-- The number that comes `n` numbers after `s`. -/
def ahead [Counting] (s : State) : Nat → State
  | 0 => s
  | n + 1 => succ (ahead s n)

/-- Below the greatest number of a register every number is followed by the next one. -/
class Exact [Counting] : Prop where
  succ_eq : ∀ s < greatest, succ s = s + 1

instance exact_unbounded : @Exact unbounded := ⟨fun _ _ => rfl⟩

theorem exact_wrapping : @Exact wrapping :=
  @Exact.mk wrapping fun _ h => Nat.mod_eq_of_lt (Nat.add_lt_add_right h 1)

/-- As long as the numbers fit into a register, they are counted one by one. -/
theorem ahead_eq [Counting] [Exact] {s : State} {n : Nat} (h : s + n ≤ greatest) :
    ahead s n = s + n := by
  induction n with
  | zero => rfl
  | succ n ih =>
    rw [ahead, ih (Nat.le_of_succ_le h), Exact.succ_eq (s + n) h, Nat.add_assoc]

@[simp]
theorem ahead_unbounded (s : State) (n : Nat) : ahead s n = s + n := by
  induction n with
  | zero => rfl
  | succ n ih =>
    rw [ahead, ih]
    rfl

end Counting

end FiniteAutomata
