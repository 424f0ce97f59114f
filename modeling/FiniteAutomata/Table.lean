/-! Tables of functions on numbers. A table keeps the first values of its function
at hand, so looking up a value is the same as computing it. -/
namespace FiniteAutomata

/-- The first values of `f`. -/
structure Table {β : Type} (f : Nat → β) where
  values : Array β
  agrees : ∀ (i : Nat) (h : i < values.size), values[i] = f i

namespace Table

variable {β : Type} {f : Nat → β}

/-- The table of the first `n` values. -/
def ofFunction (n : Nat) (f : Nat → β) : Table f :=
  ⟨Array.ofFn fun i : Fin n => f i.val, fun _ _ => Array.getElem_ofFn ..⟩

/-- A value of the function, computed if the table does not hold it. -/
def get (t : Table f) (i : Nat) : β :=
  if h : i < t.values.size then t.values[i] else f i

@[simp]
theorem get_eq (t : Table f) (i : Nat) : t.get i = f i := by
  unfold get
  split
  next h => exact t.agrees i h
  next => rfl

end Table

end FiniteAutomata
