import FiniteAutomata.Counting

/-! Sessions hand out state numbers. Within a session no number is handed out
twice, so fragments of one session can be put together without renaming. -/
namespace FiniteAutomata

/-- A source of state numbers at some point of its life. -/
structure Session where
  /-- What tells the session from others. -/
  id : Nat
  /-- The number that comes next. -/
  next : State
  deriving DecidableEq, Repr

namespace Session

/-- The session with a given identity before any number is handed out. -/
def new (id : Nat) : Session := ⟨id, State.first⟩

/-- The session once it keeps clear of `s`: later numbers are above it. -/
def reserve [Counting] (t : Session) (s : State) : Session :=
  if t.next ≤ s then { t with next := Counting.succ s } else t

/-- Hand out a number. -/
def fresh [Counting] : StateM Session State := do
  let t ← get
  set { t with next := Counting.succ t.next }
  return t.next

/-- No number has been counted that a register cannot hold. -/
def HasRoom (t : Session) : Prop := t.next ≤ Counting.greatest

instance (t : Session) : Decidable t.HasRoom := inferInstanceAs (Decidable (_ ≤ _))

end Session

end FiniteAutomata
