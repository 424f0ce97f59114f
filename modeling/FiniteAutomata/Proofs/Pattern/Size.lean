import FiniteAutomata.Pattern.Basic
import Mathlib.Algebra.BigOperators.Group.List.Defs
import Mathlib.Algebra.GroupWithZero.Nat

/-! How large the fragment for a pattern is, told from the pattern alone. More numbers are taken
than there are vertices in the end: a sequence drops states, and what is repeated a number of
times is built once more than it is used. -/
namespace FiniteAutomata.Pattern

variable {σ : Type}

/-- How many vertices and edges there are, and how many numbers were taken for them. -/
structure Size where
  vertices : Nat
  edges : Nat
  numbers : Nat
  deriving DecidableEq, Repr

namespace Size

/-- A single edge. -/
def edge : Size := ⟨2, 1, 2⟩

/-- Parts one after another. Each part but the first loses a vertex. -/
def inSeries : List Size → Size
  | [] => edge
  | parts =>
    ⟨(parts.map vertices).sum - (parts.length - 1), (parts.map edges).sum,
      (parts.map numbers).sum⟩

/-- A choice of branches. Each branch but the first brings two more vertices. -/
def asChoice : List Size → Size
  | [] => edge
  | branches =>
    ⟨(branches.map vertices).sum + 2 * (branches.length - 1),
      (branches.map edges).sum + 4 * (branches.length - 1),
      (branches.map numbers).sum + 2 * (branches.length - 1)⟩

/-- Any number of repetitions, without a copy. -/
def starred (s : Size) : Size := ⟨s.vertices + 2, s.edges + 4, s.numbers + 2⟩

/-- A copy takes a number for each of its vertices. -/
def copy (s : Size) : Size := ⟨s.vertices, s.edges, s.vertices⟩

/-- A copy that may be repeated. -/
def closedCopy (s : Size) : Size := ⟨s.vertices + 2, s.edges + 4, s.vertices + 2⟩

/-- A copy that may be passed over. -/
def optionalCopy (s : Size) : Size := ⟨s.vertices + 4, s.edges + 5, s.vertices + 4⟩

/-- Copies one after another. The numbers of what is copied were taken before. -/
def inCopies (s : Size) (copies : List Size) : Size :=
  { inSeries copies with numbers := s.numbers + (inSeries copies).numbers }

/-- What is repeated as an operator says. A greatest number below the least one asks for no
further copy. -/
def repeated (s : Size) : Quantifier → Size
  | .zeroOrMore => s.starred
  | .zeroOrOne => s.inCopies [s.optionalCopy]
  | .oneOrMore => s.inCopies [s.copy, s.closedCopy]
  | .exactly n => s.inCopies (List.replicate n s.copy)
  | .atLeast n => s.inCopies (List.replicate n s.copy ++ [s.closedCopy])
  | .bounded least most =>
    s.inCopies (List.replicate least s.copy ++ List.replicate (most - least) s.optionalCopy)

end Size

mutual

/-- The size of the fragment for a pattern. For what is not supported there is none. -/
def size : Pattern σ → Size
  | .empty => .edge
  | .literal _ => .edge
  | .group _ body => body.size
  | .repetition q _ body => body.size.repeated q
  | .concat parts => .inSeries (sizes parts)
  | .alternation branches => .asChoice (sizes branches)
  | _ => ⟨0, 0, 0⟩

/-- The sizes for the patterns of a list. -/
def sizes : List (Pattern σ) → List Size
  | [] => []
  | p :: rest => p.size :: sizes rest

end

theorem sizes_eq_map (ps : List (Pattern σ)) : sizes ps = ps.map size := by
  induction ps with
  | nil => rw [sizes, List.map_nil]
  | cons p rest ih => rw [sizes, ih, List.map_cons]

namespace Size

/-- The first two branches of a choice may be taken together. -/
theorem asChoice_cons_cons (a b : Size) (rest : List Size) :
    asChoice (asChoice [a, b] :: rest) = asChoice (a :: b :: rest) := by
  simp only [asChoice, List.map_cons, List.map_nil, List.sum_cons, List.sum_nil, List.length_cons,
    List.length_nil, mk.injEq]
  omega

theorem asChoice_singleton (s : Size) : asChoice [s] = s := by
  simp [asChoice]

end Size

end FiniteAutomata.Pattern
