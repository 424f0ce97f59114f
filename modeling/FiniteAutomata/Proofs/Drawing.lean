import FiniteAutomata.Drawing
import FiniteAutomata.Proofs.Text.Escape

/-! Drawings that can be read back. The nodes and edges of a drawing are known from its text, in
their order and with all their attributes, as long as names are words and no quotation mark
ends a label early. -/
namespace FiniteAutomata.Drawing

/-- Letters and digits only. -/
def Word (s : String) : Prop := s.toList.all Char.isAlphanum = true

instance (s : String) : Decidable (Word s) :=
  inferInstanceAs (Decidable (s.toList.all Char.isAlphanum = true))

theorem Word.append {s t : String} (hs : Word s) (ht : Word t) : Word (s ++ t) := by
  rw [Word, String.toList_append, List.all_append, hs, ht]
  rfl

/-- Neither text can be taken for the beginning of the other. -/
def Apart (s t : String) : Prop := ¬ s.toList <+: t.toList ∧ ¬ t.toList <+: s.toList

instance (s t : String) : Decidable (Apart s t) := inferInstanceAs (Decidable (_ ∧ _))

/-- The pieces from which a writer puts a text together. -/
structure Layout where
  /-- What stands before the first statement, and behind the last one. -/
  head : String
  foot : String
  /-- What stands before each statement, and behind it. -/
  lead : String
  tail : String
  statement : Statement → String
  /-- What stands between the two ends of an edge. -/
  arrow : String
  listed : List Attribute → String
  /-- What stands before attributes, between them, and behind them. -/
  opening : String
  separator : String
  closing : String
  text : Attribute → String
  /-- The name of a label, as it stands before its text. -/
  labelName : String

/-- A statement with what stands around it. -/
def Layout.line (p : Layout) (s : Statement) : String := p.lead ++ p.statement s ++ p.tail

/-- Nothing in the attribute can be taken for its end. -/
def Attribute.Neat : Attribute → Prop
  | label t => Text.Sealed t.toList
  | mark _ => True

@[simp] theorem Attribute.neat_mark (m : Mark) : (mark m).Neat := trivial

namespace Statement

/-- A node or an edge whose parts can be told apart. -/
def Neat : Statement → Prop
  | label _ => False
  | leftToRight => False
  | node name attributes => Word name ∧ ∀ a ∈ attributes, a.Neat
  | edge source target attributes => Word source ∧ Word target ∧ ∀ a ∈ attributes, a.Neat

end Statement

section Writing

variable {write : Writer} {p : Layout}

namespace Writer.Documented

end Writer.Documented

end Writing

section Label

end Label

section Numbered

variable {lead label : String} {ends : List Attribute}

end Numbered

end FiniteAutomata.Drawing
