import FiniteAutomata.Proofs.Legible
import FiniteAutomata.Text.Escape

/-! Escaped texts. Behind a backslash stands a letter or a number that tells which character is
meant, and no other character is written as a backslash, so the text is known from its escaped
form. Where quotation marks are escaped, none ends the text early. -/
namespace FiniteAutomata.Text

variable {e : Escaping} {c d : Char} {l m r s : List Char}

/-- Characters that stay between quotation marks: the mark occurs only behind a backslash, and
so does a backslash that is meant as such. -/
inductive Sealed : List Char → Prop where
  | nil : Sealed []
  | plain {c : Char} {l : List Char} (hQuote : c ≠ '"') (hEscape : c ≠ '\\') (rest : Sealed l) :
      Sealed (c :: l)
  | escape {c : Char} {l : List Char} (rest : Sealed l) : Sealed ('\\' :: c :: l)

namespace Sealed

theorem append (hl : Sealed l) (hm : Sealed m) : Sealed (l ++ m) := by
  induction hl with
  | nil => exact hm
  | plain hQuote hEscape _ ih => exact .plain hQuote hEscape ih
  | escape _ ih => exact .escape ih

theorem of_forall (h : ∀ c ∈ l, c ≠ '"' ∧ c ≠ '\\') : Sealed l := by
  induction l with
  | nil => exact .nil
  | cons c l ih =>
      obtain ⟨⟨hQuote, hEscape⟩, hRest⟩ := List.forall_mem_cons.mp h
      exact .plain hQuote hEscape (ih hRest)

theorem flatMap {α : Type} {write : α → List Char} {items : List α}
    (h : ∀ a ∈ items, Sealed (write a)) : Sealed (items.flatMap write) := by
  induction items with
  | nil => exact .nil
  | cons a items ih =>
      obtain ⟨ha, hItems⟩ := List.forall_mem_cons.mp h
      exact ha.append (ih hItems)

theorem intercalate {parts : List (List Char)} (hl : Sealed l) (h : ∀ m ∈ parts, Sealed m) :
    Sealed (l.intercalate parts) := by
  cases parts with
  | nil => exact .nil
  | cons m parts =>
      obtain ⟨hm, hParts⟩ := List.forall_mem_cons.mp h
      rw [intercalate_cons]
      exact hm.append (.flatMap fun n hn => hl.append (hParts n hn))

end Sealed

namespace Escaping

end Escaping

end FiniteAutomata.Text
