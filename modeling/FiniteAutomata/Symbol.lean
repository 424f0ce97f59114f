import FiniteAutomata.Text.Escape

/-! The symbols an automaton reads and the labels of its edges. A symbol type
brings a lawful order and two written forms; characters, strings and integers
are symbol types. -/
namespace FiniteAutomata

/-- What an alphabet needs: a lawful order, which fixes the order of everything
that is enumerated, and the written forms of a symbol. -/
class Symbol (σ : Type) extends Ord σ where
  decEq : DecidableEq σ
  transOrd : Std.TransOrd σ
  lawfulEqOrd : Std.LawfulEqOrd σ
  /-- The plain form, as in labels. -/
  text : σ → String
  /-- The unmistakable form, as in messages. -/
  quoted : σ → String

instance Symbol.instDecidableEq {σ : Type} [Symbol σ] : DecidableEq σ := Symbol.decEq

instance Symbol.instTransOrd {σ : Type} [Symbol σ] : Std.TransOrd σ := Symbol.transOrd

instance Symbol.instLawfulEqOrd {σ : Type} [Symbol σ] : Std.LawfulEqOrd σ := Symbol.lawfulEqOrd

instance : Symbol Char where
  decEq := inferInstance
  transOrd := inferInstance
  lawfulEqOrd := inferInstance
  text c := c.toString
  quoted := Text.quoteChar

instance : Symbol String where
  decEq := inferInstance
  transOrd := inferInstance
  lawfulEqOrd := inferInstance
  text s := s
  quoted := Text.quoteText

instance : Symbol Int where
  decEq := inferInstance
  transOrd := inferInstance
  lawfulEqOrd := inferInstance
  text n := toString n
  quoted n := toString n

/-- The label of an edge. The empty label is a case of its own, so no symbol can
be mistaken for it. -/
inductive Label (σ : Type) where
  /-- The edge reads nothing. -/
  | epsilon
  /-- The edge reads the symbol. -/
  | symbol (a : σ)
  deriving DecidableEq, Repr

namespace Label

variable {σ : Type}

/-- Whether the label is the empty one. -/
def isEpsilon : Label σ → Bool
  | epsilon => true
  | symbol _ => false

/-- The symbol that the label reads. -/
def symbol? : Label σ → Option σ
  | epsilon => none
  | symbol a => some a

/-- The written form of a label. -/
def text [Symbol σ] : Label σ → String
  | epsilon => "ε"
  | symbol a => Symbol.text a

/-- The empty label comes before every symbol, and symbols keep their order. -/
instance [Ord σ] : Ord (Label σ) where
  compare
    | epsilon, epsilon => .eq
    | epsilon, symbol _ => .lt
    | symbol _, epsilon => .gt
    | symbol a, symbol b => compare a b

/-- The labels of a list in ascending order. -/
def sort [Ord σ] (labels : List (Label σ)) : List (Label σ) :=
  labels.mergeSort fun a b => (compare a b).isLE

end Label

end FiniteAutomata
