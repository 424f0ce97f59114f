import FiniteAutomata.Text.Printable

/-! Texts made visible. A backslash, a control character or any other character
without a visible form is written as an escape sequence; which quotes are
escaped too, and where grapheme extenders are, depends on what stands around
the text. -/
namespace FiniteAutomata.Text

/-- What is escaped beyond backslashes and characters without a visible form. -/
structure Escaping where
  singleQuote : Bool
  doubleQuote : Bool
  /-- Whether an extender is escaped behind another character as well. At the
  head of a text it always is. -/
  attached : Bool

namespace Escaping

/-- A character between single quotes. -/
def character : Escaping := ⟨true, false, true⟩

/-- A text between double quotes. -/
def quotation : Escaping := ⟨false, true, true⟩

/-- The label of an edge in a drawing. -/
def edgeLabel : Escaping := ⟨true, true, false⟩

/-- The number of a character in lower-case hexadecimal digits, in braces. -/
def codePoint (c : Char) : List Char :=
  ['\\', 'u', '\x7b'] ++ Nat.toDigits 16 c.toNat ++ ['\x7d']

/-- The written form of one character. -/
def char (e : Escaping) (leading : Bool) (c : Char) : List Char :=
  if c = '\x00' then ['\\', '0']
  else if c = '\t' then ['\\', 't']
  else if c = '\r' then ['\\', 'r']
  else if c = '\n' then ['\\', 'n']
  else if c = '\\' then ['\\', '\\']
  else if c = '"' ∧ e.doubleQuote then ['\\', '"']
  else if c = '\'' ∧ e.singleQuote then ['\\', '\'']
  else if isExtender c ∧ (leading ∨ e.attached) then codePoint c
  else if isPrintable c then [c]
  else codePoint c

/-- The written form of a text. -/
def text (e : Escaping) : List Char → List Char
  | [] => []
  | c :: rest => e.char true c ++ rest.flatMap (e.char false)

end Escaping

/-- A character between single quotes. -/
def quoteChar (c : Char) : String :=
  String.ofList (['\''] ++ Escaping.character.text [c] ++ ['\''])

/-- A text between double quotes. -/
def quoteText (s : String) : String :=
  String.ofList (['"'] ++ Escaping.quotation.text s.toList ++ ['"'])

/-- A text as it stands in the label of an edge. -/
def escapeLabel (s : String) : String := String.ofList (Escaping.edgeLabel.text s.toList)

end FiniteAutomata.Text
