import FiniteAutomata.Pattern.Position

/-! The flags of a group or directive, such as the `i-x` of `(?i-x)`. -/
namespace FiniteAutomata.Pattern

/-- What a flag letter switches. -/
inductive Flag where
  | caseInsensitive
  | multiLine
  | dotMatchesNewLine
  | swapGreed
  | unicode
  | crlf
  | ignoreWhitespace
  deriving DecidableEq, Repr

namespace Flag

/-- The flag with a given letter. -/
def ofLetter? : Char → Option Flag
  | 'i' => some caseInsensitive
  | 'm' => some multiLine
  | 's' => some dotMatchesNewLine
  | 'U' => some swapGreed
  | 'u' => some unicode
  | 'R' => some crlf
  | 'x' => some ignoreWhitespace
  | _ => none

/-- The full name of a flag. -/
def name : Flag → String
  | caseInsensitive => "CaseInsensitive"
  | multiLine => "MultiLine"
  | dotMatchesNewLine => "DotMatchesNewLine"
  | swapGreed => "SwapGreed"
  | unicode => "Unicode"
  | crlf => "CRLF"
  | ignoreWhitespace => "IgnoreWhitespace"

end Flag

/-- One character of a list of flags. -/
inductive FlagItem where
  /-- The `-`, which turns the flags behind it off. -/
  | negation
  /-- The letter of a flag. -/
  | flag (f : Flag)
  deriving DecidableEq, Repr

namespace FlagItem

/-- The name of an item. -/
def name : FlagItem → String
  | negation => "Negation"
  | flag f => "Flag(" ++ f.name ++ ")"

/-- An item with its place. -/
def text (item : Located FlagItem) : String :=
  "FlagsItem \x7b span: " ++ item.span.text ++ ", kind: " ++ item.value.name ++ " \x7d"

/-- A list of items in brackets. -/
def listText (items : List (Located FlagItem)) : String :=
  "[" ++ String.intercalate ", " (items.map text) ++ "]"

/-- What a list of items says about a flag, where `on` is the sense of the items
read before. -/
def settingFrom? (f : Flag) (on : Bool) : List (Located FlagItem) → Option Bool
  | [] => none
  | item :: rest =>
    match item.value with
    | negation => settingFrom? f false rest
    | flag g => if g = f then some on else settingFrom? f on rest

/-- Whether a list of items switches a flag on or off. The first mention of the
flag decides: it is off if a `-` stands before it. -/
def setting? (f : Flag) (items : List (Located FlagItem)) : Option Bool :=
  settingFrom? f true items

end FlagItem

/-- Flags that are set from a place on, such as `(?i)`. -/
structure FlagDirective where
  /-- The whole directive with its parentheses. -/
  span : Span
  flags : Located (List (Located FlagItem))
  deriving DecidableEq, Repr

namespace FlagDirective

/-- A directive with all its places. -/
def text (d : FlagDirective) : String :=
  "Flags(SetFlags \x7b span: " ++ d.span.text ++ ", flags: Flags \x7b span: " ++
    d.flags.span.text ++ ", items: " ++ FlagItem.listText d.flags.value ++ " \x7d \x7d)"

end FlagDirective

end FiniteAutomata.Pattern
