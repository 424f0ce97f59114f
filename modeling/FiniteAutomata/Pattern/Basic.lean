import FiniteAutomata.Pattern.Flag

/-! Regular expressions as trees. The tree holds everything the notation can say;
only part of it can be turned into an automaton, and `Feature` names the rest. -/
namespace FiniteAutomata

namespace Pattern

/-- A condition on a place that reads nothing. -/
inductive Assertion where
  | startLine
  | endLine
  | startText
  | endText
  | wordBoundary
  | notWordBoundary
  | wordBoundaryStart
  | wordBoundaryEnd
  | wordBoundaryStartAngle
  | wordBoundaryEndAngle
  | wordBoundaryStartHalf
  | wordBoundaryEndHalf
  deriving DecidableEq, Repr

namespace Assertion

/-- Every assertion. -/
def all : List Assertion :=
  [startLine, endLine, startText, endText, wordBoundary, notWordBoundary, wordBoundaryStart,
    wordBoundaryEnd, wordBoundaryStartAngle, wordBoundaryEndAngle, wordBoundaryStartHalf,
    wordBoundaryEndHalf]

/-- The name of an assertion. -/
def name : Assertion → String
  | startLine => "StartLine"
  | endLine => "EndLine"
  | startText => "StartText"
  | endText => "EndText"
  | wordBoundary => "WordBoundary"
  | notWordBoundary => "NotWordBoundary"
  | wordBoundaryStart => "WordBoundaryStart"
  | wordBoundaryEnd => "WordBoundaryEnd"
  | wordBoundaryStartAngle => "WordBoundaryStartAngle"
  | wordBoundaryEndAngle => "WordBoundaryEndAngle"
  | wordBoundaryStartHalf => "WordBoundaryStartHalf"
  | wordBoundaryEndHalf => "WordBoundaryEndHalf"

/-- The assertion with a given name. -/
def ofName? (s : String) : Option Assertion := all.find? fun a => a.name == s

end Assertion

/-- A class of characters with a one-letter name. -/
inductive Shorthand where
  | digit
  | space
  | word
  deriving DecidableEq, Repr

namespace Shorthand

/-- The letter of a class. -/
def letter : Shorthand → Char
  | digit => 'd'
  | space => 's'
  | word => 'w'

/-- The letter of the complement of a class. -/
def complementLetter : Shorthand → Char
  | digit => 'D'
  | space => 'S'
  | word => 'W'

/-- The written form of a class or of its complement. -/
def text (s : Shorthand) (negated : Bool) : String :=
  String.ofList ['\\', if negated then s.complementLetter else s.letter]

end Shorthand

/-- What the parentheses of a group ask for besides grouping. -/
inductive GroupKind where
  /-- A capture with a number. -/
  | indexed
  /-- A capture with a name. -/
  | named
  /-- No capture; the flags hold inside the group. -/
  | plain (flags : List (Located FlagItem))
  deriving DecidableEq, Repr

/-- How often an expression is repeated. -/
inductive Quantifier where
  | zeroOrOne
  | zeroOrMore
  | oneOrMore
  | exactly (n : Nat)
  | atLeast (n : Nat)
  | bounded (least most : Nat)
  deriving DecidableEq, Repr

end Pattern

/-- A regular expression over symbols of type `σ`. -/
inductive Pattern (σ : Type) where
  | empty
  | literal (a : σ)
  | dot
  | assertion (kind : Pattern.Assertion)
  | charClass (text : String)
  | flags (directive : Pattern.FlagDirective)
  | group (kind : Pattern.GroupKind) (body : Pattern σ)
  | repetition (quantifier : Pattern.Quantifier) (greedy : Bool) (body : Pattern σ)
  | concat (parts : List (Pattern σ))
  | alternation (branches : List (Pattern σ))
  deriving Repr

namespace Pattern

/-- What a regular expression can say but an automaton built from symbols alone
cannot follow. -/
inductive Feature where
  | groupFlags (items : List (Located FlagItem))
  | flagDirective (directive : FlagDirective)
  | dot
  | assertion (kind : Assertion)
  | charClass (text : String)
  deriving DecidableEq, Repr

namespace Feature

/-- The description of a feature. -/
def text : Feature → String
  | groupFlags items => "Group flags " ++ FlagItem.listText items
  | flagDirective d => d.text
  | dot => "Dot"
  | assertion kind => "Assertion " ++ kind.name
  | charClass t => "Character class " ++ t

end Feature

end Pattern

end FiniteAutomata
