import FiniteAutomata.Pattern.Basic
import FiniteAutomata.Pattern.Cursor

/-! Repetition operators: `?`, `*`, `+` and counts in braces, each with an
optional `?` behind it. -/
namespace FiniteAutomata.Pattern

/-- The greatest number a count may be. -/
def maxCount : Nat := 4294967295

/-- The number written by decimal digits. -/
def decimalValue (digits : List Char) : Nat :=
  digits.foldl (fun n c => 10 * n + (c.toNat - '0'.toNat)) 0

/-- Move over white space. -/
def Cursor.dropBlanks (c : Cursor) : c.From :=
  match h : c.rest with
  | [] => c.stay
  | x :: _ =>
    if Text.isBlank x then
      have := Cursor.size_next_lt h
      c.step.andThen c.next.dropBlanks
    else c.stay
termination_by c.size

/-- Read a number with white space around it. Whether it is one is not decided
before the text behind it has been looked at. -/
def readCount (c : Cursor) : Except Failure Nat × c.From :=
  let first := c.dropBlanks
  let (digits, second) := first.cursor.takeWhile Char.isDigit
  let third := second.cursor.dropBlanks
  let span : Span := ⟨first.cursor.position, second.cursor.position⟩
  let count :=
    if digits.isEmpty then Cursor.fail .repetitionCountEmpty span
    else if maxCount < decimalValue digits then Cursor.fail .decimalInvalid span
    else .ok (decimalValue digits)
  (count, (first.andThen second).andThen third)

/-- Read a `?` that makes an operator prefer few repetitions. The answer says
whether the operator is greedy. -/
def readGreed (c : Cursor) : Bool × c.From :=
  if c.peek? = some '?' then (false, c.step) else (true, c.stay)

/-- The operator that a single character stands for. -/
def simpleQuantifier? : Char → Option Quantifier
  | '?' => some .zeroOrOne
  | '*' => some .zeroOrMore
  | '+' => some .oneOrMore
  | _ => none

/-- Whether the least count of an operator is not above its greatest. -/
def Quantifier.isOrdered : Quantifier → Bool
  | .bounded least most => decide (least ≤ most)
  | _ => true

/-- Read the counts in braces; `c` is behind the opening brace, which stands at
`start`, and the answer leaves the cursor at the closing one. -/
def readCounts (start : Position) (c : Cursor) : Except Failure (Quantifier × c.From) := do
  let (least, d) := readCount c
  let behind := d.cursor.onward
  if c.atEnd then Cursor.fail .repetitionCountUnclosed ⟨start, c.position⟩
  else if d.cursor.atEnd then Cursor.fail .repetitionCountUnclosed ⟨start, d.cursor.position⟩
  else if d.cursor.peek? ≠ some ',' then return (.exactly (← least), d)
  else if behind.atEnd then Cursor.fail .repetitionCountUnclosed ⟨start, behind.position⟩
  else if behind.peek? = some '\x7d' then
    return (.atLeast (← least), d.andThen d.cursor.stride)
  else
    let least ← least
    let (most, e) := readCount behind
    return (.bounded least (← most), d.andThen (d.cursor.stride.andThen e))

/-- A repetition operator as it was read. -/
structure Operator where
  quantifier : Quantifier
  greedy : Bool

/-- Read a counted repetition; `c` is at the opening brace. -/
def readCounted {x : Char} {rest : List Char} (c : Cursor) (h : c.rest = x :: rest) :
    Except Failure (Operator × c.Past) := do
  let (quantifier, d) ← readCounts c.position c.onward
  let closing := d.cursor
  if closing.peek? ≠ some '\x7d' then
    Cursor.fail .repetitionCountUnclosed ⟨c.position, closing.position⟩
  else
    let (greedy, e) := readGreed closing.onward
    if quantifier.isOrdered then
      return (⟨quantifier, greedy⟩,
        (c.stridePast h).andThen (d.andThen (closing.stride.andThen e)))
    else Cursor.fail .repetitionCountInvalid ⟨c.position, e.cursor.position⟩

/-- Read a repetition operator of a single character, which `c` is at. -/
def readSimple (quantifier : Quantifier) {x : Char} {rest : List Char} (c : Cursor)
    (h : c.rest = x :: rest) : Operator × c.Past :=
  let (greedy, d) := readGreed c.next
  (⟨quantifier, greedy⟩, (c.stepPast h).andThen d)

end FiniteAutomata.Pattern
