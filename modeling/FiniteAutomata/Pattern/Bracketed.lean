import FiniteAutomata.Pattern.Escape
import FiniteAutomata.Pattern.Nesting

/-! Bracketed classes such as `[a-z&&[^aeiou]]`. A class is read for its written
form, its extent and its nesting; which characters it holds is not asked. -/
namespace FiniteAutomata.Pattern

/-- The items of a class that stand side by side, the last one first. -/
structure ItemRun where
  /-- Where the run begins when it has no items. -/
  start : Position
  items : List (Piece String)

namespace ItemRun

/-- Add an item behind the others. -/
def push (run : ItemRun) (item : Piece String) : ItemRun := { run with items := item :: run.items }

/-- The run as one part. Several items together count as one level of nesting. -/
def close (run : ItemRun) : Piece String :=
  match run.items with
  | [] => .leaf "" (.point run.start)
  | [item] => item
  | last :: others =>
    let items := (last :: others).reverse
    let span := ⟨((items.map Piece.span).headD last.span).start, last.span.stop⟩
    .around (String.join (items.map Piece.value)) span (items.map Piece.levels)

end ItemRun

/-- An operator between two sets of characters. -/
inductive SetOperator where
  | intersection
  | difference
  | symmetricDifference
  deriving DecidableEq, Repr

namespace SetOperator

/-- The character that is written twice. -/
def sign : SetOperator → Char
  | intersection => '&'
  | difference => '-'
  | symmetricDifference => '~'

/-- The operator at the beginning of a text. -/
def ofText? : List Char → Option SetOperator
  | '&' :: '&' :: _ => some intersection
  | '-' :: '-' :: _ => some difference
  | '~' :: '~' :: _ => some symmetricDifference
  | _ => none

end SetOperator

/-- What has been read of the inside of a class: the left side of an operator, if
there is one, and the items that follow. -/
structure ClassBody where
  left : Option (Piece String × SetOperator)
  run : ItemRun

namespace ClassBody

/-- Add an item. -/
def push (b : ClassBody) (item : Piece String) : ClassBody := { b with run := b.run.push item }

/-- The inside of the class as one part. -/
def close (b : ClassBody) : Piece String :=
  let right := b.run.close
  match b.left with
  | none => right
  | some (left, operator) =>
    let written := left.value ++ String.ofList [operator.sign, operator.sign] ++ right.value
    .around written ⟨left.span.start, right.span.stop⟩ [left.levels, right.levels]

/-- Make everything read so far the left side of an operator; what follows the
operator begins at `p`. -/
def operate (b : ClassBody) (operator : SetOperator) (p : Position) : ClassBody :=
  ⟨some (b.close, operator), ⟨p, []⟩⟩

end ClassBody

/-- The beginning of a class: the part up to its first item, which a complaint
about a missing end refers to. -/
structure ClassOpening where
  span : Span
  negated : Bool
  body : ClassBody

/-- The names between `[:` and `:]`. -/
def isNamedClass (name : List Char) : Bool :=
  ["alnum", "alpha", "ascii", "blank", "cntrl", "digit", "graph", "lower", "print", "punct",
    "space", "upper", "word", "xdigit"].contains (String.ofList name)

/-- The length of the named class at the beginning of a text, if there is one. -/
def namedClassLength? : List Char → Option Nat
  | '[' :: ':' :: rest =>
    let sign := if rest.head? = some '^' then 1 else 0
    let name := (rest.drop sign).takeWhile (· != ':')
    match rest.drop (sign + name.length) with
    | ':' :: ']' :: _ => if isNamedClass name then some (sign + name.length + 4) else none
    | _ => none
  | _ => none

/-- Read dashes at the beginning of a class, which stand for themselves. -/
def readLeadingDashes (start : Position) (run : ItemRun) (c : Cursor) :
    Except Failure (ItemRun × c.From) :=
  match h : c.rest with
  | '-' :: _ =>
    have := Cursor.size_onward_lt h
    if c.onward.atEnd then Cursor.fail .classUnclosed (.point start)
    else do
      let (run, d) ← readLeadingDashes start (run.push (.leaf "-" c.here)) c.onward
      return (run, c.stride.andThen d)
  | _ => .ok (run, c.stay)
termination_by c.size

/-- Read a closing bracket that stands for itself because nothing precedes it in
its class. -/
def readLeadingBracket (start : Position) (run : ItemRun) (c : Cursor) :
    Except Failure (ItemRun × c.From) :=
  if run.items.isEmpty ∧ c.peek? = some ']' then
    if c.onward.atEnd then Cursor.fail .classUnclosed ⟨start, c.onward.position⟩
    else .ok (run.push (.leaf "]" c.here), c.stride)
  else .ok (run, c.stay)

/-- Read the sign that negates a class. -/
def readNegation (c : Cursor) : Bool × c.From :=
  if c.peek? = some '^' then (true, c.stride) else (false, c.stay)

/-- Read the beginning of a class; `c` is at the opening bracket. -/
def readClassOpening {x : Char} {rest : List Char} (c : Cursor) (h : c.rest = x :: rest) :
    Except Failure (ClassOpening × c.Past) := do
  let first := c.stridePast h
  if first.cursor.atEnd then
    Cursor.fail .classUnclosed ⟨c.position, first.cursor.position⟩
  else
    let (negated, second) := readNegation first.cursor
    let begins := second.cursor.position
    if second.cursor.atEnd then Cursor.fail .classUnclosed ⟨c.position, begins⟩
    else
      let (dashes, third) ← readLeadingDashes c.position ⟨begins, []⟩ second.cursor
      let (run, fourth) ← readLeadingBracket c.position dashes third.cursor
      return (⟨⟨c.position, fourth.cursor.position⟩, negated, ⟨none, run⟩⟩,
        first.andThen ((second.andThen third).andThen fourth))

/-- Read one element of a class; `c` is at the character `x`. -/
def readClassElement {x : Char} {rest : List Char} (c : Cursor) (h : c.rest = x :: rest) :
    Except Failure (Located Primitive × c.Past) :=
  if x = '\\' then do
    let (item, d) ← readEscape c.position c.next
    return (item, (c.stepPast h).andThen d)
  else .ok (⟨.literal x x.toString, c.here⟩, c.stepPast h)

/-- An element as an item of a class. -/
def classItem (item : Located Primitive) : Except Failure (Piece String) :=
  match item.value with
  | .literal _ written => .ok (.leaf written item.span)
  | .charClass text => .ok (.leaf text item.span)
  | _ => Cursor.fail .classEscapeInvalid item.span

/-- An element as the bound of a range. -/
def rangeBound (item : Located Primitive) : Except Failure (Char × String) :=
  match item.value with
  | .literal x written => .ok (x, written)
  | _ => Cursor.fail .classRangeLiteral item.span

/-- The character that follows a dash once white space and the sign of a comment
are passed over, if the pattern is read that way. -/
def peekBehindDash (c : Cursor) : Option Char :=
  let behind := c.rest.tail
  if c.verbose then
    match behind.dropWhile Text.isBlank with
    | '#' :: more => ((more.dropWhile Text.isBlank).head?).or behind.head?
    | x :: _ => some x
    | [] => behind.head?
  else behind.head?

/-- Read the upper bound of a range and make the range; `c` is at the bound. -/
def readUpperBound (opening : Span) (lower : Located Primitive) (c : Cursor) :
    Except Failure (Piece String × c.From) :=
  match h : c.rest with
  | [] => Cursor.fail .classUnclosed opening
  | _ :: _ => do
    let (upper, d) ← readClassElement c h
    let span : Span := ⟨lower.span.start, upper.span.stop⟩
    let (low, lowText) ← rangeBound lower
    let (high, highText) ← rangeBound upper
    if high < low then Cursor.fail .classRangeInvalid span
    else return (.leaf (lowText ++ "-" ++ highText) span, d.toFrom)

/-- Read an item or a range; `c` is at the character `x`. A dash in front of a
closing bracket or of another dash makes no range. -/
def readRange (opening : Span) {x : Char} {rest : List Char} (c : Cursor)
    (h : c.rest = x :: rest) : Except Failure (Piece String × c.Past) := do
  let (lower, d) ← readClassElement c h
  let dash := d.cursor.skip
  let atDash := d.andThen d.cursor.settle
  let behind := peekBehindDash dash
  if dash.atEnd then Cursor.fail .classUnclosed opening
  else if dash.peek? ≠ some '-' ∨ behind = some ']' ∨ behind = some '-' then
    return (← classItem lower, atDash)
  else
    let (range, e) ← readUpperBound opening lower dash.onward
    return (range, atDash.andThen (dash.stride.andThen e))

/-- A class with everything inside it. -/
def bracketed (opening : ClassOpening) (inside : Piece String) (stop : Position) : Piece String :=
  .around ((if opening.negated then "[^" else "[") ++ inside.value ++ "]")
    ⟨opening.span.start, stop⟩ [inside.levels]

/-- Read the inside of a class up to and over the closing bracket. -/
def readClassBody (opening : Span) (body : ClassBody) (c : Cursor) :
    Except Failure (Piece String × c.From) :=
  let here := c.skip
  match h : here.rest with
  | [] => Cursor.fail .classUnclosed opening
  | x :: _ =>
    let past := c.settle.andPast (here.stepPast h)
    if x = ']' then .ok (body.close, past.toFrom)
    else
      match namedClassLength? here.rest, SetOperator.ofText? here.rest with
      | some length, _ => do
        let item := past.andThen (here.next.leap (length - 1))
        have := item.passed
        let piece := .leaf (String.ofList (here.rest.take length))
          ⟨here.position, item.cursor.position⟩
        let (inside, d) ← readClassBody opening (body.push piece) item.cursor
        return (inside, item.toFrom.andThen d)
      | none, some operator => do
        let item := past.andThen here.next.step
        have := item.passed
        let (inside, d) ←
          readClassBody opening (body.operate operator item.cursor.position) item.cursor
        return (inside, item.toFrom.andThen d)
      | none, none =>
        if x = '[' then do
          let (nested, d) ← readClassOpening here h
          let inner := c.settle.andPast d
          have := inner.passed
          let (within, e) ← readClassBody nested.span nested.body inner.cursor
          let item := inner.andThen e
          have := item.passed
          let piece := bracketed nested within item.cursor.position
          let (inside, f) ← readClassBody opening (body.push piece) item.cursor
          return (inside, item.toFrom.andThen f)
        else do
          let (piece, d) ← readRange opening here h
          let item := c.settle.andPast d
          have := item.passed
          let (inside, e) ← readClassBody opening (body.push piece) item.cursor
          return (inside, item.toFrom.andThen e)
termination_by c.size

/-- Read a class; `c` is at the opening bracket. -/
def readClass {x : Char} {rest : List Char} (c : Cursor) (h : c.rest = x :: rest) :
    Except Failure (Piece String × c.Past) := do
  let (opening, d) ← readClassOpening c h
  let (inside, e) ← readClassBody opening.span opening.body d.cursor
  return (bracketed opening inside e.cursor.position, d.andThen e)

end FiniteAutomata.Pattern
