import FiniteAutomata.Pattern.Bracketed
import FiniteAutomata.Pattern.Opening
import FiniteAutomata.Pattern.Repetition

/-! A reader of patterns, for those who bring none of their own. Nothing that is
built for a pattern depends on how it was read, and what is proved holds with
any reader. The body of a group, and the pattern as a whole, is a list of
branches, each a list of items; the first thing that cannot be read decides the
error, and unclosed groups and too deep nesting are found last. -/
namespace FiniteAutomata.Pattern

/-- What has been read of a body: the finished branches and the items of the
current one, the last of each first. -/
structure Frame where
  /-- Where the body begins. -/
  opened : Position
  branches : List (Piece (Pattern Char))
  /-- Where the current branch begins. -/
  start : Position
  items : List (Piece (Pattern Char))

namespace Frame

/-- A body of which nothing has been read. -/
def new (p : Position) : Frame := ⟨p, [], p, []⟩

/-- Add an item to the current branch. -/
def push (f : Frame) (item : Piece (Pattern Char)) : Frame := { f with items := item :: f.items }

/-- The current branch as one part, ending at `p`. -/
def branch (f : Frame) (p : Position) : Piece (Pattern Char) :=
  match f.items with
  | [] => .leaf .empty ⟨f.start, p⟩
  | [item] => item
  | items =>
    let parts := items.reverse
    .around (.concat (parts.map Piece.value)) ⟨f.start, p⟩ (parts.map Piece.levels)

/-- Finish the current branch at a bar that stands at `p`. -/
def split (f : Frame) (p : Position) : Frame :=
  ⟨f.opened, f.branch p :: f.branches, p.advance '|', []⟩

/-- The whole body as one part, ending at `p`. -/
def close (f : Frame) (p : Position) : Piece (Pattern Char) :=
  match f.branches with
  | [] => f.branch p
  | branches =>
    let parts := (f.branch p :: branches).reverse
    .around (.alternation (parts.map Piece.value)) ⟨f.opened, p⟩ (parts.map Piece.levels)

/-- The last item of the current branch, which an operator applies to, and the
body without it. Nothing can be repeated where a branch begins or behind a flag
directive. -/
def operand? (f : Frame) : Option (Piece (Pattern Char) × Frame) :=
  match f.items with
  | [] => none
  | item :: items =>
    match item.value with
    | .flags _ => none
    | .empty => none
    | _ => some (item, { f with items })

end Frame

/-- A single element as a pattern. -/
def Primitive.toPattern : Primitive → Pattern Char
  | literal c _ => .literal c
  | dot => .dot
  | assertion kind => .assertion kind
  | charClass text => .charClass text

/-- An item under a repetition operator that ends at `p`. -/
def repeated (item : Piece (Pattern Char)) (operator : Operator) (p : Position) :
    Piece (Pattern Char) :=
  .around (.repetition operator.quantifier operator.greedy item.value) ⟨item.span.start, p⟩
    [item.levels]

/-- A body inside the parentheses of a group. -/
def grouped (kind : GroupKind) (body : Piece (Pattern Char)) (span : Span) :
    Piece (Pattern Char) :=
  .around (.group kind body.value) span [body.levels]

/-- Whether white space is passed over behind a group's opening or a directive. -/
def verboseWith (items : List (Located FlagItem)) (verbose : Bool) : Bool :=
  (FlagItem.setting? .ignoreWhitespace items).getD verbose

/-- Whether white space is passed over in the body of a group. -/
def GroupKind.verbose (kind : GroupKind) (outer : Bool) : Bool :=
  match kind with
  | plain items => verboseWith items outer
  | _ => outer

/-- Read an item that no parenthesis opens; `c` is at the character `x`. -/
def readItem {x : Char} {rest : List Char} (c : Cursor) (h : c.rest = x :: rest) :
    Except Failure (Piece (Pattern Char) × c.Past) := do
  if x = '[' then
    let (piece, d) ← readClass c h
    return (⟨.charClass piece.value, piece.span, piece.levels⟩, d)
  else
    let (item, d) ← readPrimitive c h
    return (.leaf item.value.toPattern item.span, d)

/-- Read a repetition operator, if `c` is at one. -/
def readOperator? {x : Char} {rest : List Char} (c : Cursor) (h : c.rest = x :: rest) :
    Option (Except Failure (Operator × c.Past)) :=
  match simpleQuantifier? x with
  | some quantifier => some (.ok (readSimple quantifier c h))
  | none => if x = '\x7b' then some (readCounted c h) else none

/-- Read a body up to the parenthesis that closes it, or to the end. -/
def readBody (names : Names) (frame : Frame) (c : Cursor) :
    Except Failure (Piece (Pattern Char) × Names × c.From) :=
  let here := c.skip
  match h : here.rest with
  | [] => .ok (frame.close here.position, names, c.settle)
  | x :: _ =>
    let past := c.settle.andPast (here.stepPast h)
    have := past.passed
    if x = ')' then .ok (frame.close here.position, names, c.settle)
    else if x = '|' then do
      let (body, names, d) ← readBody names (frame.split here.position) past.cursor
      return (body, names, past.toFrom.andThen d)
    else if x = '(' then do
      let (opening, names, d) ← readOpening here.here names past.cursor
      let inner := past.andThen d
      have := inner.passed
      match opening with
      | .directive directive =>
        let outer := inner.setVerbose (verboseWith directive.flags.value here.verbose)
        have := outer.passed
        let item := .leaf (.flags directive) directive.span
        let (body, names, e) ← readBody names (frame.push item) outer.cursor
        return (body, names, outer.toFrom.andThen e)
      | .group kind =>
        let inner := inner.setVerbose (kind.verbose here.verbose)
        have := inner.passed
        let (within, names, e) ← readBody names (.new inner.cursor.position) inner.cursor
        let closing := e.cursor
        if closing.atEnd then Cursor.fail .groupUnclosed here.here
        else
          let outer := (inner.andThen (e.andThen closing.step)).setVerbose here.verbose
          have := outer.passed
          let item := grouped kind within ⟨here.position, outer.cursor.position⟩
          let (body, names, f) ← readBody names (frame.push item) outer.cursor
          return (body, names, outer.toFrom.andThen f)
    else
      match readOperator? here h with
      | some operator =>
        match frame.operand? with
        | none => Cursor.fail .repetitionMissing (.point here.position)
        | some (operand, frame) => do
          let (operator, d) ← operator
          let behind := c.settle.andPast d
          have := behind.passed
          let item := repeated operand operator behind.cursor.position
          let (body, names, e) ← readBody names (frame.push item) behind.cursor
          return (body, names, behind.toFrom.andThen e)
      | none => do
        let (item, d) ← readItem here h
        let behind := c.settle.andPast d
        have := behind.passed
        let (body, names, e) ← readBody names (frame.push item) behind.cursor
        return (body, names, behind.toFrom.andThen e)
termination_by c.size

/-- Read a whole text. -/
def readText (l : List Char) : Except Failure (Pattern Char) := do
  let start := Cursor.ofText l
  let (body, _, d) ← readBody [] (.new start.position) start
  if d.cursor.atEnd then
    match body.levels[nestLimit]? with
    | some span => Cursor.fail .nestedTooDeep span
    | none => return body.value
  else Cursor.fail .groupUnopened d.cursor.here

/-- Read a pattern. -/
def parse (pattern : String) : Except Error (Pattern Char) :=
  match readText pattern.toList with
  | .ok p => .ok p
  | .error failure => .error ⟨failure.complaint, failure.span, pattern⟩

end FiniteAutomata.Pattern
