import FiniteAutomata.Pattern.Basic
import FiniteAutomata.Pattern.Cursor

/-! Escape sequences: a backslash and what follows it. -/
namespace FiniteAutomata.Pattern

/-- A single element of a pattern, as it may also stand in a bracketed class. -/
inductive Primitive where
  /-- A character, with the form in which it was written. -/
  | literal (c : Char) (written : String)
  | dot
  | assertion (kind : Assertion)
  | charClass (text : String)
  deriving DecidableEq, Repr

/-- Whether a character has a meaning of its own somewhere in a pattern. -/
def isMeta (c : Char) : Bool := "\\.+*?()|[]\x7b\x7d^$#&-~".toList.contains c

/-- Whether a backslash in front of a character makes it stand for itself: the
characters with a meaning, and all of ASCII but letters, digits and angle
brackets. -/
def isEscapable (c : Char) : Bool :=
  isMeta c || c.toNat < 128 && !c.isAlphanum && c != '<' && c != '>'

/-- Whether a character is a hexadecimal digit. -/
def isHexDigit (c : Char) : Bool :=
  c.isDigit || 'a' ≤ c && c ≤ 'f' || 'A' ≤ c && c ≤ 'F'

/-- The value of a hexadecimal digit. -/
def hexDigitValue (c : Char) : Nat :=
  if c.isDigit then c.toNat - '0'.toNat
  else if 'a' ≤ c then c.toNat - 'a'.toNat + 10
  else c.toNat - 'A'.toNat + 10

/-- The number written by hexadecimal digits. -/
def hexValue (digits : List Char) : Nat :=
  digits.foldl (fun n c => 16 * n + hexDigitValue c) 0

/-- The character with a given code point, unless the number is none. -/
def scalar? (n : Nat) : Option Char :=
  if n.isValidChar then some (Char.ofNat n) else none

/-- A number in upper-case hexadecimal digits, at least `width` of them. -/
def hexText (width : Nat) (n : Nat) : String :=
  let digits := (Nat.toDigits 16 n).map Char.toUpper
  String.ofList (List.replicate (width - digits.length) '0' ++ digits)

/-- How many digits follow `\x`, `\u` and `\U` without braces. -/
def hexWidth (letter : Char) : Nat :=
  match letter with
  | 'x' => 2
  | 'u' => 4
  | _ => 8

/-- The end of an escape sequence comes too early. -/
def escapeCutOff {α : Type} (span : Span) : Except Failure α :=
  Cursor.fail .escapeUnexpectedEnd span

/-- Read the remaining `n` digits of a hexadecimal escape; `c` is at the first
of them. -/
def readHexDigits (n : Nat) (c : Cursor) : Except Failure (List Char × c.From) :=
  match n with
  | 0 => .ok ([], c.stay)
  | n + 1 =>
    match c.rest with
    | [] => escapeCutOff c.here
    | x :: _ =>
      if isHexDigit x then do
        let (digits, d) ← readHexDigits n c.onward
        return (x :: digits, c.stride.andThen d)
      else Cursor.fail .escapeHexInvalidDigit c.here

/-- Read a hexadecimal escape with a fixed number of digits. -/
def readHexFixed (letter : Char) (start : Position) (c : Cursor) :
    Except Failure (Located Primitive × c.From) := do
  let (digits, d) ← readHexDigits (hexWidth letter) c
  let stop := d.cursor.position
  match scalar? (hexValue digits) with
  | none => Cursor.fail .escapeHexInvalid ⟨c.position, stop⟩
  | some x =>
    let written := String.ofList ['\\', letter] ++ hexText (hexWidth letter) x.toNat
    return (⟨.literal x written, ⟨start, stop⟩⟩, d)

/-- Read a hexadecimal escape in braces; `c` is at the opening brace. -/
def readHexBraced (letter : Char) (start : Position) (c : Cursor) :
    Except Failure (Located Primitive × c.From) :=
  let (digits, d) := c.onward.takeWhile isHexDigit
  let closing := d.cursor
  match closing.rest with
  | [] => escapeCutOff ⟨c.position, closing.position⟩
  | y :: _ =>
    if y != '\x7d' then Cursor.fail .escapeHexInvalidDigit closing.here
    else if digits.isEmpty then
      Cursor.fail .escapeHexEmpty ⟨c.position, closing.onward.position⟩
    else
      match scalar? (hexValue digits) with
      | none => Cursor.fail .escapeHexInvalid ⟨c.next.position, closing.position⟩
      | some x =>
        let written := String.ofList ['\\', letter, '\x7b'] ++ hexText 0 x.toNat ++ "\x7d"
        .ok (⟨.literal x written, ⟨start, closing.onward.position⟩⟩,
          (c.stride.andThen d).andThen closing.stride)

/-- Read a hexadecimal escape; `c` is at the letter `x`, `u` or `U`. -/
def readHex (letter : Char) (start : Position) (c : Cursor) :
    Except Failure (Located Primitive × c.From) := do
  let after := c.onward
  let (item, d) ←
    match after.rest with
    | [] => escapeCutOff after.here
    | '\x7b' :: _ => readHexBraced letter start after
    | _ => readHexFixed letter start after
  return (item, c.stride.andThen d)

/-- Read a class given by a property; `c` is at the letter `p` or `P`. -/
def readProperty (letter : Char) (start : Position) (c : Cursor) :
    Except Failure (Located Primitive × c.From) :=
  let after := c.onward
  let behind := c.stride.andThen after.stride
  match after.rest with
  | [] => escapeCutOff after.here
  | '\x7b' :: _ =>
    let (name, d) := after.onward.takeWhile (· != '\x7d')
    let closing := d.cursor
    match closing.rest with
    | [] => escapeCutOff closing.here
    | _ :: _ =>
      let written := String.ofList (['\\', letter, '\x7b'] ++ name ++ ['\x7d'])
      .ok (⟨.charClass written, ⟨start, closing.next.position⟩⟩,
        (behind.andThen d).andThen closing.step)
  | x :: _ =>
    if x = '\\' then Cursor.fail .unicodeClassInvalid after.here
    else
      .ok (⟨.charClass (String.ofList ['\\', letter, x]), ⟨start, after.onward.position⟩⟩, behind)

/-- The boundary with a given name in braces. -/
def specialBoundary? : List Char → Option Assertion
  | ['s', 't', 'a', 'r', 't'] => some .wordBoundaryStart
  | ['e', 'n', 'd'] => some .wordBoundaryEnd
  | ['s', 't', 'a', 'r', 't', '-', 'h', 'a', 'l', 'f'] => some .wordBoundaryStartHalf
  | ['e', 'n', 'd', '-', 'h', 'a', 'l', 'f'] => some .wordBoundaryEndHalf
  | _ => none

/-- Whether a character may stand in the name of a special boundary. -/
def isBoundaryChar (c : Char) : Bool := c.isAlpha || c == '-'

/-- Read the name of a special boundary and the closing brace; the backslash
stands at `start`, the opening brace at `brace`, and `c` at the name. -/
def readBoundaryName (start brace : Position) (c : Cursor) :
    Except Failure (Located Primitive × c.From) :=
  let (name, d) := c.takeWhile isBoundaryChar
  let closing := d.cursor
  if closing.peek? = some '\x7d' then
    match specialBoundary? name with
    | none => Cursor.fail .specialBoundaryUnrecognized ⟨c.position, closing.position⟩
    | some kind =>
      .ok (⟨.assertion kind, ⟨start, closing.next.position⟩⟩, d.andThen closing.step)
  else Cursor.fail .specialBoundaryUnclosed ⟨brace, closing.position⟩

/-- Read what follows `\b`: the name of a special boundary in braces makes it
that boundary. A brace that holds no name is left for a counted repetition. -/
def readBoundary (start : Position) (c : Cursor) :
    Except Failure (Located Primitive × c.From) := do
  let plain : Located Primitive := ⟨.assertion .wordBoundary, ⟨start, c.position⟩⟩
  let inner := c.onward
  if c.peek? ≠ some '\x7b' then return (plain, c.stay)
  else
    match inner.peek? with
    | none => Cursor.fail .specialBoundaryUnexpectedEnd ⟨start, inner.position⟩
    | some x =>
      if isBoundaryChar x then
        let (item, d) ← readBoundaryName start c.position inner
        return (item, c.stride.andThen d)
      else return (plain, c.stay)

/-- What a single letter behind a backslash stands for, with nothing to read
behind it. -/
def simpleEscape? (c : Char) : Option Primitive :=
  let literal := fun x : Char => some (Primitive.literal x (String.ofList ['\\', c]))
  if isEscapable c then literal c
  else
    match c with
    | 'a' => literal '\x07'
    | 'f' => literal '\x0c'
    | 't' => literal '\t'
    | 'n' => literal '\n'
    | 'r' => literal '\r'
    | 'v' => literal '\x0b'
    | 'A' => some (.assertion .startText)
    | 'z' => some (.assertion .endText)
    | 'B' => some (.assertion .notWordBoundary)
    | '<' => some (.assertion .wordBoundaryStartAngle)
    | '>' => some (.assertion .wordBoundaryEndAngle)
    | 'd' => some (.charClass (Shorthand.digit.text false))
    | 'D' => some (.charClass (Shorthand.digit.text true))
    | 's' => some (.charClass (Shorthand.space.text false))
    | 'S' => some (.charClass (Shorthand.space.text true))
    | 'w' => some (.charClass (Shorthand.word.text false))
    | 'W' => some (.charClass (Shorthand.word.text true))
    | _ => none

/-- Read an escape sequence; the backslash stands at `start`, and `c` is behind
it. -/
def readEscape (start : Position) (c : Cursor) : Except Failure (Located Primitive × c.From) :=
  match c.rest with
  | [] => escapeCutOff ⟨start, c.position⟩
  | x :: _ =>
    if x.isDigit then Cursor.fail .backreference ⟨start, c.here.stop⟩
    else if x = 'x' ∨ x = 'u' ∨ x = 'U' then readHex x start c
    else if x = 'p' ∨ x = 'P' then readProperty x start c
    else if x = 'b' then do
      let (item, d) ← readBoundary start c.next
      return (item, c.step.andThen d)
    else
      match simpleEscape? x with
      | some item => .ok (⟨item, ⟨start, c.next.position⟩⟩, c.step)
      | none => Cursor.fail .escapeUnrecognized ⟨start, c.next.position⟩

/-- Read a single element; `c` is at the character `x`. -/
def readPrimitive {x : Char} {rest : List Char} (c : Cursor) (h : c.rest = x :: rest) :
    Except Failure (Located Primitive × c.Past) :=
  match x with
  | '\\' => do
    let (item, d) ← readEscape c.position c.next
    return (item, (c.stepPast h).andThen d)
  | '.' => .ok (⟨.dot, c.here⟩, c.stepPast h)
  | '^' => .ok (⟨.assertion .startLine, c.here⟩, c.stepPast h)
  | '$' => .ok (⟨.assertion .endLine, c.here⟩, c.stepPast h)
  | _ => .ok (⟨.literal x x.toString, c.here⟩, c.stepPast h)

end FiniteAutomata.Pattern
