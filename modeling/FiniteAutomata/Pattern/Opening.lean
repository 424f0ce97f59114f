import FiniteAutomata.Pattern.Basic
import FiniteAutomata.Pattern.Cursor
import FiniteAutomata.Text.Word

/-! What follows an opening parenthesis: the kind of a group, or a directive that
sets flags. -/
namespace FiniteAutomata.Pattern

/-- The capture names read so far, with their places. -/
abbrev Names := List (Located String)

/-- What a parenthesis opens. -/
inductive Opening where
  /-- A group whose body follows. -/
  | group (kind : GroupKind)
  /-- A directive, which is complete. -/
  | directive (d : FlagDirective)

/-- Whether a character may stand in the name of a capture, or at its head. -/
def isNameChar (first : Bool) (c : Char) : Bool :=
  if first then c == '_' || Text.isLetter c
  else c == '_' || c == '.' || c == '[' || c == ']' || Text.isLetterOrNumeral c

/-- The end of a capture name comes too early. -/
def nameCutOff {α : Type} (c : Cursor) : Except Failure α :=
  Cursor.fail .groupNameUnexpectedEnd c.here

/-- Read the characters of a capture name up to the closing angle bracket. -/
def readNameChars (first : Bool) (c : Cursor) : Except Failure (List Char × c.From) :=
  match h : c.rest with
  | [] => nameCutOff c
  | x :: _ =>
    have := Cursor.size_next_lt h
    if x = '>' then .ok ([], c.stay)
    else if isNameChar first x then do
      let (name, d) ← readNameChars false c.next
      return (x :: name, c.step.andThen d)
    else Cursor.fail .groupNameInvalid c.here
termination_by c.size

/-- Read the name of a capture, which must be new. -/
def readName (names : Names) (c : Cursor) : Except Failure (Names × c.From) := do
  let (chars, d) ← readNameChars true c
  let name := String.ofList chars
  let span : Span := ⟨c.position, d.cursor.position⟩
  if name.isEmpty then Cursor.fail .groupNameEmpty (.point c.position)
  else
    match names.find? fun known => known.value == name with
    | some known => Cursor.fail (.groupNameDuplicate known.span) span
    | none => return (names ++ [⟨name, span⟩], d.andThen d.cursor.step)

/-- The item that a character stands for in a list of flags. -/
def flagItem (c : Char) (span : Span) : Except Failure FlagItem :=
  if c = '-' then .ok .negation
  else
    match Flag.ofLetter? c with
    | some f => .ok (.flag f)
    | none => Cursor.fail .flagUnrecognized span

/-- The complaint about an item that stands in a list already. -/
def repeatedItem (item : FlagItem) (earlier : Span) : Complaint :=
  match item with
  | .negation => .flagRepeatedNegation earlier
  | .flag _ => .flagDuplicate earlier

/-- Read flags up to a colon or a closing parenthesis, behind those in `items`. -/
def readFlagItems (items : List (Located FlagItem)) (c : Cursor) :
    Except Failure (List (Located FlagItem) × c.From) :=
  match h : c.rest with
  | [] => Cursor.fail .flagUnexpectedEnd c.here
  | x :: _ =>
    have := Cursor.size_next_lt h
    if x = ':' ∨ x = ')' then
      match items.getLast? with
      | some ⟨.negation, span⟩ => Cursor.fail .flagDanglingNegation span
      | _ => .ok (items, c.stay)
    else do
      let item ← flagItem x c.here
      match items.find? fun known => known.value == item with
      | some known => Cursor.fail (repeatedItem item known.span) c.here
      | none =>
        let (all, d) ← readFlagItems (items ++ [⟨item, c.here⟩]) c.next
        return (all, c.step.andThen d)
termination_by c.size

/-- Read flags and what ends them; `c` is behind the `(?` of a parenthesis whose
span is `paren`, and `mark` is where the `?` stands. -/
def readFlags (paren : Span) (mark : Position) (c : Cursor) :
    Except Failure (Opening × c.From) := do
  if c.atEnd then Cursor.fail .groupUnclosed paren
  else
    let (items, d) ← readFlagItems [] c
    let ending := d.cursor
    let behind := d.andThen ending.step
    if ending.peek? = some ')' then
      if items.isEmpty then Cursor.fail .repetitionMissing (.point mark)
      else
        let flags : Located (List (Located FlagItem)) := ⟨items, ⟨c.position, ending.position⟩⟩
        return (.directive ⟨⟨paren.start, ending.next.position⟩, flags⟩, behind)
    else return (.group (.plain items), behind)

/-- The sign behind an opening parenthesis. -/
inductive OpeningSign where
  /-- The sign of a condition on the text before or behind, of the given length. -/
  | lookAround (length : Nat)
  /-- The sign of a named capture, of the given length. -/
  | name (length : Nat)
  /-- A question mark, behind which flags follow. -/
  | flags
  /-- No sign: the body of a numbered capture follows. -/
  | absent

/-- The sign at the beginning of a text. -/
def OpeningSign.ofText : List Char → OpeningSign
  | '?' :: '=' :: _ => lookAround 2
  | '?' :: '!' :: _ => lookAround 2
  | '?' :: '<' :: '=' :: _ => lookAround 3
  | '?' :: '<' :: '!' :: _ => lookAround 3
  | '?' :: 'P' :: '<' :: _ => name 3
  | '?' :: '<' :: _ => name 2
  | '?' :: _ => flags
  | _ => absent

/-- Read what a parenthesis opens; `c` is behind the parenthesis, whose span is
`paren`. -/
def readOpening (paren : Span) (names : Names) (c : Cursor) :
    Except Failure (Opening × Names × c.From) := do
  let d := c.skip
  match OpeningSign.ofText d.rest with
  | .lookAround n => Cursor.fail .lookAround ⟨paren.start, (d.drop n).position⟩
  | .name n =>
    let (names, e) ← readName names (d.drop n)
    return (.group .named, names, c.settle.andThen ((d.leap n).andThen e))
  | .flags =>
    let (opening, e) ← readFlags paren d.position d.next
    return (opening, names, c.settle.andThen (d.step.andThen e))
  | .absent => return (.group .indexed, names, c.settle)

end FiniteAutomata.Pattern
