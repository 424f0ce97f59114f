import FiniteAutomata.Pattern.Error
import FiniteAutomata.Text.Blank

/-! A place of reading in the text of a pattern. Reading only ever moves forward:
each operation comes with a lemma on how much text it leaves, and readers of
larger parts return a cursor together with the proof that it is further on.
With the flag `x`, white space and comments are passed over wherever a cursor
goes `onward`. -/
namespace FiniteAutomata.Pattern

/-- What stopped the reading of a pattern. -/
structure Failure where
  complaint : Complaint
  span : Span
  deriving DecidableEq, Repr

/-- The text that is still to be read, where it begins, and whether white space
and comments are passed over. -/
structure Cursor where
  rest : List Char
  position : Position
  verbose : Bool
  deriving DecidableEq, Repr

/-- Pass over white space and comments. -/
def skipBlanks (inComment : Bool) : List Char → Position → List Char × Position
  | [], p => ([], p)
  | x :: rest, p =>
    if inComment then skipBlanks (x != '\n') rest (p.advance x)
    else if Text.isBlank x then skipBlanks false rest (p.advance x)
    else if x = '#' then skipBlanks true rest (p.advance x)
    else (x :: rest, p)

theorem length_skipBlanks (inComment : Bool) (l : List Char) (p : Position) :
    (skipBlanks inComment l p).1.length ≤ l.length := by
  fun_induction skipBlanks inComment l p <;> simp_all <;> omega

namespace Cursor

/-- The beginning of a pattern. -/
def ofText (l : List Char) : Cursor := ⟨l, .origin, false⟩

/-- How much text is left. -/
def size (c : Cursor) : Nat := c.rest.length

/-- Whether nothing is left. -/
def atEnd (c : Cursor) : Bool := c.rest.isEmpty

/-- The next character. -/
def peek? (c : Cursor) : Option Char := c.rest.head?

/-- The span of the next character, which is empty at the end. -/
def here (c : Cursor) : Span :=
  match c.rest with
  | [] => .point c.position
  | x :: _ => .ofChar c.position x

/-- Move over one character. -/
def next (c : Cursor) : Cursor :=
  match c.rest with
  | [] => c
  | x :: rest => ⟨rest, c.position.advance x, c.verbose⟩

/-- Move over `n` characters. -/
def drop (c : Cursor) : Nat → Cursor
  | 0 => c
  | n + 1 => c.next.drop n

/-- Move to the next character that counts. -/
def skip (c : Cursor) : Cursor :=
  if c.verbose then
    let after := skipBlanks false c.rest c.position
    ⟨after.1, after.2, c.verbose⟩
  else c

/-- Move over one character and on to the next one that counts. -/
def onward (c : Cursor) : Cursor := c.next.skip

/-- Fail with a complaint about a span. -/
def fail {α : Type} (complaint : Complaint) (span : Span) : Except Failure α :=
  .error ⟨complaint, span⟩

theorem size_next_le (c : Cursor) : c.next.size ≤ c.size := by
  unfold next size
  split <;> simp_all

theorem size_next_lt {c : Cursor} {x : Char} {rest : List Char} (h : c.rest = x :: rest) :
    c.next.size < c.size := by
  simp [next, size, h]

theorem size_drop_le (c : Cursor) (n : Nat) : (c.drop n).size ≤ c.size := by
  induction n generalizing c with
  | zero => simp [drop]
  | succ n ih => exact Nat.le_trans (ih c.next) c.size_next_le

theorem size_skip_le (c : Cursor) : c.skip.size ≤ c.size := by
  unfold skip
  split
  next => exact length_skipBlanks false c.rest c.position
  next => exact Nat.le_refl _

theorem size_onward_le (c : Cursor) : c.onward.size ≤ c.size :=
  Nat.le_trans c.next.size_skip_le c.size_next_le

theorem size_onward_lt {c : Cursor} {x : Char} {rest : List Char} (h : c.rest = x :: rest) :
    c.onward.size < c.size :=
  Nat.lt_of_le_of_lt c.next.size_skip_le (size_next_lt h)

/-- A cursor that is at `c` or further on. -/
structure From (c : Cursor) where
  cursor : Cursor
  reached : cursor.size ≤ c.size

/-- A cursor that is further on than `c`. -/
structure Past (c : Cursor) where
  cursor : Cursor
  passed : cursor.size < c.size

/-- The cursor itself. -/
def stay (c : Cursor) : c.From := ⟨c, Nat.le_refl _⟩

/-- The cursor behind the next character. -/
def step (c : Cursor) : c.From := ⟨c.next, c.size_next_le⟩

/-- The cursor at what counts behind the next character. -/
def stride (c : Cursor) : c.From := ⟨c.onward, c.size_onward_le⟩

/-- The cursor at what counts. -/
def settle (c : Cursor) : c.From := ⟨c.skip, c.size_skip_le⟩

/-- The cursor behind the next `n` characters. -/
def leap (c : Cursor) (n : Nat) : c.From := ⟨c.drop n, c.size_drop_le n⟩

/-- The cursor behind the next character, which there is. -/
def stepPast (c : Cursor) {x : Char} {rest : List Char} (h : c.rest = x :: rest) : c.Past :=
  ⟨c.next, size_next_lt h⟩

/-- The cursor at what counts behind the next character, which there is. -/
def stridePast (c : Cursor) {x : Char} {rest : List Char} (h : c.rest = x :: rest) : c.Past :=
  ⟨c.onward, size_onward_lt h⟩

namespace From

/-- Go on from a cursor to another one. -/
def andThen {c : Cursor} (d : c.From) (e : d.cursor.From) : c.From :=
  ⟨e.cursor, Nat.le_trans e.reached d.reached⟩

/-- Go on from a cursor past it. -/
def andPast {c : Cursor} (d : c.From) (e : d.cursor.Past) : c.Past :=
  ⟨e.cursor, Nat.lt_of_lt_of_le e.passed d.reached⟩

end From

namespace Past

/-- A cursor that is further on is at most that far on. -/
def toFrom {c : Cursor} (d : c.Past) : c.From := ⟨d.cursor, Nat.le_of_lt d.passed⟩

/-- Go on from a cursor that is further on already. -/
def andThen {c : Cursor} (d : c.Past) (e : d.cursor.From) : c.Past :=
  ⟨e.cursor, Nat.lt_of_le_of_lt e.reached d.passed⟩

/-- The same cursor with white space and comments passed over from now on, or not. -/
def setVerbose {c : Cursor} (d : c.Past) (verbose : Bool) : c.Past :=
  ⟨{ d.cursor with verbose }, d.passed⟩

end Past

/-- Read characters as long as they satisfy a condition. -/
def takeWhile (p : Char → Bool) (c : Cursor) : List Char × c.From :=
  match h : c.rest with
  | [] => ([], c.stay)
  | x :: _ =>
    if p x then
      have := size_onward_lt h
      let (taken, d) := takeWhile p c.onward
      (x :: taken, c.stride.andThen d)
    else ([], c.stay)
termination_by c.size

end Cursor

end FiniteAutomata.Pattern
