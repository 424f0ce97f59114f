import FiniteAutomata.Fragment.Combine

/-! Fragments for patterns. A pattern is followed from left to right; what no
fragment can follow ends the work at once. A counted repetition makes one copy of
its operand after another, so the operand itself is built but not used. How the
text of a pattern is read is left to a reader. -/
namespace FiniteAutomata

namespace Pattern

/-- A reader finds the pattern that a text describes, or says why there is none. -/
abbrev Reader := String → Except Error (Pattern Char)

/-- What a group asks for that no fragment can follow. -/
def GroupKind.unsupported? : GroupKind → Option Feature
  | plain (item :: items) => some (.groupFlags (item :: items))
  | _ => none

/-- The least and the greatest number of repetitions that an operator allows. -/
def Quantifier.bounds : Quantifier → Nat × Option Nat
  | zeroOrOne => (0, some 1)
  | zeroOrMore => (0, none)
  | oneOrMore => (1, none)
  | exactly n => (n, some n)
  | atLeast n => (n, none)
  | bounded least most => (least, some most)

end Pattern

namespace Fragment

variable {σ : Type} [Symbol σ]

/-- The fragments one after another. -/
def concatAll [Counting] : List (Fragment σ) → Build σ (Fragment σ)
  | [] => epsilon
  | x :: rest => rest.foldlM (fun x y => liftExcept (x.concat y)) x

/-- A copy of the fragment that may also be passed over. -/
def optionalCopy [Counting] (x : Fragment σ) : Build σ (Fragment σ) := do
  let copy ← x.replicate
  copy.union (← epsilon)

/-- A copy of the fragment that may be repeated. -/
def closedCopy [Counting] (x : Fragment σ) : Build σ (Fragment σ) := do
  let copy ← x.replicate
  copy.closure

/-- At least `least` copies of the fragment, followed by copies that may be passed
over up to `most`, or by a closed copy if there is no such bound. -/
def repeatCounted [Counting] (x : Fragment σ) (least : Nat) (most : Option Nat) :
    Build σ (Fragment σ) := do
  let needed ← (List.replicate least x).mapM fun x => (x.replicate : Build σ (Fragment σ))
  let further ←
    match most with
    | none => pure [← x.closedCopy]
    | some most => (List.replicate (most - least) x).mapM optionalCopy
  concatAll (needed ++ further)

/-- The fragment repeated as an operator says. -/
def quantify [Counting] (x : Fragment σ) : Pattern.Quantifier → Build σ (Fragment σ)
  | .zeroOrMore => x.closure
  | q => x.repeatCounted q.bounds.1 q.bounds.2

mutual

/-- A fragment that accepts what a pattern describes. -/
def ofPattern [Counting] : Pattern σ → Build σ (Fragment σ)
  | .empty => epsilon
  | .literal a => literal a
  | .dot => throw (.unsupported .dot)
  | .assertion kind => throw (.unsupported (.assertion kind))
  | .charClass text => throw (.unsupported (.charClass text))
  | .flags directive => throw (.unsupported (.flagDirective directive))
  | .group kind body =>
    match kind.unsupported? with
    | some feature => throw (.unsupported feature)
    | none => ofPattern body
  | .repetition q _ body => do (← ofPattern body).quantify q
  | .concat parts => do concatAll (← ofPatterns parts)
  | .alternation [] => epsilon
  | .alternation (branch :: branches) => do unionPatterns (← ofPattern branch) branches

/-- Fragments for the patterns of a list, one after another. -/
def ofPatterns [Counting] : List (Pattern σ) → Build σ (List (Fragment σ))
  | [] => return []
  | p :: rest => do
    let x ← ofPattern p
    return x :: (← ofPatterns rest)

/-- The union of a fragment with the patterns of a list, one after another. -/
def unionPatterns [Counting] (x : Fragment σ) : List (Pattern σ) → Build σ (Fragment σ)
  | [] => return x
  | p :: rest => do
    let y ← ofPattern p
    unionPatterns (← x.union y) rest

end

/-- A fragment for the text of a pattern. -/
def ofText [Counting] (read : Pattern.Reader) (pattern : String) : Build Char (Fragment Char) :=
  match read pattern with
  | .error e => throw (.malformed e)
  | .ok p => ofPattern p

end Fragment

end FiniteAutomata
