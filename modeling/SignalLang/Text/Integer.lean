import SignalLang.LongWord
import SignalLang.Text.Quoted

/-!
# Reading integers

Integers are decimal, or in another base after `0x`, `0o`, `0b` or a leading zero. An underscore may stand
between two digits and behind the mark of a base.
-/

namespace SignalLang.Text

/-- The number that digits of a base write, if there are any and all belong to the base. -/
def numberInBase? (base : Nat) (cs : List Char) : Option Nat :=
  if cs.isEmpty then none
  else
    cs.foldl (fun acc c => do
      let n ← acc
      let d ← hexValue? c
      if d < base then some (n * base + d) else none) (some 0)

/-- The base that the front of a number marks, with its digits and whether there was a mark. -/
def baseOf : List Char → Nat × List Char × Bool
  | '0' :: mark :: rest =>
    if mark = 'x' ∨ mark = 'X' then (16, rest, true)
    else if mark = 'o' ∨ mark = 'O' then (8, rest, true)
    else if mark = 'b' ∨ mark = 'B' then (2, rest, true)
    else (8, mark :: rest, true)
  | cs => (10, cs, false)

/-- An unsigned integer without underscores. -/
def unsigned? (cs : List Char) : Option Nat :=
  let (base, digits, _) := baseOf cs
  numberInBase? base digits

/-- Whether every underscore stands behind a digit and before another one. -/
def underscoresSeparate : (afterDigit : Bool) → List Char → Bool
  | _, [] => true
  | afterDigit, '_' :: rest =>
    afterDigit && !rest.isEmpty && rest.head? ≠ some '_' && underscoresSeparate false rest
  | _, _ :: rest => underscoresSeparate true rest

/-- Why a text is no integer. -/
inductive IntegerError where
  | malformed
  | outOfRange
deriving DecidableEq, Repr

/-- A signed integer of 64 bits. -/
def integer (s : String) : Except IntegerError Int :=
  let (negative, cs) :=
    match s.toList with
    | '-' :: cs => (true, cs)
    | '+' :: cs => (false, cs)
    | cs => (false, cs)
  let (_, digits, marked) := baseOf cs
  if !underscoresSeparate marked digits then .error .malformed
  else
    match unsigned? (cs.filter (· ≠ '_')) with
    | none => .error .malformed
    | some n =>
      let value : Int := if negative then -n else n
      if LongWord.inRange value then .ok value else .error .outOfRange

end SignalLang.Text
