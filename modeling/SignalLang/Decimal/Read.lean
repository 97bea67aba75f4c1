/-!
# Reading decimals

`parse?` reads a decimal with an optional sign, point and exponent to the nearest 64-bit number. A number
too large to represent is refused. The names of infinity and of the number that is none are read too.
-/

namespace SignalLang.Decimal

/-- The number that the digits write, with how many there are. -/
def digitsValue (cs : List Char) : Nat :=
  cs.foldl (fun n c => 10 * n + (c.toNat - '0'.toNat)) 0

/-- Splits off the leading digits. -/
def spanDigits (cs : List Char) : List Char × List Char :=
  (cs.takeWhile Char.isDigit, cs.dropWhile Char.isDigit)

/-- The exponent at the front of `cs`, which must be all that is left. -/
def exponent? : List Char → Option Int
  | [] => some 0
  | c :: cs =>
    if c ≠ 'e' ∧ c ≠ 'E' then none
    else
      let (negative, ds) :=
        match cs with
        | '-' :: ds => (true, ds)
        | '+' :: ds => (false, ds)
        | ds => (false, ds)
      if ds.isEmpty ∨ ds.any (!·.isDigit) then none
      else some (if negative then -(digitsValue ds : Int) else digitsValue ds)

/-- The nearest number to `digits · 10 ^ exponent`, or none when it is too large. Exponents far
outside the range of the format are settled by their sign. -/
def nearest? (digits : Nat) (exponent : Int) : Option Float :=
  let size : Int := exponent + (Nat.toDigits 10 digits).length
  if digits = 0 then some 0.0
  else if size > 400 then none
  else if size < -400 then some 0.0
  else
    let x := if exponent < 0 then Float.ofScientific digits true exponent.natAbs
      else Float.ofScientific digits false exponent.natAbs
    if x.isInf then none else some x

/-- An unsigned decimal. -/
def unsigned? (cs : List Char) : Option Float :=
  let (whole, rest) := spanDigits cs
  let (fraction, rest) :=
    match rest with
    | '.' :: r => spanDigits r
    | r => ([], r)
  if whole.isEmpty ∧ fraction.isEmpty then none
  else do
    let e ← exponent? rest
    nearest? (digitsValue (whole ++ fraction)) (e - fraction.length)

/-- Infinity, written short or long in any case, or no number. -/
def special? (cs : List Char) : Option Float :=
  match String.ofList (cs.map Char.toLower) with
  | "inf" | "infinity" => some (1.0 / 0.0)
  | "nan" => some (0.0 / 0.0)
  | _ => none

/-- A decimal with an optional sign. -/
def parse? (s : String) : Option Float :=
  let (negative, cs) :=
    match s.toList with
    | '-' :: cs => (true, cs)
    | '+' :: cs => (false, cs)
    | cs => (false, cs)
  let x := (special? cs).or (unsigned? cs)
  x.map fun x => if negative then -x else x

end SignalLang.Decimal
