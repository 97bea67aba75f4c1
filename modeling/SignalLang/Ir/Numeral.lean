import SignalLang.Decimal.Layout

/-!
# Numerals of the target

Integers are decimal, except those whose hexadecimal digits repeat much more than their decimal ones.
Single-precision numbers are decimal when their shortest decimal is exact, and else the bits of the number
in double precision.
-/

namespace SignalLang.Ir

/-- The upper-case hexadecimal digits of a number. -/
def hexDigits (n : Nat) : List Char := (Nat.toDigits 16 n).map Char.toUpper

/-- How many different characters a list has. -/
def distinct (cs : List Char) : Nat := cs.eraseDups.length

/-- How many different hexadecimal digits a number of a given length may have. -/
def allowedDigits (length : Nat) : Nat :=
  if length < 4 then 0 else if length ≤ 6 then 2 else if length ≤ 10 then 3 else 0

/-- Whether a number is written in hexadecimal: it has few different hexadecimal digits, and the share of
different digits is greater by more than a fifth in decimal. -/
def prefersHex (n : Nat) : Bool :=
  let hex := hexDigits n
  let dec := Decimal.digitChars n
  let h := hex.length
  let d := min dec.length 10
  n ≥ 4096 && distinct hex ≤ allowedDigits h &&
    5 * distinct dec * h > 5 * distinct hex * d + h * d

/-- The numeral of an integer. -/
def intText (n : Int) : String :=
  if n ≥ 0 && prefersHex n.toNat then "u0x" ++ String.ofList (hexDigits n.toNat) else toString n

/-- Puts a point into a decimal that has none. -/
def withFraction (s : String) : String :=
  if s.toList.contains '.' then s
  else
    let cs := s.toList
    String.ofList (cs.takeWhile (· ≠ 'e')) ++ ".0" ++ String.ofList (cs.dropWhile (· ≠ 'e'))

/-- The decimal of a single-precision number, if its fewest digits are its value. -/
def decimal? (x : Float32) : Option String :=
  match Decimal.decodeSingle x with
  | .finite negative d =>
    let s := Decimal.shortest d
    if Decimal.compareScaled s.digits s.exponent d.mantissa d.exponent == .eq then
      some (withFraction ((if negative then "-" else "") ++ Decimal.general.lay s))
    else none
  | _ => none

/-- The numeral of a number, rounded to single precision. -/
def floatText (x : Float) : String :=
  let single := x.toFloat32
  (decimal? single).getD ("0x" ++ String.ofList (hexDigits single.toFloat.toBits.toNat))

end SignalLang.Ir
