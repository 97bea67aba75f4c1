import SignalLang.Decimal.Shortest

/-!
# Writing decimals

Digits are laid out positionally while the decimal exponent is moderate and with an exponent otherwise.
-/

namespace SignalLang.Decimal

/-- The decisions of a number format. -/
structure NumberFormat where
  /-- The least decimal exponent that is written positionally. -/
  leastPositional : Int
  /-- The least decimal exponent that is written with an exponent again. -/
  firstScientific : Int
  /-- The least number of digits of a written exponent. -/
  exponentWidth : Nat

/-- Numbers are positional from `10 ^ -4` to below `10 ^ 6`; exponents have a sign and two digits. -/
def general : NumberFormat := ⟨-4, 6, 2⟩

/-- The digits of a number, the first one first; zero has the digit `0`. -/
def digitChars (n : Nat) : List Char := Nat.toDigits 10 n

/-- The decimal exponent of the first digit. -/
def Scientific.leadingExponent (d : Scientific) : Int :=
  if d.digits = 0 then 0 else d.exponent + (digitChars d.digits).length - 1

/-- A signed exponent. -/
def NumberFormat.exponentText (n : NumberFormat) (e : Int) : String :=
  let ds := digitChars e.natAbs
  let sign := if e < 0 then "-" else "+"
  "e" ++ sign ++ String.ofList (List.replicate (n.exponentWidth - ds.length) '0' ++ ds)

/-- Digits with a point behind the first, and the exponent. -/
def NumberFormat.scientific (n : NumberFormat) (d : Scientific) : String :=
  let tail := (digitChars d.digits).tail
  let point := if tail.isEmpty then "" else "."
  String.ofList ((digitChars d.digits).take 1) ++ point ++ String.ofList tail ++
    n.exponentText d.leadingExponent

/-- Digits with the point in its place, without needless zeros. -/
def positional (d : Scientific) : String :=
  let ds := digitChars d.digits
  let whole : Int := d.leadingExponent + 1
  if d.digits = 0 then "0"
  else if whole ≤ 0 then "0." ++ String.ofList (List.replicate (-whole).toNat '0' ++ ds)
  else if whole ≥ ds.length then
    String.ofList (ds ++ List.replicate (whole.toNat - ds.length) '0')
  else String.ofList (ds.take whole.toNat) ++ "." ++ String.ofList (ds.drop whole.toNat)

/-- A non-negative decimal in a format. -/
def NumberFormat.lay (n : NumberFormat) (d : Scientific) : String :=
  let e := d.leadingExponent
  if d.digits ≠ 0 ∧ (e < n.leastPositional ∨ e ≥ n.firstScientific) then n.scientific d
  else positional d

/-- A decoded number in a format, with the fewest digits that read back. -/
def NumberFormat.render (n : NumberFormat) : Decoded → String
  | .nan => "NaN"
  | .infinite negative => if negative then "-Inf" else "+Inf"
  | .finite negative x => (if negative then "-" else "") ++ n.lay (shortest x)

/-- A 64-bit number with the fewest digits that read back. -/
def text (x : Float) : String := general.render (decodeDouble x)

/-- Appends `.0` to a text that has none of the given characters. -/
def withPoint (marks : List Char) (s : String) : String :=
  if s.toList.any (marks.contains ·) then s else s ++ ".0"

end SignalLang.Decimal
