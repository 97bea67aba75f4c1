import SignalLang.Decimal.Dyadic
import SignalLang.LongWord

/-!
# Floating-point arithmetic

`FLOAT` values are 32-bit numbers. They are computed with 64 bits and rounded, so that a result that is
known in advance is the one the program would have computed.
-/

namespace SignalLang.Real

/-- Rounds to a 32-bit number. -/
def round (x : Float) : Float := x.toFloat32.toFloat

/-- The number `± mantissa · 2 ^ exponent`, which must have one. -/
def ofParts (negative : Bool) (mantissa : Nat) (exponent : Int) : Float :=
  let x := (Float.ofNat mantissa).scaleB exponent
  if negative then -x else x

/-- The whole part toward zero, if the number is finite. -/
def truncated? (x : Float) : Option Int :=
  match Decimal.decodeDouble x with
  | .finite negative d =>
    let n : Nat :=
      if d.exponent ≥ 0 then d.mantissa * Nat.pow 2 d.exponent.toNat
      else d.mantissa / Nat.pow 2 (-d.exponent).toNat
    some (if negative then -(n : Int) else n)
  | _ => none

/-- The whole part as a signed 64-bit word. A number outside its range, or none, gives the least word. -/
def toWord64 (x : Float) : Int :=
  ((truncated? x).filter LongWord.inRange).getD LongWord.least

/-- The whole number toward zero. -/
def trunc (x : Float) : Float := if x < 0.0 then x.ceil else x.floor

/-- The exact remainder of a division, with the sign of the dividend. -/
def remainder (x y : Float) : Float :=
  match Decimal.decodeDouble x, Decimal.decodeDouble y with
  | .finite negative a, .finite _ b =>
    if b.mantissa = 0 then 0.0 / 0.0
    else
      let e := min a.exponent b.exponent
      let m := a.mantissa * Nat.pow 2 (a.exponent - e).toNat
      let n := b.mantissa * Nat.pow 2 (b.exponent - e).toNat
      ofParts negative (m % n) e
  | .finite _ _, .infinite _ => x
  | _, _ => 0.0 / 0.0

end SignalLang.Real
