/-!
# Binary floating point as dyadic numbers

A finite positive floating-point number is `mantissa · 2 ^ exponent`. The reals that round to it
reach half way to its neighbours; the neighbour below is nearer by half where the exponent steps.
-/

namespace SignalLang.Decimal

/-- A finite non-negative floating-point number. -/
structure Dyadic where
  mantissa : Nat
  exponent : Int
  /-- The gap to the number below is half the gap to the number above. -/
  narrowBelow : Bool
deriving DecidableEq, Repr

/-- A binary format: bits of the stored fraction and the exponent of its last place at the bottom. -/
structure BinaryFormat where
  fractionBits : Nat
  exponentBits : Nat
  leastExponent : Int

/-- The 64-bit format. -/
def double : BinaryFormat := ⟨52, 11, -1074⟩

/-- The 32-bit format. -/
def single : BinaryFormat := ⟨23, 8, -149⟩

/-- The parts of an encoded number: sign, biased exponent, fraction. -/
def BinaryFormat.split (f : BinaryFormat) (bits : Nat) : Bool × Nat × Nat :=
  let fraction := bits % Nat.pow 2 f.fractionBits
  let rest := bits / Nat.pow 2 f.fractionBits
  (rest / Nat.pow 2 f.exponentBits % 2 = 1, rest % Nat.pow 2 f.exponentBits, fraction)

/-- What an encoded number stands for. -/
inductive Decoded where
  | nan
  | infinite (negative : Bool)
  | finite (negative : Bool) (value : Dyadic)
deriving DecidableEq, Repr

/-- Decodes the bits of a number. -/
def BinaryFormat.decode (f : BinaryFormat) (bits : Nat) : Decoded :=
  let (negative, biased, fraction) := f.split bits
  if biased = Nat.pow 2 f.exponentBits - 1 then
    if fraction = 0 then .infinite negative else .nan
  else if biased = 0 then .finite negative ⟨fraction, f.leastExponent, false⟩
  else
    .finite negative
      ⟨Nat.pow 2 f.fractionBits + fraction, f.leastExponent + (biased - 1),
        fraction = 0 && biased > 1⟩

/-- Decodes a 64-bit number. -/
def decodeDouble (x : Float) : Decoded := double.decode x.toBits.toNat

/-- Decodes a 32-bit number. -/
def decodeSingle (x : Float32) : Decoded := single.decode x.toBits.toNat

end SignalLang.Decimal
