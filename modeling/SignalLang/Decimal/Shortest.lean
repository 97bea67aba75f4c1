import SignalLang.Decimal.Dyadic

/-!
# The fewest digits that read back

`shortest x` is a decimal with as few digits as possible among those that round to the binary number
`x`, and of these the nearest to it; a tie goes to the even last digit. The search runs over the decimal
grids from coarse to fine and tests, in exact arithmetic, the two neighbours of `x` on each.
-/

namespace SignalLang.Decimal

/-- The number `digits · 10 ^ exponent`. -/
structure Scientific where
  digits : Nat
  exponent : Int
deriving DecidableEq, Repr, Inhabited

/-- Compares `a · 10 ^ i` with `n · 2 ^ j`. -/
def compareScaled (a : Nat) (i : Int) (n : Nat) (j : Int) : Ordering :=
  compare (a * Nat.pow 10 i.toNat * Nat.pow 2 (-j).toNat)
    (n * Nat.pow 2 j.toNat * Nat.pow 10 (-i).toNat)

/-- Whether a decimal lies among the reals that round to `x`; the ends belong to an even mantissa. -/
def Dyadic.readsBack (x : Dyadic) (d : Scientific) : Bool :=
  let least := if x.narrowBelow then 4 * x.mantissa - 1 else 4 * x.mantissa - 2
  let greatest := 4 * x.mantissa + 2
  let closed := x.mantissa % 2 = 0
  let low := compareScaled d.digits d.exponent least (x.exponent - 2)
  let high := compareScaled d.digits d.exponent greatest (x.exponent - 2)
  (low == .gt || (closed && low == .eq)) && (high == .lt || (closed && high == .eq))

/-- The least `k` with `x < 10 ^ k`, searched upwards from `k` for at most `steps` steps. -/
def scaleFrom (x : Dyadic) : (steps : Nat) → Int → Int
  | 0, k => k
  | steps + 1, k =>
    if compareScaled 1 k x.mantissa x.exponent == .gt then k else scaleFrom x steps (k + 1)

/-- The least `k` with `x < 10 ^ k`, for a positive number. -/
def scale (x : Dyadic) : Int :=
  let bits : Int := x.exponent + x.mantissa.log2
  scaleFrom x 4 (bits * 30103 / 100000 - 1)

/-- The largest multiple of `10 ^ e` that is not above `x`. -/
def floorOn (x : Dyadic) (e : Int) : Nat :=
  (x.mantissa * Nat.pow 2 x.exponent.toNat * Nat.pow 10 (-e).toNat)
    / (Nat.pow 10 e.toNat * Nat.pow 2 (-x.exponent).toNat)

/-- The neighbour of `x` on the grid `10 ^ e` that reads back, the nearer one if both do. -/
def onGrid? (x : Dyadic) (e : Int) : Option Scientific :=
  let below : Scientific := ⟨floorOn x e, e⟩
  let above : Scientific := ⟨below.digits + 1, e⟩
  match x.readsBack below, x.readsBack above with
  | false, false => none
  | true, false => some below
  | false, true => some above
  | true, true =>
    match compareScaled (2 * below.digits + 1) e (2 * x.mantissa) x.exponent with
    | .gt => some below
    | .lt => some above
    | .eq => some (if below.digits % 2 = 0 then below else above)

/-- Moves trailing zeros of the digits into the exponent. -/
def stripZeros : (fuel : Nat) → Scientific → Scientific
  | 0, d => d
  | fuel + 1, d =>
    if d.digits ≠ 0 ∧ d.digits % 10 = 0 then stripZeros fuel ⟨d.digits / 10, d.exponent + 1⟩ else d

/-- The exact value of a dyadic number. -/
def exact (x : Dyadic) : Scientific :=
  if x.exponent ≥ 0 then ⟨x.mantissa * Nat.pow 2 x.exponent.toNat, 0⟩
  else ⟨x.mantissa * Nat.pow 5 (-x.exponent).toNat, x.exponent⟩

/-- The shortest decimal that reads back as `x`. -/
def shortest (x : Dyadic) : Scientific :=
  if x.mantissa = 0 then ⟨0, 0⟩
  else
    let k := scale x
    let found := (List.range 17).findSome? fun (n : Nat) => onGrid? x (k - (n + 1))
    let d := found.getD (exact x)
    stripZeros 800 d

end SignalLang.Decimal
