import SignalLang.Ty.Basic

/-!
# Promotion

`Ty.biggest? a b` is the smallest type that both `a` and `b` promote to. Arrays of one length combine
their elements, an array of length one stretches to any length, and a value that is no array stretches to
any array. A type promotes to another when the two combine to the latter.
-/

namespace SignalLang

namespace Ty

/-- The common length of two array lengths: equal lengths agree, and one stretches. -/
def commonLength? (m n : Int) : Option Int :=
  if m = n then some m
  else if m = 1 then some n
  else if n = 1 then some m
  else none

/-- The smallest type both promote to. -/
def biggest? : Ty → Ty → Option Ty
  | .prim p, t => if t.base = p then some t else none
  | .array m s, .prim q => if s.base = q then some (.array m s) else none
  | .array m s, .array n t =>
    match commonLength? m n with
    | none => none
    | some length => (biggest? s t).map (.array length)

/-- Whether a value of type `a` can be stored in type `b`. -/
def promotesTo (a b : Ty) : Bool := biggest? a b = some b

end Ty

/-- How a type lies with respect to a bound. -/
inductive Fit where
  | fits
  | tooSmall
  | tooBig
deriving DecidableEq, Repr

namespace Bound

/-- Combines one side of two bounds; a missing side takes the other's. The outer option is failure. -/
def biggestSide? : Option Ty → Option Ty → Option (Option Ty)
  | none, b => some b
  | a, none => some a
  | some a, some b => (Ty.biggest? a b).map some

/-- Compares a type with the lower side, then with the upper side. -/
def check (t : Ty) (b : Bound) : Fit :=
  if b.lower.any fun l => !l.promotesTo t then .tooSmall
  else if b.upper.any fun u => !t.promotesTo u then .tooBig
  else .fits

/-- The lower side promotes to the upper one, and a settled type lies between them. -/
def isConsistent (b : Bound) : Bool :=
  let ordered :=
    match b.lower, b.upper with
    | some l, some u => l.promotesTo u
    | _, _ => true
  ordered && b.actual.all fun t => check t b = .fits

/-- Combines two bounds side by side; the result must be consistent. -/
def biggest? (a b : Bound) : Option Bound := do
  let actual ← biggestSide? a.actual b.actual
  let lower ← biggestSide? a.lower b.lower
  let upper ← biggestSide? a.upper b.upper
  let out : Bound := ⟨actual, lower, upper⟩
  if out.isConsistent then some out else none

end Bound

end SignalLang
