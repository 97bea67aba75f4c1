import SignalLang.Constant
import SignalLang.Ty.Coordinates

/-!
# What is known about a value

A `Datum` is a value as far as it is known before the program runs. An array may have known and unknown
elements. A macro comes with the `Table` of the variables it can see.

Functions that look into an array fail on a datum of another shape.
-/

namespace SignalLang.Staged

/-- Which record holds what is known about each variable; the first entry of a variable counts. -/
abbrev Table := List (Nat × Nat)

/-- A value as far as it is known. -/
inductive Datum where
  | unknown
  | void
  | bool (b : Bool)
  | int (n : Int)
  | float (x : Float)
  | type (b : Bound)
  | macroRef (site : MacroSite) (context : Table)
  | array (items : List Datum)
deriving Inhabited

namespace Datum

/-- A datum of the given lengths of which nothing is known. -/
def unknownOf : (dims : List Int) → Datum
  | [] => .unknown
  | d :: ds => .array (List.replicate d.toNat (unknownOf ds))

mutual

/-- Whether a datum has no unknown part. -/
def isKnown : Datum → Bool
  | .unknown => false
  | .array items => allKnown items
  | _ => true

/-- Whether several data have no unknown part. -/
def allKnown : List Datum → Bool
  | [] => true
  | d :: ds => d.isKnown && allKnown ds

end

mutual

/-- A constant as a datum; macros can see the variables of `context`. -/
def ofConstant (context : Table) : Constant → Datum
  | .void => .void
  | .bool b => .bool b
  | .int n => .int n
  | .float x => .float x
  | .type b => .type b
  | .macroRef site => .macroRef site context
  | .array items => .array (ofConstants context items)

/-- Constants as data. -/
def ofConstants (context : Table) : List Constant → List Datum
  | [] => []
  | c :: cs => ofConstant context c :: ofConstants context cs

end

mutual

/-- A datum as a constant of a runtime type. -/
def toConstant? : Datum → Option Constant
  | .bool b => some (.bool b)
  | .int n => some (.int n)
  | .float x => some (.float x)
  | .array items => (toConstants? items).map .array
  | _ => none

/-- Data as constants of runtime types. -/
def toConstants? : List Datum → Option (List Constant)
  | [] => some []
  | d :: ds => do
    let c ← toConstant? d
    let cs ← toConstants? ds
    return c :: cs

end

/-- An element of an array. -/
def element? (i : Int) : Datum → Option Datum
  | .array items => if i < 0 then none else items[i.toNat]?
  | _ => none

/-- The element at a coordinate. -/
def item? : Datum → (coord : List Int) → Option Datum
  | d, [] => some d
  | d, c :: cs => (d.element? c).bind (·.item? cs)

/-- Replaces the element at a coordinate. -/
def set? : Datum → (coord : List Int) → Datum → Option Datum
  | _, [], v => some v
  | .array items, c :: cs, v =>
    if c < 0 then none
    else do
      let old ← items[c.toNat]?
      let new ← old.set? cs v
      return .array (items.set c.toNat new)
  | _, _ :: _, _ => none

/-- Stretches a datum of lengths `shape` to the lengths `dims`. -/
def stretch? : (dims : List Int) → (shape : List Int) → Datum → Option Datum
  | [], _, d => some d
  | n :: dims, [], d => do
    let inner ← stretch? dims [] d
    return .array (List.replicate n.toNat inner)
  | n :: dims, m :: shape, d => do
    let items ← (indexesBelow n).mapM fun i => do
      stretch? dims shape (← d.element? (if m = 1 then 0 else i))
    return .array items

end Datum

end SignalLang.Staged
