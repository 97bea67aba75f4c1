import SignalLang.Ty.Basic
import SignalLang.Source.Span
import SignalLang.Decimal.Layout

/-!
# Constants

A `Constant` is a value that is known before the program runs: a number or a truth value, a type, a macro,
or an array of constants.
-/

namespace SignalLang

/-- Where the body of a macro is, and its written signature. -/
structure MacroSite where
  body : Nat
  header : Span
deriving DecidableEq, Repr, Inhabited

/-- A value known before the program runs. -/
inductive Constant where
  | void
  | bool (b : Bool)
  | int (n : Int)
  | float (x : Float)
  | type (b : Bound)
  | macroRef (site : MacroSite)
  | array (items : List Constant)
deriving Inhabited

namespace Constant

/-- A float, written so that it reads back as one. -/
def floatText (x : Float) : String := Decimal.withPoint ['.', 'e', 'E', 'n', 'N'] (Decimal.text x)

/-- The written form of a truth value. -/
def boolText (b : Bool) : String := if b then "TRUE" else "FALSE"

mutual

/-- The written form. -/
def text : Constant → String
  | .void => "VOID"
  | .bool b => boolText b
  | .int n => toString n
  | .float x => floatText x
  | .type b => b.text
  | .macroRef site => s!"macro#{site.body}"
  | .array items => "[" ++ ", ".intercalate (texts items) ++ "]"

/-- The written forms of several constants. -/
def texts : List Constant → List String
  | [] => []
  | c :: cs => c.text :: texts cs

end

mutual

/-- The type of a constant; an array takes the type of its first item. -/
def ty : Constant → Ty
  | .void => .void
  | .bool _ => .bool
  | .int _ => .int
  | .float _ => .float
  | .type _ => .dataType
  | .macroRef _ => .macroRef
  | .array items => .array items.length (firstTy items)

/-- The type of the first item, `VOID` for none. -/
def firstTy : List Constant → Ty
  | [] => .void
  | c :: _ => c.ty

end

end Constant

end SignalLang
