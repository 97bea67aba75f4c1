import SignalLang.LongWord

/-!
# Types

A type is a primitive or an array of fixed length. A `Bound` is what is known about the type of a
value: the type itself once it is settled, and the types it must lie between.
-/

namespace SignalLang

/-- A type that is no array. `dataType` is the type of type values, `macroRef` that of macros. -/
inductive Prim where
  | void
  | bool
  | int
  | float
  | dataType
  | macroRef
deriving DecidableEq, Repr, Inhabited

/-- The written name of a primitive type. -/
def Prim.text : Prim → String
  | .void => "VOID"
  | .bool => "BOOL"
  | .int => "INT"
  | .float => "FLOAT"
  | .dataType => "DATA_TYPE"
  | .macroRef => "MACRO"

/-- A concrete type. -/
inductive Ty where
  | prim (p : Prim)
  | array (length : Int) (elem : Ty)
deriving DecidableEq, Repr, Inhabited

namespace Ty

/-- The type `VOID`. -/
abbrev void : Ty := .prim .void
/-- The type `BOOL`. -/
abbrev bool : Ty := .prim .bool
/-- The type `INT`. -/
abbrev int : Ty := .prim .int
/-- The type `FLOAT`. -/
abbrev float : Ty := .prim .float
/-- The type `DATA_TYPE`. -/
abbrev dataType : Ty := .prim .dataType
/-- The type `MACRO`. -/
abbrev macroRef : Ty := .prim .macroRef

/-- The written form: lengths in brackets, outermost first, then the primitive. -/
def text : Ty → String
  | .prim p => p.text
  | .array n t => s!"[{n}]{t.text}"

/-- Wraps `base` in arrays, the first length outermost. -/
def arrayOf (dims : List Int) (base : Ty) : Ty := dims.foldr .array base

/-- The lengths of an array type, outermost first; a primitive has none. -/
def dims : Ty → List Int
  | .prim _ => []
  | .array n t => n :: t.dims

/-- The innermost type. -/
def base : Ty → Prim
  | .prim p => p
  | .array _ t => t.base

/-- Replaces the innermost type, keeping the lengths. -/
def withBase (t base : Ty) : Ty := arrayOf t.dims base

/-- The type of an element. An optional index leaves a value that is no array as it is. -/
def indexed? (optional : Bool) : Ty → Option Ty
  | .array _ t => some t
  | t@(.prim _) => if optional then some t else none

/-- Whether values of this type can be held while the program runs. -/
def isRuntime (t : Ty) : Bool :=
  match t.base with
  | .bool | .int | .float => true
  | .void | .dataType | .macroRef => false

/-- Whether the type is an array type. -/
def isArray : Ty → Bool
  | .array .. => true
  | .prim _ => false

/-- The number of scalar elements, as a signed 64-bit word. -/
def size (t : Ty) : Int := LongWord.wrap (t.dims.foldl (· * ·) 1)

@[simp] theorem dims_arrayOf (ds : List Int) (t : Ty) : (arrayOf ds t).dims = ds ++ t.dims := by
  induction ds with
  | nil => rfl
  | cons d ds ih => simp only [arrayOf, List.foldr_cons, dims, List.cons_append, List.cons.injEq] at *; simpa using ih

@[simp] theorem base_arrayOf (ds : List Int) (t : Ty) : (arrayOf ds t).base = t.base := by
  induction ds with
  | nil => rfl
  | cons d ds ih => simpa only [arrayOf, List.foldr_cons, base] using ih

/-- A type is determined by its lengths and its primitive. -/
@[simp] theorem arrayOf_dims_base (t : Ty) : arrayOf t.dims (.prim t.base) = t := by
  induction t with
  | prim p => rfl
  | array n t ih => simp only [dims, base, arrayOf, List.foldr_cons] at *; rw [ih]

end Ty

/-- What is known about the type of a value. Without any side it is `AUTO`. -/
structure Bound where
  actual : Option Ty := none
  lower : Option Ty := none
  upper : Option Ty := none
deriving DecidableEq, Repr, Inhabited

namespace Bound

/-- Nothing is known. -/
def auto : Bound := {}

/-- The type is known to be `t`. -/
def exactly (t : Ty) : Bound := { actual := some t }

/-- Whether the type is still open. -/
def isAutomatic (b : Bound) : Bool := b.actual.isNone

/-- Applies a change to every side. -/
def map (f : Ty → Ty) (b : Bound) : Bound := ⟨b.actual.map f, b.lower.map f, b.upper.map f⟩

/-- Replaces the innermost type of every side. -/
def withBase (b : Bound) (base : Ty) : Bound := b.map (·.withBase base)

/-- Puts every side inside arrays. -/
def wrap (b : Bound) (dims : List Int) : Bound := b.map (Ty.arrayOf dims)

/-- The written form: a settled type alone, or `<lower, upper>` with the settled type behind it. -/
def text (b : Bound) : String :=
  if b.lower.isNone ∧ b.upper.isNone then b.actual.elim "AUTO" (·.text)
  else
    let lower := b.lower.elim "" (·.text ++ ", ")
    let upper := b.upper.elim "AUTO" (·.text)
    let actual := b.actual.elim "" (" = " ++ ·.text)
    s!"<{lower}{upper}>{actual}"

end Bound

end SignalLang
