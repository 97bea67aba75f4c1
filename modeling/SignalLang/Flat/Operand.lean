import SignalLang.Flat.Basic

/-!
# Views

Operations on operands: taking an element, and stretching to a bigger shape. Stretching aligns dimensions at
the outermost one; a dimension that is missing behind the last is dropped from every index, and one of length
one is pinned.
-/

namespace SignalLang.Flat

namespace Operand

/-- The view of a whole value of a type. -/
def whole (ty : Ty) : List Dim := ty.dims.map fun d => ⟨d, .keep⟩

/-- All of a constant. -/
def ofConstant (c : Constant) : Operand := ⟨.constant c, whole c.ty⟩

/-- An integer. -/
def ofInt (n : Int) : Operand := ⟨.constant (.int n), []⟩

/-- All of a variable of a type; a variable without a type has no dimensions. -/
def ofVariable (id : VarId) (ty : Option Ty) : Operand := ⟨.variable id [], ty.elim [] whole⟩

/-- Whether a constant is viewed. -/
def isConstant (o : Operand) : Bool :=
  match o.viewed with
  | .constant _ => true
  | .variable .. => false

/-- Whether a single element is viewed. -/
def isScalar (o : Operand) : Bool := o.dims.isEmpty

/-- Whether some dimension is stretched. -/
def isStretched (o : Operand) : Bool := o.dims.any (·.mode ≠ .keep)

/-- The lengths of a view. -/
def lengths (o : Operand) : List Int := o.dims.map (·.length)

/-- The fixed indexes of a variable. -/
def coord (o : Operand) : List Int :=
  match o.viewed with
  | .constant _ => []
  | .variable _ coord => coord

/-- The type a view presents, given the types of variables. -/
def ty? (o : Operand) (vars : Array Variable) : Option Ty :=
  match o.viewed with
  | .constant c => some (.arrayOf o.lengths (.prim c.ty.base))
  | .variable id _ => do
    let v ← vars[id]?
    let ty ← v.ty
    return .arrayOf o.lengths (.prim ty.base)

/-- Fixes one index of what is viewed. An index of a constant must be in range. -/
def select? (v : Viewed) (i : Int) : Option Viewed :=
  match v with
  | .constant (.array items) => if i < 0 then none else items[i.toNat]?.map .constant
  | .constant _ => none
  | .variable id coord => some (.variable id (coord ++ [i]))

/-- The element at an index of the outermost dimension. -/
def index? (o : Operand) (i : Int) : Option Operand :=
  match o.dims with
  | [] => none
  | d :: dims =>
    match d.mode with
    | .discard => some ⟨o.viewed, dims⟩
    | .collapse => (select? o.viewed 0).map (⟨·, dims⟩)
    | .keep => (select? o.viewed i).map (⟨·, dims⟩)

/-- The element at a coordinate. -/
def at? : Operand → (coord : List Int) → Option Operand
  | o, [] => some o
  | o, c :: cs => (o.index? c).bind (·.at? cs)

/-- Why a view cannot be stretched. -/
inductive StretchError where
  | tooManyDims
  | wrongLength (dimension : Nat) (length : Int)
deriving DecidableEq, Repr

/-- Stretches dimensions to lengths; `i` is the number of the first dimension. -/
def stretchDims (i : Nat) : List Dim → (target : List Int) → Except StretchError (List Dim)
  | [], target => .ok (target.map fun n => ⟨n, .discard⟩)
  | _ :: _, [] => .error .tooManyDims
  | d :: ds, n :: ns => do
    let first ←
      if d.length = n then .ok d
      else if d.length = 1 then .ok ⟨n, .collapse⟩
      else .error (.wrongLength i d.length)
    return first :: (← stretchDims (i + 1) ds ns)

/-- Stretches a view to lengths. -/
def stretch (o : Operand) (target : List Int) : Except StretchError Operand :=
  if o.dims.length > target.length then .error .tooManyDims
  else (stretchDims 0 o.dims target).map fun dims => { o with dims := dims }

mutual

/-- The text of a constant, with the width of its elements. -/
def constantText : Constant → String
  | .int n => s!"{n}i32"
  | .float x => Constant.floatText x ++ "f32"
  | .bool b => (if b then "true" else "false") ++ "b1"
  | .array items => "[" ++ ", ".intercalate (constantTexts items) ++ "]"
  | c => c.text

/-- The texts of constants. -/
def constantTexts : List Constant → List String
  | [] => []
  | c :: cs => constantText c :: constantTexts cs

end

/-- The text of one dimension. -/
def dimText (d : Dim) : String :=
  match d.mode with
  | .keep => toString d.length
  | .discard => s!"{d.length}>X"
  | .collapse => s!"{d.length}>1"

/-- The text of an operand: its dimensions in braces, then what is viewed. -/
def text (o : Operand) : String :=
  let dims :=
    if o.dims.isEmpty then "" else "\x7b" ++ ", ".intercalate (o.dims.map dimText) ++ "\x7d"
  match o.viewed with
  | .constant c => dims ++ constantText c
  | .variable id coord => dims ++ s!"tv{id}" ++ String.join (coord.map fun c => s!"[{c}]")

/-- Numbers in brackets, divided by blanks. -/
def numbersText (ns : List Int) : String := "[" ++ " ".intercalate (ns.map toString) ++ "]"

/-- The words for a view that cannot be stretched. -/
def StretchError.message (o : Operand) (target : List Int) (e : StretchError) : String :=
  let head := s!"cannot inflate {o.text} to {numbersText target}: "
  match e with
  | .tooManyDims => head ++ "too many dimensions"
  | .wrongLength i n => head ++ s!"dimension {i} has length {n}"

end Operand

end SignalLang.Flat
