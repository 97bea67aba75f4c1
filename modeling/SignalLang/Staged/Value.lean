import SignalLang.Staged.State
import SignalLang.Staged.Fold
import SignalLang.Ty.Promotion

/-!
# Staged values and targets

A staged value is either known or an expression for run time. A staged target is a variable with indexes,
of which the leading known ones select the part whose tracked value a write changes.
-/

namespace SignalLang.Staged

open Scoped (VarId)

/-- What a value is: known in full, or left to run time. A variable read at run time may still be known in
part. -/
inductive Content where
  | known (d : Datum)
  | runtime (e : Expr) (glimpse : Option Glimpse)

/-- A staged value with its type and its text. -/
structure Value where
  content : Content
  ty : Ty
  span : Span

namespace Value

/-- A known value. -/
def known (d : Datum) (ty : Ty) (span : Span) : Value := ⟨.known d, ty, span⟩

/-- A value left to run time. -/
def runtime (e : Expr) (glimpse : Option Glimpse) : Value := ⟨.runtime e glimpse, e.ty, e.span⟩

/-- The datum of a known value. -/
def known? (v : Value) : Option Datum :=
  match v.content with
  | .known d => some d
  | .runtime .. => none

/-- The expression of a value left to run time. -/
def runtime? (v : Value) : Option Expr :=
  match v.content with
  | .known _ => none
  | .runtime e _ => some e

/-- A known type. -/
def type? (v : Value) : Option Bound :=
  match v.content with
  | .known (.type b) => some b
  | _ => none

end Value

/-- A target with its record. `fixed` are the leading known indexes; `dynamic` are all indexes, once one of
them is left to run time. `ty` is the type of what is stored, none while the variable is open. -/
structure Place where
  var : VarId
  record : Nat
  fixed : List Int := []
  dynamic : Option (List Expr) := none
  ty : Option Ty
  span : Span

namespace Stage

/-- A value as an expression; a known one becomes a literal. -/
def asExpr (v : Value) : Stage Expr :=
  match v.content with
  | .runtime e _ => return e
  | .known d =>
    match d.toConstant? with
    | some c => return .literal c v.ty v.span
    | none => refuse (.onlyCompileTime v.span v.ty)

/-- A constant as a datum. A macro can see what the current table holds. -/
def datumOf (c : Constant) : Stage Datum := return .ofConstant (← get).table c

/-- The problem of a variable of the program proper in static initialization. -/
def crossStream {α : Type} (v : VarId) (span : Span) : Stage α := do
  let var ← sourceVar v
  refuse (.crossStream span var.name var.definition)

/-- Reads a variable. Static initialization comes first, so there a variable of the program proper that has
storage has no value yet, even when its value is known here. -/
def readVar (v : VarId) (span : Span) : Stage Value := do
  let (_, r) ← recordOf v
  match r.bound.actual with
  | none =>
    let var ← sourceVar v
    refuse (.readWhileOpen span var.name r.bound var.definition)
  | some ty =>
    let foreign := (← get).inStatic && !r.isStatic
    if foreign && r.slot.isSome then crossStream v span
    else
      let d ← tracked v r
      if d.isKnown then return .known d ty span
      else if foreign then crossStream v span
      else
        match r.slot with
        | none => refuse (.neitherKnownNorRuntime span (← sourceVar v).name ty)
        | some slot =>
          let since := (← get).log.size
          return .runtime (.var slot ty span) (some ⟨v, [], d, since, true⟩)

/-- Checks an index of an array of a length: it must be an integer, and in range if it is known. -/
def checkIndex (index : Value) (length : Int) (whole : Span) : Stage Unit := do
  if index.ty ≠ .int then refuse (.indexNotInt index.span index.ty whole)
  match index.content with
  | .runtime .. => return
  | .known (.int n) =>
    if n < 0 then refuse (.negativeIndex index.span n whole)
    if n ≥ length then refuse (.indexBeyond index.span n length whole)
  | .known _ => breakDown .badShape

/-- The part of a view that a known index selects, if the view shows an array. -/
def glimpseAt (g : Glimpse) (i : Int) : Stage (Option Glimpse) := do
  let g := g.refresh (← get).log
  match g.seen with
  | .array _ => return some (g.narrow i (← orBadShape (g.seen.element? i)))
  | _ => return none

/-- The expression for an element; indexes of an element are joined. -/
def indexExpr (base index : Expr) (ty : Ty) (span : Span) : Expr :=
  match base with
  | .index inner indexes _ _ => .index inner (indexes ++ [index]) ty span
  | base => .index base [index] ty span

/-- The element of a value left to run time, or left to run time because its index is. -/
def runtimeElement (v : Value) (base : Expr) (index : Value) (ty : Ty) (glimpse : Option Glimpse) :
    Stage Value := do
  let e := indexExpr base (← asExpr index) ty (v.span.union index.span)
  return ⟨.runtime e glimpse, ty, e.span⟩

/-- The element of an array at an index that was checked. -/
def elementOf (v : Value) (index : Value) (ty : Ty) (whole : Span) : Stage Value := do
  let span := v.span.union index.span
  match v.content, index.content with
  | .known d, .known (.int i) => return .known (← orBadShape (d.element? i)) ty span
  | .known d, .runtime .. =>
    match d.toConstant? with
    | none => refuse (.runtimeIndexOfValue whole v.ty)
    | some c => runtimeElement v (.literal c v.ty v.span) index ty none
  | .runtime base (some g), .known (.int i) =>
    match ← glimpseAt g i with
    | some part =>
      if part.seen.isKnown then return .known part.seen ty span
      else runtimeElement v base index ty (some part)
    | none => runtimeElement v base index ty none
  | .runtime base _, _ => runtimeElement v base index ty none
  | .known _, .known _ => breakDown .badShape

/-- The types a unary operator takes. -/
def unaryAccepts (op : UnaryOp) (base : Prim) : Bool :=
  match op with
  | .not => base = .bool
  | .bnot | .itof => base = .int
  | .negate | .abs => base = .int || base = .float
  | _ => base = .float

/-- The types a binary operator takes. -/
def binaryAccepts (op : BinaryOp) (base : Prim) : Bool :=
  match op with
  | .add | .subtract | .multiply | .divide | .modulo | .power
  | .lessThan | .greaterThan | .lessOrEqual | .greaterOrEqual => base = .int || base = .float
  | .leftShift | .rightShift | .band | .bor | .bxor => base = .int
  | .and | .or | .xor => base = .bool
  | .equal | .notEqual => base = .bool || base = .int || base = .float || base = .dataType
  | .isIn | .asType => false

/-- The result of computing in advance, or the problem with it. -/
def folded (span : Span) : Except FoldError Datum → Stage Datum
  | .ok d => return d
  | .error .divisionByZero => refuse (.divideByZero span)
  | .error (.negativeExponent n) => refuse (.negativePower span n)
  | .error .mismatch => breakDown .badShape
  | .error .meaningless => breakDown .unreachable

/-- Applies a unary operator. -/
def unaryValue (op : UnaryOp) (v : Value) (span : Span) : Stage Value := do
  if !unaryAccepts op v.ty.base then refuse (.badOperand span op.text v.ty)
  let ty :=
    match op with
    | .ftoi => v.ty.withBase .int
    | .itof => v.ty.withBase .float
    | _ => v.ty
  match v.content with
  | .known d => return .known (← folded span (d.foldUnary op)) ty span
  | .runtime e _ => return .runtime (.unary op e ty span) none

/-- The type on the right of `in` or `as`. -/
def rightType (op : BinaryOp) (v : Value) : Stage Bound := do
  if v.ty ≠ .dataType then refuse (.rightSideNotType v.span op.text v.ty)
  match v.content with
  | .runtime .. => refuse (.rightSideNotType v.span op.text v.ty)
  | .known (.type b) => return b
  | .known _ => breakDown .badShape

/-- Whether the type of a value fits a bound. -/
def isInValue (l r : Value) (span : Span) : Stage Value := do
  let b ← rightType .isIn r
  let fits := Bound.check l.ty b = .fits && b.actual.all (l.ty.promotesTo ·)
  return .known (.bool fits) .bool span

/-- A value stretched to a bigger type. At run time it is copied to a new variable. -/
def asTypeValue (l r : Value) (span : Span) : Stage Value := do
  let b ← rightType .asType r
  match b with
  | ⟨some target, none, none⟩ =>
    if !l.ty.promotesTo target then refuse (.cannotStretch span l.ty target)
    match l.content with
    | .known d => return .known (← orBadShape (d.stretch? target.dims l.ty.dims)) target span
    | .runtime e _ =>
      if l.ty = target then return l
      else
        let slot ← newSlot target span
        emit (.assign ⟨slot, [], target, span⟩ e span)
        return .runtime (.var slot target span) none
  | b => refuse (.asBound r.span b)

/-- Applies a binary operator to the common type of two values. -/
def binaryValue (op : BinaryOp) (l r : Value) (span : Span) : Stage Value := do
  match Ty.biggest? l.ty r.ty with
  | none => refuse (.noCommonType span op.text l.ty r.ty l.span r.span)
  | some common =>
    if !binaryAccepts op common.base then refuse (.badOperands span op.text common)
    let ty := if op.isComparison then common.withBase .bool else common
    match l.content, r.content with
    | .known a, .known b =>
      let d ← folded span (Datum.foldBinary op a b l.ty.dims r.ty.dims common.dims)
      return .known d ty span
    | _, _ =>
      let left ← asExpr l
      let right ← asExpr r
      return .runtime (.binary op left right ty span) none

/-- An attribute of a value. -/
def propertyValue (v : Value) (property : Scoped.Property) (span : Span) : Stage Value := do
  match property with
  | .type => return .known (.type (.exactly v.ty)) .dataType span
  | .dims =>
    let ty ←
      match v.type? with
      | some b =>
        match b.actual with
        | some t => pure t
        | none => refuse (.openDims span b)
      | none => pure v.ty
    match ty.dims with
    | [] => return .known (.int 1) .int span
    | dims => return .known (.array (dims.map .int)) (.array dims.length .int) span

/-- A value as a type; `kind` is the problem when it is none. -/
def typeOf (kind : Problem.Kind) (v : Value) : Stage Bound := do
  if v.ty ≠ .dataType then refuse (.notAType kind v.span v.ty)
  match v.content with
  | .runtime .. => refuse (.typeAtRunTime v.span)
  | .known (.type b) => return b
  | .known _ => breakDown .badShape

/-- A value as a settled type. -/
def concreteTypeOf (span : Span) (v : Value) : Stage Ty := do
  match ← typeOf .notADataType v with
  | ⟨some t, none, none⟩ => return t
  | b => refuse (.notConcrete span b)

/-- A bound from its sides. -/
def boundValue (lower upper : Option Ty) (span : Span) : Stage Value := do
  let b : Bound := ⟨none, lower, upper⟩
  match lower, upper with
  | some l, some u => if !b.isConsistent then refuse (.contradictory span l u)
  | _, _ => pure ()
  return .known (.type b) .dataType span

/-- A value as an array length. -/
def lengthOf (v : Value) : Stage Int := do
  match v.content with
  | .runtime .. => refuse (.sizeAtRunTime v.span)
  | .known (.int n) => if n < 1 then refuse (.sizeBelowOne v.span n) else return n
  | .known _ => refuse (.sizeNotInt v.span v.ty)

/-- An array of values of one type. -/
def collected (items : List Value) (first : Ty) (span : Span) : Stage Value := do
  let ty := Ty.array items.length first
  match items.mapM Value.known? with
  | some data => return .known (.array data) ty span
  | none => return .runtime (.collect (← items.mapM asExpr) ty span) none

/-- Adds a checked index to a place. -/
def addIndex (p : Place) (slot : Option SlotId) (index : Value) (elem : Ty) : Stage Place := do
  match index.content, p.dynamic with
  | .known (.int n), none => return { p with fixed := p.fixed ++ [n], ty := some elem }
  | _, some indexes => return { p with dynamic := some (indexes ++ [← asExpr index]), ty := some elem }
  | _, none =>
    if slot.isNone then
      refuse (.runtimeIndexOfVariable p.span (← sourceVar p.var).name)
    let leading := p.fixed.map fun k => Expr.ofIndex k p.span
    return { p with dynamic := some (leading ++ [← asExpr index]), ty := some elem }

/-- Settles the type of an open variable by the value it is given. -/
def settle (p : Place) (v : Value) : Stage Unit := do
  let r ← record p.record
  let var ← sourceVar p.var
  match Bound.check v.ty r.bound with
  | .tooSmall => refuse (.belowBound v.span v.ty r.bound var.definition)
  | .tooBig => refuse (.aboveBound v.span v.ty r.bound var.definition)
  | .fits =>
    let slot ← if v.ty.isRuntime then some <$> newSlot v.ty var.definition else pure r.slot
    let settled : Record := { r with bound := { r.bound with actual := some v.ty }, slot := slot }
    modify fun s => { s with records := s.records.setIfInBounds p.record settled }

/-- Tracks a known value at a place, stretched to the type of the place. -/
def trackKnown (p : Place) (r : Record) (ty : Ty) (d : Datum) (valueTy : Ty) : Stage Unit := do
  if ty = valueTy then trackAt p.var r p.fixed d
  else
    (coordinates ty.dims).forM fun coord => do
      let elem ← orBadShape (d.item? (broadcast coord valueTy.dims))
      trackAt p.var r (p.fixed ++ coord) elem

/-- Assigns a value to a place: the tracked value changes, and a variable with a slot is assigned at run
time too. An open variable takes the type of the value. -/
def assign (p : Place) (v : Value) (span : Span) : Stage Unit := do
  let ty ←
    match p.ty with
    | none => do
      settle p v
      pure v.ty
    | some ty => do
      if !v.ty.promotesTo ty then refuse (.mismatch span v.ty ty p.span v.span)
      pure ty
  let r ← record p.record
  match v.content, p.dynamic with
  | .known d, none => trackKnown p r ty d v.ty
  | _, _ =>
    if r.slot.isNone then refuse (.cannotHold v.span (← sourceVar p.var).name)
    let dims := r.bound.actual.elim [] Ty.dims
    trackAt p.var r p.fixed (.unknownOf (dims.drop p.fixed.length))
  match r.slot with
  | none => return
  | some slot =>
    let value ← asExpr v
    let indexes := p.dynamic.getD (p.fixed.map fun k => Expr.ofIndex k p.span)
    emit (.assign ⟨slot, indexes, ty, p.span⟩ value span)

end Stage

end SignalLang.Staged
