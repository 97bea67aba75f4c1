import SignalLang.Flat.Operand
import SignalLang.Source.Library
import SignalLang.Staged.Basic

/-!
# Flattening staged programs

`lower` takes a staged program apart into instructions on single elements. An elementwise operation becomes
one instruction for each coordinate of its result, its operands stretched to the result first; a branch
becomes tests and jumps; a loop tests its counter before the first round and after each one.

The main stream is made first. Its local variables do not exist while statics are initialized, so a use of
one there is an error.
-/

namespace SignalLang.Flat

open Staged (SlotId ScopeId)

/-- Why a program cannot be flattened. -/
inductive Obstacle where
  | mainVariable (id : SlotId)
  | indexNotElement (index : Operand)
  | stretch (o : Operand) (target : List Int) (e : Operand.StretchError)
  | missingExpr
  | missingStmt
  | noInstruction (op : SignalLang.BinaryOp) (base : Prim)
  /-- A number that names no variable or scope, an index that is no integer, or an element that is not
  there. -/
  | broken

/-- The words for an obstacle; what is broken has none. -/
def Obstacle.message? : Obstacle → Option String
  | .mainVariable id => some s!"variable {id} of the main body is used while initializing statics"
  | .indexNotElement index => some s!"index {index.text} is not a scalar"
  | .stretch o target e => some (e.message o target)
  | .missingExpr => some "unexpected expression <nil>"
  | .missingStmt => some "unexpected statement <nil>"
  | .noInstruction op base => some s!"no instruction for {op.text} on {base.text}"
  | .broken => none

/-- An obstacle with the stream it was met in. -/
structure LowerError where
  stream : Stream
  obstacle : Obstacle

/-- The words for an error. -/
def LowerError.message? (e : LowerError) : Option String :=
  let place :=
    match e.stream with
    | .main => "main"
    | .staticInit => "static init"
  e.obstacle.message?.map fun m => s!"{place}: {m}"

/-- The instruction for a unary operator on elements of a type. -/
def UnaryOp.select (op : SignalLang.UnaryOp) (base : Prim) : UnaryOp :=
  match op with
  | .negate => if base = .float then .negF else .negI
  | .abs => if base = .float then .absF else .absI
  | .not => .not
  | .bnot => .bnot
  | .sin => .sin
  | .cos => .cos
  | .sqrt => .sqrt
  | .exp => .exp
  | .exp2 => .exp2
  | .log => .log
  | .log10 => .log10
  | .log2 => .log2
  | .floor => .floor
  | .ceil => .ceil
  | .trunc => .trunc
  | .ftoi => .ftoi
  | .itof => .itof

/-- The instruction for a binary operator on elements of a type. -/
def BinaryOp.select? (op : SignalLang.BinaryOp) (base : Prim) : Option BinaryOp :=
  let pick (i f : BinaryOp) : Option BinaryOp := some (if base = .float then f else i)
  let compare (c : Condition) : Option BinaryOp := pick (.compareI c) (.compareF c)
  match op with
  | .lessThan => compare .lt
  | .greaterThan => compare .gt
  | .lessOrEqual => compare .le
  | .greaterOrEqual => compare .ge
  | .equal => compare .eq
  | .notEqual => compare .ne
  | .add => pick .addI .addF
  | .subtract => pick .subI .subF
  | .multiply => pick .mulI .mulF
  | .divide => pick .divI .divF
  | .modulo => pick .modI .modF
  | .power => pick .powI .powF
  | .band => some .band
  | .bor => some .bor
  | .bxor => some .bxor
  | .leftShift => some .shl
  | .rightShift => some .shr
  | .and => some .and
  | .or => some .or
  | .xor => some .xor
  | .isIn | .asType => none

/-- What flattening works with and never changes. -/
structure LowerContext where
  source : Staged.Program
  /-- The words for a place in the source. -/
  describe : Span → String

/-- What has been made so far. `slots` gives the variable of each slot in the stream that is being made. -/
structure LowerState where
  out : Program := {}
  stream : Stream := .main
  slots : Array (Option VarId) := #[]
  /-- The slots that exist in the main stream only, once it is finished. -/
  mainOnly : Array Bool := #[]
deriving Inhabited

/-- A step of flattening. -/
abbrev Lower := ReaderT LowerContext (StateT LowerState (Except LowerError))

namespace Lower

/-- Stops at an obstacle. -/
def stop {α : Type} (o : Obstacle) : Lower α := do throw ⟨(← get).stream, o⟩

/-- The value of something that only a broken program can lack. -/
def orBroken {α : Type} : Option α → Lower α
  | some a => return a
  | none => stop .broken

/-- Appends an instruction. -/
def emit (i : Instr) : Lower Unit :=
  modify fun s => { s with out := s.out.emit s.stream i }

/-- Makes a label. -/
def label : Lower LabelId := do
  let s ← get
  let l := s.out.labelCount s.stream
  modify fun s => { s with out := s.out.addLabel s.stream }
  return l

/-- Makes a variable. -/
def newVariable (ty : Ty) (location : Location) : Lower VarId := do
  let id := (← get).out.vars.size
  modify fun s => { s with out := s.out.addVariable ⟨some ty, location⟩ }
  return id

/-- Makes a variable for an intermediate value. -/
def temp (ty : Ty) : Lower Operand := do
  return .ofVariable (← newVariable ty (← get).stream.location) (some ty)

/-- The variable of a slot, made at a location when it is new. -/
def variableAt (slot : SlotId) (location : Location) : Lower VarId := do
  match (← get).slots.getD slot none with
  | some id => return id
  | none =>
    let v ← orBroken (← read).source.vars[slot]?
    let id ← newVariable v.ty location
    modify fun s => { s with slots := s.slots.setIfInBounds slot (some id) }
    return id

/-- All of the variable of a slot. -/
def ofSlot (slot : SlotId) : Lower Operand := do
  let s ← get
  if s.mainOnly.getD slot false then stop (.mainVariable slot)
  else
    let id ← variableAt slot s.stream.location
    return .ofVariable id (((← get).out.vars[id]?).bind (·.ty))

/-- Stretches an operand. -/
def stretch (o : Operand) (target : List Int) : Lower Operand :=
  match o.stretch target with
  | .ok o => return o
  | .error e => stop (.stretch o target e)

/-- Moves every element of one operand into another, stretching the first. -/
def copyInto (source target : Operand) : Lower Unit := do
  let dims := target.lengths
  let source ← stretch source dims
  (coordinates dims).forM fun c => do
    emit (.move (← orBroken (source.at? c)) (← orBroken (target.at? c)))

/-- The indexes as numbers, when all of them are constants. -/
def constantIndexes? : List Staged.Expr → Lower (Option (List Int))
  | [] => return some []
  | .literal (.int n) _ _ :: rest => do
    return (← constantIndexes? rest).map (n :: ·)
  | .literal .. :: _ => stop .broken
  | _ :: _ => return none

/-- An operand that indexes computed at run time can select from: a variable, all of whose dimensions are
its own. -/
def addressable (o : Operand) : Lower (VarId × List Int) := do
  let inMemory : Lower (VarId × List Int) := do
    let ty ← orBroken (o.ty? (← get).out.vars)
    let id ← newVariable ty (← get).stream.location
    copyInto o (.ofVariable id (some ty))
    return (id, [])
  match o.viewed with
  | .constant _ => inMemory
  | .variable id coord => if o.isStretched then inMemory else return (id, coord)

mutual

/-- Emits what computes an expression, and returns where its value is. -/
def expr : Staged.Expr → Lower Operand
  | .literal value _ _ => return .ofConstant value
  | .var id _ _ => ofSlot id
  | .index base indexes ty _ => do
    let base ← expr base
    match ← constantIndexes? indexes with
    | some coord => orBroken (base.at? coord)
    | none =>
      let (id, coord) ← addressable base
      let indexes := .ofInt 0 :: coord.map .ofInt ++ (← indexOperands indexes)
      let whole := Operand.ofVariable id (((← get).out.vars[id]?).bind (·.ty))
      let result ← temp ty
      (coordinates ty.dims).forM fun c => do
        emit (.load whole (indexes ++ c.map .ofInt) (← orBroken (result.at? c)))
      return result
  | .collect items ty _ => do
    let result ← temp ty
    collect result 0 items
    return result
  | .unary op operand ty _ => do
    let a ← expr operand
    let x ← temp ty
    (coordinates ty.dims).forM fun c => do
      emit (.unary (.select op operand.ty.base) (← orBroken (a.at? c)) (← orBroken (x.at? c)))
    return x
  | .binary op left right ty _ => do
    let a ← expr left
    let b ← expr right
    match BinaryOp.select? op left.ty.base with
    | none => stop (.noInstruction op left.ty.base)
    | some instr =>
      let a ← stretch a ty.dims
      let b ← stretch b ty.dims
      let x ← temp ty
      (coordinates ty.dims).forM fun c => do
        emit (.binary instr (← orBroken (a.at? c)) (← orBroken (b.at? c)) (← orBroken (x.at? c)))
      return x
  | .missing => stop .missingExpr

/-- Indexes computed at run time. -/
def indexOperands : List Staged.Expr → Lower (List Operand)
  | [] => return []
  | e :: rest => do
    let o ← expr e
    if o.isScalar then return o :: (← indexOperands rest)
    else stop (.indexNotElement o)

/-- Moves items into the elements of an array, from an index on. -/
def collect (result : Operand) (i : Nat) : List Staged.Expr → Lower Unit
  | [] => return
  | e :: rest => do
    let o ← expr e
    copyInto o (← orBroken (result.index? i))
    collect result (i + 1) rest

end

/-- An assignment. Constant indexes select the target in place; others make stores. -/
def assign (target : Staged.Target) (value : Staged.Expr) : Lower Unit := do
  let whole ← ofSlot target.var
  match ← constantIndexes? target.indexes with
  | some coord =>
    let o ← expr value
    copyInto o (← orBroken (whole.at? coord))
  | none =>
    let indexes := .ofInt 0 :: (← indexOperands target.indexes)
    let o ← expr value
    let o ← stretch o target.ty.dims
    (coordinates target.ty.dims).forM fun c => do
      emit (.store (← orBroken (o.at? c)) whole (indexes ++ c.map .ofInt))

/-- An assertion: a jump over an abort, which has an entry of its own in the error table. -/
def assertion (condition : Staged.Expr) (span : Span) : Lower Unit := do
  let condition ← expr condition
  let abort ← label
  let skip ← label
  emit (.branch condition skip abort)
  emit (.label abort)
  let code := (← get).out.errors.size
  let text := "assertion failed at " ++ (← read).describe span
  modify fun s => { s with out := s.out.addError text }
  emit (.abort code)
  emit (.label skip)

/-- The clauses of a branch: each a test, a body and a jump to the end. -/
def clauses (scope : ScopeId → Lower Unit) (done : LabelId) : List Staged.Clause → Lower Unit
  | [] => return
  | c :: rest => do
    let condition ← expr c.condition
    let body ← label
    let next ← label
    emit (.branch condition body next)
    emit (.label body)
    scope c.body
    emit (.jump done)
    emit (.label next)
    clauses scope done rest

/-- A branch. -/
def branch (scope : ScopeId → Lower Unit) (cs : List Staged.Clause) (otherwise : Option ScopeId) :
    Lower Unit := do
  let done ← label
  clauses scope done cs
  match otherwise with
  | some body => scope body
  | none => pure ()
  emit (.label done)

/-- A loop, tested before the first round and after each one. -/
def loop (scope : ScopeId → Lower Unit) (counter : SlotId) (start stop : Staged.Expr) (body : ScopeId) :
    Lower Unit := do
  let again ← label
  let done ← label
  let counter ← ofSlot counter
  let start ← expr start
  let stop ← expr stop
  emit (.move start counter)
  let condition ← temp .bool
  let test : Lower Unit := do
    emit (.binary (.compareI .lt) counter stop condition)
    emit (.branch condition again done)
  test
  emit (.label again)
  scope body
  emit (.binary .addI counter (.ofInt 1) counter)
  test
  emit (.label done)

/-- A statement. -/
def stmt (scope : ScopeId → Lower Unit) : Staged.Stmt → Lower Unit
  | .assign target value _ => assign target value
  | .assert condition span => assertion condition span
  | .branch cs otherwise _ => branch scope cs otherwise
  | .loop counter start stop body _ => loop scope counter start stop body
  | .inlined body _ => scope body
  | .missing => Lower.stop .missingStmt

/-- The statements of a scope and of the scopes inside it; `fuel` bounds their nesting. -/
def scope : (fuel : Nat) → ScopeId → Lower Unit
  | 0, _ => stop .broken
  | fuel + 1, id => do
    let body ← orBroken (← read).source.scopes[id]?
    body.toList.forM (stmt (scope fuel))

/-- The variables of a list of the interface. -/
def interface (slots : List SlotId) (location : Location) : Lower (List VarId) :=
  slots.mapM fun v => variableAt v location

/-- The whole program. -/
def program : Lower Program := do
  let p := (← read).source
  modify fun s => { s with slots := Array.replicate p.vars.size none }
  let statics ← interface p.statics .static
  modify fun s => { s with out := { s.out with statics := statics } }
  let shared := (← get).slots
  let inputs ← interface p.inputs .input
  let outputs ← interface p.outputs .output
  modify fun s => { s with out := { s.out with inputs := inputs, outputs := outputs } }
  let depth := p.scopes.size + 1
  scope depth p.entry
  modify fun s => { s with
    stream := .staticInit
    slots := shared
    mainOnly := (s.slots.zip shared).map fun (used, kept) => used.isSome && kept.isNone }
  scope depth p.staticInit
  return (← get).out

end Lower

/-- Flattens a staged program. Failed assertions are told apart by their places in the library, or by
their line and column without one. -/
def lower (source : Staged.Program) (library : Option Library) : Except LowerError Program :=
  let describe (span : Span) : String := library.elim span.text (·.describe span)
  ((Lower.program.run ⟨source, describe⟩).run {}).map (·.1)

end SignalLang.Flat
