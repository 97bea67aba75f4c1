import SignalLang.Flat.Print
import SignalLang.Ir.Basic
import SignalLang.LongWord
import SignalLang.Real
import SignalLang.Word

/-!
# Generating LLVM modules

`generate` makes a module from a flat program. A variable is a field of a struct or local storage; a label
starts a block, and the block before it falls through. Code behind a jump is never reached but still gets
a block, which has a number in place of a name.

A function returns zero when its stream runs to the end, and one more than the code of an abort.
-/

namespace SignalLang.Ir

open Flat (Stream Interface LabelId VarId Operand)

/-- Why no module can be made. -/
inductive Obstacle where
  | noRuntimeForm (ty : Option SignalLang.Ty)
  | noSuchField (kind : Interface) (field : Nat) (id : VarId)
  | declaredTwice (id : VarId)
  | undeclared (id : VarId) (location : Flat.Location)
  | placedTwice (l : LabelId)
  | neverPlaced (l : LabelId)
  | noErrorText (code : Int)
  | constantAddress (o : Operand)
  | unavailable (id : VarId) (stream : Stream)
  | notElement (o : Operand)
  | notScalar (c : Constant)
  | missingInstr
  /-- Values of types that an instruction cannot take. -/
  | mistyped

/-- The words for an obstacle; ill-typed instructions have none. -/
def Obstacle.message? : Obstacle → Option String
  | .noRuntimeForm ty => some (s!"type " ++ ty.elim "<nil>" (·.text) ++ " has no runtime representation")
  | .noSuchField kind field id =>
    some s!"{structName kind} field {field} refers to missing variable tv{id}"
  | .declaredTwice id => some s!"tv{id} is declared twice"
  | .undeclared id location => some s!"tv{id} is stored as {location.text} but is not declared as one"
  | .placedTwice l => some s!"label l{l} is placed twice"
  | .neverPlaced l => some s!"label l{l} is never placed"
  | .noErrorText code => some s!"abort code {code} has no error description"
  | .constantAddress o => some s!"{o.text} is a literal and has no address"
  | .unavailable id stream => some s!"tv{id} is not available in @{stream.text}"
  | .notElement o => some s!"{o.text} is not a single element"
  | .notScalar c => some s!"literal {c.text} is not a runtime scalar"
  | .missingInstr => some "unsupported instruction <nil>"
  | .mistyped => none

/-- The part of a stream an obstacle is met in. -/
inductive Site where
  | storage (id : VarId)
  | instruction (number : Nat) (instr : Flat.Instr)

/-- The words for a site. -/
def Site.text : Site → String
  | .storage id => s!"tv{id}"
  | .instruction n instr => s!"instruction {n} ({instr.text})"

/-- An obstacle with the place it is met at. -/
structure GenerateError where
  stream : Option Stream := none
  site : Option Site := none
  obstacle : Obstacle

/-- The words for an error. -/
def GenerateError.message? (e : GenerateError) : Option String :=
  let stream := e.stream.elim "" fun s => s.text ++ ": "
  let site := e.site.elim "" fun s => s.text ++ ": "
  e.obstacle.message?.map fun m => "llvmir: " ++ stream ++ site ++ m

/-- The form of a type in the target. -/
def Ty.ofRuntime? : SignalLang.Ty → Option Ty
  | .prim .bool => some .i1
  | .prim .int => some .i32
  | .prim .float => some .float
  | .prim _ => none
  | .array n t => (ofRuntime? t).map (.array (LongWord.unsigned n))

/-- The form of a type in the target; one without a form is an obstacle, named by its innermost type. -/
def Ty.ofRuntime (ty : Option SignalLang.Ty) : Except Obstacle Ty :=
  match ty with
  | none => .error (.noRuntimeForm none)
  | some t =>
    match ofRuntime? t with
    | some form => .ok form
    | none => .error (.noRuntimeForm (some (.prim t.base)))

/-- The bytes of a type in a packed struct. A truth value takes one. -/
def byteSize (t : SignalLang.Ty) : Int := if t.base = .bool then t.size else 4 * t.size

/-- The element that indexes select from a type, if they can. -/
def Ty.select? : Ty → (indexes : Nat) → Option Ty
  | t, 0 => some t
  | .array _ t, n + 1 => t.select? n
  | _, _ + 1 => none

/-- The constant for a scalar. Integers are reduced to a word and numbers rounded to single precision. -/
def Value.ofConstant? : Constant → Option Value
  | .bool b => some (.bool b)
  | .int n => some (.int (Word.wrap n))
  | .float x => some (.float (Real.round x))
  | _ => none

/-- The types of the fields of a struct. `seen` holds the variables of the structs before it. -/
def structFields (p : Flat.Program) (kind : Interface) : (seen : List VarId) → (field : Nat) →
    List VarId → Except Obstacle (List Ty)
  | _, _, [] => .ok []
  | seen, field, id :: ids => do
    match p.vars[id]? with
    | none => .error (.noSuchField kind field id)
    | some v =>
      if seen.contains id then .error (.declaredTwice id)
      else
        let first ← Ty.ofRuntime v.ty
        return first :: (← structFields p kind (id :: seen) (field + 1) ids)

/-- What the generation of a function works with and never changes. -/
structure Context where
  program : Flat.Program
  /-- The types of the fields of each struct. -/
  fields : Interface → List Ty
  stream : Stream

/-- A function that is being made. Instructions go to the block `current`; behind a terminator there is
none until the next label. -/
structure Builder where
  finished : Array Block := #[]
  current : Option BlockName := some .entry
  body : Array Instr := #[]
  /-- The next free number for a register or a block. -/
  next : Nat := 0
  /-- The address of each variable that the stream may touch. -/
  addresses : Array (Option Value) := #[]
  /-- The labels that have been placed. -/
  placed : List LabelId := []
  /-- The labels that are jumped to, the latest first. -/
  mentioned : List LabelId := []
  intrinsics : List Intrinsic := []

/-- A step of generation. -/
abbrev Generate := ReaderT Context (StateT Builder (Except Obstacle))

namespace Generate

/-- The value of something that only ill-typed code can lack. -/
def orMistyped {α : Type} : Option α → Generate α
  | some a => return a
  | none => throw .mistyped

/-- Takes a number. -/
def number : Generate Nat := do
  let n := (← get).next
  modify fun b => { b with next := n + 1 }
  return n

/-- Opens a block for code that follows a terminator. -/
def ensureBlock : Generate Unit := do
  if (← get).current.isNone then
    let n ← number
    modify fun b => { b with current := some (.number n) }

/-- Appends an instruction. -/
def push (i : Instr) : Generate Unit := do
  ensureBlock
  modify fun b => { b with body := b.body.push i }

/-- Appends something that computes a value. -/
def define (op : Op) : Generate Value := do
  ensureBlock
  let n ← number
  push (.define n op)
  return .register n op.ty

/-- Closes the current block. -/
def terminate (t : Terminator) : Generate Unit := do
  ensureBlock
  modify fun b => { b with
    finished := b.finished.push ⟨b.current.getD .entry, b.body, t⟩, current := none, body := #[] }

/-- The block of a label that is jumped to. -/
def target (l : LabelId) : Generate BlockName := do
  modify fun b => { b with mentioned := l :: b.mentioned }
  return .label l

/-- The function of an intrinsic, noted at its first use. -/
def intrinsic (f : Intrinsic) (args : List Value) : Generate Value := do
  modify fun b => { b with
    intrinsics := if b.intrinsics.contains f then b.intrinsics else b.intrinsics ++ [f] }
  define (.call f args)

/-- An index that an address can have. -/
def checkIndex : Value → Generate Unit
  | .float _ => throw .mistyped
  | _ => return

/-- The address of an element below a variable's own address. -/
def addressBelow (id : VarId) (base : Value) (indexes : List Value) : Generate Value := do
  let ty ← Ty.ofRuntime (((← read).program.vars[id]?).bind (·.ty))
  indexes.forM checkIndex
  let result ← orMistyped (ty.select? (indexes.length - 1))
  define (.address ty base indexes result)

/-- The address of what an operand views. -/
def address (o : Operand) : Generate Value := do
  match o.viewed with
  | .constant _ => throw (.constantAddress o)
  | .variable id coord =>
    match (← get).addresses.getD id none with
    | none => throw (.unavailable id (← read).stream)
    | some base =>
      if coord.isEmpty then return base
      else addressBelow id base (.int 0 :: coord.map .int)

/-- The type of what an operand views. -/
def typeOf (o : Operand) : Generate Ty := do
  let vars := (← read).program.vars
  match o.viewed with
  | .constant _ => Ty.ofRuntime (o.ty? vars)
  | .variable id _ =>
    let v ← orMistyped vars[id]?
    Ty.ofRuntime (v.ty.map fun ty => .arrayOf o.lengths (.prim ty.base))

/-- The value of an operand. -/
def load (o : Operand) : Generate Value := do
  if !o.isScalar then throw (.notElement o)
  match o.viewed with
  | .constant c =>
    match Value.ofConstant? c with
    | some v => return v
    | none => throw (.notScalar c)
  | .variable .. =>
    let source ← address o
    define (.load (← typeOf o) source)

/-- Stores a value at an address. -/
def storeAt (value target : Value) : Generate Unit := do
  if target.ty = .pointer value.ty then push (.store value target) else throw .mistyped

/-- Stores a value in an operand. -/
def store (value : Value) (o : Operand) : Generate Unit := do
  if !o.isScalar then throw (.notElement o)
  storeAt value (← address o)

/-- The address that indexes computed at run time select. -/
def indexed (base : Operand) (indexes : List Operand) : Generate Value := do
  let pointer ← address base
  match base.viewed with
  | .constant _ => throw (.constantAddress base)
  | .variable id _ =>
    let _ ← Ty.ofRuntime (((← read).program.vars[id]?).bind (·.ty))
    let values ← indexes.mapM load
    addressBelow id pointer values

/-- Computes a comparison of integers. -/
def compareInts (c : Flat.Condition) (a b : Value) : Generate Value :=
  match a.ty with
  | .i1 | .i32 | .pointer _ => define (.icmp c a b)
  | _ => throw .mistyped

/-- Computes a comparison of numbers. -/
def compareFloats (c : Flat.Condition) (a b : Value) : Generate Value :=
  match a.ty with
  | .float => define (.fcmp c a b)
  | _ => throw .mistyped

/-- Computes a unary operator. -/
def unary (op : Flat.UnaryOp) (a : Value) : Generate Value :=
  match op with
  | .sin => intrinsic .sin [a]
  | .cos => intrinsic .cos [a]
  | .sqrt => intrinsic .sqrt [a]
  | .exp => intrinsic .exp [a]
  | .exp2 => intrinsic .exp2 [a]
  | .log => intrinsic .log [a]
  | .log10 => intrinsic .log10 [a]
  | .log2 => intrinsic .log2 [a]
  | .absF => intrinsic .fabs [a]
  | .floor => intrinsic .floor [a]
  | .ceil => intrinsic .ceil [a]
  | .trunc => intrinsic .trunc [a]
  | .negI => define (.arith .sub (.int 0) a)
  | .negF => define (.fneg a)
  | .not => define (.arith .xor a (.bool true))
  | .bnot => define (.arith .xor a (.int (-1)))
  | .absI => do
    let isNegative ← compareInts .lt a (.int 0)
    let negated ← define (.arith .sub (.int 0) a)
    define (.select isNegative negated a)
  | .ftoi => define (.floatToInt a)
  | .itof => define (.intToFloat a)

/-- Computes a binary operator. The power of integers goes through numbers. -/
def binary (op : Flat.BinaryOp) (a b : Value) : Generate Value :=
  match op with
  | .addI => define (.arith .add a b)
  | .subI => define (.arith .sub a b)
  | .mulI => define (.arith .mul a b)
  | .divI => define (.arith .sdiv a b)
  | .modI => define (.arith .srem a b)
  | .powI => do
    let x ← define (.intToFloat a)
    let y ← define (.intToFloat b)
    let power ← intrinsic .pow [x, y]
    define (.floatToInt power)
  | .addF => define (.arith .fadd a b)
  | .subF => define (.arith .fsub a b)
  | .mulF => define (.arith .fmul a b)
  | .divF => define (.arith .fdiv a b)
  | .modF => define (.arith .frem a b)
  | .powF => intrinsic .pow [a, b]
  | .band | .and => define (.arith .and a b)
  | .bor | .or => define (.arith .or a b)
  | .bxor | .xor => define (.arith .xor a b)
  | .shl => define (.arith .shl a b)
  | .shr => define (.arith .ashr a b)
  | .compareI c => compareInts c a b
  | .compareF c => compareFloats c a b

/-- Places a label: the block before it falls through. -/
def place (l : LabelId) : Generate Unit := do
  let b ← get
  if b.placed.contains l then throw (.placedTwice l)
  if b.current.isSome then terminate (.jump (.label l))
  modify fun b => { b with current := some (.label l), placed := l :: b.placed }

/-- An instruction. -/
def instr : Flat.Instr → Generate Unit
  | .move source target => do store (← load source) target
  | .load base indexes target => do
    let source ← indexed base indexes
    let ty ← typeOf target
    store (← define (.load ty source)) target
  | .store source base indexes => do
    let value ← load source
    storeAt value (← indexed base indexes)
  | .unary op a target => do store (← unary op (← load a)) target
  | .binary op a b target => do
    let a ← load a
    let b ← load b
    store (← binary op a b) target
  | .label l => place l
  | .jump l => do terminate (.jump (← target l))
  | .branch condition ifTrue ifFalse => do
    let condition ← load condition
    terminate (.branch condition (← target ifTrue) (← target ifFalse))
  | .abort code => do
    if 0 ≤ code ∧ code < (← read).program.errors.size then terminate (.ret (code + 1))
    else throw (.noErrorText code)
  | .missing => throw .missingInstr

/-- The number of a variable among the fields of the struct that declares it. -/
def fieldNumber? (p : Flat.Program) (id : VarId) : Option Nat :=
  [Interface.input, .output, .static].findSome? fun kind => (p.interface kind).idxOf? id

/-- The address of a variable, if the stream may touch it. -/
def storage (id : VarId) (v : Flat.Variable) (ty : Ty) : Generate (Option Value) := do
  let field (kind : Interface) : Generate (Option Value) := do
    match fieldNumber? (← read).program id with
    | some i =>
      let found ← orMistyped ((← read).fields kind)[i]?
      return some (← define (.address (.struct kind) (.param kind) [.int 0, .int i] found))
    | none => throw (.undeclared id v.location)
  match (← read).stream, v.location with
  | _, .static => field .static
  | .main, .input => field .input
  | .main, .output => field .output
  | .main, .mainBody => return some (← define (.alloca ty))
  | .staticInit, .staticBody => return some (← define (.alloca ty))
  | _, _ => return none

/-- Runs a step; an obstacle is placed. -/
def placing {α : Type} (site : Option Site) (ctx : Context) (b : Builder) (act : Generate α) :
    Except GenerateError (α × Builder) :=
  match (act.run ctx).run b with
  | .ok r => .ok r
  | .error o => .error ⟨some ctx.stream, site, o⟩

/-- The addresses of all variables, made in the first block. -/
def storageAll (ctx : Context) : List (Flat.Variable × Nat) → Builder → Except GenerateError Builder
  | [], b => .ok b
  | (v, id) :: rest, b => do
    let (ty, b) ← placing (some (.storage id)) ctx b (Ty.ofRuntime v.ty)
    let (address, b) ← placing none ctx b (storage id v ty)
    storageAll ctx rest { b with addresses := b.addresses.push address }

/-- The instructions of a stream. -/
def instrs (ctx : Context) : List (Flat.Instr × Nat) → Builder → Except GenerateError Builder
  | [], b => .ok b
  | (i, n) :: rest, b => do
    let (_, b) ← placing (some (.instruction n i)) ctx b (instr i)
    instrs ctx rest b

/-- Ends a function: every label must have been placed, and a block that is open returns zero. -/
def finish : Generate Unit := do
  let b ← get
  match b.mentioned.reverse.find? (!b.placed.contains ·) with
  | some l => throw (.neverPlaced l)
  | none => if b.current.isSome then terminate (.ret 0)

/-- The blocks of the function of a stream, with the intrinsics used so far. -/
def function (ctx : Context) (intrinsics : List Intrinsic) :
    Except GenerateError (List Block × List Intrinsic) := do
  let b ← storageAll ctx ctx.program.vars.toList.zipIdx { intrinsics := intrinsics }
  let b ← instrs ctx (ctx.program.stream ctx.stream).toList.zipIdx b
  let (_, b) ← placing none ctx b finish
  return (b.finished.toList, b.intrinsics)

end Generate

/-- The bytes of the struct of an interface list, as a signed 64-bit word. -/
def structSize (p : Flat.Program) (kind : Interface) : Int :=
  let sizes := (p.interface kind).map fun id =>
    (((p.vars[id]?).bind (·.ty)).elim 0 byteSize)
  LongWord.wrap (sizes.foldl (· + ·) 0)

/-- Makes the module of a program. -/
def generate (p : Flat.Program) (name triple : String) : Except GenerateError Module := do
  let declare (kind : Interface) (seen : List VarId) : Except GenerateError (List Ty) :=
    (structFields p kind seen 0 (p.interface kind)).mapError fun o => ⟨none, none, o⟩
  let inputs ← declare .input []
  let outputs ← declare .output p.inputs
  let statics ← declare .static (p.inputs ++ p.outputs)
  let fields : Interface → List Ty
    | .input => inputs
    | .output => outputs
    | .static => statics
  let (main, intrinsics) ← Generate.function ⟨p, fields, .main⟩ []
  let (staticInit, intrinsics) ← Generate.function ⟨p, fields, .staticInit⟩ intrinsics
  return {
    name := name
    triple := triple
    fields := fields
    sizes := structSize p
    errors := p.errors.toList
    staticInit := staticInit
    main := main
    intrinsics := intrinsics }

end SignalLang.Ir
