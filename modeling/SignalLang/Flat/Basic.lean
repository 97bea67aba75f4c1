import SignalLang.Constant
import SignalLang.Ty.Coordinates

/-!
# Flat programs

A flat program has two streams of instructions on single elements: one that initializes statics, run once,
and the main one. Labels are numbered within each stream. An `Operand` is a constant or a variable seen
through a view: some leading indexes are fixed, and each dimension that is left either passes its index on,
drops it, or pins it to zero, so a value is stretched without being copied.
-/

namespace SignalLang.Flat

/-- The number of a variable. -/
abbrev VarId := Nat

/-- The number of a label within its stream. -/
abbrev LabelId := Nat

/-- Where a variable lives. Fields of the static struct outlive a run; the bodies are local to a stream. -/
inductive Location where
  | input
  | output
  | static
  | staticBody
  | mainBody
  | unknown
deriving DecidableEq, Repr, Inhabited

/-- The name of a location. -/
def Location.text : Location → String
  | .input => "input"
  | .output => "output"
  | .static => "static"
  | .staticBody => "static_body"
  | .mainBody => "main_body"
  | .unknown => "unknown"

/-- A storage slot. -/
structure Variable where
  ty : Option Ty
  location : Location
deriving DecidableEq, Repr, Inhabited

/-- What becomes of an index in one dimension of a view. -/
inductive Mode where
  /-- The index is passed on. -/
  | keep
  /-- The index is dropped; what is viewed has no such dimension. -/
  | discard
  /-- The index becomes zero; what is viewed has length one there. -/
  | collapse
deriving DecidableEq, Repr, Inhabited

/-- One dimension of a view. -/
structure Dim where
  length : Int
  mode : Mode
deriving DecidableEq, Repr, Inhabited

/-- What is viewed: a constant, or a variable under fixed indexes. -/
inductive Viewed where
  | constant (value : Constant)
  | variable (id : VarId) (coord : List Int)
deriving Inhabited

/-- A constant or a variable seen through a view. -/
structure Operand where
  viewed : Viewed
  dims : List Dim := []
deriving Inhabited

/-- How two numbers compare. -/
inductive Condition where
  | lt | gt | le | ge | eq | ne
deriving DecidableEq, Repr, Inhabited

namespace Condition

/-- The name of a condition. -/
def text : Condition → String
  | .lt => "lt"
  | .gt => "gt"
  | .le => "le"
  | .ge => "ge"
  | .eq => "eq"
  | .ne => "ne"

/-- The condition that holds exactly when the given one does not. -/
def negate : Condition → Condition
  | .lt => .ge
  | .gt => .le
  | .le => .gt
  | .ge => .lt
  | .eq => .ne
  | .ne => .eq

@[simp] theorem negate_negate (c : Condition) : c.negate.negate = c := by
  cases c <;> rfl

end Condition

/-- An instruction's operator on one element. -/
inductive UnaryOp where
  | negI | negF | not | bnot
  | sin | cos | sqrt | exp | exp2 | log | log10 | log2
  | absF | absI | floor | ceil | trunc | ftoi | itof
deriving DecidableEq, Repr, Inhabited

/-- The name of a unary operator. -/
def UnaryOp.text : UnaryOp → String
  | .negI => "negi"
  | .negF => "negf"
  | .not => "not"
  | .bnot => "bnot"
  | .sin => "fsin"
  | .cos => "fcos"
  | .sqrt => "fsqrt"
  | .exp => "fexp"
  | .exp2 => "fexp2"
  | .log => "flog"
  | .log10 => "flog10"
  | .log2 => "flog2"
  | .absF => "fabs"
  | .absI => "iabs"
  | .floor => "ffloor"
  | .ceil => "fceil"
  | .trunc => "ftrunc"
  | .ftoi => "ftoi"
  | .itof => "itof"

/-- An instruction's operator on two elements. `compareI` takes words and truth values. -/
inductive BinaryOp where
  | addI | subI | mulI | divI | modI | powI
  | addF | subF | mulF | divF | modF | powF
  | band | bor | bxor | shl | shr
  | and | or | xor
  | compareI (c : Condition)
  | compareF (c : Condition)
deriving DecidableEq, Repr, Inhabited

/-- The name of a binary operator, with the condition of a comparison. -/
def BinaryOp.text : BinaryOp → String
  | .addI => "addi"
  | .subI => "subi"
  | .mulI => "muli"
  | .divI => "divi"
  | .modI => "modi"
  | .powI => "powi"
  | .addF => "addf"
  | .subF => "subf"
  | .mulF => "mulf"
  | .divF => "divf"
  | .modF => "modf"
  | .powF => "powf"
  | .band => "band"
  | .bor => "bor"
  | .bxor => "bxor"
  | .shl => "shl"
  | .shr => "shr"
  | .and => "and"
  | .or => "or"
  | .xor => "xor"
  | .compareI c => "compi " ++ c.text
  | .compareF c => "compf " ++ c.text

/-- An instruction. The indexes of `load` and `store` start with a zero that stands for the variable itself.
A `missing` instruction is one that was left out. -/
inductive Instr where
  | move (source target : Operand)
  | load (base : Operand) (indexes : List Operand) (target : Operand)
  | store (source base : Operand) (indexes : List Operand)
  | unary (op : UnaryOp) (a target : Operand)
  | binary (op : BinaryOp) (a b target : Operand)
  | label (l : LabelId)
  | jump (l : LabelId)
  | branch (condition : Operand) (ifTrue ifFalse : LabelId)
  /-- Ends the run with an entry of the error table. -/
  | abort (code : Int)
  | missing
deriving Inhabited

/-- One of the two streams. -/
inductive Stream where
  | staticInit
  | main
deriving DecidableEq, Repr

/-- The name of a stream. -/
def Stream.text : Stream → String
  | .staticInit => "static_init"
  | .main => "main"

/-- Where the local variables of a stream live. -/
def Stream.location : Stream → Location
  | .staticInit => .staticBody
  | .main => .mainBody

/-- The kind of a list of variables in the interface of a program. -/
inductive Interface where
  | input
  | output
  | static
deriving DecidableEq, Repr

/-- The name of an interface list. -/
def Interface.text : Interface → String
  | .input => "input"
  | .output => "output"
  | .static => "static"

/-- Where the variables of an interface list live. -/
def Interface.location : Interface → Location
  | .input => .input
  | .output => .output
  | .static => .static

/-- A whole program. -/
structure Program where
  vars : Array Variable := #[]
  staticInit : Array Instr := #[]
  main : Array Instr := #[]
  staticLabels : Nat := 0
  mainLabels : Nat := 0
  errors : Array String := #[]
  inputs : List VarId := []
  outputs : List VarId := []
  statics : List VarId := []
deriving Inhabited

namespace Program

/-- The instructions of a stream. -/
def stream (p : Program) : Stream → Array Instr
  | .staticInit => p.staticInit
  | .main => p.main

/-- The number of labels of a stream. -/
def labelCount (p : Program) : Stream → Nat
  | .staticInit => p.staticLabels
  | .main => p.mainLabels

/-- The variables of an interface list. -/
def interface (p : Program) : Interface → List VarId
  | .input => p.inputs
  | .output => p.outputs
  | .static => p.statics

/-- Appends an instruction to a stream. -/
def emit (p : Program) (s : Stream) (i : Instr) : Program :=
  match s with
  | .staticInit => { p with staticInit := p.staticInit.push i }
  | .main => { p with main := p.main.push i }

/-- Makes a label of a stream; its number is the old number of labels. -/
def addLabel (p : Program) (s : Stream) : Program :=
  match s with
  | .staticInit => { p with staticLabels := p.staticLabels + 1 }
  | .main => { p with mainLabels := p.mainLabels + 1 }

/-- Appends a variable; its number is the old number of variables. -/
def addVariable (p : Program) (v : Variable) : Program := { p with vars := p.vars.push v }

/-- Appends an entry to the error table; its code is the old number of entries. -/
def addError (p : Program) (text : String) : Program := { p with errors := p.errors.push text }

/-- The variables at a location, in order. -/
def variablesAt (p : Program) (location : Location) : List VarId :=
  (p.vars.toList.zipIdx.filter fun (v, _) => v.location = location).map (·.2)

end Program

end SignalLang.Flat
