import SignalLang.Flat.Basic

/-!
# LLVM modules

The part of LLVM's intermediate representation that compiled programs use. A module has two functions, one
for each stream of a flat program, over three packed structs that the host owns. A function is a list of
blocks; each has straight-line instructions and one terminator. Registers and blocks without a name share
one numbering within their function.
-/

namespace SignalLang.Ir

open Flat (Stream Interface LabelId)

/-- A type of the target. A struct is named for the list of variables it holds. -/
inductive Ty where
  | i1
  | i32
  | float
  | array (length : Nat) (elem : Ty)
  | struct (kind : Interface)
  | pointer (target : Ty)
deriving DecidableEq, Repr, Inhabited

/-- The name of the struct of an interface list. -/
def structName : Interface → String
  | .input => "Input"
  | .output => "Output"
  | .static => "Static"

/-- A constant, a parameter of a function, or the result of an instruction. -/
inductive Value where
  | bool (b : Bool)
  | int (n : Int)
  | float (x : Float)
  | param (kind : Interface)
  | register (n : Nat) (ty : Ty)
deriving Inhabited

/-- The type of a value. -/
def Value.ty : Value → Ty
  | .bool _ => .i1
  | .int _ => .i32
  | .float _ => .float
  | .param kind => .pointer (.struct kind)
  | .register _ ty => ty

/-- An operator on two values of one type. -/
inductive ArithOp where
  | add | sub | mul | sdiv | srem
  | fadd | fsub | fmul | fdiv | frem
  | and | or | xor | shl | ashr
deriving DecidableEq, Repr, Inhabited

/-- A function that the target provides for `float`. -/
inductive Intrinsic where
  | sin | cos | sqrt | exp | exp2 | log | log10 | log2 | fabs | floor | ceil | trunc | pow
deriving DecidableEq, Repr, Inhabited

/-- The number of arguments of an intrinsic. -/
def Intrinsic.arity : Intrinsic → Nat
  | .pow => 2
  | _ => 1

/-- Something that computes a value. -/
inductive Op where
  /-- Storage for a local variable. -/
  | alloca (ty : Ty)
  | load (ty : Ty) (source : Value)
  /-- The address of an element; the first index steps over whole values of the type. -/
  | address (ty : Ty) (base : Value) (indexes : List Value) (result : Ty)
  | arith (op : ArithOp) (a b : Value)
  | fneg (a : Value)
  | icmp (c : Flat.Condition) (a b : Value)
  | fcmp (c : Flat.Condition) (a b : Value)
  | select (condition a b : Value)
  | intToFloat (a : Value)
  | floatToInt (a : Value)
  | call (f : Intrinsic) (args : List Value)
deriving Inhabited

/-- The type of what is computed. -/
def Op.ty : Op → Ty
  | .alloca ty => .pointer ty
  | .load ty _ => ty
  | .address _ _ _ result => .pointer result
  | .arith _ a _ => a.ty
  | .fneg a => a.ty
  | .icmp .. | .fcmp .. => .i1
  | .select _ a _ => a.ty
  | .intToFloat _ | .call .. => .float
  | .floatToInt _ => .i32

/-- An instruction inside a block. -/
inductive Instr where
  | define (register : Nat) (op : Op)
  | store (value target : Value)
deriving Inhabited

/-- The name of a block. -/
inductive BlockName where
  | entry
  | label (l : LabelId)
  | number (n : Nat)
deriving DecidableEq, Repr, Inhabited

/-- How a block ends. -/
inductive Terminator where
  | jump (target : BlockName)
  | branch (condition : Value) (ifTrue ifFalse : BlockName)
  | ret (code : Int)
deriving Inhabited

/-- Straight-line code. -/
structure Block where
  name : BlockName
  body : Array Instr
  terminator : Terminator
deriving Inhabited

/-- The structs that the function of a stream takes, in order. -/
def params : Stream → List Interface
  | .staticInit => [.static]
  | .main => [.input, .output, .static]

/-- A module with what a host needs to drive it. -/
structure Module where
  name : String
  triple : String := ""
  /-- The types of the fields of each struct. -/
  fields : Interface → List Ty
  /-- The bytes of each struct. -/
  sizes : Interface → Int
  errors : List String
  staticInit : List Block
  main : List Block
  /-- The functions that are used, in the order of first use. -/
  intrinsics : List Intrinsic

/-- The text of a code that a function returned: none for success, else an entry of the error table. -/
def Module.describe (m : Module) (code : Int) : String :=
  if code = 0 then ""
  else
    let entry? := if code < 0 then none else m.errors[code.toNat - 1]?
    entry?.getD s!"invalid error code {code}"

end SignalLang.Ir
