import SignalLang.Ir.Generate
import SignalLang.Proofs.Flat.Machine

/-!
# Running functions

The machine of a function has registers and a memory. An address is a root, which is a struct or the storage that
an `alloca` made, with the indexes that lead from there to a cell; the memory has a scalar for each cell there is.
An `alloca` only names its storage, whose contents are part of the memory. What the operations on scalars
compute is a parameter, and `Arithmetic.operators` is what the groups of operations for the operators of flat
programs compute then. Integers in the code have 32 bits: a constant is the word that its number is reduced to, be
it an operand, an index or what is returned.

A function is in a block at a position: before an instruction, or before the terminator. It stops when it returns,
and where an instruction cannot be carried out, as for an access to a cell that is not there.
-/

namespace SignalLang.Ir

open Flat (Stream Interface LabelId VarId Operand Scalar Store Element)

/-- Where storage begins. -/
inductive Root where
  | struct (kind : Interface)
  /-- The storage that the `alloca` of a register made. -/
  | stack (register : Nat)
deriving DecidableEq

/-- A place in the memory. -/
structure Address where
  root : Root
  path : List Int
deriving DecidableEq

/-- The place that more indexes lead to. -/
def Address.below (a : Address) (path : List Int) : Address := ⟨a.root, a.path ++ path⟩

@[simp] theorem Address.below_nil (a : Address) : a.below [] = a := by simp [below]

/-- What a register holds. -/
inductive Held where
  | scalar (x : Scalar)
  | address (a : Address)

abbrev Registers := Nat → Option Held

/-- Sets a register. -/
def Registers.set (r : Registers) (n : Nat) (x : Held) : Registers := fun m => if m = n then some x else r m

@[simp] theorem Registers.set_self (r : Registers) (n : Nat) (x : Held) : r.set n x n = some x := if_pos rfl

theorem Registers.set_of_ne {r : Registers} {n m : Nat} (x : Held) (h : m ≠ n) : r.set n x m = r m := if_neg h

/-- The scalar in each cell. -/
abbrev Memory := Address → Option Scalar

/-- Replaces the contents of a cell. -/
def Memory.write (m : Memory) (a : Address) (x : Scalar) : Memory := fun b => if b = a then some x else m b

/-- What the operations of the target compute. -/
structure Arithmetic where
  arith : ArithOp → Scalar → Scalar → Scalar
  fneg : Scalar → Scalar
  icmp : Flat.Condition → Scalar → Scalar → Scalar
  fcmp : Flat.Condition → Scalar → Scalar → Scalar
  select : Scalar → Scalar → Scalar → Scalar
  intToFloat : Scalar → Scalar
  floatToInt : Scalar → Scalar
  call : Intrinsic → List Scalar → Scalar

namespace Arithmetic

/-- What the operations for a unary operator compute. -/
def unary (A : Arithmetic) : Flat.UnaryOp → Scalar → Scalar
  | .negI, x => A.arith .sub (.int 0) x
  | .negF, x => A.fneg x
  | .not, x => A.arith .xor x (.bool true)
  | .bnot, x => A.arith .xor x (.int (-1))
  | .sin, x => A.call .sin [x]
  | .cos, x => A.call .cos [x]
  | .sqrt, x => A.call .sqrt [x]
  | .exp, x => A.call .exp [x]
  | .exp2, x => A.call .exp2 [x]
  | .log, x => A.call .log [x]
  | .log10, x => A.call .log10 [x]
  | .log2, x => A.call .log2 [x]
  | .absF, x => A.call .fabs [x]
  | .absI, x => A.select (A.icmp .lt x (.int 0)) (A.arith .sub (.int 0) x) x
  | .floor, x => A.call .floor [x]
  | .ceil, x => A.call .ceil [x]
  | .trunc, x => A.call .trunc [x]
  | .ftoi, x => A.floatToInt x
  | .itof, x => A.intToFloat x

/-- What the operations for a binary operator compute. -/
def binary (A : Arithmetic) : Flat.BinaryOp → Scalar → Scalar → Scalar
  | .addI, x, y => A.arith .add x y
  | .subI, x, y => A.arith .sub x y
  | .mulI, x, y => A.arith .mul x y
  | .divI, x, y => A.arith .sdiv x y
  | .modI, x, y => A.arith .srem x y
  | .powI, x, y => A.floatToInt (A.call .pow [A.intToFloat x, A.intToFloat y])
  | .addF, x, y => A.arith .fadd x y
  | .subF, x, y => A.arith .fsub x y
  | .mulF, x, y => A.arith .fmul x y
  | .divF, x, y => A.arith .fdiv x y
  | .modF, x, y => A.arith .frem x y
  | .powF, x, y => A.call .pow [x, y]
  | .band, x, y | .and, x, y => A.arith .and x y
  | .bor, x, y | .or, x, y => A.arith .or x y
  | .bxor, x, y | .xor, x, y => A.arith .xor x y
  | .shl, x, y => A.arith .shl x y
  | .shr, x, y => A.arith .ashr x y
  | .compareI c, x, y => A.icmp c x y
  | .compareF c, x, y => A.fcmp c x y

/-- The operators of flat programs, each read as the operations that are generated for it. -/
def operators (A : Arithmetic) : Flat.Operators := ⟨A.unary, A.binary⟩

end Arithmetic

namespace Value

/-- What a value is. A constant integer is a word. -/
def eval? (r : Registers) : Value → Option Held
  | .bool b => some (.scalar (.bool b))
  | .int n => some (.scalar (.int (Word.wrap n)))
  | .float x => some (.scalar (.float x))
  | .param kind => some (.address ⟨.struct kind, []⟩)
  | .register n _ => r n

def scalar? (r : Registers) (v : Value) : Option Scalar :=
  match v.eval? r with
  | some (.scalar x) => some x
  | _ => none

def address? (r : Registers) (v : Value) : Option Address :=
  match v.eval? r with
  | some (.address a) => some a
  | _ => none

/-- A value as an index. -/
def index? (r : Registers) (v : Value) : Option Int := (v.scalar? r).bind Scalar.index?

end Value

/-- What an operation gives for register `n`. The first index of an address steps over whole values, and only
the value itself is there. -/
def Op.eval? (A : Arithmetic) (m : Memory) (r : Registers) (n : Nat) : Op → Option Held
  | .alloca _ => some (.address ⟨.stack n, []⟩)
  | .load _ source => do return .scalar (← m (← source.address? r))
  | .address _ base indexes _ => do
    let a ← base.address? r
    match ← indexes.mapM (Value.index? r) with
    | 0 :: path => return .address (a.below path)
    | _ => none
  | .arith op a b => do return .scalar (A.arith op (← a.scalar? r) (← b.scalar? r))
  | .fneg a => do return .scalar (A.fneg (← a.scalar? r))
  | .icmp c a b => do return .scalar (A.icmp c (← a.scalar? r) (← b.scalar? r))
  | .fcmp c a b => do return .scalar (A.fcmp c (← a.scalar? r) (← b.scalar? r))
  | .select condition a b => do
    return .scalar (A.select (← condition.scalar? r) (← a.scalar? r) (← b.scalar? r))
  | .intToFloat a => do return .scalar (A.intToFloat (← a.scalar? r))
  | .floatToInt a => do return .scalar (A.floatToInt (← a.scalar? r))
  | .call f args => do return .scalar (A.call f (← args.mapM (Value.scalar? r)))

/-- A state of a function: in a block at a position, or back from it. -/
inductive State where
  | running (block : BlockName) (position : Nat) (registers : Registers) (memory : Memory)
  | returned (code : Int) (memory : Memory)

/-- The state behind an instruction, with what is written. -/
def Instr.after? (A : Arithmetic) (k : BlockName) (i : Nat) (r : Registers) (m : Memory) :
    Instr → Option (List (Address × Scalar) × State)
  | .define n op => do return ([], .running k (i + 1) (r.set n (← op.eval? A m r n)) m)
  | .store value target => do
    let x ← value.scalar? r
    let a ← target.address? r
    let _ ← m a
    return ([(a, x)], .running k (i + 1) r (m.write a x))

/-- The state behind a terminator. -/
def Terminator.after? (r : Registers) (m : Memory) : Terminator → Option State
  | .jump target => some (.running target 0 r m)
  | .branch condition ifTrue ifFalse => do
    let x ← condition.scalar? r
    return .running (if x.isTrue then ifTrue else ifFalse) 0 r m
  | .ret code => some (.returned (Word.wrap code) m)

/-- A step of a function. -/
def step? (A : Arithmetic) (blocks : List Block) : Machine State (Address × Scalar)
  | .running k i r m => do
    let block ← blocks.find? (·.name = k)
    match block.body[i]? with
    | some instr => instr.after? A k i r m
    | none => return ([], ← block.terminator.after? r m)
  | .returned .. => none

/-- The blocks that a terminator goes to. -/
def Terminator.targets : Terminator → List BlockName
  | .jump target => [target]
  | .branch _ ifTrue ifFalse => [ifTrue, ifFalse]
  | .ret _ => []

/-- The function of a stream. -/
def Module.blocks (m : Module) : Stream → List Block
  | .staticInit => m.staticInit
  | .main => m.main

end SignalLang.Ir
