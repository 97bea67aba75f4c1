import SignalLang.Staged.Datum
import SignalLang.Operator
import SignalLang.Real
import SignalLang.Word

/-!
# Computing in advance

Operators on known data, element by element. `INT` results are 32-bit words and `FLOAT` results 32-bit
numbers, as at run time.
-/

namespace SignalLang.Staged

/-- Why an operator has no result. -/
inductive FoldError where
  | divisionByZero
  | negativeExponent (exponent : Int)
  /-- The operands are not of the types the operator takes. -/
  | mismatch
  /-- The operator has no meaning on such operands. -/
  | meaningless
deriving DecidableEq, Repr

namespace Datum

/-- A word operator. -/
def foldInt (op : BinaryOp) (a b : Int) : Except FoldError Datum :=
  match op with
  | .add => .ok (.int (Word.wrap (a + b)))
  | .subtract => .ok (.int (Word.wrap (a - b)))
  | .multiply => .ok (.int (Word.wrap (a * b)))
  | .divide => if b = 0 then .error .divisionByZero else .ok (.int (Word.wrap (a.tdiv b)))
  | .modulo => if b = 0 then .error .divisionByZero else .ok (.int (Word.wrap (a.tmod b)))
  | .power => if b < 0 then .error (.negativeExponent b) else .ok (.int (Word.pow a b.toNat))
  | .band => .ok (.int (Word.bitwise (· &&& ·) a b))
  | .bor => .ok (.int (Word.bitwise (· ||| ·) a b))
  | .bxor => .ok (.int (Word.bitwise (· ^^^ ·) a b))
  | .leftShift => .ok (.int (Word.shiftLeft a b))
  | .rightShift => .ok (.int (Word.shiftRight a b))
  | .equal => .ok (.bool (a = b))
  | .notEqual => .ok (.bool (a ≠ b))
  | .lessThan => .ok (.bool (a < b))
  | .greaterThan => .ok (.bool (a > b))
  | .lessOrEqual => .ok (.bool (a ≤ b))
  | .greaterOrEqual => .ok (.bool (a ≥ b))
  | .and | .or | .xor | .isIn | .asType => .error .meaningless

/-- A floating-point operator. -/
def foldFloat (op : BinaryOp) (a b : Float) : Except FoldError Datum :=
  match op with
  | .add => .ok (.float (Real.round (a + b)))
  | .subtract => .ok (.float (Real.round (a - b)))
  | .multiply => .ok (.float (Real.round (a * b)))
  | .divide => .ok (.float (Real.round (a / b)))
  | .modulo => .ok (.float (Real.round (Real.remainder a b)))
  | .power => .ok (.float (Real.round (a.pow b)))
  | .equal => .ok (.bool (a == b))
  | .notEqual => .ok (.bool (a != b))
  | .lessThan => .ok (.bool (a < b))
  | .greaterThan => .ok (.bool (a > b))
  | .lessOrEqual => .ok (.bool (a ≤ b))
  | .greaterOrEqual => .ok (.bool (a ≥ b))
  | .leftShift | .rightShift | .band | .bor | .bxor | .and | .or | .xor | .isIn | .asType =>
    .error .meaningless

/-- A logical operator. -/
def foldBool (op : BinaryOp) (a b : Bool) : Except FoldError Datum :=
  match op with
  | .and => .ok (.bool (a && b))
  | .or => .ok (.bool (a || b))
  | .xor | .notEqual => .ok (.bool (a != b))
  | .equal => .ok (.bool (a == b))
  | _ => .error .meaningless

/-- An operator on two data that are no arrays. Types can be compared. -/
def foldScalar (op : BinaryOp) (l r : Datum) : Except FoldError Datum :=
  match l, r with
  | .int a, .int b => foldInt op a b
  | .float a, .float b => foldFloat op a b
  | .bool a, .bool b => foldBool op a b
  | .type a, .type b => .ok (.bool (if op = .notEqual then a ≠ b else a = b))
  | .int _, _ | .float _, _ | .bool _, _ | .type _, _ => .error .mismatch
  | _, _ => .error .meaningless

/-- Applies an operator to the elements of two data of the lengths `dims`, in row-major order. -/
def foldElements (op : BinaryOp) : (dims : List Int) → Datum → Datum → Except FoldError Datum
  | [], l, r => foldScalar op l r
  | n :: dims, l, r => do
    let items ← (indexesBelow n).mapM fun i =>
      match l.element? i, r.element? i with
      | some a, some b => foldElements op dims a b
      | _, _ => .error .mismatch
    return .array items

/-- Applies an operator to two data of the given lengths, both stretched to the lengths `dims`. -/
def foldBinary (op : BinaryOp) (l r : Datum) (leftDims rightDims dims : List Int) :
    Except FoldError Datum :=
  match stretch? dims leftDims l, stretch? dims rightDims r with
  | some l, some r => foldElements op dims l r
  | _, _ => .error .mismatch

/-- The mathematical functions. -/
def foldFunction (op : UnaryOp) (x : Float) : Float :=
  match op with
  | .sin => x.sin
  | .cos => x.cos
  | .sqrt => x.sqrt
  | .exp => x.exp
  | .exp2 => x.exp2
  | .log => x.log
  | .log10 => x.log10
  | .log2 => x.log2
  | .floor => x.floor
  | .ceil => x.ceil
  | .trunc => Real.trunc x
  | .negate | .not | .bnot | .abs | .ftoi | .itof => x

/-- An operator on a datum that is no array. -/
def foldUnaryScalar (op : UnaryOp) (d : Datum) : Except FoldError Datum :=
  match op, d with
  | .not, .bool b => .ok (.bool !b)
  | .bnot, .int n => .ok (.int (Word.complement n))
  | .negate, .int n => .ok (.int (Word.wrap (-n)))
  | .negate, .float x => .ok (.float (-x))
  | .abs, .int n => .ok (.int (if n < 0 then Word.wrap (-n) else n))
  | .abs, .float x => .ok (.float x.abs)
  | .ftoi, .float x => .ok (.int (Word.wrap (Real.toWord64 x)))
  | .itof, .int n => .ok (.float (Real.round (Float.ofInt n)))
  | .not, _ | .bnot, _ | .negate, _ | .abs, _ | .ftoi, _ | .itof, _ => .error .mismatch
  | op, .float x => .ok (.float (Real.round (foldFunction op x)))
  | _, _ => .error .mismatch

mutual

/-- Applies an operator to a datum, element by element. -/
def foldUnary (op : UnaryOp) : Datum → Except FoldError Datum
  | .array items => do return .array (← foldUnaries op items)
  | d => foldUnaryScalar op d

/-- Applies an operator to several data. -/
def foldUnaries (op : UnaryOp) : List Datum → Except FoldError (List Datum)
  | [] => .ok []
  | d :: ds => do
    let d ← foldUnary op d
    return d :: (← foldUnaries op ds)

end

end Datum

end SignalLang.Staged
