/-!
# Operators

The operators of expressions, shared by every form of a program. The mathematical functions are unary
operators that the predefined macros apply.
-/

namespace SignalLang

/-- An operator of one operand. -/
inductive UnaryOp where
  | negate | not | bnot
  | sin | cos | sqrt | exp | exp2 | log | log10 | log2
  | abs | floor | ceil | trunc | ftoi | itof
deriving DecidableEq, Repr, Inhabited

/-- The written form of a unary operator. -/
def UnaryOp.text : UnaryOp → String
  | .negate => "-"
  | .not => "not"
  | .bnot => "bnot"
  | .sin => "sin"
  | .cos => "cos"
  | .sqrt => "sqrt"
  | .exp => "exp"
  | .exp2 => "exp2"
  | .log => "log"
  | .log10 => "log10"
  | .log2 => "log2"
  | .abs => "abs"
  | .floor => "floor"
  | .ceil => "ceil"
  | .trunc => "trunc"
  | .ftoi => "ftoi"
  | .itof => "itof"

/-- An operator of two operands. `isIn` tests whether the type of a value fits a type bound; `asType`
changes the type of a value. -/
inductive BinaryOp where
  | add | subtract | multiply | divide | modulo | power
  | leftShift | rightShift | band | bor | bxor
  | and | or | xor
  | equal | notEqual | lessThan | greaterThan | lessOrEqual | greaterOrEqual
  | isIn | asType
deriving DecidableEq, Repr, Inhabited

/-- The written form of a binary operator. -/
def BinaryOp.text : BinaryOp → String
  | .add => "+"
  | .subtract => "-"
  | .multiply => "*"
  | .divide => "/"
  | .modulo => "%"
  | .power => "**"
  | .leftShift => "<<"
  | .rightShift => ">>"
  | .band => "band"
  | .bor => "bor"
  | .bxor => "bxor"
  | .and => "and"
  | .or => "or"
  | .xor => "xor"
  | .equal => "=="
  | .notEqual => "!="
  | .lessThan => "<"
  | .greaterThan => ">"
  | .lessOrEqual => "<="
  | .greaterOrEqual => ">="
  | .isIn => "in"
  | .asType => "as"

/-- Whether an operator compares, so that its result is a `BOOL` whatever its operands are. -/
def BinaryOp.isComparison : BinaryOp → Bool
  | .equal | .notEqual | .lessThan | .greaterThan | .lessOrEqual | .greaterOrEqual => true
  | _ => false

/-- How tightly an operator binds. -/
def BinaryOp.precedence : BinaryOp → Nat
  | .asType => 23
  | .power => 22
  | .multiply | .divide | .modulo => 21
  | .add | .subtract => 20
  | .leftShift | .rightShift => 18
  | .band => 16
  | .bxor => 15
  | .bor => 14
  | .lessOrEqual | .lessThan | .greaterOrEqual | .greaterThan | .equal | .notEqual | .isIn => 13
  | .and => 12
  | .xor => 11
  | .or => 10

/-- The least precedence of an operator at the root of the right operand: only `**` may stand there
itself. -/
def BinaryOp.rightPrecedence (op : BinaryOp) : Nat :=
  if op = .power then op.precedence else op.precedence + 1

end SignalLang
