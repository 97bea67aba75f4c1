import SignalLang.Source.Span
import SignalLang.Operator

/-!
# Syntax trees

What a source file says, with the span of every part. A file is a list of statements.
-/

namespace SignalLang.Tree

/-- A name where it is written. -/
structure Ident where
  name : String
  span : Span
deriving DecidableEq, Repr, Inhabited

mutual

/-- An expression. A declaration `TYPE name` is one where a value is assigned to it. -/
inductive Expr where
  | name (id : Ident)
  | int (value : Int) (span : Span)
  | float (value : Float) (span : Span)
  /-- `[a, b, c]` -/
  | array (items : List Expr) (span : Span)
  /-- `[4][3]BASE` -/
  | arrayType (dims : List Expr) (base : Expr) (span : Span)
  /-- `<>` -/
  | openBound (span : Span)
  /-- `<upper>` -/
  | upperBound (upper : Expr) (span : Span)
  /-- `<lower, upper>` -/
  | closedBound (lower upper : Expr) (span : Span)
  /-- `base[index]`, or `base[index?]` -/
  | index (base index : Expr) (optional : Bool) (span : Span)
  /-- `base.NAME` -/
  | property (base : Expr) (name : String) (nameSpan span : Span)
  | unary (op : UnaryOp) (operand : Expr) (span : Span)
  | binary (op : BinaryOp) (left right : Expr) (span : Span)
  /-- `Name(inputs)`, with `:(outputs)` behind it when `explicit` -/
  | call (callee : Ident) (inputs : List Expr) (explicit : Bool) (outputs : List Output) (span : Span)
  /-- `TYPE name` -/
  | decl (type : Expr) (name : Ident) (span : Span)

/-- An output of a macro call: the word `inline`, whose output is the value of the call, or a target. -/
inductive Output where
  | inline (span : Span)
  | target (target : Expr) (span : Span)

end

instance : Inhabited Expr := ⟨.openBound .builtin⟩

/-- The text an expression covers. -/
def Expr.span : Expr → Span
  | .name id => id.span
  | .int _ span | .float _ span | .array _ span | .arrayType _ _ span | .openBound span
  | .upperBound _ span | .closedBound _ _ span | .index _ _ _ span | .property _ _ _ span
  | .unary _ _ span | .binary _ _ _ span | .call _ _ _ _ span | .decl _ _ span => span

/-- The text an output covers. -/
def Output.span : Output → Span
  | .inline span | .target _ span => span

mutual

/-- A statement. -/
inductive Stmt where
  /-- `input TYPE a, b;` or `output TYPE a, b;` -/
  | io (isOutput : Bool) (type : Expr) (names : List Ident) (span : Span)
  /-- `TYPE name;` -/
  | decl (type : Expr) (name : Ident) (declSpan span : Span)
  | assign (target value : Expr) (span : Span)
  /-- `macro Name(a, b): (c, d) { … }`; the header is all before the body -/
  | macroDef (name : Ident) (inputs outputs : List Ident) (body : Block) (header span : Span)
  /-- A macro call that stands alone. -/
  | call (call : Expr) (span : Span)
  | expr (value : Expr) (span : Span)
  | branch (clauses : List Clause) (otherwise : Option Block) (span : Span)
  | loop (counter : Ident) (start stop : Expr) (noUnroll : Bool) (body : Block) (span : Span)
  | static (exports : List Ident) (body : Block) (span : Span)
  | assert (condition : Expr) (span : Span)
  | ret (span : Span)
  /-- `include "path";` with the bytes the quoted path stands for -/
  | includeFile (path : List UInt8) (span : Span)
  | block (block : Block)

/-- Statements in braces. -/
inductive Block where
  | mk (statements : List Stmt) (span : Span)

/-- One condition of a branch with its body. -/
inductive Clause where
  | mk (condition : Expr) (body : Block)

end

instance : Inhabited Stmt := ⟨.ret .builtin⟩
instance : Inhabited Block := ⟨.mk [] .builtin⟩

/-- The statements of a block. -/
def Block.statements : Block → List Stmt
  | .mk statements _ => statements

/-- The text a block covers. -/
def Block.span : Block → Span
  | .mk _ span => span

/-- The text a statement covers. -/
def Stmt.span : Stmt → Span
  | .io _ _ _ span | .decl _ _ _ span | .assign _ _ span | .macroDef _ _ _ _ _ span | .call _ span
  | .expr _ span | .branch _ _ span | .loop _ _ _ _ _ span | .static _ _ span | .assert _ span
  | .ret span | .includeFile _ span => span
  | .block b => b.span

/-- The tree of a source file. -/
structure File where
  statements : List Stmt
  span : Span

/-- Whether an expression can be assigned to: a name, a declaration, or a name under indexes. -/
def Expr.isAssignable : Expr → Bool
  | .name _ | .decl .. => true
  | .index (.decl ..) _ _ _ => false
  | .index base _ _ _ => base.isAssignable
  | _ => false

end SignalLang.Tree
