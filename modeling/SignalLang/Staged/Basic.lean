import SignalLang.Constant
import SignalLang.Operator

/-!
# Staged programs

A staged program holds only what is left to do at run time: every variable has a runtime type, every known
value is a constant, every macro is inlined. Its statements run in order:

* `assign` stores a value, stretched to the type of its target;
* `assert` ends the run when its condition is false;
* `branch` runs the scope of the first condition that holds, or the last scope;
* `loop` runs its scope with the counter at `start`, `start + 1`, … below `stop`;
* `inlined` runs the scope of a macro call.

A `missing` expression or statement is one that was left out; it has no meaning.
-/

namespace SignalLang.Staged

/-- The number of a variable. -/
abbrev SlotId := Nat

/-- The number of a scope. -/
abbrev ScopeId := Nat

/-- An expression with its type. -/
inductive Expr where
  | literal (value : Constant) (ty : Ty) (span : Span)
  | var (id : SlotId) (ty : Ty) (span : Span)
  | index (base : Expr) (indexes : List Expr) (ty : Ty) (span : Span)
  | collect (items : List Expr) (ty : Ty) (span : Span)
  /-- The operator, element by element. -/
  | unary (op : UnaryOp) (operand : Expr) (ty : Ty) (span : Span)
  /-- The operator, element by element, both operands stretched to the type of the result. -/
  | binary (op : BinaryOp) (left right : Expr) (ty : Ty) (span : Span)
  | missing
deriving Inhabited

/-- The type of an expression. -/
def Expr.ty : Expr → Ty
  | .literal _ ty _ | .var _ ty _ | .index _ _ ty _ | .collect _ ty _ | .unary _ _ ty _
  | .binary _ _ _ ty _ => ty
  | .missing => .void

/-- The text an expression came from. -/
def Expr.span : Expr → Span
  | .literal _ _ span | .var _ _ span | .index _ _ _ span | .collect _ _ span | .unary _ _ _ span
  | .binary _ _ _ _ span => span
  | .missing => .builtin

/-- An integer that selects an element. -/
def Expr.ofIndex (n : Int) (span : Span) : Expr := .literal (.int n) .int span

/-- A place to store a value: a variable or an element of one, with the type of what is stored. -/
structure Target where
  var : SlotId
  indexes : List Expr := []
  ty : Ty
  span : Span

/-- A condition with the scope it guards. -/
structure Clause where
  condition : Expr
  body : ScopeId

/-- A statement. -/
inductive Stmt where
  | assign (target : Target) (value : Expr) (span : Span)
  | assert (condition : Expr) (span : Span)
  | branch (clauses : List Clause) (otherwise : Option ScopeId) (span : Span)
  | loop (counter : SlotId) (start stop : Expr) (body : ScopeId) (span : Span)
  | inlined (body : ScopeId) (span : Span)
  | missing

/-- The text a statement came from. -/
def Stmt.span : Stmt → Span
  | .assign _ _ span | .assert _ span | .branch _ _ span | .loop _ _ _ _ span | .inlined _ span => span
  | .missing => .builtin

/-- A variable with its type and where it was declared. -/
structure Variable where
  ty : Ty
  definition : Span
deriving Inhabited

/-- A whole program. The scope `staticInit` runs once, `entry` on every run. Statics are written by the
former and kept for the latter. -/
structure Program where
  scopes : Array (Array Stmt) := #[#[], #[]]
  vars : Array Variable := #[]
  staticInit : ScopeId := 0
  entry : ScopeId := 1
  statics : List SlotId := []
  inputs : List SlotId := []
  outputs : List SlotId := []
deriving Inhabited

namespace Program

/-- The statements of a scope. -/
def scope (p : Program) (id : ScopeId) : Array Stmt := p.scopes.getD id #[]

/-- Appends a scope; its number is the old number of scopes. -/
def addScope (p : Program) : Program := { p with scopes := p.scopes.push #[] }

/-- Appends a variable; its number is the old number of variables. -/
def addVariable (p : Program) (v : Variable) : Program := { p with vars := p.vars.push v }

/-- Appends a statement to a scope. -/
def addStmt (p : Program) (scope : ScopeId) (stmt : Stmt) : Program :=
  { p with scopes := p.scopes.modify scope (·.push stmt) }

/-- Whether a variable is kept from static initialization. -/
def isStatic (p : Program) (v : SlotId) : Bool := p.statics.contains v

end Program

end SignalLang.Staged
