import SignalLang.Constant
import SignalLang.Operator

/-!
# Scoped programs

A scoped program is a tree of scopes over variables. Names are resolved: an expression refers to a variable
by its number. Types are still expressions. Variables and scopes are numbered in the order they are made and
never removed; the parent of a scope has a smaller number.
-/

namespace SignalLang.Scoped

/-- The number of a variable. -/
abbrev VarId := Nat

/-- The number of a scope. -/
abbrev ScopeId := Nat

/-- An attribute of a value that is known before the program runs. -/
inductive Property where
  | type
  | dims
deriving DecidableEq, Repr

/-- The written name of a property. -/
def Property.text : Property → String
  | .type => "TYPE"
  | .dims => "DIMS"

mutual

/-- An expression that produces a value. -/
inductive Expr where
  | literal (value : Constant) (span : Span)
  | var (id : VarId) (span : Span)
  /-- An array of items. -/
  | collect (items : List Expr) (span : Span)
  | openBound (span : Span)
  | upperBound (upper : Expr) (span : Span)
  | closedBound (lower upper : Expr) (span : Span)
  | arrayType (dims : List Expr) (base : Expr) (span : Span)
  | index (base : Expr) (indexes : List IndexArg) (span : Span)
  | property (base : Expr) (property : Property) (span : Span)
  | unary (op : UnaryOp) (operand : Expr) (span : Span)
  | binary (op : BinaryOp) (left right : Expr) (span : Span)
  | call (callee : VarId) (calleeSpan : Span) (inputs : List Expr) (outputs : List Output) (span : Span)

/-- An index; an optional one leaves a value that is no array as it is. -/
inductive IndexArg where
  | mk (value : Expr) (optional : Bool)

/-- What becomes of an output of a macro call: the value of the call, or the value of a target. -/
inductive Output where
  | inline (span : Span)
  | target (target : Target) (span : Span)

/-- A place that takes a value: a variable or an element of one. -/
inductive Target where
  | mk (var : VarId) (indexes : List Expr) (span : Span)

end

instance : Inhabited Expr := ⟨.openBound .builtin⟩

/-- The text an expression came from. -/
def Expr.span : Expr → Span
  | .literal _ span | .var _ span | .collect _ span | .openBound span | .upperBound _ span
  | .closedBound _ _ span | .arrayType _ _ span | .index _ _ span | .property _ _ span
  | .unary _ _ span | .binary _ _ _ span | .call _ _ _ _ span => span

/-- The index expression. -/
def IndexArg.value : IndexArg → Expr
  | .mk value _ => value

/-- Whether the index is optional. -/
def IndexArg.optional : IndexArg → Bool
  | .mk _ optional => optional

/-- The text an output came from. -/
def Output.span : Output → Span
  | .inline span | .target _ span => span

/-- The variable of a target. -/
def Target.var : Target → VarId
  | .mk var _ _ => var

/-- The indexes of a target. -/
def Target.indexes : Target → List Expr
  | .mk _ indexes _ => indexes

/-- The text a target came from. -/
def Target.span : Target → Span
  | .mk _ _ span => span

/-- A condition with the scope it guards. -/
structure Clause where
  condition : Expr
  body : ScopeId

/-- A statement. Nested statements are in scopes of their own. -/
inductive Stmt where
  /-- A variable comes into existence with a type. -/
  | create (var : VarId) (type : Expr) (span : Span)
  | assign (target : Target) (value : Expr) (span : Span)
  | assert (condition : Expr) (span : Span)
  | branch (clauses : List Clause) (otherwise : Option ScopeId) (span : Span)
  /-- The counter takes each value from `start` up to, but not with, `stop`. -/
  | loop (counter : VarId) (start stop : Expr) (body : ScopeId) (allowUnroll : Bool) (span : Span)
  /-- The body runs once before the program proper; exports stay readable afterwards. -/
  | static (body : ScopeId) (exports : List VarId) (span : Span)
  | block (body : ScopeId) (span : Span)
  /-- The end of the enclosing macro. -/
  | ret (span : Span)
  | expr (value : Expr) (span : Span)

/-- The text a statement came from. -/
def Stmt.span : Stmt → Span
  | .create _ _ span | .assign _ _ span | .assert _ span | .branch _ _ span | .loop _ _ _ _ _ span
  | .static _ _ span | .block _ span | .ret span | .expr _ span => span

/-- A variable; predefined names and macros have a value from the start. -/
structure Variable where
  name : String
  definition : Span
  initial : Option Constant := none
  readOnly : Bool := false
deriving Inhabited

/-- A scope with its names and statements. Macro bodies have inputs and outputs. -/
structure Scope where
  parent : Option ScopeId
  symbols : List (String × VarId) := []
  body : Array Stmt := #[]
  inputs : List VarId := []
  outputs : List VarId := []
deriving Inhabited

namespace Scope

/-- The variable a name stands for in this scope. -/
def find? (s : Scope) (name : String) : Option VarId := s.symbols.lookup name

/-- Binds a name, replacing what it stood for. -/
def bind (s : Scope) (name : String) (var : VarId) : Scope :=
  { s with symbols := (name, var) :: s.symbols.filter (·.1 ≠ name) }

end Scope

/-- A whole program. Scope `entry` is where it starts; its parent holds the predefined names. -/
structure Program where
  scopes : Array Scope := #[]
  vars : Array Variable := #[]
  builtins : ScopeId := 0
  entry : ScopeId := 0
  inputs : List VarId := []
  outputs : List VarId := []
deriving Inhabited

namespace Program

/-- The scope of a number. -/
def scope (p : Program) (id : ScopeId) : Scope := p.scopes.getD id { parent := none }

/-- The variable of a number. -/
def var (p : Program) (id : VarId) : Variable := p.vars.getD id ⟨"", .builtin, none, false⟩

/-- Appends a scope; its number is the old number of scopes. -/
def addScope (p : Program) (parent : Option ScopeId) : Program :=
  { p with scopes := p.scopes.push { parent := parent } }

/-- Changes a scope. -/
def modifyScope (p : Program) (id : ScopeId) (f : Scope → Scope) : Program :=
  { p with scopes := p.scopes.modify id f }

/-- Appends a variable and binds its name; its number is the old number of variables. -/
def define (p : Program) (scope : ScopeId) (v : Variable) : Program :=
  let id := p.vars.size
  { p with vars := p.vars.push v }.modifyScope scope (·.bind v.name id)

/-- Appends a statement to a scope. -/
def addStmt (p : Program) (scope : ScopeId) (stmt : Stmt) : Program :=
  p.modifyScope scope fun s => { s with body := s.body.push stmt }

/-- The scopes from one outward, the innermost first. -/
def chain (p : Program) : (fuel : Nat) → ScopeId → List Scope
  | 0, _ => []
  | fuel + 1, id =>
    let s := p.scope id
    s :: (match s.parent with
      | some parent => chain p fuel parent
      | none => [])

/-- A scope and the scopes around it. A parent has a smaller number, so there are at most `id + 1`. -/
def enclosing (p : Program) (id : ScopeId) : List Scope := p.chain (id + 1) id

/-- The variable a name stands for in a scope or around it. -/
def lookup? (p : Program) (scope : ScopeId) (name : String) : Option VarId :=
  (p.enclosing scope).findSome? (·.find? name)

/-- Every name that can be used in a scope, sorted. -/
def visibleNames (p : Program) (scope : ScopeId) : List String :=
  let names := (p.enclosing scope).flatMap fun s => s.symbols.map (·.1)
  names.eraseDups.mergeSort fun a b => decide (a ≤ b)

/-- The name of a variable with its number. -/
def variableName (p : Program) (id : VarId) : String :=
  let name := (p.var id).name
  let shown := if name = "" then "tmp" else name
  s!"{shown}#{id}"

end Program

end SignalLang.Scoped
