import SignalLang.Tree.Basic

/-!
# Renaming the identifiers of a tree

`File.rename ρ` writes `ρ name` wherever a tree has the identifier `name`, and leaves everything else, with all spans.
The attributes of a property are not identifiers. `File.Standalone` says that a tree includes no other files, whose
identifiers would not be renamed with it.
-/

namespace SignalLang.Tree

section Rename

variable (ρ : String → String)

/-- An identifier under its other name. -/
def Ident.rename (id : Ident) : Ident := { id with name := ρ id.name }

mutual

/-- An expression with its identifiers renamed. -/
def Expr.rename : Expr → Expr
  | .name id => .name (id.rename ρ)
  | .int v span => .int v span
  | .float v span => .float v span
  | .array items span => .array (renameExprs items) span
  | .arrayType dims base span => .arrayType (renameExprs dims) base.rename span
  | .openBound span => .openBound span
  | .upperBound upper span => .upperBound upper.rename span
  | .closedBound lower upper span => .closedBound lower.rename upper.rename span
  | .index base index optional span => .index base.rename index.rename optional span
  | .property base name nameSpan span => .property base.rename name nameSpan span
  | .unary op operand span => .unary op operand.rename span
  | .binary op left right span => .binary op left.rename right.rename span
  | .call callee inputs explicit outputs span =>
    .call (callee.rename ρ) (renameExprs inputs) explicit (renameOutputs outputs) span
  | .decl type name span => .decl type.rename (name.rename ρ) span

/-- Expressions with their identifiers renamed. -/
def renameExprs : List Expr → List Expr
  | [] => []
  | e :: es => e.rename :: renameExprs es

/-- The outputs of a call with their identifiers renamed. -/
def renameOutputs : List Output → List Output
  | [] => []
  | .inline span :: rest => .inline span :: renameOutputs rest
  | .target e span :: rest => .target e.rename span :: renameOutputs rest

end

mutual

/-- A statement with its identifiers renamed. -/
def Stmt.rename : Stmt → Stmt
  | .io isOutput type names span => .io isOutput (type.rename ρ) (names.map (Ident.rename ρ)) span
  | .decl type name declSpan span => .decl (type.rename ρ) (name.rename ρ) declSpan span
  | .assign target value span => .assign (target.rename ρ) (value.rename ρ) span
  | .macroDef name inputs outputs body header span =>
    .macroDef (name.rename ρ) (inputs.map (Ident.rename ρ)) (outputs.map (Ident.rename ρ)) body.rename header span
  | .call call span => .call (call.rename ρ) span
  | .expr value span => .expr (value.rename ρ) span
  | .branch clauses otherwise span => .branch (renameClauses clauses) (renameOtherwise otherwise) span
  | .loop counter start stop noUnroll body span =>
    .loop (counter.rename ρ) (start.rename ρ) (stop.rename ρ) noUnroll body.rename span
  | .static exports body span => .static (exports.map (Ident.rename ρ)) body.rename span
  | .assert condition span => .assert (condition.rename ρ) span
  | .ret span => .ret span
  | .includeFile path span => .includeFile path span
  | .block b => .block b.rename

/-- A block with its identifiers renamed. -/
def Block.rename : Block → Block
  | .mk statements span => .mk (renameStmts statements) span

/-- Statements with their identifiers renamed. -/
def renameStmts : List Stmt → List Stmt
  | [] => []
  | s :: ss => s.rename :: renameStmts ss

/-- Clauses with their identifiers renamed. -/
def renameClauses : List Clause → List Clause
  | [] => []
  | .mk condition body :: rest => .mk (condition.rename ρ) body.rename :: renameClauses rest

/-- The body without a condition with its identifiers renamed. -/
def renameOtherwise : Option Block → Option Block
  | none => none
  | some body => some body.rename

end

/-- A file with its identifiers renamed. -/
def File.rename (f : File) : File := ⟨renameStmts ρ f.statements, f.span⟩

end Rename

/-! ## Trees without includes -/

mutual

/-- A statement includes no file. -/
def Stmt.Standalone : Stmt → Prop
  | .macroDef _ _ _ body _ _ | .loop _ _ _ _ body _ | .static _ body _ | .block body => body.Standalone
  | .branch clauses otherwise _ => ClausesStandalone clauses ∧ OtherwiseStandalone otherwise
  | .includeFile _ _ => False
  | .io .. | .decl .. | .assign .. | .call .. | .expr .. | .assert .. | .ret _ => True

/-- A block includes no file. -/
def Block.Standalone : Block → Prop
  | .mk statements _ => StmtsStandalone statements

/-- Statements include no file. -/
def StmtsStandalone : List Stmt → Prop
  | [] => True
  | s :: ss => s.Standalone ∧ StmtsStandalone ss

/-- The bodies of clauses include no file. -/
def ClausesStandalone : List Clause → Prop
  | [] => True
  | .mk _ body :: rest => body.Standalone ∧ ClausesStandalone rest

/-- The body without a condition includes no file. -/
def OtherwiseStandalone : Option Block → Prop
  | none => True
  | some body => body.Standalone

end

/-- A file includes no file. -/
def File.Standalone (f : File) : Prop := StmtsStandalone f.statements

end SignalLang.Tree
