import SignalLang.Tree.Basic

/-!
# Outlines

The outline of a file lists its parts in pre-order, each with the spans it carries.
-/

namespace SignalLang.Tree

/-- What a part of a tree is. -/
inductive Part where
  | file | ident | io | declStmt | assign | macroDef | callStmt | exprStmt | branch | loop | static
  | assert | ret | includeFile | block
  | int | float | array | arrayType | typeBound | index | property | unary | binary | call | output
  | varDecl
deriving DecidableEq, Repr

/-- A part with its spans. -/
structure Entry where
  part : Part
  spans : List Span
deriving Repr

/-- The entry of a name. -/
def Ident.outline (id : Ident) : List Entry := [⟨.ident, [id.span]⟩]

/-- The entries of names. -/
def identOutlines (ids : List Ident) : List Entry := ids.flatMap Ident.outline

mutual

/-- An expression and what it holds. -/
def Expr.outline : Expr → List Entry
  | .name id => id.outline
  | .int _ span => [⟨.int, [span]⟩]
  | .float _ span => [⟨.float, [span]⟩]
  | .array items span => ⟨.array, [span]⟩ :: exprOutlines items
  | .arrayType dims base span => ⟨.arrayType, [span]⟩ :: exprOutlines dims ++ base.outline
  | .openBound span => [⟨.typeBound, [span]⟩]
  | .upperBound upper span => ⟨.typeBound, [span]⟩ :: upper.outline
  | .closedBound lower upper span => ⟨.typeBound, [span]⟩ :: lower.outline ++ upper.outline
  | .index base index _ span => ⟨.index, [span]⟩ :: base.outline ++ index.outline
  | .property base _ nameSpan span => ⟨.property, [nameSpan, span]⟩ :: base.outline
  | .unary _ operand span => ⟨.unary, [span]⟩ :: operand.outline
  | .binary _ left right span => ⟨.binary, [span]⟩ :: left.outline ++ right.outline
  | .call callee inputs _ outputs span =>
    ⟨.call, [span]⟩ :: callee.outline ++ exprOutlines inputs ++ outputOutlines outputs
  | .decl type name span => ⟨.varDecl, [span]⟩ :: type.outline ++ name.outline

/-- Expressions in order. -/
def exprOutlines : List Expr → List Entry
  | [] => []
  | e :: es => e.outline ++ exprOutlines es

/-- An output and its target. -/
def Output.outline : Output → List Entry
  | .inline span => [⟨.output, [span]⟩]
  | .target target span => ⟨.output, [span]⟩ :: target.outline

/-- Outputs in order. -/
def outputOutlines : List Output → List Entry
  | [] => []
  | o :: os => o.outline ++ outputOutlines os

end

mutual

/-- A statement and what it holds. -/
def Stmt.outline : Stmt → List Entry
  | .io _ type names span => ⟨.io, [span]⟩ :: type.outline ++ identOutlines names
  | .decl type name declSpan span =>
    ⟨.declStmt, [span]⟩ :: ⟨.varDecl, [declSpan]⟩ :: type.outline ++ name.outline
  | .assign target value span => ⟨.assign, [span]⟩ :: target.outline ++ value.outline
  | .macroDef name inputs outputs body header span =>
    ⟨.macroDef, [header, span]⟩ :: name.outline ++ identOutlines inputs ++ identOutlines outputs ++
      body.outline
  | .call call span => ⟨.callStmt, [span]⟩ :: call.outline
  | .expr value span => ⟨.exprStmt, [span]⟩ :: value.outline
  | .branch clauses otherwise span =>
    ⟨.branch, [span]⟩ :: clauseOutlines clauses ++ otherwiseOutline otherwise
  | .loop counter start stop _ body span =>
    ⟨.loop, [span]⟩ :: counter.outline ++ start.outline ++ stop.outline ++ body.outline
  | .static exports body span => ⟨.static, [span]⟩ :: identOutlines exports ++ body.outline
  | .assert condition span => ⟨.assert, [span]⟩ :: condition.outline
  | .ret span => [⟨.ret, [span]⟩]
  | .includeFile _ span => [⟨.includeFile, [span]⟩]
  | .block b => b.outline

/-- A block and its statements. -/
def Block.outline : Block → List Entry
  | .mk statements span => ⟨.block, [span]⟩ :: stmtOutlines statements

/-- Statements in order. -/
def stmtOutlines : List Stmt → List Entry
  | [] => []
  | s :: ss => s.outline ++ stmtOutlines ss

/-- Conditions and bodies in order. -/
def clauseOutlines : List Clause → List Entry
  | [] => []
  | .mk condition body :: rest => condition.outline ++ body.outline ++ clauseOutlines rest

/-- The body without a condition. -/
def otherwiseOutline : Option Block → List Entry
  | none => []
  | some body => body.outline

end

/-- A file and all it holds. -/
def File.outline (f : File) : List Entry := ⟨.file, [f.span]⟩ :: stmtOutlines f.statements

end SignalLang.Tree
