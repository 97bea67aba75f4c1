import SignalLang.LongWord
import SignalLang.Tree.Parse
import SignalLang.Tree.Print

/-!
# Views of trees

A tree without its spans, and the tokens its text consists of.
-/

namespace SignalLang

/-- A token without its place. -/
structure Lexeme where
  kind : TokenKind
  text : String
deriving DecidableEq, Repr

/-- A token that its class determines. -/
def Lexeme.mark (kind : TokenKind) : Lexeme := ⟨kind, kind.text⟩

/-- The end of a text. -/
def Lexeme.ending : Lexeme := ⟨.endOfFile, ""⟩

/-- The token, wherever it stands. -/
def Token.toLexeme (t : Token) : Lexeme := ⟨t.kind, t.lexeme⟩

/-- A word that is scanned as a name. -/
def IsName (word : String) : Prop :=
  ∃ c cs, word = String.ofList (c :: cs) ∧ (Text.isLetter c = true ∨ c = '_') ∧
    (∀ d ∈ cs, Token.isNamePart d = true) ∧ TokenKind.ofWord word = .ident

namespace Tree

open Lexeme (mark)

/-! ## Shapes of expressions -/

namespace Expr

/-- Whether an expression gets parentheses as an operand. -/
def isOperator : Expr → Bool
  | unary .. | binary .. => true
  | _ => false

/-- Whether the root of an expression is an operator between two operands. -/
def isBinary : Expr → Bool
  | binary .. => true
  | _ => false

/-- Whether an expression is a name. -/
def isName : Expr → Bool
  | name _ => true
  | _ => false

/-- Whether an expression is a macro call. -/
def isCall : Expr → Bool
  | call .. => true
  | _ => false

/-- Whether an expression is a type bound. -/
def isBound : Expr → Bool
  | openBound _ | upperBound .. | closedBound .. => true
  | _ => false

/-- Whether the text of an expression starts with a type bound. -/
def startsWithBound : Expr → Bool
  | openBound _ | upperBound .. | closedBound .. => true
  | index base .. | property base .. => base.startsWithBound
  | binary _ left .. => !left.isOperator && left.startsWithBound
  | _ => false

/-- Whether the text of an expression ends with a type bound. -/
def endsWithBound : Expr → Bool
  | openBound _ | upperBound .. | closedBound .. => true
  | arrayType _ base _ => base.isBound
  | unary _ operand _ => !operand.isOperator && operand.endsWithBound
  | binary _ _ right _ => !right.isOperator && right.endsWithBound
  | _ => false

/-- Whether the text of an expression ends like the lengths of an array type, so that a name or a type bound
behind it would be read as the base of one. -/
def endsWithLengths : Expr → Bool
  | array [_] _ => true
  | index base _ optional _ => !optional && base.endsWithLengths
  | unary _ operand _ => !operand.isOperator && operand.endsWithLengths
  | binary _ _ right _ => !right.isOperator && right.endsWithLengths
  | _ => false

end Expr

/-! ## Trees without spans -/

/-- A name, wherever it is written. -/
def Ident.bare (id : Ident) : Ident := ⟨id.name, .builtin⟩

mutual

/-- An expression without its spans. -/
def Expr.bare : Expr → Expr
  | .name id => .name id.bare
  | .int v _ => .int v .builtin
  | .float v _ => .float v .builtin
  | .array items _ => .array (bareExprs items) .builtin
  | .arrayType dims base _ => .arrayType (bareExprs dims) base.bare .builtin
  | .openBound _ => .openBound .builtin
  | .upperBound upper _ => .upperBound upper.bare .builtin
  | .closedBound lower upper _ => .closedBound lower.bare upper.bare .builtin
  | .index base index optional _ => .index base.bare index.bare optional .builtin
  | .property base name _ _ => .property base.bare name .builtin .builtin
  | .unary op operand _ => .unary op operand.bare .builtin
  | .binary op left right _ => .binary op left.bare right.bare .builtin
  | .call callee inputs explicit outputs _ =>
    .call callee.bare (bareExprs inputs) explicit (bareOutputs outputs) .builtin
  | .decl type name _ => .decl type.bare name.bare .builtin

/-- Expressions without their spans. -/
def bareExprs : List Expr → List Expr
  | [] => []
  | e :: es => e.bare :: bareExprs es

/-- An output without its spans. -/
def Output.bare : Output → Output
  | .inline _ => .inline .builtin
  | .target target _ => .target target.bare .builtin

/-- Outputs without their spans. -/
def bareOutputs : List Output → List Output
  | [] => []
  | o :: os => o.bare :: bareOutputs os

end

theorem bareExprs_eq (es : List Expr) : bareExprs es = es.map Expr.bare := by
  induction es with
  | nil => rfl
  | cons e es ih => rw [bareExprs, ih, List.map_cons]

theorem bareOutputs_eq (os : List Output) : bareOutputs os = os.map Output.bare := by
  induction os with
  | nil => rfl
  | cons o os ih => rw [bareOutputs, ih, List.map_cons]

mutual

/-- A statement without its spans. -/
def Stmt.bare : Stmt → Stmt
  | .io isOutput type names _ => .io isOutput type.bare (names.map Ident.bare) .builtin
  | .decl type name _ _ => .decl type.bare name.bare .builtin .builtin
  | .assign target value _ => .assign target.bare value.bare .builtin
  | .macroDef name inputs outputs body _ _ =>
    .macroDef name.bare (inputs.map Ident.bare) (outputs.map Ident.bare) body.bare .builtin .builtin
  | .call call _ => .call call.bare .builtin
  | .expr value _ => .expr value.bare .builtin
  | .branch clauses otherwise _ => .branch (bareClauses clauses) (bareOtherwise otherwise) .builtin
  | .loop counter start stop noUnroll body _ =>
    .loop counter.bare start.bare stop.bare noUnroll body.bare .builtin
  | .static exports body _ => .static (exports.map Ident.bare) body.bare .builtin
  | .assert condition _ => .assert condition.bare .builtin
  | .ret _ => .ret .builtin
  | .includeFile path _ => .includeFile path .builtin
  | .block b => .block b.bare

/-- A block without its spans. -/
def Block.bare : Block → Block
  | .mk statements _ => .mk (bareStmts statements) .builtin

/-- Statements without their spans. -/
def bareStmts : List Stmt → List Stmt
  | [] => []
  | s :: ss => s.bare :: bareStmts ss

/-- Clauses without their spans. -/
def bareClauses : List Clause → List Clause
  | [] => []
  | .mk condition body :: rest => .mk condition.bare body.bare :: bareClauses rest

/-- The body without a condition and without its spans. -/
def bareOtherwise : Option Block → Option Block
  | none => none
  | some body => some body.bare

end

/-- A file without its spans. -/
def File.bare (f : File) : File := ⟨bareStmts f.statements, .builtin⟩

/-! ## Tokens of a text -/

/-- The token of a name. -/
def Ident.lexeme (id : Ident) : Lexeme := ⟨.ident, id.name⟩

/-- Items divided by commas. -/
def commaLexemes : List (List Lexeme) → List Lexeme
  | [] => []
  | [item] => item
  | item :: next :: items => item ++ mark .comma :: commaLexemes (next :: items)

/-- The tokens of names divided by commas. -/
def identLexemes (ids : List Ident) : List Lexeme := commaLexemes (ids.map fun id => [id.lexeme])

/-- The tokens of an operand, given those of the expression. -/
def operandLexemes (e : Expr) (ls : List Lexeme) : List Lexeme :=
  if e.isOperator then mark .leftParen :: ls ++ [mark .rightParen] else ls

end Tree

/-- The token of an operator before an operand. Functions have none; what stands here for them is never
read. -/
def UnaryOp.token : UnaryOp → TokenKind
  | .negate => .minus
  | .not => .kwNot
  | .bnot => .kwBNot
  | _ => .invalid

/-- Whether an operator is written before its operand, and not as the name of a macro. -/
def UnaryOp.IsWritten (op : UnaryOp) : Prop := Tree.unaryOp? op.token = some op

theorem UnaryOp.IsWritten.cases {op : UnaryOp} (h : op.IsWritten) :
    op = .negate ∨ op = .not ∨ op = .bnot := by
  cases op with
  | negate | not | bnot => simp
  | _ => cases h

/-- The token of an operator between two operands. -/
def BinaryOp.token : BinaryOp → TokenKind
  | .add => .plus
  | .subtract => .minus
  | .multiply => .star
  | .divide => .slash
  | .modulo => .percent
  | .power => .starStar
  | .leftShift => .shiftLeft
  | .rightShift => .shiftRight
  | .band => .kwBAnd
  | .bor => .kwBOr
  | .bxor => .kwBXor
  | .and => .kwAnd
  | .or => .kwOr
  | .xor => .kwXor
  | .equal => .equal
  | .notEqual => .notEqual
  | .lessThan => .less
  | .greaterThan => .greater
  | .lessOrEqual => .lessEqual
  | .greaterOrEqual => .greaterEqual
  | .isIn => .kwIn
  | .asType => .kwAs

namespace Tree

open Lexeme (mark)

mutual

/-- The tokens of the text of an expression. -/
def Expr.lexemes : Expr → List Lexeme
  | .name id => [id.lexeme]
  | .int v _ => [⟨.intLiteral, toString v⟩]
  | .float v _ => [⟨.floatLiteral, floatText v⟩]
  | .array items _ => mark .leftBracket :: commaLexemes (exprLexemes items) ++ [mark .rightBracket]
  | .arrayType dims base _ =>
    (exprLexemes dims).flatMap (fun d => mark .leftBracket :: d ++ [mark .rightBracket]) ++ base.lexemes
  | .openBound _ => [mark .less, mark .greater]
  | .upperBound upper _ => mark .less :: upper.lexemes ++ [mark .greater]
  | .closedBound lower upper _ =>
    mark .less :: lower.lexemes ++ mark .comma :: upper.lexemes ++ [mark .greater]
  | .index base index optional _ =>
    base.lexemes ++ mark .leftBracket :: index.lexemes ++
      (if optional then [mark .question, mark .rightBracket] else [mark .rightBracket])
  | .property base name _ _ => base.lexemes ++ [mark .dot, ⟨.ident, name⟩]
  | .unary op operand _ => mark op.token :: operandLexemes operand operand.lexemes
  | .binary op left right _ =>
    operandLexemes left left.lexemes ++ mark op.token :: operandLexemes right right.lexemes
  | .call callee inputs explicit outputs _ =>
    callee.lexeme :: mark .leftParen :: commaLexemes (exprLexemes inputs) ++ mark .rightParen ::
      (if explicit then
        mark .colon :: mark .leftParen :: commaLexemes (outputLexemes outputs) ++ [mark .rightParen]
      else [])
  | .decl type name _ => type.lexemes ++ [name.lexeme]

/-- The tokens of each expression. -/
def exprLexemes : List Expr → List (List Lexeme)
  | [] => []
  | e :: es => e.lexemes :: exprLexemes es

/-- The tokens of the text of an output. -/
def Output.lexemes : Output → List Lexeme
  | .inline _ => [mark .kwInline]
  | .target target _ => target.lexemes

/-- The tokens of each output. -/
def outputLexemes : List Output → List (List Lexeme)
  | [] => []
  | o :: os => o.lexemes :: outputLexemes os

end

theorem exprLexemes_eq (es : List Expr) : exprLexemes es = es.map Expr.lexemes := by
  induction es with
  | nil => rfl
  | cons e es ih => rw [exprLexemes, ih, List.map_cons]

theorem outputLexemes_eq (os : List Output) : outputLexemes os = os.map Output.lexemes := by
  induction os with
  | nil => rfl
  | cons o os ih => rw [outputLexemes, ih, List.map_cons]

/-- The tokens of the signature of a macro definition. -/
def signatureLexemes (name : Ident) (inputs outputs : List Ident) : List Lexeme :=
  let outs :=
    match outputs with
    | [] => []
    | [o] => [mark .colon, o.lexeme]
    | os => mark .colon :: mark .leftParen :: identLexemes os ++ [mark .rightParen]
  mark .kwMacro :: name.lexeme :: mark .leftParen :: identLexemes inputs ++ mark .rightParen :: outs

mutual

/-- The tokens of the lines of a statement. -/
def Stmt.lexemes : Stmt → List Lexeme
  | .io isOutput type names _ =>
    mark (if isOutput then .kwOutput else .kwInput) :: type.lexemes ++ identLexemes names ++
      [mark .semicolon]
  | .decl type name _ _ => type.lexemes ++ [name.lexeme, mark .semicolon]
  | .assign target value _ => target.lexemes ++ mark .assign :: value.lexemes ++ [mark .semicolon]
  | .macroDef name inputs outputs body _ _ => signatureLexemes name inputs outputs ++ body.lexemes
  | .call call _ => call.lexemes ++ [mark .semicolon]
  | .expr value _ => value.lexemes ++ [mark .semicolon]
  -- the first condition has no `else` before it
  | .branch clauses otherwise _ => (clauseLexemes clauses).tail ++ otherwiseLexemes otherwise
  | .loop counter start stop noUnroll body _ =>
    mark .kwFor :: counter.lexeme :: mark .assign :: start.lexemes ++ mark .kwTo :: stop.lexemes ++
      (if noUnroll then [mark .kwNoUnroll] else []) ++ body.lexemes
  | .static exports body _ => mark .kwStatic :: identLexemes exports ++ body.lexemes
  | .assert condition _ => mark .kwAssert :: condition.lexemes ++ [mark .semicolon]
  | .ret _ => [mark .kwReturn, mark .semicolon]
  | .includeFile path _ =>
    [mark .kwInclude, ⟨.stringLiteral, Text.quoteBytes path⟩, mark .semicolon]
  | .block b => b.lexemes

/-- The tokens of a block with its braces. -/
def Block.lexemes : Block → List Lexeme
  | .mk statements _ => mark .leftBrace :: stmtLexemes statements ++ [mark .rightBrace]

/-- The tokens of statements. -/
def stmtLexemes : List Stmt → List Lexeme
  | [] => []
  | s :: ss => s.lexemes ++ stmtLexemes ss

/-- The tokens of clauses behind other ones. -/
def clauseLexemes : List Clause → List Lexeme
  | [] => []
  | .mk condition body :: rest =>
    mark .kwElse :: mark .kwIf :: condition.lexemes ++ body.lexemes ++ clauseLexemes rest

/-- The tokens of the body without a condition. -/
def otherwiseLexemes : Option Block → List Lexeme
  | none => []
  | some body => mark .kwElse :: body.lexemes

end

end Tree

end SignalLang
