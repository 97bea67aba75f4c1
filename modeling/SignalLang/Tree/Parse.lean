import SignalLang.LongWord
import SignalLang.Tree.Basic
import SignalLang.Tree.Stream
import SignalLang.Text.Integer
import SignalLang.Decimal.Read
import SignalLang.Token.Scan

/-!
# Parsing

`parse` reads the tokens of a file into a tree. Operators are read by precedence climbing. A statement
that cannot be read is reported and skipped up to a place where the next one is likely to start, so one
pass reports several mistakes.

The parsers call each other down a bound on the depth of calls. Between two calls of one parser a token is
read, so a bound of a fixed number per token is never met.
-/

namespace SignalLang.Tree

/-- The operator a token stands for between two operands. -/
def binaryOp? : TokenKind → Option BinaryOp
  | .plus => some .add
  | .minus => some .subtract
  | .star => some .multiply
  | .slash => some .divide
  | .percent => some .modulo
  | .starStar => some .power
  | .shiftLeft => some .leftShift
  | .shiftRight => some .rightShift
  | .kwBAnd => some .band
  | .kwBOr => some .bor
  | .kwBXor => some .bxor
  | .kwAnd => some .and
  | .kwOr => some .or
  | .kwXor => some .xor
  | .equal => some .equal
  | .notEqual => some .notEqual
  | .less => some .lessThan
  | .greater => some .greaterThan
  | .lessEqual => some .lessOrEqual
  | .greaterEqual => some .greaterOrEqual
  | .kwIn => some .isIn
  | .kwAs => some .asType
  | _ => none

/-- The operator a token stands for before an operand. -/
def unaryOp? : TokenKind → Option UnaryOp
  | .minus => some .negate
  | .kwNot => some .not
  | .kwBNot => some .bnot
  | _ => none

/-- The value of an integer literal. Separators do not count, and it must fit a signed 64-bit word. -/
def intValue? (lexeme : String) : Option Int := do
  let n ← Text.unsigned? (lexeme.toList.filter (· ≠ '_'))
  if LongWord.inRange n then some n else none

/-- The value of a float literal; separators do not count. -/
def floatValue? (lexeme : String) : Option Float :=
  Decimal.parse? (String.ofList (lexeme.toList.filter (· ≠ '_')))

open Parse

/-- A name. -/
def ident : Parse Ident := do
  let t ← peek
  expect .ident
  return ⟨t.lexeme, ← spanOf t⟩

/-- Names divided by commas. -/
def identList : Nat → Parse (List Ident)
  | 0 => do fail (← peek) .tooDeep
  | fuel + 1 => do
    let name ← ident
    if ← accept .comma then return name :: (← identList fuel) else return [name]

/-- A declaration of the next name with a type that was read before. -/
def declFrom (type : Expr) : Parse Expr := do
  let name ← ident
  return .decl type name (type.span.union name.span)

mutual

/-- An expression whose operators bind at least as tightly as `least`. -/
def binary (least : Nat) : Nat → Parse Expr
  | 0 => do fail (← peek) .tooDeep
  | fuel + 1 => do
    let left ← unary fuel
    binaryTail least left fuel

/-- The operators and operands that follow `left`. -/
def binaryTail (least : Nat) (left : Expr) : Nat → Parse Expr
  | 0 => do fail (← peek) .tooDeep
  | fuel + 1 => do
    match binaryOp? (← peek).kind with
    | none => return left
    | some op =>
      if op.precedence < least then return left
      else
        let _ ← advance
        let right ← binary op.rightPrecedence fuel
        binaryTail least (.binary op left right (left.span.union right.span)) fuel

/-- An operand with the operators before it. -/
def unary : Nat → Parse Expr
  | 0 => do fail (← peek) .tooDeep
  | fuel + 1 => do
    let t ← peek
    match unaryOp? t.kind with
    | some op =>
      let _ ← advance
      let operand ← unary fuel
      return .unary op operand ((← spanOf t).union operand.span)
    | none =>
      let base ← primary fuel
      postfixes t base fuel

/-- Calls, indexes and properties behind an expression that starts at `start`. -/
def postfixes (start : Token) (base : Expr) : Nat → Parse Expr
  | 0 => do fail (← peek) .tooDeep
  | fuel + 1 => do
    match (← peek).kind with
    | .leftParen =>
      match base with
      | .name callee => postfixes start (← call callee fuel) fuel
      | _ => return base
    | .leftBracket =>
      let _ ← advance
      let index ← binary 0 fuel
      let optional ← accept .question
      expect .rightBracket
      postfixes start (.index base index optional (← spanFrom start)) fuel
    | .dot =>
      let _ ← advance
      let name ← peek
      expect .ident
      postfixes start (.property base name.lexeme (← spanOf name) (← spanFrom start)) fuel
    | _ => return base

/-- The inputs of a macro call and its outputs, if they are listed. -/
def call (callee : Ident) : Nat → Parse Expr
  | 0 => do fail (← peek) .tooDeep
  | fuel + 1 => do
    let _ ← advance
    let inputs ← exprList .rightParen fuel
    expect .rightParen
    if (← check .colon) && (← peekSecond).kind = .leftParen then
      let _ ← advance
      let _ ← advance
      let outputs ← outputList fuel
      expect .rightParen
      return .call callee inputs true outputs (← callSpan callee)
    else return .call callee inputs false [] (← callSpan callee)
where
  callSpan (callee : Ident) : Parse Span := do
    let s ← get
    return s.previous.elim callee.span fun t => callee.span.union (t.span s.file)

/-- Expressions divided by commas, up to a closing token. -/
def exprList (close : TokenKind) : Nat → Parse (List Expr)
  | 0 => do fail (← peek) .tooDeep
  | fuel + 1 => do
    if (← check close) || (← atEnd) then return []
    let e ← binary 0 fuel
    if ← accept .comma then return e :: (← exprList close fuel) else return [e]

/-- Outputs divided by commas, up to the closing parenthesis. -/
def outputList : Nat → Parse (List Output)
  | 0 => do fail (← peek) .tooDeep
  | fuel + 1 => do
    if (← check .rightParen) || (← atEnd) then return []
    let o ← output fuel
    if ← accept .comma then return o :: (← outputList fuel) else return [o]

/-- One output of a macro call. -/
def output : Nat → Parse Output
  | 0 => do fail (← peek) .tooDeep
  | fuel + 1 => do
    let start ← peek
    if start.kind = .kwInline then
      let _ ← advance
      return .inline (← spanOf start)
    else
      let e ← binary 0 fuel
      let target ← if ← check .ident then declFrom e else pure e
      if target.isAssignable then return .target target target.span else fail start .invalidOutput

/-- A literal, a name, an expression in parentheses, an array, an array type or a type bound. -/
def primary : Nat → Parse Expr
  | 0 => do fail (← peek) .tooDeep
  | fuel + 1 => do
    let t ← peek
    match t.kind with
    | .intLiteral =>
      let _ ← advance
      match intValue? t.lexeme with
      | some v => return .int v (← spanOf t)
      | none => fail t (.invalidInt t.lexeme)
    | .floatLiteral =>
      let _ ← advance
      match floatValue? t.lexeme with
      | some v => return .float v (← spanOf t)
      | none => fail t (.invalidFloat t.lexeme)
    | .ident =>
      let _ ← advance
      return .name ⟨t.lexeme, ← spanOf t⟩
    | .leftParen =>
      let _ ← advance
      let e ← binary 0 fuel
      expect .rightParen
      return e
    | .leftBracket =>
      match ← attempt (arrayType fuel) with
      | some type => return type
      | none =>
        let _ ← advance
        let items ← exprList .rightBracket fuel
        expect .rightBracket
        return .array items (← spanFrom t)
    | .less => typeBound fuel
    | kind => fail t (.unexpected kind)

/-- Lengths in brackets and the base of an array type, or nothing if it is none. -/
def arrayType : Nat → Parse (Option Expr)
  | 0 => do fail (← peek) .tooDeep
  | fuel + 1 => do
    let start ← peek
    match ← arrayDims fuel with
    | none => return none
    | some dims =>
      match (← peek).kind with
      | .ident | .leftParen | .less =>
        let base ← primary fuel
        return some (.arrayType dims base (← spanFrom start))
      | _ => return none

/-- Expressions in brackets, or nothing if a bracket is not closed. -/
def arrayDims : Nat → Parse (Option (List Expr))
  | 0 => do fail (← peek) .tooDeep
  | fuel + 1 => do
    if ← accept .leftBracket then
      let dim ← binary 0 fuel
      if ← accept .rightBracket then return (← arrayDims fuel).map (dim :: ·) else return none
    else return some []

/-- `<>`, `<upper>` or `<lower, upper>`. -/
def typeBound : Nat → Parse Expr
  | 0 => do fail (← peek) .tooDeep
  | fuel + 1 => do
    let start ← advance
    if ← check .greater then
      expect .greater
      return .openBound (← spanFrom start)
    else
      let first ← unary fuel
      if ← accept .comma then
        let second ← unary fuel
        expect .greater
        return .closedBound first second (← spanFrom start)
      else
        expect .greater
        return .upperBound first (← spanFrom start)

end

/-- A full expression. -/
def expression (fuel : Nat) : Parse Expr := binary 0 fuel

/-- `input TYPE names;` or `output TYPE names;` -/
def ioDecl (fuel : Nat) : Parse Stmt := do
  let start ← advance
  let type ← expression fuel
  let names ← identList fuel
  expect .semicolon
  return .io (start.kind = .kwOutput) type names (← spanFrom start)

/-- `assert condition;` -/
def assertStmt (fuel : Nat) : Parse Stmt := do
  let start ← advance
  let condition ← expression fuel
  expect .semicolon
  return .assert condition (← spanFrom start)

/-- `include "path";` -/
def includeStmt : Parse Stmt := do
  let start ← advance
  let t ← peek
  expect .stringLiteral
  match Text.unquote? t.lexeme with
  | none => fail t (.invalidString t.lexeme)
  | some path =>
    expect .semicolon
    return .includeFile path (← spanFrom start)

/-- A declaration, an assignment, a macro call or another expression: all start with an expression. -/
def simpleStmt (fuel : Nat) : Parse Stmt := do
  let start ← peek
  let e ← expression fuel
  if ← check .ident then
    let name ← ident
    let declSpan := e.span.union name.span
    if ← accept .assign then
      assignTo start (.decl e name declSpan)
    else
      expect .semicolon
      return .decl e name declSpan (← spanFrom start)
  else if ← accept .assign then
    if e.isAssignable then assignTo start e else fail start .invalidTarget
  else
    expect .semicolon
    match e with
    | .call .. => return .call e (← spanFrom start)
    | _ => return .expr e (← spanFrom start)
where
  assignTo (start : Token) (target : Expr) : Parse Stmt := do
    let value ← expression fuel
    expect .semicolon
    return .assign target value (← spanFrom start)

/-- The inputs of a macro definition, in parentheses. -/
def macroInputs (fuel : Nat) : Parse (List Ident) := do
  expect .leftParen
  let inputs ← if ← check .rightParen then pure [] else identList fuel
  expect .rightParen
  return inputs

/-- The outputs of a macro definition: none, one name, or names in parentheses. -/
def macroOutputs (fuel : Nat) : Parse (List Ident) := do
  if ← accept .colon then
    if ← accept .leftParen then
      let outputs ← if ← check .rightParen then pure [] else identList fuel
      expect .rightParen
      return outputs
    else return [← ident]
  else return []

mutual

/-- A statement; a lone semicolon is none. -/
def statement : Nat → Parse (Option Stmt)
  | 0 => do fail (← peek) .tooDeep
  | fuel + 1 => do
    match (← peek).kind with
    | .kwInput | .kwOutput => some <$> ioDecl fuel
    | .kwMacro => some <$> macroDef fuel
    | .kwIf => some <$> branch fuel
    | .kwFor => some <$> loop fuel
    | .kwStatic => some <$> static fuel
    | .kwAssert => some <$> assertStmt fuel
    | .kwReturn =>
      let start ← advance
      expect .semicolon
      return some (.ret (← spanFrom start))
    | .kwInclude => some <$> includeStmt
    | .leftBrace => (fun b => some (.block b)) <$> block fuel
    | .semicolon =>
      let _ ← advance
      return none
    | _ => some <$> simpleStmt fuel

/-- Statements in braces. -/
def block : Nat → Parse Block
  | 0 => do fail (← peek) .tooDeep
  | fuel + 1 => do
    let start ← peek
    expect .leftBrace
    let statements ← statementList fuel
    expect .rightBrace
    return .mk statements (← spanFrom start)

/-- Statements up to a closing brace. -/
def statementList : Nat → Parse (List Stmt)
  | 0 => do fail (← peek) .tooDeep
  | fuel + 1 => do
    if (← check .rightBrace) || (← atEnd) then return []
    let first ← statement fuel
    return first.toList ++ (← statementList fuel)

/-- `macro Name(inputs): outputs { … }` -/
def macroDef : Nat → Parse Stmt
  | 0 => do fail (← peek) .tooDeep
  | fuel + 1 => do
    let start ← advance
    let name ← ident
    let inputs ← macroInputs fuel
    let outputs ← macroOutputs fuel
    let header ← spanFrom start
    let body ← block fuel
    return .macroDef name inputs outputs body header (← spanFrom start)

/-- `if … { … } else if … { … } else { … }` -/
def branch : Nat → Parse Stmt
  | 0 => do fail (← peek) .tooDeep
  | fuel + 1 => do
    let start ← advance
    let (clauses, otherwise) ← clauseList fuel
    return .branch clauses otherwise (← spanFrom start)

/-- Conditions with their bodies, and the last body without one. -/
def clauseList : Nat → Parse (List Clause × Option Block)
  | 0 => do fail (← peek) .tooDeep
  | fuel + 1 => do
    let condition ← expression fuel
    let body ← block fuel
    let clause := Clause.mk condition body
    if ← accept .kwElse then
      if ← accept .kwIf then
        let (clauses, otherwise) ← clauseList fuel
        return (clause :: clauses, otherwise)
      else return ([clause], some (← block fuel))
    else return ([clause], none)

/-- `for counter = start to stop no_unroll { … }` -/
def loop : Nat → Parse Stmt
  | 0 => do fail (← peek) .tooDeep
  | fuel + 1 => do
    let start ← advance
    let counter ← ident
    expect .assign
    let lower ← expression fuel
    expect .kwTo
    let upper ← expression fuel
    let noUnroll ← accept .kwNoUnroll
    let body ← block fuel
    return .loop counter lower upper noUnroll body (← spanFrom start)

/-- `static exports { … }` -/
def static : Nat → Parse Stmt
  | 0 => do fail (← peek) .tooDeep
  | fuel + 1 => do
    let start ← advance
    let exports ← if ← check .leftBrace then pure [] else identList fuel
    let body ← block fuel
    return .static exports body (← spanFrom start)

end

/-- Whether a statement of this class ends a search for the next statement. -/
def startsStatement : TokenKind → Bool
  | .kwMacro | .kwIf | .kwFor | .kwStatic | .kwInput | .kwOutput | .kwAssert | .kwInclude => true
  | _ => false

/-- Skips tokens up to one behind a semicolon or a closing brace, or one that starts a statement. -/
def skipTo (file : Int) (previous : Option Token) : List Token → Stream
  | [] => ⟨file, previous, []⟩
  | t :: rest =>
    if t.kind = .endOfFile ∨ previous.any (fun p => p.kind = .semicolon ∨ p.kind = .rightBrace) ∨
        startsStatement t.kind then ⟨file, previous, t :: rest⟩
    else skipTo file (some t) rest

/-- Moves behind the token where a statement failed and on to where the next one may start. -/
def recover (s : Stream) : Stream :=
  let s := s.advance
  skipTo s.file s.previous s.rest

/-- The statements of a file, the errors among them, and what is left. -/
def topLevel (fuel : Nat) : (steps : Nat) → Stream → List Stmt × List ParseError × Stream
  | 0, s => ([], [], s)
  | steps + 1, s =>
    if s.atEnd then ([], [], s)
    else
      match (statement fuel).run s with
      | (.ok stmt, s') =>
        let (stmts, errors, final) := topLevel fuel steps s'
        (stmt.toList ++ stmts, errors, final)
      | (.error e, s') =>
        let (stmts, errors, final) := topLevel fuel steps (recover s')
        (stmts, e :: errors, final)

/-- A file as far as it could be read, with every error. -/
structure Parsed where
  file : File
  errors : List ParseError

/-- Parses the tokens of a file. -/
def parse (file : Int) (tokens : List Token) : Parsed :=
  let start : Stream := ⟨file, none, tokens⟩
  let (statements, errors, final) := topLevel (16 * (tokens.length + 1)) (tokens.length + 1) start
  ⟨⟨statements, final.spanFrom start.peek⟩, errors⟩

/-- Why the text of a file is no program. -/
inductive SourceError where
  | scan (problem : Problem)
  | parse (first : ParseError) (count : Nat)
deriving DecidableEq, Repr

namespace SourceError

/-- The one-line form. -/
def message : SourceError → String
  | .scan problem => problem.message
  | .parse first count => s!"parsing failed with {count} error(s): {first.message}"

/-- The problem behind the error. -/
def problem : SourceError → Problem
  | .scan problem => problem
  | .parse first _ => first.problem

end SourceError

/-- Scans and parses one file of a library. -/
def ofLibrary (lib : Library) (file : Nat) : Except SourceError File :=
  match Token.scan (lib.contentOf file) with
  | .error e =>
    let place : Position := ⟨e.place.line, e.place.column, e.place.offset⟩
    .error (.scan (.error .syntaxError (.point file place) e.fault.text))
  | .ok tokens =>
    match parse file tokens with
    | ⟨tree, []⟩ => .ok tree
    | ⟨_, e :: es⟩ => .error (.parse e (es.length + 1))

end SignalLang.Tree
