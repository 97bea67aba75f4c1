import SignalLang.Tree.Basic
import SignalLang.Text.Quoted
import SignalLang.Decimal.Layout

/-!
# Printing trees

A tree in canonical form: one statement a line, four blanks for each level, and parentheses around every
operator that is an operand.
-/

namespace SignalLang.Tree

/-- Names divided by commas. -/
def identNames (ids : List Ident) : String := ", ".intercalate (ids.map (·.name))

/-- A float literal; a point is added where nothing else marks it as one. -/
def floatText (x : Float) : String := Decimal.withPoint ['.', 'e', 'E', 'n'] (Decimal.text x)

/-- Puts parentheses around the text of an operator. -/
def operandText (e : Expr) (text : String) : String :=
  match e with
  | .binary .. | .unary .. => "(" ++ text ++ ")"
  | _ => text

mutual

/-- The canonical text of an expression. -/
def Expr.text : Expr → String
  | .name id => id.name
  | .int v _ => toString v
  | .float v _ => floatText v
  | .array items _ => "[" ++ ", ".intercalate (exprTexts items) ++ "]"
  | .arrayType dims base _ => String.join ((exprTexts dims).map fun d => "[" ++ d ++ "]") ++ base.text
  | .openBound _ => "<>"
  | .upperBound upper _ => "<" ++ upper.text ++ ">"
  | .closedBound lower upper _ => "<" ++ lower.text ++ ", " ++ upper.text ++ ">"
  | .index base index optional _ =>
    base.text ++ "[" ++ index.text ++ (if optional then "?" else "") ++ "]"
  | .property base name _ _ => base.text ++ "." ++ name
  | .unary op operand _ =>
    let gap := if op = .not ∨ op = .bnot then " " else ""
    op.text ++ gap ++ operandText operand operand.text
  | .binary op left right _ =>
    operandText left left.text ++ " " ++ op.text ++ " " ++ operandText right right.text
  | .call callee inputs explicit outputs _ =>
    let outs := if explicit then ":(" ++ ", ".intercalate (outputTexts outputs) ++ ")" else ""
    callee.name ++ "(" ++ ", ".intercalate (exprTexts inputs) ++ ")" ++ outs
  | .decl type name _ => type.text ++ " " ++ name.name

/-- The texts of expressions. -/
def exprTexts : List Expr → List String
  | [] => []
  | e :: es => e.text :: exprTexts es

/-- The text of an output. -/
def Output.text : Output → String
  | .inline _ => "inline"
  | .target target _ => target.text

/-- The texts of outputs. -/
def outputTexts : List Output → List String
  | [] => []
  | o :: os => o.text :: outputTexts os

end

/-- One line at a level of nesting. -/
def indented (depth : Nat) (text : String) : String :=
  String.ofList (List.replicate (4 * depth) ' ') ++ text ++ "\n"

/-- The signature of a macro definition. -/
def signatureText (name : Ident) (inputs outputs : List Ident) : String :=
  let outs :=
    match outputs with
    | [] => ""
    | [o] => ": " ++ o.name
    | os => ": (" ++ identNames os ++ ")"
  "macro " ++ name.name ++ "(" ++ identNames inputs ++ ")" ++ outs

mutual

/-- The lines of a statement at a level of nesting. -/
def Stmt.lines (depth : Nat) : Stmt → String
  | .io isOutput type names _ =>
    let word := if isOutput then "output" else "input"
    indented depth s!"{word} {type.text} {identNames names};"
  | .decl type name _ _ => indented depth s!"{type.text} {name.name};"
  | .assign target value _ => indented depth s!"{target.text} = {value.text};"
  | .macroDef name inputs outputs body _ _ =>
    indented depth (signatureText name inputs outputs ++ " \x7b") ++ body.lines (depth + 1) ++
      indented depth "\x7d"
  | .call call _ => indented depth (call.text ++ ";")
  | .expr value _ => indented depth (value.text ++ ";")
  | .branch clauses otherwise _ =>
    clauseLines depth "if " clauses ++ otherwiseLines depth otherwise ++ indented depth "\x7d"
  | .loop counter start stop noUnroll body _ =>
    let mark := if noUnroll then " no_unroll" else ""
    indented depth (s!"for {counter.name} = {start.text} to {stop.text}{mark} " ++ "\x7b") ++
      body.lines (depth + 1) ++ indented depth "\x7d"
  | .static exports body _ =>
    let names := if exports.isEmpty then "" else identNames exports ++ " "
    indented depth ("static " ++ names ++ "\x7b") ++ body.lines (depth + 1) ++ indented depth "\x7d"
  | .assert condition _ => indented depth s!"assert {condition.text};"
  | .ret _ => indented depth "return;"
  | .includeFile path _ => indented depth ("include " ++ Text.quoteBytes path ++ ";")
  | .block b => indented depth "\x7b" ++ b.lines (depth + 1) ++ indented depth "\x7d"

/-- The lines of the statements of a block. -/
def Block.lines (depth : Nat) : Block → String
  | .mk statements _ => stmtLines depth statements

/-- The lines of statements. -/
def stmtLines (depth : Nat) : List Stmt → String
  | [] => ""
  | s :: ss => s.lines depth ++ stmtLines depth ss

/-- The lines of clauses, the first of which starts with `opening`. -/
def clauseLines (depth : Nat) (opening : String) : List Clause → String
  | [] => ""
  | .mk condition body :: rest =>
    indented depth (opening ++ condition.text ++ " \x7b") ++ body.lines (depth + 1) ++
      clauseLines depth "\x7d else if " rest

/-- The lines of the body without a condition. -/
def otherwiseLines (depth : Nat) : Option Block → String
  | none => ""
  | some body => indented depth "\x7d else \x7b" ++ body.lines (depth + 1)

end

/-- The canonical text of a file. -/
def File.text (f : File) : String := stmtLines 0 f.statements

end SignalLang.Tree
