import SignalLang.Scoped.Basic

/-!
# Printing scoped programs

A scoped program from its entry on, with the number behind each name. Predefined names are left out.
-/

namespace SignalLang.Scoped

namespace Program

/-- Names of variables divided by commas. -/
def names (p : Program) (vars : List VarId) : String := ", ".intercalate (vars.map p.variableName)

mutual

/-- The text of an expression. -/
def exprText (p : Program) : Expr → String
  | .literal value _ => value.text
  | .var id _ => p.variableName id
  | .collect items _ => "[" ++ ", ".intercalate (exprTexts p items) ++ "]"
  | .openBound _ => "<AUTO>"
  | .upperBound upper _ => "<" ++ exprText p upper ++ ">"
  | .closedBound lower upper _ => "<" ++ exprText p lower ++ ", " ++ exprText p upper ++ ">"
  | .arrayType dims base _ =>
    String.join ((exprTexts p dims).map fun d => "[" ++ d ++ "]") ++ exprText p base
  | .index base indexes _ => exprText p base ++ indexTexts p indexes
  | .property base property _ => exprText p base ++ "." ++ property.text
  | .unary op operand _ => op.text ++ "(" ++ exprText p operand ++ ")"
  | .binary op left right _ => "(" ++ exprText p left ++ " " ++ op.text ++ " " ++ exprText p right ++ ")"
  | .call callee _ inputs outputs _ =>
    p.variableName callee ++ "(" ++ ", ".intercalate (exprTexts p inputs) ++ "):(" ++
      ", ".intercalate (outputTexts p outputs) ++ ")"

/-- The texts of expressions. -/
def exprTexts (p : Program) : List Expr → List String
  | [] => []
  | e :: es => exprText p e :: exprTexts p es

/-- Indexes in brackets. -/
def indexTexts (p : Program) : List IndexArg → String
  | [] => ""
  | .mk value optional :: rest =>
    "[" ++ exprText p value ++ (if optional then "?" else "") ++ "]" ++ indexTexts p rest

/-- The texts of outputs. -/
def outputTexts (p : Program) : List Output → List String
  | [] => []
  | .inline _ :: rest => "inline" :: outputTexts p rest
  | .target target _ :: rest => targetText p target :: outputTexts p rest

/-- The text of a target. -/
def targetText (p : Program) : Target → String
  | .mk var indexes _ =>
    p.variableName var ++ String.join ((exprTexts p indexes).map fun i => "[" ++ i ++ "]")

end

/-- The lines of a scope, with the scopes its statements hold; `fuel` bounds their nesting. -/
def scopeLines (p : Program) : (fuel : Nat) → (depth : Nat) → ScopeId → String
  | 0, _, _ => ""
  | fuel + 1, depth, id =>
    let indent := String.ofList (List.replicate (4 * depth) ' ')
    let inner (body : ScopeId) : String := scopeLines p fuel (depth + 1) body
    let line : Stmt → String
      | .create var type _ =>
        let head := s!"{indent}declare {p.variableName var}: {p.exprText type}\n"
        match (p.var var).initial with
        | some (.macroRef site) =>
          let body := p.scope site.body
          head ++ s!"{indent}    macro({p.names body.inputs}) -> ({p.names body.outputs})\n" ++
            scopeLines p fuel (depth + 2) site.body
        | _ => head
      | .assign target value _ => s!"{indent}{p.targetText target} = {p.exprText value}\n"
      | .assert condition _ => s!"{indent}assert {p.exprText condition}\n"
      | .branch clauses otherwise _ =>
        let arm (c : Clause) (i : Nat) : String :=
          let word := if i > 0 then "else if" else "if"
          s!"{indent}{word} {p.exprText c.condition} \x7b\n" ++ inner c.body
        String.join (clauses.zipIdx.map fun (c, i) => arm c i) ++
          otherwise.elim "" (fun body => s!"{indent}else \x7b\n" ++ inner body) ++
          s!"{indent}\x7d\n"
      | .loop counter start stop body allowUnroll _ =>
        let mark := if allowUnroll then "" else " no_unroll"
        s!"{indent}for {p.variableName counter} = {p.exprText start} to {p.exprText stop}{mark} \x7b\n" ++
          inner body ++ s!"{indent}\x7d\n"
      | .static body exports _ =>
        s!"{indent}static ({p.names exports}) \x7b\n" ++ inner body ++ s!"{indent}\x7d\n"
      | .block body _ => s!"{indent}\x7b\n" ++ inner body ++ s!"{indent}\x7d\n"
      | .ret _ => s!"{indent}return\n"
      | .expr value _ => s!"{indent}{p.exprText value}\n"
    String.join ((p.scope id).body.toList.map line)

/-- The text of a program. A nested scope has a larger number, so the nesting is bounded. -/
def text (p : Program) : String :=
  String.join (p.inputs.map fun v => s!"input {p.variableName v}\n") ++
    String.join (p.outputs.map fun v => s!"output {p.variableName v}\n") ++
    p.scopeLines (p.scopes.size + 1) 0 p.entry

end Program

end SignalLang.Scoped
