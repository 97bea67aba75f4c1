import SignalLang.Staged.Basic

/-!
# Printing staged programs
-/

namespace SignalLang.Staged

mutual

/-- The text of an expression. -/
def Expr.text : Expr → String
  | .literal value _ _ => value.text
  | .var id _ _ => s!"v{id}"
  | .index base indexes _ _ => base.text ++ indexTexts indexes
  | .collect items _ _ => "[" ++ ", ".intercalate (exprTexts items) ++ "]"
  | .unary op operand _ _ => op.text ++ "(" ++ operand.text ++ ")"
  | .binary op left right _ _ => "(" ++ left.text ++ " " ++ op.text ++ " " ++ right.text ++ ")"
  | .missing => "?"

/-- The texts of expressions. -/
def exprTexts : List Expr → List String
  | [] => []
  | e :: es => e.text :: exprTexts es

/-- Expressions in brackets. -/
def indexTexts : List Expr → String
  | [] => ""
  | e :: es => "[" ++ e.text ++ "]" ++ indexTexts es

end

/-- The text of a target. -/
def Target.text (t : Target) : String := s!"v{t.var}{indexTexts t.indexes}"

namespace Program

/-- The lines of a scope with the scopes inside it; `fuel` bounds their nesting. -/
def scopeLines (p : Program) : (fuel : Nat) → (depth : Nat) → ScopeId → String
  | 0, _, _ => ""
  | fuel + 1, depth, id =>
    let indent := String.ofList (List.replicate (4 * depth) ' ')
    let inner (body : ScopeId) : String := scopeLines p fuel (depth + 1) body
    let line : Stmt → String
      | .assign target value _ => s!"{indent}{target.text} = {value.text}\n"
      | .assert condition _ => s!"{indent}assert {condition.text}\n"
      | .branch clauses otherwise _ =>
        let arm (c : Clause) (i : Nat) : String :=
          let word := if i > 0 then "\x7d else if" else "if"
          s!"{indent}{word} {c.condition.text} \x7b\n" ++ inner c.body
        String.join (clauses.zipIdx.map fun (c, i) => arm c i) ++
          otherwise.elim "" (fun body => s!"{indent}\x7d else \x7b\n" ++ inner body) ++
          s!"{indent}\x7d\n"
      | .loop counter start stop body _ =>
        s!"{indent}for v{counter} = {start.text} to {stop.text} \x7b\n" ++ inner body ++
          s!"{indent}\x7d\n"
      | .inlined body _ => s!"{indent}inline \x7b\n" ++ inner body ++ s!"{indent}\x7d\n"
      | .missing => ""
    String.join ((p.scope id).toList.map line)

/-- The text of a program, static initialization first. -/
def text (p : Program) : String :=
  let list (word : String) (vars : List SlotId) : String :=
    String.join (vars.map fun v => s!"{word} v{v}: {(p.vars.getD v default).ty.text}\n")
  let body (id : ScopeId) : String := p.scopeLines (p.scopes.size + 1) 1 id
  list "input" p.inputs ++ list "output" p.outputs ++ list "static" p.statics ++
    "static_init \x7b\n" ++ body p.staticInit ++ "\x7d\nmain \x7b\n" ++ body p.entry ++ "\x7d\n"

end Program

end SignalLang.Staged
