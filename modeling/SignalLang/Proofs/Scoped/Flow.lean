import Mathlib.Logic.Relation
import Mathlib.Order.Basic
import SignalLang.Proofs.Staged.Macros
import SignalLang.Scoped.Basic

/-!
# Where macros can flow

Macros are values: they are stored, passed to macros and handed back. `Program.Holds p v b` says that the variable
`v` may at some time hold the macro whose body is the scope `b`, `Program.Gives p e b` the same of the value of an
expression. Both follow the ways a value can take, in whatever order statements are worked out.

A scope leads to the scopes inside its statements and to the bodies of the macros that its calls may enter
(`Program.Leads`). A program is acyclic when no scope leads back to itself.
-/

namespace SignalLang.Scoped

/-- A call of a macro, with what it gives and what becomes of the outputs. -/
structure Call where
  callee : VarId
  inputs : List Expr
  outputs : List Output

mutual

/-- The calls in an expression. -/
def Expr.calls : Expr → List Call
  | .literal .. | .var .. | .openBound _ => []
  | .collect items _ => callsOf items
  | .upperBound upper _ => upper.calls
  | .closedBound lower upper _ => lower.calls ++ upper.calls
  | .arrayType dims base _ => callsOf dims ++ base.calls
  | .index base indexes _ => base.calls ++ indexCalls indexes
  | .property base _ _ => base.calls
  | .unary _ operand _ => operand.calls
  | .binary _ left right _ => left.calls ++ right.calls
  | .call callee _ inputs outputs _ => ⟨callee, inputs, outputs⟩ :: (callsOf inputs ++ outputCalls outputs)

/-- The calls in several expressions. -/
def callsOf : List Expr → List Call
  | [] => []
  | e :: es => e.calls ++ callsOf es

/-- The calls in indexes. -/
def indexCalls : List IndexArg → List Call
  | [] => []
  | .mk e _ :: rest => e.calls ++ indexCalls rest

/-- The calls in the outputs of a call. -/
def outputCalls : List Output → List Call
  | [] => []
  | .inline _ :: rest => outputCalls rest
  | .target t _ :: rest => t.calls ++ outputCalls rest

/-- The calls in a target. -/
def Target.calls : Target → List Call
  | .mk _ indexes _ => callsOf indexes

end

/-- The calls in a statement, without those in its scopes. -/
def Stmt.calls : Stmt → List Call
  | .create _ type _ => type.calls
  | .assign target value _ => value.calls ++ target.calls
  | .assert condition _ => condition.calls
  | .branch clauses _ _ => clauses.flatMap (·.condition.calls)
  | .loop _ start stop _ _ _ => start.calls ++ stop.calls
  | .static .. | .block .. | .ret _ => []
  | .expr value _ => value.calls

/-- The scopes of a statement. -/
def Stmt.scopes : Stmt → List ScopeId
  | .branch clauses otherwise _ => clauses.map (·.body) ++ otherwise.toList
  | .loop _ _ _ body _ _ | .static body _ _ | .block body _ => [body]
  | .create .. | .assign .. | .assert .. | .ret _ | .expr .. => []

/-! ## What is written -/

/-- The variable that an output of a call is assigned to. -/
def Output.written : Output → List VarId
  | .inline _ => []
  | .target t _ => [t.var]

/-- The variables that the outputs of calls are assigned to. -/
def writtenBy (calls : List Call) : List VarId := calls.flatMap fun call => call.outputs.flatMap Output.written

/-- The variables that a statement makes or assigns, without those of its scopes and of macros it calls. -/
def Stmt.written (st : Stmt) : List VarId :=
  writtenBy st.calls ++
    match st with
    | .create v _ _ => [v]
    | .assign target _ _ => [target.var]
    | .loop counter _ _ _ _ _ => [counter]
    | .static _ exports _ => exports
    | .assert .. | .branch .. | .block .. | .ret _ | .expr .. => []

/-- The variables that a scope makes or assigns, without those of scopes and macros it enters. -/
def Scope.written (s : Scope) : List VarId := s.inputs ++ s.body.toList.flatMap Stmt.written

/-- Only variables of `W` are written. -/
abbrev Only (W : VarId → Prop) (vs : List VarId) : Prop := ∀ v ∈ vs, W v

theorem Only.left {W : VarId → Prop} {xs ys : List VarId} (h : Only W (xs ++ ys)) : Only W xs :=
  fun v hv => h v (List.mem_append_left _ hv)

theorem Only.right {W : VarId → Prop} {xs ys : List VarId} (h : Only W (xs ++ ys)) : Only W ys :=
  fun v hv => h v (List.mem_append_right _ hv)

theorem Only.conditions {W : VarId → Prop} {cs : List Clause}
    (h : Only W (writtenBy (cs.flatMap (·.condition.calls)))) :
    ∀ x ∈ cs, Only W (writtenBy x.condition.calls) := by
  intro x hx v hv
  obtain ⟨call, hcall, hv⟩ := List.mem_flatMap.1 hv
  exact h v (List.mem_flatMap.2 ⟨call, List.mem_flatMap.2 ⟨x, hx, hcall⟩, hv⟩)

theorem writtenBy_append (xs ys : List Call) : writtenBy (xs ++ ys) = writtenBy xs ++ writtenBy ys :=
  List.flatMap_append

theorem writtenBy_cons (x : Call) (xs : List Call) :
    writtenBy (x :: xs) = x.outputs.flatMap Output.written ++ writtenBy xs := List.flatMap_cons

/-! ## What is mentioned -/

mutual

/-- The variables that an expression mentions. -/
def Expr.vars : Expr → List VarId
  | .literal .. | .openBound _ => []
  | .var v _ => [v]
  | .collect items _ => varsOf items
  | .upperBound upper _ => upper.vars
  | .closedBound lower upper _ => lower.vars ++ upper.vars
  | .arrayType dims base _ => varsOf dims ++ base.vars
  | .index base indexes _ => base.vars ++ indexVars indexes
  | .property base _ _ => base.vars
  | .unary _ operand _ => operand.vars
  | .binary _ left right _ => left.vars ++ right.vars
  | .call callee _ inputs outputs _ => callee :: (varsOf inputs ++ outputVars outputs)

/-- The variables that several expressions mention. -/
def varsOf : List Expr → List VarId
  | [] => []
  | e :: es => e.vars ++ varsOf es

/-- The variables that indexes mention. -/
def indexVars : List IndexArg → List VarId
  | [] => []
  | .mk e _ :: rest => e.vars ++ indexVars rest

/-- The variables that the outputs of a call mention. -/
def outputVars : List Output → List VarId
  | [] => []
  | .inline _ :: rest => outputVars rest
  | .target t _ :: rest => t.vars ++ outputVars rest

/-- The variables that a target mentions. -/
def Target.vars : Target → List VarId
  | .mk v indexes _ => v :: varsOf indexes

end

/-- The variables that a statement mentions, without those of its scopes and of macros it calls. -/
def Stmt.vars : Stmt → List VarId
  | .create v type _ => v :: type.vars
  | .assign target value _ => value.vars ++ target.vars
  | .assert condition _ => condition.vars
  | .branch clauses _ _ => clauses.flatMap (·.condition.vars)
  | .loop counter start stop _ _ _ => counter :: (start.vars ++ stop.vars)
  | .static _ exports _ => exports
  | .block .. | .ret _ => []
  | .expr value _ => value.vars

/-- The variables that a scope mentions, without those of scopes and macros it enters. -/
def Scope.vars (s : Scope) : List VarId := s.inputs ++ s.outputs ++ s.body.toList.flatMap Stmt.vars

/-! ## Holding and giving -/

namespace Program

/-- A call stands in a scope. -/
def CallIn (p : Program) (i : ScopeId) (call : Call) : Prop := ∃ st ∈ (p.scope i).body, call ∈ st.calls

mutual

/-- A variable may hold the macro with a body: from the start, by an assignment, or as an input or a target of a
call. -/
inductive Holds (p : Program) : VarId → ScopeId → Prop where
  | initial {v : VarId} {value : Constant} {b : ScopeId} :
    (p.var v).initial = some value → b ∈ value.macros → Holds p v b
  | assigned {i : ScopeId} {v : VarId} {indexes : List Expr} {targetSpan span : Span} {e : Expr}
    {b : ScopeId} :
    Stmt.assign (.mk v indexes targetSpan) e span ∈ (p.scope i).body → Gives p e b → Holds p v b
  | passed {i m : ScopeId} {call : Call} {n : Nat} {v : VarId} {e : Expr} {b : ScopeId} :
    p.CallIn i call → Holds p call.callee m → (p.scope m).inputs[n]? = some v → call.inputs[n]? = some e →
    Gives p e b → Holds p v b
  | returned {i m : ScopeId} {call : Call} {n : Nat} {w v : VarId} {indexes : List Expr}
    {targetSpan span : Span} {b : ScopeId} :
    p.CallIn i call → Holds p call.callee m → (p.scope m).outputs[n]? = some w →
    call.outputs[n]? = some (.target (.mk v indexes targetSpan) span) → Holds p w b → Holds p v b

/-- The value of an expression may have the macro with a body in it. -/
inductive Gives (p : Program) : Expr → ScopeId → Prop where
  | literal {value : Constant} {span : Span} {b : ScopeId} :
    b ∈ value.macros → Gives p (.literal value span) b
  | var {v : VarId} {span : Span} {b : ScopeId} : Holds p v b → Gives p (.var v span) b
  | collect {items : List Expr} {e : Expr} {span : Span} {b : ScopeId} :
    e ∈ items → Gives p e b → Gives p (.collect items span) b
  | index {base : Expr} {indexes : List IndexArg} {span : Span} {b : ScopeId} :
    Gives p base b → Gives p (.index base indexes span) b
  | asType {left right : Expr} {span : Span} {b : ScopeId} :
    Gives p left b → Gives p (.binary .asType left right span) b
  | inline {callee : VarId} {calleeSpan span outSpan : Span} {inputs : List Expr} {outputs : List Output}
    {m : ScopeId} {n : Nat} {w : VarId} {b : ScopeId} :
    Holds p callee m → (p.scope m).outputs[n]? = some w → outputs[n]? = some (.inline outSpan) →
    Holds p w b → Gives p (.call callee calleeSpan inputs outputs span) b

end

/-- Working a scope out may enter another one. -/
inductive Leads (p : Program) : ScopeId → ScopeId → Prop where
  | nested {i j : ScopeId} {st : Stmt} : st ∈ (p.scope i).body → j ∈ st.scopes → Leads p i j
  | call {i j : ScopeId} {call : Call} : p.CallIn i call → p.Holds call.callee j → Leads p i j

/-- A scope without calls and without scopes in its statements leads nowhere. -/
theorem eq_of_reaches_leaf {p : Program} {i j : ScopeId}
    (leaf : ∀ st ∈ (p.scope i).body, st.calls = [] ∧ st.scopes = []) (path : Relation.ReflTransGen p.Leads i j) :
    j = i := by
  rcases path.cases_head with same | ⟨k, lead, -⟩
  · exact same.symm
  · cases lead with
    | nested stands mem => exact absurd ((leaf _ stands).2 ▸ mem) List.not_mem_nil
    | call stands _ =>
      obtain ⟨st, stands, mem⟩ := stands
      exact absurd ((leaf st stands).1 ▸ mem) List.not_mem_nil

/-- No scope leads back to itself. -/
def Acyclic (p : Program) : Prop := ∀ i, ¬Relation.TransGen p.Leads i i

/-- A measure that goes down along every lead rules cycles out. -/
theorem acyclic_of_measure {p : Program} {α : Type} [Preorder α] (f : ScopeId → α)
    (h : ∀ i j, p.Leads i j → f j < f i) : p.Acyclic := by
  have down {i j : ScopeId} (path : Relation.TransGen p.Leads i j) : f j < f i := by
    induction path with
    | single lead => exact h _ _ lead
    | tail _ lead ih => exact lt_trans (h _ _ lead) ih
  exact fun i cycle => lt_irrefl _ (down cycle)

end Program

end SignalLang.Scoped
