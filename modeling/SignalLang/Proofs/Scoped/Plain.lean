import SignalLang.Proofs.Staged.Data
import SignalLang.Scoped.Basic

/-!
# Plain scoped programs

What building guarantees of a scoped program: its literals and predefined values are plain constants, its inputs
and outputs are different variables, and a static block exports none of them.
-/

namespace SignalLang.Scoped

mutual

/-- Every literal of an expression is plain. -/
def Expr.Plain : Expr → Prop
  | .literal value _ => value.Plain
  | .var .. | .openBound _ => True
  | .collect items _ => AllPlain items
  | .upperBound upper _ => upper.Plain
  | .closedBound lower upper _ => lower.Plain ∧ upper.Plain
  | .arrayType dims base _ => AllPlain dims ∧ base.Plain
  | .index base indexes _ => base.Plain ∧ IndexesPlain indexes
  | .property base _ _ => base.Plain
  | .unary _ operand _ => operand.Plain
  | .binary _ left right _ => left.Plain ∧ right.Plain
  | .call _ _ inputs outputs _ => AllPlain inputs ∧ OutputsPlain outputs

/-- Every literal of several expressions is plain. -/
def AllPlain : List Expr → Prop
  | [] => True
  | e :: es => e.Plain ∧ AllPlain es

/-- Every literal of indexes is plain. -/
def IndexesPlain : List IndexArg → Prop
  | [] => True
  | .mk e _ :: rest => e.Plain ∧ IndexesPlain rest

/-- Every literal of the outputs of a call is plain. -/
def OutputsPlain : List Output → Prop
  | [] => True
  | .inline _ :: rest => OutputsPlain rest
  | .target t _ :: rest => t.Plain ∧ OutputsPlain rest

/-- Every literal of a target is plain. -/
def Target.Plain : Target → Prop
  | .mk _ indexes _ => AllPlain indexes

end

/-- Every literal of a statement is plain, and it exports none of the variables `io`. -/
def Stmt.Plain (io : List VarId) : Stmt → Prop
  | .create _ type _ => type.Plain
  | .assign target value _ => target.Plain ∧ value.Plain
  | .assert condition _ => condition.Plain
  | .branch clauses _ _ => ∀ c ∈ clauses, c.condition.Plain
  | .loop _ start stop _ _ _ => start.Plain ∧ stop.Plain
  | .static _ exports _ => ∀ v ∈ exports, v ∉ io
  | .block .. | .ret _ => True
  | .expr value _ => value.Plain

/-- What building guarantees of a program. -/
structure Program.Plain (p : Program) : Prop where
  stmts : ∀ i, ∀ st ∈ (p.scope i).body, st.Plain (p.inputs ++ p.outputs)
  initial : ∀ v ∈ p.vars, ∀ k, v.initial = some k → k.Plain
  nodup : (p.inputs ++ p.outputs).Nodup

theorem Program.Plain.initial_var {p : Program} (h : p.Plain) {v : VarId} {k : Constant}
    (hk : (p.var v).initial = some k) : k.Plain := by
  rw [Program.var, Array.getD_eq_getD_getElem?] at hk
  cases found : p.vars[v]? with
  | none =>
    rw [found] at hk
    cases hk
  | some var =>
    rw [found] at hk
    exact h.initial var (Array.mem_of_getElem? found) k hk

end SignalLang.Scoped
