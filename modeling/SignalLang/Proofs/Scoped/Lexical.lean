import SignalLang.Proofs.Scoped.Flow
import SignalLang.Proofs.Staged.Data

/-!
# Lexical programs

In a program that was built from a tree a statement uses only what is in sight where it stands: what the statements
before it have declared, the inputs of the macro it is in, and what was in sight where its scope began. A `Layout` says
for each scope what was in sight there, which variables were made inside it (they are numbered one after the other), and
which macro body it belongs to; for each variable it says to which macro body that belongs.

`Layout.rank` and `Layout.height` number the macro bodies so that a macro has a smaller number than everything around
it. What is in sight in a scope is at least as high as the scope, and a macro that can be called by name there is
lower. So no call makes a variable again that is in sight where the call stands.
-/

namespace SignalLang

namespace Scoped

/-- The variables a statement brings into sight for the statements behind it. -/
def Stmt.declares : Stmt → List VarId
  | .create v _ _ => [v]
  | .static _ exports _ => exports
  | _ => []

section Uses

variable (R W : VarId → Prop)

mutual

/-- An expression reads only variables among `R` and assigns only variables among `W`, and its literals are
plain. -/
def Expr.Uses : Expr → Prop
  | .literal value _ => value.Plain
  | .var id _ => R id
  | .collect items _ => AllUse items
  | .openBound _ => True
  | .upperBound upper _ => upper.Uses
  | .closedBound lower upper _ => lower.Uses ∧ upper.Uses
  | .arrayType dims base _ => AllUse dims ∧ base.Uses
  | .index base indexes _ => base.Uses ∧ IndexesUse indexes
  | .property base _ _ => base.Uses
  | .unary _ operand _ => operand.Uses
  | .binary _ left right _ => left.Uses ∧ right.Uses
  | .call callee _ inputs outputs _ => R callee ∧ AllUse inputs ∧ OutputsUse outputs

/-- The same of several expressions. -/
def AllUse : List Expr → Prop
  | [] => True
  | e :: es => e.Uses ∧ AllUse es

/-- The same of indexes. -/
def IndexesUse : List IndexArg → Prop
  | [] => True
  | .mk e _ :: rest => e.Uses ∧ IndexesUse rest

/-- The same of the outputs of a call. -/
def OutputsUse : List Output → Prop
  | [] => True
  | .inline _ :: rest => OutputsUse rest
  | .target t _ :: rest => t.Uses ∧ OutputsUse rest

/-- The same of a target, which is assigned. -/
def Target.Uses : Target → Prop
  | .mk var indexes _ => W var ∧ AllUse indexes

end

end Uses

section Mono

variable {R W R' W' : VarId → Prop}

mutual

theorem Expr.Uses.mono (hR : ∀ v, R v → R' v) (hW : ∀ v, W v → W' v) : {e : Expr} → e.Uses R W → e.Uses R' W'
  | .literal .., h => h
  | .var id _, h => hR id h
  | .collect items _, h => AllUse.mono hR hW (l := items) h
  | .openBound _, _ => trivial
  | .upperBound upper _, h => Expr.Uses.mono hR hW (e := upper) h
  | .closedBound .., h => ⟨Expr.Uses.mono hR hW h.1, Expr.Uses.mono hR hW h.2⟩
  | .arrayType .., h => ⟨AllUse.mono hR hW h.1, Expr.Uses.mono hR hW h.2⟩
  | .index .., h => ⟨Expr.Uses.mono hR hW h.1, IndexesUse.mono hR hW h.2⟩
  | .property base _ _, h => Expr.Uses.mono hR hW (e := base) h
  | .unary _ operand _, h => Expr.Uses.mono hR hW (e := operand) h
  | .binary .., h => ⟨Expr.Uses.mono hR hW h.1, Expr.Uses.mono hR hW h.2⟩
  | .call callee .., h => ⟨hR callee h.1, AllUse.mono hR hW h.2.1, OutputsUse.mono hR hW h.2.2⟩

theorem AllUse.mono (hR : ∀ v, R v → R' v) (hW : ∀ v, W v → W' v) :
    {l : List Expr} → AllUse R W l → AllUse R' W' l
  | [], _ => trivial
  | _ :: _, h => ⟨Expr.Uses.mono hR hW h.1, AllUse.mono hR hW h.2⟩

theorem IndexesUse.mono (hR : ∀ v, R v → R' v) (hW : ∀ v, W v → W' v) :
    {l : List IndexArg} → IndexesUse R W l → IndexesUse R' W' l
  | [], _ => trivial
  | .mk _ _ :: _, h => ⟨Expr.Uses.mono hR hW h.1, IndexesUse.mono hR hW h.2⟩

theorem OutputsUse.mono (hR : ∀ v, R v → R' v) (hW : ∀ v, W v → W' v) :
    {l : List Output} → OutputsUse R W l → OutputsUse R' W' l
  | [], _ => trivial
  | .inline _ :: rest, h => OutputsUse.mono hR hW (l := rest) h
  | .target _ _ :: _, h => ⟨Target.Uses.mono hR hW h.1, OutputsUse.mono hR hW h.2⟩

theorem Target.Uses.mono (hR : ∀ v, R v → R' v) (hW : ∀ v, W v → W' v) : {t : Target} → t.Uses R W → t.Uses R' W'
  | .mk var _ _, h => ⟨hW var h.1, AllUse.mono hR hW h.2⟩

end

end Mono

/-- Where the scopes and the variables of a program belong. -/
structure Layout where
  /-- The variables in sight where a scope begins. -/
  sees : ScopeId → VarId → Prop
  /-- The variables made inside a scope are those from `first` up to, but not with, `past`. -/
  first : ScopeId → VarId
  past : ScopeId → VarId
  /-- The body of the innermost macro around a scope. -/
  frame : ScopeId → ScopeId
  /-- The body of the innermost macro around a variable. -/
  owner : VarId → ScopeId

namespace Layout

/-- The variable of the macro that a scope belongs to; it was made after everything in the macro. -/
def rank (L : Layout) (i : ScopeId) : VarId := L.past (L.frame i)

/-- The variable of the macro that a variable belongs to. -/
def height (L : Layout) (v : VarId) : VarId := L.past (L.owner v)

/-- A variable was made inside a scope, and by the same macro. -/
structure Inside (L : Layout) (i : ScopeId) (v : VarId) : Prop where
  owner : L.owner v = L.frame i
  first : L.first i ≤ v
  past : v < L.past i

end Layout

namespace Program

/-- The statements of a scope. -/
def statements (p : Program) (i : ScopeId) : List Stmt := (p.scope i).body.toList

/-- The variables in sight in a scope behind some of its statements. -/
def Sight (p : Program) (L : Layout) (i : ScopeId) (before : List Stmt) (v : VarId) : Prop :=
  (∃ st ∈ before, v ∈ st.declares) ∨ v ∈ (p.scope i).inputs ∨ L.sees i v

/-- A variable among `S` that may be assigned: it has no value from the start. -/
def Settable (p : Program) (S : VarId → Prop) (v : VarId) : Prop := S v ∧ (p.var v).initial = none

/-- A scope may be nested in the scope `i`, at a place where `S` is in sight, and sees what is among `T`. -/
structure Nests (p : Program) (L : Layout) (i : ScopeId) (S T : VarId → Prop) (j : ScopeId) : Prop where
  frame : L.frame j = L.frame i
  sees : ∀ v, L.sees j v → T v
  inputs : (p.scope j).inputs = []
  first : L.first i ≤ L.first j
  past : L.past j ≤ L.past i
  apart : ∀ v, S v → ¬(L.first j ≤ v ∧ v < L.past j)
  inner : i < j

/-- A nested scope belongs to the body of the scope around it. -/
theorem Nests.rank {p : Program} {L : Layout} {i j : ScopeId} {S T : VarId → Prop} (hn : p.Nests L i S T j) :
    L.rank j = L.rank i := by
  rw [Layout.rank, Layout.rank, hn.frame]

/-- A variable made inside a nested scope was made inside the scope around it. -/
theorem Nests.inside {p : Program} {L : Layout} {i j : ScopeId} {S T : VarId → Prop} {v : VarId}
    (hn : p.Nests L i S T j) (hv : L.Inside j v) : L.Inside i v :=
  ⟨hv.owner.trans hn.frame, Nat.le_trans hn.first hv.first, Nat.lt_of_lt_of_le hv.past hn.past⟩

/-- What a scope needs to stand in place of the variable `v`, which is not in sight yet. -/
structure Declares (p : Program) (L : Layout) (i : ScopeId) (S : VarId → Prop) (v : VarId) (type : Expr) : Prop where
  inside : L.Inside i v
  fresh : ¬S v
  constant : ∀ value, (p.var v).initial = some value → value.Plain ∧
    ∃ span, type = .literal (.type (.exactly value.ty)) span
  body : ∀ site, (p.var v).initial = some (.macroRef site) → ∀ w, L.sees site.body w → S w

/-- A statement of the scope `i` fits a place where `S` is in sight. -/
def Places (p : Program) (L : Layout) (i : ScopeId) (S : VarId → Prop) : Stmt → Prop
  | .create v type _ => type.Uses S (p.Settable S) ∧ p.Declares L i S v type
  | .assign target value _ => value.Uses S (p.Settable S) ∧ target.Uses S (p.Settable S)
  | .assert condition _ => condition.Uses S (p.Settable S)
  | .branch clauses otherwise _ => (∀ x ∈ clauses, x.condition.Uses S (p.Settable S) ∧ p.Nests L i S S x.body) ∧
      ∀ body, otherwise = some body → p.Nests L i S S body
  | .loop counter start stop body _ _ => start.Uses S (p.Settable S) ∧ stop.Uses S (p.Settable S) ∧
      L.Inside body counter ∧ L.sees body counter ∧ (p.var counter).initial = none ∧
      p.Nests L i S (fun v => S v ∨ v = counter) body
  | .static body exports _ => p.Nests L i S S body ∧
      ∀ v ∈ exports, L.Inside body v ∧ p.Sight L body (p.statements body) v
  | .block body _ => p.Nests L i S S body
  | .ret _ => True
  | .expr value _ => value.Uses S (p.Settable S)

/-- What a layout says of the body of a macro. -/
structure Bodies (p : Program) (L : Layout) (m : VarId) (b : ScopeId) : Prop where
  frame : L.frame b = b
  past : L.past b = m
  inputs : ∀ v ∈ (p.scope b).inputs, L.Inside b v ∧ (p.var v).initial = none
  outputs : ∀ v ∈ (p.scope b).outputs, p.Sight L b (p.statements b) v

/-- Every statement fits its place, and what is in sight in a scope is not lower than the scope. -/
structure Laid (p : Program) (L : Layout) : Prop where
  stmts : ∀ i before st after, p.statements i = before ++ st :: after → p.Places L i (p.Sight L i before) st
  sight : ∀ i v, p.Sight L i (p.statements i) v → v < L.rank i ∧ L.rank i ≤ L.height v
  bodies : ∀ m site, (p.var m).initial = some (.macroRef site) → p.Bodies L m site.body

/-- A program has a layout. It starts in a scope that sees exactly the predefined names. -/
def Lexical (p : Program) : Prop :=
  ∃ L, p.Laid L ∧ L.frame p.entry = L.frame p.builtins ∧
    (∀ v, ¬p.Sight L p.builtins [] v) ∧
    (∀ v, p.Sight L p.entry [] v ↔ ∃ st ∈ p.statements p.builtins, v ∈ st.declares) ∧
    ∀ st ∈ p.statements p.builtins, ∃ v type span, st = .create v type span

end Program

end Scoped

end SignalLang
