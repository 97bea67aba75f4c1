import SignalLang.Proofs.Steps
import SignalLang.Proofs.Types
import SignalLang.Staged.Value

/-!
# Well-formed staged programs

`Program.WellFormed` says how the types in a staged program fit together: an expression has the type its
parts give it, a value promotes to the type of its target, an index that is a number lies within its array,
and a statement refers to scopes made later than its own. It says nothing about literals: staging writes what
it has tracked, with the type of the variable it read.

`Program.Ready` is what has to come in addition before a program can run: literals are values of their types,
and variables can be held.

`Program.Within` is the part of a program that one of its scopes reaches, and `Program.Mentions` and
`Program.Assigns` are the slots used there.
-/

namespace SignalLang.Staged

open Steps (Extends)

/-- The type of a unary operator's result. -/
def unaryTy (op : UnaryOp) (t : Ty) : Ty :=
  match op with
  | .ftoi => t.withBase .int
  | .itof => t.withBase .float
  | _ => t

/-- The type of a binary operator's result, from the common type of its operands. -/
def binaryTy (op : BinaryOp) (common : Ty) : Ty := if op.isComparison then common.withBase .bool else common

@[simp] theorem dims_unaryTy (op : UnaryOp) (t : Ty) : (unaryTy op t).dims = t.dims := by
  unfold unaryTy
  split <;> simp

@[simp] theorem dims_binaryTy (op : BinaryOp) (common : Ty) : (binaryTy op common).dims = common.dims := by
  unfold binaryTy
  split <;> simp

namespace Expr

/-- Whether an expression is a literal. -/
def isLiteral : Expr → Bool
  | .literal .. => true
  | _ => false

/-- An expression that may select from an array of a length: a number is in range. -/
def InRange (length : Int) : Expr → Prop
  | .literal c _ _ => ∃ n, c = .int n ∧ 0 ≤ n ∧ n < length
  | _ => True

mutual

/-- The parts of an expression have types that fit together. -/
def WellFormed (vars : Array Variable) : Expr → Prop
  | .literal .. => True
  | .var id ty _ => (vars[id]?).map (·.ty) = some ty
  | .index base indexes ty _ => base.WellFormed vars ∧ Selects vars indexes base.ty ty
  | .collect items ty _ => items ≠ [] ∧ ∃ t, ty = .array items.length t ∧ AllOf vars t items
  | .unary op a ty _ => a.WellFormed vars ∧ Stage.unaryAccepts op a.ty.base = true ∧ ty = unaryTy op a.ty
  | .binary op l r ty _ =>
    l.WellFormed vars ∧ r.WellFormed vars ∧ ∃ common, Ty.biggest? l.ty r.ty = some common ∧
      Stage.binaryAccepts op common.base = true ∧ ty = binaryTy op common
  | .missing => False

/-- Indexes lead from a type to the type of an element. -/
def Selects (vars : Array Variable) : List Expr → Ty → Ty → Prop
  | [], t, u => t = u
  | e :: es, t, u =>
    ∃ n elem, t = .array n elem ∧ e.WellFormed vars ∧ e.ty = .int ∧ e.InRange n ∧ Selects vars es elem u

/-- Expressions of one type. -/
def AllOf (vars : Array Variable) (t : Ty) : List Expr → Prop
  | [] => True
  | e :: es => e.WellFormed vars ∧ e.ty = t ∧ AllOf vars t es

end

mutual

/-- The slots an expression reads. -/
def slots : Expr → List SlotId
  | .literal .. | .missing => []
  | .var id _ _ => [id]
  | .index base indexes _ _ => base.slots ++ slotsOf indexes
  | .collect items _ _ => slotsOf items
  | .unary _ a _ _ => a.slots
  | .binary _ l r _ _ => l.slots ++ r.slots

/-- The slots several expressions read. -/
def slotsOf : List Expr → List SlotId
  | [] => []
  | e :: es => e.slots ++ slotsOf es

end

mutual

/-- Every literal is a value of its type. -/
def LiteralsFit : Expr → Prop
  | .literal c ty _ => c.HasTy ty
  | .var .. | .missing => True
  | .index base indexes _ _ => base.LiteralsFit ∧ AllFit indexes
  | .collect items _ _ => AllFit items
  | .unary _ a _ _ => a.LiteralsFit
  | .binary _ l r _ _ => l.LiteralsFit ∧ r.LiteralsFit

/-- The literals of several expressions are values of their types. -/
def AllFit : List Expr → Prop
  | [] => True
  | e :: es => e.LiteralsFit ∧ AllFit es

end

mutual

instance decLiteralsFit : (e : Expr) → Decidable e.LiteralsFit
  | .literal c ty _ => inferInstanceAs (Decidable (c.HasTy ty))
  | .var .. | .missing => .isTrue trivial
  | .index base indexes _ _ =>
    have := decLiteralsFit base
    have := decAllFit indexes
    inferInstanceAs (Decidable (base.LiteralsFit ∧ AllFit indexes))
  | .collect items _ _ => decAllFit items
  | .unary _ a _ _ => decLiteralsFit a
  | .binary _ l r _ _ =>
    have := decLiteralsFit l
    have := decLiteralsFit r
    inferInstanceAs (Decidable (l.LiteralsFit ∧ r.LiteralsFit))

instance decAllFit : (es : List Expr) → Decidable (AllFit es)
  | [] => .isTrue trivial
  | e :: es =>
    have := decLiteralsFit e
    have := decAllFit es
    inferInstanceAs (Decidable (e.LiteralsFit ∧ AllFit es))

end

theorem slotsOf_append (es fs : List Expr) : slotsOf (es ++ fs) = slotsOf es ++ slotsOf fs := by
  induction es with
  | nil => rfl
  | cons e es ih => simp [slotsOf, ih]

theorem allFit_append {es fs : List Expr} : AllFit (es ++ fs) ↔ AllFit es ∧ AllFit fs := by
  induction es with
  | nil => simp [AllFit]
  | cons e es ih => simp [AllFit, ih, and_assoc]

/-- An element of something that can be held can be held too. -/
theorem Selects.storable {vars : Array Variable} {es : List Expr} {t u : Ty} (h : Selects vars es t u)
    (ht : t.Storable) : u.Storable ∧ u.base = t.base ∧ es.length + u.dims.length = t.dims.length := by
  induction es generalizing t with
  | nil =>
    cases h
    exact ⟨ht, rfl, Nat.zero_add _⟩
  | cons e es ih =>
    rw [Selects] at h
    obtain ⟨n, elem, rfl, -, -, -, hs⟩ := h
    obtain ⟨hu, hb, hl⟩ := ih hs (Ty.storable_array.1 ht).2
    refine ⟨hu, hb, ?_⟩
    rw [Ty.dims, List.length_cons, List.length_cons, ← hl]
    omega

end Expr

/-- The parts of a statement have types that fit together. -/
def Stmt.WellFormed (vars : Array Variable) : Stmt → Prop
  | .assign target value _ =>
    value.WellFormed vars ∧ value.ty.promotesTo target.ty = true ∧
      ∃ v, vars[target.var]? = some v ∧ Expr.Selects vars target.indexes v.ty target.ty
  | .assert condition _ => condition.WellFormed vars ∧ condition.ty = .bool
  | .branch clauses _ _ => ∀ c ∈ clauses, c.condition.WellFormed vars ∧ c.condition.ty = .bool
  | .loop counter start stop _ _ =>
    (vars[counter]?).map (·.ty) = some .int ∧ (start.WellFormed vars ∧ start.ty = .int) ∧
      stop.WellFormed vars ∧ stop.ty = .int
  | .inlined .. => True
  | .missing => False

namespace Stmt

/-- The scopes a statement runs. -/
def scopes : Stmt → List ScopeId
  | .branch clauses otherwise _ => clauses.map (·.body) ++ otherwise.toList
  | .loop _ _ _ body _ | .inlined body _ => [body]
  | .assign .. | .assert .. | .missing => []

/-- The expressions of a statement. -/
def exprs : Stmt → List Expr
  | .assign target value _ => target.indexes ++ [value]
  | .assert condition _ => [condition]
  | .branch clauses _ _ => clauses.map (·.condition)
  | .loop _ start stop _ _ => [start, stop]
  | .inlined .. | .missing => []

/-- The slot a statement itself writes. -/
def target? : Stmt → Option SlotId
  | .assign target _ _ => some target.var
  | .loop counter _ _ _ _ => some counter
  | .assert .. | .branch .. | .inlined .. | .missing => none

/-- The slots a statement itself uses. -/
def slots (st : Stmt) : List SlotId := st.target?.toList ++ Expr.slotsOf st.exprs

end Stmt

namespace Program

/-- The statements a scope runs, those of inner scopes included. -/
inductive Within (p : Program) : ScopeId → Stmt → Prop where
  | here {i : ScopeId} {st : Stmt} (mem : st ∈ p.scope i) : Within p i st
  | inner {i j : ScopeId} {outer st : Stmt} (mem : outer ∈ p.scope i) (enters : j ∈ outer.scopes)
      (rest : Within p j st) : Within p i st

/-- A scope, or one it runs, uses a slot. -/
def Mentions (p : Program) (i : ScopeId) (k : SlotId) : Prop := ∃ st, p.Within i st ∧ k ∈ st.slots

/-- A scope, or one it runs, writes a slot. -/
def Assigns (p : Program) (i : ScopeId) (k : SlotId) : Prop := ∃ st, p.Within i st ∧ st.target? = some k

/-- The types of a program fit together, its scopes are nested, and its interface lists are apart. -/
structure WellFormed (p : Program) : Prop where
  positive : ∀ v ∈ p.vars, v.ty.IsPositive
  stmts : ∀ i, ∀ st ∈ p.scope i, st.WellFormed p.vars
  nested : ∀ i, ∀ st ∈ p.scope i, ∀ j ∈ st.scopes, i < j ∧ j < p.scopes.size
  staticInit : p.staticInit < p.scopes.size
  entry : p.entry < p.scopes.size
  interface : ∀ k ∈ p.statics ++ p.inputs ++ p.outputs, k < p.vars.size
  nodup : (p.inputs ++ p.outputs).Nodup
  apart : ∀ k ∈ p.statics, k ∉ p.inputs ++ p.outputs

/-- Variables can be held, and literals are values of their types wherever the program runs. -/
structure Ready (p : Program) : Prop where
  vars : ∀ v ∈ p.vars, v.ty.isRuntime = true
  literals : ∀ st, p.Within p.staticInit st ∨ p.Within p.entry st → Expr.AllFit st.exprs

theorem Within.mem_scope {p : Program} {i : ScopeId} {st : Stmt} (h : p.Within i st) :
    ∃ j, st ∈ p.scope j := by
  induction h with
  | here mem => exact ⟨_, mem⟩
  | inner _ _ _ ih => exact ih

/-- Variables can be held and literals are values of their types, also where the program never runs. -/
def Fits (p : Program) : Prop :=
  (∀ v ∈ p.vars, v.ty.isRuntime = true) ∧
    ∀ body ∈ p.scopes.toList, ∀ st ∈ body.toList, Expr.AllFit st.exprs

instance (p : Program) : Decidable p.Fits := inferInstanceAs (Decidable (_ ∧ _))

theorem Fits.ready {p : Program} (h : p.Fits) : p.Ready := by
  refine ⟨h.1, fun st within => ?_⟩
  obtain ⟨j, mem⟩ : ∃ j, st ∈ p.scope j := within.elim (·.mem_scope) (·.mem_scope)
  rw [scope, Array.getD_eq_getD_getElem?] at mem
  cases found : p.scopes[j]? with
  | none => simp [found] at mem
  | some body =>
    rw [found] at mem
    exact h.2 body (Array.mem_toList_iff.2 (Array.mem_of_getElem? found)) st (Array.mem_toList_iff.2 mem)

/-- Static initialization uses nothing that the program proper, or its interface, uses except statics. -/
def StreamsApart (p : Program) : Prop :=
  ∀ k, p.Mentions p.staticInit k → p.Mentions p.entry k ∨ k ∈ p.inputs ++ p.outputs → k ∈ p.statics

/-- The program proper assigns no input. -/
def InputsKept (p : Program) : Prop := ∀ k ∈ p.inputs, ¬p.Assigns p.entry k

end Program

/-! ## Growing programs -/

section Growth

variable {vars more : Array Variable}

mutual

/-- An expression stays well formed when variables are added. -/
theorem Expr.WellFormed.mono (h : Extends vars more) :
    {e : Expr} → e.WellFormed vars → e.WellFormed more
  | .literal .., _ => trivial
  | .var id ty _, he => by
    obtain ⟨v, hv, rfl⟩ := Option.map_eq_some_iff.1 he
    rw [Expr.WellFormed, h id v hv, Option.map_some]
  | .index base indexes ty _, he => by
    rw [Expr.WellFormed] at he ⊢
    exact ⟨he.1.mono h, Expr.Selects.mono h he.2⟩
  | .collect items ty _, he => by
    rw [Expr.WellFormed] at he ⊢
    obtain ⟨hne, t, rfl, ht⟩ := he
    exact ⟨hne, t, rfl, Expr.AllOf.mono h ht⟩
  | .unary op a ty _, he => by
    rw [Expr.WellFormed] at he ⊢
    exact ⟨he.1.mono h, he.2⟩
  | .binary op l r ty _, he => by
    rw [Expr.WellFormed] at he ⊢
    exact ⟨he.1.mono h, he.2.1.mono h, he.2.2⟩
  | .missing, he => he.elim

/-- Indexes keep leading to the same element when variables are added. -/
theorem Expr.Selects.mono (h : Extends vars more) :
    {es : List Expr} → {t u : Ty} → Expr.Selects vars es t u → Expr.Selects more es t u
  | [], _, _, hs => hs
  | e :: es, t, u, hs => by
    rw [Expr.Selects] at hs ⊢
    obtain ⟨n, elem, rfl, he, hint, hrange, hs⟩ := hs
    exact ⟨n, elem, rfl, he.mono h, hint, hrange, Expr.Selects.mono h hs⟩

/-- Expressions keep their common type when variables are added. -/
theorem Expr.AllOf.mono (h : Extends vars more) :
    {es : List Expr} → {t : Ty} → Expr.AllOf vars t es → Expr.AllOf more t es
  | [], _, _ => trivial
  | e :: es, t, hs => by
    rw [Expr.AllOf] at hs ⊢
    exact ⟨hs.1.mono h, hs.2.1, Expr.AllOf.mono h hs.2.2⟩

end

theorem Stmt.WellFormed.mono (h : Extends vars more) {st : Stmt} (hst : st.WellFormed vars) :
    st.WellFormed more := by
  cases st with
  | assign target value _ =>
    obtain ⟨hv, hp, v, hfound, hs⟩ := hst
    exact ⟨hv.mono h, hp, v, h _ v hfound, hs.mono h⟩
  | assert condition _ => exact ⟨hst.1.mono h, hst.2⟩
  | branch clauses otherwise _ => exact fun c hc => ⟨(hst c hc).1.mono h, (hst c hc).2⟩
  | loop counter start stop body _ =>
    obtain ⟨hc, hstart, hstop⟩ := hst
    obtain ⟨v, hv, hty⟩ := Option.map_eq_some_iff.1 hc
    refine ⟨?_, ⟨hstart.1.mono h, hstart.2⟩, hstop.1.mono h, hstop.2⟩
    rw [h counter v hv, Option.map_some, hty]
  | inlined body _ => trivial
  | missing => exact hst

end Growth

end SignalLang.Staged
