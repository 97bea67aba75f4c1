import Mathlib.Data.List.Basic
import SignalLang.Proofs.Scoped.Laying

/-!
# Well-formed scoped programs

The scopes of a program are a tree: each is mentioned once, by a statement of its parent or as the body of a macro
that is created there. Each variable is created once, or counts a loop, or is an input of a macro. What is named in a
scope is bound in it or in a scope around it.

A name can be bound again, so the tables of a finished program do not show everything that was bound.
`Program.Binds` says it by what binds: a statement that creates a variable, a loop, a static block or the head of a macro.
The tables agree with it: what is in a table is bound there, and what is bound in a scope has its name in the table of
the scope (`WellFormed.symbols`, `WellFormed.names`).

While a program is built, things are made before they are mentioned: a loop comes behind its body. `Owed` lists
what has been made and is not mentioned yet, and `Program.Formed` is the invariant.
-/

namespace SignalLang.Scoped

/-- The variable a statement brings into existence. -/
def Stmt.created : Stmt → List VarId
  | .create v _ _ => [v]
  | _ => []

/-- The variable a statement counts by. -/
def Stmt.counters : Stmt → List VarId
  | .loop v _ _ _ _ _ => [v]
  | _ => []

/-- What a statement of the scope `i` binds, with the scopes it is bound in. -/
def Stmt.binds (i : ScopeId) : Stmt → List (ScopeId × VarId)
  | .create v _ _ => [(i, v)]
  | .loop v _ _ body _ _ => [(body, v)]
  | .static _ exports _ => exports.map (i, ·)
  | _ => []

/-- A statement reads only variables among `R` and assigns only variables among `W`. -/
def Stmt.Uses (R W : VarId → Prop) : Stmt → Prop
  | .create _ type _ => type.Uses R W
  | .assign target value _ => value.Uses R W ∧ target.Uses R W
  | .assert condition _ => condition.Uses R W
  | .branch clauses _ _ => ∀ x ∈ clauses, x.condition.Uses R W
  | .loop _ start stop _ _ _ => start.Uses R W ∧ stop.Uses R W
  | .static .. | .block .. | .ret _ => True
  | .expr value _ => value.Uses R W

theorem Stmt.Uses.mono {R W R' W' : VarId → Prop} (hR : ∀ v, R v → R' v) (hW : ∀ v, W v → W' v) {st : Stmt}
    (h : st.Uses R W) : st.Uses R' W' := by
  cases st with
  | create v type span => exact Expr.Uses.mono hR hW h
  | assign target value span => exact ⟨h.1.mono hR hW, h.2.mono hR hW⟩
  | assert condition span => exact Expr.Uses.mono hR hW h
  | branch clauses otherwise span => exact fun x hx => (h x hx).mono hR hW
  | loop counter start stop body allowUnroll span => exact ⟨h.1.mono hR hW, h.2.mono hR hW⟩
  | static body exports span => trivial
  | block body span => trivial
  | ret span => trivial
  | expr value span => exact Expr.Uses.mono hR hW h

/-- The bodies of the macros a variable stands for from the start. -/
def Variable.bodies (x : Variable) : List ScopeId :=
  match x.initial with
  | some value => value.macros
  | none => []

namespace Program

/-- The scopes a statement mentions: its own, and the body of a macro that it brings into existence. -/
def mentions (p : Program) (st : Stmt) : List ScopeId := st.scopes ++ st.created.flatMap fun v => (p.var v).bodies

/-- The statements of all scopes. -/
def everyStmt (p : Program) : List Stmt := (List.range p.scopes.size).flatMap p.statements

/-- The scopes that are mentioned, as often as they are. -/
def mentioned (p : Program) : List ScopeId := p.everyStmt.flatMap p.mentions

/-- The variables that are created, as often as they are. -/
def created (p : Program) : List VarId := p.everyStmt.flatMap Stmt.created

/-- The counters of loops. -/
def counters (p : Program) : List VarId := p.everyStmt.flatMap Stmt.counters

/-- The inputs of macros. -/
def macroInputs (p : Program) : List VarId := (List.range p.scopes.size).flatMap fun i => (p.scope i).inputs

/-- A variable is bound in a scope: by a statement, or as an input of the macro. -/
def Binds (p : Program) (i : ScopeId) (v : VarId) : Prop :=
  (∃ j, ∃ st ∈ p.statements j, (i, v) ∈ st.binds j) ∨ v ∈ (p.scope i).inputs

/-- The second scope is directly around the first one. -/
def Parent (p : Program) (i j : ScopeId) : Prop := (p.scope i).parent = some j

/-- A variable is bound in a scope or around it. -/
def Reaches (p : Program) (i : ScopeId) (v : VarId) : Prop :=
  ∃ j, Relation.ReflTransGen p.Parent i j ∧ p.Binds j v

/-- What building guarantees of the scopes and the variables of a program. -/
structure WellFormed (p : Program) : Prop where
  /-- Every scope but the outermost has a parent with a smaller number. -/
  parent : ∀ i < p.scopes.size, i ≠ p.builtins → ∃ j < i, (p.scope i).parent = some j
  /-- A scope that is mentioned in a scope has that one for parent. -/
  nested : ∀ i, ∀ st ∈ p.statements i, ∀ j ∈ p.mentions st, (p.scope j).parent = some i
  /-- No scope is mentioned twice. -/
  once : ∀ j ∈ p.mentioned, p.mentioned.count j = 1
  /-- A variable is created once, unless it is an input of a macro or a counter; such a one is not created. -/
  created : ∀ v < p.vars.size, p.created.count v = if v ∈ p.counters ∨ v ∈ p.macroInputs then 0 else 1
  /-- What is read or assigned in a scope is bound in it or around it, and what is assigned can be written. -/
  uses : ∀ i, ∀ st ∈ p.statements i, st.Uses (p.Reaches i) fun v => p.Reaches i v ∧ (p.var v).readOnly = false
  /-- A static block exports what is bound in its body. -/
  exported : ∀ i body exports span, .static body exports span ∈ p.statements i → ∀ v ∈ exports, p.Binds body v
  /-- The outputs of a macro are bound in its body or around it. -/
  outputs : ∀ i, ∀ v ∈ (p.scope i).outputs, p.Reaches i v
  /-- What is in a table is bound in the scope, under its name. -/
  symbols : ∀ i, ∀ e ∈ (p.scope i).symbols, p.Binds i e.2 ∧ (p.var e.2).name = e.1
  /-- What is bound in a scope has its name in the table. -/
  names : ∀ i v, p.Binds i v → ∃ w, ((p.var v).name, w) ∈ (p.scope i).symbols
  /-- Inputs and outputs are different variables, created in the scope the program starts in. -/
  nodup : (p.inputs ++ p.outputs).Nodup
  io : ∀ v ∈ p.inputs ++ p.outputs, ∃ st ∈ p.statements p.entry, v ∈ st.created

end Program

/-- What has been made and is not mentioned yet: scopes, variables, and variables that were bound in scopes. -/
structure Owed where
  scopes : List ScopeId := []
  vars : List VarId := []
  binds : List (ScopeId × VarId) := []

namespace Program

variable {p q r : Program} {O O' O'' : Owed} {cur i j : ScopeId} {v : VarId} {x : Variable} {st : Stmt}

/-- A variable is bound in a scope, or what binds it is owed. -/
def Bound (p : Program) (O : Owed) (i : ScopeId) (v : VarId) : Prop := p.Binds i v ∨ (i, v) ∈ O.binds

/-- A variable can be named in a scope. -/
def Known (p : Program) (O : Owed) (i : ScopeId) (v : VarId) : Prop :=
  ∃ j, Relation.ReflTransGen p.Parent i j ∧ p.Bound O j v

/-- A variable can be assigned in a scope. -/
def Writable (p : Program) (O : Owed) (i : ScopeId) (v : VarId) : Prop :=
  p.Known O i v ∧ (p.var v).readOnly = false

/-- The invariant of building. -/
structure Formed (p : Program) (O : Owed) : Prop where
  parent : ∀ i < p.scopes.size, i ≠ 0 → ∃ j < i, (p.scope i).parent = some j
  nested : ∀ i, ∀ st ∈ p.statements i, ∀ j ∈ p.mentions st, (p.scope j).parent = some i
  scopes : (O.scopes ++ p.mentioned).Perm (List.range p.scopes.size)
  vars : (O.vars ++ (p.created ++ p.counters ++ p.macroInputs)).Perm (List.range p.vars.size)
  uses : ∀ i, ∀ st ∈ p.statements i, st.Uses (p.Known O i) (p.Writable O i)
  exported : ∀ i body exports span, .static body exports span ∈ p.statements i → ∀ v ∈ exports, p.Bound O body v
  outputs : ∀ i, ∀ v ∈ (p.scope i).outputs, p.Known O i v
  symbols : ∀ i, ∀ e ∈ (p.scope i).symbols, p.Bound O i e.2 ∧ (p.var e.2).name = e.1
  names : ∀ i v, p.Bound O i v → ∃ w, ((p.var v).name, w) ∈ (p.scope i).symbols
  made : ∀ i v, p.Bound O i v → v < p.vars.size

/-- What was made stays as it is, and what was bound stays bound. -/
structure Adds (p : Program) (O : Owed) (q : Program) (O' : Owed) : Prop where
  scopes : p.scopes.size ≤ q.scopes.size
  vars : p.vars.size ≤ q.vars.size
  var : ∀ v < p.vars.size, q.var v = p.var v
  parent : ∀ i < p.scopes.size, (q.scope i).parent = (p.scope i).parent
  bound : ∀ i v, p.Bound O i v → q.Bound O' i v

theorem Adds.refl (p : Program) (O : Owed) : p.Adds O p O :=
  ⟨Nat.le_refl _, Nat.le_refl _, fun _ _ => rfl, fun _ _ => rfl, fun _ _ h => h⟩

theorem Adds.trans (h : p.Adds O q O') (h' : q.Adds O' r O'') : p.Adds O r O'' where
  scopes := Nat.le_trans h.scopes h'.scopes
  vars := Nat.le_trans h.vars h'.vars
  var v hv := (h'.var v (Nat.lt_of_lt_of_le hv h.vars)).trans (h.var v hv)
  parent i hi := (h'.parent i (Nat.lt_of_lt_of_le hi h.scopes)).trans (h.parent i hi)
  bound i v hv := h'.bound i v (h.bound i v hv)

/-- Only a scope that there is has a parent. -/
theorem Parent.lt (h : p.Parent i j) : i < p.scopes.size := by
  rcases Nat.lt_or_ge i p.scopes.size with hi | hi
  · exact hi
  · rw [Parent, scope_of_size_le hi] at h
    cases h

theorem Adds.known (h : p.Adds O q O') (hv : p.Known O i v) : q.Known O' i v := by
  obtain ⟨j, path, bound⟩ := hv
  refine ⟨j, path.lift id fun k l step => ?_, h.bound j v bound⟩
  exact (h.parent k step.lt).trans step

theorem Formed.known_lt (hp : p.Formed O) (hv : p.Known O i v) : v < p.vars.size := by
  obtain ⟨j, -, bound⟩ := hv
  exact hp.made j v bound

theorem Adds.writable (hp : p.Formed O) (h : p.Adds O q O') (hv : p.Writable O i v) : q.Writable O' i v := by
  refine ⟨h.known hv.1, ?_⟩
  rw [h.var v (hp.known_lt hv.1)]
  exact hv.2

/-- What a statement uses can still be used. -/
theorem Adds.uses (hp : p.Formed O) (h : p.Adds O q O') (hst : st.Uses (p.Known O i) (p.Writable O i)) :
    st.Uses (q.Known O' i) (q.Writable O' i) :=
  hst.mono (fun _ hv => h.known hv) fun _ hv => h.writable hp hv

/-- The statements, the tables and what is bound are as they were, and only what is owed has changed. -/
theorem Formed.carry (hp : p.Formed O) (same : q.vars = p.vars) (size : p.scopes.size ≤ q.scopes.size)
    (statements : q.statements = p.statements) (symbols : ∀ i, (q.scope i).symbols = (p.scope i).symbols)
    (outputs : ∀ i, (q.scope i).outputs = (p.scope i).outputs)
    (parents : ∀ i < p.scopes.size, (q.scope i).parent = (p.scope i).parent)
    (bound : ∀ i v, q.Bound O' i v ↔ p.Bound O i v)
    (parent : ∀ i < q.scopes.size, i ≠ 0 → ∃ j < i, (q.scope i).parent = some j)
    (scopes : (O'.scopes ++ q.mentioned).Perm (List.range q.scopes.size))
    (vars : (O'.vars ++ (q.created ++ q.counters ++ q.macroInputs)).Perm (List.range q.vars.size)) :
    q.Formed O' ∧ p.Adds O q O' := by
  have var (v : VarId) : q.var v = p.var v := by rw [Program.var, Program.var, same]
  have adds : p.Adds O q O' :=
    ⟨size, Nat.le_of_eq (congrArg Array.size same.symm), fun v _ => var v, parents, fun i v hv => (bound i v).2 hv⟩
  have mentions (st : Stmt) : q.mentions st = p.mentions st := by
    simp only [Program.mentions, var]
  refine ⟨⟨parent, fun i st hst j hj => ?_, scopes, vars, fun i st hst => adds.uses hp (hp.uses i st (statements ▸ hst)),
    fun i body exports span hst v hv => (bound body v).2 (hp.exported i body exports span (statements ▸ hst) v hv),
    fun i v hv => adds.known (hp.outputs i v (outputs i ▸ hv)), fun i e he => ?_, fun i v hv => ?_, fun i v hv => ?_⟩, adds⟩
  · have old : (p.scope j).parent = some i := hp.nested i st (statements ▸ hst) j (mentions st ▸ hj)
    exact (parents j (Parent.lt old)).trans old
  · rw [symbols] at he
    rw [var]
    exact ⟨(bound i e.2).2 (hp.symbols i e he).1, (hp.symbols i e he).2⟩
  · rw [symbols, var]
    exact hp.names i v ((bound i v).1 hv)
  · rw [same]
    exact hp.made i v ((bound i v).1 hv)

/-- The order in which things are owed does not matter. -/
theorem Formed.reorder (hp : p.Formed O) (scopes : O'.scopes.Perm O.scopes) (vars : O'.vars.Perm O.vars)
    (binds : ∀ e, e ∈ O'.binds ↔ e ∈ O.binds) : p.Formed O' ∧ p.Adds O p O' :=
  hp.carry rfl (Nat.le_refl _) rfl (fun _ => rfl) (fun _ => rfl) (fun _ _ => rfl)
    (fun i v => or_congr_right (binds (i, v))) hp.parent ((scopes.append_right _).trans hp.scopes)
    ((vars.append_right _).trans hp.vars)

/-! ## Steps of building -/

/-- One entry of a list of lists gets more. -/
theorem flatMap_range_update {α : Type} {f f' : Nat → List α} {n k : Nat} (xs : List α) (hk : k < n)
    (self : (f' k).Perm (xs ++ f k)) (other : ∀ i, i ≠ k → f' i = f i) :
    ((List.range n).flatMap f').Perm (xs ++ (List.range n).flatMap f) := by
  induction n with
  | zero => cases hk
  | succ n ih =>
    simp only [List.range_succ, List.flatMap_append, List.flatMap_cons, List.flatMap_nil, List.append_nil]
    rcases Nat.lt_or_eq_of_le (Nat.le_of_lt_succ hk) with hlt | rfl
    · rw [other n (Nat.ne_of_gt hlt)]
      exact ((ih hlt).append_right _).trans (by rw [List.append_assoc])
    · have before : (List.range k).flatMap f' = (List.range k).flatMap f :=
        List.flatMap_congr fun i hi => other i (Nat.ne_of_lt (List.mem_range.1 hi))
      rw [before]
      refine (self.append_left _).trans ?_
      rw [← List.append_assoc, ← List.append_assoc]
      exact List.perm_append_comm.append_right _

section Emit

variable (hcur : cur < p.scopes.size)

include hcur

theorem statements_addStmt_self (st : Stmt) : (p.addStmt cur st).statements cur = p.statements cur ++ [st] := by
  rw [statements, addStmt, scope_modifyScope_self hcur]
  simp [statements]

omit hcur in
theorem statements_addStmt_ne (hne : i ≠ cur) (st : Stmt) : (p.addStmt cur st).statements i = p.statements i := by
  rw [statements, addStmt, scope_modifyScope_ne hne, statements]

theorem mem_statements_addStmt {st' : Stmt} :
    st' ∈ (p.addStmt cur st).statements i ↔ st' ∈ p.statements i ∨ (i = cur ∧ st' = st) := by
  by_cases hi : i = cur
  · subst hi
    simp [statements_addStmt_self hcur]
  · simp [statements_addStmt_ne hi, hi]

omit hcur in
/-- A statement leaves everything else of a scope as it is. -/
theorem scope_addStmt (i : ScopeId) (st : Stmt) :
    ((p.addStmt cur st).scope i).parent = (p.scope i).parent ∧
    ((p.addStmt cur st).scope i).symbols = (p.scope i).symbols ∧
    ((p.addStmt cur st).scope i).inputs = (p.scope i).inputs ∧
    ((p.addStmt cur st).scope i).outputs = (p.scope i).outputs := by
  rw [addStmt]
  rcases scope_modifyScope p cur (fun s => { s with body := s.body.push st }) i with same | ⟨rfl, changed⟩
  · rw [same]
    exact ⟨rfl, rfl, rfl, rfl⟩
  · rw [changed]
    exact ⟨rfl, rfl, rfl, rfl⟩

theorem everyStmt_addStmt (st : Stmt) : (p.addStmt cur st).everyStmt.Perm (st :: p.everyStmt) := by
  have size : (p.addStmt cur st).scopes.size = p.scopes.size := scopes_size_modifyScope _ _ _
  rw [everyStmt, size, everyStmt]
  refine flatMap_range_update [st] hcur ?_ fun i hi => statements_addStmt_ne hi st
  rw [statements_addStmt_self hcur]
  exact List.perm_append_comm

theorem binds_addStmt : (p.addStmt cur st).Binds i v ↔ p.Binds i v ∨ (i, v) ∈ st.binds cur := by
  simp only [Binds, mem_statements_addStmt hcur, (scope_addStmt i st).2.2.1]
  constructor
  · rintro (⟨j, st', hst | ⟨rfl, rfl⟩, hv⟩ | hv)
    · exact .inl (.inl ⟨j, st', hst, hv⟩)
    · exact .inr hv
    · exact .inl (.inr hv)
  · rintro ((⟨j, st', hst, hv⟩ | hv) | hv)
    · exact .inl ⟨j, st', .inl hst, hv⟩
    · exact .inr hv
    · exact .inl ⟨cur, st, .inr ⟨rfl, rfl⟩, hv⟩

/-- A statement is emitted that mentions what was owed. -/
theorem Formed.addStmt (st : Stmt) {S : List ScopeId} {V : List VarId} {B : List (ScopeId × VarId)}
    (hp : p.Formed ⟨p.mentions st ++ S, st.created ++ st.counters ++ V, st.binds cur ++ B⟩)
    (parents : ∀ j ∈ p.mentions st, (p.scope j).parent = some cur)
    (uses : st.Uses (p.Known ⟨p.mentions st ++ S, st.created ++ st.counters ++ V, st.binds cur ++ B⟩ cur)
      (p.Writable ⟨p.mentions st ++ S, st.created ++ st.counters ++ V, st.binds cur ++ B⟩ cur))
    (exported : ∀ body exports span, st = .static body exports span → ∀ v ∈ exports, p.Bound ⟨S, V, B⟩ body v) :
    (p.addStmt cur st).Formed ⟨S, V, B⟩ ∧
      p.Adds ⟨p.mentions st ++ S, st.created ++ st.counters ++ V, st.binds cur ++ B⟩ (p.addStmt cur st) ⟨S, V, B⟩ := by
  have size : (p.addStmt cur st).scopes.size = p.scopes.size := scopes_size_modifyScope _ _ _
  have every := everyStmt_addStmt hcur st
  have bound (i : ScopeId) (v : VarId) : (p.addStmt cur st).Bound ⟨S, V, B⟩ i v ↔
      p.Bound ⟨p.mentions st ++ S, st.created ++ st.counters ++ V, st.binds cur ++ B⟩ i v := by
    simp only [Bound, binds_addStmt hcur, List.mem_append, or_assoc]
  have adds : p.Adds ⟨p.mentions st ++ S, st.created ++ st.counters ++ V, st.binds cur ++ B⟩
      (p.addStmt cur st) ⟨S, V, B⟩ :=
    ⟨Nat.le_of_eq size.symm, Nat.le_refl _, fun _ _ => rfl, fun i _ => (scope_addStmt i st).1,
      fun i v hv => (bound i v).2 hv⟩
  refine ⟨⟨fun i hi hne => ?_, fun i st' hst j hj => ?_, ?_, ?_, fun i st' hst => ?_,
    fun i body exports span hst v hv => ?_, fun i v hv => ?_, fun i e he => ?_, fun i v hv => ?_,
    fun i v hv => hp.made i v ((bound i v).1 hv)⟩, adds⟩
  · rw [(scope_addStmt i st).1]
    exact hp.parent i (size ▸ hi) hne
  · rw [(scope_addStmt j st).1]
    rcases (mem_statements_addStmt hcur).1 hst with hst | ⟨rfl, rfl⟩
    · exact hp.nested i st' hst j hj
    · exact parents j hj
  · have mentioned : (p.addStmt cur st).mentioned.Perm (p.mentions st ++ p.mentioned) := every.flatMap_right _
    rw [size]
    refine ((mentioned.append_left S).trans ?_).trans hp.scopes
    rw [List.append_assoc]
    exact List.perm_append_comm_assoc _ _ _
  · refine List.Perm.trans ?_ hp.vars
    have created : (p.addStmt cur st).created.Perm (st.created ++ p.created) := every.flatMap_right _
    have counters : (p.addStmt cur st).counters.Perm (st.counters ++ p.counters) := every.flatMap_right _
    have inputs : (p.addStmt cur st).macroInputs = p.macroInputs := by
      rw [macroInputs, size]
      exact List.flatMap_congr fun i _ => (scope_addStmt i st).2.2.1
    refine List.perm_iff_count.2 fun v => ?_
    simp only [List.count_append, created.count_eq, counters.count_eq, inputs]
    omega
  · rcases (mem_statements_addStmt hcur).1 hst with hst | ⟨rfl, rfl⟩
    · exact adds.uses hp (hp.uses i st' hst)
    · exact adds.uses hp uses
  · refine (bound body v).2 ?_
    rcases (mem_statements_addStmt hcur).1 hst with hst | ⟨rfl, rfl⟩
    · exact hp.exported i body exports span hst v hv
    · exact (exported body exports span rfl v hv).imp id (List.mem_append_right _)
  · rw [(scope_addStmt i st).2.2.2] at hv
    exact adds.known (hp.outputs i v hv)
  · rw [(scope_addStmt i st).2.1] at he
    exact ⟨(bound i e.2).2 (hp.symbols i e he).1, (hp.symbols i e he).2⟩
  · rw [(scope_addStmt i st).2.1]
    exact hp.names i v ((bound i v).1 hv)

end Emit

/-- The variables that statements create have been made. -/
theorem Formed.created_lt (hp : p.Formed O) (hst : st ∈ p.statements i) (hv : v ∈ st.created) : v < p.vars.size := by
  refine hp.made i v (.inl (.inl ⟨i, st, hst, ?_⟩))
  cases st with
  | create w type span => exact List.mem_singleton.2 (Prod.ext rfl (List.mem_singleton.1 hv))
  | _ => cases hv

/-- A variable is made that is not mentioned yet. -/
theorem Formed.addVariable (hp : p.Formed O) (x : Variable) :
    ({ p with vars := p.vars.push x } : Program).Formed { O with vars := p.vars.size :: O.vars } ∧
      p.Adds O { p with vars := p.vars.push x } { O with vars := p.vars.size :: O.vars } := by
  let q : Program := { p with vars := p.vars.push x }
  let O' : Owed := { O with vars := p.vars.size :: O.vars }
  have var (v : VarId) (hv : v < p.vars.size) : q.var v = p.var v := var_push_lt (x := x) rfl hv
  have later {v : VarId} (hv : v < p.vars.size) : v < q.vars.size := by
    rw [show q.vars.size = p.vars.size + 1 from Array.size_push _]
    exact Nat.lt_succ_of_lt hv
  have adds : p.Adds O q O' := ⟨Nat.le_refl _, by simp [q], var, fun _ _ => rfl, fun _ _ h => h⟩
  have mentions {i : ScopeId} {st : Stmt} (hst : st ∈ p.statements i) : q.mentions st = p.mentions st := by
    rw [Program.mentions, Program.mentions]
    congr 1
    refine List.flatMap_congr fun v hv => ?_
    rw [var v (hp.created_lt hst hv)]
  have mentioned : q.mentioned = p.mentioned := by
    rw [Program.mentioned, Program.mentioned]
    refine List.flatMap_congr fun st hst => ?_
    obtain ⟨i, -, hst⟩ := List.mem_flatMap.1 hst
    exact mentions hst
  refine ⟨⟨hp.parent, fun i st hst j hj => hp.nested i st hst j (mentions hst ▸ hj), ?_, ?_,
    fun i st hst => adds.uses hp (hp.uses i st hst), hp.exported, hp.outputs, fun i e he => ?_, fun i v hv => ?_,
    fun i v hv => later (hp.made i v hv)⟩, adds⟩
  · rw [mentioned]
    exact hp.scopes
  · rw [show q.vars.size = p.vars.size + 1 from Array.size_push _, List.range_succ]
    exact (List.Perm.cons _ hp.vars).trans (List.perm_append_singleton _ _).symm
  · obtain ⟨bound, name⟩ := hp.symbols i e he
    exact ⟨bound, (congrArg Variable.name (var e.2 (hp.made i e.2 bound))).trans name⟩
  · rw [var v (hp.made i v hv)]
    exact hp.names i v hv

/-- A scope is changed in its table and its outputs only. -/
theorem Formed.modifyScope (hp : p.Formed O) {f : Scope → Scope} {B : List (ScopeId × VarId)}
    (parent : ∀ s, (f s).parent = s.parent) (body : ∀ s, (f s).body = s.body) (inputs : ∀ s, (f s).inputs = s.inputs)
    (binds : ∀ e ∈ O.binds, e ∈ B)
    (outputs : ∀ i, ∀ v ∈ ((p.modifyScope cur f).scope i).outputs, p.Known { O with binds := B } i v)
    (symbols : ∀ i, ∀ e ∈ ((p.modifyScope cur f).scope i).symbols,
      p.Bound { O with binds := B } i e.2 ∧ (p.var e.2).name = e.1)
    (names : ∀ i v, p.Bound { O with binds := B } i v → ∃ w, ((p.var v).name, w) ∈ ((p.modifyScope cur f).scope i).symbols)
    (made : ∀ i v, p.Bound { O with binds := B } i v → v < p.vars.size) :
    (p.modifyScope cur f).Formed { O with binds := B } ∧ p.Adds O (p.modifyScope cur f) { O with binds := B } := by
  let q : Program := p.modifyScope cur f
  have keep {α : Type} (g : Scope → α) (hg : ∀ s, g (f s) = g s) (i : ScopeId) : g (q.scope i) = g (p.scope i) := by
    rcases scope_modifyScope p cur f i with same | ⟨rfl, changed⟩
    · exact congrArg g same
    · exact (congrArg g changed).trans (hg _)
  have size : q.scopes.size = p.scopes.size := scopes_size_modifyScope _ _ _
  have parents (i : ScopeId) : (q.scope i).parent = (p.scope i).parent := keep Scope.parent parent i
  have statements : q.statements = p.statements := funext fun i => congrArg Array.toList (keep Scope.body body i)
  have sameInputs (i : ScopeId) : (q.scope i).inputs = (p.scope i).inputs := keep Scope.inputs inputs i
  have every : q.everyStmt = p.everyStmt := by rw [everyStmt, everyStmt, size, statements]
  have around : q.Parent = p.Parent := by
    funext i j
    rw [Parent, Parent, parents]
  have bound (O : Owed) (i : ScopeId) (v : VarId) : q.Bound O i v ↔ p.Bound O i v := by
    rw [Bound, Bound, Binds, Binds, statements, sameInputs]
  have known (O : Owed) (i : ScopeId) (v : VarId) : q.Known O i v ↔ p.Known O i v := by
    simp only [Known, around, bound]
  have adds : p.Adds O q { O with binds := B } :=
    ⟨Nat.le_of_eq size.symm, Nat.le_refl _, fun _ _ => rfl, fun i _ => parents i,
      fun i v hv => (bound _ i v).2 (hv.imp id (binds _))⟩
  refine ⟨⟨fun i hi hne => ?_, fun i st hst j hj => ?_, ?_, ?_, fun i st hst => ?_, fun i body exports span hst v hv => ?_,
    fun i v hv => (known _ i v).2 (outputs i v hv), fun i e he => ?_, fun i v hv => names i v ((bound _ i v).1 hv),
    fun i v hv => made i v ((bound _ i v).1 hv)⟩, adds⟩
  · rw [parents]
    exact hp.parent i (size ▸ hi) hne
  · rw [parents]
    rw [show (p.modifyScope cur f).statements = p.statements from statements] at hst
    exact hp.nested i st hst j hj
  · rw [mentioned, every, size]
    exact hp.scopes
  · have sameMacroInputs : q.macroInputs = p.macroInputs := by
      rw [macroInputs, size]
      exact List.flatMap_congr fun i _ => sameInputs i
    rw [created, counters, every, sameMacroInputs]
    exact hp.vars
  · rw [show (p.modifyScope cur f).statements = p.statements from statements] at hst
    exact adds.uses hp (hp.uses i st hst)
  · rw [show (p.modifyScope cur f).statements = p.statements from statements] at hst
    exact adds.bound body v (hp.exported i body exports span hst v hv)
  · obtain ⟨inScope, name⟩ := symbols i e he
    exact ⟨(bound _ i e.2).2 inScope, name⟩

/-- A variable is bound in a scope under its name. -/
theorem Formed.bind (hp : p.Formed O) (hcur : cur < p.scopes.size) (hv : v < p.vars.size) :
    (p.modifyScope cur (·.bind (p.var v).name v)).Formed { O with binds := (cur, v) :: O.binds } ∧
      p.Adds O (p.modifyScope cur (·.bind (p.var v).name v)) { O with binds := (cur, v) :: O.binds } := by
  have more {i : ScopeId} {w : VarId} (hw : p.Bound O i w) : p.Bound { O with binds := (cur, v) :: O.binds } i w :=
    hw.imp id (List.mem_cons_of_mem _)
  have cases_bound {i : ScopeId} {w : VarId} (hw : p.Bound { O with binds := (cur, v) :: O.binds } i w) :
      p.Bound O i w ∨ (i = cur ∧ w = v) := by
    rcases hw with hw | hw
    · exact .inl (.inl hw)
    · rcases List.mem_cons.1 hw with same | hw
      · exact .inr (Prod.ext_iff.1 same)
      · exact .inl (.inr hw)
  refine hp.modifyScope (fun _ => rfl) (fun _ => rfl) (fun _ => rfl) (fun e he => List.mem_cons_of_mem _ he)
    (fun i w hw => ?_) (fun i e he => ?_) (fun i w hw => ?_) fun i w hw => ?_
  · have same : ((p.modifyScope cur (·.bind (p.var v).name v)).scope i).outputs = (p.scope i).outputs := by
      rcases scope_modifyScope p cur (·.bind (p.var v).name v) i with same | ⟨-, changed⟩
      · rw [same]
      · rw [changed]
        rfl
    rw [same] at hw
    obtain ⟨j, path, bound⟩ := hp.outputs i w hw
    exact ⟨j, path, more bound⟩
  · rcases scope_modifyScope p cur (·.bind (p.var v).name v) i with same | ⟨rfl, changed⟩
    · rw [same] at he
      exact ⟨more (hp.symbols i e he).1, (hp.symbols i e he).2⟩
    · rw [changed] at he
      rcases List.mem_cons.1 he with rfl | he
      · exact ⟨.inr List.mem_cons_self, rfl⟩
      · have he := (List.mem_filter.1 he).1
        exact ⟨more (hp.symbols i e he).1, (hp.symbols i e he).2⟩
  · by_cases hi : i = cur
    · subst hi
      rw [scope_modifyScope_self hcur]
      by_cases name : (p.var w).name = (p.var v).name
      · exact ⟨v, name ▸ List.mem_cons_self⟩
      · rcases cases_bound hw with hw | ⟨-, rfl⟩
        · obtain ⟨u, hu⟩ := hp.names i w hw
          exact ⟨u, List.mem_cons_of_mem _ (List.mem_filter.2 ⟨hu, by simpa using name⟩)⟩
        · exact absurd rfl name
    · rw [scope_modifyScope_ne hi]
      rcases cases_bound hw with hw | ⟨same, -⟩
      · exact hp.names i w hw
      · exact absurd same hi
  · rcases cases_bound hw with hw | ⟨-, rfl⟩
    · exact hp.made i w hw
    · exact hv

/-- A variable is made and bound in a scope. -/
theorem Formed.define (hp : p.Formed O) (hcur : cur < p.scopes.size) (x : Variable) :
    (p.define cur x).Formed { O with vars := p.vars.size :: O.vars, binds := (cur, p.vars.size) :: O.binds } ∧
      p.Adds O (p.define cur x)
        { O with vars := p.vars.size :: O.vars, binds := (cur, p.vars.size) :: O.binds } := by
  obtain ⟨formed, adds⟩ := hp.addVariable x
  have var : ({ p with vars := p.vars.push x } : Program).var p.vars.size = x := var_push_self rfl
  obtain ⟨formed', adds'⟩ := formed.bind (v := p.vars.size) hcur (by simp)
  rw [var] at formed' adds'
  exact ⟨formed', adds.trans adds'⟩

/-- The outputs of a macro are set. -/
theorem Formed.setOutputs (hp : p.Formed O) (outs : List VarId) (houts : ∀ v ∈ outs, p.Known O cur v) :
    (p.modifyScope cur fun s => { s with outputs := outs }).Formed O ∧
      p.Adds O (p.modifyScope cur fun s => { s with outputs := outs }) O := by
  have symbols (i : ScopeId) :
      ((p.modifyScope cur fun s => { s with outputs := outs }).scope i).symbols = (p.scope i).symbols := by
    rcases scope_modifyScope p cur (fun s => { s with outputs := outs }) i with same | ⟨-, changed⟩
    · rw [same]
    · rw [changed]
  refine hp.modifyScope (B := O.binds) (fun _ => rfl) (fun _ => rfl) (fun _ => rfl) (fun _ he => he) (fun i v hv => ?_)
    (fun i e he => hp.symbols i e (symbols i ▸ he)) (fun i v hv => (symbols i).symm ▸ hp.names i v hv) hp.made
  rcases scope_modifyScope p cur (fun s => { s with outputs := outs }) i with same | ⟨rfl, changed⟩
  · rw [same] at hv
    exact hp.outputs i v hv
  · rw [changed] at hv
    exact houts v hv

/-- The inputs of a macro are set, which have been made and bound in its body. -/
theorem Formed.setInputs (ins : List VarId) {S : List ScopeId} {V : List VarId} {B : List (ScopeId × VarId)}
    (hp : p.Formed ⟨S, ins ++ V, ins.map (cur, ·) ++ B⟩) (hcur : cur < p.scopes.size) (none : (p.scope cur).inputs = []) :
    (p.modifyScope cur fun s => { s with inputs := ins }).Formed ⟨S, V, B⟩ ∧
      p.Adds ⟨S, ins ++ V, ins.map (cur, ·) ++ B⟩ (p.modifyScope cur fun s => { s with inputs := ins }) ⟨S, V, B⟩ := by
  let q : Program := p.modifyScope cur fun s => { s with inputs := ins }
  let O : Owed := ⟨S, ins ++ V, ins.map (cur, ·) ++ B⟩
  have keep {α : Type} (g : Scope → α) (hg : ∀ s, g { s with inputs := ins } = g s) (i : ScopeId) :
      g (q.scope i) = g (p.scope i) := by
    rcases scope_modifyScope p cur (fun s => { s with inputs := ins }) i with same | ⟨rfl, changed⟩
    · exact congrArg g same
    · exact (congrArg g changed).trans (hg _)
  have size : q.scopes.size = p.scopes.size := scopes_size_modifyScope _ _ _
  have parents (i : ScopeId) : (q.scope i).parent = (p.scope i).parent := keep Scope.parent (fun _ => rfl) i
  have statements : q.statements = p.statements :=
    funext fun i => congrArg Array.toList (keep Scope.body (fun _ => rfl) i)
  have symbols (i : ScopeId) : (q.scope i).symbols = (p.scope i).symbols := keep Scope.symbols (fun _ => rfl) i
  have outputs (i : ScopeId) : (q.scope i).outputs = (p.scope i).outputs := keep Scope.outputs (fun _ => rfl) i
  have every : q.everyStmt = p.everyStmt := by rw [everyStmt, everyStmt, size, statements]
  have inputsSelf : (q.scope cur).inputs = ins := congrArg Scope.inputs (scope_modifyScope_self hcur _)
  have inputsNe (i : ScopeId) (hi : i ≠ cur) : (q.scope i).inputs = (p.scope i).inputs :=
    congrArg Scope.inputs (scope_modifyScope_ne hi _)
  -- What was owed to be bound in the body is an input now.
  have bound (i : ScopeId) (v : VarId) : q.Bound ⟨S, V, B⟩ i v ↔ p.Bound O i v := by
    simp only [Bound, Binds, statements, O, List.mem_append, List.mem_map, Prod.mk.injEq]
    by_cases hi : i = cur
    · subst hi
      rw [inputsSelf, none]
      simp [or_assoc]
    · rw [inputsNe i hi]
      simp [Ne.symm hi]
  refine hp.carry rfl (Nat.le_of_eq size.symm) statements symbols outputs (fun i _ => parents i) bound
    (fun i hi hne => ?_) ?_ ?_
  · rw [parents]
    exact hp.parent i (size ▸ hi) hne
  · rw [mentioned, every, size]
    exact hp.scopes
  · have macroInputs : (p.modifyScope cur fun s => { s with inputs := ins }).macroInputs.Perm (ins ++ p.macroInputs) := by
      rw [Program.macroInputs, size]
      refine flatMap_range_update ins hcur ?_ inputsNe
      rw [inputsSelf, none, List.append_nil]
    refine List.Perm.trans ?_ hp.vars
    rw [created, counters, every]
    refine List.perm_iff_count.2 fun v => ?_
    simp only [List.count_append, macroInputs.count_eq, created, counters]
    omega

/-- A new scope is as empty as one that is not there. -/
theorem field_addScope {α : Type} (g : Scope → α) (hg : ∀ parent, g { parent := parent } = g { parent := none })
    (p : Program) (parent : Option ScopeId) (i : ScopeId) : g ((p.addScope parent).scope i) = g (p.scope i) := by
  rcases Nat.lt_trichotomy i p.scopes.size with hi | rfl | hi
  · exact congrArg g (scope_addScope_lt hi _)
  · rw [scope_addScope_new, scope_of_size_le (Nat.le_refl _)]
    exact hg parent
  · have past : (p.addScope parent).scopes.size ≤ i := by
      rw [scopes_size_addScope]
      exact hi
    rw [scope_of_size_le (Nat.le_of_lt hi), scope_of_size_le past]

theorem statements_addScope (p : Program) (parent : Option ScopeId) :
    (p.addScope parent).statements = p.statements :=
  funext fun i => congrArg Array.toList (field_addScope Scope.body (fun _ => rfl) p parent i)

/-- A scope is opened, which has to be mentioned. -/
theorem Formed.addScope (hp : p.Formed O) (hcur : cur < p.scopes.size) :
    (p.addScope (some cur)).Formed { O with scopes := p.scopes.size :: O.scopes } ∧
      p.Adds O (p.addScope (some cur)) { O with scopes := p.scopes.size :: O.scopes } := by
  let q : Program := p.addScope (some cur)
  have size : q.scopes.size = p.scopes.size + 1 := scopes_size_addScope _ _
  have parents (i : ScopeId) (hi : i < p.scopes.size) : (q.scope i).parent = (p.scope i).parent :=
    congrArg Scope.parent (scope_addScope_lt hi _)
  have statements : q.statements = p.statements := statements_addScope p _
  have inputs (i : ScopeId) : (q.scope i).inputs = (p.scope i).inputs :=
    field_addScope Scope.inputs (fun _ => rfl) p _ i
  have symbols (i : ScopeId) : (q.scope i).symbols = (p.scope i).symbols :=
    field_addScope Scope.symbols (fun _ => rfl) p _ i
  have outputs (i : ScopeId) : (q.scope i).outputs = (p.scope i).outputs :=
    field_addScope Scope.outputs (fun _ => rfl) p _ i
  have empty : p.statements p.scopes.size = [] := by rw [Program.statements, scope_of_size_le (Nat.le_refl _)]
  have every : q.everyStmt = p.everyStmt := by
    rw [everyStmt, everyStmt, size, statements, List.range_succ, List.flatMap_append]
    simp [empty]
  have macroInputs : q.macroInputs = p.macroInputs := by
    have none : (p.scope p.scopes.size).inputs = [] := by rw [scope_of_size_le (Nat.le_refl _)]
    rw [Program.macroInputs, Program.macroInputs, size, List.range_succ, List.flatMap_append]
    simp [inputs, none]
  have bound (i : ScopeId) (v : VarId) :
      q.Bound { O with scopes := p.scopes.size :: O.scopes } i v ↔ p.Bound O i v := by
    rw [Bound, Bound, Binds, Binds, statements, inputs]
  refine hp.carry rfl (by rw [scopes_size_addScope]; exact Nat.le_succ _) statements symbols outputs parents bound
    (fun i hi hne => ?_) ?_ ?_
  · rcases Nat.lt_or_eq_of_le (Nat.le_of_lt_succ (size ▸ hi)) with hi | rfl
    · rw [parents i hi]
      exact hp.parent i hi hne
    · exact ⟨cur, hcur, congrArg Scope.parent (scope_addScope_new p _)⟩
  · rw [mentioned, every, scopes_size_addScope, List.range_succ]
    exact (List.Perm.cons _ hp.scopes).trans (List.perm_append_singleton _ _).symm
  · rw [created, counters, every, macroInputs]
    exact hp.vars

/-- A variable is made and bound in a scope, and the statement that creates it is emitted. The bodies of the macros it
stands for from the start were owed. -/
theorem Formed.declare (type : Expr) (span : Span) {S : List ScopeId} {V : List VarId} {B : List (ScopeId × VarId)}
    (hp : p.Formed ⟨x.bodies ++ S, V, B⟩) (hcur : cur < p.scopes.size)
    (htype : type.Uses (p.Known ⟨x.bodies ++ S, V, B⟩ cur) (p.Writable ⟨x.bodies ++ S, V, B⟩ cur))
    (parents : ∀ j ∈ x.bodies, (p.scope j).parent = some cur) :
    ((p.define cur x).addStmt cur (.create p.vars.size type span)).Formed ⟨S, V, B⟩ ∧
      p.Adds ⟨x.bodies ++ S, V, B⟩ ((p.define cur x).addStmt cur (.create p.vars.size type span)) ⟨S, V, B⟩ := by
  obtain ⟨formed, adds⟩ := hp.define hcur x
  have var : (p.define cur x).var p.vars.size = x := var_push_self rfl
  have mentions : (p.define cur x).mentions (.create p.vars.size type span) = x.bodies := by
    simp [Program.mentions, Stmt.scopes, Stmt.created, var]
  have size : cur < (p.define cur x).scopes.size := by
    rw [scopes_size_define]
    exact hcur
  have htype : (Stmt.create p.vars.size type span).Uses (p.Known ⟨x.bodies ++ S, V, B⟩ cur) (p.Writable ⟨x.bodies ++ S, V, B⟩ cur) := htype
  have emitted := Formed.addStmt size (.create p.vars.size type span) (S := S) (V := V) (B := B) (mentions.symm ▸ formed) ?_
    (mentions.symm ▸ adds.uses hp htype) fun _ _ _ same => by cases same
  · rw [mentions] at emitted
    exact ⟨emitted.1, adds.trans emitted.2⟩
  · intro j hj
    rw [mentions] at hj
    exact (adds.parent j (Parent.lt (parents j hj))).trans (parents j hj)

end Program

end SignalLang.Scoped
