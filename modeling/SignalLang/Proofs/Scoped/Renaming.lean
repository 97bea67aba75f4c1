import Mathlib.Logic.Equiv.Basic
import SignalLang.Proofs.Scoped.Forming
import SignalLang.Proofs.Staged.Names
import SignalLang.Proofs.Tree.Renaming

/-!
# Building commutes with renaming

An injective renaming of identifiers that leaves the predefined names alone can be done before or after a program is
built. `Program.rename ρ` renames what a user names: the variables behind the predefined ones, and the tables of the
scopes from the one where the program starts. `Build.Mirrors b R m m'` says of two steps that the second one does in the
renamed builder what the first one does in `b`. The main statement is `ofTree_rename`.
-/

namespace SignalLang.Scoped

/-- The names that stand for something before anything is declared. -/
def builtinNames : List String := builtinConstants.map (·.1) ++ builtinMacros.map (·.name)

/-- A renaming of identifiers that keeps different identifiers different, and the predefined names as they are. -/
structure Renaming (ρ : String → String) : Prop where
  injective : Function.Injective ρ
  fixes : ∀ name ∈ builtinNames, ρ name = name

/-- The first scope of a program's own, where it starts. -/
@[irreducible] def ownScope : ScopeId := Program.initial.entry

/-- The first variable of a program's own. -/
@[irreducible] def ownVar : VarId := Program.initial.vars.size

theorem ownScope_eq : ownScope = Program.initial.entry := by unfold ownScope; with_reducible rfl

theorem ownVar_eq : ownVar = Program.initial.vars.size := by unfold ownVar; with_reducible rfl

/-- A variable under its other name. -/
def Variable.rename (ρ : String → String) (x : Variable) : Variable := { x with name := ρ x.name }

/-- A scope with the keys of its table renamed. -/
def Scope.rename (ρ : String → String) (s : Scope) : Scope := { s with symbols := s.symbols.map (Prod.map ρ id) }

/-- A program with the names of its own variables renamed, and the keys of its own tables. -/
def Program.rename (ρ : String → String) (p : Program) : Program := { p with
  scopes := p.scopes.mapIdx fun i s => if i < ownScope then s else s.rename ρ
  vars := p.vars.mapIdx fun v x => if v < ownVar then x else x.rename ρ }

/-- Building failed by one kind of problem in one place. -/
inductive BuildError.Alike : BuildError → BuildError → Prop
  | problem {p q : Problem} (h : p.Alike q) : BuildError.Alike (.problem p) (.problem q)

variable {ρ : String → String}

/-! ## Renamed programs -/

namespace Scope

theorem bind_rename (inj : Function.Injective ρ) (s : Scope) (name : String) (v : VarId) :
    (s.bind name v).rename ρ = (s.rename ρ).bind (ρ name) v := by
  simp only [bind, rename, List.map_cons, Prod.map_apply, id_eq, List.filter_map]
  congr 3
  refine List.filter_congr fun e _ => ?_
  simp [inj.eq_iff]

/-- A renamed name stands for what the name stood for. -/
theorem lookup_rename (inj : Function.Injective ρ) (name : String) (symbols : List (String × VarId)) :
    (symbols.map (Prod.map ρ id)).lookup (ρ name) = symbols.lookup name := by
  induction symbols with
  | nil => rfl
  | cons e rest ih =>
    obtain ⟨key, v⟩ := e
    rw [List.map_cons, Prod.map_apply, List.lookup_cons, List.lookup_cons, ih]
    by_cases same : name = key
    · simp [same]
    · have other : (ρ name == ρ key) = (name == key) := by simp [same, inj.eq_iff]
      rw [other]
      rfl

end Scope

namespace Program

variable {p : Program} {i : ScopeId} {v : VarId}

@[simp] theorem size_scopes_rename (p : Program) : (p.rename ρ).scopes.size = p.scopes.size := by
  simp [rename]

@[simp] theorem size_vars_rename (p : Program) : (p.rename ρ).vars.size = p.vars.size := by
  simp [rename]

theorem scope_rename (p : Program) (i : ScopeId) :
    (p.rename ρ).scope i = if i < ownScope then p.scope i else (p.scope i).rename ρ := by
  simp only [scope, rename, Array.getD_eq_getD_getElem?, Array.getElem?_mapIdx]
  cases p.scopes[i]? with
  | some s => rfl
  | none =>
    split
    · rfl
    · rfl

theorem var_rename (p : Program) (v : VarId) : ∃ name, (p.rename ρ).var v = { p.var v with name := name } := by
  simp only [var, rename, Array.getD_eq_getD_getElem?, Array.getElem?_mapIdx]
  cases p.vars[v]? with
  | none => exact ⟨_, rfl⟩
  | some x =>
    simp only [Option.map_some, Option.getD_some]
    split
    · exact ⟨_, rfl⟩
    · exact ⟨_, rfl⟩

theorem renames_rename (p : Program) : p.Renames (p.rename ρ) := by
  have field {α : Type} (g : Scope → α) (hg : ∀ s, g (s.rename ρ) = g s) (i : ScopeId) :
      g ((p.rename ρ).scope i) = g (p.scope i) := by
    rw [scope_rename]
    split
    · rfl
    · exact hg _
  exact ⟨field Scope.body fun _ => rfl, field Scope.inputs fun _ => rfl, field Scope.outputs fun _ => rfl, var_rename p,
    size_vars_rename p, rfl, rfl, rfl, rfl⟩

/-- Own scopes are changed and renamed in either order. -/
theorem rename_modifyScope (hi : ownScope ≤ i) {f g : Scope → Scope} (commute : ∀ s, (f s).rename ρ = g (s.rename ρ)) :
    (p.modifyScope i f).rename ρ = (p.rename ρ).modifyScope i g := by
  simp only [rename, modifyScope, mk.injEq, and_true]
  refine Array.ext_getElem? fun k => ?_
  simp only [Array.getElem?_mapIdx, Array.getElem?_modify]
  by_cases hk : i = k
  · subst hk
    have own : ¬i < ownScope := Nat.not_lt.2 hi
    cases p.scopes[i]? with
    | none => simp
    | some s => simp [own, commute]
  · simp [hk]

theorem rename_define (inj : Function.Injective ρ) (hi : ownScope ≤ i) (hv : ownVar ≤ p.vars.size)
    (x : Variable) : (p.define i x).rename ρ = (p.rename ρ).define i (x.rename ρ) := by
  have pushed : ({ p with vars := p.vars.push x } : Program).rename ρ =
      { p.rename ρ with vars := (p.rename ρ).vars.push (x.rename ρ) } := by
    simp only [rename, Array.mapIdx_push, if_neg (Nat.not_lt.2 hv)]
  have bound (s : Scope) : (s.bind x.name p.vars.size).rename ρ = (s.rename ρ).bind (ρ x.name) p.vars.size :=
    Scope.bind_rename inj s x.name p.vars.size
  refine (rename_modifyScope (g := fun s => s.bind (ρ x.name) p.vars.size) hi bound).trans ?_
  rw [pushed, define, size_vars_rename]
  rfl

theorem rename_addScope (p : Program) (parent : Option ScopeId) :
    (p.addScope parent).rename ρ = (p.rename ρ).addScope parent := by
  simp only [rename, addScope, Array.mapIdx_push, mk.injEq, and_true]
  congr 1
  split
  · rfl
  · rfl

/-- The scopes of a program's own stand in each other or in the outermost one, whose table has the predefined names. -/
structure Own (p : Program) : Prop where
  positive : 0 < ownScope
  scopes : ownScope < p.scopes.size
  vars : ownVar ≤ p.vars.size
  parents : ∀ i, ownScope ≤ i → ∀ j, (p.scope i).parent = some j → ownScope ≤ j ∨ j = 0
  outermost : (p.scope 0).parent = none
  predefined : ∀ e ∈ (p.scope 0).symbols, e.1 ∈ builtinNames

/-- A renamed name stands in a scope of the renamed program for what the name stands for. -/
theorem Own.find_rename (h : p.Own) (r : Renaming ρ) (hi : ownScope ≤ i ∨ i = 0) (name : String) :
    ((p.rename ρ).scope i).find? (ρ name) = (p.scope i).find? name := by
  refine Eq.trans ?_ (Scope.lookup_rename r.injective name (p.scope i).symbols)
  rw [scope_rename, Scope.find?]
  rcases hi with hi | rfl
  · rw [if_neg (Nat.not_lt.2 hi)]
    rfl
  · -- The keys of the outermost table are predefined names, which are renamed to themselves.
    have fixed : (p.scope 0).symbols.map (Prod.map ρ id) = (p.scope 0).symbols := by
      refine (List.map_congr_left fun e he => ?_).trans (List.map_id _)
      exact Prod.ext (r.fixes e.1 (h.predefined e he)) rfl
    rw [if_pos h.positive, fixed]

theorem Own.lookup_rename (h : p.Own) (r : Renaming ρ) (hi : ownScope ≤ i) (name : String) :
    (p.rename ρ).lookup? i (ρ name) = p.lookup? i name := by
  have chain (fuel : Nat) : ∀ i, ownScope ≤ i ∨ i = 0 →
      ((p.rename ρ).chain fuel i).findSome? (·.find? (ρ name)) = (p.chain fuel i).findSome? (·.find? name) := by
    induction fuel with
    | zero => exact fun _ _ => rfl
    | succ fuel ih =>
      intro i hi
      have parent : ((p.rename ρ).scope i).parent = (p.scope i).parent := by
        rw [scope_rename]
        split
        · rfl
        · rfl
      rw [Program.chain, Program.chain, List.findSome?_cons, List.findSome?_cons, h.find_rename r hi, parent]
      cases hj : (p.scope i).parent with
      | none => rfl
      | some j =>
        have around : ownScope ≤ j ∨ j = 0 := by
          rcases hi with hi | rfl
          · exact h.parents i hi j hj
          · rw [h.outermost] at hj
            cases hj
        dsimp only
        rw [ih j around]
  exact chain _ i (.inl hi)

theorem Own.modifyScope (h : p.Own) (hi : ownScope ≤ i) {f : Scope → Scope} (parent : ∀ s, (f s).parent = s.parent) :
    (p.modifyScope i f).Own := by
  have outermost : (p.modifyScope i f).scope 0 = p.scope 0 :=
    scope_modifyScope_ne (Nat.ne_of_lt (Nat.lt_of_lt_of_le h.positive hi)) f
  refine ⟨h.positive, ?_, h.vars, fun k hk j hj => h.parents k hk j ?_, outermost ▸ h.outermost, outermost ▸ h.predefined⟩
  · rw [scopes_size_modifyScope]
    exact h.scopes
  · rcases scope_modifyScope p i f k with same | ⟨rfl, changed⟩
    · exact same ▸ hj
    · rw [changed, parent] at hj
      exact hj

theorem Own.define (h : p.Own) (hi : ownScope ≤ i) (x : Variable) : (p.define i x).Own := by
  have pushed : ({ p with vars := p.vars.push x } : Program).Own :=
    ⟨h.positive, h.scopes, by simpa using Nat.le_succ_of_le h.vars, h.parents, h.outermost, h.predefined⟩
  exact pushed.modifyScope hi fun _ => rfl

theorem Own.addStmt (h : p.Own) (hi : ownScope ≤ i) (st : Stmt) : (p.addStmt i st).Own :=
  h.modifyScope hi fun _ => rfl

theorem Own.addScope (h : p.Own) (hi : ownScope ≤ i) : (p.addScope (some i)).Own := by
  have outermost : (p.addScope (some i)).scope 0 = p.scope 0 :=
    scope_addScope_lt (Nat.lt_trans h.positive h.scopes) _
  refine ⟨h.positive, ?_, h.vars, fun k hk j hj => ?_, outermost ▸ h.outermost, outermost ▸ h.predefined⟩
  · rw [scopes_size_addScope]
    exact Nat.lt_succ_of_lt h.scopes
  · rcases Nat.lt_trichotomy k p.scopes.size with lt | rfl | gt
    · rw [scope_addScope_lt lt] at hj
      exact h.parents k hk j hj
    · rw [scope_addScope_new] at hj
      cases hj
      exact .inl hi
    · rw [scope_of_size_le (by rw [scopes_size_addScope]; exact gt)] at hj
      cases hj

end Program

/-! ## Steps of building -/

/-- The builder in which everything has been renamed. -/
def Builder.rename (ρ : String → String) (b : Builder) : Builder := { b with program := b.program.rename ρ }

/-- Building has come to a scope of the program's own. -/
structure Builder.Own (b : Builder) : Prop where
  program : b.program.Own
  current : ownScope ≤ b.current

namespace Build

variable {α β γ δ : Type} {b : Builder}

/-- Two runs both succeed, the second one in the renamed builder and with a result that `R` relates, or they fail alike. -/
inductive Mirror (ρ : String → String) (R : α → β → Prop) :
    Except BuildError α × Builder → Except BuildError β × Builder → Prop
  | ok {a a' b} (own : b.Own) (h : R a a') : Mirror ρ R (.ok a, b) (.ok a', b.rename ρ)
  | error {e e' b b'} (h : e.Alike e') : Mirror ρ R (.error e, b) (.error e', b')

/-- The second step does in the renamed builder what the first one does. -/
def Mirrors (ρ : String → String) (b : Builder) (R : α → β → Prop) (m : Build α) (m' : Build β) : Prop :=
  Mirror ρ R (m.run b) (m'.run (b.rename ρ))

namespace Mirrors

variable {R : α → β → Prop} {S : γ → δ → Prop} {m : Build α} {m' : Build β} {k : α → Build γ} {k' : β → Build δ}

theorem pure {a : α} {a' : β} (own : b.Own) (h : R a a') : Mirrors ρ b R (Pure.pure a) (Pure.pure a') := .ok own h

theorem refuse {p q : Problem} (h : p.Alike q) : Mirrors ρ b R (refuse p) (refuse q) := .error (.problem h)

theorem bind (hm : Mirrors ρ b R m m') (hk : ∀ a a' b₁, b₁.Own → R a a' → Mirrors ρ b₁ S (k a) (k' a')) :
    Mirrors ρ b S (m >>= k) (m' >>= k') := by
  rw [Mirrors] at hm
  rw [Mirrors, run_bind, run_bind]
  generalize m.run b = x at hm ⊢
  generalize m'.run (b.rename ρ) = y at hm ⊢
  cases hm with
  | ok own h => exact hk _ _ _ own h
  | error h => exact .error h

/-- The first step has one result in both builders. -/
theorem bind_eq {m m' : Build α} {k : α → Build γ} {k' : α → Build δ} (hm : Mirrors ρ b Eq m m')
    (hk : ∀ a b₁, b₁.Own → Mirrors ρ b₁ S (k a) (k' a)) : Mirrors ρ b S (m >>= k) (m' >>= k') :=
  hm.bind fun a _ b₁ own same => same ▸ hk a b₁ own

theorem get_bind {k : Builder → Build γ} {k' : Builder → Build δ} (h : Mirrors ρ b S (k b) (k' (b.rename ρ))) :
    Mirrors ρ b S (get >>= k) (get >>= k') := h

theorem modify {u u' : Builder → Builder} (own : (u b).Own) (h : u' (b.rename ρ) = (u b).rename ρ) :
    Mirrors ρ b Eq (modify u) (modify u') := by
  show Mirror ρ Eq (.ok (), u b) (.ok (), u' (b.rename ρ))
  rw [h]
  exact .ok own rfl

theorem mono {R' : α → β → Prop} (hm : Mirrors ρ b R m m') (h : ∀ a a', R a a' → R' a a') : Mirrors ρ b R' m m' := by
  rw [Mirrors] at hm ⊢
  generalize m.run b = x at hm ⊢
  generalize m'.run (b.rename ρ) = y at hm ⊢
  cases hm with
  | ok own hr => exact .ok own (h _ _ hr)
  | error hr => exact .error hr

end Mirrors

theorem mirrors_modifyScope (own : b.Own) {i : ScopeId} (hi : ownScope ≤ i) {f g : Scope → Scope}
    (parent : ∀ s, (f s).parent = s.parent) (commute : ∀ s, (f s).rename ρ = g (s.rename ρ)) :
    Mirrors ρ b Eq (change (·.modifyScope i f)) (change (·.modifyScope i g)) := by
  refine .modify ⟨own.program.modifyScope hi parent, own.current⟩ ?_
  show ({ b with program := (b.program.rename ρ).modifyScope i g } : Builder) = _
  rw [← Program.rename_modifyScope hi commute]
  rfl

theorem mirrors_emit (own : b.Own) (st : Stmt) : Mirrors ρ b Eq (emit st) (emit st) :=
  .get_bind (mirrors_modifyScope own own.current (fun _ => rfl) fun _ => rfl)

theorem mirrors_define (r : Renaming ρ) (own : b.Own) (x : Variable) : Mirrors ρ b Eq (define x) (define (x.rename ρ)) := by
  have defined : Mirrors ρ b Eq (change (·.define b.current x)) (change (·.define b.current (x.rename ρ))) := by
    refine .modify ⟨own.program.define own.current x, own.current⟩ ?_
    show ({ b with program := (b.program.rename ρ).define b.current (x.rename ρ) } : Builder) = _
    rw [← Program.rename_define r.injective own.current own.program.vars]
    rfl
  exact .get_bind (defined.bind_eq fun _ b₁ own₁ => .pure own₁ (Program.size_vars_rename b.program).symm)

theorem mirrors_defineIdent (r : Renaming ρ) (own : b.Own) (id : Tree.Ident) :
    Mirrors ρ b Eq (defineIdent id) (defineIdent (id.rename ρ)) :=
  mirrors_define r own ⟨id.name, id.span, none, false⟩

/-- Something is built in a scope of its own. -/
theorem mirrors_inNewScope (own : b.Own) {body body' : ScopeId → Build Unit}
    (h : b.opened.Own → Mirrors ρ b.opened Eq (body b.program.scopes.size) (body' b.program.scopes.size)) :
    Mirrors ρ b (fun i j => i = j ∧ ownScope ≤ i) (inNewScope body) (inNewScope body') := by
  have opened : b.opened.Own := ⟨own.program.addScope own.current, Nat.le_of_lt own.program.scopes⟩
  have renamed : (b.rename ρ).opened = b.opened.rename ρ := by
    simp only [Builder.opened, Builder.rename, Program.rename_addScope, Program.size_scopes_rename]
  have inside : Mirrors ρ b.opened (fun i j => i = j ∧ ownScope ≤ i)
      (do body b.program.scopes.size; closeScope b.current; return b.program.scopes.size)
      (do body' b.program.scopes.size; closeScope b.current; return b.program.scopes.size) := by
    refine (h opened).bind_eq fun _ b₁ own₁ => ?_
    refine (Mirrors.modify (u := fun b' => { b' with current := b.current, included := b'.included.tail })
      ⟨own₁.program, own.current⟩ rfl).bind_eq fun _ b₂ own₂ => .pure own₂ ⟨rfl, ?_⟩
    exact Nat.le_of_lt own.program.scopes
  rw [Mirrors, ← renamed] at inside
  have size : (b.rename ρ).program.scopes.size = b.program.scopes.size := Program.size_scopes_rename _
  have second : (inNewScope body').run (b.rename ρ) = (do
      body' (b.rename ρ).program.scopes.size; closeScope b.current; return (b.rename ρ).program.scopes.size :
        Build ScopeId).run (b.rename ρ).opened := rfl
  rw [Mirrors, second, size]
  exact inside

/-! ## Names -/

theorem at_unknownName (span : Span) (name : String) (guess : Option String) :
    (Problem.unknownName span name guess).kind = .noEntityWithName ∧ (Problem.unknownName span name guess).span = span := by
  cases guess with
  | none => exact ⟨rfl, rfl⟩
  | some g => exact ⟨rfl, rfl⟩

theorem alike_unknownName (span : Span) (name name' : String) (guess guess' : Option String) :
    (Problem.unknownName span name guess).Alike (.unknownName span name' guess') := by
  obtain ⟨kind, place⟩ := at_unknownName span name guess
  obtain ⟨kind', place'⟩ := at_unknownName span name' guess'
  exact ⟨kind.trans kind'.symm, place.trans place'.symm⟩

theorem at_readOnly (span : Span) (name : String) (definition : Span) :
    (Problem.readOnly span name definition).kind = .writeToReadOnlyVariable ∧
      (Problem.readOnly span name definition).span = span := by
  unfold Problem.readOnly
  dsimp only
  split
  · exact ⟨rfl, rfl⟩
  · exact ⟨rfl, rfl⟩

theorem alike_readOnly (span : Span) (name name' : String) (definition : Span) :
    (Problem.readOnly span name definition).Alike (.readOnly span name' definition) := by
  obtain ⟨kind, place⟩ := at_readOnly span name definition
  obtain ⟨kind', place'⟩ := at_readOnly span name' definition
  exact ⟨kind.trans kind'.symm, place.trans place'.symm⟩

section Names

variable (r : Renaming ρ)

include r

theorem mirrors_lookup (own : b.Own) (id : Tree.Ident) : Mirrors ρ b Eq (lookup id) (lookup (id.rename ρ)) := by
  refine .get_bind ?_
  have found : (b.rename ρ).program.lookup? (b.rename ρ).current (id.rename ρ).name =
      b.program.lookup? b.current id.name := own.program.lookup_rename r own.current id.name
  rw [found]
  split
  · exact .pure own rfl
  · exact .refuse (alike_unknownName _ _ _ _ _)

theorem mirrors_writable (own : b.Own) (id : Tree.Ident) : Mirrors ρ b Eq (writable id) (writable (id.rename ρ)) := by
  refine (mirrors_lookup r own id).bind_eq fun v b₁ own₁ => .get_bind ?_
  obtain ⟨name, same⟩ := Program.var_rename (ρ := ρ) b₁.program v
  have same : (b₁.rename ρ).program.var v = { b₁.program.var v with name := name } := same
  dsimp only
  rw [same]
  dsimp only
  split
  · exact .refuse (alike_readOnly _ _ _ _)
  · exact .pure own₁ rfl

omit r in
theorem mirrors_targetIdent : (e : Tree.Expr) → ∀ {b : Builder}, b.Own →
    Mirrors ρ b (fun id id' => id' = id.rename ρ) (targetIdent e) (targetIdent (e.rename ρ))
  | .name id, b, own => by
    rw [Tree.Expr.rename, targetIdent, targetIdent]
    exact .pure own rfl
  | .index base index optional span, b, own => by
    rw [Tree.Expr.rename, targetIdent, targetIdent]
    split
    · exact .refuse ⟨rfl, rfl⟩
    · exact mirrors_targetIdent base own
  | .int .., b, own | .float .., b, own | .array .., b, own | .arrayType .., b, own | .openBound _, b, own
  | .upperBound .., b, own | .closedBound .., b, own | .property .., b, own | .unary .., b, own
  | .binary .., b, own | .call .., b, own | .decl .., b, own => by
    simp only [Tree.Expr.rename, targetIdent]
    exact .refuse ⟨rfl, rfl⟩

omit r in
theorem mirrors_property (own : b.Own) (name : String) (span : Span) :
    Mirrors ρ b Eq (property name span) (property name span) := by
  unfold property
  split
  · exact .pure own rfl
  · exact .pure own rfl
  · exact .refuse (.refl _)

end Names

mutual

theorem mirrors_value (r : Renaming ρ) : (e : Tree.Expr) → ∀ {b : Builder}, b.Own →
    Mirrors ρ b Eq (value e) (value (e.rename ρ))
  | .name id, b, own => by
    rw [Tree.Expr.rename, value, value]
    exact (mirrors_lookup r own id).bind_eq fun v b₁ own₁ => .pure own₁ rfl
  | .int v span, b, own => by
    rw [Tree.Expr.rename, value]
    split
    · exact .refuse (.refl _)
    · exact .pure own rfl
  | .float v span, b, own => by
    rw [Tree.Expr.rename, value]
    exact .pure own rfl
  | .array items span, b, own => by
    rw [Tree.Expr.rename, value, value]
    exact (mirrors_values r items own).bind_eq fun vs b₁ own₁ => .pure own₁ rfl
  | .arrayType dims base span, b, own => by
    rw [Tree.Expr.rename, value, value]
    refine (mirrors_values r dims own).bind_eq fun vs b₁ own₁ => ?_
    exact (mirrors_value r base own₁).bind_eq fun v b₂ own₂ => .pure own₂ rfl
  | .openBound span, b, own => by
    rw [Tree.Expr.rename, value]
    exact .pure own rfl
  | .upperBound upper span, b, own => by
    rw [Tree.Expr.rename, value, value]
    exact (mirrors_value r upper own).bind_eq fun u b₁ own₁ => .pure own₁ rfl
  | .closedBound lower upper span, b, own => by
    rw [Tree.Expr.rename, value, value]
    refine (mirrors_value r lower own).bind_eq fun l b₁ own₁ => ?_
    exact (mirrors_value r upper own₁).bind_eq fun u b₂ own₂ => .pure own₂ rfl
  | .index base index optional span, b, own => by
    rw [Tree.Expr.rename, value, value]
    refine (mirrors_value r base own).bind_eq fun v b₁ own₁ => ?_
    refine (mirrors_value r index own₁).bind_eq fun i b₂ own₂ => ?_
    dsimp only
    split
    · exact .pure own₂ rfl
    · exact .pure own₂ rfl
  | .property base name nameSpan span, b, own => by
    rw [Tree.Expr.rename, value, value]
    refine (mirrors_value r base own).bind_eq fun v b₁ own₁ => ?_
    exact (mirrors_property own₁ name nameSpan).bind_eq fun q b₂ own₂ => .pure own₂ rfl
  | .unary op operand span, b, own => by
    rw [Tree.Expr.rename, value, value]
    exact (mirrors_value r operand own).bind_eq fun v b₁ own₁ => .pure own₁ rfl
  | .binary op left right span, b, own => by
    rw [Tree.Expr.rename, value, value]
    refine (mirrors_value r left own).bind_eq fun l b₁ own₁ => ?_
    exact (mirrors_value r right own₁).bind_eq fun v b₂ own₂ => .pure own₂ rfl
  | .call callee inputs explicit outs span, b, own => by
    rw [Tree.Expr.rename, value, value]
    refine (mirrors_lookup r own callee).bind_eq fun v b₁ own₁ => ?_
    refine (mirrors_values r inputs own₁).bind_eq fun vs b₂ own₂ => ?_
    split
    · refine (mirrors_outputs r false outs own₂).bind_eq fun o b₃ own₃ => ?_
      dsimp only
      split
      · exact .pure own₃ rfl
      · exact .refuse (.refl _)
    · exact .pure own₂ rfl
  | .decl type name span, b, own => by
    rw [Tree.Expr.rename, value, value]
    exact .refuse (.refl _)

theorem mirrors_values (r : Renaming ρ) : (es : List Tree.Expr) → ∀ {b : Builder}, b.Own →
    Mirrors ρ b Eq (values es) (values (Tree.renameExprs ρ es))
  | [], b, own => by
    rw [Tree.renameExprs, values]
    exact .pure own rfl
  | e :: es, b, own => by
    rw [Tree.renameExprs, values, values]
    refine (mirrors_value r e own).bind_eq fun v b₁ own₁ => ?_
    exact (mirrors_values r es own₁).bind_eq fun vs b₂ own₂ => .pure own₂ rfl

theorem mirrors_outputs (r : Renaming ρ) (seen : Bool) : (outs : List Tree.Output) → ∀ {b : Builder}, b.Own →
    Mirrors ρ b Eq (outputs seen outs) (outputs seen (Tree.renameOutputs ρ outs))
  | [], b, own => by
    rw [Tree.renameOutputs, outputs]
    exact .pure own rfl
  | .inline span :: rest, b, own => by
    rw [Tree.renameOutputs, outputs, outputs]
    split
    · exact (Mirrors.refuse (R := Eq) (.refl _)).bind_eq fun _ _ own₁ => (mirrors_outputs r true rest own₁).bind_eq
        fun o b₂ own₂ => .pure own₂ rfl
    · exact (mirrors_outputs r true rest own).bind_eq fun o b₁ own₁ => .pure own₁ rfl
  | .target e span :: rest, b, own => by
    rw [Tree.renameOutputs, outputs, outputs]
    refine (mirrors_target r e own).bind_eq fun t b₁ own₁ => ?_
    exact (mirrors_outputs r seen rest own₁).bind_eq fun o b₂ own₂ => .pure own₂ rfl

theorem mirrors_target (r : Renaming ρ) : (e : Tree.Expr) → ∀ {b : Builder}, b.Own →
    Mirrors ρ b Eq (target e) (target (e.rename ρ))
  | .decl type name span, b, own => by
    rw [Tree.Expr.rename, target, target]
    refine (mirrors_value r type own).bind_eq fun t b₁ own₁ => (mirrors_defineIdent r own₁ name).bind_eq fun v b₂ own₂ => ?_
    exact (mirrors_emit own₂ _).bind_eq fun _ b₃ own₃ => .pure own₃ rfl
  | .name id, b, own => by
    rw [Tree.Expr.rename, target, target]
    exact (mirrors_writable r own id).bind_eq fun v b₁ own₁ => .pure own₁ rfl
  | .index base index optional span, b, own => by
    rw [Tree.Expr.rename, target, target]
    have rest {b : Builder} (own : b.Own) : Mirrors ρ b Eq (do
        let v ← writable (← targetIdent base)
        let inner ← targetIndexes base
        return .mk v (inner ++ [← value index]) span : Build Target) (do
        let v ← writable (← targetIdent (base.rename ρ))
        let inner ← targetIndexes (base.rename ρ)
        return .mk v (inner ++ [← value (index.rename ρ)]) span) := by
      refine (mirrors_targetIdent base own).bind fun id id' b₁ own₁ same => ?_
      subst same
      refine (mirrors_writable r own₁ id).bind_eq fun v b₂ own₂ => ?_
      refine (mirrors_targetIndexes r base own₂).bind_eq fun es b₃ own₃ => ?_
      exact (mirrors_value r index own₃).bind_eq fun i b₄ own₄ => .pure own₄ rfl
    split
    · exact (Mirrors.refuse (R := Eq) (.refl _)).bind_eq fun _ _ own₁ => rest own₁
    · exact rest own
  | .int .., b, own | .float .., b, own | .array .., b, own | .arrayType .., b, own | .openBound _, b, own
  | .upperBound .., b, own | .closedBound .., b, own | .property .., b, own | .unary .., b, own
  | .binary .., b, own | .call .., b, own => by
    simp only [Tree.Expr.rename, target]
    exact .refuse ⟨rfl, rfl⟩

theorem mirrors_targetIndexes (r : Renaming ρ) : (e : Tree.Expr) → ∀ {b : Builder}, b.Own →
    Mirrors ρ b Eq (targetIndexes e) (targetIndexes (e.rename ρ))
  | .index base index _ _, b, own => by
    rw [Tree.Expr.rename, targetIndexes, targetIndexes]
    refine (mirrors_targetIndexes r base own).bind_eq fun es b₁ own₁ => ?_
    exact (mirrors_value r index own₁).bind_eq fun i b₂ own₂ => .pure own₂ rfl
  | .name _, b, own | .decl .., b, own | .int .., b, own | .float .., b, own | .array .., b, own
  | .arrayType .., b, own | .openBound _, b, own | .upperBound .., b, own | .closedBound .., b, own
  | .property .., b, own | .unary .., b, own | .binary .., b, own | .call .., b, own => by
    simp only [Tree.Expr.rename, targetIndexes]
    exact .pure own rfl

end

theorem mirrors_callAlone (r : Renaming ρ) (own : b.Own) (e : Tree.Expr) :
    Mirrors ρ b Eq (callAlone e) (callAlone (e.rename ρ)) := by
  cases e with
  | call callee inputs explicit outs span =>
    rw [Tree.Expr.rename, callAlone, callAlone]
    refine (mirrors_lookup r own callee).bind_eq fun v b₁ own₁ => ?_
    refine (mirrors_values r inputs own₁).bind_eq fun vs b₂ own₂ => ?_
    dsimp only
    split
    · simp only [map_eq_pure_bind, bind_assoc, pure_bind]
      exact (mirrors_outputs r false outs own₂).bind_eq fun o b₃ own₃ => .pure own₃ rfl
    · exact .pure own₂ rfl
  | _ => exact mirrors_value r _ own

/-! ## Inputs, outputs and exports -/

theorem mirrors_checkSignature (inj : Function.Injective ρ) (own : b.Own) (callee : String)
    (ids : List Tree.Ident) : ∀ seen, Mirrors ρ b Eq (checkSignature callee seen ids)
      (checkSignature (ρ callee) (seen.map (Tree.Ident.rename ρ)) (ids.map (Tree.Ident.rename ρ))) := by
  induction ids with
  | nil => exact fun _ => .pure own rfl
  | cons id rest ih =>
    intro seen
    have found : (seen.map (Tree.Ident.rename ρ)).find? (·.name = (id.rename ρ).name) =
        (seen.find? (·.name = id.name)).map (Tree.Ident.rename ρ) := by
      rw [List.find?_map]
      congr 2
      funext other
      simp [Tree.Ident.rename, inj.eq_iff]
    rw [List.map_cons, checkSignature, checkSignature, found]
    cases seen.find? (·.name = id.name) with
    | some first => exact .refuse (Problem.alike_hint ..)
    | none => exact ih (id :: seen)

section Lists

variable (r : Renaming ρ)

include r

theorem mirrors_defineIdents (own : b.Own) (ids : List Tree.Ident) :
    Mirrors ρ b Eq (ids.mapM defineIdent) ((ids.map (Tree.Ident.rename ρ)).mapM defineIdent) := by
  induction ids generalizing b with
  | nil => exact .pure own rfl
  | cons id rest ih =>
    rw [List.map_cons, List.mapM_cons, List.mapM_cons]
    refine (mirrors_defineIdent r own id).bind_eq fun v b₁ own₁ => ?_
    exact (ih own₁).bind_eq fun vs b₂ own₂ => .pure own₂ rfl

theorem mirrors_macroOutputs (own : b.Own) {body : ScopeId} (hbody : ownScope ≤ body) (callee : String) (header : Span)
    (ids : List Tree.Ident) : Mirrors ρ b Eq (macroOutputs body callee header ids)
      (macroOutputs body (ρ callee) header (ids.map (Tree.Ident.rename ρ))) := by
  unfold macroOutputs
  induction ids generalizing b with
  | nil => exact .pure own rfl
  | cons id rest ih =>
    rw [List.map_cons, List.mapM_cons, List.mapM_cons]
    refine Mirrors.bind_eq (.get_bind ?_) fun v b₁ own₁ => (ih own₁).bind_eq fun vs b₂ own₂ => .pure own₂ rfl
    have found : (b.rename ρ).program.lookup? body (id.rename ρ).name = b.program.lookup? body id.name :=
      own.program.lookup_rename r hbody id.name
    rw [found]
    split
    · exact .pure own rfl
    · exact .refuse (Problem.alike_hint ..)

theorem mirrors_exportNames (own : b.Own) {body : ScopeId} (hbody : ownScope ≤ body) (ids : List Tree.Ident) :
    Mirrors ρ b Eq (exportNames body ids) (exportNames body (ids.map (Tree.Ident.rename ρ))) := by
  unfold exportNames
  induction ids generalizing b with
  | nil => exact .pure own rfl
  | cons id rest ih =>
    rw [List.map_cons, List.mapM_cons, List.mapM_cons]
    refine Mirrors.bind_eq (.get_bind ?_) fun v b₁ own₁ => (ih own₁).bind_eq fun vs b₂ own₂ => .pure own₂ rfl
    have found : ((b.rename ρ).program.scope body).find? (id.rename ρ).name = (b.program.scope body).find? id.name :=
      own.program.find_rename r (.inl hbody) id.name
    rw [found]
    split
    · rename_i v _
      have bound := mirrors_modifyScope own own.current (f := (·.bind id.name v)) (g := (·.bind (ρ id.name) v))
        (fun _ => rfl) fun s => Scope.bind_rename r.injective s id.name v
      exact bound.bind_eq fun _ b₁ own₁ => .pure own₁ rfl
    · exact .refuse (Problem.alike_error ..)

theorem mirrors_ioNames (own : b.Own) (isOutput : Bool) (type : Expr) (span : Span) (ids : List Tree.Ident) :
    Mirrors ρ b Eq (ioNames isOutput type span ids) (ioNames isOutput type span (ids.map (Tree.Ident.rename ρ))) := by
  unfold ioNames
  induction ids generalizing b with
  | nil => exact .pure own rfl
  | cons id rest ih =>
    rw [List.map_cons]
    refine Mirrors.bind_eq ?_ fun _ b₁ own₁ => ih own₁
    refine (mirrors_defineIdent r own id).bind_eq fun v b₁ own₁ => (mirrors_emit own₁ _).bind_eq fun _ b₂ own₂ => ?_
    have h := own₂.program
    cases isOutput with
    | false =>
      exact .modify ⟨⟨h.positive, h.scopes, h.vars, h.parents, h.outermost, h.predefined⟩, own₂.current⟩ rfl
    | true =>
      exact .modify ⟨⟨h.positive, h.scopes, h.vars, h.parents, h.outermost, h.predefined⟩, own₂.current⟩ rfl

end Lists

/-! ## Statements -/

/-- A step does in every renamed builder what another one does in the builder. -/
def MirrorsAll (ρ : String → String) (m m' : Build Unit) : Prop := ∀ {b : Builder}, b.Own → Mirrors ρ b Eq m m'

theorem mirrors_macroBody (r : Renaming ρ) (own : b.Own) {scope : ScopeId} (hscope : ownScope ≤ scope) {m m' : Build Unit}
    (hm : MirrorsAll ρ m m') (callee : String) (header : Span) (inputs outs : List Tree.Ident) :
    Mirrors ρ b Eq (do
      checkSignature callee [] (inputs ++ outs)
      modify fun b => { b with macroDepth := b.macroDepth + 1 }
      let ins ← inputs.mapM defineIdent
      change (·.modifyScope scope fun s => { s with inputs := ins })
      m
      let outs ← macroOutputs scope callee header outs
      change (·.modifyScope scope fun s => { s with outputs := outs })
      modify fun b => { b with macroDepth := b.macroDepth - 1 }) (do
      checkSignature (ρ callee) [] (inputs.map (Tree.Ident.rename ρ) ++ outs.map (Tree.Ident.rename ρ))
      modify fun b => { b with macroDepth := b.macroDepth + 1 }
      let ins ← (inputs.map (Tree.Ident.rename ρ)).mapM defineIdent
      change (·.modifyScope scope fun s => { s with inputs := ins })
      m'
      let outs ← macroOutputs scope (ρ callee) header (outs.map (Tree.Ident.rename ρ))
      change (·.modifyScope scope fun s => { s with outputs := outs })
      modify fun b => { b with macroDepth := b.macroDepth - 1 }) := by
  rw [← List.map_append]
  refine (mirrors_checkSignature r.injective own callee (inputs ++ outs) []).bind_eq fun _ b₁ own₁ => ?_
  refine (Mirrors.modify (u := fun b => { b with macroDepth := b.macroDepth + 1 }) ⟨own₁.program, own₁.current⟩
    rfl).bind_eq fun _ b₂ own₂ => ?_
  refine (mirrors_defineIdents r own₂ inputs).bind_eq fun ins b₃ own₃ => ?_
  refine Mirrors.bind_eq (mirrors_modifyScope own₃ hscope (fun _ => rfl) fun _ => rfl) fun _ b₄ own₄ => ?_
  refine (hm own₄).bind_eq fun _ b₅ own₅ => ?_
  refine (mirrors_macroOutputs r own₅ hscope callee header outs).bind_eq fun vs b₆ own₆ => ?_
  refine Mirrors.bind_eq (mirrors_modifyScope own₆ hscope (fun _ => rfl) fun _ => rfl) fun _ b₇ own₇ => ?_
  exact .modify ⟨own₇.program, own₇.current⟩ rfl

/-- A scope is built where nothing needs the scope. -/
theorem mirrors_nested (own : b.Own) {m m' : Build Unit} (hm : MirrorsAll ρ m m') :
    Mirrors ρ b (fun i j => i = j ∧ ownScope ≤ i) (inNewScope fun _ => m) (inNewScope fun _ => m') :=
  mirrors_inNewScope own fun opened => hm opened

variable {take : List UInt8 → Span → Build Unit}

mutual

theorem mirrors_stmt (r : Renaming ρ) : (st : Tree.Stmt) → st.Standalone →
    MirrorsAll ρ (stmt take st) (stmt take (st.rename ρ))
  | .io isOutput type names span, _, b, own => by
    rw [Tree.Stmt.rename, stmt, stmt]
    refine .get_bind ?_
    show Mirrors ρ b Eq _ (if b.current ≠ b.program.entry then _ else _)
    split
    · exact (Mirrors.refuse (R := Eq) (.refl _)).bind_eq fun _ b₁ own₁ => (mirrors_value r type own₁).bind_eq
        fun v b₂ own₂ => mirrors_ioNames r own₂ isOutput v span names
    · exact (mirrors_value r type own).bind_eq fun v b₁ own₁ => mirrors_ioNames r own₁ isOutput v span names
  | .decl type name declSpan span, _, b, own => by
    rw [Tree.Stmt.rename, stmt, stmt]
    refine (mirrors_value r type own).bind_eq fun v b₁ own₁ => ?_
    exact (mirrors_defineIdent r own₁ name).bind_eq fun id b₂ own₂ => mirrors_emit own₂ _
  | .assign place source span, _, b, own => by
    rw [Tree.Stmt.rename, stmt, stmt]
    refine (mirrors_value r source own).bind_eq fun v b₁ own₁ => ?_
    exact (mirrors_target r place own₁).bind_eq fun t b₂ own₂ => mirrors_emit own₂ _
  | .macroDef name inputs outs body header span, plain, b, own => by
    rw [Tree.Stmt.rename, stmt, stmt]
    refine Mirrors.bind (mirrors_inNewScope own fun opened => ?_) fun j j' b₁ own₁ same => ?_
    · exact mirrors_macroBody r opened (Nat.le_of_lt own.program.scopes) (mirrors_block r body plain) name.name header
        inputs outs
    obtain ⟨rfl, -⟩ := same
    refine (mirrors_define r own₁ ⟨name.name, header, some (.macroRef ⟨j, header⟩), true⟩).bind_eq fun v b₂ own₂ => ?_
    exact mirrors_emit own₂ _
  | .call call span, _, b, own => by
    rw [Tree.Stmt.rename, stmt, stmt]
    exact (mirrors_callAlone r own call).bind_eq fun v b₁ own₁ => mirrors_emit own₁ _
  | .expr e span, _, b, own => by
    rw [Tree.Stmt.rename, stmt, stmt]
    exact (mirrors_value r e own).bind_eq fun v b₁ own₁ => mirrors_emit own₁ _
  | .branch cs otherwise span, plain, b, own => by
    rw [Tree.Stmt.rename, stmt, stmt]
    refine (mirrors_clauses r cs plain.1 own).bind_eq fun cs' b₁ own₁ => ?_
    exact (mirrors_otherwiseScope r otherwise plain.2 own₁).bind_eq fun o b₂ own₂ => mirrors_emit own₂ _
  | .loop counter start stop noUnroll body span, plain, b, own => by
    rw [Tree.Stmt.rename, stmt, stmt]
    refine (mirrors_value r start own).bind_eq fun l b₁ own₁ => ?_
    refine (mirrors_value r stop own₁).bind_eq fun u b₂ own₂ => .get_bind ?_
    have size : (b₂.rename ρ).program.vars.size = b₂.program.vars.size := Program.size_vars_rename _
    dsimp only
    rw [size]
    refine Mirrors.bind (mirrors_inNewScope own₂ fun opened => ?_) fun j j' b₃ own₃ same => ?_
    · exact (mirrors_defineIdent r opened counter).bind_eq fun _ b₃ own₃ => mirrors_block r body plain own₃
    · obtain ⟨rfl, -⟩ := same
      exact mirrors_emit own₃ _
  | .static exports body span, plain, b, own => by
    rw [Tree.Stmt.rename, stmt, stmt]
    refine (mirrors_nested own (mirrors_block r body plain)).bind fun j j' b₁ own₁ same => ?_
    obtain ⟨rfl, own'⟩ := same
    exact (mirrors_exportNames r own₁ own' exports).bind_eq fun vs b₂ own₂ => mirrors_emit own₂ _
  | .assert condition span, _, b, own => by
    rw [Tree.Stmt.rename, stmt, stmt]
    exact (mirrors_value r condition own).bind_eq fun v b₁ own₁ => mirrors_emit own₁ _
  | .ret span, _, b, own => by
    rw [Tree.Stmt.rename, stmt]
    refine .get_bind ?_
    show Mirrors ρ b Eq _ (if b.macroDepth = 0 then _ else _)
    split
    · exact (Mirrors.refuse (R := Eq) (.refl _)).bind_eq fun _ b₁ own₁ => mirrors_emit own₁ _
    · exact mirrors_emit own _
  | .includeFile path span, plain, b, own => plain.elim
  | .block (.mk statements span), plain, b, own => by
    rw [Tree.Stmt.rename, Tree.Block.rename, stmt, stmt]
    refine (mirrors_nested own (mirrors_stmts r statements plain)).bind fun j j' b₁ own₁ same => ?_
    obtain ⟨rfl, -⟩ := same
    exact mirrors_emit own₁ _

theorem mirrors_block (r : Renaming ρ) : (body : Tree.Block) → body.Standalone →
    MirrorsAll ρ (block take body) (block take (body.rename ρ))
  | .mk statements _, plain, b, own => by
    rw [Tree.Block.rename, block, block]
    exact mirrors_stmts r statements plain own

theorem mirrors_stmts (r : Renaming ρ) : (ss : List Tree.Stmt) → Tree.StmtsStandalone ss →
    MirrorsAll ρ (stmts take ss) (stmts take (Tree.renameStmts ρ ss))
  | [], _, b, own => by
    rw [Tree.renameStmts, stmts]
    exact .pure own rfl
  | st :: ss, plain, b, own => by
    rw [Tree.renameStmts, stmts, stmts]
    exact (mirrors_stmt r st plain.1 own).bind_eq fun _ b₁ own₁ => mirrors_stmts r ss plain.2 own₁

theorem mirrors_clauses (r : Renaming ρ) : (cs : List Tree.Clause) → Tree.ClausesStandalone cs →
    ∀ {b : Builder}, b.Own → Mirrors ρ b Eq (clauses take cs) (clauses take (Tree.renameClauses ρ cs))
  | [], _, b, own => by
    rw [Tree.renameClauses, clauses]
    exact .pure own rfl
  | .mk condition body :: rest, plain, b, own => by
    rw [Tree.renameClauses, clauses, clauses]
    refine (mirrors_value r condition own).bind_eq fun v b₁ own₁ => ?_
    refine (mirrors_nested own₁ (mirrors_block r body plain.1)).bind fun j j' b₂ own₂ same => ?_
    obtain ⟨rfl, -⟩ := same
    exact (mirrors_clauses r rest plain.2 own₂).bind_eq fun cs b₃ own₃ => .pure own₃ rfl

theorem mirrors_otherwiseScope (r : Renaming ρ) : (body : Option Tree.Block) → Tree.OtherwiseStandalone body →
    ∀ {b : Builder}, b.Own →
    Mirrors ρ b Eq (otherwiseScope take body) (otherwiseScope take (Tree.renameOtherwise ρ body))
  | none, _, b, own => by
    rw [Tree.renameOtherwise, otherwiseScope]
    exact .pure own rfl
  | some body, plain, b, own => by
    rw [Tree.renameOtherwise, otherwiseScope, otherwiseScope, map_eq_pure_bind, map_eq_pure_bind]
    refine (mirrors_nested own (mirrors_block r body plain)).bind fun j j' b₁ own₁ same => ?_
    obtain ⟨rfl, -⟩ := same
    exact .pure own₁ rfl

end

end Build

/-! ## The program with the predefined names -/

namespace Program

/-- Building starts in a scope that was added to the predefined names. -/
theorem start_initial : ∃ q : Program, initial = { q.addScope (some 0) with entry := q.scopes.size } ∧
    q.scopes.size = ownScope ∧ q.vars.size = ownVar ∧ 0 < ownScope := by
  obtain ⟨q, start, eq⟩ := predefined_initial
  have scopes : ownScope = q.scopes.size := ownScope_eq.trans (congrArg Program.entry eq)
  have vars : ownVar = q.vars.size := ownVar_eq.trans (congrArg (fun p => p.vars.size) eq)
  exact ⟨q, eq, scopes.symm, vars.symm, scopes ▸ start.outer⟩

theorem own_initial : initial.Own := by
  obtain ⟨q, eq, scopes, vars, positive⟩ := start_initial
  have predefined : ∀ e ∈ (initial.scope 0).symbols, e.1 ∈ builtinNames := by
    have all : ((initial.scope 0).symbols.all fun e => builtinNames.contains e.1) = true := by decide +kernel
    exact fun e he => List.contains_iff_mem.1 (List.all_eq_true.1 all e he)
  have outermost : (initial.scope 0).parent = none := by decide +kernel
  rw [eq] at predefined outermost ⊢
  refine ⟨positive, ?_, Nat.le_of_eq vars.symm, fun i hi j hj => .inr ?_, outermost, predefined⟩
  · show ownScope < (q.addScope (some 0)).scopes.size
    rw [scopes_size_addScope, scopes]
    exact Nat.lt_succ_self _
  · have shape : ((q.addScope (some 0)).scope i).parent = some j := hj
    rw [← scopes] at hi
    rcases Nat.eq_or_lt_of_le hi with rfl | later
    · rw [scope_addScope_new] at shape
      cases shape
      rfl
    · rw [scope_of_size_le (by rw [scopes_size_addScope]; exact later)] at shape
      cases shape

/-- Predefined scopes and variables keep their names. -/
theorem rename_of_le {p : Program} (scopes : p.scopes.size ≤ ownScope) (vars : p.vars.size ≤ ownVar) :
    p.rename ρ = p := by
  have kept {α : Type} (xs : Array α) (n : Nat) (hn : xs.size ≤ n) (f : α → α) :
      (xs.mapIdx fun i x => if i < n then x else f x) = xs := by
    refine Array.ext (Array.size_mapIdx ..) fun i hi hi' => ?_
    rw [Array.getElem_mapIdx, if_pos (Nat.lt_of_lt_of_le hi' hn)]
  rw [rename, kept _ _ scopes, kept _ _ vars]

/-- Nothing has a name of the user's when building starts. -/
theorem rename_initial : initial.rename ρ = initial := by
  obtain ⟨q, eq, scopes, vars, -⟩ := start_initial
  have same : (q.addScope (some 0)).rename ρ = q.addScope (some 0) := by
    rw [rename_addScope, rename_of_le (Nat.le_of_eq scopes) (Nat.le_of_eq vars)]
  rw [eq]
  exact congrArg (fun p : Program => { p with entry := q.scopes.size }) same

end Program

theorem Builder.own_start {p : Program} (h : p.Own) (entry : ownScope ≤ p.entry) (lib : Library) (file : Nat) :
    Builder.Own ⟨lib, p, p.entry, [[file]], 0⟩ := ⟨h, entry⟩

/-- Building a renamed tree gives the renamed program, which is staged like the program. -/
theorem ofTree_rename (r : Renaming ρ) (lib : Library) (file : Nat) (tree : Tree.File) (plain : tree.Standalone) :
    Outcomes (fun p q => q = p.rename ρ ∧ ∀ depth options,
        Outcomes Eq Staged.Failure.Alike (Staged.resolveTo depth p options) (Staged.resolveTo depth q options))
      BuildError.Alike (ofTree lib file tree).1 (ofTree lib file (tree.rename ρ)).1 := by
  let start : Builder := ⟨lib, Program.initial, Program.initial.entry, [[file]], 0⟩
  have own : start.Own := Builder.own_start Program.own_initial (Nat.le_of_eq ownScope_eq) lib file
  have unnamed : start.rename ρ = start := by
    rw [Builder.rename, Program.rename_initial]
  have built : Build.Mirrors ρ start Eq (Build.stmts (Build.takeFile (includeBound lib)) tree.statements)
      (Build.stmts (Build.takeFile (includeBound lib)) (Tree.renameStmts ρ tree.statements)) :=
    Build.mirrors_stmts r tree.statements plain own
  rw [Build.Mirrors, unnamed] at built
  unfold ofTree
  dsimp only [Tree.File.rename]
  generalize (Build.stmts (Build.takeFile (includeBound lib)) tree.statements).run start = x at built ⊢
  generalize (Build.stmts (Build.takeFile (includeBound lib)) (Tree.renameStmts ρ tree.statements)).run start = y at built ⊢
  cases built with
  | ok own same => exact .ok ⟨rfl, Staged.resolveTo_alike (Program.renames_rename _)⟩
  | error h => exact .error h

/-- Two names of a program trade places. -/
theorem ofTree_rename_swap :
    let ρ : String → String := Equiv.swap "x" "y"
    let s : Span := ⟨0, .zero, .zero⟩
    let int : Tree.Expr := .name ⟨"INT", s⟩
    let tree : Tree.File := ⟨[.io false int [⟨"x", s⟩] s, .io true int [⟨"y", s⟩] s,
      .assign (.name ⟨"y", s⟩) (.name ⟨"x", s⟩) s], s⟩
    ∃ p q, (ofTree {} 0 tree).1 = .ok p ∧ (ofTree {} 0 (tree.rename ρ)).1 = .ok q ∧ q = p.rename ρ ∧
      ∀ depth options, Outcomes Eq Staged.Failure.Alike (Staged.resolveTo depth p options)
        (Staged.resolveTo depth q options) := by
  intro ρ s int tree
  have fixed : Renaming ρ := ⟨Equiv.injective _, by decide +kernel⟩
  have plain : tree.Standalone := ⟨trivial, trivial, trivial, trivial⟩
  have built : (ofTree {} 0 tree).1.toOption.isSome = true := by decide +kernel
  have both := ofTree_rename fixed {} 0 tree plain
  generalize (ofTree {} 0 tree).1 = first at built both ⊢
  generalize (ofTree {} 0 (tree.rename ρ)).1 = second at both ⊢
  cases both with
  | @ok p q h => exact ⟨p, q, rfl, rfl, h⟩
  | error h => cases built

end SignalLang.Scoped
