import Mathlib.Data.List.Nodup
import SignalLang.Proofs.Scoped.Blocks
import SignalLang.Proofs.Scoped.Formed

/-!
# Built programs are well formed

`Build.Forms b O m f Q` specifies a step of building: where `O` was owed before, `f` of the result is owed when it ends,
what was made has not changed (`Builder.Adds`), and `Q` holds of the result. A scope that is closed is owed until its
statement is emitted, and so are the counter of a loop and the exports of a static block. The main statement is
`wellFormed_of_ofLibrary`.
-/

namespace SignalLang.Scoped

/-- Inputs and outputs are different variables, created where the program starts. -/
structure Program.Io (p : Program) : Prop where
  nodup : (p.inputs ++ p.outputs).Nodup
  created : ∀ v ∈ p.inputs ++ p.outputs, ∃ st ∈ p.statements p.entry, v ∈ st.created

/-- The invariant of building, where `O` is owed. -/
structure Builder.Formed (b : Builder) (O : Owed) : Prop where
  program : b.program.Formed O
  current : b.current < b.program.scopes.size
  io : b.program.Io
  builtins : b.program.builtins = 0

/-- What can be named where building has come to. -/
def Builder.Reads (b : Builder) (O : Owed) : VarId → Prop := b.program.Known O b.current

/-- What can be assigned where building has come to. -/
def Builder.Writes (b : Builder) (O : Owed) : VarId → Prop := b.program.Writable O b.current

/-- Building went on, and is in the same scope again. -/
structure Builder.Adds (b : Builder) (O : Owed) (b' : Builder) (O' : Owed) : Prop where
  program : b.program.Adds O b'.program O'
  current : b'.current = b.current
  entry : b'.program.entry = b.program.entry

/-- A variable was declared in the current scope. -/
def Builder.declared (b : Builder) (x : Variable) (type : Expr) (span : Span) : Builder := { b with
  program := (b.program.define b.current x).addStmt b.current (.create b.program.vars.size type span) }

/-- An expression uses what can be named, and assigns what can be assigned. -/
def Expr.Resolved (b : Builder) (O : Owed) (e : Expr) : Prop := e.Uses (b.Reads O) (b.Writes O)

variable {b b' b'' : Builder} {O O' O'' : Owed} {v : VarId} {st : Stmt}

namespace Builder

theorem Adds.refl (b : Builder) (O : Owed) : b.Adds O b O := ⟨.refl _ _, rfl, rfl⟩

theorem Adds.trans (a : b.Adds O b' O') (a' : b'.Adds O' b'' O'') : b.Adds O b'' O'' :=
  ⟨a.program.trans a'.program, a'.current.trans a.current, a'.entry.trans a.entry⟩

theorem Adds.reads (a : b.Adds O b' O') (v : VarId) (hv : b.Reads O v) : b'.Reads O' v := by
  rw [Reads, a.current]
  exact a.program.known hv

theorem Adds.writes (h : b.Formed O) (a : b.Adds O b' O') (v : VarId) (hv : b.Writes O v) : b'.Writes O' v := by
  rw [Writes, a.current]
  exact a.program.writable h.program hv

/-- What is owed may be listed in another order. -/
theorem Formed.reorder (h : b.Formed O) (O' : Owed) (scopes : O'.scopes.Perm O.scopes) (vars : O'.vars.Perm O.vars)
    (binds : ∀ e, e ∈ O'.binds ↔ e ∈ O.binds) : b.Formed O' ∧ b.Adds O b O' := by
  obtain ⟨formed, adds⟩ := h.program.reorder scopes vars binds
  exact ⟨⟨formed, h.current, h.io, h.builtins⟩, adds, rfl, rfl⟩

end Builder

theorem Expr.Resolved.adds {e : Expr} (he : e.Resolved b O) (h : b.Formed O) (a : b.Adds O b' O') : e.Resolved b' O' :=
  he.mono a.reads (a.writes h)

theorem Program.Io.modifyScope {p : Program} (h : p.Io) {i : ScopeId} {f : Scope → Scope}
    (body : ∀ s, ∀ st ∈ s.body, st ∈ (f s).body) : (p.modifyScope i f).Io := by
  refine ⟨h.nodup, fun v hv => ?_⟩
  obtain ⟨st, hst, made⟩ := h.created v hv
  refine ⟨st, ?_, made⟩
  rw [statements] at hst ⊢
  rcases scope_modifyScope p i f p.entry with same | ⟨-, changed⟩
  · exact same ▸ hst
  · rw [show (p.modifyScope i f).scope (p.modifyScope i f).entry = _ from changed]
    exact Array.mem_toList_iff.2 (body _ st (Array.mem_toList_iff.1 hst))

theorem Program.Io.define {p : Program} (h : p.Io) {i : ScopeId} (x : Variable) : (p.define i x).Io :=
  Program.Io.modifyScope (p := { p with vars := p.vars.push x }) ⟨h.nodup, h.created⟩ fun _ _ hst => hst

/-- Another variable that was just declared becomes an input or output of the program. -/
theorem Program.Io.declare {p : Program} (h : p.Io) (hp : p.Formed O) {cur : ScopeId} (hcur : cur < p.scopes.size)
    (entry : cur = p.entry) (x : Variable) (type : Expr) (span : Span) {ins outs : List VarId}
    (perm : (ins ++ outs).Perm (p.vars.size :: (p.inputs ++ p.outputs))) :
    { (p.define cur x).addStmt cur (.create p.vars.size type span) with inputs := ins, outputs := outs }.Io := by
  subst entry
  let q : Program := (p.define p.entry x).addStmt p.entry (.create p.vars.size type span)
  have kept := (h.define (i := p.entry) x).modifyScope (i := p.entry)
    (f := fun s => { s with body := s.body.push (.create p.vars.size type span) }) fun _ _ hst => Array.mem_push_of_mem _ hst
  refine ⟨perm.nodup_iff.2 (List.nodup_cons.2 ⟨fun old => ?_, h.nodup⟩), fun v hv => ?_⟩
  · obtain ⟨st, hst, made⟩ := h.created _ old
    exact Nat.lt_irrefl _ (hp.created_lt hst made)
  · rcases List.mem_cons.1 (perm.mem_iff.1 hv) with rfl | hv
    · refine ⟨.create p.vars.size type span, ?_, List.mem_cons_self⟩
      have size : p.entry < (p.define p.entry x).scopes.size := by
        rw [Program.scopes_size_define]
        exact hcur
      exact (Program.mem_statements_addStmt size).2 (.inr ⟨rfl, rfl⟩)
    · exact kept.created v hv

namespace Build

open Builder

variable {α β : Type}

/-- When the step ends, `f` of the result is owed, building is in the same scope, and `Q` holds of the result. -/
def Forms (b : Builder) (O : Owed) (m : Build α) (f : α → Owed) (Q : Builder → α → Prop) : Prop :=
  ∀ a b', m.run b = (.ok a, b') → b'.Formed (f a) ∧ b.Adds O b' (f a) ∧ Q b' a

namespace Forms

variable {m : Build α} {k : α → Build β} {f f' : α → Owed} {g : β → Owed} {Q Q' : Builder → α → Prop}
  {R : Builder → β → Prop}

theorem pure {a : α} (h : b.Formed (f a)) (same : f a = O) (hq : Q b a) : Forms b O (Pure.pure a) f Q := by
  intro a' b' run
  cases run
  exact ⟨h, same ▸ .refl _ _, hq⟩

theorem fail {e : BuildError} : Forms b O (throw e) f Q := fun _ _ run => by cases run

theorem refuse {p : Problem} : Forms b O (Build.refuse p) f Q := fail

theorem bind (hm : Forms b O m f Q)
    (hk : ∀ a b', b'.Formed (f a) → b.Adds O b' (f a) → Q b' a → Forms b' (f a) (k a) g R) :
    Forms b O (m >>= k) g R := by
  intro y b'' run
  obtain ⟨x, b', first, run⟩ := run_bind_ok.1 run
  obtain ⟨formed, adds, hq⟩ := hm x b' first
  obtain ⟨formed', adds', hr⟩ := hk x b' formed adds hq y b'' run
  exact ⟨formed', adds.trans adds', hr⟩

theorem mono (hm : Forms b O m f Q) (h : ∀ a b', b'.Formed (f a) → b.Adds O b' (f a) → Q b' a → Q' b' a) :
    Forms b O m f Q' := by
  intro a b' run
  obtain ⟨formed, adds, hq⟩ := hm a b' run
  exact ⟨formed, adds, h a b' formed adds hq⟩

/-- What is owed may be listed in another order when a step ends. -/
theorem pure_reorder {a : α} (h : b.Formed O) (scopes : (f a).scopes.Perm O.scopes) (vars : (f a).vars.Perm O.vars)
    (binds : ∀ e, e ∈ (f a).binds ↔ e ∈ O.binds) (hq : Q b a) : Forms b O (Pure.pure a) f Q := by
  intro a' b' run
  cases run
  obtain ⟨formed, adds⟩ := h.reorder _ scopes vars binds
  exact ⟨formed, adds, hq⟩

/-- What is owed may be listed in another order before a step. -/
theorem before (O' : Owed) (h : b.Formed O) (scopes : O'.scopes.Perm O.scopes) (vars : O'.vars.Perm O.vars)
    (binds : ∀ e, e ∈ O'.binds ↔ e ∈ O.binds) (hm : b.Formed O' → b.Adds O b O' → Forms b O' m f Q) :
    Forms b O m f Q := by
  intro a b' run
  obtain ⟨formed, adds⟩ := h.reorder _ scopes vars binds
  obtain ⟨formed', adds', hq⟩ := hm formed adds a b' run
  exact ⟨formed', adds.trans adds', hq⟩

theorem get_bind {k : Builder → Build β} (h : Forms b O (k b) g R) : Forms b O (get >>= k) g R := h

theorem map {c : α → β} (hm : Forms b O m (fun a => g (c a)) fun b' a => R b' (c a)) : Forms b O (c <$> m) g R := by
  rw [map_eq_pure_bind]
  exact hm.bind fun a b' h _ hq => .pure h rfl hq

/-- A step that leaves the program alone. -/
theorem aside (h : b.Formed O) {u : Builder → Builder} (program : (u b).program = b.program)
    (current : (u b).current = b.current) {Q : Builder → PUnit → Prop} (hq : Q (u b) ()) :
    Forms b O (modify u) (fun _ => O) Q := by
  intro a b' run
  cases run
  have adds : b.program.Adds O (u b).program O := program ▸ .refl _ _
  exact ⟨⟨program ▸ h.program, by rw [program, current]; exact h.current, program ▸ h.io, program ▸ h.builtins⟩,
    ⟨adds, current, congrArg Program.entry program⟩, hq⟩

end Forms

/-- A step that changes a scope of the program. -/
theorem forms_modifyScope (h : b.Formed O) {i : ScopeId} {u : Scope → Scope}
    (formed : (b.program.modifyScope i u).Formed O' ∧ b.program.Adds O (b.program.modifyScope i u) O')
    (body : ∀ s, ∀ st ∈ s.body, st ∈ (u s).body) :
    Forms b O (change (·.modifyScope i u)) (fun _ => O') fun b' _ =>
      b' = { b with program := b.program.modifyScope i u } := by
  intro a b' run
  cases run
  refine ⟨⟨formed.1, ?_, h.io.modifyScope body, h.builtins⟩, ⟨formed.2, rfl, rfl⟩, rfl⟩
  show b.current < (b.program.modifyScope i u).scopes.size
  rw [Program.scopes_size_modifyScope]
  exact h.current

/-- A statement is emitted, and what it mentions is owed no longer. -/
theorem forms_emit (h : b.Formed O) (scopes : O.scopes = b.program.mentions st ++ O'.scopes)
    (vars : O.vars = st.created ++ st.counters ++ O'.vars) (binds : O.binds = st.binds b.current ++ O'.binds)
    (parents : ∀ j ∈ b.program.mentions st, (b.program.scope j).parent = some b.current)
    (uses : st.Uses (b.Reads O) (b.Writes O))
    (exported : ∀ body exports span, st = .static body exports span → ∀ v ∈ exports, b.program.Bound O' body v) :
    Forms b O (emit st) (fun _ => O') fun _ _ => True := by
  obtain ⟨S, V, B⟩ := O
  obtain ⟨S', V', B'⟩ := O'
  dsimp only at scopes vars binds
  subst scopes vars binds
  refine .get_bind ((forms_modifyScope h (h.program.addStmt h.current _ parents uses exported) fun _ _ hst => ?_).mono
    fun _ _ _ _ _ => trivial)
  exact Array.mem_push_of_mem _ hst

/-- A statement is emitted that mentions no scopes and no variables of its own. -/
theorem forms_emit_plain (h : b.Formed O) (uses : st.Uses (b.Reads O) (b.Writes O)) (scopes : st.scopes = [])
    (created : st.created = []) (counters : st.counters = []) (binds : st.binds b.current = []) :
    Forms b O (emit st) (fun _ => O) fun _ _ => True := by
  have mentions : b.program.mentions st = [] := by
    rw [Program.mentions, scopes, created]
    rfl
  refine forms_emit h (by rw [mentions]; rfl) (by rw [created, counters]; rfl) (by rw [binds]; rfl)
    (by simp [mentions]) uses fun body exports span hst => ?_
  rw [hst] at scopes
  cases scopes

/-- A variable is made and bound here, and the statement that creates it is owed. -/
theorem forms_define (h : b.Formed O) (x : Variable) :
    Forms b O (define x) (fun v => { O with vars := v :: O.vars, binds := (b.current, v) :: O.binds }) fun b' v =>
      v = b.program.vars.size ∧ b' = { b with program := b.program.define b.current x } := by
  intro v b' run
  cases run
  obtain ⟨formed, adds⟩ := h.program.define h.current x
  have size : b.current < (b.program.define b.current x).scopes.size := by
    rw [Program.scopes_size_define]
    exact h.current
  exact ⟨⟨formed, size, h.io.define x, h.builtins⟩, ⟨adds, rfl, rfl⟩, rfl, rfl⟩

/-- A variable is declared: it is made, and the statement that creates it is emitted. The bodies of the macros it
stands for from the start were owed. -/
theorem forms_declare {x : Variable} (type : Expr) (span : Span) {S : List ScopeId} {V : List VarId}
    {B : List (ScopeId × VarId)} (h : b.Formed ⟨x.bodies ++ S, V, B⟩) (htype : type.Resolved b ⟨x.bodies ++ S, V, B⟩)
    (parents : ∀ j ∈ x.bodies, (b.program.scope j).parent = some b.current) :
    (b.declared x type span).Formed ⟨S, V, B⟩ ∧ b.Adds ⟨x.bodies ++ S, V, B⟩ (b.declared x type span) ⟨S, V, B⟩ := by
  obtain ⟨formed, adds⟩ := h.program.declare type span h.current htype parents
  refine ⟨⟨formed, ?_, (h.io.define x).modifyScope fun _ _ hst => Array.mem_push_of_mem _ hst, h.builtins⟩,
    ⟨adds, rfl, rfl⟩⟩
  exact Nat.lt_of_lt_of_le h.current adds.scopes

/-- A variable without a value is declared, which can be assigned then. -/
theorem Forms.declare {x : Variable} {type : Expr} {span : Span} (h : b.Formed O) (htype : type.Resolved b O)
    (bare : x.initial = none) (writable : x.readOnly = false) {k : VarId → Build β} {g : β → Owed}
    {R : Builder → β → Prop}
    (hk : let b' := b.declared x type span
      b'.Formed O → b.Adds O b' O → b'.Writes O b.program.vars.size → Forms b' O (k b.program.vars.size) g R) :
    Forms b O (do let v ← define x; emit (.create v type span); k v) g R := by
  have bodies : x.bodies = [] := by rw [Variable.bodies, bare]
  have declared := forms_declare (x := x) type span (S := O.scopes) (V := O.vars) (B := O.binds)
    (by rw [bodies]; exact h) (by rw [bodies]; exact htype) (by rw [bodies]; exact nofun)
  rw [bodies] at declared
  intro y b' run
  obtain ⟨formed, adds⟩ := declared
  have writes : (b.declared x type span).Writes O b.program.vars.size := by
    refine ⟨⟨b.current, .refl, .inl (.inl ⟨b.current, .create b.program.vars.size type span, ?_, List.mem_cons_self⟩)⟩, ?_⟩
    · refine (Program.mem_statements_addStmt ?_).2 (.inr ⟨rfl, rfl⟩)
      rw [Program.scopes_size_define]
      exact h.current
    · have var : (b.declared x type span).program.var b.program.vars.size = x := Program.var_push_self rfl
      rw [var]
      exact writable
  obtain ⟨formed', adds', hr⟩ := hk formed adds writes y b' run
  exact ⟨formed', adds.trans adds', hr⟩

/-! ## Expressions -/

/-- What a name stands for can be named. -/
theorem known_of_lookup {p : Program} (hp : p.Formed O) {i : ScopeId} {name : String}
    (found : p.lookup? i name = some v) : p.Known O i v := by
  have chain (fuel : Nat) : ∀ i, (p.chain fuel i).findSome? (·.find? name) = some v → p.Known O i v := by
    induction fuel with
    | zero => exact fun i found => by cases found
    | succ fuel ih =>
      intro i found
      rw [Program.chain, List.findSome?_cons] at found
      split at found
      · rename_i w hw
        cases found
        obtain ⟨before, after, eq, -⟩ := List.lookup_eq_some_iff.1 hw
        exact ⟨i, .refl, (hp.symbols i (name, v) (by rw [eq]; simp)).1⟩
      · split at found
        · rename_i j hj
          obtain ⟨k, path, bound⟩ := ih j found
          exact ⟨k, .head hj path, bound⟩
        · cases found
  exact chain _ i found

section Names

variable (h : b.Formed O)

include h

theorem forms_lookup (id : Tree.Ident) : Forms b O (lookup id) (fun _ => O) fun b' v => b'.Reads O v := by
  refine .get_bind ?_
  split
  · rename_i v found
    exact .pure h rfl (known_of_lookup h.program found)
  · exact .refuse

theorem forms_writable (id : Tree.Ident) : Forms b O (writable id) (fun _ => O) fun b' v => b'.Writes O v := by
  refine (forms_lookup h id).bind fun v b' h' _ hv => .get_bind ?_
  dsimp only
  split
  · exact .refuse
  · rename_i writable
    exact .pure h' rfl ⟨hv, by simpa using writable⟩

theorem forms_targetIdent (e : Tree.Expr) : Forms b O (targetIdent e) (fun _ => O) fun _ _ => True := by
  fun_induction targetIdent e with
  | case1 id => exact .pure h rfl trivial
  | case2 => exact .refuse
  | case3 base _ optional span hopt ih => exact ih
  | case4 e => exact .refuse

theorem forms_property (name : String) (span : Span) :
    Forms b O (property name span) (fun _ => O) fun _ _ => True := by
  unfold property
  split
  · exact .pure h rfl trivial
  · exact .pure h rfl trivial
  · exact .refuse

end Names

mutual

theorem forms_value : (e : Tree.Expr) → ∀ {b : Builder} {O : Owed}, b.Formed O →
    Forms b O (value e) (fun _ => O) fun b' v => v.Resolved b' O
  | .name id, b, O, h => by
    rw [value]
    exact (forms_lookup h id).bind fun v b₁ h₁ _ hv => .pure h₁ rfl hv
  | .int v span, b, O, h => by
    rw [value]
    split
    · exact .refuse
    · exact .pure h rfl trivial
  | .float v span, b, O, h => by
    rw [value]
    exact .pure h rfl trivial
  | .array items span, b, O, h => by
    rw [value]
    exact (forms_values items h).bind fun vs b₁ h₁ _ hvs => .pure h₁ rfl hvs
  | .arrayType dims base span, b, O, h => by
    rw [value]
    refine (forms_values dims h).bind fun vs b₁ h₁ _ hvs => ?_
    refine (forms_value base h₁).bind fun v b₂ h₂ g₂ hv => .pure h₂ rfl ⟨?_, hv⟩
    exact hvs.mono g₂.reads (g₂.writes h₁)
  | .openBound span, b, O, h => by
    rw [value]
    exact .pure h rfl trivial
  | .upperBound upper span, b, O, h => by
    rw [value]
    exact (forms_value upper h).bind fun u b₁ h₁ _ hu => .pure h₁ rfl hu
  | .closedBound lower upper span, b, O, h => by
    rw [value]
    refine (forms_value lower h).bind fun l b₁ h₁ _ hl => ?_
    exact (forms_value upper h₁).bind fun u b₂ h₂ g₂ hu => .pure h₂ rfl ⟨hl.adds h₁ g₂, hu⟩
  | .index base index optional span, b, O, h => by
    rw [value]
    refine (forms_value base h).bind fun v b₁ h₁ _ hv => ?_
    refine (forms_value index h₁).bind fun i b₂ h₂ g₂ hi => ?_
    have hv := hv.adds h₁ g₂
    dsimp only
    split
    · refine .pure h₂ rfl ⟨hv.1, ?_⟩
      exact indexesUse_append.2 ⟨hv.2, hi, trivial⟩
    · exact .pure h₂ rfl ⟨hv, hi, trivial⟩
  | .property base name nameSpan span, b, O, h => by
    rw [value]
    refine (forms_value base h).bind fun v b₁ h₁ _ hv => ?_
    exact (forms_property h₁ name nameSpan).bind fun q b₂ h₂ g₂ _ => .pure h₂ rfl (hv.adds h₁ g₂)
  | .unary op operand span, b, O, h => by
    rw [value]
    exact (forms_value operand h).bind fun v b₁ h₁ _ hv => .pure h₁ rfl hv
  | .binary op left right span, b, O, h => by
    rw [value]
    refine (forms_value left h).bind fun l b₁ h₁ _ hl => ?_
    exact (forms_value right h₁).bind fun r b₂ h₂ g₂ hr => .pure h₂ rfl ⟨hl.adds h₁ g₂, hr⟩
  | .call callee inputs explicit outs span, b, O, h => by
    rw [value]
    refine (forms_lookup h callee).bind fun v b₁ h₁ _ hv => ?_
    refine (forms_values inputs h₁).bind fun vs b₂ h₂ g₂ hvs => ?_
    split
    · refine (forms_outputs false outs h₂).bind fun r b₃ h₃ g₃ hr => ?_
      dsimp only
      split
      · refine .pure h₃ rfl ⟨g₃.reads _ (g₂.reads v hv), ?_, hr⟩
        exact hvs.mono g₃.reads (g₃.writes h₂)
      · exact .refuse
    · exact .pure h₂ rfl ⟨g₂.reads v hv, hvs, trivial⟩
  | .decl type name span, b, O, h => by
    rw [value]
    exact .refuse

theorem forms_values : (es : List Tree.Expr) → ∀ {b : Builder} {O : Owed}, b.Formed O →
    Forms b O (values es) (fun _ => O) fun b' vs => AllUse (b'.Reads O) (b'.Writes O) vs
  | [], b, O, h => by
    rw [values]
    exact .pure h rfl trivial
  | e :: es, b, O, h => by
    rw [values]
    refine (forms_value e h).bind fun v b₁ h₁ _ hv => ?_
    exact (forms_values es h₁).bind fun vs b₂ h₂ g₂ hvs => .pure h₂ rfl ⟨hv.adds h₁ g₂, hvs⟩

theorem forms_outputs (seen : Bool) : (outs : List Tree.Output) → ∀ {b : Builder} {O : Owed}, b.Formed O →
    Forms b O (outputs seen outs) (fun _ => O) fun b' r => OutputsUse (b'.Reads O) (b'.Writes O) r.1
  | [], b, O, h => by
    rw [outputs]
    exact .pure h rfl trivial
  | .inline span :: rest, b, O, h => by
    rw [outputs]
    split
    · exact (Forms.refuse (f := fun _ => O) (Q := fun _ _ => False)).bind fun _ _ _ _ never => never.elim
    · exact (forms_outputs true rest h).bind fun r b₁ h₁ _ hr => .pure h₁ rfl hr
  | .target e span :: rest, b, O, h => by
    rw [outputs]
    refine (forms_target e h).bind fun t b₁ h₁ _ ht => ?_
    refine (forms_outputs seen rest h₁).bind fun r b₂ h₂ g₂ hr => .pure h₂ rfl ⟨?_, hr⟩
    exact ht.mono g₂.reads (g₂.writes h₁)

theorem forms_target : (e : Tree.Expr) → ∀ {b : Builder} {O : Owed}, b.Formed O →
    Forms b O (target e) (fun _ => O) fun b' t => t.Uses (b'.Reads O) (b'.Writes O)
  | .decl type name span, b, O, h => by
    rw [target]
    refine (forms_value type h).bind fun v b₁ h₁ _ hv => ?_
    exact .declare h₁ hv rfl rfl fun h₂ _ writes => .pure h₂ rfl ⟨writes, trivial⟩
  | .name id, b, O, h => by
    rw [target]
    exact (forms_writable h id).bind fun v b₁ h₁ _ hv => .pure h₁ rfl ⟨hv, trivial⟩
  | .index base index optional span, b, O, h => by
    rw [target]
    split
    · exact (Forms.refuse (f := fun _ => O) (Q := fun _ _ => False)).bind fun _ _ _ _ never => never.elim
    · refine (forms_targetIdent h base).bind fun id b₁ h₁ _ _ => ?_
      refine (forms_writable h₁ id).bind fun v b₂ h₂ _ hv => ?_
      refine (forms_targetIndexes base h₂).bind fun es b₃ h₃ g₃ hes => ?_
      refine (forms_value index h₃).bind fun i b₄ h₄ g₄ hi => .pure h₄ rfl ⟨g₄.writes h₃ _ (g₃.writes h₂ _ hv), ?_⟩
      exact allUse_append.2 ⟨hes.mono g₄.reads (g₄.writes h₃), hi, trivial⟩
  | .int .., b, O, h | .float .., b, O, h | .array .., b, O, h | .arrayType .., b, O, h | .openBound _, b, O, h
  | .upperBound .., b, O, h | .closedBound .., b, O, h | .property .., b, O, h | .unary .., b, O, h
  | .binary .., b, O, h | .call .., b, O, h => by
    simp only [target]
    exact .refuse

theorem forms_targetIndexes : (e : Tree.Expr) → ∀ {b : Builder} {O : Owed}, b.Formed O →
    Forms b O (targetIndexes e) (fun _ => O) fun b' es => AllUse (b'.Reads O) (b'.Writes O) es
  | .index base index _ _, b, O, h => by
    rw [targetIndexes]
    refine (forms_targetIndexes base h).bind fun es b₁ h₁ _ hes => ?_
    refine (forms_value index h₁).bind fun i b₂ h₂ g₂ hi => .pure h₂ rfl ?_
    exact allUse_append.2 ⟨hes.mono g₂.reads (g₂.writes h₁), hi, trivial⟩
  | .name _, b, O, h | .decl .., b, O, h | .int .., b, O, h | .float .., b, O, h | .array .., b, O, h
  | .arrayType .., b, O, h | .openBound _, b, O, h | .upperBound .., b, O, h | .closedBound .., b, O, h
  | .property .., b, O, h | .unary .., b, O, h | .binary .., b, O, h | .call .., b, O, h => by
    simp only [targetIndexes]
    exact .pure h rfl trivial

end

theorem forms_callAlone (h : b.Formed O) (e : Tree.Expr) :
    Forms b O (callAlone e) (fun _ => O) fun b' v => v.Resolved b' O := by
  unfold callAlone
  split
  · refine (forms_lookup h _).bind fun v b₁ h₁ _ hv => ?_
    refine (forms_values _ h₁).bind fun vs b₂ h₂ g₂ hvs => ?_
    split
    · refine Forms.bind (f := fun _ => O) (Q := fun b' outs => OutputsUse (b'.Reads O) (b'.Writes O) outs)
        (.map (forms_outputs false _ h₂)) fun outs b₃ h₃ g₃ houts => .pure h₃ rfl ⟨?_, ?_, houts⟩
      · exact g₃.reads v (g₂.reads v hv)
      · exact hvs.mono g₃.reads (g₃.writes h₂)
    · exact .pure h₂ rfl ⟨g₂.reads v hv, hvs, trivial⟩
  · exact forms_value _ h

/-! ## Scopes -/

/-- A step that can be taken wherever building has come to, and leaves nothing owed. -/
def FormsAll (m : Build Unit) : Prop := ∀ {b O}, b.Formed O → Forms b O m (fun _ => O) fun _ _ => True

/-- What is owed when a scope is opened: that scope as well. -/
def opening (b : Builder) (O : Owed) : Owed := { O with scopes := b.program.scopes.size :: O.scopes }

theorem Formed.opened (h : b.Formed O) : b.opened.Formed (opening b O) ∧
    b.program.Adds O b.opened.program (opening b O) := by
  obtain ⟨formed, adds⟩ := h.program.addScope h.current
  refine ⟨⟨formed, ?_, ⟨h.io.nodup, fun v hv => ?_⟩, h.builtins⟩, adds⟩
  · show b.program.scopes.size < (b.program.addScope (some b.current)).scopes.size
    rw [Program.scopes_size_addScope]
    exact Nat.lt_succ_self _
  · obtain ⟨st, hst, made⟩ := h.io.created v hv
    refine ⟨st, ?_, made⟩
    show st ∈ (b.program.addScope (some b.current)).statements b.program.entry
    rw [Program.statements_addScope]
    exact hst

/-- Something is built in a scope of its own. -/
theorem forms_inNewScope (h : b.Formed O) {body : ScopeId → Build Unit} {Q : Builder → Unit → Prop}
    (hbody : b.opened.Formed (opening b O) →
      Forms b.opened (opening b O) (body b.program.scopes.size) (fun _ => O') Q) :
    Forms b O (inNewScope body) (fun _ => O') fun b' j => j = b.program.scopes.size ∧
      (b'.program.scope j).parent = some b'.current := by
  intro j b' run
  have inside : (do body b.program.scopes.size; closeScope b.current; return b.program.scopes.size :
      Build ScopeId).run b.opened = (.ok j, b') := run
  obtain ⟨u, b₁, built, inside⟩ := run_bind_ok.1 inside
  cases inside
  obtain ⟨opened, start⟩ := Formed.opened h
  obtain ⟨formed, adds, -⟩ := hbody opened u b₁ built
  have parent : (b₁.program.scope b.program.scopes.size).parent = some b.current := by
    have same := adds.program.parent b.program.scopes.size opened.current
    rw [same]
    exact congrArg Scope.parent (Program.scope_addScope_new b.program (some b.current))
  have program := start.trans adds.program
  exact ⟨⟨formed.program, Nat.lt_of_lt_of_le h.current program.scopes, formed.io, formed.builtins⟩,
    ⟨program, rfl, adds.entry⟩, rfl, parent⟩

/-- A scope is built, which has to be mentioned. -/
theorem forms_nested (h : b.Formed O) {m : Build Unit} (hm : FormsAll m) :
    Forms b O (inNewScope fun _ => m) (fun j => { O with scopes := j :: O.scopes }) fun b' j =>
      j = b.program.scopes.size ∧ (b'.program.scope j).parent = some b'.current := by
  intro j b' run
  obtain ⟨formed, adds, rfl, parent⟩ := forms_inNewScope h (fun opened => hm opened) j b' run
  exact ⟨formed, adds, rfl, parent⟩

/-! ## Inputs, outputs and exports -/

theorem forms_checkSignature (h : b.Formed O) (callee : String) (seen ids : List Tree.Ident) :
    Forms b O (checkSignature callee seen ids) (fun _ => O) fun b' _ => b' = b := by
  induction ids generalizing seen with
  | nil => exact .pure h rfl rfl
  | cons id ids ih =>
    unfold checkSignature
    split
    · exact .refuse
    · exact ih (id :: seen)

/-- Variables are made and bound in the current scope, which has no inputs yet. -/
theorem forms_defines (h : b.Formed O) (none : (b.program.scope b.current).inputs = []) (ids : List Tree.Ident) :
    Forms b O (ids.mapM defineIdent)
      (fun vs => { O with vars := vs ++ O.vars, binds := vs.map (b.current, ·) ++ O.binds })
      fun b' _ => (b'.program.scope b.current).inputs = [] := by
  induction ids generalizing b O with
  | nil =>
    rw [List.mapM_nil]
    exact .pure h rfl none
  | cons id ids ih =>
    rw [List.mapM_cons]
    refine (forms_define h _).bind fun v b₁ h₁ a₁ same => ?_
    obtain ⟨rfl, rfl⟩ := same
    have none₁ : ((b.program.define b.current ⟨id.name, id.span, .none, false⟩).scope b.current).inputs = [] := by
      rw [Program.scope_define_self h.current]
      exact none
    refine (ih h₁ none₁).bind fun vs b₂ h₂ _ none₂ => ?_
    refine .pure_reorder h₂ (.refl _) List.perm_middle.symm (fun e => ?_) none₂
    simp only [List.map_cons, List.cons_append, List.mem_cons, List.mem_append]
    tauto

theorem forms_macroOutputs (h : b.Formed O) (callee : String) (header : Span) (ids : List Tree.Ident) :
    Forms b O (macroOutputs b.current callee header ids) (fun _ => O) fun b' vs => b' = b ∧ ∀ v ∈ vs, b.Reads O v := by
  unfold macroOutputs
  induction ids with
  | nil =>
    rw [List.mapM_nil]
    exact .pure h rfl ⟨rfl, nofun⟩
  | cons id ids ih =>
    rw [List.mapM_cons]
    refine Forms.bind (f := fun _ => O) (Q := fun b' v => b' = b ∧ b.Reads O v) (.get_bind ?_) fun v b₁ h₁ _ hv => ?_
    · split
      · rename_i v found
        exact .pure h rfl ⟨rfl, known_of_lookup h.program found⟩
      · exact .refuse
    · obtain ⟨rfl, hv⟩ := hv
      refine ih.bind fun vs b₂ h₂ _ hvs => ?_
      obtain ⟨rfl, hvs⟩ := hvs
      refine .pure h₂ rfl ⟨rfl, fun u hu => ?_⟩
      rcases List.mem_cons.1 hu with rfl | hu
      · exact hv
      · exact hvs u hu

theorem forms_macroBody (h : b.Formed O) (empty : (b.program.scope b.current).inputs = []) {m : Build Unit}
    (hm : FormsAll m) (callee : String) (header : Span) (inputs outs : List Tree.Ident) :
    Forms b O (do
      checkSignature callee [] (inputs ++ outs)
      modify fun b => { b with macroDepth := b.macroDepth + 1 }
      let ins ← inputs.mapM defineIdent
      change (·.modifyScope b.current fun s => { s with inputs := ins })
      m
      let outs ← macroOutputs b.current callee header outs
      change (·.modifyScope b.current fun s => { s with outputs := outs })
      modify fun b => { b with macroDepth := b.macroDepth - 1 })
      (fun _ => O) fun _ _ => True := by
  refine (forms_checkSignature h _ _ _).bind fun _ b₁ h₁ _ same => ?_
  subst same
  refine (Forms.aside (Q := fun b' _ => b'.program = b₁.program) h₁ rfl rfl rfl).bind fun _ b₂ h₂ a₂ program => ?_
  have cur₂ : b₁.current = b₂.current := a₂.current.symm
  rw [cur₂, ← program] at empty
  rw [cur₂]
  refine (forms_defines h₂ empty inputs).bind fun ins b₃ h₃ a₃ empty => ?_
  have cur₃ : b₂.current = b₃.current := a₃.current.symm
  rw [cur₃] at empty h₃ ⊢
  refine (forms_modifyScope h₃ (h₃.program.setInputs ins h₃.current empty) fun _ _ hst => hst).bind fun _ b₄ h₄ a₄ _ => ?_
  refine (hm h₄).bind fun _ b₅ h₅ a₅ _ => ?_
  have cur₅ : b₃.current = b₅.current := (a₅.current.trans a₄.current).symm
  rw [cur₅]
  refine (forms_macroOutputs h₅ callee header outs).bind fun vs b₆ h₆ _ same => ?_
  obtain ⟨rfl, hvs⟩ := same
  refine (forms_modifyScope h₆ (h₆.program.setOutputs vs hvs) fun _ _ hst => hst).bind fun _ b₇ h₇ _ _ => ?_
  exact .aside h₇ rfl rfl trivial

/-- The names of variables of the scope `j` are bound in the current scope. -/
theorem forms_exportNames {j : ScopeId} (h : b.Formed O) (names : List Tree.Ident) :
    Forms b O (exportNames j names) (fun vs => { O with binds := vs.map (b.current, ·) ++ O.binds }) fun b' vs =>
      ∀ v ∈ vs, b'.program.Bound { O with binds := vs.map (b.current, ·) ++ O.binds } j v := by
  unfold exportNames
  induction names generalizing b O with
  | nil =>
    rw [List.mapM_nil]
    exact .pure h rfl nofun
  | cons id rest ih =>
    rw [List.mapM_cons]
    refine Forms.bind (f := fun v => { O with binds := (b.current, v) :: O.binds })
      (Q := fun b' v => b'.program.Bound { O with binds := (b.current, v) :: O.binds } j v) (.get_bind ?_)
      fun v b₁ h₁ a₁ hv => ?_
    · split
      · rename_i v found
        obtain ⟨before, after, eq, -⟩ := List.lookup_eq_some_iff.1 found
        obtain ⟨bound, name⟩ := h.program.symbols j (id.name, v) (by rw [eq]; simp)
        have formed := h.program.bind h.current (h.program.made j v bound)
        rw [name] at formed
        refine (forms_modifyScope h formed fun _ _ hst => hst).bind fun _ b₁ h₁ a₁ _ => .pure h₁ rfl ?_
        exact a₁.program.bound j v bound
      · exact .refuse
    · have cur : b₁.current = b.current := a₁.current
      have others := ih h₁
      rw [cur] at others
      refine others.bind fun vs b₂ h₂ a₂ hvs => ?_
      have binds (e : ScopeId × VarId) : e ∈ (v :: vs).map (b.current, ·) ++ O.binds ↔
          e ∈ vs.map (b.current, ·) ++ (b.current, v) :: O.binds := by
        simp only [List.map_cons, List.cons_append, List.mem_cons, List.mem_append]
        tauto
      have more (u : VarId) (hu : b₂.program.Bound ⟨O.scopes, O.vars, vs.map (b.current, ·) ++ (b.current, v) :: O.binds⟩ j u) :
          b₂.program.Bound ⟨O.scopes, O.vars, (v :: vs).map (b.current, ·) ++ O.binds⟩ j u := hu.imp (fun hb => hb) (binds (j, u)).2
      refine .pure_reorder h₂ (.refl _) (.refl _) binds fun u hu => more u ?_
      rcases List.mem_cons.1 hu with rfl | hu
      · exact a₂.program.bound j u hv
      · exact hvs u hu

theorem forms_ioNames (h : b.Formed O) (entry : b.current = b.program.entry) {isOutput : Bool} {type : Expr}
    (htype : type.Resolved b O) {span : Span} {names : List Tree.Ident} :
    Forms b O (ioNames isOutput type span names) (fun _ => O) fun _ _ => True := by
  unfold ioNames
  induction names generalizing b with
  | nil => exact .pure h rfl trivial
  | cons id rest ih =>
    let x : Variable := ⟨id.name, id.span, none, false⟩
    let n := b.program.vars.size
    have one : Forms b O (do
        let v ← defineIdent id
        emit (.create v type span)
        change fun p =>
          if isOutput then { p with outputs := p.outputs ++ [v] } else { p with inputs := p.inputs ++ [v] })
        (fun _ => O) fun _ _ => True := by
      obtain ⟨formed, adds⟩ := forms_declare (x := x) type span (S := O.scopes) (V := O.vars) (B := O.binds) h htype
        nofun
      -- Inputs and outputs are not looked at by the invariant of the scopes.
      have widened (ins outs : List VarId) :
          { (b.declared x type span).program with inputs := ins, outputs := outs }.Formed O ∧
            (b.declared x type span).program.Adds O
              { (b.declared x type span).program with inputs := ins, outputs := outs } O :=
        formed.program.carry rfl (Nat.le_refl _) rfl (fun _ => rfl) (fun _ => rfl) (fun _ _ => rfl) (fun _ _ => Iff.rfl) formed.program.parent formed.program.scopes
        formed.program.vars
      have io (ins outs : List VarId) (perm : (ins ++ outs).Perm (n :: (b.program.inputs ++ b.program.outputs))) :
          { (b.declared x type span).program with inputs := ins, outputs := outs }.Io :=
        h.io.declare h.program h.current entry x type span perm
      intro u b' run
      cases isOutput with
      | false =>
        cases run
        obtain ⟨formed', adds'⟩ := widened (b.program.inputs ++ [n]) b.program.outputs
        refine ⟨⟨formed', formed.current, io _ _ ?_, formed.builtins⟩, ⟨adds.program.trans adds', rfl, rfl⟩, trivial⟩
        rw [List.append_assoc]
        exact List.perm_middle
      | true =>
        cases run
        obtain ⟨formed', adds'⟩ := widened b.program.inputs (b.program.outputs ++ [n])
        refine ⟨⟨formed', formed.current, io _ _ ?_, formed.builtins⟩, ⟨adds.program.trans adds', rfl, rfl⟩, trivial⟩
        rw [← List.append_assoc]
        exact List.perm_append_singleton _ _
    refine one.bind fun _ b₁ h₁ a₁ _ => ih h₁ ?_ (htype.adds h a₁)
    rw [a₁.current, a₁.entry]
    exact entry

/-! ## Statements -/

/-- A static block is built, and its exports come into sight. -/
theorem forms_static (h : b.Formed O) {m : Build Unit} (hm : FormsAll m) (names : List Tree.Ident) (span : Span) :
    Forms b O (do
      let scope ← inNewScope fun _ => m
      emit (.static scope (← exportNames scope names) span)) (fun _ => O) fun _ _ => True := by
  refine (forms_nested h hm).bind fun j b₁ h₁ a₁ hj => ?_
  obtain ⟨rfl, parent⟩ := hj
  have outer : b.program.scopes.size ≠ b₁.current := by
    rw [a₁.current]
    exact (Nat.ne_of_lt h.current).symm
  refine (forms_exportNames h₁ names).bind fun vs b₂ h₂ a₂ hvs => ?_
  have parent₂ : (b₂.program.scope b.program.scopes.size).parent = some b₂.current := by
    rw [a₂.program.parent _ (Program.Parent.lt parent), a₂.current]
    exact parent
  have mentions : b₂.program.mentions (.static b.program.scopes.size vs span) = [b.program.scopes.size] := rfl
  refine forms_emit h₂ rfl rfl (by rw [a₂.current]; rfl) (fun i hi => ?_) trivial fun body exports span' same v hv => ?_
  · rw [mentions] at hi
    obtain rfl := List.mem_singleton.1 hi
    exact parent₂
  · cases same
    rcases hvs v hv with bound | owed
    · exact .inl bound
    · refine .inr ?_
      rcases List.mem_append.1 owed with owed | owed
      · obtain ⟨w, -, same⟩ := List.mem_map.1 owed
        exact absurd (Prod.ext_iff.1 same).1.symm outer
      · exact owed

variable {take : List UInt8 → Span → Build Unit}

mutual

theorem forms_stmt (htake : ∀ path span, FormsAll (take path span)) : (st : Tree.Stmt) → FormsAll (stmt take st)
  | .io isOutput type names span, b, O, h => by
    rw [stmt]
    refine .get_bind ?_
    split
    · exact (Forms.refuse (f := fun _ => O) (Q := fun _ _ => False)).bind fun _ _ _ _ never => never.elim
    · rename_i entry
      refine (forms_value type h).bind fun v b₁ h₁ a₁ hv => forms_ioNames h₁ ?_ hv
      rw [a₁.current, a₁.entry]
      exact Decidable.not_not.1 entry
  | .decl type name declSpan _, b, O, h => by
    rw [stmt]
    refine (forms_value type h).bind fun v b₁ h₁ _ hv => ?_
    have declared : Forms b₁ O (do let id ← defineIdent name; emit (.create id v declSpan); pure ())
        (fun _ => O) fun _ _ => True := .declare h₁ hv rfl rfl fun h₂ _ _ => .pure h₂ rfl trivial
    exact declared
  | .assign place source span, b, O, h => by
    rw [stmt]
    refine (forms_value source h).bind fun v b₁ h₁ _ hv => ?_
    refine (forms_target place h₁).bind fun t b₂ h₂ a₂ ht => ?_
    exact forms_emit_plain h₂ ⟨hv.adds h₁ a₂, ht⟩ rfl rfl rfl rfl
  | .macroDef name inputs outs body header span, b, O, h => by
    rw [stmt]
    refine (forms_inNewScope h fun opened => forms_macroBody opened ?_ (forms_block htake body) name.name header inputs
      outs).bind fun j b₁ h₁ a₁ hj => ?_
    · exact congrArg Scope.inputs (Program.scope_addScope_new b.program (some b.current))
    · obtain ⟨rfl, parent⟩ := hj
      intro u b' run
      cases run
      obtain ⟨formed, adds⟩ := forms_declare
        (x := ⟨name.name, header, some (.macroRef ⟨b.program.scopes.size, header⟩), true⟩)
        (typeLiteral (.exactly .macroRef)) span (S := O.scopes) (V := O.vars) (B := O.binds) h₁
        (show Constant.Plain (.type (.exactly .macroRef)) from Bound.isPositive_exactly (Ty.isPositive_prim _)) fun i hi => by
          obtain rfl := List.mem_singleton.1 hi
          exact parent
      exact ⟨formed, adds, trivial⟩
  | .call call span, b, O, h => by
    rw [stmt]
    refine (forms_callAlone h call).bind fun v b₁ h₁ _ hv => ?_
    exact forms_emit_plain h₁ hv rfl rfl rfl rfl
  | .expr e span, b, O, h => by
    rw [stmt]
    refine (forms_value e h).bind fun v b₁ h₁ _ hv => ?_
    exact forms_emit_plain h₁ hv rfl rfl rfl rfl
  | .branch cs otherwise span, b, O, h => by
    rw [stmt]
    refine (forms_clauses htake cs h).bind fun cs' b₁ h₁ _ hcs => ?_
    refine (forms_otherwiseScope htake otherwise h₁).bind fun o b₂ h₂ a₂ ho => ?_
    let st : Stmt := .branch cs' o span
    refine .before { O with scopes := st.scopes ++ O.scopes } h₂ ?_ (.refl _) (fun _ => Iff.rfl)
      fun h₃ a₃ => ?_
    · rw [show st.scopes = cs'.map (·.body) ++ o.toList from rfl, List.append_assoc]
      exact List.perm_append_comm_assoc _ _ _
    · have mentions : b₂.program.mentions st = st.scopes := List.append_nil _
      refine forms_emit h₃ (by rw [mentions]) rfl rfl (fun i hi => ?_)
        (fun x hx => ((hcs x hx).1.adds h₁ a₂).adds h₂ a₃) nofun
      rw [mentions] at hi
      rcases List.mem_append.1 hi with hi | hi
      · obtain ⟨x, hx, rfl⟩ := List.mem_map.1 hi
        have parent := (hcs x hx).2
        rw [a₂.program.parent _ (Program.Parent.lt parent), a₂.current]
        exact parent
      · exact ho i (Option.mem_toList.1 hi)
  | .loop counter start stop noUnroll body span, b, O, h => by
    rw [stmt]
    refine (forms_value start h).bind fun l b₁ h₁ _ hl => ?_
    refine (forms_value stop h₁).bind fun u b₂ h₂ a₂ hu => .get_bind ?_
    let n := b₂.program.vars.size
    let O' : Owed := ⟨b₂.program.scopes.size :: O.scopes, n :: O.vars, (b₂.program.scopes.size, n) :: O.binds⟩
    have inside (opened : b₂.opened.Formed (opening b₂ O)) : Forms b₂.opened (opening b₂ O) (do
        let _ ← defineIdent counter
        block take body) (fun _ => O') fun _ _ => True := by
      refine (forms_define opened _).bind fun v b₃ h₃ _ same => ?_
      obtain ⟨rfl, rfl⟩ := same
      exact forms_block htake body h₃
    refine (forms_inNewScope h₂ inside).bind fun j b₃ h₃ a₃ hj => ?_
    · obtain ⟨rfl, parent⟩ := hj
      refine forms_emit h₃ rfl rfl rfl (fun i hi => ?_) ⟨(hl.adds h₁ a₂).adds h₂ a₃, hu.adds h₂ a₃⟩ nofun
      obtain rfl := List.mem_singleton.1 hi
      exact parent
  | .static exports body span, b, O, h => by
    rw [stmt]
    exact forms_static h (forms_block htake body) exports span
  | .assert condition span, b, O, h => by
    rw [stmt]
    refine (forms_value condition h).bind fun v b₁ h₁ _ hv => ?_
    exact forms_emit_plain h₁ hv rfl rfl rfl rfl
  | .ret span, b, O, h => by
    rw [stmt]
    refine .get_bind ?_
    split
    · exact (Forms.refuse (f := fun _ => O) (Q := fun _ _ => False)).bind fun _ _ _ _ never => never.elim
    · exact forms_emit_plain h trivial rfl rfl rfl rfl
  | .includeFile path span, b, O, h => by
    rw [stmt]
    exact htake path span h
  | .block (.mk statements span), b, O, h => by
    rw [stmt]
    refine (forms_nested h (forms_stmts htake statements)).bind fun j b₁ h₁ _ hj => ?_
    refine forms_emit h₁ rfl rfl rfl (fun i hi => ?_) trivial nofun
    obtain rfl := List.mem_singleton.1 hi
    exact hj.2

theorem forms_block (htake : ∀ path span, FormsAll (take path span)) : (body : Tree.Block) → FormsAll (block take body)
  | .mk statements _, b, O, h => by
    rw [block]
    exact forms_stmts htake statements h

theorem forms_stmts (htake : ∀ path span, FormsAll (take path span)) : (ss : List Tree.Stmt) → FormsAll (stmts take ss)
  | [], b, O, h => by
    rw [stmts]
    exact .pure h rfl trivial
  | st :: ss, b, O, h => by
    rw [stmts]
    exact (forms_stmt htake st h).bind fun _ b₁ h₁ _ _ => forms_stmts htake ss h₁

theorem forms_clauses (htake : ∀ path span, FormsAll (take path span)) : (cs : List Tree.Clause) →
    ∀ {b O}, b.Formed O →
    Forms b O (clauses take cs) (fun cs' => { O with scopes := cs'.map (·.body) ++ O.scopes }) fun b' cs' =>
      ∀ x ∈ cs', x.condition.Resolved b' { O with scopes := cs'.map (·.body) ++ O.scopes } ∧
        (b'.program.scope x.body).parent = some b'.current
  | [], b, O, h => by
    rw [clauses]
    exact .pure h rfl nofun
  | .mk condition body :: rest, b, O, h => by
    rw [clauses]
    refine (forms_value condition h).bind fun v b₁ h₁ _ hv => ?_
    refine (forms_nested h₁ (forms_block htake body)).bind fun j b₂ h₂ a₂ hj => ?_
    refine (forms_clauses htake rest h₂).bind fun cs b₃ h₃ a₃ hcs => ?_
    obtain ⟨h₄, a₄⟩ := h₃.reorder { O with scopes := (⟨v, j⟩ :: cs).map (·.body) ++ O.scopes }
      List.perm_middle.symm (.refl _) fun _ => Iff.rfl
    refine .pure_reorder h₃ List.perm_middle.symm (.refl _) (fun _ => Iff.rfl) fun x hx => ?_
    rcases List.mem_cons.1 hx with rfl | hx
    · refine ⟨((hv.adds h₁ a₂).adds h₂ a₃).adds h₃ a₄, ?_⟩
      rw [a₃.program.parent _ (Program.Parent.lt hj.2), a₃.current]
      exact hj.2
    · exact ⟨(hcs x hx).1.adds h₃ a₄, (hcs x hx).2⟩

theorem forms_otherwiseScope (htake : ∀ path span, FormsAll (take path span)) : (body : Option Tree.Block) →
    ∀ {b O}, b.Formed O →
    Forms b O (otherwiseScope take body) (fun o => { O with scopes := o.toList ++ O.scopes }) fun b' o =>
      ∀ j, o = some j → (b'.program.scope j).parent = some b'.current
  | none, b, O, h => by
    rw [otherwiseScope]
    exact .pure h rfl nofun
  | some body, b, O, h => by
    rw [otherwiseScope]
    refine .map ((forms_nested h (forms_block htake body)).mono fun j b' _ _ hj i hi => ?_)
    cases hi
    exact hj.2

end

theorem forms_loadFile (h : b.Formed O) (path : List UInt8) (span : Span) :
    Forms b O (loadFile path span) (fun _ => O) fun _ _ => True := by
  refine .get_bind ?_
  split
  · exact .refuse
  · split
    · rename_i library file _
      have stored : Forms b O (modify fun b => { b with library := library }) (fun _ => O) fun _ _ => True :=
        .aside h rfl rfl trivial
      have stored : Forms b O (set { b with library := library } : Build PUnit) (fun _ => O) fun _ _ => True := stored
      exact stored.bind fun _ b₁ h₁ _ _ => .pure h₁ rfl trivial
    · exact .refuse
    · exact .fail

theorem forms_takeFile (fuel : Nat) (path : List UInt8) (span : Span) : FormsAll (takeFile fuel path span) := by
  induction fuel generalizing path span with
  | zero => exact fun h => .pure h rfl trivial
  | succ fuel ih =>
    intro b O h
    refine (forms_loadFile h path span).bind fun file b₁ h₁ _ _ => .get_bind ?_
    split
    · exact .pure h₁ rfl trivial
    · refine (Forms.aside h₁ rfl rfl trivial : Forms b₁ O (markIncluded file) (fun _ => O) fun _ _ => True).bind
        fun _ b₂ h₂ _ _ => .get_bind ?_
      split
      · exact .fail
      · exact forms_stmts ih _ h₂

end Build

/-! ## Predefined names -/

namespace Program

variable {p : Program}

theorem Formed.addConstant {name : String} {ty : Ty} (value : Constant) (hp : p.Formed ⟨value.macros ++ [0], [], []⟩)
    (outer : 0 < p.scopes.size) (hty : ty.IsPositive) (parents : ∀ j ∈ value.macros, (p.scope j).parent = some 0) :
    (p.addConstant 0 name ty value).Formed ⟨[0], [], []⟩ :=
  (hp.declare (x := ⟨name, .builtin, some value, true⟩) (typeLiteral (.exactly ty)) .builtin outer
    (show Constant.Plain (.type (.exactly ty)) from Bound.isPositive_exactly hty) parents).1

theorem modifyScope_modifyScope (p : Program) (i : ScopeId) (f g : Scope → Scope) :
    (p.modifyScope i f).modifyScope i g = p.modifyScope i (g ∘ f) := by
  simp only [modifyScope]
  congr 1
  refine Array.ext_getElem? fun k => ?_
  simp only [Array.getElem?_modify]
  split <;> simp

theorem Formed.addBuiltinMacro (hp : p.Formed ⟨[0], [], []⟩) (outer : 0 < p.scopes.size) (m : BuiltinMacro) :
    (p.addBuiltinMacro 0 m).Formed ⟨[0], [], []⟩ := by
  let j := p.scopes.size
  let n := p.vars.size
  let x : Variable := ⟨m.input, .builtin, none, false⟩
  let y : Variable := ⟨m.output, .builtin, none, false⟩
  let p₁ := p.addScope (some 0)
  have hj : j < p₁.scopes.size := by
    rw [scopes_size_addScope]
    exact Nat.lt_succ_self _
  have h₁ : p₁.Formed ⟨[j, 0], [], []⟩ := (hp.addScope outer).1
  let p₂ := p₁.define j x
  obtain ⟨h₂, a₂⟩ : p₂.Formed ⟨[j, 0], [n], [(j, n)]⟩ ∧ p₁.Adds ⟨[j, 0], [], []⟩ p₂ ⟨[j, 0], [n], [(j, n)]⟩ := h₁.define hj x
  have size₂ : p₂.vars.size = n + 1 := Array.size_push _
  have hj₂ : j < p₂.scopes.size := Nat.lt_of_lt_of_le hj a₂.scopes
  let p₃ := (p₂.define j y).addStmt j (.create (n + 1) (typeLiteral .auto) .builtin)
  obtain ⟨h₃, a₃⟩ := h₂.declare (x := y) (S := [j, 0]) (typeLiteral .auto) .builtin hj₂
    (show Constant.Plain (.type .auto) from nofun) nofun
  rw [size₂] at h₃ a₃
  have hj₃ : j < p₃.scopes.size := Nat.lt_of_lt_of_le hj₂ a₃.scopes
  let assign : Stmt := .assign (.mk (n + 1) [] .builtin) (.unary m.op (.var n .builtin) .builtin) .builtin
  have input : p₃.Known ⟨[j, 0], [n], [(j, n)]⟩ j n := ⟨j, .refl, .inr List.mem_cons_self⟩
  have output : p₃.Writable ⟨[j, 0], [n], [(j, n)]⟩ j (n + 1) := by
    have hj' : j < (p₂.define j y).scopes.size := by
      rw [scopes_size_define]
      exact hj₂
    refine ⟨⟨j, .refl, .inl (.inl ⟨j, .create (n + 1) (typeLiteral .auto) .builtin, ?_, List.mem_cons_self⟩)⟩, ?_⟩
    · exact (mem_statements_addStmt hj').2 (.inr ⟨rfl, rfl⟩)
    · have var : p₃.var p₂.vars.size = y := var_push_self rfl
      rw [size₂] at var
      rw [var]
  obtain ⟨h₄, a₄⟩ := h₃.addStmt hj₃ assign (S := [j, 0]) (V := [n]) (B := [(j, n)]) nofun
    ⟨input, output, trivial⟩ nofun
  have empty : ((p₃.addStmt j assign).scope j).inputs = [] := by
    rw [(scope_addStmt j assign).2.2.1, (scope_addStmt j _).2.2.1, scope_define_self hj₂, scope_define_self hj,
      scope_addScope_new]
    rfl
  obtain ⟨h₅, a₅⟩ := h₄.setInputs [n] (V := []) (B := []) (Nat.lt_of_lt_of_le hj₃ a₄.scopes) empty
  obtain ⟨h₆, a₆⟩ := h₅.setOutputs [n + 1] fun v hv => by
    obtain rfl := List.mem_singleton.1 hv
    exact a₅.known (a₄.known output.1)
  rw [modifyScope_modifyScope] at h₆ a₆
  have since := a₂.trans (a₃.trans (a₄.trans (a₅.trans a₆)))
  refine Formed.addConstant (.macroRef ⟨j, .builtin⟩) h₆ ?_ (Ty.isPositive_prim _) fun i hi => ?_
  · exact Nat.lt_of_lt_of_le (Nat.zero_lt_of_lt hj) since.scopes
  · obtain rfl := List.mem_singleton.1 hi
    exact (since.parent j hj).trans (congrArg Scope.parent (scope_addScope_new p (some 0)))

/-- The program has one open scope, the outermost one, and no inputs and outputs yet. -/
structure Predefined (p : Program) : Prop where
  formed : p.Formed ⟨[0], [], []⟩
  outer : 0 < p.scopes.size
  io : p.io = []
  builtins : p.builtins = 0

theorem predefined_start : (({} : Program).addScope none).Predefined := by
  let q : Program := ({} : Program).addScope none
  have scope (i : ScopeId) : q.scope i = { parent := none } := by
    match i with
    | 0 => rfl
    | i + 1 => rfl
  have empty (i : ScopeId) : q.statements i = [] := by rw [statements, scope]
  have unbound (i : ScopeId) (v : VarId) : ¬q.Bound ⟨[0], [], []⟩ i v := by
    rintro ((⟨j, st, hst, -⟩ | hv) | hv)
    · rw [empty] at hst
      cases hst
    · rw [scope] at hv
      cases hv
    · cases hv
  refine ⟨⟨fun i hi hne => ?_, fun i st hst => ?_, .refl _, .refl _, fun i st hst => ?_, fun i body exports span hst => ?_,
    fun i v hv => ?_, fun i e he => ?_, fun i v hv => (unbound i v hv).elim, fun i v hv => (unbound i v hv).elim⟩,
    Nat.one_pos, rfl, rfl⟩
  · exact absurd (Nat.lt_one_iff.1 hi) hne
  · rw [empty] at hst
    cases hst
  · rw [empty] at hst
    cases hst
  · rw [empty] at hst
    cases hst
  · rw [scope] at hv
    cases hv
  · rw [scope] at he
    cases he

theorem Predefined.addConstant {x : String × Ty × Constant} (h : p.Predefined) (hx : x ∈ builtinConstants) :
    (p.addConstant 0 x.1 x.2.1 x.2.2).Predefined := by
  have plain : ∀ x ∈ builtinConstants, x.2.2.macros = [] := by simp [builtinConstants, Constant.macros]
  have none := plain x hx
  refine ⟨Formed.addConstant _ ?_ h.outer (isPlain_builtinConstants x hx).1 ?_, ?_, (io_addConstant ..).trans h.io, h.builtins⟩
  · rw [none]
    exact h.formed
  · simp [none]
  · rw [Program.addConstant, addStmt, scopes_size_modifyScope, scopes_size_define]
    exact h.outer

theorem Predefined.addBuiltinMacro (h : p.Predefined) (m : BuiltinMacro) : (p.addBuiltinMacro 0 m).Predefined := by
  have builtins : (p.addBuiltinMacro 0 m).builtins = p.builtins := by
    simp only [Program.addBuiltinMacro, Program.addConstant, addScope, define, addStmt, modifyScope]
  refine ⟨h.formed.addBuiltinMacro h.outer m, ?_, (io_addBuiltinMacro ..).trans h.io, builtins.trans h.builtins⟩
  simp only [Program.addBuiltinMacro, Program.addConstant, addStmt, scopes_size_modifyScope, scopes_size_define,
    scopes_size_addScope]
  exact Nat.succ_pos _

/-- The program that building starts from: predefined names, to which an empty scope was added. -/
theorem predefined_initial : ∃ q : Program, q.Predefined ∧ initial = { q.addScope (some 0) with entry := q.scopes.size } := by
  refine ⟨_, List.foldlRecOn builtinMacros _ ?_ fun p h m _ => h.addBuiltinMacro m, rfl⟩
  exact List.foldlRecOn builtinConstants _ predefined_start fun p h x hx => h.addConstant hx

/-- Nothing more than the scope where the program starts and the outermost one is owed: the program is well formed. -/
theorem Formed.wellFormed (hp : p.Formed ⟨[p.entry, 0], [], []⟩) (builtins : p.builtins = 0) (io : p.Io) :
    p.WellFormed := by
  have bound (i : ScopeId) (v : VarId) : p.Bound ⟨[p.entry, 0], [], []⟩ i v ↔ p.Binds i v := by
    simp [Bound]
  have known (i : ScopeId) (v : VarId) : p.Known ⟨[p.entry, 0], [], []⟩ i v ↔ p.Reaches i v := by
    simp only [Known, Reaches, bound]
  refine ⟨builtins ▸ hp.parent, hp.nested, fun j hj => ?_, fun v hv => ?_, fun i st hst => ?_,
    fun i body exports span hst v hv => (bound body v).1 (hp.exported i body exports span hst v hv),
    fun i v hv => (known i v).1 (hp.outputs i v hv), fun i e he => ?_, fun i v hv => hp.names i v ((bound i v).2 hv),
    io.nodup, io.created⟩
  · have once : ([p.entry, 0] ++ p.mentioned).count j ≤ 1 := by
      rw [hp.scopes.count_eq]
      exact List.nodup_iff_count_le_one.1 List.nodup_range j
    have some : 0 < p.mentioned.count j := List.count_pos_iff.2 hj
    rw [List.count_append] at once
    omega
  · have once : ([] ++ (p.created ++ p.counters ++ p.macroInputs)).count v = 1 := by
      rw [hp.vars.count_eq]
      exact List.nodup_iff_count_eq_one.1 List.nodup_range v (List.mem_range.2 hv)
    simp only [List.nil_append, List.count_append] at once
    have counters := List.count_pos_iff (a := v) (l := p.counters)
    have inputs := List.count_pos_iff (a := v) (l := p.macroInputs)
    split
    · rename_i other
      rw [← counters, ← inputs] at other
      omega
    · rename_i other
      rw [← counters, ← inputs] at other
      omega
  · exact (hp.uses i st hst).mono (fun v => (known i v).1) fun v hv => ⟨(known i v).1 hv.1, hv.2⟩
  · exact ⟨(bound i e.2).1 (hp.symbols i e he).1, (hp.symbols i e he).2⟩

end Program

/-- A program built from a tree is well formed. -/
theorem wellFormed_of_ofTree {lib lib' : Library} {file : Nat} {tree : Tree.File} {p : Program}
    (h : ofTree lib file tree = (.ok p, lib')) : p.WellFormed := by
  unfold ofTree at h
  dsimp only at h
  split at h
  · rename_i u b run
    cases h
    obtain ⟨q, start, eq⟩ := Program.predefined_initial
    rw [eq] at run
    obtain ⟨formed, -⟩ := start.formed.addScope start.outer
    have opened : { q.addScope (some 0) with entry := q.scopes.size }.Formed ⟨[q.scopes.size, 0], [], []⟩ :=
      (formed.carry (q := { q.addScope (some 0) with entry := q.scopes.size }) rfl (Nat.le_refl _) rfl (fun _ => rfl)
        (fun _ => rfl) (fun _ _ => rfl) (fun _ _ => Iff.rfl) formed.parent formed.scopes formed.vars).1
    have io : q.inputs ++ q.outputs = [] := start.io
    have current : q.scopes.size < (q.addScope (some 0)).scopes.size := by
      rw [Program.scopes_size_addScope]
      exact Nat.lt_succ_self _
    obtain ⟨formed', adds, -⟩ := Build.forms_stmts (Build.forms_takeFile (includeBound lib)) tree.statements
      ⟨opened, current, ⟨io ▸ .nil, fun v hv => absurd (io ▸ hv) List.not_mem_nil⟩, start.builtins⟩ u b run
    have entry : b.program.entry = q.scopes.size := adds.entry
    exact Program.Formed.wellFormed (entry ▸ formed'.program) formed'.builtins formed'.io
  · cases h

/-- Whatever file is built, the program is well formed. -/
theorem wellFormed_of_ofLibrary {lib lib' : Library} {file : Nat} {p : Program}
    (h : ofLibrary lib file = (.ok p, lib')) : p.WellFormed := by
  unfold ofLibrary at h
  split at h
  · cases h
  · exact wellFormed_of_ofTree h

/-- A program whose static block exports the output of a macro. -/
theorem wellFormed_of_ofLibrary_export :
    let text := "output INT out;\nmacro M(x): y \x7b INT y = x; \x7d\nstatic s \x7b INT s = M(2); \x7d\nout = s;\n"
    ∃ p lib', ofLibrary (({} : Library).add "main" text) 0 = (.ok p, lib') ∧ p.WellFormed := by
  intro text
  have built : (ofLibrary (({} : Library).add "main" text) 0).1.toOption.isSome = true := by decide +kernel
  cases run : ofLibrary (({} : Library).add "main" text) 0 with
  | mk result lib' =>
    rw [run] at built
    cases result with
    | error e => cases built
    | ok p => exact ⟨p, lib', rfl, wellFormed_of_ofLibrary run⟩

end SignalLang.Scoped
