import SignalLang.Proofs.Scoped.Laying

/-!
# Names stand for what is in sight

`Build.Lays b L opens m Q` specifies a step of building in the innermost open scope: when it ends, the program is laid
out again, what was laid before has not moved (`Builder.Goes`), and `Q` holds of the result. Names are looked up in the
open scopes, so an expression that was built uses only what is in sight; and a scope that was closed fits every place
behind it, since nothing made since then is inside it.
-/

namespace SignalLang.Scoped

/-- The program is laid out, and the current scope is the innermost open one. -/
structure Builder.Laid (b : Builder) (L : Layout) (opens : List ScopeId) : Prop where
  making : b.program.Making L opens
  current : ∃ rest, opens = b.current :: rest

/-- The variables in sight where building has come to. -/
def Builder.Here (b : Builder) (L : Layout) : VarId → Prop := b.program.InSight L b.current

/-- The variables in sight that may be assigned. -/
def Builder.Free (b : Builder) (L : Layout) : VarId → Prop := b.program.Settable (b.Here L)

/-- Building went on in the current scope. -/
structure Builder.Goes (b : Builder) (L : Layout) (opens : List ScopeId) (b' : Builder) (L' : Layout) : Prop where
  grows : b.program.Grows L opens b.current b'.program L'
  current : b'.current = b.current
  sees : L'.sees b.current = L.sees b.current
  inputs : (b'.program.scope b.current).inputs = (b.program.scope b.current).inputs
  more : ∀ v, b.Here L v → b'.Here L' v
  new : ∀ v, b'.Here L' v → b.Here L v ∨ b.program.vars.size ≤ v
  entry : b'.program.entry = b.program.entry
  builtins : b'.program.builtins = b.program.builtins

variable {b b' b'' : Builder} {L L' L'' : Layout} {opens : List ScopeId}

namespace Builder

theorem Laid.mem (h : b.Laid L opens) : b.current ∈ opens := by
  obtain ⟨rest, rfl⟩ := h.current
  exact List.mem_cons_self

theorem Laid.inner (h : b.Laid L opens) : ∀ i ∈ opens, i ≤ b.current := by
  have sorted := h.making.sorted
  obtain ⟨rest, rfl⟩ := h.current
  intro i hi
  rcases List.mem_cons.1 hi with rfl | hi
  · exact Nat.le_refl _
  · exact Nat.le_of_lt ((List.pairwise_cons.1 sorted).1 i hi)

theorem Laid.lt (h : b.Laid L opens) : b.current < b.program.scopes.size := h.making.opens_lt _ h.mem

namespace Goes

theorem refl (h : b.Laid L opens) : b.Goes L opens b L :=
  ⟨Program.grows_same h.making rfl rfl (fun _ _ => rfl) (fun _ _ => rfl) rfl rfl rfl rfl, rfl, rfl, rfl, fun _ hv => hv,
    fun _ hv => .inl hv, rfl, rfl⟩

theorem trans (g : b.Goes L opens b' L') (g' : b'.Goes L' opens b'' L'') : b.Goes L opens b'' L'' := by
  have same := g.current
  refine ⟨g.grows.trans (same ▸ g'.grows), g'.current.trans same, (same ▸ g'.sees).trans g.sees,
    (same ▸ g'.inputs).trans g.inputs, fun v hv => g'.more v (g.more v hv), fun v hv => ?_, g'.entry.trans g.entry,
    g'.builtins.trans g.builtins⟩
  rcases g'.new v hv with hv | hv
  · exact g.new v hv
  · exact .inr (Nat.le_trans g.grows.vars hv)

theorem free (h : b.Laid L opens) (g : b.Goes L opens b' L') {v : VarId} (hv : b.Free L v) : b'.Free L' v := by
  refine ⟨g.more v hv.1, ?_⟩
  rw [g.grows.var v (h.making.made hv.1)]
  exact hv.2

end Goes

end Builder

/-- An expression uses what is in sight. -/
def Expr.Known (b : Builder) (L : Layout) (e : Expr) : Prop := e.Uses (b.Here L) (b.Free L)

theorem Expr.Known.goes (h : b.Laid L opens) (g : b.Goes L opens b' L') {e : Expr} (he : e.Known b L) :
    e.Known b' L' :=
  he.mono g.more fun _ hv => g.free h hv

namespace Build

open Builder

variable {α β : Type}

/-- When the step ends, the program is laid out and has gone on, and `Q` holds of the result. -/
def Lays (b : Builder) (L : Layout) (opens : List ScopeId) (m : Build α) (Q : Builder → Layout → α → Prop) : Prop :=
  ∀ a b', m.run b = (.ok a, b') → ∃ L', b'.Laid L' opens ∧ b.Goes L opens b' L' ∧ Q b' L' a

namespace Lays

variable {m : Build α} {f : α → Build β} {Q : Builder → Layout → α → Prop} {R : Builder → Layout → β → Prop}

theorem pure {a : α} (h : b.Laid L opens) (hq : Q b L a) : Lays b L opens (Pure.pure a) Q := by
  intro a' b' run
  cases run
  exact ⟨L, h, .refl h, hq⟩

theorem fail {e : BuildError} : Lays b L opens (throw e) Q := fun _ _ run => by cases run

theorem refuse {p : Problem} : Lays b L opens (Build.refuse p) Q := fail

theorem bind (hm : Lays b L opens m Q)
    (hf : ∀ a b' L', b'.Laid L' opens → b.Goes L opens b' L' → Q b' L' a → Lays b' L' opens (f a) R) :
    Lays b L opens (m >>= f) R := by
  intro a b'' run
  rw [run_bind] at run
  rcases hr : m.run b with ⟨r, b'⟩
  rw [hr] at run
  cases r with
  | error e => cases run
  | ok x =>
    obtain ⟨L', laid, goes, hq⟩ := hm x b' hr
    obtain ⟨L'', laid', goes', hr'⟩ := hf x b' L' laid goes hq a b'' run
    exact ⟨L'', laid', goes.trans goes', hr'⟩

theorem mono {Q' : Builder → Layout → α → Prop} (hm : Lays b L opens m Q)
    (h : ∀ a b' L', b'.Laid L' opens → Q b' L' a → Q' b' L' a) : Lays b L opens m Q' := by
  intro a b' run
  obtain ⟨L', laid, goes, hq⟩ := hm a b' run
  exact ⟨L', laid, goes, h a b' L' laid hq⟩

theorem get_bind {f : Builder → Build β} (h : Lays b L opens (f b) R) : Lays b L opens (get >>= f) R := h

theorem map {g : α → β} (hm : Lays b L opens m fun b' L' a => R b' L' (g a)) : Lays b L opens (g <$> m) R := by
  rw [map_eq_pure_bind]
  exact hm.bind fun a b' L' laid _ hq => .pure laid hq

/-- A step that changes nothing the layout is about. -/
theorem aside (h : b.Laid L opens) {u : Builder → Builder} (program : (u b).program = b.program)
    (current : (u b).current = b.current) {Q : Builder → Layout → PUnit → Prop} (hq : Q (u b) L ()) :
    Lays b L opens (modify u) Q := by
  intro a b' run
  cases run
  obtain ⟨library, p, cur, included, macroDepth⟩ := b
  revert hq
  generalize u ⟨library, p, cur, included, macroDepth⟩ = b' at *
  obtain ⟨library', p', cur', included', macroDepth'⟩ := b'
  cases program
  cases current
  intro hq
  have g := Goes.refl h
  exact ⟨L, ⟨h.making, h.current⟩, ⟨g.grows, rfl, rfl, rfl, g.more, g.new, rfl, rfl⟩, hq⟩

end Lays

/-! ## Names and statements -/

section Steps

variable (h : b.Laid L opens)

include h

theorem lays_lookup (id : Tree.Ident) : Lays b L opens (lookup id) fun b' L' v => b'.Here L' v := by
  refine .get_bind ?_
  split
  · rename_i v found
    exact .pure h (h.making.inSight_of_lookup h.mem found)
  · exact .refuse

theorem lays_writable (id : Tree.Ident) : Lays b L opens (writable id) fun b' L' v => b'.Free L' v := by
  refine (lays_lookup h id).bind fun v b' L' h' _ hv => .get_bind ?_
  dsimp only
  split
  · exact .refuse
  · rename_i open_
    refine .pure h' ⟨hv, ?_⟩
    cases initial : (b'.program.var v).initial with
    | none => rfl
    | some value => exact absurd (h'.making.readOnly v value initial) open_

theorem lays_targetIdent (e : Tree.Expr) : Lays b L opens (targetIdent e) fun _ _ _ => True := by
  fun_induction targetIdent e with
  | case1 id => exact .pure h trivial
  | case2 => exact .refuse
  | case3 base _ optional span hopt ih => exact ih
  | case4 e => exact .refuse

theorem lays_property (name : String) (span : Span) : Lays b L opens (property name span) fun _ _ _ => True := by
  unfold property
  split
  · exact .pure h trivial
  · exact .pure h trivial
  · exact .refuse

omit h in
/-- A statement brings what it declares into sight. -/
theorem inSight_extended {p' : Program} (sees : L'.sees b.current = L.sees b.current) {symbols : List (String × VarId)}
    {st : Stmt} (scope : p'.scope b.current = { b.program.scope b.current with
      symbols := symbols, body := (b.program.scope b.current).body.push st }) (v : VarId) :
    p'.InSight L' b.current v ↔ b.Here L v ∨ v ∈ st.declares := by
  have body : p'.statements b.current = b.program.statements b.current ++ [st] := by
    rw [Program.statements, scope]
    simp [Program.statements]
  rw [Program.InSight, Program.Sight, body, scope, sees]
  constructor
  · rintro (⟨x, hx, hv⟩ | hv)
    · rcases List.mem_append.1 hx with hx | hx
      · exact .inl (.inl ⟨x, hx, hv⟩)
      · exact .inr (List.mem_singleton.1 hx ▸ hv)
    · exact .inl (.inr hv)
  · rintro ((⟨x, hx, hv⟩ | hv) | hv)
    · exact .inl ⟨x, List.mem_append_left _ hx, hv⟩
    · exact .inr hv
    · exact .inl ⟨st, by simp, hv⟩

/-- Building goes on in the current scope after it got a statement. -/
theorem goes_extended {p' : Program} (making : p'.Making L' opens)
    (grows : b.program.Grows L opens b.current p' L') (sees : L'.sees b.current = L.sees b.current)
    {symbols : List (String × VarId)} {st : Stmt}
    (scope : p'.scope b.current = { b.program.scope b.current with
      symbols := symbols, body := (b.program.scope b.current).body.push st })
    (fresh : ∀ v ∈ st.declares, b.Here L v ∨ b.program.vars.size ≤ v) (entry : p'.entry = b.program.entry)
    (builtins : p'.builtins = b.program.builtins) :
    ({ b with program := p' } : Builder).Laid L' opens ∧ b.Goes L opens { b with program := p' } L' ∧
      ∀ v ∈ st.declares, ({ b with program := p' } : Builder).Here L' v := by
  have here := inSight_extended sees scope
  refine ⟨⟨making, h.current⟩, ⟨grows, rfl, sees, by rw [scope], fun v hv => (here v).2 (.inl hv), fun v hv => ?_, entry,
    builtins⟩, fun v hv => (here v).2 (.inr hv)⟩
  rcases (here v).1 hv with hv | hv
  · exact .inl hv
  · exact fresh v hv

theorem lays_emit {st : Stmt} (place : b.program.Places L b.current (b.Here L) st) (declares : st.declares = [])
    (nested : ∀ j ∈ st.scopes, j < b.program.scopes.size ∧ j ∉ opens) :
    Lays b L opens (emit st) fun _ _ _ => True := by
  intro u b' run
  cases run
  have scopes : (b.program.addStmt b.current st).scopes.size = b.program.scopes.size := by simp [Program.addStmt]
  have other (i : ScopeId) (hne : i ≠ b.current) : (b.program.addStmt b.current st).scope i = b.program.scope i :=
    Program.scope_modifyScope_ne hne _
  have scope : (b.program.addStmt b.current st).scope b.current = { b.program.scope b.current with
      symbols := (b.program.scope b.current).symbols, body := (b.program.scope b.current).body.push st } :=
    Program.scope_modifyScope_self h.lt _
  have none : ∀ v ∈ st.declares, False := fun v hv => by rw [declares] at hv; cases hv
  have making := h.making.addStmt h.mem h.inner scopes rfl other scope place (fun v hv => (none v hv).elim)
    (fun e he => .inl he) nested
  have grows : b.program.Grows L opens b.current (b.program.addStmt b.current st) L :=
    Program.grows_same h.making scopes rfl other (fun _ _ => rfl) rfl rfl rfl rfl
  obtain ⟨laid, goes, -⟩ := goes_extended h making grows rfl scope (fun v hv => (none v hv).elim) rfl rfl
  exact ⟨L, laid, goes, trivial⟩

/-- A variable is declared: it is defined, and the statement that makes it is emitted. -/
theorem declared {x : Variable} {type : Expr} (span : Span) (htype : type.Known b L)
    (hreadOnly : ∀ value, x.initial = some value → x.readOnly = true ∧ value.Plain ∧
      ∃ span, type = .literal (.type (.exactly value.ty)) span)
    (hbody : ∀ site, x.initial = some (.macroRef site) → b.program.Bodies L b.program.vars.size site.body ∧
      (∀ w, L.sees site.body w → b.Here L w) ∧ site.body < b.program.scopes.size ∧ site.body ∉ opens) :
    let q := (b.program.define b.current x).addStmt b.current (.create b.program.vars.size type span)
    ∃ L', ({ b with program := q } : Builder).Laid L' opens ∧ b.Goes L opens { b with program := q } L' ∧
      (x.initial = none → ({ b with program := q } : Builder).Free L' b.program.vars.size) := by
  intro q
  have scopes : q.scopes.size = b.program.scopes.size := by simp [q, Program.addStmt]
  have other (i : ScopeId) (hne : i ≠ b.current) : q.scope i = b.program.scope i :=
    (Program.scope_modifyScope_ne hne _).trans (Program.scope_define_ne hne x)
  have scope : q.scope b.current = { b.program.scope b.current with
      symbols := ((b.program.scope b.current).bind x.name b.program.vars.size).symbols
      body := (b.program.scope b.current).body.push (.create b.program.vars.size type span) } := by
    show ((b.program.define b.current x).addStmt b.current _).scope b.current = _
    rw [Program.addStmt, Program.scope_modifyScope_self (by simpa using h.lt), Program.scope_define_self h.lt]
    rfl
  have making : q.Making _ opens := h.making.declare h.mem h.inner htype hreadOnly hbody
  have grows : b.program.Grows L opens b.current q (L.next opens b.program.vars.size (L.frame b.current)) :=
    Program.grows_next scopes rfl other (fun _ _ => rfl) rfl rfl rfl rfl
  obtain ⟨laid, goes, here⟩ := goes_extended h making grows rfl scope
    (fun v hv => .inr (Nat.le_of_eq (List.mem_singleton.1 hv).symm)) rfl rfl
  refine ⟨_, laid, goes, fun bare => ⟨here _ List.mem_cons_self, ?_⟩⟩
  have var : q.var b.program.vars.size = x := Program.var_push_self rfl
  rw [var]
  exact bare

theorem Lays.declare {x : Variable} {type : Expr} {span : Span} (htype : type.Known b L)
    (bare : x.initial = none) {k : VarId → Build α} {Q : Builder → Layout → α → Prop}
    (hk : ∀ b' L' v, b'.Laid L' opens → b.Goes L opens b' L' → b'.Free L' v → Lays b' L' opens (k v) Q) :
    Lays b L opens (do let v ← define x; emit (.create v type span); k v) Q := by
  obtain ⟨L', laid, goes, free⟩ := declared h (x := x) span htype
    (fun value initial => by rw [bare] at initial; cases initial)
    fun site initial => by rw [bare] at initial; cases initial
  intro a b' run
  obtain ⟨L'', laid', goes', hq⟩ := hk _ L' b.program.vars.size laid goes (free bare) a b' run
  exact ⟨L'', laid', goes.trans goes', hq⟩

end Steps

/-! ## Expressions -/

theorem allUse_append {R W : VarId → Prop} {es fs : List Expr} :
    AllUse R W (es ++ fs) ↔ AllUse R W es ∧ AllUse R W fs := by
  induction es with
  | nil => simp [AllUse]
  | cons e es ih => simp [AllUse, ih, and_assoc]

theorem indexesUse_append {R W : VarId → Prop} {as bs : List IndexArg} :
    IndexesUse R W (as ++ bs) ↔ IndexesUse R W as ∧ IndexesUse R W bs := by
  induction as with
  | nil => simp [IndexesUse]
  | cons a as ih =>
    obtain ⟨e, optional⟩ := a
    simp [IndexesUse, ih, and_assoc]

mutual

theorem lays_value : (e : Tree.Expr) → ∀ {b : Builder} {L : Layout}, b.Laid L opens →
    Lays b L opens (value e) fun b' L' v => v.Known b' L'
  | .name id, b, L, h => by
    rw [value]
    exact (lays_lookup h id).bind fun v b₁ L₁ h₁ _ hv => .pure h₁ hv
  | .int v span, b, L, h => by
    rw [value]
    split
    · exact .refuse
    · exact .pure h trivial
  | .float v span, b, L, h => by
    rw [value]
    exact .pure h trivial
  | .array items span, b, L, h => by
    rw [value]
    exact (lays_values items h).bind fun vs b₁ L₁ h₁ _ hvs => .pure h₁ hvs
  | .arrayType dims base span, b, L, h => by
    rw [value]
    refine (lays_values dims h).bind fun vs b₁ L₁ h₁ _ hvs => ?_
    refine (lays_value base h₁).bind fun v b₂ L₂ h₂ g₂ hv => .pure h₂ ⟨?_, hv⟩
    exact hvs.mono g₂.more fun _ hv => g₂.free h₁ hv
  | .openBound span, b, L, h => by
    rw [value]
    exact .pure h trivial
  | .upperBound upper span, b, L, h => by
    rw [value]
    exact (lays_value upper h).bind fun u b₁ L₁ h₁ _ hu => .pure h₁ hu
  | .closedBound lower upper span, b, L, h => by
    rw [value]
    refine (lays_value lower h).bind fun l b₁ L₁ h₁ _ hl => ?_
    exact (lays_value upper h₁).bind fun u b₂ L₂ h₂ g₂ hu => .pure h₂ ⟨hl.goes h₁ g₂, hu⟩
  | .index base index optional span, b, L, h => by
    rw [value]
    refine (lays_value base h).bind fun v b₁ L₁ h₁ _ hv => ?_
    refine (lays_value index h₁).bind fun i b₂ L₂ h₂ g₂ hi => ?_
    have hv := hv.goes h₁ g₂
    dsimp only
    split
    · refine .pure h₂ ⟨hv.1, ?_⟩
      exact indexesUse_append.2 ⟨hv.2, hi, trivial⟩
    · exact .pure h₂ ⟨hv, hi, trivial⟩
  | .property base name nameSpan span, b, L, h => by
    rw [value]
    refine (lays_value base h).bind fun v b₁ L₁ h₁ _ hv => ?_
    exact (lays_property h₁ name nameSpan).bind fun q b₂ L₂ h₂ g₂ _ => .pure h₂ (hv.goes h₁ g₂)
  | .unary op operand span, b, L, h => by
    rw [value]
    exact (lays_value operand h).bind fun v b₁ L₁ h₁ _ hv => .pure h₁ hv
  | .binary op left right span, b, L, h => by
    rw [value]
    refine (lays_value left h).bind fun l b₁ L₁ h₁ _ hl => ?_
    exact (lays_value right h₁).bind fun r b₂ L₂ h₂ g₂ hr => .pure h₂ ⟨hl.goes h₁ g₂, hr⟩
  | .call callee inputs explicit outs span, b, L, h => by
    rw [value]
    refine (lays_lookup h callee).bind fun v b₁ L₁ h₁ _ hv => ?_
    refine (lays_values inputs h₁).bind fun vs b₂ L₂ h₂ g₂ hvs => ?_
    split
    · refine (lays_outputs false outs h₂).bind fun r b₃ L₃ h₃ g₃ hr => ?_
      dsimp only
      split
      · refine .pure h₃ ⟨g₃.more _ (g₂.more v hv), ?_, hr⟩
        exact hvs.mono g₃.more fun _ hv => g₃.free h₂ hv
      · exact .refuse
    · exact .pure h₂ ⟨g₂.more v hv, hvs, trivial⟩
  | .decl type name span, b, L, h => by
    rw [value]
    exact .refuse

theorem lays_values : (es : List Tree.Expr) → ∀ {b : Builder} {L : Layout}, b.Laid L opens →
    Lays b L opens (values es) fun b' L' vs => AllUse (b'.Here L') (b'.Free L') vs
  | [], b, L, h => by
    rw [values]
    exact .pure h trivial
  | e :: es, b, L, h => by
    rw [values]
    refine (lays_value e h).bind fun v b₁ L₁ h₁ _ hv => ?_
    exact (lays_values es h₁).bind fun vs b₂ L₂ h₂ g₂ hvs => .pure h₂ ⟨hv.goes h₁ g₂, hvs⟩

theorem lays_outputs (seen : Bool) : (outs : List Tree.Output) → ∀ {b : Builder} {L : Layout}, b.Laid L opens →
    Lays b L opens (outputs seen outs) fun b' L' r => OutputsUse (b'.Here L') (b'.Free L') r.1
  | [], b, L, h => by
    rw [outputs]
    exact .pure h trivial
  | .inline span :: rest, b, L, h => by
    rw [outputs]
    split
    · exact (Lays.refuse (Q := fun _ _ _ => False)).bind fun _ _ _ _ _ never => never.elim
    · exact (lays_outputs true rest h).bind fun r b₁ L₁ h₁ _ hr => .pure h₁ hr
  | .target e span :: rest, b, L, h => by
    rw [outputs]
    refine (lays_target e h).bind fun t b₁ L₁ h₁ _ ht => ?_
    refine (lays_outputs seen rest h₁).bind fun r b₂ L₂ h₂ g₂ hr => .pure h₂ ⟨?_, hr⟩
    exact ht.mono g₂.more fun _ hv => g₂.free h₁ hv

theorem lays_target : (e : Tree.Expr) → ∀ {b : Builder} {L : Layout}, b.Laid L opens →
    Lays b L opens (target e) fun b' L' t => t.Uses (b'.Here L') (b'.Free L')
  | .decl type name span, b, L, h => by
    rw [target]
    refine (lays_value type h).bind fun v b₁ L₁ h₁ _ hv => ?_
    exact .declare h₁ hv rfl fun b₂ L₂ id h₂ _ free => .pure h₂ ⟨free, trivial⟩
  | .name id, b, L, h => by
    rw [target]
    exact (lays_writable h id).bind fun v b₁ L₁ h₁ _ hv => .pure h₁ ⟨hv, trivial⟩
  | .index base index optional span, b, L, h => by
    rw [target]
    split
    · exact (Lays.refuse (Q := fun _ _ _ => False)).bind fun _ _ _ _ _ never => never.elim
    · refine (lays_targetIdent h base).bind fun id b₁ L₁ h₁ _ _ => ?_
      refine (lays_writable h₁ id).bind fun v b₂ L₂ h₂ _ hv => ?_
      refine (lays_targetIndexes base h₂).bind fun es b₃ L₃ h₃ g₃ hes => ?_
      refine (lays_value index h₃).bind fun i b₄ L₄ h₄ g₄ hi => .pure h₄ ⟨g₄.free h₃ (g₃.free h₂ hv), ?_⟩
      exact allUse_append.2 ⟨hes.mono g₄.more fun _ hv => g₄.free h₃ hv, hi, trivial⟩
  | .int .., b, L, h | .float .., b, L, h | .array .., b, L, h | .arrayType .., b, L, h | .openBound _, b, L, h
  | .upperBound .., b, L, h | .closedBound .., b, L, h | .property .., b, L, h | .unary .., b, L, h
  | .binary .., b, L, h | .call .., b, L, h => by
    simp only [target]
    exact .refuse

theorem lays_targetIndexes : (e : Tree.Expr) → ∀ {b : Builder} {L : Layout}, b.Laid L opens →
    Lays b L opens (targetIndexes e) fun b' L' es => AllUse (b'.Here L') (b'.Free L') es
  | .index base index _ _, b, L, h => by
    rw [targetIndexes]
    refine (lays_targetIndexes base h).bind fun es b₁ L₁ h₁ _ hes => ?_
    refine (lays_value index h₁).bind fun i b₂ L₂ h₂ g₂ hi => .pure h₂ ?_
    exact allUse_append.2 ⟨hes.mono g₂.more fun _ hv => g₂.free h₁ hv, hi, trivial⟩
  | .name _, b, L, h | .decl .., b, L, h | .int .., b, L, h | .float .., b, L, h | .array .., b, L, h
  | .arrayType .., b, L, h | .openBound _, b, L, h | .upperBound .., b, L, h | .closedBound .., b, L, h
  | .property .., b, L, h | .unary .., b, L, h | .binary .., b, L, h | .call .., b, L, h => by
    simp only [targetIndexes]
    exact .pure h trivial

end

theorem lays_callAlone (h : b.Laid L opens) (e : Tree.Expr) :
    Lays b L opens (callAlone e) fun b' L' v => v.Known b' L' := by
  unfold callAlone
  split
  · refine (lays_lookup h _).bind fun v b₁ L₁ h₁ _ hv => ?_
    refine (lays_values _ h₁).bind fun vs b₂ L₂ h₂ g₂ hvs => ?_
    split
    · refine Lays.bind (Q := fun b' L' outs => OutputsUse (b'.Here L') (b'.Free L') outs)
        (.map (lays_outputs false _ h₂)) fun outs b₃ L₃ h₃ g₃ houts => .pure h₃ ⟨?_, ?_, houts⟩
      · exact g₃.more v (g₂.more v hv)
      · exact hvs.mono g₃.more fun _ hv => g₃.free h₂ hv
    · exact .pure h₂ ⟨g₂.more v hv, hvs, trivial⟩
  · exact lays_value _ h

end Build

end SignalLang.Scoped
