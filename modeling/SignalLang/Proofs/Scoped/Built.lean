import SignalLang.Proofs.Scoped.Plain
import SignalLang.Scoped.Build

/-!
# Built programs are plain

The invariant of building (`Program.InMaking`) says more than that a program is plain: an input or output is
bound only in the scope a program starts in, and an export is bound in the body of its static block, which is
another scope. So the two never meet.

`Build.Keeps b m Q` specifies a step of building: when it ends, the invariant holds again, the program still
starts in the same scope, and `Q` holds of the result.
-/

namespace SignalLang.Scoped

/-- The variables a statement exports. -/
def Stmt.exports : Stmt → List VarId
  | .static _ exports _ => exports
  | _ => []

theorem Stmt.Plain.mono {io more : List VarId} {st : Stmt} (h : st.Plain io)
    (hmore : ∀ v ∈ more, v ∈ io ∨ v ∉ st.exports) : st.Plain more := by
  cases st with
  | static body exports span =>
    exact fun v hv hmem => (hmore v hmem).elim (h v hv) fun hnot => hnot hv
  | _ => exact h

namespace Program

/-- The inputs and outputs. -/
def io (p : Program) : List VarId := p.inputs ++ p.outputs

/-- The invariant of building. -/
structure InMaking (p : Program) : Prop where
  entry : p.entry < p.scopes.size
  stmts : ∀ i, ∀ st ∈ (p.scope i).body, st.Plain p.io ∧ ∀ v ∈ st.exports, v < p.vars.size
  symbols : ∀ i, ∀ e ∈ (p.scope i).symbols, e.2 < p.vars.size ∧ (i ≠ p.entry → e.2 ∉ p.io)
  initial : ∀ v ∈ p.vars, ∀ k, v.initial = some k → k.Plain
  io : ∀ v ∈ p.io, v < p.vars.size
  nodup : p.io.Nodup

theorem InMaking.plain {p : Program} (h : p.InMaking) : p.Plain :=
  ⟨fun i st hst => (h.stmts i st hst).1, h.initial, h.nodup⟩

variable {p : Program}

theorem scope_modifyScope (p : Program) (i : ScopeId) (f : Scope → Scope) (j : ScopeId) :
    (p.modifyScope i f).scope j = p.scope j ∨ (j = i ∧ (p.modifyScope i f).scope j = f (p.scope j)) := by
  simp only [scope, modifyScope, Array.getD_eq_getD_getElem?, Array.getElem?_modify]
  split
  · rename_i same
    cases p.scopes[j]? with
    | none => exact .inl rfl
    | some s => exact .inr ⟨same.symm, rfl⟩
  · exact .inl rfl

@[simp] theorem scopes_size_modifyScope (p : Program) (i : ScopeId) (f : Scope → Scope) :
    (p.modifyScope i f).scopes.size = p.scopes.size := by
  simp [modifyScope]

/-- A change of a scope that adds statements and names of the right kind. -/
theorem InMaking.modifyScope (h : p.InMaking) {i : ScopeId} {f : Scope → Scope}
    (hbody : ∀ s, ∀ st ∈ (f s).body, st ∈ s.body ∨ (st.Plain p.io ∧ ∀ v ∈ st.exports, v < p.vars.size))
    (hsymbols : ∀ s, ∀ e ∈ (f s).symbols, e ∈ s.symbols ∨
      (e.2 < p.vars.size ∧ (i ≠ p.entry → e.2 ∉ p.io))) : (p.modifyScope i f).InMaking := by
  refine ⟨(scopes_size_modifyScope p i f).symm ▸ h.entry, fun j st hst => ?_, fun j e he => ?_, h.initial, h.io, h.nodup⟩
  · rcases scope_modifyScope p i f j with same | ⟨-, changed⟩
    · exact h.stmts j st (same ▸ hst)
    · rw [changed] at hst
      exact (hbody _ st hst).elim (h.stmts j st) id
  · rcases scope_modifyScope p i f j with same | ⟨rfl, changed⟩
    · exact h.symbols j e (same ▸ he)
    · rw [changed] at he
      exact (hsymbols _ e he).elim (h.symbols j e) id

theorem InMaking.addStmt (h : p.InMaking) {i : ScopeId} {st : Stmt} (hst : st.Plain p.io)
    (hex : ∀ v ∈ st.exports, v < p.vars.size) : (p.addStmt i st).InMaking := by
  refine h.modifyScope (fun s st' hst' => ?_) fun s e he => .inl he
  rcases Array.mem_push.1 hst' with hst' | rfl
  · exact .inl hst'
  · exact .inr ⟨hst, hex⟩

theorem InMaking.bind (h : p.InMaking) {i : ScopeId} {name : String} {v : VarId} (hv : v < p.vars.size)
    (hio : i ≠ p.entry → v ∉ p.io) : (p.modifyScope i (·.bind name v)).InMaking := by
  refine h.modifyScope (fun s st hst => .inl hst) fun s e he => ?_
  rcases List.mem_cons.1 he with rfl | he
  · exact .inr ⟨hv, hio⟩
  · exact .inl (List.mem_filter.1 he).1

theorem InMaking.addVariable (h : p.InMaking) {v : Variable} (hv : ∀ k, v.initial = some k → k.Plain) :
    ({ p with vars := p.vars.push v } : Program).InMaking := by
  have later {w : VarId} (hw : w < p.vars.size) : w < (p.vars.push v).size := by
    rw [Array.size_push]
    exact Nat.lt_succ_of_lt hw
  refine ⟨h.entry, fun i st hst => ?_, fun i e he => ?_, fun w hw => ?_, fun w hw => later (h.io w hw),
    h.nodup⟩
  · obtain ⟨hplain, hex⟩ := h.stmts i st hst
    exact ⟨hplain, fun w hw => later (hex w hw)⟩
  · obtain ⟨hlt, hio⟩ := h.symbols i e he
    exact ⟨later hlt, hio⟩
  · rcases Array.mem_push.1 hw with hw | rfl
    · exact h.initial w hw
    · exact hv

/-- A new variable is no input or output yet. -/
theorem InMaking.define (h : p.InMaking) {i : ScopeId} {v : Variable}
    (hv : ∀ k, v.initial = some k → k.Plain) : (p.define i v).InMaking := by
  refine (h.addVariable hv).bind ?_ fun _ hmem => ?_
  · simp
  · exact Nat.lt_irrefl _ (h.io _ hmem)

theorem InMaking.addScope (h : p.InMaking) (parent : Option ScopeId) : (p.addScope parent).InMaking := by
  have old (i : ScopeId) : (p.addScope parent).scope i = p.scope i ∨
      (p.addScope parent).scope i = { parent := parent } := by
    simp only [scope, Program.addScope, Array.getD_eq_getD_getElem?, Array.getElem?_push]
    split
    · exact .inr rfl
    · exact .inl rfl
  refine ⟨?_, fun i st hst => ?_, fun i e he => ?_, h.initial, h.io, h.nodup⟩
  · have := h.entry
    simp only [Program.addScope, Array.size_push]
    exact Nat.lt_succ_of_lt this
  · rcases old i with same | fresh
    · exact h.stmts i st (same ▸ hst)
    · rw [fresh] at hst
      simp at hst
  · rcases old i with same | fresh
    · exact h.symbols i e (same ▸ he)
    · rw [fresh] at he
      cases he

/-- An input or output may be added that no static block exports and no inner scope binds. -/
theorem InMaking.addIo {q : Program} (h : p.InMaking) (v : VarId) (hv : v < p.vars.size)
    (hscopes : q.scopes = p.scopes) (hvars : q.vars = p.vars) (hentry : q.entry = p.entry)
    (hio : ∀ w, w ∈ q.io ↔ w ∈ p.io ∨ w = v) (hnodup : q.io.Nodup)
    (hexports : ∀ i, ∀ st ∈ (p.scope i).body, v ∉ st.exports)
    (hsymbols : ∀ i, i ≠ p.entry → ∀ e ∈ (p.scope i).symbols, e.2 ≠ v) : q.InMaking := by
  have scope (i : ScopeId) : q.scope i = p.scope i := by rw [Program.scope, hscopes]; rfl
  refine ⟨?_, fun i st hst => ?_, fun i e he => ?_, hvars ▸ h.initial, fun w hw => ?_, hnodup⟩
  · rw [hentry, hscopes]
    exact h.entry
  · rw [scope] at hst
    obtain ⟨hplain, hex⟩ := h.stmts i st hst
    refine ⟨hplain.mono fun w hw => ?_, hvars ▸ hex⟩
    rcases (hio w).1 hw with hw | rfl
    · exact .inl hw
    · exact .inr (hexports i st hst)
  · rw [scope] at he
    obtain ⟨hlt, hnot⟩ := h.symbols i e he
    refine ⟨hvars ▸ hlt, fun hi hmem => ?_⟩
    rw [hentry] at hi
    rcases (hio e.2).1 hmem with hmem | same
    · exact hnot hi hmem
    · exact hsymbols i hi e he same
  · rw [hvars]
    rcases (hio w).1 hw with hw | rfl
    · exact h.io w hw
    · exact hv

/-- A variable that is declared where a program starts may become an input or an output. -/
theorem InMaking.declare (h : p.InMaking) {v : Variable} (hv : ∀ k, v.initial = some k → k.Plain)
    {type : Expr} (htype : type.Plain) (span : Span) (isOutput : Bool) :
    (let q := (p.define p.entry v).addStmt p.entry (.create p.vars.size type span)
    if isOutput then { q with outputs := q.outputs ++ [p.vars.size] }
    else { q with inputs := q.inputs ++ [p.vars.size] }).InMaking := by
  have made : ((p.define p.entry v).addStmt p.entry (.create p.vars.size type span)).InMaking :=
    (h.define hv).addStmt htype fun w hw => by cases hw
  -- Other scopes are as before; the first one has a new statement, which exports nothing.
  have exports (i : ScopeId) (st : Stmt)
      (hst : st ∈ (((p.define p.entry v).addStmt p.entry (.create p.vars.size type span)).scope i).body) :
      p.vars.size ∉ st.exports := by
    have old (hst : st ∈ (p.scope i).body) : p.vars.size ∉ st.exports :=
      fun hmem => Nat.lt_irrefl _ ((h.stmts i st hst).2 _ hmem)
    have defined (hst : st ∈ ((p.define p.entry v).scope i).body) : p.vars.size ∉ st.exports := by
      rcases scope_modifyScope { p with vars := p.vars.push v } p.entry (·.bind v.name p.vars.size) i with
        same | ⟨-, changed⟩
      · rw [show (p.define p.entry v).scope i = _ from same] at hst
        exact old hst
      · rw [show (p.define p.entry v).scope i = _ from changed] at hst
        exact old hst
    rcases scope_modifyScope (p.define p.entry v) p.entry _ i with same | ⟨-, changed⟩
    · exact defined (same ▸ hst)
    · rw [show ((p.define p.entry v).addStmt p.entry _).scope i = _ from changed] at hst
      rcases Array.mem_push.1 hst with hst | rfl
      · exact defined hst
      · exact fun hmem => by cases hmem
  have symbols (i : ScopeId) (hi : i ≠ p.entry) (e : String × VarId)
      (he : e ∈ (((p.define p.entry v).addStmt p.entry (.create p.vars.size type span)).scope i).symbols) :
      e.2 ≠ p.vars.size := by
    have outer := (scope_modifyScope (p.define p.entry v) p.entry
      (fun s => { s with body := s.body.push (.create p.vars.size type span) }) i).resolve_right
      fun hc => hi hc.1
    have inner := (scope_modifyScope { p with vars := p.vars.push v } p.entry
      (·.bind v.name p.vars.size) i).resolve_right fun hc => hi hc.1
    have hscope : ((p.define p.entry v).addStmt p.entry (.create p.vars.size type span)).scope i =
        p.scope i := outer.trans inner
    rw [hscope] at he
    exact Nat.ne_of_lt (h.symbols i e he).1
  have fresh : p.vars.size ∉ p.io := fun hmem => Nat.lt_irrefl _ (h.io _ hmem)
  have size : p.vars.size < (p.vars.push v).size := by simp
  have nodup := h.nodup
  cases isOutput with
  | true =>
    refine made.addIo p.vars.size size rfl rfl rfl (fun w => ?_) ?_ exports symbols
    · show w ∈ p.inputs ++ (p.outputs ++ [p.vars.size]) ↔ w ∈ p.inputs ++ p.outputs ∨ w = p.vars.size
      simp [or_assoc]
    · show (p.inputs ++ (p.outputs ++ [p.vars.size])).Nodup
      rw [← List.append_assoc]
      exact List.nodup_append.2 ⟨nodup, by simp, fun a ha b hb same => by
        rw [List.mem_singleton.1 hb] at same
        exact fresh (same ▸ ha)⟩
  | false =>
    refine made.addIo p.vars.size size rfl rfl rfl (fun w => ?_) ?_ exports symbols
    · show w ∈ p.inputs ++ [p.vars.size] ++ p.outputs ↔ w ∈ p.inputs ++ p.outputs ∨ w = p.vars.size
      simp only [List.mem_append, List.mem_singleton]
      constructor <;> rintro ((h | h) | h) <;> simp [h]
    · show (p.inputs ++ [p.vars.size] ++ p.outputs).Nodup
      rw [List.append_assoc]
      refine (List.Perm.nodup_iff ?_).1 (List.nodup_cons.2 ⟨fresh, nodup⟩)
      exact List.perm_middle.symm

end Program

namespace Build

variable {α β : Type} {b : Builder}

theorem run_bind {m : Build α} {f : α → Build β} : (m >>= f).run b =
    match m.run b with
    | (.ok a, b') => (f a).run b'
    | (.error e, b') => (.error e, b') := by
  show (ExceptT.bindCont f (m.run b).1) (m.run b).2 = _
  rcases m.run b with ⟨r, b'⟩
  cases r <;> rfl

/-- When the step ends, the invariant holds again in the same place, and `Q` holds of the result. -/
def Keeps (b : Builder) (m : Build α) (Q : Builder → α → Prop) : Prop :=
  ∀ a b', m.run b = (.ok a, b') →
    (b'.program.InMaking ∧ b'.program.entry = b.program.entry ∧ b'.current = b.current) ∧ Q b' a

namespace Keeps

variable {m : Build α} {f : α → Build β} {Q : Builder → α → Prop} {R : Builder → β → Prop}

theorem pure {a : α} (h : b.program.InMaking) (hq : Q b a) : Keeps b (Pure.pure a) Q := by
  intro a' b' run
  cases run
  exact ⟨⟨h, rfl, rfl⟩, hq⟩

theorem fail {e : BuildError} : Keeps b (throw e) Q := fun _ _ run => by cases run

theorem refuse {p : Problem} : Keeps b (Build.refuse p) Q := fail

theorem bind (hm : Keeps b m Q)
    (hf : ∀ a b', b'.program.InMaking → b'.program.entry = b.program.entry → b'.current = b.current →
      Q b' a → Keeps b' (f a) R) : Keeps b (m >>= f) R := by
  intro a b'' run
  rw [run_bind] at run
  rcases hr : m.run b with ⟨r, b'⟩
  rw [hr] at run
  cases r with
  | error e => cases run
  | ok x =>
    obtain ⟨⟨hs, he, hc⟩, hq⟩ := hm x b' hr
    obtain ⟨⟨hs', he', hc'⟩, hr'⟩ := hf x b' hs he hc hq a b'' run
    exact ⟨⟨hs', he'.trans he, hc'.trans hc⟩, hr'⟩

theorem mono {Q' : Builder → α → Prop} (hm : Keeps b m Q)
    (h : ∀ a b', b'.program.InMaking → Q b' a → Q' b' a) : Keeps b m Q' := by
  intro a b' run
  obtain ⟨hs, hq⟩ := hm a b' run
  exact ⟨hs, h a b' hs.1 hq⟩

theorem get_bind {f : Builder → Build β} (h : Keeps b (f b) R) : Keeps b (get >>= f) R := h

theorem map {g : α → β} (hm : Keeps b m fun b' a => R b' (g a)) : Keeps b (g <$> m) R := by
  rw [map_eq_pure_bind]
  exact hm.bind fun a b' hs _ _ hq => .pure hs hq

theorem modify {g : Builder → Builder} {Q : Builder → PUnit → Prop} (h : (g b).program.InMaking)
    (he : (g b).program.entry = b.program.entry) (hc : (g b).current = b.current) (hq : Q (g b) ()) :
    Keeps b (modify g) Q := by
  intro u b' run
  cases run
  exact ⟨⟨h, he, hc⟩, hq⟩

end Keeps

section Steps

variable (h : b.program.InMaking)

include h

theorem keeps_emit (st : Stmt) (hst : st.Plain b.program.io) (hex : st.exports = []) :
    Keeps b (emit st) fun _ _ => True := by
  refine .get_bind (.modify (h.addStmt hst fun v hv => ?_) rfl rfl trivial)
  rw [hex] at hv
  cases hv

theorem keeps_emit_static {body : ScopeId} {exports : List VarId} {span : Span}
    (hex : ∀ v ∈ exports, v ∉ b.program.io ∧ v < b.program.vars.size) :
    Keeps b (emit (.static body exports span)) fun _ _ => True :=
  .get_bind (.modify (h.addStmt (fun v hv => (hex v hv).1) fun v hv => (hex v hv).2) rfl rfl trivial)

theorem keeps_define {v : Variable} (hv : ∀ k, v.initial = some k → k.Plain) :
    Keeps b (define v) fun _ _ => True :=
  .get_bind (.bind (.modify (Q := fun _ _ => True) (h.define hv) rfl rfl trivial)
    fun _ _ hs _ _ _ => .pure hs trivial)

theorem keeps_defineIdent (id : Tree.Ident) : Keeps b (defineIdent id) fun _ _ => True :=
  keeps_define h fun _ hk => by cases hk

/-- The body of a new scope is built inside it, and the scope is not where the program starts. -/
theorem keeps_inNewScope {body : ScopeId → Build Unit}
    (hbody : ∀ id b', b'.program.InMaking → Keeps b' (body id) fun _ _ => True) :
    Keeps b (inNewScope body) fun b' id => id ≠ b'.program.entry := by
  intro id b' run
  have opened : (b.program.addScope (some b.current)).InMaking := h.addScope _
  have inside : (do body b.program.scopes.size; closeScope b.current; return b.program.scopes.size :
      Build ScopeId).run { b with
        program := b.program.addScope (some b.current)
        current := b.program.scopes.size
        included := [] :: b.included } = (.ok id, b') := run
  rw [run_bind] at inside
  rcases hr : (body b.program.scopes.size).run { b with
    program := b.program.addScope (some b.current)
    current := b.program.scopes.size
    included := [] :: b.included } with ⟨r, b₁⟩
  rw [hr] at inside
  cases r with
  | error e => cases inside
  | ok u =>
    obtain ⟨⟨hs, he, -⟩, -⟩ := hbody _ _ opened u b₁ hr
    cases inside
    refine ⟨⟨hs, he, rfl⟩, fun same => ?_⟩
    exact Nat.lt_irrefl _ (same.trans he ▸ h.entry)

theorem keeps_lookup (id : Tree.Ident) : Keeps b (lookup id) fun _ _ => True := by
  refine .get_bind ?_
  split
  · exact .pure h trivial
  · exact .refuse

theorem keeps_writable (id : Tree.Ident) : Keeps b (writable id) fun _ _ => True := by
  refine (keeps_lookup h id).bind fun v b' hs _ _ _ => .get_bind ?_
  dsimp only
  split
  · exact .refuse
  · exact .pure hs trivial

theorem keeps_targetIdent (e : Tree.Expr) : Keeps b (targetIdent e) fun _ _ => True := by
  fun_induction targetIdent e with
  | case1 id => exact .pure h trivial
  | case2 => exact .refuse
  | case3 base _ optional span hopt ih => exact ih
  | case4 e => exact .refuse

theorem keeps_property (name : String) (span : Span) : Keeps b (property name span) fun _ _ => True := by
  unfold property
  split
  · exact .pure h trivial
  · exact .pure h trivial
  · exact .refuse

end Steps

/-! ## Expressions -/

theorem allPlain_append {es fs : List Expr} : AllPlain (es ++ fs) ↔ AllPlain es ∧ AllPlain fs := by
  induction es with
  | nil => simp [AllPlain]
  | cons e es ih => simp [AllPlain, ih, and_assoc]

theorem indexesPlain_append {as bs : List IndexArg} :
    IndexesPlain (as ++ bs) ↔ IndexesPlain as ∧ IndexesPlain bs := by
  induction as with
  | nil => simp [IndexesPlain]
  | cons a as ih =>
    obtain ⟨e, optional⟩ := a
    simp [IndexesPlain, ih, and_assoc]

mutual

theorem keeps_value : (e : Tree.Expr) → ∀ {b : Builder}, b.program.InMaking →
    Keeps b (value e) fun _ v => v.Plain
  | .name id, b, h => by
    rw [value]
    exact (keeps_lookup h id).bind fun v b₁ h₁ _ _ _ => .pure h₁ trivial
  | .int v span, b, h => by
    rw [value]
    split
    · exact .refuse
    · exact .pure h trivial
  | .float v span, b, h => by
    rw [value]
    exact .pure h trivial
  | .array items span, b, h => by
    rw [value]
    exact (keeps_values items h).bind fun vs b₁ h₁ _ _ hvs => .pure h₁ hvs
  | .arrayType dims base span, b, h => by
    rw [value]
    refine (keeps_values dims h).bind fun vs b₁ h₁ _ _ hvs => ?_
    exact (keeps_value base h₁).bind fun v b₂ h₂ _ _ hv => .pure h₂ ⟨hvs, hv⟩
  | .openBound span, b, h => by
    rw [value]
    exact .pure h trivial
  | .upperBound upper span, b, h => by
    rw [value]
    exact (keeps_value upper h).bind fun u b₁ h₁ _ _ hu => .pure h₁ hu
  | .closedBound lower upper span, b, h => by
    rw [value]
    refine (keeps_value lower h).bind fun l b₁ h₁ _ _ hl => ?_
    exact (keeps_value upper h₁).bind fun u b₂ h₂ _ _ hu => .pure h₂ ⟨hl, hu⟩
  | .index base index optional span, b, h => by
    rw [value]
    refine (keeps_value base h).bind fun v b₁ h₁ _ _ hv => ?_
    refine (keeps_value index h₁).bind fun i b₂ h₂ _ _ hi => ?_
    dsimp only
    split
    · rw [Expr.Plain] at hv
      refine .pure h₂ ⟨hv.1, ?_⟩
      exact indexesPlain_append.2 ⟨hv.2, hi, trivial⟩
    · exact .pure h₂ ⟨hv, hi, trivial⟩
  | .property base name nameSpan span, b, h => by
    rw [value]
    refine (keeps_value base h).bind fun v b₁ h₁ _ _ hv => ?_
    exact (keeps_property h₁ name nameSpan).bind fun q b₂ h₂ _ _ _ => .pure h₂ hv
  | .unary op operand span, b, h => by
    rw [value]
    exact (keeps_value operand h).bind fun v b₁ h₁ _ _ hv => .pure h₁ hv
  | .binary op left right span, b, h => by
    rw [value]
    refine (keeps_value left h).bind fun l b₁ h₁ _ _ hl => ?_
    exact (keeps_value right h₁).bind fun r b₂ h₂ _ _ hr => .pure h₂ ⟨hl, hr⟩
  | .call callee inputs explicit outs span, b, h => by
    rw [value]
    refine (keeps_lookup h callee).bind fun v b₁ h₁ _ _ _ => ?_
    refine (keeps_values inputs h₁).bind fun vs b₂ h₂ _ _ hvs => ?_
    split
    · refine (keeps_outputs false outs h₂).bind fun r b₃ h₃ _ _ hr => ?_
      dsimp only
      split
      · exact .pure h₃ ⟨hvs, hr⟩
      · exact .refuse
    · exact .pure h₂ ⟨hvs, trivial⟩
  | .decl type name span, b, h => by
    rw [value]
    exact .refuse

theorem keeps_values : (es : List Tree.Expr) → ∀ {b : Builder}, b.program.InMaking →
    Keeps b (values es) fun _ vs => AllPlain vs
  | [], b, h => by
    rw [values]
    exact .pure h trivial
  | e :: es, b, h => by
    rw [values]
    refine (keeps_value e h).bind fun v b₁ h₁ _ _ hv => ?_
    exact (keeps_values es h₁).bind fun vs b₂ h₂ _ _ hvs => .pure h₂ ⟨hv, hvs⟩

theorem keeps_outputs (seen : Bool) : (outs : List Tree.Output) → ∀ {b : Builder}, b.program.InMaking →
    Keeps b (outputs seen outs) fun _ r => OutputsPlain r.1
  | [], b, h => by
    rw [outputs]
    exact .pure h trivial
  | .inline span :: rest, b, h => by
    rw [outputs]
    have others {b : Builder} (h : b.program.InMaking) : Keeps b (do
        let (outs, inline) ← outputs true rest
        return (Output.inline span :: outs, inline)) fun _ r => OutputsPlain r.1 :=
      (keeps_outputs true rest h).bind fun r b₁ h₁ _ _ hr => .pure h₁ hr
    split
    · exact (Keeps.refuse (Q := fun _ _ => False)).bind fun _ _ _ _ _ never => never.elim
    · exact others h
  | .target e span :: rest, b, h => by
    rw [outputs]
    refine (keeps_target e h).bind fun t b₁ h₁ _ _ ht => ?_
    exact (keeps_outputs seen rest h₁).bind fun r b₂ h₂ _ _ hr => .pure h₂ ⟨ht, hr⟩

theorem keeps_target : (e : Tree.Expr) → ∀ {b : Builder}, b.program.InMaking →
    Keeps b (target e) fun _ t => t.Plain
  | .decl type name span, b, h => by
    rw [target]
    refine (keeps_value type h).bind fun v b₁ h₁ _ _ hv => ?_
    refine (keeps_defineIdent h₁ name).bind fun id b₂ h₂ _ _ _ => ?_
    exact (keeps_emit h₂ (.create _ _ _) hv rfl).bind fun _ b₃ h₃ _ _ _ => .pure h₃ trivial
  | .name id, b, h => by
    rw [target]
    exact (keeps_writable h id).bind fun v b₁ h₁ _ _ _ => .pure h₁ trivial
  | .index base index optional span, b, h => by
    rw [target]
    have rest {b : Builder} (h : b.program.InMaking) : Keeps b (do
        let v ← writable (← targetIdent base)
        let inner ← targetIndexes base
        return Target.mk v (inner ++ [← value index]) span) fun _ t => t.Plain := by
      refine (keeps_targetIdent h base).bind fun id b₁ h₁ _ _ _ => ?_
      refine (keeps_writable h₁ id).bind fun v b₂ h₂ _ _ _ => ?_
      refine (keeps_targetIndexes base h₂).bind fun es b₃ h₃ _ _ hes => ?_
      refine (keeps_value index h₃).bind fun i b₄ h₄ _ _ hi => .pure h₄ ?_
      exact allPlain_append.2 ⟨hes, hi, trivial⟩
    split
    · exact (Keeps.refuse (Q := fun _ _ => False)).bind fun _ _ _ _ _ never => never.elim
    · exact rest h
  | .int .., b, h | .float .., b, h | .array .., b, h | .arrayType .., b, h | .openBound _, b, h
  | .upperBound .., b, h | .closedBound .., b, h | .property .., b, h | .unary .., b, h
  | .binary .., b, h | .call .., b, h => by
    simp only [target]
    exact .refuse

theorem keeps_targetIndexes : (e : Tree.Expr) → ∀ {b : Builder}, b.program.InMaking →
    Keeps b (targetIndexes e) fun _ es => AllPlain es
  | .index base index _ _, b, h => by
    rw [targetIndexes]
    refine (keeps_targetIndexes base h).bind fun es b₁ h₁ _ _ hes => ?_
    refine (keeps_value index h₁).bind fun i b₂ h₂ _ _ hi => .pure h₂ ?_
    exact allPlain_append.2 ⟨hes, hi, trivial⟩
  | .name _, b, h | .decl .., b, h | .int .., b, h | .float .., b, h | .array .., b, h
  | .arrayType .., b, h | .openBound _, b, h | .upperBound .., b, h | .closedBound .., b, h
  | .property .., b, h | .unary .., b, h | .binary .., b, h | .call .., b, h => by
    simp only [targetIndexes]
    exact .pure h trivial

end

theorem keeps_callAlone (h : b.program.InMaking) (e : Tree.Expr) :
    Keeps b (callAlone e) fun _ v => v.Plain := by
  unfold callAlone
  split
  · refine (keeps_lookup h _).bind fun v b₁ h₁ _ _ _ => ?_
    refine (keeps_values _ h₁).bind fun vs b₂ h₂ _ _ hvs => ?_
    split
    · refine Keeps.bind (Q := fun _ outs => OutputsPlain outs) (.map (keeps_outputs false _ h₂))
        fun outs b₃ h₃ _ _ houts => .pure h₃ ⟨hvs, houts⟩
    · exact .pure h₂ ⟨hvs, trivial⟩
  · exact keeps_value _ h

/-! ## Statements -/

theorem keeps_checkSignature (h : b.program.InMaking) (callee : String) (seen ids : List Tree.Ident) :
    Keeps b (checkSignature callee seen ids) fun _ _ => True := by
  induction ids generalizing seen with
  | nil => exact .pure h trivial
  | cons id rest ih =>
    unfold checkSignature
    split
    · exact .refuse
    · exact ih (id :: seen)

theorem keeps_mapM {xs : List α} {f : α → Build β} (h : b.program.InMaking)
    (hf : ∀ x b, b.program.InMaking → Keeps b (f x) fun _ _ => True) :
    Keeps b (xs.mapM f) fun _ _ => True := by
  induction xs generalizing b with
  | nil => exact .pure h trivial
  | cons x xs ih =>
    rw [List.mapM_cons]
    refine (hf x b h).bind fun y b₁ h₁ _ _ _ => ?_
    exact (ih h₁).bind fun ys b₂ h₂ _ _ _ => .pure h₂ trivial

theorem keeps_macroOutputs (h : b.program.InMaking) (body : ScopeId) (callee : String) (header : Span)
    (outs : List Tree.Ident) : Keeps b (macroOutputs body callee header outs) fun _ _ => True := by
  refine keeps_mapM h fun id b h => .get_bind ?_
  split
  · exact .pure h trivial
  · exact .refuse

/-- What a block exports is bound in its body, so it is no input or output. -/
theorem keeps_exportNames (h : b.program.InMaking) {body : ScopeId} (hbody : body ≠ b.program.entry)
    (names : List Tree.Ident) : Keeps b (exportNames body names) fun b' vs =>
      ∀ v ∈ vs, v ∉ b'.program.io ∧ v < b'.program.vars.size := by
  have all : Keeps b (exportNames body names) fun b' vs => (b'.program.io = b.program.io ∧
      b'.program.vars = b.program.vars) ∧
      ∀ v ∈ vs, v ∉ b.program.io ∧ v < b.program.vars.size := by
    unfold exportNames
    induction names generalizing b with
    | nil =>
      rw [List.mapM_nil]
      exact .pure h ⟨⟨rfl, rfl⟩, fun v hv => by cases hv⟩
    | cons id rest ih =>
      rw [List.mapM_cons]
      refine Keeps.bind (Q := fun b' v => (b'.program.io = b.program.io ∧
        b'.program.vars = b.program.vars) ∧ v ∉ b.program.io ∧ v < b.program.vars.size) ?_
        fun v b₁ h₁ he _ hv => ?_
      · refine .get_bind ?_
        split
        · rename_i v found
          have hmem : (id.name, v) ∈ (b.program.scope body).symbols := by
            obtain ⟨before, after, heq, -⟩ := List.lookup_eq_some_iff.1 found
            simp [heq]
          obtain ⟨hlt, hio⟩ := h.symbols body _ hmem
          refine Keeps.bind (Q := fun b' _ => b'.program.io = b.program.io ∧
            b'.program.vars = b.program.vars) (.modify (h.bind hlt fun _ => hio hbody) rfl rfl ⟨rfl, rfl⟩) ?_
          exact fun _ b₁ h₁ _ _ hb₁ => .pure h₁ ⟨hb₁, hio hbody, hlt⟩
        · exact .refuse
      · obtain ⟨⟨hio, hvars⟩, hv⟩ := hv
        refine (ih h₁ (he ▸ hbody)).bind fun vs b₂ h₂ _ _ hvs => .pure h₂ ⟨?_, fun w hw => ?_⟩
        · exact ⟨hvs.1.1.trans hio, hvs.1.2.trans hvars⟩
        · rcases List.mem_cons.1 hw with rfl | hw
          · exact hv
          · have := hvs.2 w hw
            rw [hio, hvars] at this
            exact this
  refine all.mono fun vs b' _ hvs => ?_
  rw [hvs.1.1, hvs.1.2]
  exact hvs.2

theorem keeps_ioNames (h : b.program.InMaking) (hc : b.current = b.program.entry) {isOutput : Bool}
    {type : Expr} (htype : type.Plain) {span : Span} {names : List Tree.Ident} :
    Keeps b (ioNames isOutput type span names) fun _ _ => True := by
  unfold ioNames
  induction names generalizing b with
  | nil => exact .pure h trivial
  | cons id rest ih =>
    have one : Keeps b (do
        let v ← defineIdent id
        emit (.create v type span)
        change fun p =>
          if isOutput then { p with outputs := p.outputs ++ [v] } else { p with inputs := p.inputs ++ [v] })
        fun _ _ => True := by
      intro u b' run
      obtain rfl : _ = b' := congrArg Prod.snd run
      have bare : ∀ k, (⟨id.name, id.span, none, false⟩ : Variable).initial = some k → k.Plain := by
        intro k hk
        cases hk
      have made := h.declare bare htype span isOutput
      rw [← hc] at made
      cases isOutput <;> exact ⟨⟨made, rfl, rfl⟩, trivial⟩
    exact one.bind fun _ b₁ h₁ he hc₁ _ => ih h₁ (hc₁.trans (hc.trans he.symm))

mutual

theorem keeps_stmt {take : List UInt8 → Span → Build Unit}
    (htake : ∀ path span b, b.program.InMaking → Keeps b (take path span) fun _ _ => True) :
    (st : Tree.Stmt) → ∀ {b : Builder}, b.program.InMaking → Keeps b (stmt take st) fun _ _ => True
  | .io isOutput type names span, b, h => by
    rw [stmt]
    refine .get_bind ?_
    split
    · exact (Keeps.refuse (Q := fun _ _ => False)).bind fun _ _ _ _ _ never => never.elim
    · rename_i hc
      refine (keeps_value type h).bind fun v b₁ h₁ he hc₁ hv => ?_
      exact keeps_ioNames h₁ (hc₁.trans ((Decidable.not_not.1 hc).trans he.symm)) hv
  | .decl type name declSpan _, b, h => by
    rw [stmt]
    refine (keeps_value type h).bind fun v b₁ h₁ _ _ hv => ?_
    refine (keeps_defineIdent h₁ name).bind fun id b₂ h₂ _ _ _ => ?_
    exact keeps_emit h₂ (.create _ _ _) hv rfl
  | .assign place source span, b, h => by
    rw [stmt]
    refine (keeps_value source h).bind fun v b₁ h₁ _ _ hv => ?_
    refine (keeps_target place h₁).bind fun t b₂ h₂ _ _ ht => ?_
    exact keeps_emit h₂ (.assign t v span) ⟨ht, hv⟩ rfl
  | .macroDef name inputs outs body header span, b, h => by
    rw [stmt]
    refine (keeps_inNewScope h fun scope b₁ h₁ => ?_).bind fun scope b₁ h₁ _ _ _ => ?_
    · refine (keeps_checkSignature h₁ _ _ _).bind fun _ b₂ h₂ _ _ _ => ?_
      refine Keeps.bind (Q := fun _ _ => True) (.modify h₂ rfl rfl trivial) fun _ b₃ h₃ _ _ _ => ?_
      refine (keeps_mapM h₃ fun id b h => keeps_defineIdent h id).bind fun ins b₄ h₄ _ _ _ => ?_
      refine Keeps.bind (Q := fun _ _ => True) (.modify (h₄.modifyScope (fun _ _ hst => .inl hst)
        fun _ _ he => .inl he) rfl rfl trivial) fun _ b₅ h₅ _ _ _ => ?_
      refine (keeps_block htake body h₅).bind fun _ b₆ h₆ _ _ _ => ?_
      refine (keeps_macroOutputs h₆ _ _ _ _).bind fun outs b₇ h₇ _ _ _ => ?_
      refine Keeps.bind (Q := fun _ _ => True) (.modify (h₇.modifyScope (fun _ _ hst => .inl hst)
        fun _ _ he => .inl he) rfl rfl trivial) fun _ b₈ h₈ _ _ _ => ?_
      exact .modify h₈ rfl rfl trivial
    · refine (keeps_define h₁ fun k hk => ?_).bind fun v b₂ h₂ _ _ _ => ?_
      · cases hk
        trivial
      · exact keeps_emit h₂ (.create _ _ _) (Bound.isPositive_exactly (Ty.isPositive_prim _)) rfl
  | .call call span, b, h => by
    rw [stmt]
    refine (keeps_callAlone h call).bind fun v b₁ h₁ _ _ hv => ?_
    exact keeps_emit h₁ (.expr v span) hv rfl
  | .expr e span, b, h => by
    rw [stmt]
    refine (keeps_value e h).bind fun v b₁ h₁ _ _ hv => ?_
    exact keeps_emit h₁ (.expr v span) hv rfl
  | .branch cs otherwise span, b, h => by
    rw [stmt]
    refine (keeps_clauses htake cs h).bind fun cs' b₁ h₁ _ _ hcs => ?_
    refine (keeps_otherwiseScope htake otherwise h₁).bind fun o b₂ h₂ _ _ _ => ?_
    exact keeps_emit h₂ (.branch cs' o span) hcs rfl
  | .loop counter start stop noUnroll body span, b, h => by
    rw [stmt]
    refine (keeps_value start h).bind fun l b₁ h₁ _ _ hl => ?_
    refine (keeps_value stop h₁).bind fun u b₂ h₂ _ _ hu => ?_
    refine .get_bind ?_
    refine (keeps_inNewScope h₂ fun scope b₃ h₃ => ?_).bind fun scope b₃ h₃ _ _ _ => ?_
    · refine (keeps_defineIdent h₃ counter).bind fun _ b₄ h₄ _ _ _ => ?_
      exact keeps_block htake body h₄
    · exact keeps_emit h₃ (.loop _ l u scope _ span) ⟨hl, hu⟩ rfl
  | .static exports body span, b, h => by
    rw [stmt]
    refine (keeps_inNewScope h fun scope b₁ h₁ => keeps_block htake body h₁).bind
      fun scope b₁ h₁ _ _ hscope => ?_
    refine (keeps_exportNames h₁ hscope exports).bind fun vs b₂ h₂ _ _ hvs => ?_
    exact keeps_emit_static h₂ hvs
  | .assert condition span, b, h => by
    rw [stmt]
    refine (keeps_value condition h).bind fun v b₁ h₁ _ _ hv => ?_
    exact keeps_emit h₁ (.assert v span) hv rfl
  | .ret span, b, h => by
    rw [stmt]
    refine .get_bind ?_
    split
    · exact (Keeps.refuse (Q := fun _ _ => False)).bind fun _ _ _ _ _ never => never.elim
    · exact keeps_emit h (.ret span) trivial rfl
  | .includeFile path span, b, h => by
    rw [stmt]
    exact htake path span b h
  | .block (.mk statements span), b, h => by
    rw [stmt]
    refine (keeps_inNewScope h fun scope b₁ h₁ => keeps_stmts htake statements h₁).bind
      fun scope b₁ h₁ _ _ _ => ?_
    exact keeps_emit h₁ (.block scope span) trivial rfl

theorem keeps_block {take : List UInt8 → Span → Build Unit}
    (htake : ∀ path span b, b.program.InMaking → Keeps b (take path span) fun _ _ => True) :
    (body : Tree.Block) → ∀ {b : Builder}, b.program.InMaking → Keeps b (block take body) fun _ _ => True
  | .mk statements _, b, h => by
    rw [block]
    exact keeps_stmts htake statements h

theorem keeps_stmts {take : List UInt8 → Span → Build Unit}
    (htake : ∀ path span b, b.program.InMaking → Keeps b (take path span) fun _ _ => True) :
    (ss : List Tree.Stmt) → ∀ {b : Builder}, b.program.InMaking → Keeps b (stmts take ss) fun _ _ => True
  | [], b, h => by
    rw [stmts]
    exact .pure h trivial
  | st :: ss, b, h => by
    rw [stmts]
    exact (keeps_stmt htake st h).bind fun _ b₁ h₁ _ _ _ => keeps_stmts htake ss h₁

theorem keeps_clauses {take : List UInt8 → Span → Build Unit}
    (htake : ∀ path span b, b.program.InMaking → Keeps b (take path span) fun _ _ => True) :
    (cs : List Tree.Clause) → ∀ {b : Builder}, b.program.InMaking →
    Keeps b (clauses take cs) fun _ cs' => ∀ x ∈ cs', x.condition.Plain
  | [], b, h => by
    rw [clauses]
    exact .pure h fun x hx => by cases hx
  | .mk condition body :: rest, b, h => by
    rw [clauses]
    refine (keeps_value condition h).bind fun v b₁ h₁ _ _ hv => ?_
    refine (keeps_inNewScope h₁ fun scope b₂ h₂ => keeps_block htake body h₂).bind
      fun scope b₂ h₂ _ _ _ => ?_
    refine (keeps_clauses htake rest h₂).bind fun cs b₃ h₃ _ _ hcs => .pure h₃ fun x hx => ?_
    rcases List.mem_cons.1 hx with rfl | hx
    · exact hv
    · exact hcs x hx

theorem keeps_otherwiseScope {take : List UInt8 → Span → Build Unit}
    (htake : ∀ path span b, b.program.InMaking → Keeps b (take path span) fun _ _ => True) :
    (body : Option Tree.Block) → ∀ {b : Builder}, b.program.InMaking →
    Keeps b (otherwiseScope take body) fun _ _ => True
  | none, b, h => by
    rw [otherwiseScope]
    exact .pure h trivial
  | some body, b, h => by
    rw [otherwiseScope]
    refine .map ((keeps_inNewScope h fun scope b₁ h₁ => keeps_block htake body h₁).mono ?_)
    exact fun _ _ _ _ => trivial

end

theorem keeps_loadFile (h : b.program.InMaking) (path : List UInt8) (span : Span) :
    Keeps b (loadFile path span) fun _ _ => True := by
  refine .get_bind ?_
  split
  · exact .refuse
  · split
    · rename_i library file _
      refine Keeps.bind (Q := fun _ _ => True) ?_ fun _ b₁ h₁ _ _ _ => .pure h₁ trivial
      intro u b' run
      cases run
      exact ⟨⟨h, rfl, rfl⟩, trivial⟩
    · exact .refuse
    · exact .fail

theorem keeps_takeFile (fuel : Nat) (path : List UInt8) (span : Span) (b : Builder)
    (h : b.program.InMaking) : Keeps b (takeFile fuel path span) fun _ _ => True := by
  induction fuel generalizing path span b with
  | zero => exact .pure h trivial
  | succ fuel ih =>
    refine (keeps_loadFile h path span).bind fun file b₁ h₁ _ _ _ => .get_bind ?_
    split
    · exact .pure h₁ trivial
    · refine Keeps.bind (Q := fun _ _ => True) (.modify h₁ rfl rfl trivial) fun _ b₂ h₂ _ _ _ => ?_
      refine .get_bind ?_
      split
      · exact .fail
      · exact keeps_stmts ih _ h₂

end Build

/-! ## Programs -/

namespace Program

variable {p : Program}

theorem InMaking.addConstant (h : p.InMaking) {scope : ScopeId} {name : String} {ty : Ty}
    {value : Constant} (hty : ty.IsPositive) (hvalue : value.Plain) :
    (p.addConstant scope name ty value).InMaking := by
  refine (h.define fun k hk => ?_).addStmt ?_ fun v hv => ?_
  · cases hk
    exact hvalue
  · exact Bound.isPositive_exactly hty
  · cases hv

theorem InMaking.addBuiltinMacro (h : p.InMaking) {scope : ScopeId} {m : BuiltinMacro} :
    (p.addBuiltinMacro scope m).InMaking := by
  have bare {name : String} : ∀ k, (⟨name, .builtin, none, false⟩ : Variable).initial = some k → k.Plain := by
    intro k hk
    cases hk
  refine InMaking.addConstant ?_ (Ty.isPositive_prim _) trivial
  refine InMaking.modifyScope ?_ (fun _ _ hst => .inl hst) fun _ _ he => .inl he
  refine InMaking.addStmt (InMaking.addStmt ?_ ?_ fun v hv => by cases hv) ?_ fun v hv => by cases hv
  · exact ((h.addScope _).define bare).define bare
  · exact fun t ht => by cases ht
  · exact ⟨trivial, trivial⟩

theorem io_addConstant (p : Program) (scope : ScopeId) (name : String) (ty : Ty) (value : Constant) :
    (p.addConstant scope name ty value).io = p.io := by
  simp only [addConstant, define, addStmt, modifyScope, io]

theorem io_addBuiltinMacro (p : Program) (scope : ScopeId) (m : BuiltinMacro) :
    (p.addBuiltinMacro scope m).io = p.io := by
  rw [addBuiltinMacro, io_addConstant]
  simp only [addScope, define, addStmt, modifyScope, io]

theorem isPlain_builtinConstants :
    ∀ x ∈ builtinConstants, x.2.1.IsPositive ∧ x.2.2.Plain := by
  have auto : Bound.auto.IsPositive := fun t ht => by cases ht
  simp [builtinConstants, Constant.Plain, Bound.isPositive_exactly, auto]

/-- Where a program starts can still be chosen while it has no inputs and outputs. -/
theorem InMaking.withEntry (h : p.InMaking) (hio : p.io = []) {entry : ScopeId}
    (hentry : entry < p.scopes.size) : ({ p with entry := entry } : Program).InMaking := by
  refine ⟨hentry, h.stmts, fun i e he => ⟨(h.symbols i e he).1, fun _ hmem => ?_⟩, h.initial, h.io, h.nodup⟩
  have hmem : e.2 ∈ p.io := hmem
  rw [hio] at hmem
  cases hmem

/-- Folding over a list keeps a program in the making without inputs and outputs. -/
theorem InMaking.foldl {α : Type} {f : Program → α → Program} {xs : List α}
    (hf : ∀ p, ∀ x ∈ xs, p.InMaking ∧ p.io = [] → (f p x).InMaking ∧ (f p x).io = [])
    (h : p.InMaking ∧ p.io = []) : (xs.foldl f p).InMaking ∧ (xs.foldl f p).io = [] := by
  induction xs generalizing p with
  | nil => exact h
  | cons x xs ih =>
    exact ih (fun p y hy => hf p y (List.mem_cons_of_mem _ hy)) (hf p x List.mem_cons_self h)

theorem inMaking_start : (({} : Program).addScope none).InMaking ∧ (({} : Program).addScope none).io = [] := by
  refine ⟨⟨Nat.one_pos, fun i st hst => ?_, fun i e he => ?_, fun v hv => ?_, fun v hv => ?_, .nil⟩, rfl⟩
  · match i with
    | 0 => simp [addScope, scope] at hst
    | n + 1 => simp [addScope, scope] at hst
  · match i with
    | 0 => simp [addScope, scope] at he
    | n + 1 => simp [addScope, scope] at he
  · simp [addScope] at hv
  · cases hv

theorem inMaking_initial : initial.InMaking := by
  unfold initial
  dsimp only
  generalize hp : ({} : Program).addScope none = p
  generalize hq : builtinConstants.foldl (fun p x => p.addConstant 0 x.1 x.2.1 x.2.2) p = q
  generalize hr : builtinMacros.foldl (fun p m => p.addBuiltinMacro 0 m) q = r
  have start : p.InMaking ∧ p.io = [] := hp ▸ inMaking_start
  have constants : q.InMaking ∧ q.io = [] := by
    rw [← hq]
    refine InMaking.foldl (fun p x hx h => ⟨?_, (io_addConstant ..).trans h.2⟩) start
    obtain ⟨hty, hvalue⟩ := isPlain_builtinConstants x hx
    exact h.1.addConstant hty hvalue
  have macros : r.InMaking ∧ r.io = [] := by
    rw [← hr]
    exact InMaking.foldl (fun p m _ h => ⟨h.1.addBuiltinMacro, (io_addBuiltinMacro ..).trans h.2⟩) constants
  refine (macros.1.addScope (some 0)).withEntry macros.2 ?_
  simp only [addScope, Array.size_push]
  exact Nat.lt_succ_self _

end Program

/-- A program built from a tree is plain. -/
theorem plain_of_ofTree {lib lib' : Library} {file : Nat} {tree : Tree.File} {p : Program}
    (h : ofTree lib file tree = (.ok p, lib')) : p.Plain := by
  unfold ofTree at h
  dsimp only at h
  split at h
  · rename_i u b run
    cases h
    have kept : Build.Keeps ⟨lib, Program.initial, Program.initial.entry, [[file]], 0⟩
        (Build.stmts (Build.takeFile (includeBound lib)) tree.statements) fun _ _ => True :=
      Build.keeps_stmts (Build.keeps_takeFile _) tree.statements Program.inMaking_initial
    exact (kept u b run).1.1.plain
  · cases h

end SignalLang.Scoped
