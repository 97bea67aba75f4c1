import SignalLang.Proofs.Staged.Entering
import SignalLang.Proofs.Staged.Termination

/-!
# Programs that cannot break down

In a program whose calls are direct and whose declarations last, no fault is reached. Working out an expression ends with
a value of the type it comes with, or with a problem (`safe_expression`). A statement ends where what it declares is in
sight (`ends_statement`), and so do the statements of a scope up to the first that returns (`ends_statements`). By induction
on the depth every scope can then be entered at its point (`enters_block`): the scopes around a point are laid out
lexically, and a call goes to a lower macro, so what a scope makes hides nothing that is in sight around it.

For whole programs this is `resolveTo_faultless`, and with the bound on the depth `resolveTo_problem`.
-/

namespace SignalLang.Staged

open Scoped (VarId Layout)
open Datum (IsA May)

variable {p : Scoped.Program} {L : Layout} {Γ Γ' M : VarId → Prop} {s s' : State} {c : Context}

/-- A call names a macro, none of its targets has a call, and what it makes is lower than all that is in sight. -/
structure Callable (p : Scoped.Program) (L : Layout) (Γ M : VarId → Prop) (table : Table) (call : Scoped.Call) : Prop where
  named : ∃ site, (p.var call.callee).initial = some (.macroRef site)
  plain : Scoped.outputCalls call.outputs = []
  ground : ∃ rank, p.View L rank Γ ∧ TableAbove L rank table ∧ ∀ v, L.height v < rank → M v

/-- All calls of a list can be made. -/
def AllCallable (p : Scoped.Program) (L : Layout) (Γ M : VarId → Prop) (table : Table) (calls : List Scoped.Call) : Prop :=
  ∀ call ∈ calls, Callable p L Γ M table call

namespace AllCallable

variable {table : Table} {xs ys : List Scoped.Call}

theorem left (h : AllCallable p L Γ M table (xs ++ ys)) : AllCallable p L Γ M table xs :=
  fun x hx => h x (List.mem_append_left _ hx)

theorem right (h : AllCallable p L Γ M table (xs ++ ys)) : AllCallable p L Γ M table ys :=
  fun y hy => h y (List.mem_append_right _ hy)

/-- A step that leaves the table as it was leaves the calls possible. -/
theorem goes (h : AllCallable p L Γ M s.table xs) (g : Goes p L Γ' M s s') : AllCallable p L Γ M s'.table xs :=
  g.table ▸ h

end AllCallable

/-- A place stays right while its type is settled, and while no type is settled. -/
theorem Place.Proper.goes {q : Place} (h : q.Proper p Γ s) (g : Goes p L Γ M s s')
    (kept : q.ty.isSome ∨ s'.records = s.records) : q.Proper p Γ s' := by
  obtain ⟨r, stands, unsettled, settled⟩ := h.stands
  refine ⟨h.sight, h.initial, ⟨r, ?_, unsettled, settled⟩, h.fits⟩
  rcases kept with some | same
  · obtain ⟨ty, hty⟩ := Option.isSome_iff_exists.1 some
    obtain ⟨whole, actual, -⟩ := settled ty hty
    exact g.stands h.sight stands (actual ▸ rfl)
  · obtain ⟨id, r', stands'⟩ := g.sees.stands q.var h.sight
    obtain ⟨rfl, rfl⟩ := stands'.unique (g.table ▸ stands.lookup) (same ▸ stands.record)
    exact stands'

namespace Stage

variable {run : Scoped.ScopeId → Stage Unit}

/-! ## Expressions -/

mutual

theorem safe_expression (hrun : Admits c L run) : (e : Scoped.Expr) → ∀ {Γ M : VarId → Prop} {s : State},
    e.Uses Γ (c.source.Settable Γ) → AllCallable c.source L Γ M s.table e.calls → s.Sees c.source L Γ →
    Safe c L Γ M s (expression run e) fun s' a => a.Proper Γ s'
  | .literal value span, Γ, M, s, he, hc, h => by
    rw [expression]
    have has := Datum.isA_ofConstant s.table he
    refine .get_bind (.pure h ⟨Constant.Plain.isPositive_ty he, ?_⟩)
    show (Datum.ofConstant s.table value).Has _ value.ty.dims
    rw [has.2]
    exact has.1
  | .var id span, Γ, M, s, he, hc, h => by
    rw [expression]
    exact (safe_readVar h he span).mono fun _ _ _ ha => ha.2.1
  | .collect [] span, Γ, M, s, he, hc, h => by
    rw [expression]
    exact .refuse
  | .collect (e :: es) span, Γ, M, s, he, hc, h => by
    rw [expression]
    rw [Scoped.Expr.calls, Scoped.callsOf] at hc
    refine (safe_expression hrun e he.1 hc.left h).bind fun first s₁ g₁ hfirst => ?_
    refine (safe_items hrun first es he.2 (hc.right.goes g₁) g₁.sees).bind fun rest s₂ g₂ hrest => ?_
    refine safe_collected g₂.sees fun a ha => ?_
    rcases List.mem_cons.1 ha with rfl | ha
    · exact ⟨hfirst.goes g₂, rfl⟩
    · exact hrest a ha
  | .openBound span, Γ, M, s, he, hc, h => by
    rw [expression]
    exact safe_boundValue h _ _ _
  | .upperBound upper span, Γ, M, s, he, hc, h => by
    rw [expression]
    refine (safe_expression hrun upper he hc h).bind fun u s₁ g₁ hu => .still (safe_concreteTypeOf hu) fun t _ => ?_
    exact safe_boundValue g₁.sees _ _ _
  | .closedBound lower upper span, Γ, M, s, he, hc, h => by
    rw [expression]
    rw [Scoped.Expr.calls] at hc
    refine (safe_expression hrun lower he.1 hc.left h).bind fun l s₁ g₁ hl => .still (safe_concreteTypeOf hl) fun t _ => ?_
    refine (safe_expression hrun upper he.2 (hc.right.goes g₁) g₁.sees).bind fun u s₂ g₂ hu =>
      .still (safe_concreteTypeOf hu) fun t' _ => ?_
    exact safe_boundValue g₂.sees _ _ _
  | .arrayType dims base span, Γ, M, s, he, hc, h => by
    rw [expression]
    rw [Scoped.Expr.calls] at hc
    refine (safe_lengthList hrun dims he.1 hc.left h).bind fun lengths s₁ g₁ hlengths => ?_
    refine (safe_expression hrun base he.2 (hc.right.goes g₁) g₁.sees).bind fun b s₂ g₂ hb => ?_
    refine .still (safe_typeOf hb) fun t ht => .pure g₂.sees (Value.proper_prim (Datum.isA_type ?_))
    exact ht.1.wrap hlengths
  | .index base indexes span, Γ, M, s, he, hc, h => by
    rw [expression]
    rw [Scoped.Expr.calls] at hc
    refine (safe_expression hrun base he.1 hc.left h).bind fun a s₁ g₁ ha => ?_
    exact safe_indexed hrun a span indexes he.2 (hc.right.goes g₁) g₁.sees ha
  | .property base property span, Γ, M, s, he, hc, h => by
    rw [expression]
    exact (safe_expression hrun base he hc h).bind fun a s₁ g₁ ha => safe_propertyValue g₁.sees ha
  | .unary op operand span, Γ, M, s, he, hc, h => by
    rw [expression]
    exact (safe_expression hrun operand he hc h).bind fun a s₁ g₁ ha => safe_unaryValue g₁.sees ha
  | .binary op left right span, Γ, M, s, he, hc, h => by
    rw [expression]
    rw [Scoped.Expr.calls] at hc
    refine (safe_expression hrun left he.1 hc.left h).bind fun l s₁ g₁ hl => ?_
    refine (safe_expression hrun right he.2 (hc.right.goes g₁) g₁.sees).bind fun r s₂ g₂ hr => ?_
    have hl := hl.goes g₂
    split
    · exact safe_asTypeValue g₂.sees hl hr
    · exact safe_isInValue g₂.sees hr
    · exact safe_binaryValue g₂.sees hl hr
  | .call callee calleeSpan inputs outputs span, Γ, M, s, he, hc, h => by
    rw [expression]
    rw [Scoped.Expr.calls] at hc
    obtain ⟨⟨site, initial⟩, plain, rank, view, above, makes⟩ := hc _ List.mem_cons_self
    have inner : AllCallable c.source L Γ M s.table (Scoped.callsOf inputs) :=
      fun x hx => hc x (List.mem_cons_of_mem _ (List.mem_append_left _ hx))
    refine (safe_readVar h he.1 calleeSpan).bind fun a s₁ g₁ ha => .check fun hty => ?_
    obtain ⟨-, ha, found⟩ := ha
    obtain ⟨content, ty, aspan⟩ := a
    obtain rfl : ty = .macroRef := not_not.1 hty
    dsimp only
    split
    · exact .refuse
    · rename_i site' context
      -- What is read is the macro that the name stands for, with a context in which its body can be entered.
      obtain ⟨rfl, armed⟩ := g₁.sees.armed callee he.1 site site' context initial (found site' context rfl)
      refine .read_bind ((safe_values hrun inputs he.2.1 (inner.goes g₁) g₁.sees).bind fun given s₂ g₂ hgiven => ?_)
      refine .check fun inputCount => .check fun _ => (safe_newScope g₂.sees).bind fun scope s₃ g₃ _ => ?_
      have table : s₃.table = s.table := g₃.table.trans (g₂.table.trans g₁.table)
      have calls : s₃.Calls c.source L rank Γ M callee site' context := by
        refine ⟨g₃.sees, view, table ▸ above, makes, he.1, initial, ?_⟩
        rw [g₃.table, g₂.table]
        exact armed
      refine safe_inlineCall hrun calls (fun a ha => (hgiven a ha).goes g₃) (not_not.1 inputCount) fun Δ t ht more hv => ?_
      refine safe_callOutputs hrun _ span _ outputs ?_ ?_ hv ht (Value.proper_prim Datum.isA_void)
      · exact he.2.2.mono more fun v hv => ⟨more v hv.1, hv.2⟩
      · rw [plain]
        exact nofun
    · rename_i d hne
      obtain ⟨site', context, rfl⟩ := Datum.IsA.macroRef ha.content
      exact (hne site' context rfl).elim

theorem safe_items (hrun : Admits c L run) (first : Value) : (es : List Scoped.Expr) →
    ∀ {Γ M : VarId → Prop} {s : State}, Scoped.AllUse Γ (c.source.Settable Γ) es →
    AllCallable c.source L Γ M s.table (Scoped.callsOf es) → s.Sees c.source L Γ →
    Safe c L Γ M s (items run first es) fun s' vs => ∀ a ∈ vs, a.Proper Γ s' ∧ a.ty = first.ty
  | [], Γ, M, s, he, hc, h => by
    rw [items]
    exact .pure h fun a ha => by cases ha
  | e :: es, Γ, M, s, he, hc, h => by
    rw [items]
    rw [Scoped.callsOf] at hc
    refine (safe_expression hrun e he.1 hc.left h).bind fun a s₁ g₁ ha => .check fun hty => ?_
    refine (safe_items hrun first es he.2 (hc.right.goes g₁) g₁.sees).bind fun vs s₂ g₂ hvs => ?_
    refine .pure g₂.sees fun x hx => ?_
    rcases List.mem_cons.1 hx with rfl | hx
    · exact ⟨ha.goes g₂, not_not.1 hty⟩
    · exact hvs x hx

theorem safe_values (hrun : Admits c L run) : (es : List Scoped.Expr) → ∀ {Γ M : VarId → Prop} {s : State},
    Scoped.AllUse Γ (c.source.Settable Γ) es → AllCallable c.source L Γ M s.table (Scoped.callsOf es) →
    s.Sees c.source L Γ → Safe c L Γ M s (values run es) fun s' vs => ∀ a ∈ vs, a.Proper Γ s'
  | [], Γ, M, s, he, hc, h => by
    rw [values]
    exact .pure h fun a ha => by cases ha
  | e :: es, Γ, M, s, he, hc, h => by
    rw [values]
    rw [Scoped.callsOf] at hc
    refine (safe_expression hrun e he.1 hc.left h).bind fun a s₁ g₁ ha => ?_
    refine (safe_values hrun es he.2 (hc.right.goes g₁) g₁.sees).bind fun vs s₂ g₂ hvs => ?_
    refine .pure g₂.sees fun x hx => ?_
    rcases List.mem_cons.1 hx with rfl | hx
    · exact ha.goes g₂
    · exact hvs x hx

theorem safe_lengthList (hrun : Admits c L run) : (es : List Scoped.Expr) → ∀ {Γ M : VarId → Prop} {s : State},
    Scoped.AllUse Γ (c.source.Settable Γ) es → AllCallable c.source L Γ M s.table (Scoped.callsOf es) →
    s.Sees c.source L Γ → Safe c L Γ M s (lengthList run es) fun _ ns => ∀ n ∈ ns, 0 < n
  | [], Γ, M, s, he, hc, h => by
    rw [lengthList]
    exact .pure h fun n hn => by cases hn
  | e :: es, Γ, M, s, he, hc, h => by
    rw [lengthList]
    rw [Scoped.callsOf] at hc
    refine (safe_expression hrun e he.1 hc.left h).bind fun a s₁ g₁ _ => .still (safe_lengthOf a) fun n hn => ?_
    refine (safe_lengthList hrun es he.2 (hc.right.goes g₁) g₁.sees).bind fun ns s₂ g₂ hns => ?_
    refine .pure g₂.sees fun k hk => ?_
    rcases List.mem_cons.1 hk with rfl | hk
    · exact hn
    · exact hns k hk

theorem safe_indexed (hrun : Admits c L run) (a : Value) (whole : Span) : (args : List Scoped.IndexArg) →
    ∀ {Γ M : VarId → Prop} {s : State}, Scoped.IndexesUse Γ (c.source.Settable Γ) args →
    AllCallable c.source L Γ M s.table (Scoped.indexCalls args) → s.Sees c.source L Γ → a.Proper Γ s →
    Safe c L Γ M s (indexed run a whole args) fun s' x => x.Proper Γ s'
  | [], Γ, M, s, he, hc, h, ha => by
    rw [indexed]
    exact .pure h ha
  | .mk e optional :: rest, Γ, M, s, he, hc, h, ha => by
    rw [indexed]
    rw [Scoped.indexCalls] at hc
    refine (safe_expression hrun e he.1 hc.left h).bind fun index s₁ g₁ hindex => ?_
    split
    · rename_i length elem hty
      refine .still (safe_checkIndex hindex length whole) fun _ checked => ?_
      refine (safe_elementOf g₁.sees (ha.goes g₁) hty hindex checked).bind fun x s₂ g₂ hx => ?_
      exact safe_indexed hrun x whole rest he.2 (hc.right.goes (g₁.trans g₂)) g₂.sees hx.1
    · split
      · exact safe_indexed hrun a whole rest he.2 (hc.right.goes g₁) g₁.sees (ha.goes g₁)
      · exact .refuse

theorem safe_callOutputs (hrun : Admits c L run) (result : Value) (span : Span) (vars : List VarId) :
    (outs : List Scoped.Output) → ∀ {Γ M : VarId → Prop} {s : State}, Scoped.OutputsUse Γ (c.source.Settable Γ) outs →
    AllCallable c.source L Γ M s.table (Scoped.outputCalls outs) → (∀ v ∈ vars, Γ v) → s.Sees c.source L Γ →
    result.Proper Γ s → Safe c L Γ M s (callOutputs run result span vars outs) fun s' a => a.Proper Γ s'
  | [], Γ, M, s, he, hc, hv, h, hr => by
    rw [callOutputs]
    exact .pure h hr
  | .inline _ :: rest, Γ, M, s, he, hc, hv, h, hr => by
    rw [Scoped.outputCalls] at hc
    cases vars with
    | nil =>
      rw [callOutputs]
      exact .pure h hr
    | cons v vars =>
      rw [callOutputs]
      refine (safe_readVar h (hv v List.mem_cons_self) span).bind fun a s₁ g₁ ha => ?_
      exact safe_callOutputs hrun a span vars rest he (hc.goes g₁) (fun w hw => hv w (List.mem_cons_of_mem _ hw)) g₁.sees
        ha.2.1
  | .target target outSpan :: rest, Γ, M, s, he, hc, hv, h, hr => by
    rw [Scoped.outputCalls] at hc
    cases vars with
    | nil =>
      rw [callOutputs]
      exact .pure h hr
    | cons v vars =>
      rw [callOutputs]
      refine (safe_place hrun target he.1 hc.left h).bind fun q s₁ g₁ hq => ?_
      refine (safe_readVar g₁.sees (hv v List.mem_cons_self) outSpan).bind fun a s₂ g₂ ha => ?_
      refine (safe_assign g₂.sees (hq.goes g₂ (.inr ha.1)) ha.2.1).bind fun _ s₃ g₃ _ => ?_
      have g := (g₁.trans g₂).trans g₃
      exact safe_callOutputs hrun result span vars rest he.2 (hc.right.goes g)
        (fun w hw => hv w (List.mem_cons_of_mem _ hw)) g₃.sees (hr.goes g)

theorem safe_place (hrun : Admits c L run) : (t : Scoped.Target) → ∀ {Γ M : VarId → Prop} {s : State},
    t.Uses Γ (c.source.Settable Γ) → AllCallable c.source L Γ M s.table t.calls → s.Sees c.source L Γ →
    Safe c L Γ M s (place run t) fun s' q => q.Proper c.source Γ s'
  | .mk v indexes span, Γ, M, s, he, hc, h => by
    rw [place]
    rw [Scoped.Target.calls] at hc
    obtain ⟨id, r, stands⟩ := h.stands v he.1.1
    refine .still (safe_recordOf stands) fun x hx => .get_bind ?_
    subst hx
    dsimp only
    split
    · exact Safe.bind (Q := fun _ _ => False) (safe_crossStream v span) fun _ _ _ never => never.elim
    · refine safe_placeUnder hrun _ indexes he.2 hc h ⟨he.1.1, he.1.2, ⟨r, stands, fun opened => ?_, fun ty hty => ?_⟩, trivial⟩
      · exact ⟨opened, rfl, rfl⟩
      · exact ⟨ty, hty, rfl, Nat.zero_le _, trivial, fun _ => rfl⟩

theorem safe_placeUnder (hrun : Admits c L run) (q : Place) : (es : List Scoped.Expr) →
    ∀ {Γ M : VarId → Prop} {s : State}, Scoped.AllUse Γ (c.source.Settable Γ) es →
    AllCallable c.source L Γ M s.table (Scoped.callsOf es) → s.Sees c.source L Γ → q.Proper c.source Γ s →
    Safe c L Γ M s (placeUnder run q es) fun s' q' => q'.Proper c.source Γ s'
  | [], Γ, M, s, he, hc, h, hq => by
    rw [placeUnder]
    exact .pure h hq
  | e :: rest, Γ, M, s, he, hc, h, hq => by
    rw [placeUnder]
    rw [Scoped.callsOf] at hc
    split
    · rename_i length elem hty
      refine (safe_expression hrun e he.1 hc.left h).bind fun index s₁ g₁ hindex => ?_
      refine .still (safe_checkIndex hindex length q.span) fun _ checked => ?_
      have hq := hq.goes g₁ (.inl (hty ▸ rfl))
      obtain ⟨r, stands, -⟩ := hq.stands
      refine .still (safe_record stands.record) fun r' same => ?_
      refine .still (safe_addIndex hq hty hindex checked) fun q' hq' => ?_
      exact safe_placeUnder hrun q' rest he.2 (hc.right.goes g₁) g₁.sees hq'
    · exact .refuse
    · exact .get_bind .refuse

end

/-! ## Statements -/

section Statements

variable {i j : Scoped.ScopeId} {before after : List Scoped.Stmt} {st : Scoped.Stmt} {rank v : VarId} {s₀ : State}

/-- The calls of a statement can be made where it stands. -/
theorem Admits.callable (hrun : Admits c L run) (point : c.source.Point L i before Γ)
    (h : s.Running c.source L (L.rank i) Γ) (hst : st ∈ c.source.statements i) {calls : List Scoped.Call}
    (hc : ∀ call ∈ calls, call ∈ st.calls) :
    AllCallable c.source L Γ (Scoped.Program.Makes L i) s.table calls := by
  intro call hcall
  obtain ⟨named, plain⟩ := hrun.direct.call hst (hc call hcall)
  exact ⟨named, plain, L.rank i, point.view, h.above, fun v lower => .inr lower⟩

/-- An expression of a statement. -/
theorem Admits.expression (hrun : Admits c L run) (point : c.source.Point L i before Γ)
    (h : s.Running c.source L (L.rank i) Γ) (hst : st ∈ c.source.statements i) {e : Scoped.Expr}
    (he : e.Uses (c.source.Sight L i before) (c.source.Settable (c.source.Sight L i before)))
    (hc : ∀ call ∈ e.calls, call ∈ st.calls) :
    Safe c L Γ (Scoped.Program.Makes L i) s (Stage.expression run e) fun s' a => a.Proper Γ s' :=
  safe_expression hrun e (he.mono point.sight fun v hv => ⟨point.sight v hv.1, hv.2⟩) (hrun.callable point h hst hc)
    h.sees

/-- A nested scope is entered at a point of its own, and nothing it makes is in sight behind it. -/
theorem Admits.inner {S T : VarId → Prop} (hrun : Admits c L run) (nests : c.source.Nests L i S T j)
    (point : c.source.Point L j [] Γ) (h : s.Running c.source L (L.rank i) Γ) :
    Ends .faultless c s (run j) fun s' _ => Proceeds c.source L (L.rank i) Γ Γ (Scoped.Program.Makes L i) s s'
      (∀ fuel, c.source.returnsIn fuel j = true) := by
  refine (hrun.enter point (nests.rank ▸ h)).mono fun _ s' works => ?_
  obtain ⟨done, works⟩ := works
  exact ⟨(works.nested nests).narrow h.sees.closed (fun _ hv => hv) fun _ => .inl, works.returns⟩

/-- A nested scope that sees what is in sight where it stands. -/
theorem Admits.nested (hrun : Admits c L run) (point : c.source.Point L i before Γ)
    (h : s.Running c.source L (L.rank i) Γ)
    (nests : c.source.Nests L i (c.source.Sight L i before) (c.source.Sight L i before) j) :
    Ends .faultless c s (run j) fun s' _ => Proceeds c.source L (L.rank i) Γ Γ (Scoped.Program.Makes L i) s s'
      (∀ fuel, c.source.returnsIn fuel j = true) :=
  hrun.inner nests (point.nested nests) h

/-- A variable is declared. -/
theorem ends_creation (hrun : Admits c L run) {type : Scoped.Expr} {span : Span}
    (eq : c.source.statements i = before ++ .create v type span :: after) (point : c.source.Point L i before Γ)
    (h : s.Running c.source L (L.rank i) Γ) : Ends .faultless c s (creation run v type) fun s' _ =>
      Advances c.source L (L.rank i) Γ (fun u => Γ u ∨ u = v) (Scoped.Program.Makes L i) s s' ∧ s'.returned = false := by
  have hst := Scoped.Program.mem_statements eq
  obtain ⟨he, declares⟩ := hrun.laid.stmts i before _ after eq
  have tall := Nat.le_of_eq declares.inside.height.symm
  have fresh := point.fresh declares
  have closed (m : VarId) (hm : Γ m ∨ m = v) (site : MacroSite)
      (initial : (c.source.var m).initial = some (.macroRef site)) (w : VarId) (hw : L.sees site.body w) : Γ w := by
    rcases hm with hm | rfl
    · exact h.sees.closed m site hm initial w hw
    · exact point.sight w (declares.body site initial w hw)
  have a : Advances c.source L (L.rank i) Γ Γ (Scoped.Program.Makes L i) s s := .refl h.sees h.above
  cases initial : (c.source.var v).initial with
  | none =>
    refine a.bind (hrun.expression point h hst he fun _ hc => hc) fun t s₁ g₁ a₁ ht => ?_
    refine (safe_typeOf ht).bind fun b s₂ hb => .read_bind (.get_bind ?_)
    obtain ⟨rfl, positive, -⟩ := hb
    rw [initial]
    have make (slot : Option SlotId) (runtime : slot.isSome → ∃ ty, b.actual = some ty ∧ ty.isRuntime = true)
        {s₃ : State} (a₃ : Advances c.source L (L.rank i) Γ Γ (Scoped.Program.Makes L i) s s₃)
        (running : s₃.returned = false) : Ends .faultless c s₃ (create v ⟨slot, b, s₂.inStatic⟩) fun s' _ =>
          Advances c.source L (L.rank i) Γ (fun u => Γ u ∨ u = v) (Scoped.Program.Makes L i) s s' ∧
            s'.returned = false :=
      (ends_create (v := v) a₃ fresh (.inl declares.inside) tall ⟨positive, runtime⟩
        (fun some => absurd initial some) closed).mono fun _ _ h₄ => ⟨h₄.1, h₄.2.1.trans running⟩
    have running := (h.goes g₁).returned
    dsimp only
    split
    · rename_i ty actual
      split
      · rename_i runtime
        refine a₁.bind (Q := fun _ _ => True) (Ends.map ((safe_newSlot g₁.sees runtime).mono fun _ _ _ _ => trivial))
          fun slot s₃ g₃ a₃ _ => ?_
        exact make slot (fun _ => ⟨ty, actual, runtime⟩) a₃ (g₃.returned.trans running)
      · exact make none nofun a₁ running
    · exact make none nofun a₁ running
  | some value =>
    obtain ⟨plain, typeSpan, rfl⟩ := declares.constant value initial
    have known : Ends .faultless c s (Stage.expression run (.literal (.type (.exactly value.ty)) typeSpan)) fun s' t =>
        s' = s ∧ t = .known (.type (.exactly value.ty)) .dataType typeSpan := by
      rw [Stage.expression]
      exact .get_bind (.pure ⟨rfl, rfl⟩)
    have positive := plain.isPositive_ty
    refine known.bind fun t s₁ ht => ?_
    obtain ⟨rfl, rfl⟩ := ht
    have proper : (Value.known (.type (.exactly value.ty)) .dataType typeSpan).Proper Γ s₁ :=
      Value.proper_prim (Datum.isA_type (Bound.isPositive_exactly positive))
    refine (safe_typeOf proper).bind fun b s₂ hb => .read_bind (.get_bind ?_)
    obtain ⟨rfl, -, same⟩ := hb
    cases same
    rw [initial]
    refine (ends_create (v := v) (r := ⟨none, .exactly value.ty, s₂.inStatic⟩) a fresh (.inl declares.inside) tall
      ⟨Bound.isPositive_exactly positive, nofun⟩ (fun _ => rfl) closed).bind fun _ s₃ h₃ => .get_bind ?_
    obtain ⟨a₃, running, id, stands⟩ := h₃
    have has := Datum.isA_ofConstant s₃.table plain
    have actual : (Bound.exactly value.ty).actual = some value.ty := rfl
    refine Ends.mono (safe_trackMade (M := Scoped.Program.Makes L i) a₃.sees (.inr rfl) stands actual ?_
      fun site site' context holds hd => ?_) fun _ s' h₄ => ?_
    · rw [has.2]
      exact has.1
    · rw [initial] at holds
      cases holds
      cases hd
      refine ⟨rfl, fun _ _ => rfl, fun e he => Nat.le_trans (Nat.le_of_lt ?_) (a₃.above e he)⟩
      exact (hrun.laid.sight i v (.inl ⟨_, hst, List.mem_cons_self⟩)).1
    · exact ⟨a₃.goes h₄.1, h₄.1.returned.trans (running.trans h.returned)⟩

/-! ## Branches -/

/-- Forgetting touches only what is in sight and what may be made. -/
theorem safe_forget (h : s.Sees c.source L Γ) {written : List VarId} (hw : ∀ v ∈ written, M v ∨ Γ v) :
    Safe c L Γ M s (forget written) fun _ _ => True := by
  refine .forM h fun v hv s₁ g₁ => Ends.recordId_bind ?_
  split
  · exact Safe.pure g₁.sees trivial
  · rename_i id lookup
    refine .get_bind ?_
    split
    · refine Ends.modify_bind (Ends.modify ⟨⟨?_, ?_, rfl, rfl, rfl, rfl⟩, trivial⟩)
      · refine g₁.sees.put g₁.sees.out rfl rfl rfl (fun _ id' r stands => ?_) fun _ _ _ _ _ same => ?_
        · have found := stands.lookup
          rw [lookup] at found
          cases found
          have record : s₁.records.getD id default = r := by
            rw [Array.getD_eq_getD_getElem?, stands.record, Option.getD_some]
          rw [record, unknownFor]
          cases actual : r.bound.actual with
          | none => exact .inl rfl
          | some t => exact .inr ⟨t, rfl, Datum.has_unknownOf _ _⟩
        · exact absurd same (unknownFor_ne_macroRef _ _ _)
      · exact .write (w := ⟨v, [], _⟩) (hw v hv).symm rfl rfl (fun _ => .inl) rfl rfl (.inl rfl)
    · exact Safe.pure g₁.sees trivial

/-- A branch is worked out like what is in it, and it does not return. -/
theorem ends_inBranch {act : Stage Unit} (h : s.Running c.source L rank Γ)
    (hact : ∀ s₀ : State, s₀.Running c.source L rank Γ → Ends .faultless c s₀ act fun s' _ =>
      ∃ returns, Proceeds c.source L rank Γ Γ M s₀ s' returns) :
    Ends .faultless c s (inBranch act) fun s' _ =>
      Advances c.source L rank Γ Γ M s s' ∧ s'.returned = false := by
  let s₀ : State :=
    { s with written := [], writtenBefore := s.written :: s.writtenBefore, conditional := s.conditional + 1 }
  have entered : s₀.Running c.source L rank Γ :=
    ⟨h.sees.view ⟨rfl, rfl, rfl⟩ h.sees.out h.sees.closed fun _ hv => ⟨hv, rfl⟩, h.above, h.returned⟩
  refine .get_bind (.modify_bind ((hact s₀ entered).bind fun _ s₁ h₁ => .get_bind ?_))
  obtain ⟨returns, proceeds⟩ := h₁
  have inside := proceeds.advances.passes
  -- A return inside a branch is a problem, so none was met.
  have running : s₁.returned = false := by
    cases returned : s₁.returned with
    | false => rfl
    | true => exact absurd (proceeds.returned returned).1 (Nat.succ_ne_zero _)
  have writes (v : VarId) (hv : v ∈ s₁.written) : M v ∨ Γ v := (inside.written v hv).resolve_left List.not_mem_nil
  have passes : Passes Γ Γ M s s₁ := inside.since ⟨rfl, rfl, rfl⟩ (fun _ _ => rfl) nofun
  refine Ends.bind (safe_forget (M := M) proceeds.advances.sees writes) fun _ s₂ h₂ => .modify ⟨⟨?_, ?_, ?_, ?_, ?_⟩, ?_⟩
  · exact h₂.1.sees.view ⟨rfl, rfl, rfl⟩ h₂.1.sees.out h.sees.closed fun _ hv => ⟨hv, rfl⟩
  · refine (passes.trans h₂.1.passes).alike ⟨rfl, rfl, rfl⟩ (fun _ _ => rfl) fun v hv => ?_
    rcases List.mem_append.1 hv with hv | hv
    · exact .inr (writes v hv)
    · exact .inl (List.mem_filter.1 hv).1
  · rw [h₂.1.table]
    exact proceeds.advances.above
  · exact h₂.1.inStatic.trans proceeds.advances.inStatic
  · show s₂.conditional - 1 = s.conditional
    rw [h₂.1.conditional, proceeds.advances.conditional]
    rfl
  · exact h₂.1.returned.trans running

/-- A scope that may not run out. -/
theorem ends_guarded (hrun : Admits c L run) (point : c.source.Point L i before Γ)
    (h : s.Running c.source L (L.rank i) Γ)
    (nests : c.source.Nests L i (c.source.Sight L i before) (c.source.Sight L i before) j) :
    Ends .faultless c s (guarded run j) fun s' _ =>
      Advances c.source L (L.rank i) Γ Γ (Scoped.Program.Makes L i) s s' ∧ s'.returned = false := by
  have a : Advances c.source L (L.rank i) Γ Γ (Scoped.Program.Makes L i) s s := .refl h.sees h.above
  refine a.bind (safe_newScope h.sees) fun scope s₁ g₁ a₁ _ => ?_
  refine Ends.bind (Q := fun s' _ => Advances c.source L (L.rank i) Γ Γ (Scoped.Program.Makes L i) s s' ∧
    s'.returned = false) ?_ fun _ s₂ h₂ => .pure h₂
  have inner : Advances c.source L (L.rank i) Γ Γ (Scoped.Program.Makes L i) s { s₁ with current := some scope } :=
    a₁.alike ⟨rfl, rfl, rfl⟩ g₁.sees.out rfl a₁.passes.written a₁.inStatic a₁.conditional
  have branch := ends_inBranch (M := Scoped.Program.Makes L i) ⟨inner.sees, inner.above, (h.goes g₁).returned⟩
    fun s₀ h₀ => (hrun.nested point h₀ nests).mono fun _ _ proceeds => ⟨_, proceeds⟩
  refine .get_bind (.modify_bind (branch.bind fun _ s₂ h₂ => .modify_bind (.pure ?_)))
  have a₂ := inner.trans h₂.1
  exact ⟨a₂.alike ⟨rfl, rfl, rfl⟩ a₂.sees.out rfl a₂.passes.written a₂.inStatic a₂.conditional, h₂.2⟩

/-- The clauses of a branch. -/
theorem ends_clauses (hrun : Admits c L run) (point : c.source.Point L i before Γ)
    (hst : st ∈ c.source.statements i) {otherwise : Option Scoped.ScopeId} {span : Span} {done : List Clause}
    {cs : List Scoped.Clause} (h : s.Running c.source L (L.rank i) Γ) (hdone : ∀ x ∈ done, x.condition.LiteralsFit)
    (hcs : ∀ x ∈ cs, x.condition.Uses (c.source.Sight L i before) (c.source.Settable (c.source.Sight L i before)) ∧
      (∀ call ∈ x.condition.calls, call ∈ st.calls) ∧
      c.source.Nests L i (c.source.Sight L i before) (c.source.Sight L i before) x.body ∧ x.body ∈ st.scopes)
    (ho : ∀ body, otherwise = some body →
      c.source.Nests L i (c.source.Sight L i before) (c.source.Sight L i before) body ∧ body ∈ st.scopes) :
    Ends .faultless c s (clauses run otherwise span done cs) fun s' _ =>
      Proceeds c.source L (L.rank i) Γ Γ (Scoped.Program.Makes L i) s s' (∀ fuel, c.source.mayReturn fuel st = true) := by
  have fits {cs : List Clause} (hcs : ∀ x ∈ cs, x.condition.LiteralsFit) {last : Option ScopeId} :
      Expr.AllFit (Stmt.branch cs last span).exprs := by
    refine Expr.allFit_iff.2 fun e he => ?_
    obtain ⟨x, hx, rfl⟩ := List.mem_map.1 he
    exact hcs x hx
  induction cs generalizing done s with
  | nil =>
    have a : Advances c.source L (L.rank i) Γ Γ (Scoped.Program.Makes L i) s s := .refl h.sees h.above
    unfold clauses
    split
    · exact .pure (.still a h.returned)
    · obtain ⟨nests, hbody⟩ := ho _ rfl
      exact (hrun.nested point h nests).mono fun _ _ y => y.mono (Scoped.Program.mayReturn_of_returnsIn hbody)
    · refine Ends.mono (safe_emit (M := Scoped.Program.Makes L i) h.sees (fits hdone)) fun _ s₁ h₁ => ?_
      exact .still (a.goes h₁.1) (h.goes h₁.1).returned
    · obtain ⟨nests, -⟩ := ho _ rfl
      refine (ends_guarded hrun point h nests).bind fun scope s₁ h₁ => ?_
      refine Ends.mono (safe_emit (M := Scoped.Program.Makes L i) h₁.1.sees (fits hdone)) fun _ s₂ h₂ => ?_
      exact .still (h₁.1.goes h₂.1) (h₂.1.returned.trans h₁.2)
  | cons x rest ih =>
    obtain ⟨uses, calls, nests, hbody⟩ := hcs x List.mem_cons_self
    have others := fun y hy => hcs y (List.mem_cons_of_mem x hy)
    have a : Advances c.source L (L.rank i) Γ Γ (Scoped.Program.Makes L i) s s := .refl h.sees h.above
    unfold clauses
    refine a.bind (hrun.expression point h hst uses calls) fun condition s₁ g₁ a₁ hcondition => .check fun isBool => ?_
    have h₁ := h.goes g₁
    have keep : Ends .faultless c s₁ (do
        let e ← asExpr condition
        let scope ← guarded run x.body
        clauses run otherwise span (done ++ [⟨e, scope⟩]) rest) fun s' _ =>
          Proceeds c.source L (L.rank i) Γ Γ (Scoped.Program.Makes L i) s s'
            (∀ fuel, c.source.mayReturn fuel st = true) := by
      refine (safe_asExpr hcondition).bind fun e s₂ he => ?_
      obtain ⟨rfl, he, -⟩ := he
      refine (ends_guarded hrun point h₁ nests).bind fun scope s₃ h₃ => ?_
      refine (ih ⟨h₃.1.sees, h₃.1.above, h₃.2⟩ (fun y hy => ?_) others).mono fun _ _ y => .behind (a₁.trans h₃.1) y
      rcases List.mem_append.1 hy with hy | hy
      · exact hdone y hy
      · obtain rfl := List.mem_singleton.1 hy
        exact he
    dsimp only
    split
    · exact (ih h₁ hdone others).mono fun _ _ y => .behind a₁ y
    · split
      · exact (hrun.nested point h₁ nests).mono fun _ _ y => .behind a₁ (y.mono (Scoped.Program.mayReturn_of_returnsIn hbody))
      · exact keep
    · rename_i d notFalse notTrue hd
      obtain ⟨content, ty, cspan⟩ := condition
      obtain rfl : ty = .bool := not_not.1 isBool
      obtain rfl : content = .known d := hd
      obtain ⟨b, rfl⟩ := Datum.IsA.bool hcondition.content
      cases b
      · exact (notFalse rfl).elim
      · exact (notTrue rfl).elim
    · exact keep

/-- An assertion. -/
theorem ends_assertion (hrun : Admits c L run) (point : c.source.Point L i before Γ)
    (h : s.Running c.source L (L.rank i) Γ) (hst : st ∈ c.source.statements i) {condition : Scoped.Expr} {span : Span}
    (he : condition.Uses (c.source.Sight L i before) (c.source.Settable (c.source.Sight L i before)))
    (hc : ∀ call ∈ condition.calls, call ∈ st.calls) :
    Safe c L Γ (Scoped.Program.Makes L i) s (assertion run condition span) fun _ _ => True := by
  refine (hrun.expression point h hst he hc).bind fun a s₁ g₁ ha => .check fun isBool => ?_
  obtain ⟨content, ty, aspan⟩ := a
  obtain rfl : ty = .bool := not_not.1 isBool
  dsimp only
  split
  · rename_i e glimpse
    have fits : Expr.AllFit (Stmt.assert e span).exprs := allFit_singleton ha.content.2.1
    exact (safe_emit g₁.sees fits).mono fun _ _ _ _ => trivial
  · exact .pure g₁.sees trivial
  · exact .refuse
  · rename_i d notTrue notFalse
    obtain ⟨b, rfl⟩ := Datum.IsA.bool ha.content
    cases b
    · exact (notFalse rfl).elim
    · exact (notTrue rfl).elim

/-! ## Loops -/

/-- A variable of a nested scope can be made around it, as the counter of a loop and the exports of a static block
are. -/
theorem vacant_inside {T : VarId → Prop} (point : c.source.Point L i before Γ)
    (nests : c.source.Nests L i (c.source.Sight L i before) T j) (inside : L.Inside j v)
    (initial : (c.source.var v).initial = none) : Vacant c.source L (L.rank i) Γ (Scoped.Program.Makes L i) v := by
  have within := nests.inside inside
  exact ⟨point.unseen nests inside, .inl within, Nat.le_of_eq within.height.symm, initial⟩

/-- A step under a table of its own, which begins as the current one. -/
theorem ends_withTable {α : Type} {act : Stage α} {Q : Bool → α → Prop} (h : s.Running c.source L rank Γ)
    (hact : ∀ s₀ : State, s₀.Running c.source L rank Γ → Advances c.source L rank Γ Γ M s s₀ →
      Ends .faultless c s₀ act fun s' a => (∃ Γ', Advances c.source L rank Γ Γ' M s s') ∧ Q s'.returned a) :
    Ends .faultless c s (withTable s.table act) fun s' a =>
      Advances c.source L rank Γ Γ M s s' ∧ Q s'.returned a := by
  have a : Advances c.source L rank Γ Γ M s { s with tables := s.table :: s.tables } :=
    (Advances.refl h.sees h.above).alike ⟨rfl, rfl, rfl⟩ h.sees.out rfl (fun _ => .inl) rfl rfl
  refine .get_bind (.modify_bind ((hact _ ⟨a.sees, a.above, h.returned⟩ a).bind fun x s₁ h₁ => .modify_bind (.pure ?_)))
  obtain ⟨⟨Γ', a₁⟩, q⟩ := h₁
  exact ⟨a₁.restore h.sees h.above ⟨rfl, rfl, rfl⟩ rfl rfl rfl a₁.inStatic a₁.conditional, q⟩

/-- A pass over the body of a loop that is kept. -/
theorem ends_loopPass {into : Option ScopeId} (h : s.Running c.source L rank Γ)
    (hbody : ∀ s₀ : State, s₀.Running c.source L rank Γ → Ends .faultless c s₀ (run j) fun s' _ =>
      ∃ returns, Proceeds c.source L rank Γ Γ M s₀ s' returns) :
    Ends .faultless c s (loopPass run j into) fun s' _ =>
      Advances c.source L rank Γ Γ M s s' ∧ s'.returned = false := by
  let s₁ : State := { s with current := into, discarding := s.discarding || into.isNone }
  have a₁ : Advances c.source L rank Γ Γ M s s₁ :=
    (Advances.refl h.sees h.above).alike ⟨rfl, rfl, rfl⟩ h.sees.out rfl (fun _ => .inl) rfl rfl
  have entered : s₁.Running c.source L rank Γ := ⟨a₁.sees, a₁.above, h.returned⟩
  have pass := ends_withTable (M := M) (Q := fun returned _ => returned = false) entered fun s₂ h₂ a₂ =>
    (ends_inBranch h₂ hbody).mono fun _ _ h₃ => ⟨⟨Γ, a₂.trans h₃.1⟩, h₃.2⟩
  refine .get_bind (.set_bind (pass.bind fun _ s₂ h₂ => .modify ?_))
  have a₂ := a₁.trans h₂.1
  exact ⟨a₂.alike ⟨rfl, rfl, rfl⟩ a₂.sees.out rfl a₂.passes.written a₂.inStatic a₂.conditional, h₂.2⟩

/-- A body that sees the counter of its loop. -/
theorem Admits.loopBody (hrun : Admits c L run) (point : c.source.Point L i before Γ)
    (nests : c.source.Nests L i (c.source.Sight L i before) (fun u => c.source.Sight L i before u ∨ u = v) j)
    (sees : L.sees j v) (initial : (c.source.var v).initial = none)
    (h : s.Running c.source L (L.rank i) fun u => Γ u ∨ u = v) :
    Ends .faultless c s (run j) fun s' _ => Proceeds c.source L (L.rank i) (fun u => Γ u ∨ u = v) (fun u => Γ u ∨ u = v)
      (Scoped.Program.Makes L i) s s' (∀ fuel, c.source.returnsIn fuel j = true) :=
  hrun.inner nests (point.loopBody hrun.laid nests sees initial) h

/-- The rounds of a loop that is unrolled. -/
theorem ends_rounds (hrun : Admits c L run) (point : c.source.Point L i before Γ)
    (nests : c.source.Nests L i (c.source.Sight L i before) (fun u => c.source.Sight L i before u ∨ u = v) j)
    (inside : L.Inside j v) (sees : L.sees j v) (initial : (c.source.var v).initial = none) {count : Nat} {n : Int}
    (h : s.Running c.source L (L.rank i) Γ) : Ends .faultless c s (rounds run v j count n) fun s' _ =>
      Proceeds c.source L (L.rank i) Γ Γ (Scoped.Program.Makes L i) s s' (∀ fuel, c.source.returnsIn fuel j = true) := by
  induction count generalizing s n with
  | zero => exact .pure (.still (.refl h.sees h.above) h.returned)
  | succ count ih =>
    have vacant := vacant_inside point nests inside initial
    refine .get_bind ?_
    rw [h.returned]
    refine Ends.bind (ends_withTable (M := Scoped.Program.Makes L i) (Q := fun returned _ => returned = true →
      s.conditional = 0 ∧ ∀ fuel, c.source.returnsIn fuel j = true) h fun s₁ h₁ a₁ => ?_) fun _ s₂ h₂ => ?_
    · refine (vacant.create (r := ⟨none, .exactly .int, s.inStatic⟩) a₁ h.sees.closed (fun _ => .inl)
        ⟨Bound.isPositive_exactly (Ty.isPositive_prim _), nofun⟩).bind fun _ s₂ h₂ => ?_
      obtain ⟨a₂, same, id, stands⟩ := h₂
      refine a₂.bind (safe_trackMade a₂.sees (.inr rfl) stands rfl (Datum.isA_int n) fun _ _ _ some => ?_)
        fun _ s₃ g₃ a₃ _ => ?_
      · rw [initial] at some
        cases some
      · refine (hrun.loopBody point nests sees initial ⟨a₃.sees, a₃.above, ?_⟩).mono fun _ s₄ y => ?_
        · exact g₃.returned.trans (same.trans h₁.returned)
        · exact ⟨⟨_, a₃.trans y.advances⟩, fun returned => a₃.conditional ▸ y.returned returned⟩
    · -- A round that returned is the last, since the next one stops at once.
      cases returned : s₂.returned with
      | false => exact (ih ⟨h₂.1.sees, h₂.1.above, returned⟩).mono fun _ _ y => .behind h₂.1 y
      | true =>
        have stops := h₂.2 returned
        cases count with
        | zero => exact .pure ⟨h₂.1, fun _ => stops⟩
        | succ count =>
          refine .get_bind ?_
          rw [returned]
          exact .pure ⟨h₂.1, fun _ => stops⟩

/-- A loop that is kept for run time. -/
theorem ends_keptLoop (hrun : Admits c L run) (point : c.source.Point L i before Γ)
    (nests : c.source.Nests L i (c.source.Sight L i before) (fun u => c.source.Sight L i before u ∨ u = v) j)
    (inside : L.Inside j v) (sees : L.sees j v) (initial : (c.source.var v).initial = none) {start stop : Value}
    {span : Span} (h : s.Running c.source L (L.rank i) Γ) (hstart : start.Proper Γ s) (hstop : stop.Proper Γ s) :
    Ends .faultless c s (keptLoop run v start stop j span) fun s' _ =>
      Advances c.source L (L.rank i) Γ Γ (Scoped.Program.Makes L i) s s' ∧ s'.returned = false := by
  have vacant := vacant_inside point nests inside initial
  have a : Advances c.source L (L.rank i) Γ Γ (Scoped.Program.Makes L i) s s := .refl h.sees h.above
  have body (s₀ : State) (h₀ : s₀.Running c.source L (L.rank i) fun u => Γ u ∨ u = v) :=
    (hrun.loopBody point nests sees initial h₀).mono fun _ _ y => (⟨_, y⟩ : ∃ returns, Proceeds _ _ _ _ _ _ _ _ returns)
  refine .read_bind (a.bind (safe_newSlot h.sees rfl) fun slot s₁ g₁ a₁ _ => .get_bind ?_)
  refine (vacant.create (r := ⟨some slot, .exactly .int, s₁.inStatic⟩) a₁ h.sees.closed (fun _ => .inl)
    ⟨Bound.isPositive_exactly (Ty.isPositive_prim _), fun _ => ⟨.int, rfl, rfl⟩⟩).bind fun _ s₂ h₂ => ?_
  obtain ⟨a₂, same, -⟩ := h₂
  -- The first pass finds out what the body writes, the second one is kept. Neither leaves its counter in sight.
  refine (ends_loopPass ⟨a₂.sees, a₂.above, same.trans (h.goes g₁).returned⟩ body).bind fun _ s₃ h₃ => ?_
  have a₃ := a₂.trans h₃.1
  refine a₃.bind (safe_newScope a₃.sees) fun scope s₄ g₄ a₄ _ => ?_
  refine (ends_loopPass ⟨a₄.sees, a₄.above, g₄.returned.trans h₃.2⟩ body).bind fun _ s₅ h₅ => ?_
  have a₅ := (a₄.trans h₅.1).narrow h.sees.closed (fun _ hv => hv) fun _ => .inl
  refine (safe_asExpr (hstart.mono a₅.passes.live)).bind fun e s₆ he => ?_
  obtain ⟨rfl, he, -⟩ := he
  refine (safe_asExpr (hstop.mono a₅.passes.live)).bind fun e' s₇ he' => ?_
  obtain ⟨rfl, he', -⟩ := he'
  have fits : Expr.AllFit (Stmt.loop slot e e' scope span).exprs := ⟨he, he', trivial⟩
  refine Ends.mono (safe_emit (M := Scoped.Program.Makes L i) a₅.sees fits) fun _ s₈ h₈ => ?_
  exact ⟨a₅.goes h₈.1, h₈.1.returned.trans h₅.2⟩

/-- A loop. -/
theorem ends_loop (hrun : Admits c L run) {start stop : Scoped.Expr} {allowUnroll : Bool} {span : Span}
    (eq : c.source.statements i = before ++ .loop v start stop j allowUnroll span :: after)
    (point : c.source.Point L i before Γ) (h : s.Running c.source L (L.rank i) Γ) :
    Ends .faultless c s (loop run v start stop j allowUnroll span) fun s' _ =>
      Proceeds c.source L (L.rank i) Γ Γ (Scoped.Program.Makes L i) s s' (∀ fuel, c.source.returnsIn fuel j = true) := by
  have hst := Scoped.Program.mem_statements eq
  obtain ⟨useStart, useStop, inside, sees, initial, nests⟩ := hrun.laid.stmts i before _ after eq
  have a : Advances c.source L (L.rank i) Γ Γ (Scoped.Program.Makes L i) s s := .refl h.sees h.above
  refine a.bind (hrun.expression point h hst useStart fun _ hc => List.mem_append_left _ hc) fun lower s₁ g₁ a₁ hlower => ?_
  have h₁ := h.goes g₁
  refine a₁.bind (hrun.expression point h₁ hst useStop fun _ hc => List.mem_append_right _ hc)
    fun upper s₂ g₂ a₂ hupper => .check fun isInt => .check fun isInt' => ?_
  have h₂ := h₁.goes g₂
  have kept : Ends .faultless c s₂ (keptLoop run v lower upper j span) fun s' _ =>
      Proceeds c.source L (L.rank i) Γ Γ (Scoped.Program.Makes L i) s s' (∀ fuel, c.source.returnsIn fuel j = true) :=
    (ends_keptLoop hrun point nests inside sees initial h₂ (hlower.goes g₂) hupper).mono fun _ _ h₃ =>
      .still (a₂.trans h₃.1) h₃.2
  dsimp only
  split
  · refine .read_bind ?_
    split
    · exact (ends_rounds hrun point nests inside sees initial h₂).mono fun _ _ y => .behind a₂ y
    · exact kept
  · rename_i d d' notInts hd hd'
    -- known bounds are integers here, so this case is not met
    obtain ⟨a, rfl⟩ := hlower.known_int (not_not.1 isInt) hd
    obtain ⟨b, rfl⟩ := hupper.known_int (not_not.1 isInt') hd'
    exact (notInts a b rfl rfl).elim
  · exact kept

/-! ## Static blocks -/

/-- The records of exports: a variable with a slot has no value from the start. -/
theorem ends_exported {exports : List VarId} {span : Span} (h : s.Sees c.source L Γ) (hv : ∀ v ∈ exports, Γ v) :
    Ends .faultless c s (exported exports span) fun s' records => s' = s ∧ records.length = exports.length ∧
      ∀ e ∈ exports.zip records, e.2.Fine ∧ (c.source.var e.1).initial = none := by
  unfold exported
  induction exports with
  | nil => exact .pure ⟨rfl, rfl, nofun⟩
  | cons v rest ih =>
    obtain ⟨id, r, stands⟩ := h.stands v (hv v List.mem_cons_self)
    rw [List.mapM_cons]
    refine Ends.bind (Q := fun s' x => s' = s ∧ x = r ∧ (c.source.var v).initial = none) ?_ fun x s₁ hx => ?_
    · refine (safe_recordOf stands).bind fun x s₁ hx => ?_
      obtain ⟨rfl, rfl⟩ := hx
      dsimp only
      split
      · exact .read_bind .refuse_bind
      · rename_i some
        refine .pure ⟨rfl, rfl, ?_⟩
        by_contra initial
        rw [stands.constant initial] at some
        exact some rfl
    · obtain ⟨rfl, rfl, initial⟩ := hx
      refine (ih fun w hw => hv w (List.mem_cons_of_mem _ hw)).bind fun xs s₂ hxs => ?_
      obtain ⟨rfl, length, all⟩ := hxs
      refine .pure ⟨rfl, congrArg (· + 1) length, fun e he => ?_⟩
      rcases List.mem_cons.1 he with rfl | he
      · exact ⟨stands.fine h, initial⟩
      · exact all e he

/-- The exports are made where the block stands. -/
theorem ends_exports {given : List (VarId × Record)} (closed : c.source.Closed L Γ)
    (a : Advances c.source L rank Γ Γ' M s₀ s) (adds : AddsVacant c.source Γ Γ')
    (hg : ∀ e ∈ given, e.2.Fine ∧ Vacant c.source L rank Γ M e.1) :
    Ends .faultless c s (given.forM fun (v, r) => do
        create v { r with isStatic := true }
        if !(← get).discarding then
          modify fun t => { t with out := { t.out with statics := t.out.statics ++ r.slot.toList } }) fun s' _ =>
      Advances c.source L rank Γ (fun v => Γ' v ∨ v ∈ given.map Prod.fst) M s₀ s' ∧ s'.returned = s.returned := by
  induction given generalizing s Γ' with
  | nil =>
    have all : (fun v => Γ' v ∨ v ∈ ([] : List (VarId × Record)).map Prod.fst) = Γ' := by simp
    rw [all]
    exact .pure ⟨a, rfl⟩
  | cons e rest ih =>
    obtain ⟨v, r⟩ := e
    obtain ⟨fine, vacant⟩ := hg _ List.mem_cons_self
    rw [behind_cons]
    have next {s₁ : State} (a₁ : Advances c.source L rank Γ (fun u => Γ' u ∨ u = v) M s₀ s₁)
        (same : s₁.returned = s.returned) :=
      (ih a₁ (adds.made vacant) fun e he => hg e (List.mem_cons_of_mem _ he)).mono
        fun _ s' h => (⟨h.1, h.2.trans same⟩ : _ ∧ s'.returned = s.returned)
    refine Ends.bind (Q := fun s' _ => Advances c.source L rank Γ (fun u => Γ' u ∨ u = v) M s₀ s' ∧
      s'.returned = s.returned) ?_ fun _ s₁ h₁ => next h₁.1 h₁.2
    refine (vacant.create (r := { r with isStatic := true }) a closed adds ⟨fine.positive, fine.slot⟩).bind
      fun _ s₁ h₁ => .get_bind ?_
    obtain ⟨a₁, same, -⟩ := h₁
    split
    · refine .modify ⟨a₁.alike ⟨rfl, rfl, rfl⟩ ?_ rfl a₁.passes.written a₁.inStatic a₁.conditional, same⟩
      exact ⟨a₁.sees.out.1, a₁.sees.out.2⟩
    · exact .pure ⟨a₁, same⟩

/-- A static block. -/
theorem ends_static (hrun : Admits c L run) {exports : List VarId} {span : Span}
    (eq : c.source.statements i = before ++ .static j exports span :: after) (point : c.source.Point L i before Γ)
    (h : s.Running c.source L (L.rank i) Γ) : Ends .faultless c s (static run j exports span) fun s' _ =>
      Proceeds c.source L (L.rank i) Γ (fun v => Γ v ∨ v ∈ exports) (Scoped.Program.Makes L i) s s'
        (∀ fuel, c.source.returnsIn fuel j = true) := by
  have hst := Scoped.Program.mem_statements eq
  obtain ⟨nests, declared⟩ := hrun.laid.stmts i before _ after eq
  have inner := point.nested nests
  refine .get_bind (.set_bind ?_)
  let s₁ : State :=
    { s with current := if s.discarding then none else some s.out.staticInit, inStatic := true }
  have entered : s₁.Running c.source L (L.rank i) Γ :=
    ⟨h.sees.view ⟨rfl, rfl, rfl⟩ h.sees.out h.sees.closed fun _ hv => ⟨hv, rfl⟩, h.above, h.returned⟩
  refine Ends.bind (ends_withTable (s := s₁) (M := Scoped.Program.Makes L i) (Q := fun returned records =>
    (returned = true → s.conditional = 0 ∧ ∀ fuel, c.source.returnsIn fuel j = true) ∧
    records.length = exports.length ∧ ∀ e ∈ exports.zip records, e.2.Fine ∧ (c.source.var e.1).initial = none)
    entered fun s₂ h₂ a₂ => ?_) fun records s₂ h₂ => .modify_bind ?_
  · refine (hrun.enter inner (nests.rank ▸ h₂)).bind fun _ s₃ works => ?_
    obtain ⟨done, works⟩ := works
    refine (ends_exported works.advances.sees fun v hv => ?_).mono fun records s₄ h₄ => ?_
    · exact works.sight inner (Scoped.Program.sight_lasting (declared v hv).2 (hrun.lasting.exported hst hv))
    · obtain ⟨rfl, length, all⟩ := h₄
      refine ⟨⟨_, a₂.trans (works.nested nests)⟩, fun returned => ?_, length, all⟩
      have returns := works.returns returned
      rw [a₂.conditional] at returns
      exact returns
  · obtain ⟨a₂, returns, length, all⟩ := h₂
    -- Behind the block its table is gone, and the exports are made once more around it.
    let s₃ : State := { s₂ with current := s.current, inStatic := s.inStatic }
    have passes : Passes Γ Γ (Scoped.Program.Makes L i) s s₂ :=
      a₂.passes.since ⟨rfl, rfl, rfl⟩ (fun _ _ => rfl) fun _ hv => hv
    have a₃ : Advances c.source L (L.rank i) Γ Γ (Scoped.Program.Makes L i) s s₃ :=
      ⟨a₂.sees.view ⟨rfl, rfl, rfl⟩ a₂.sees.out h.sees.closed fun _ hv => ⟨hv, rfl⟩,
        passes.alike ⟨rfl, rfl, rfl⟩ (fun _ _ => rfl) passes.written, a₂.above, rfl, a₂.conditional⟩
    refine (ends_exports h.sees.closed a₃ (fun _ => .inl) fun e he => ⟨(all e he).1, ?_⟩).mono fun _ s₄ h₄ => ?_
    · exact vacant_inside point nests (declared e.1 (List.of_mem_zip he).1).1 (all e he).2
    · rw [List.map_fst_zip (Nat.le_of_eq length.symm)] at h₄
      exact ⟨h₄.1, fun returned => returns (h₄.2.symm.trans returned)⟩

/-! ## Scopes -/

/-- A statement leaves what was in sight and what it declares, also when it returns. -/
theorem ends_statement (hrun : Admits c L run) (eq : c.source.statements i = before ++ st :: after)
    (point : c.source.Point L i before Γ) (h : s.Running c.source L (L.rank i) Γ) :
    Ends .faultless c s (statement run st) fun s' _ =>
      Proceeds c.source L (L.rank i) Γ (fun v => Γ v ∨ v ∈ st.declares) (Scoped.Program.Makes L i) s s'
        (∀ fuel, c.source.mayReturn fuel st = true) := by
  have hst := Scoped.Program.mem_statements eq
  have place := hrun.laid.stmts i before st after eq
  have returns {body : Scoped.ScopeId} (hbody : body ∈ st.scopes) :=
    Scoped.Program.mayReturn_of_returnsIn (p := c.source) hbody
  have a : Advances c.source L (L.rank i) Γ Γ (Scoped.Program.Makes L i) s s := .refl h.sees h.above
  cases st with
  | create v type span =>
    have one : (fun u => Γ u ∨ u ∈ [v]) = fun u => Γ u ∨ u = v := by simp
    show Ends _ _ _ _ fun s' _ => Proceeds _ _ _ _ (fun u => Γ u ∨ u ∈ [v]) _ _ _ _
    rw [one]
    exact (ends_creation hrun eq point h).mono fun _ _ h₁ => .still h₁.1 h₁.2
  | assign target value span =>
    refine a.bind (hrun.expression point h hst place.1 fun _ hc => List.mem_append_left _ hc) fun x s₁ g₁ a₁ hx => ?_
    have uses := place.2.mono point.sight fun v hv => (⟨point.sight v hv.1, hv.2⟩ : c.source.Settable Γ v)
    have calls := hrun.callable point (h.goes g₁) hst fun _ hc => List.mem_append_right value.calls hc
    refine a₁.bind (safe_place hrun target uses calls g₁.sees) fun q s₂ g₂ a₂ hq => ?_
    refine Ends.mono (safe_assign (M := Scoped.Program.Makes L i) g₂.sees hq (hx.goes g₂)) fun _ s₃ h₃ => ?_
    exact .plain (.still (a₂.goes h₃.1) (((h.goes g₁).goes g₂).goes h₃.1).returned)
  | assert condition span =>
    refine Ends.mono (ends_assertion hrun point h hst place fun _ hc => hc) fun _ s₁ h₁ => ?_
    exact .plain (.still (a.goes h₁.1) (h.goes h₁.1).returned)
  | branch cs otherwise span =>
    refine (ends_clauses hrun point hst h (fun _ hx => absurd hx List.not_mem_nil)
      (fun x hx => ⟨(place.1 x hx).1, fun call hc => ?_, (place.1 x hx).2, ?_⟩)
      fun body hbody => ⟨place.2 body hbody, ?_⟩).mono fun _ _ y => y.plain
    · exact List.mem_flatMap.2 ⟨x, hx, hc⟩
    · exact List.mem_append_left _ (List.mem_map_of_mem hx)
    · exact List.mem_append_right _ (Option.mem_toList.2 hbody)
  | loop counter start stop body allowUnroll span =>
    exact (ends_loop hrun eq point h).mono fun _ _ y => (y.mono (returns List.mem_cons_self)).plain
  | static body exports span =>
    exact (ends_static hrun eq point h).mono fun _ _ y => y.mono (returns List.mem_cons_self)
  | block body span =>
    exact (hrun.nested point h place).mono fun _ _ y => (y.mono (returns List.mem_cons_self)).plain
  | ret span =>
    refine .get_bind ?_
    split
    · exact .refuse_bind
    · rename_i outside
      have a₁ : Advances c.source L (L.rank i) Γ Γ (Scoped.Program.Makes L i) s { s with returned := true } :=
        a.alike ⟨rfl, rfl, rfl⟩ h.sees.out rfl (fun _ => .inl) rfl rfl
      exact .modify (.plain ⟨a₁, fun _ => ⟨Nat.eq_zero_of_not_pos outside, fun fuel => rfl⟩⟩)
  | expr value span =>
    refine a.bind (hrun.expression point h hst place fun _ hc => hc) fun x s₁ g₁ a₁ hx => ?_
    unfold discarded
    split
    · exact .pure (.plain (.still a₁ (h.goes g₁).returned))
    · exact .refuse

/-- The statements of a scope from some place on. -/
theorem ends_statements (hrun : Admits c L run) {ss : List Scoped.Stmt}
    (eq : c.source.statements i = before ++ ss) (point : c.source.Point L i before Γ)
    (h : s.Running c.source L (L.rank i) Γ) : Ends .faultless c s (statements run ss) fun s' _ =>
      ∃ done, Proceeds c.source L (L.rank i) Γ (Behind Γ done) (Scoped.Program.Makes L i) s s'
          (∀ fuel, c.source.returnsIn fuel i = true) ∧
        (∀ st ∈ done, st ∈ ss) ∧ ∀ st ∈ c.source.lasting i, st ∈ before ++ done := by
  induction ss generalizing before Γ s with
  | nil =>
    have nothing : Behind Γ [] = Γ := by
      funext v
      simp [Behind]
    refine .pure ⟨[], ?_, fun _ hst => hst, fun st hst => eq ▸ (List.takeWhile_prefix _).subset hst⟩
    rw [nothing]
    exact .still (.refl h.sees h.above) h.returned
  | cons st ss ih =>
    have hst := Scoped.Program.mem_statements eq
    refine (ends_statement hrun eq point h).bind fun _ s₁ y => .get_bind ?_
    have more (done : List Scoped.Stmt) : Behind (fun v => Γ v ∨ v ∈ st.declares) done = Behind Γ (st :: done) := by
      funext v
      simp only [Behind, List.mem_cons, exists_eq_or_imp, or_assoc]
    split
    · rename_i returned
      -- The rest is skipped, but nothing of what lasts stands behind a statement that returns.
      have returns := y.returned returned
      refine .pure ⟨[st], ⟨?_, fun _ => ⟨returns.1, fun fuel => ?_⟩⟩, fun st' hst' => ?_, fun st' hst' => ?_⟩
      · have one : Behind Γ [st] = fun v => Γ v ∨ v ∈ st.declares := by
          funext v
          simp [Behind]
        rw [one]
        exact y.advances
      · cases fuel with
        | zero => rfl
        | succ fuel => exact List.any_eq_true.2 ⟨st, hst, returns.2 fuel⟩
      · rw [List.mem_singleton.1 hst']
        exact List.mem_cons_self
      · exact List.mem_append_left _ (Scoped.Program.mem_of_mem_lasting eq (returns.2 _) hst')
    · rename_i running
      have eq' : c.source.statements i = (before ++ [st]) ++ ss := by rw [eq, List.append_assoc, List.singleton_append]
      have next := point.next hrun.laid eq y.advances.sees.closed
      refine (ih eq' next ⟨y.advances.sees, y.advances.above, by simpa using running⟩).mono fun _ s₂ h₂ => ?_
      obtain ⟨done, y₂, part, lasts⟩ := h₂
      refine ⟨st :: done, ?_, fun st' hst' => ?_, fun st' hst' => ?_⟩
      · rw [← more]
        exact ⟨y.advances.trans y₂.advances, fun returned => y.advances.conditional ▸ y₂.returned returned⟩
      · rcases List.mem_cons.1 hst' with rfl | hst'
        · exact List.mem_cons_self
        · exact List.mem_cons_of_mem _ (part st' hst')
      · simpa using lasts st' hst'

/-- The scopes of a direct, lasting program can be entered, however deep they may be nested. -/
theorem enters_block (laid : c.source.Laid L) (direct : c.source.Direct) (lasting : c.source.Lasting) (depth : Nat) :
    Admits c L (block depth) := by
  induction depth with
  | zero => exact ⟨laid, direct, lasting, fun _ _ => trivial⟩
  | succ depth ih =>
    refine ⟨laid, direct, lasting, fun {i Γ s} point h => .read_bind ?_⟩
    refine (ends_statements ih rfl point h).mono fun _ s₁ h₁ => ?_
    obtain ⟨done, y, part, lasts⟩ := h₁
    exact ⟨done, y.advances, part, lasts, y.returned⟩

end Statements

/-! ## Programs -/

/-- A program that is lexical, direct and lasting is staged without a fault, and then its variables can be held and its
literals are values of their types. -/
theorem ends_program (lexical : c.source.Lexical) (direct : c.source.Direct) (lasting : c.source.Lasting) (depth : Nat) :
    Ends .faultless c { tracked := Array.replicate c.source.vars.size none } (program depth) fun _ q => q.Fits := by
  obtain ⟨L, laid, frame, begins, predefined, creates⟩ := lexical
  have enters := enters_block laid direct lasting depth
  have point : c.source.Point L c.source.builtins [] fun _ => False :=
    ⟨⟨fun _ => False.elim, fun _ => False.elim, fun _ _ => False.elim⟩, begins, fun _ => False.elim⟩
  refine .read_bind ((enters.enter point .start).bind fun _ s₁ works => .modify_bind ?_)
  obtain ⟨done, works⟩ := works
  obtain ⟨returned, names⟩ := works.predefined creates
  -- What is in sight in the entry is what was made of the predefined names.
  have rank : L.rank c.source.entry = L.rank c.source.builtins := by rw [Layout.rank, Layout.rank, frame]
  have sees := works.advances.sees
  have point : c.source.Point L c.source.entry [] (Behind (fun _ => False) done) := by
    have seen (v : VarId) (hv : Behind (fun _ => False) done v) := laid.sight c.source.builtins v (.inl ((names v).1 hv))
    rw [← rank] at seen
    refine ⟨⟨fun v hv => (seen v hv).1, fun v hv => (seen v hv).2, sees.closed⟩, fun v hv => ?_, fun v hv _ => ?_⟩
    · exact (names v).2 ((predefined v).1 hv)
    · exact (predefined v).2 ((names v).1 hv)
  have entered : State.Running c.source L (L.rank c.source.entry) (Behind (fun _ => False) done)
      { s₁ with current := some s₁.out.entry } :=
    ⟨sees.view ⟨rfl, rfl, rfl⟩ sees.out sees.closed fun _ hv => ⟨hv, rfl⟩, rank ▸ works.advances.above, returned⟩
  refine (enters.enter point entered).bind fun _ s₂ works => ?_
  obtain ⟨done, works⟩ := works
  refine ends_ioSlots.bind fun inputs s₃ same => ends_ioSlots.bind fun outputs s₄ same' => .get_bind (.pure ?_)
  subst same same'
  exact ⟨works.advances.sees.out.1, works.advances.sees.out.2⟩

end Stage

section Programs

variable {source : Scoped.Program} (lexical : source.Lexical) (direct : source.Direct) (lasting : source.Lasting)
  (options : Options)

include lexical direct lasting

/-- Staging a program that is lexical, direct and lasting ends with variables that can be held and literals that are
values of their types, and reaches no fault, at whatever depth. -/
theorem resolveTo_faultless (depth : Nat) :
    (∀ q, resolveTo depth source options = .ok q → q.Fits) ∧
      ∀ f, resolveTo depth source options ≠ .error (.fault f) := by
  have ends := Stage.ends_program (c := ⟨source, options⟩) lexical direct lasting depth
  obtain ⟨fits, stops⟩ := resolveTo_ends ends
  exact ⟨fits, fun f stopped => stops _ stopped⟩

/-- A program that is lexical, direct and lasting is staged, or there is a problem with it: no depth beyond the number of
its scopes is used up. -/
theorem resolveTo_problem {depth : Nat} (h : source.scopes.size < depth) :
    (∃ q, resolveTo depth source options = .ok q) ∨
      ∃ problem, resolveTo depth source options = .error (.problem problem) := by
  have finite := (resolveTo_of_acyclic (lexical.acyclic direct) options h).1
  cases ended : resolveTo depth source options with
  | ok q => exact .inl ⟨q, rfl⟩
  | error e =>
    cases e with
    | problem problem => exact .inr ⟨problem, rfl⟩
    | fault f => exact absurd ended ((resolveTo_faultless lexical direct lasting options depth).2 f)
    | tooDeep => exact (finite _ ended rfl).elim

end Programs

end SignalLang.Staged
