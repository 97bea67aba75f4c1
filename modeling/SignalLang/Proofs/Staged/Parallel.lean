import SignalLang.Proofs.Staged.Pairs

/-!
# Two runs go alike

Staging depends on the variables that are mentioned, and neither on names nor on anything else that was worked out
before. So two runs go alike as long as they keep inside scopes that mention shared variables only: expressions,
statements, and whole scopes to any depth (`Pair.entered_block`).
-/

namespace SignalLang.Staged

open Scoped (VarId)

namespace Pair

variable {P : Pair} {strict : Prop} {s t : State}

/-! ## Expressions -/

section Run

open Stage

variable {run : Scoped.ScopeId → Stage Unit} {i : Scoped.ScopeId}

/-- A scope inside can be entered in both runs, whatever was worked out before. -/
structure Entered (P : Pair) (run : Scoped.ScopeId → Stage Unit) : Prop where
  alike : ∀ {j}, P.inside j → ∀ {strict s t}, P.States strict s t → s.Flows P.c.source →
    P.Run strict s t (run j) (run j) fun _ _ => True
  flows : ∀ j s, State.Flows P.c.source s → Ends (.faulty True) P.c s (run j) fun s' _ => s'.Flows P.c.source

/-- The calls stand in the scope `i`, and the variables are shared. -/
structure Stands (P : Pair) (i : Scoped.ScopeId) (calls : List Scoped.Call) (vars : List VarId) : Prop where
  calls : CallsStand P.c i calls
  vars : Scoped.Only P.shared vars

theorem Stands.left {xs ys : List Scoped.Call} {us vs : List VarId} (h : P.Stands i (xs ++ ys) (us ++ vs)) :
    P.Stands i xs us := ⟨h.calls.left, h.vars.left⟩

theorem Stands.right {xs ys : List Scoped.Call} {us vs : List VarId} (h : P.Stands i (xs ++ ys) (us ++ vs)) :
    P.Stands i ys vs := ⟨h.calls.right, h.vars.right⟩

theorem Entered.enters (hrun : P.Entered run) (i : Scoped.ScopeId) : Enters True P.c i run :=
  fun j _ s hs => hrun.flows j s hs

theorem bindings_zip (vs : List VarId) {given given' : List Value} (hg : List.Forall₂ P.Values given given') :
    P.Bindings (vs.zip given) (vs.zip given') := by
  induction hg generalizing vs with
  | nil => simp [Bindings]
  | cons hv _ ih =>
    cases vs with
    | nil => exact .nil
    | cons v vs => exact .cons ⟨rfl, hv⟩ (ih vs)

theorem run_inlineCall (hrun : P.Entered run) (h : P.States strict s t) (hs : s.Flows P.c.source) {site : MacroSite}
    (inside : P.inside site.body) (context : Table) {given given' : List (VarId × Value)}
    (hg : P.Bindings given given') (holds : ∀ e ∈ given, e.2.Flows P.c.source (P.c.source.Holds e.1))
    {outs : Stage Value}
    (houts : ∀ {s t}, P.States strict s t → s.Flows P.c.source → P.Run strict s t outs outs P.Values)
    (span : Span) {scope : ScopeId} (made : P.s₀.out.scopes.size ≤ scope ∧ P.t₀.out.scopes.size ≤ scope) :
    P.Run strict s t (inlineCall run site context given outs span scope)
      (inlineCall run site context given' outs span scope) P.Values := by
  refine .get_bind (.set_bind ?_)
  refine (run_bindInputs ?_ hg).bind_ends (flows_bindInputs ?_ holds) fun _ _ s₁ t₁ h₁ _ hs₁ => ?_
  · exact h.still (congrArg (fun u : State =>
      { u with current := some scope, conditional := 0, returned := false, table := context }) h.common) rfl rfl
  · exact ⟨hs.tracked, hs.log⟩
  refine (hrun.alike inside h₁ hs₁).bind_ends (hrun.flows _ s₁ hs₁) fun _ _ s₂ t₂ h₂ _ hs₂ => .modify_bind ?_
  refine (houts ?_ ?_).bind fun v v' s₃ t₃ h₃ hv => .modify_bind (.get_bind ?_)
  · rw [h.table]
    exact h₂.still (congrArg (fun u : State =>
      { u with returned := false, table := s.table ++ u.table }) h₂.common) rfl rfl
  · exact ⟨hs₂.tracked, hs₂.log⟩
  have back : P.States strict
      { s₃ with
        current := s.current, conditional := s.conditional, returned := s.returned, table := s.table
        tables := s₃.tables.tail }
      { t₃ with
        current := t.current, conditional := t.conditional, returned := t.returned, table := t.table
        tables := t₃.tables.tail } := by
    rw [h.current, h.conditional, h.returned, h.table]
    exact h₃.still (congrArg (fun u : State =>
      { u with
        current := s.current, conditional := s.conditional, returned := s.returned, table := s.table })
      h₃.common) rfl rfl
  rw [h₃.isEmpty made]
  dsimp only
  split
  · exact (run_emit back _).bind fun _ _ s₄ t₄ h₄ _ => .pure h₄ hv
  · exact .pure back hv

mutual

theorem run_expression (hrun : P.Entered run) (hi : P.inside i) : (e : Scoped.Expr) → P.Stands i e.calls e.vars →
    ∀ {s t : State}, P.States strict s t → s.Flows P.c.source →
    P.Run strict s t (expression run e) (expression run e) P.Values
  | .literal value span, _, s, t, h, _ => by
    rw [expression]
    refine (run_datumOf h value).bind fun d d' s₁ t₁ h₁ same => .pure h₁ ?_
    subst same
    exact .known ..
  | .var id span, he, s, t, h, _ => by
    rw [expression]
    rw [Scoped.Expr.vars] at he
    exact run_readVar h (he.vars id List.mem_cons_self) span
  | .collect [] span, _, s, t, h, _ => by
    rw [expression]
    exact .refuse (.refl _)
  | .collect (e :: es) span, he, s, t, h, hs => by
    rw [expression]
    rw [Scoped.Expr.calls, Scoped.callsOf, Scoped.Expr.vars, Scoped.varsOf] at he
    refine (run_expression hrun hi e he.left h hs).bind_ends (flows_expression (hrun.enters i) e he.left.calls hs)
      fun first first' s₁ t₁ h₁ hv hs₁ => ?_
    refine (run_items hrun hi hv es he.right h₁ hs₁.1).bind fun rest rest' s₂ t₂ h₂ hrest => ?_
    rw [hv.ty]
    exact run_collected h₂ (.cons hv hrest) _ _
  | .openBound span, _, s, t, h, _ => by
    rw [expression]
    exact run_boundValue h _ _ _
  | .upperBound upper span, he, s, t, h, hs => by
    rw [expression]
    rw [Scoped.Expr.calls, Scoped.Expr.vars] at he
    refine (run_expression hrun hi upper he h hs).bind fun u u' s₁ t₁ h₁ hu => ?_
    refine (run_concreteTypeOf h₁ _ hu).bind fun ty ty' s₂ t₂ h₂ same => ?_
    subst same
    exact run_boundValue h₂ _ _ _
  | .closedBound lower upper span, he, s, t, h, hs => by
    rw [expression]
    rw [Scoped.Expr.calls, Scoped.Expr.vars] at he
    refine (run_expression hrun hi lower he.left h hs).bind_ends
      (flows_expression (hrun.enters i) lower he.left.calls hs) fun l l' s₁ t₁ h₁ hl hs₁ => ?_
    refine (run_concreteTypeOf h₁ _ hl).bind_ends flows_concreteTypeOf fun ty ty' s₂ t₂ h₂ same same₁ => ?_
    subst same same₁
    refine (run_expression hrun hi upper he.right h₂ hs₁.1).bind fun u u' s₃ t₃ h₃ hu => ?_
    refine (run_concreteTypeOf h₃ _ hu).bind fun ty ty' s₄ t₄ h₄ same => ?_
    subst same
    exact run_boundValue h₄ _ _ _
  | .arrayType dims base span, he, s, t, h, hs => by
    rw [expression]
    rw [Scoped.Expr.calls, Scoped.Expr.vars] at he
    refine (run_lengthList hrun hi dims he.left h hs).bind_ends
      (flows_lengthList (hrun.enters i) dims he.left.calls hs) fun lengths lengths' s₁ t₁ h₁ same hs₁ => ?_
    subst same
    refine (run_expression hrun hi base he.right h₁ hs₁).bind fun b b' s₂ t₂ h₂ hb => ?_
    refine (run_typeOf h₂ _ hb).bind fun ty ty' s₃ t₃ h₃ same => .pure h₃ ?_
    subst same
    exact .known ..
  | .index base indexes span, he, s, t, h, hs => by
    rw [expression]
    rw [Scoped.Expr.calls, Scoped.Expr.vars] at he
    refine (run_expression hrun hi base he.left h hs).bind_ends
      (flows_expression (hrun.enters i) base he.left.calls hs) fun v v' s₁ t₁ h₁ hv hs₁ => ?_
    exact run_indexed hrun hi hv span indexes he.right h₁ hs₁.1 hs₁.2
  | .property base property span, he, s, t, h, hs => by
    rw [expression]
    rw [Scoped.Expr.calls, Scoped.Expr.vars] at he
    exact (run_expression hrun hi base he h hs).bind fun v v' s₁ t₁ h₁ hv => run_propertyValue h₁ hv _ _
  | .unary op operand span, he, s, t, h, hs => by
    rw [expression]
    rw [Scoped.Expr.calls, Scoped.Expr.vars] at he
    exact (run_expression hrun hi operand he h hs).bind fun v v' s₁ t₁ h₁ hv => run_unaryValue h₁ op hv _
  | .binary op left right span, he, s, t, h, hs => by
    rw [expression]
    rw [Scoped.Expr.calls, Scoped.Expr.vars] at he
    refine (run_expression hrun hi left he.left h hs).bind_ends
      (flows_expression (hrun.enters i) left he.left.calls hs) fun l l' s₁ t₁ h₁ hl hs₁ => ?_
    refine (run_expression hrun hi right he.right h₁ hs₁.1).bind fun r r' s₂ t₂ h₂ hr => ?_
    split
    · exact run_asTypeValue h₂ hl hr span
    · exact run_isInValue h₂ hl hr span
    · exact run_binaryValue h₂ _ hl hr span
  | .call callee calleeSpan inputs outputs span, he, s, t, h, hs => by
    rw [expression]
    rw [Scoped.Expr.calls, Scoped.Expr.vars] at he
    have here : P.c.source.CallIn i ⟨callee, inputs, outputs⟩ := he.calls _ List.mem_cons_self
    have shared : P.shared callee := he.vars _ List.mem_cons_self
    have he : P.Stands i (Scoped.callsOf inputs ++ Scoped.outputCalls outputs)
        (Scoped.varsOf inputs ++ Scoped.outputVars outputs) :=
      ⟨fun x hx => he.calls x (List.mem_cons_of_mem _ hx), fun v hv => he.vars v (List.mem_cons_of_mem _ hv)⟩
    refine (run_readVar h shared calleeSpan).bind_ends (flows_readVar hs callee calleeSpan)
      fun m m' s₁ t₁ h₁ hm hs₁ => ?_
    obtain ⟨hs₁, macros⟩ := hs₁
    cases hm with
    | runtime e ty mspan views => exact .check (.refl _) fun _ => .refuse (.refl _)
    | known d ty mspan =>
      refine .check (.refl _) fun _ => ?_
      dsimp only
      split
      · exact .refuse (.refl _)
      · rename_i site context hm
        cases hm
        have held : P.c.source.Holds callee site.body := macros site.body List.mem_cons_self
        have lead : P.c.source.Leads i site.body := .call here held
        have inside := P.leads hi lead
        refine .read_bind ?_
        -- The body of the macro has one list of inputs and one of outputs under both contexts.
        rw [P.renames.source.ins, P.renames.source.outs]
        refine (run_values hrun hi inputs he.left h₁ hs₁).bind_ends
          (flows_values (hrun.enters i) inputs he.left.calls hs₁) fun given given' s₂ t₂ h₂ hg hs₂ => ?_
        rw [← hg.length_eq]
        refine .check (.refl _) fun _ => .check (.refl _) fun _ => ?_
        refine (run_newScope h₂).bind_ends (flows_newScope hs₂.1) fun scope scope' s₃ t₃ h₃ made hs₃ => ?_
        obtain ⟨rfl, made⟩ := made
        refine run_inlineCall hrun h₃ hs₃ inside context (bindings_zip _ hg) (fun x hx => ?_) (fun h₄ hs₄ => ?_) span made
        · obtain ⟨n, hn⟩ := List.mem_iff_getElem?.1 hx
          obtain ⟨hv, hx⟩ := List.getElem?_zip_eq_some.1 hn
          obtain ⟨e, he, hx⟩ := hs₂.2 n _ hx
          exact hx.mono fun b hb => .passed here held hv he hb
        · refine run_callOutputs hrun hi (.known ..) span (P.mentions inside).left.right outputs he.right h₄ hs₄ ?_
          exact fun n w v indexes targetSpan outSpan hw hout b hb => .returned here held hw hout hb
      · exact .breakDown _ _

theorem run_items (hrun : P.Entered run) (hi : P.inside i) {first first' : Value} (hf : P.Values first first') :
    (es : List Scoped.Expr) → P.Stands i (Scoped.callsOf es) (Scoped.varsOf es) → ∀ {s t : State},
    P.States strict s t → s.Flows P.c.source →
    P.Run strict s t (items run first es) (items run first' es) (List.Forall₂ P.Values)
  | [], _, s, t, h, _ => by
    rw [items, items]
    exact .pure h .nil
  | e :: es, he, s, t, h, hs => by
    rw [items, items]
    rw [Scoped.callsOf, Scoped.varsOf] at he
    refine (run_expression hrun hi e he.left h hs).bind_ends (flows_expression (hrun.enters i) e he.left.calls hs)
      fun v v' s₁ t₁ h₁ hv hs₁ => ?_
    rw [hv.ty, hv.span, hf.ty, hf.span]
    refine .check (.refl _) fun _ => (run_items hrun hi hf es he.right h₁ hs₁.1).bind fun vs vs' s₂ t₂ h₂ hvs => ?_
    exact .pure h₂ (.cons hv hvs)

theorem run_values (hrun : P.Entered run) (hi : P.inside i) :
    (es : List Scoped.Expr) → P.Stands i (Scoped.callsOf es) (Scoped.varsOf es) → ∀ {s t : State},
    P.States strict s t → s.Flows P.c.source →
    P.Run strict s t (values run es) (values run es) (List.Forall₂ P.Values)
  | [], _, s, t, h, _ => by
    rw [values]
    exact .pure h .nil
  | e :: es, he, s, t, h, hs => by
    rw [values]
    rw [Scoped.callsOf, Scoped.varsOf] at he
    refine (run_expression hrun hi e he.left h hs).bind_ends (flows_expression (hrun.enters i) e he.left.calls hs)
      fun v v' s₁ t₁ h₁ hv hs₁ => ?_
    refine (run_values hrun hi es he.right h₁ hs₁.1).bind fun vs vs' s₂ t₂ h₂ hvs => ?_
    exact .pure h₂ (.cons hv hvs)

theorem run_lengthList (hrun : P.Entered run) (hi : P.inside i) :
    (es : List Scoped.Expr) → P.Stands i (Scoped.callsOf es) (Scoped.varsOf es) → ∀ {s t : State},
    P.States strict s t → s.Flows P.c.source → P.Run strict s t (lengthList run es) (lengthList run es) Eq
  | [], _, s, t, h, _ => by
    rw [lengthList]
    exact .pure h rfl
  | e :: es, he, s, t, h, hs => by
    rw [lengthList]
    rw [Scoped.callsOf, Scoped.varsOf] at he
    refine (run_expression hrun hi e he.left h hs).bind_ends (flows_expression (hrun.enters i) e he.left.calls hs)
      fun v v' s₁ t₁ h₁ hv hs₁ => ?_
    refine (run_lengthOf h₁ hv).bind_ends (flows_lengthOf v) fun n n' s₂ t₂ h₂ same same₁ => ?_
    subst same same₁
    refine (run_lengthList hrun hi es he.right h₂ hs₁.1).bind fun ns ns' s₃ t₃ h₃ same => .pure h₃ ?_
    rw [same]

theorem run_indexed (hrun : P.Entered run) (hi : P.inside i) {v v' : Value} (hv : P.Values v v') (whole : Span) :
    (args : List Scoped.IndexArg) → P.Stands i (Scoped.indexCalls args) (Scoped.indexVars args) →
    ∀ {S : Nat → Prop} {s t : State}, P.States strict s t → s.Flows P.c.source → v.Flows P.c.source S →
    P.Run strict s t (indexed run v whole args) (indexed run v' whole args) P.Values
  | [], _, S, s, t, h, _, _ => by
    rw [indexed, indexed]
    exact .pure h hv
  | .mk e optional :: rest, he, S, s, t, h, hs, hflows => by
    rw [indexed, indexed]
    rw [Scoped.indexCalls, Scoped.indexVars] at he
    refine (run_expression hrun hi e he.left h hs).bind_ends (flows_expression (hrun.enters i) e he.left.calls hs)
      fun index index' s₁ t₁ h₁ hindex hs₁ => ?_
    rw [hv.ty, hindex.span]
    split
    · refine (run_checkIndex h₁ hindex _ whole).bind_ends (flows_checkIndex index _ whole)
        fun _ _ s₂ t₂ h₂ _ same => ?_
      subst same
      refine (run_elementOf h₂ hv hindex _ whole).bind_ends (flows_elementOf hs₁.1 hflows)
        fun a a' s₃ t₃ h₃ ha hs₃ => ?_
      exact run_indexed hrun hi ha whole rest he.right h₃ hs₃.1 hs₃.2
    · split
      · exact run_indexed hrun hi hv whole rest he.right h₁ hs₁.1 hflows
      · exact .refuse (.refl _)

theorem run_callOutputs (hrun : P.Entered run) (hi : P.inside i) {result result' : Value}
    (hresult : P.Values result result') (span : Span) {vars : List VarId} (hvars : Scoped.Only P.shared vars) :
    (outs : List Scoped.Output) → P.Stands i (Scoped.outputCalls outs) (Scoped.outputVars outs) →
    ∀ {s t : State}, P.States strict s t → s.Flows P.c.source →
    (∀ (n : Nat) (w v : VarId) (indexes : List Scoped.Expr) (targetSpan outSpan : Span), vars[n]? = some w →
      outs[n]? = some (.target (.mk v indexes targetSpan) outSpan) →
      ∀ b, P.c.source.Holds w b → P.c.source.Holds v b) →
    P.Run strict s t (callOutputs run result span vars outs) (callOutputs run result' span vars outs) P.Values
  | [], _, s, t, h, _, _ => by
    rw [callOutputs, callOutputs]
    exact .pure h hresult
  | .inline outSpan :: rest, he, s, t, h, hs, hout => by
    rw [Scoped.outputCalls, Scoped.outputVars] at he
    cases vars with
    | nil =>
      rw [callOutputs, callOutputs]
      exact .pure h hresult
    | cons v vars =>
      rw [callOutputs, callOutputs]
      refine (run_readVar h (hvars v List.mem_cons_self) span).bind_ends (flows_readVar hs v span)
        fun a a' s₁ t₁ h₁ ha hs₁ => ?_
      have hvars : Scoped.Only P.shared vars := fun v hv => hvars v (List.mem_cons_of_mem _ hv)
      exact run_callOutputs hrun hi ha span hvars rest he h₁ hs₁.1 fun n => hout (n + 1)
  | .target (.mk v indexes targetSpan) outSpan :: rest, he, s, t, h, hs, hout => by
    rw [Scoped.outputCalls, Scoped.outputVars] at he
    cases vars with
    | nil =>
      rw [callOutputs, callOutputs]
      exact .pure h hresult
    | cons w vars =>
      rw [callOutputs, callOutputs]
      refine (run_place hrun hi (.mk v indexes targetSpan) he.left h hs).bind_ends
        (flows_place (hrun.enters i) (.mk v indexes targetSpan) he.left.calls hs) fun q q' s₁ t₁ h₁ same hs₁ => ?_
      subst same
      obtain ⟨hs₁, var⟩ := hs₁
      refine (run_readVar h₁ (hvars w List.mem_cons_self) outSpan).bind_ends (flows_readVar hs₁ w outSpan)
        fun a a' s₂ t₂ h₂ ha hs₂ => ?_
      have shared : P.shared q.var := by
        rw [var]
        exact he.left.vars v List.mem_cons_self
      have holds : a.Flows P.c.source (P.c.source.Holds q.var) :=
        hs₂.2.mono (var ▸ hout 0 w v indexes targetSpan outSpan rfl rfl)
      refine (run_assign h₂ shared ha outSpan).bind_ends (flows_assign hs₂.1 holds) fun _ _ s₃ t₃ h₃ _ hs₃ => ?_
      have hvars : Scoped.Only P.shared vars := fun v hv => hvars v (List.mem_cons_of_mem _ hv)
      exact run_callOutputs hrun hi hresult span hvars rest he.right h₃ hs₃ fun n => hout (n + 1)

theorem run_place (hrun : P.Entered run) (hi : P.inside i) : (u : Scoped.Target) → P.Stands i u.calls u.vars →
    ∀ {s t : State}, P.States strict s t → s.Flows P.c.source → P.Run strict s t (place run u) (place run u) Eq
  | .mk v indexes span, he, s, t, h, hs => by
    rw [place]
    rw [Scoped.Target.calls, Scoped.Target.vars] at he
    have he : P.Stands i (Scoped.callsOf indexes) (Scoped.varsOf indexes) :=
      ⟨he.calls, fun v hv => he.vars v (List.mem_cons_of_mem _ hv)⟩
    refine (run_recordOf h v).bind_ends (flows_recordOf v) fun p p' s₁ t₁ h₁ same same₁ => .get_bind ?_
    subst same same₁
    rw [h₁.inStatic]
    dsimp only
    split
    · exact Run.bind (R := fun _ _ => False) (run_crossStream v span) fun _ _ _ _ _ never => never.elim
    · exact run_placeUnder hrun hi _ indexes he h₁ hs

theorem run_placeUnder (hrun : P.Entered run) (hi : P.inside i) (p : Place) : (es : List Scoped.Expr) →
    P.Stands i (Scoped.callsOf es) (Scoped.varsOf es) → ∀ {s t : State}, P.States strict s t → s.Flows P.c.source →
    P.Run strict s t (placeUnder run p es) (placeUnder run p es) Eq
  | [], _, s, t, h, _ => by
    rw [placeUnder]
    exact .pure h rfl
  | e :: rest, he, s, t, h, hs => by
    rw [placeUnder]
    rw [Scoped.callsOf, Scoped.varsOf] at he
    split
    · refine (run_expression hrun hi e he.left h hs).bind_ends
        (flows_expression (hrun.enters i) e he.left.calls hs) fun index index' s₁ t₁ h₁ hindex hs₁ => ?_
      refine (run_checkIndex h₁ hindex _ _).bind_ends (flows_checkIndex index _ _) fun _ _ s₂ t₂ h₂ _ same => ?_
      subst same
      refine (run_record h₂ _).bind_ends (E := fun u _ => u = s₂) (.get_bind (.pure rfl))
        fun r r' s₃ t₃ h₃ same same₁ => ?_
      subst same same₁
      refine (run_addIndex h₃ p _ hindex _).bind_ends flows_addIndex fun q q' s₄ t₄ h₄ same same₁ => ?_
      subst same
      obtain ⟨rfl, _⟩ := same₁
      exact run_placeUnder hrun hi q rest he.right h₄ hs₁.1
    · exact .refuse (.refl _)
    · refine (run_record h _).bind fun r r' s₁ t₁ h₁ same => ?_
      subst same
      exact .refuse (.refl _)

end

/-! ## Statements -/

section Statements

variable (hrun : P.Entered run) (hi : P.inside i) (h : P.States strict s t) (hs : s.Flows P.c.source)

include hrun hi h hs

theorem run_creation (v : VarId) {type : Scoped.Expr} (he : P.Stands i type.calls type.vars) :
    P.Run strict s t (creation run v type) (creation run v type) fun _ _ => True := by
  refine (run_expression hrun hi type he h hs).bind fun ty ty' s₁ t₁ h₁ hty => ?_
  refine (run_typeOf h₁ _ hty).bind fun b b' s₂ t₂ h₂ same => .sourceVar_bind fun x name _ => .get_bind ?_
  subst same
  rw [h₂.inStatic]
  dsimp only
  split
  · refine (run_create h₂ _ _).bind fun _ _ s₃ t₃ h₃ _ => (run_datumOf h₃ _).bind fun d d' s₄ t₄ h₄ same => ?_
    subst same
    exact run_track h₄ _ _
  · split
    · split
      · refine Run.bind (R := Eq) (.map ((run_newSlot h₂ _ _).mono fun _ _ => congrArg some)) ?_
        intro slot slot' s₃ t₃ h₃ same
        subst same
        exact run_create h₃ _ _
      · exact run_create h₂ _ _
    · exact run_create h₂ _ _

theorem run_assertion {condition : Scoped.Expr} (span : Span) (he : P.Stands i condition.calls condition.vars) :
    P.Run strict s t (assertion run condition span) (assertion run condition span) fun _ _ => True := by
  refine (run_expression hrun hi condition he h hs).bind fun v v' s₁ t₁ h₁ hv => ?_
  rw [hv.ty, hv.span]
  refine .check (.refl _) fun _ => ?_
  cases hv with
  | runtime e ty vspan views => exact run_emit h₁ _
  | known d ty vspan =>
    cases d with
    | bool b =>
      cases b with
      | true => exact .pure h₁ trivial
      | false => exact .refuse (.refl _)
    | _ => exact .breakDown _ _

omit hi in
theorem run_guarded {body : Scoped.ScopeId} (inside : P.inside body) :
    P.Run strict s t (guarded run body) (guarded run body) Eq := by
  refine (run_newScope h).bind_ends (flows_newScope hs) fun scope scope' s₁ t₁ h₁ same hs₁ => ?_
  obtain ⟨rfl, -⟩ := same
  refine Run.bind (R := fun _ _ => True) ?_ fun _ _ s₂ t₂ h₂ _ => .pure h₂ rfl
  refine .get_bind (.modify_bind ((run_inBranch ?_ ?_ fun s t h hs => hrun.alike inside h hs).bind
    fun _ _ s₂ t₂ h₂ _ => .modify_bind (.pure ?_ trivial)))
  · exact h₁.still (congrArg (fun u : State => { u with current := some scope }) h₁.common) rfl rfl
  · exact ⟨hs₁.tracked, hs₁.log⟩
  · rw [h₁.current]
    exact h₂.still (congrArg (fun u : State => { u with current := s₁.current }) h₂.common) rfl rfl

theorem run_clauses {otherwise : Option Scoped.ScopeId} (span : Span) (done : List Clause) {cs : List Scoped.Clause}
    (hcs : ∀ x ∈ cs, P.Stands i x.condition.calls x.condition.vars ∧ P.inside x.body)
    (ho : ∀ body, otherwise = some body → P.inside body) :
    P.Run strict s t (clauses run otherwise span done cs) (clauses run otherwise span done cs) fun _ _ => True := by
  induction cs generalizing done s t with
  | nil =>
    unfold clauses
    split
    · exact .pure h trivial
    · exact hrun.alike (ho _ rfl) h hs
    · exact run_emit h _
    · refine (run_guarded hrun h hs (ho _ rfl)).bind fun scope scope' s₁ t₁ h₁ same => ?_
      subst same
      exact run_emit h₁ _
  | cons x rest ih =>
    obtain ⟨he, inside⟩ := hcs x List.mem_cons_self
    have hrest : ∀ y ∈ rest, P.Stands i y.condition.calls y.condition.vars ∧ P.inside y.body :=
      fun y hy => hcs y (List.mem_cons_of_mem _ hy)
    unfold clauses
    refine (run_expression hrun hi x.condition he h hs).bind_ends
      (flows_expression (hrun.enters i) x.condition he.calls hs) fun a a' s₁ t₁ h₁ ha hs₁ => ?_
    have keep : P.Run strict s₁ t₁
        (do
          let e ← asExpr a
          let scope ← guarded run x.body
          clauses run otherwise span (done ++ [⟨e, scope⟩]) rest)
        (do
          let e ← asExpr a'
          let scope ← guarded run x.body
          clauses run otherwise span (done ++ [⟨e, scope⟩]) rest) fun _ _ => True := by
      refine (run_asExpr h₁ ha).bind_ends (flows_asExpr a) fun e e' s₂ t₂ h₂ same same₁ => ?_
      subst same same₁
      refine (run_guarded hrun h₂ hs₁.1 inside).bind_ends (flows_guarded hs₁.1 (hrun.flows x.body))
        fun scope scope' s₃ t₃ h₃ same hs₃ => ?_
      subst same
      exact ih h₃ hs₃ _ hrest
    rw [ha.ty, ha.span]
    refine .check (.refl _) fun _ => ?_
    cases ha with
    | runtime e ty aspan views => exact keep
    | known d ty aspan =>
      cases d with
      | bool b =>
        cases b with
        | false => exact ih h₁ hs₁.1 _ hrest
        | true =>
          dsimp only
          split
          · exact hrun.alike inside h₁ hs₁.1
          · exact keep
      | _ => exact .breakDown _ _

omit hi in
theorem run_loopPass {body : Scoped.ScopeId} (inside : P.inside body) (into : Option ScopeId) :
    P.Run strict s t (loopPass run body into) (loopPass run body into) fun _ _ => True := by
  refine .get_bind (.set_bind ?_)
  rw [h.discarding, h.table]
  refine (run_withTable ?_ ?_ _ fun s t h hs => run_inBranch h hs fun s t h hs => hrun.alike inside h hs).bind
    fun _ _ s₁ t₁ h₁ _ => .modify ?_
  · exact h.still (congrArg (fun u : State =>
      { u with current := into, table := s.table, discarding := s.discarding || into.isNone }) h.common) rfl rfl
  · exact ⟨hs.tracked, hs.log⟩
  · rw [h.current]
    exact h₁.still (congrArg (fun u : State =>
      { u with current := s.current, discarding := s.discarding }) h₁.common) rfl rfl

omit hi in
theorem run_rounds (counter : VarId) {body : Scoped.ScopeId} (inside : P.inside body) (count : Nat) (n : Int) :
    P.Run strict s t (rounds run counter body count n) (rounds run counter body count n) fun _ _ => True := by
  induction count generalizing n s t with
  | zero => exact .pure h trivial
  | succ count ih =>
    refine .get_bind ?_
    rw [h.returned, h.table, h.inStatic]
    split
    · exact .pure h trivial
    · refine (run_withTable (R := fun _ _ => True) h hs _ fun s t h hs => ?_).bind_ends
        (flows_withTable (Q := fun _ _ => True) hs (fun t ht => ?_) fun _ _ q => q)
        fun _ _ s₁ t₁ h₁ _ hs₁ => ih h₁ hs₁.1 (n + 1)
      · refine (run_create h _ _).bind_ends (flows_create hs) fun _ _ s₁ t₁ h₁ _ hs₁ => ?_
        refine (run_track h₁ _ _).bind_ends (flows_track hs₁ fun b hb => by cases hb) fun _ _ s₂ t₂ h₂ _ hs₂ => ?_
        exact hrun.alike inside h₂ hs₂
      · refine (flows_create ht).bind fun _ s₁ h₁ => (flows_track h₁ fun b hb => by cases hb).bind fun _ s₂ h₂ => ?_
        exact (hrun.flows body s₂ h₂).mono fun _ _ h₃ => ⟨h₃, trivial⟩

omit hi in
theorem run_keptLoop (counter : VarId) {start start' stop stop' : Value} (hstart : P.Values start start')
    (hstop : P.Values stop stop') {body : Scoped.ScopeId} (inside : P.inside body) (span : Span) :
    P.Run strict s t (keptLoop run counter start stop body span) (keptLoop run counter start' stop' body span)
      fun _ _ => True := by
  have flows {s : State} (hs : s.Flows P.c.source) (into : Option ScopeId) :
      Ends (.faulty True) P.c s (loopPass run body into) fun s' _ => s'.Flows P.c.source :=
    flows_loopPass hs (hrun.flows body)
  refine .sourceVar_bind fun x name _ => ?_
  refine (run_newSlot h _ _).bind_ends (flows_newSlot hs) fun slot slot' s₁ t₁ h₁ same hs₁ => .get_bind ?_
  subst same
  rw [h₁.inStatic]
  refine (run_create h₁ _ _).bind_ends (flows_create hs₁) fun _ _ s₂ t₂ h₂ _ hs₂ => ?_
  refine (run_loopPass hrun h₂ hs₂ inside none).bind_ends (flows hs₂ none) fun _ _ s₃ t₃ h₃ _ hs₃ => ?_
  refine (run_newScope h₃).bind_ends (flows_newScope hs₃) fun scope scope' s₄ t₄ h₄ same hs₄ => ?_
  obtain ⟨rfl, -⟩ := same
  refine (run_loopPass hrun h₄ hs₄ inside (some scope)).bind fun _ _ s₅ t₅ h₅ _ => ?_
  refine (run_asExpr h₅ hstart).bind fun e e' s₆ t₆ h₆ same => ?_
  refine (run_asExpr h₆ hstop).bind fun f f' s₇ t₇ h₇ same' => ?_
  subst same same'
  exact run_emit h₇ _

theorem run_loop (counter : VarId) {start stop : Scoped.Expr} {body : Scoped.ScopeId} (allowUnroll : Bool)
    (span : Span) (he : P.Stands i (start.calls ++ stop.calls) (start.vars ++ stop.vars)) (inside : P.inside body) :
    P.Run strict s t (loop run counter start stop body allowUnroll span)
      (loop run counter start stop body allowUnroll span) fun _ _ => True := by
  refine (run_expression hrun hi start he.left h hs).bind_ends
    (flows_expression (hrun.enters i) start he.left.calls hs) fun lower lower' s₁ t₁ h₁ hl hs₁ => ?_
  refine (run_expression hrun hi stop he.right h₁ hs₁.1).bind_ends
    (flows_expression (hrun.enters i) stop he.right.calls hs₁.1) fun upper upper' s₂ t₂ h₂ hu hs₂ => ?_
  have kept := run_keptLoop hrun h₂ hs₂.1 counter hl hu inside span
  rw [hl.ty, hl.span, hu.ty, hu.span]
  refine .check (.refl _) fun _ => .check (.refl _) fun _ => ?_
  cases hl with
  | runtime e ty lspan views => exact kept
  | known d ty lspan =>
    cases hu with
    | runtime e ty' uspan views =>
      cases d <;> exact kept
    | known d' ty' uspan =>
      dsimp only
      split
      · refine .read_bind ?_
        rw [P.renames.options]
        split
        · exact run_rounds hrun h₂ hs₂.1 counter inside _ _
        · exact kept
      · refine .read_bind ?_
        rw [P.renames.options]
        split
        · exact .breakDown _ _
        · exact kept
      · exact kept

omit hrun hi hs in
theorem run_exported (exports : List VarId) (span : Span) :
    P.Run strict s t (exported exports span) (exported exports span) Eq := by
  unfold exported
  refine (Run.mapM (R := Eq) (Q := Eq) (List.forall₂_same.2 fun _ _ => rfl) h fun v v' s t same h => ?_).mono
    fun _ _ same => List.forall₂_eq_eq_eq ▸ same
  subst same
  refine (run_recordOf h v).bind fun p p' s₁ t₁ h₁ same => ?_
  subst same
  dsimp only
  split
  · exact .sourceVar_bind fun _ _ _ => .refuse_bind ⟨rfl, rfl⟩
  · exact .pure h₁ rfl

omit hi in
theorem run_static {body : Scoped.ScopeId} (inside : P.inside body) (exports : List VarId) (span : Span) :
    P.Run strict s t (static run body exports span) (static run body exports span) fun _ _ => True := by
  refine .get_bind (.set_bind ?_)
  rw [h.discarding, h.staticInit, h.table]
  refine (run_withTable (R := Eq) ?_ ?_ _ fun s t h hs =>
    (hrun.alike inside h hs).bind fun _ _ s₁ t₁ h₁ _ => run_exported h₁ exports span).bind
    fun records records' s₁ t₁ h₁ same => .modify_bind ?_
  · let into := if s.discarding then none else some s.out.staticInit
    exact h.still (congrArg (fun u : State =>
      { u with current := into, table := s.table, inStatic := true, discarding := s.discarding }) h.common) rfl rfl
  · exact ⟨hs.tracked, hs.log⟩
  subst same
  rw [h.current, h.inStatic]
  refine .forM ?_ fun x _ s t h => (run_create h _ _).bind fun _ _ s₂ t₂ h₂ _ => .get_bind ?_
  · exact h₁.still (congrArg (fun u : State =>
      { u with current := s.current, inStatic := s.inStatic }) h₁.common) rfl rfl
  · rw [h₂.discarding]
    split
    · refine .modify ?_
      exact h₂.still (congrArg (fun u : State =>
        { u with out := { u.out with statics := u.out.statics ++ x.2.slot.toList } }) h₂.common) rfl rfl
    · exact .pure h₂ trivial

theorem run_statement {st : Scoped.Stmt} (hst : st ∈ (P.c.source.scope i).body) :
    P.Run strict s t (statement run st) (statement run st) fun _ _ => True := by
  have calls : CallsStand P.c i st.calls := fun call hcall => ⟨st, hst, hcall⟩
  have vars : Scoped.Only P.shared st.vars := fun v hv =>
    (P.mentions hi).right v (List.mem_flatMap.2 ⟨st, Array.mem_toList_iff.2 hst, hv⟩)
  have inside (j : Scoped.ScopeId) (hj : j ∈ st.scopes) : P.inside j := P.leads hi (.nested hst hj)
  cases st with
  | create v type span => exact run_creation hrun hi h hs v ⟨calls, fun v hv => vars v (List.mem_cons_of_mem _ hv)⟩
  | assign target value span =>
    obtain ⟨v, indexes, targetSpan⟩ := target
    have he : P.Stands i (value.calls ++ Scoped.Target.calls (.mk v indexes targetSpan))
      (value.vars ++ Scoped.Target.vars (.mk v indexes targetSpan)) := ⟨calls, vars⟩
    refine (run_expression hrun hi value he.left h hs).bind_ends
      (flows_expression (hrun.enters i) value he.left.calls hs) fun a a' s₁ t₁ h₁ ha hs₁ => ?_
    refine (run_place hrun hi (.mk v indexes targetSpan) he.right h₁ hs₁.1).bind_ends
      (flows_place (hrun.enters i) (.mk v indexes targetSpan) he.right.calls hs₁.1) fun q q' s₂ t₂ h₂ same hs₂ => ?_
    subst same
    refine run_assign h₂ ?_ ha span
    rw [hs₂.2]
    exact he.right.vars v List.mem_cons_self
  | assert condition span => exact run_assertion hrun hi h hs span ⟨calls, vars⟩
  | branch cs otherwise span =>
    refine run_clauses hrun hi h hs span [] (fun x hx => ⟨⟨fun call hcall => ?_, fun v hv => ?_⟩, inside _ ?_⟩)
      fun body hbody => inside _ ?_
    · exact calls call (List.mem_flatMap.2 ⟨x, hx, hcall⟩)
    · exact vars v (List.mem_flatMap.2 ⟨x, hx, hv⟩)
    · exact List.mem_append_left _ (List.mem_map_of_mem hx)
    · exact List.mem_append_right _ (Option.mem_toList.2 hbody)
  | loop counter start stop body allowUnroll span =>
    exact run_loop hrun hi h hs counter allowUnroll span ⟨calls, fun v hv => vars v (List.mem_cons_of_mem _ hv)⟩
      (inside body List.mem_cons_self)
  | static body exports span => exact run_static hrun h hs (inside body List.mem_cons_self) exports span
  | block body span => exact hrun.alike (inside body List.mem_cons_self) h hs
  | ret span =>
    refine .get_bind ?_
    rw [h.conditional]
    split
    · exact .refuse_bind (.refl _)
    · exact .modify (h.still (congrArg (fun u : State => { u with returned := true }) h.common) rfl rfl)
  | expr value span =>
    refine (run_expression hrun hi value ⟨calls, vars⟩ h hs).bind fun a a' s₁ t₁ h₁ ha => ?_
    unfold discarded
    rw [ha.ty]
    cases ha with
    | known d ty aspan =>
      dsimp only
      split
      · exact .pure h₁ trivial
      · exact .refuse (.refl _)
    | runtime e ty aspan views => exact .refuse (.refl _)

theorem run_statements {ss : List Scoped.Stmt} (hss : ∀ st ∈ ss, st ∈ (P.c.source.scope i).body) :
    P.Run strict s t (statements run ss) (statements run ss) fun _ _ => True := by
  induction ss generalizing s t with
  | nil => exact .pure h trivial
  | cons st ss ih =>
    have hst := hss st List.mem_cons_self
    refine (run_statement hrun hi h hs hst).bind_ends (flows_statement (hrun.enters i) hs hst)
      fun _ _ s₁ t₁ h₁ _ hs₁ => .get_bind ?_
    rw [h₁.returned]
    split
    · exact .pure h₁ trivial
    · exact ih h₁ hs₁ fun st' hst' => hss st' (List.mem_cons_of_mem _ hst')

end Statements

end Run

open Stage

/-- Whatever is in a scope, it goes alike in both runs, to any depth. -/
theorem entered_block (P : Pair) (depth : Nat) : P.Entered (block depth) := by
  induction depth with
  | zero => exact ⟨fun _ _ _ _ _ _ => .error .tooDeep, fun _ _ _ => trivial⟩
  | succ depth ih =>
    refine ⟨fun {i} hi {strict s t} h hs => .read_bind ?_, fun i s hs => flows_toDepth (depth + 1) i hs⟩
    rw [P.renames.source.body]
    exact run_statements ih hi h hs fun st hst => Array.mem_toList_iff.1 hst

end Pair

end SignalLang.Staged
