import Mathlib.Data.Prod.Lex
import SignalLang.Proofs.Scoped.Lexical

/-!
# Direct calls and lasting declarations

A program is direct when every call names a macro, and no call stands in an index of a target that takes an output. It
is lasting when no return can skip the declaration of an output of a macro or of an export of a static block. Both can
be decided.

In a lexical program that is direct a call always goes to a lower macro (`Layout.rank`), so calls are never nested
without end. A `View` is what is in sight in a body of some rank, and a `Point` is a place in a scope with a view. The
body of a macro that is in view has a point of its own, with the variables it can reach (`Program.Reach`).
-/

namespace SignalLang

/-- Whether a constant is a macro. -/
def Constant.isMacro : Constant → Bool
  | .macroRef _ => true
  | _ => false

namespace Scoped

/-- Whether a call names a macro and has no call in its targets. -/
def Call.isDirect (p : Program) (call : Call) : Bool :=
  (p.var call.callee).initial.any Constant.isMacro && (outputCalls call.outputs).isEmpty

/-- A call reads only variables among `R` and assigns only variables among `W`. -/
def Call.Uses (R W : VarId → Prop) (call : Call) : Prop :=
  R call.callee ∧ AllUse R W call.inputs ∧ OutputsUse R W call.outputs

/-- The exports of a statement with the scope that declares them. -/
def Stmt.exported : Stmt → List (ScopeId × VarId)
  | .static body exports _ => exports.map (body, ·)
  | _ => []

/-- Whether a statement is a return. -/
def Stmt.isReturn : Stmt → Bool
  | .ret _ => true
  | _ => false

theorem Layout.Inside.height {L : Layout} {i : ScopeId} {v : VarId} (h : L.Inside i v) : L.height v = L.rank i := by
  rw [Layout.height, h.owner, Layout.rank]

namespace Program

variable {p : Program} {L : Layout} {i j : ScopeId} {v w m : VarId} {S T Γ : VarId → Prop} {st : Stmt}

/-- Every call is direct. -/
def Direct (p : Program) : Prop :=
  ∀ scope ∈ p.scopes.toList, ∀ st ∈ scope.body.toList, ∀ call ∈ st.calls, call.isDirect p = true

instance (p : Program) : Decidable p.Direct := inferInstanceAs (Decidable (∀ _ ∈ _, _))

/-- Whether a return may stand in a scope or in the scopes inside it. -/
def returnsIn (p : Program) : (fuel : Nat) → ScopeId → Bool
  | 0, _ => true
  | fuel + 1, i => (p.statements i).any fun st => st.isReturn || st.scopes.any (p.returnsIn fuel)

/-- Whether a return may stand in a statement. -/
def mayReturn (p : Program) (fuel : Nat) (st : Stmt) : Bool := st.isReturn || st.scopes.any (p.returnsIn fuel)

/-- The statements of a scope before the first that may return. -/
def lasting (p : Program) (i : ScopeId) : List Stmt :=
  (p.statements i).takeWhile fun st => !p.mayReturn p.scopes.size st

/-- The statements of a scope from the first on that may return. -/
def skippable (p : Program) (i : ScopeId) : List Stmt :=
  (p.statements i).dropWhile fun st => !p.mayReturn p.scopes.size st

/-- No return skips the declaration of an output or of an export. -/
def Lasting (p : Program) : Prop :=
  ∀ i < p.scopes.size, (∀ v ∈ (p.scope i).outputs, ∀ st ∈ p.skippable i, v ∉ st.declares) ∧
    ∀ st ∈ p.statements i, ∀ e ∈ st.exported, ∀ st' ∈ p.skippable e.1, e.2 ∉ st'.declares

instance (p : Program) : Decidable p.Lasting := inferInstanceAs (Decidable (∀ _ < _, _))

/-! ## Reading the conditions -/

theorem mem_scopes_of_statements (h : st ∈ p.statements i) :
    i < p.scopes.size ∧ p.scope i ∈ p.scopes.toList := by
  rw [statements, scope, Array.getD_eq_getD_getElem?] at h
  cases found : p.scopes[i]? with
  | none =>
    rw [found] at h
    cases h
  | some s =>
    refine ⟨(Array.getElem?_eq_some_iff.1 found).1, ?_⟩
    rw [scope, Array.getD_eq_getD_getElem?, found]
    exact Array.mem_toList_iff.2 (Array.mem_of_getElem? found)

/-- A direct call names a macro. -/
theorem Direct.call (h : p.Direct) (hst : st ∈ p.statements i) {call : Call} (hcall : call ∈ st.calls) :
    (∃ site, (p.var call.callee).initial = some (.macroRef site)) ∧ outputCalls call.outputs = [] := by
  have direct := h _ (mem_scopes_of_statements hst).2 st hst call hcall
  rw [Call.isDirect, Bool.and_eq_true, List.isEmpty_iff] at direct
  refine ⟨?_, direct.2⟩
  cases found : (p.var call.callee).initial with
  | none =>
    rw [found] at direct
    cases direct.1
  | some value =>
    rw [found] at direct
    cases value <;> first | exact ⟨_, rfl⟩ | cases direct.1

/-- No output is declared where a return may skip it. -/
theorem Lasting.output (h : p.Lasting) (hv : v ∈ (p.scope i).outputs) : ∀ st ∈ p.skippable i, v ∉ st.declares :=
  fun st hst => (h i (mem_scopes_of_statements ((List.dropWhile_suffix _).subset hst)).1).1 v hv st hst

/-- No export is declared where a return may skip it. -/
theorem Lasting.exported (h : p.Lasting) {body : ScopeId} {exports : List VarId} {span : Span}
    (hst : .static body exports span ∈ p.statements i) (hv : v ∈ exports) :
    ∀ st ∈ p.skippable body, v ∉ st.declares :=
  (h i (mem_scopes_of_statements hst).1).2 _ hst (body, v) (List.mem_map_of_mem hv)

theorem Sight.mono {before after : List Stmt} (h : p.Sight L i before v) (hsub : ∀ st ∈ before, st ∈ after) :
    p.Sight L i after v :=
  h.imp_left fun ⟨st, hst, hv⟩ => ⟨st, hsub st hst, hv⟩

theorem mem_lasting_or_skippable (h : st ∈ p.statements i) : st ∈ p.lasting i ∨ st ∈ p.skippable i := by
  have split : p.lasting i ++ p.skippable i = p.statements i := List.takeWhile_append_dropWhile
  rw [← split] at h
  exact List.mem_append.1 h

theorem sight_lasting (h : p.Sight L i (p.statements i) v) (early : ∀ st ∈ p.skippable i, v ∉ st.declares) :
    p.Sight L i (p.lasting i) v := by
  refine h.imp_left fun ⟨st, hst, hv⟩ => ⟨st, ?_, hv⟩
  rcases mem_lasting_or_skippable hst with hst | hst
  · exact hst
  · exact absurd hv (early st hst)

theorem mem_statements {before after : List Stmt} (eq : p.statements i = before ++ st :: after) :
    st ∈ p.statements i := by
  rw [eq]
  exact List.mem_append_right _ List.mem_cons_self

/-- A return may stand in a statement when it may stand in a scope of it. -/
theorem mayReturn_of_returnsIn {body : ScopeId} (hbody : body ∈ st.scopes) (all : ∀ fuel, p.returnsIn fuel body = true)
    (fuel : Nat) : p.mayReturn fuel st = true := by
  rw [mayReturn, Bool.or_eq_true]
  exact .inr (List.any_eq_true.2 ⟨body, hbody, all fuel⟩)

/-- What is declared before a statement that returns is all that lasts. -/
theorem mem_of_mem_lasting {before after : List Stmt} {st' : Stmt} (eq : p.statements i = before ++ st :: after)
    (returns : p.mayReturn p.scopes.size st = true) (h : st' ∈ p.lasting i) : st' ∈ before := by
  rw [lasting, eq] at h
  clear eq
  induction before with
  | nil =>
    rw [List.nil_append, List.takeWhile_cons, returns] at h
    cases h
  | cons x xs ih =>
    rw [List.cons_append, List.takeWhile_cons] at h
    split at h
    · rcases List.mem_cons.1 h with rfl | h
      · exact List.mem_cons_self
      · exact List.mem_cons_of_mem _ (ih h)
    · cases h

/-! ## Calls go down -/

section Calls

variable {R W : VarId → Prop} {call : Call}

mutual

/-- A call in an expression uses only what the expression uses. -/
theorem uses_of_calls : {e : Expr} → e.Uses R W → call ∈ e.calls → call.Uses R W
  | .literal .., _, hc | .var .., _, hc | .openBound _, _, hc => by cases hc
  | .collect _ _, h, hc => uses_of_callsOf h hc
  | .upperBound upper _, h, hc => uses_of_calls (e := upper) h hc
  | .closedBound .., h, hc => by
    rcases List.mem_append.1 hc with hc | hc
    · exact uses_of_calls h.1 hc
    · exact uses_of_calls h.2 hc
  | .arrayType .., h, hc => by
    rcases List.mem_append.1 hc with hc | hc
    · exact uses_of_callsOf h.1 hc
    · exact uses_of_calls h.2 hc
  | .index .., h, hc => by
    rcases List.mem_append.1 hc with hc | hc
    · exact uses_of_calls h.1 hc
    · exact uses_of_indexCalls h.2 hc
  | .property base _ _, h, hc => uses_of_calls (e := base) h hc
  | .unary _ operand _, h, hc => uses_of_calls (e := operand) h hc
  | .binary .., h, hc => by
    rcases List.mem_append.1 hc with hc | hc
    · exact uses_of_calls h.1 hc
    · exact uses_of_calls h.2 hc
  | .call .., h, hc => by
    rcases List.mem_cons.1 hc with rfl | hc
    · exact h
    · rcases List.mem_append.1 hc with hc | hc
      · exact uses_of_callsOf h.2.1 hc
      · exact uses_of_outputCalls h.2.2 hc

theorem uses_of_callsOf : {es : List Expr} → AllUse R W es → call ∈ callsOf es → call.Uses R W
  | _ :: _, h, hc => by
    rcases List.mem_append.1 hc with hc | hc
    · exact uses_of_calls h.1 hc
    · exact uses_of_callsOf h.2 hc

theorem uses_of_indexCalls : {args : List IndexArg} → IndexesUse R W args → call ∈ indexCalls args →
    call.Uses R W
  | .mk _ _ :: _, h, hc => by
    rcases List.mem_append.1 hc with hc | hc
    · exact uses_of_calls h.1 hc
    · exact uses_of_indexCalls h.2 hc

theorem uses_of_outputCalls : {l : List Output} → OutputsUse R W l → call ∈ outputCalls l →
    call.Uses R W
  | .inline _ :: rest, h, hc => uses_of_outputCalls (l := rest) h hc
  | .target _ _ :: _, h, hc => by
    rcases List.mem_append.1 hc with hc | hc
    · exact uses_of_targetCalls h.1 hc
    · exact uses_of_outputCalls h.2 hc

theorem uses_of_targetCalls : {t : Target} → t.Uses R W → call ∈ t.calls → call.Uses R W
  | .mk _ _ _, h, hc => uses_of_callsOf h.2 hc

end

/-- A call in a statement uses only what may be used where the statement stands. -/
theorem Places.callUses (h : p.Places L i S st) (hc : call ∈ st.calls) :
    call.Uses S (p.Settable S) := by
  cases st with
  | create v type span => exact uses_of_calls h.1 hc
  | assign target value span =>
    rcases List.mem_append.1 hc with hc | hc
    · exact uses_of_calls h.1 hc
    · exact uses_of_targetCalls h.2 hc
  | assert condition span => exact uses_of_calls h hc
  | branch clauses otherwise span =>
    obtain ⟨x, hx, hc⟩ := List.mem_flatMap.1 hc
    exact uses_of_calls (h.1 x hx).1 hc
  | loop counter start stop body allowUnroll span =>
    rcases List.mem_append.1 hc with hc | hc
    · exact uses_of_calls h.1 hc
    · exact uses_of_calls h.2.1 hc
  | static body exports span => cases hc
  | block body span => cases hc
  | ret span => cases hc
  | expr value span => exact uses_of_calls (e := value) h hc

theorem writes_of_outputsUse {outs : List Output} (h : OutputsUse R W outs) {n : Nat} {indexes : List Expr}
    {targetSpan span : Span} (found : outs[n]? = some (.target (.mk v indexes targetSpan) span)) : W v := by
  induction outs generalizing n with
  | nil => cases found
  | cons out rest ih =>
    cases n with
    | zero =>
      cases found
      exact h.1.1
    | succ n =>
      cases out with
      | inline _ => exact ih h found
      | target t _ => exact ih h.2 found

end Calls

/-- A variable with a value from the start holds no macro but its own. -/
theorem Laid.eq_of_holds (h : p.Laid L) (direct : p.Direct) : ∀ {m : VarId} {b : ScopeId}, p.Holds m b →
    ∀ {site : MacroSite}, (p.var m).initial = some (.macroRef site) → b = site.body
  | _, _, .initial initial mem, site, hm => by
    rw [hm] at initial
    cases initial
    exact List.mem_singleton.1 mem
  | _, _, .assigned mem _, site, hm => by
    obtain ⟨before, after, eq⟩ := List.append_of_mem (Array.mem_toList_iff.2 mem)
    have place := h.stmts _ before _ after eq
    rw [place.2.1.2] at hm
    cases hm
  | _, _, .passed hcall held input _ _, site, hm => by
    obtain ⟨st, hst, hcall⟩ := hcall
    obtain ⟨⟨site', hsite'⟩, -⟩ := direct.call (Array.mem_toList_iff.2 hst) hcall
    have body := eq_of_holds h direct held hsite'
    subst body
    rw [((h.bodies _ _ hsite').inputs _ (List.mem_of_getElem? input)).2] at hm
    cases hm
  | _, _, .returned hcall _ _ target _, site, hm => by
    obtain ⟨st, hst, hcall⟩ := hcall
    obtain ⟨before, after, eq⟩ := List.append_of_mem (Array.mem_toList_iff.2 hst)
    have settable := writes_of_outputsUse ((h.stmts _ before _ after eq).callUses hcall).2.2 target
    rw [settable.2] at hm
    cases hm

theorem Laid.rank_body (h : p.Laid L) {site : MacroSite} (hm : (p.var m).initial = some (.macroRef site)) :
    L.rank site.body = m := by
  rw [Layout.rank, (h.bodies m site hm).frame, (h.bodies m site hm).past]

theorem Places.nested (h : p.Places L i S st) (hj : j ∈ st.scopes) : ∃ T, p.Nests L i S T j := by
  cases st with
  | branch clauses otherwise span =>
    rcases List.mem_append.1 hj with hj | hj
    · obtain ⟨x, hx, rfl⟩ := List.mem_map.1 hj
      exact ⟨S, (h.1 x hx).2⟩
    · exact ⟨S, h.2 j (Option.mem_toList.1 hj)⟩
  | loop counter start stop body allowUnroll span =>
    obtain rfl := List.mem_singleton.1 hj
    exact ⟨_, h.2.2.2.2.2⟩
  | static body exports span =>
    obtain rfl := List.mem_singleton.1 hj
    exact ⟨S, h.1⟩
  | block body span =>
    obtain rfl := List.mem_singleton.1 hj
    exact ⟨S, h⟩
  | _ => cases hj

/-- A lexical program whose calls are direct is acyclic: a scope leads to lower macros, and to later scopes of the
macro it belongs to. -/
theorem Lexical.acyclic (h : p.Lexical) (direct : p.Direct) : p.Acyclic := by
  obtain ⟨L, laid, -⟩ := h
  refine acyclic_of_measure (fun i => toLex (L.rank i, OrderDual.toDual i)) fun i j leads => ?_
  rw [Prod.Lex.toLex_lt_toLex]
  cases leads with
  | nested hst hj =>
    obtain ⟨before, after, eq⟩ := List.append_of_mem (Array.mem_toList_iff.2 hst)
    obtain ⟨T, nests⟩ := (laid.stmts i before _ after eq).nested hj
    exact .inr ⟨by rw [Layout.rank, Layout.rank, nests.frame], nests.inner⟩
  | call hcall holds =>
    obtain ⟨st, hst, hcall⟩ := hcall
    obtain ⟨⟨site, hsite⟩, -⟩ := direct.call (Array.mem_toList_iff.2 hst) hcall
    obtain rfl := laid.eq_of_holds direct holds hsite
    refine .inl ?_
    rw [laid.rank_body hsite]
    obtain ⟨before, after, eq⟩ := List.append_of_mem (Array.mem_toList_iff.2 hst)
    have seen := ((laid.stmts i before _ after eq).callUses hcall).1
    refine (laid.sight i _ (seen.mono fun st hst => ?_)).1
    rw [statements, eq]
    exact List.mem_append_left _ hst

/-! ## Points -/

/-- What the macros among `Γ` see is among `Γ`. -/
def Closed (p : Program) (L : Layout) (Γ : VarId → Prop) : Prop :=
  ∀ m site, Γ m → (p.var m).initial = some (.macroRef site) → ∀ w, L.sees site.body w → Γ w

/-- The variables that working the body of a macro out can come across: what is in sight where it begins, and what is
in sight where the macros among these begin. -/
inductive Reach (p : Program) (L : Layout) (b : ScopeId) : VarId → Prop where
  | sees {w : VarId} : L.sees b w → Reach p L b w
  | through {m w : VarId} {site : MacroSite} : Reach p L b m → (p.var m).initial = some (.macroRef site) →
    L.sees site.body w → Reach p L b w

theorem Closed.reach (h : p.Closed L Γ) {b : ScopeId} (hb : ∀ w, L.sees b w → Γ w) (hw : p.Reach L b w) : Γ w := by
  induction hw with
  | sees hw => exact hb _ hw
  | through _ hm hw ih => exact h _ _ ih hm _ hw

/-- What can be in sight in a body of a rank: lower variables of bodies that are not lower. -/
structure View (p : Program) (L : Layout) (rank : VarId) (Γ : VarId → Prop) : Prop where
  lt : ∀ v, Γ v → v < rank
  height : ∀ v, Γ v → rank ≤ L.height v
  closed : p.Closed L Γ

/-- A place in the scope `i` behind the statements `before`, where `Γ` is in view. -/
structure Point (p : Program) (L : Layout) (i : ScopeId) (before : List Stmt) (Γ : VarId → Prop) : Prop where
  view : p.View L (L.rank i) Γ
  sight : ∀ v, p.Sight L i before v → Γ v
  apart : ∀ v, Γ v → L.Inside i v → p.Sight L i before v

/-- The variables that working a scope out can make: those inside it, and those of lower macros. -/
def Makes (L : Layout) (i : ScopeId) (v : VarId) : Prop := L.Inside i v ∨ L.height v < L.rank i

namespace Point

variable {before after : List Stmt}

/-- The point behind a statement. -/
theorem next (h : p.Point L i before Γ) (laid : p.Laid L) (eq : p.statements i = before ++ st :: after)
    (closed : p.Closed L fun v => Γ v ∨ v ∈ st.declares) :
    p.Point L i (before ++ [st]) fun v => Γ v ∨ v ∈ st.declares := by
  have declared (v : VarId) (hv : v ∈ st.declares) : v < L.rank i ∧ L.rank i ≤ L.height v := by
    exact laid.sight i v (.inl ⟨st, mem_statements eq, hv⟩)
  refine ⟨⟨?_, ?_, closed⟩, ?_, ?_⟩
  · rintro v (hv | hv)
    · exact h.view.lt v hv
    · exact (declared v hv).1
  · rintro v (hv | hv)
    · exact h.view.height v hv
    · exact (declared v hv).2
  · rintro v (⟨st', hst', hv⟩ | hv)
    · rcases List.mem_append.1 hst' with hst' | hst'
      · exact .inl (h.sight v (.inl ⟨st', hst', hv⟩))
      · obtain rfl := List.mem_singleton.1 hst'
        exact .inr hv
    · exact .inl (h.sight v (.inr hv))
  · rintro v (hv | hv) inside
    · exact (h.apart v hv inside).mono fun st' hst' => List.mem_append_left _ hst'
    · exact .inl ⟨st, List.mem_append_right _ (List.mem_singleton.2 rfl), hv⟩

/-- A statement declares nothing that was in view. -/
theorem fresh (h : p.Point L i before Γ) {type : Expr} (hd : p.Declares L i (p.Sight L i before) v type) : ¬Γ v :=
  fun hv => hd.fresh (h.apart v hv hd.inside)

/-- A nested scope makes nothing that is in view around it. -/
theorem unseen (h : p.Point L i before Γ) (hn : p.Nests L i (p.Sight L i before) T j) (inside : L.Inside j v) : ¬Γ v :=
  fun hv => hn.apart v (h.apart v hv (hn.inside inside)) ⟨inside.first, inside.past⟩

/-- The start of a nested scope. -/
theorem nested (h : p.Point L i before Γ) (hn : p.Nests L i (p.Sight L i before) (p.Sight L i before) j) :
    p.Point L j [] Γ := by
  have rank := hn.rank
  refine ⟨rank ▸ h.view, ?_, fun v hv inside => ?_⟩
  · rintro v (⟨_, hst, -⟩ | hv | hv)
    · cases hst
    · rw [hn.inputs] at hv
      cases hv
    · exact h.sight v (hn.sees v hv)
  · exact absurd hv (h.unseen hn inside)

/-- The start of the body of a loop, whose counter is in view there. -/
theorem loopBody (h : p.Point L i before Γ) (laid : p.Laid L) {counter : VarId}
    (hn : p.Nests L i (p.Sight L i before) (fun v => p.Sight L i before v ∨ v = counter) j)
    (sees : L.sees j counter) (initial : (p.var counter).initial = none) :
    p.Point L j [] fun v => Γ v ∨ v = counter := by
  have rank := hn.rank
  have seen := laid.sight j counter (.inr (.inr sees))
  rw [rank] at seen
  refine ⟨⟨?_, ?_, ?_⟩, ?_, ?_⟩
  · rintro v (hv | rfl)
    · exact rank ▸ h.view.lt v hv
    · exact rank ▸ seen.1
  · rintro v (hv | rfl)
    · exact rank ▸ h.view.height v hv
    · exact rank ▸ seen.2
  · rintro m site (hm | rfl) hsite w hw
    · exact .inl (h.view.closed m site hm hsite w hw)
    · rw [initial] at hsite
      cases hsite
  · rintro v (⟨_, hst, -⟩ | hv | hv)
    · cases hst
    · rw [hn.inputs] at hv
      cases hv
    · exact (hn.sees v hv).imp_left (h.sight v)
  · rintro v (hv | rfl) inside
    · exact absurd hv (h.unseen hn inside)
    · exact .inr (.inr sees)

end Point

/-- The start of the body of a macro that is in view. -/
theorem View.body {rank : VarId} (h : p.View L rank Γ) (laid : p.Laid L) {site : MacroSite} (hm : Γ m)
    (initial : (p.var m).initial = some (.macroRef site)) :
    p.Point L site.body [] fun v => p.Reach L site.body v ∨ v ∈ (p.scope site.body).inputs := by
  have bodies := laid.bodies m site initial
  have hrank := laid.rank_body initial
  have inputs (v : VarId) (hv : v ∈ (p.scope site.body).inputs) := laid.sight site.body v (.inr (.inl hv))
  have reach (w : VarId) (hw : p.Reach L site.body w) : Γ w := h.closed.reach (h.closed m site hm initial) hw
  have lt (w : VarId) (hw : p.Reach L site.body w) : w < m := by
    induction hw with
    | sees hw => exact hrank ▸ (laid.sight site.body _ (.inr (.inr hw))).1
    | through _ hsite hw ih =>
      have lower := (laid.sight _ _ (.inr (.inr hw))).1
      rw [laid.rank_body hsite] at lower
      exact Nat.lt_trans lower ih
  have height (w : VarId) (hw : p.Reach L site.body w) : m < L.height w :=
    Nat.lt_of_lt_of_le (h.lt m hm) (h.height w (reach w hw))
  refine ⟨⟨?_, ?_, ?_⟩, ?_, ?_⟩
  · rintro v (hv | hv)
    · exact hrank ▸ lt v hv
    · exact (inputs v hv).1
  · rintro v (hv | hv)
    · exact hrank ▸ Nat.le_of_lt (height v hv)
    · exact (inputs v hv).2
  · rintro m' site' (hm' | hm') hsite w hw
    · exact .inl (.through hm' hsite hw)
    · rw [(bodies.inputs m' hm').2] at hsite
      cases hsite
  · rintro v (⟨_, hst, -⟩ | hv | hv)
    · cases hst
    · exact .inr hv
    · exact .inl (.sees hv)
  · rintro v (hv | hv) inside
    · exact absurd (hrank ▸ inside.height) (Nat.ne_of_gt (height v hv))
    · exact .inr (.inl hv)

theorem Makes.nested (h : Makes L j v) (hn : p.Nests L i S T j) : Makes L i v := by
  have rank := hn.rank
  exact h.imp hn.inside fun lower => rank ▸ lower

/-- What a call makes is lower than the body it stands in. -/
theorem Makes.lower {rank : VarId} (h : Makes L i v) (lt : L.rank i < rank) : L.height v < rank := by
  rcases h with inside | lower
  · exact inside.height ▸ lt
  · exact Nat.lt_trans lower lt

end Program

end Scoped

end SignalLang
