import SignalLang.Proofs.Scoped.Flow
import SignalLang.Proofs.Scoped.Plain
import SignalLang.Proofs.Staged.Values
import SignalLang.Staged.Resolve

/-!
# Staging keeps its invariant

Expressions and statements keep the invariant when entering a scope does (`Runs`), so by induction on the depth
every scope does. A program that was worked out is therefore well formed: `wellFormed_of_resolve`.
-/

namespace SignalLang.Staged

open Scoped (VarId Only writtenBy writtenBy_append writtenBy_cons)
open Steps

/-- A clause that was kept: its condition is a truth value, and its scope lies inside the current one. -/
structure Clause.Kept (s : State) (x : Clause) : Prop where
  condition : x.condition.WellFormed s.out.vars ∧ x.condition.ty = .bool
  made : x.body < s.out.scopes.size
  inner : ∀ i, s.current = some i → i < x.body

theorem Clause.Kept.mono {source : Scoped.Program} {W : VarId → Prop} {o o' : Owners} {s s' : State}
    (h : Reaches source W o s o' s') {x : Clause} (hx : x.Kept s) : x.Kept s' :=
  ⟨⟨hx.condition.1.mono h.grows.vars, hx.condition.2⟩, Nat.lt_of_lt_of_le hx.made h.grows.scopes,
    fun i hi => hx.inner i (h.current ▸ hi)⟩

namespace Stage

variable {α : Type} {c : Context} {W : VarId → Prop} {o : Owners} {s : State} {run : Scoped.ScopeId → Stage Unit}

theorem keeps_bindInputs (h : s.Sound c.source o) {given : List (VarId × Value)}
    (hg : ∀ p ∈ given, p.2.Sound o s.out.vars) : Keeps c W o s (bindInputs given) fun _ _ _ => True := by
  induction given generalizing o s with
  | nil => exact .pure h trivial
  | cons p rest ih =>
    obtain ⟨v, ⟨content, ty, span⟩⟩ := p
    have hv := hg _ List.mem_cons_self
    have others {o' : Owners} {s' : State} (reach : Reaches c.source W o s o' s') :
        ∀ p ∈ rest, p.2.Sound o' s'.out.vars := fun p hp => (hg p (List.mem_cons_of_mem _ hp)).mono reach
    refine .get_bind ?_
    cases content with
    | known d =>
      have record : Record.Sound s.out.vars ⟨none, .exactly ty, s.inStatic⟩ :=
        ⟨Bound.isPositive_exactly hv.positive, nofun⟩
      refine (keeps_create h record nofun).bind fun _ o₁ s₁ reach₁ _ => ?_
      have hd : d.Sound o₁ := Datum.Sound.mono reach₁.owners hv.content
      refine (keeps_track reach₁.sound hd).bind fun _ o₂ s₂ reach₂ _ => ?_
      exact ih reach₂.sound (others (reach₁.trans reach₂))
    | runtime e glimpse =>
      obtain ⟨⟨he, rfl, -⟩, -⟩ := hv.content
      refine (keeps_newSlot h hv.positive).bind fun slot o₁ s₁ reach₁ hslot => ?_
      obtain ⟨same, hvar, hfresh⟩ := hslot
      have record : Record.Sound s₁.out.vars ⟨some slot, .exactly e.ty, s.inStatic⟩ := by
        refine ⟨Bound.isPositive_exactly hv.positive, fun k hk => ?_⟩
        cases hk
        exact ⟨_, hvar, rfl⟩
      refine (keeps_create reach₁.sound record ?_).bind fun _ o₂ s₂ reach₂ _ => ?_
      · intro k hk i r' hr' hslot'
        cases hk
        exact (hfresh r' (same ▸ Array.mem_of_getElem? hr') hslot').elim
      · have reach := reach₁.trans reach₂
        refine (keeps_emit reach₂.sound ?_ fun _ _ _ hj => by cases hj).bind fun _ o₃ s₃ reach₃ _ => ?_
        · exact ⟨he.mono reach.grows.vars, Ty.promotesTo_refl _, _, reach₂.grows.vars _ _ hvar, rfl⟩
        · exact ih reach₃.sound (others (reach.trans reach₃))

/-- A call that was checked: the body of the macro goes to a scope of its own, under the table of the macro. -/
def inlineCall (run : Scoped.ScopeId → Stage Unit) (site : MacroSite) (context : Table)
    (given : List (VarId × Value)) (outs : Stage Value) (span : Span) (scope : ScopeId) : Stage Value := do
  let s ← get
  set { s with
    current := some scope, conditional := 0, returned := false, table := context, tables := s.table :: s.tables }
  bindInputs given
  run site.body
  modify fun t => { t with returned := false, table := s.table ++ t.table }
  let result ← outs
  modify fun t => { t with
    current := s.current, conditional := s.conditional, returned := s.returned, table := s.table
    tables := t.tables.tail }
  if !((← get).out.scope scope).isEmpty then emit (.inlined scope span)
  return result

theorem keeps_inlineCall (hrun : Runs c W run) (h : s.Sound c.source o) {site : MacroSite} {context : Table}
    {given : List (VarId × Value)} {outs : Stage Value} {span : Span} {scope : ScopeId}
    (hcontext : TableOwned o context) (hg : ∀ p ∈ given, p.2.Sound o s.out.vars)
    (houts : ∀ o' s', s'.Sound c.source o' → Keeps c W o' s' outs fun o' s' a => a.Sound o' s'.out.vars)
    (hscope : scope < s.out.scopes.size) (hinner : ∀ i, s.current = some i → i < scope) :
    Keeps c W o s (inlineCall run site context given outs span scope) fun o' s' a =>
      a.Sound o' s'.out.vars := by
  refine .get_bind ?_
  intro result s' ended
  obtain ⟨_, s₀, set, ended⟩ := bind_ok.1 ended
  obtain rfl := set_ok.1 set
  have entered : State.Sound c.source o { s with
      current := some scope, conditional := 0, returned := false, table := context, tables := s.table :: s.tables } :=
    { h with table := hcontext, current := fun i hi => by cases hi; exact hscope }
  obtain ⟨_, s₁, first, ended⟩ := bind_ok.1 ended
  obtain ⟨o₁, reach₁, -⟩ := keeps_bindInputs entered hg _ _ first
  obtain ⟨_, s₂, body, ended⟩ := bind_ok.1 ended
  obtain ⟨o₂, reach₂, -⟩ := hrun o₁ s₁ site.body reach₁.sound _ _ body
  have reach₂ := reach₁.trans reach₂
  obtain ⟨_, s₃, joined, ended⟩ := bind_ok.1 ended
  obtain rfl := modify_ok.1 joined
  have table₃ : TableOwned o₂ (s.table ++ s₂.table) :=
    (h.table.mono reach₂.owners).append reach₂.sound.table
  have sound₃ : State.Sound c.source o₂ { s₂ with returned := false, table := s.table ++ s₂.table } :=
    { reach₂.sound with table := table₃ }
  obtain ⟨value, s₄, outputs, ended⟩ := bind_ok.1 ended
  obtain ⟨o₄, reach₄, hvalue⟩ := houts o₂ _ sound₃ _ _ outputs
  have grows : s.Grows s₄ := ⟨reach₂.grows.vars.trans reach₄.grows.vars,
    Nat.le_trans reach₂.grows.scopes reach₄.grows.scopes,
    fun i r hr hs => reach₄.grows.settled i r (reach₂.grows.settled i r hr hs) hs⟩
  have owners : Extends o o₄ := reach₂.owners.trans reach₄.owners
  obtain ⟨_, s₅, back, ended⟩ := bind_ok.1 ended
  obtain rfl := modify_ok.1 back
  have sound₅ : State.Sound c.source o₄ { s₄ with
      current := s.current, conditional := s.conditional, returned := s.returned, table := s.table
      tables := s₄.tables.tail } :=
    { reach₄.sound with
      table := h.table.mono owners
      current := fun i hi => Nat.lt_of_lt_of_le (h.current i hi) grows.scopes }
  have reach₅ : Reaches c.source W o s o₄ { s₄ with
      current := s.current, conditional := s.conditional, returned := s.returned, table := s.table
      tables := s₄.tables.tail } :=
    ⟨owners, ⟨grows.vars, grows.scopes, grows.settled⟩, rfl, sound₅,
      fun i v hv hw => (reach₄.apart i v (reach₂.owners i v hv) hw).trans (reach₂.apart i v hv hw)⟩
  have rest : Keeps c W o₄ { s₄ with
      current := s.current, conditional := s.conditional, returned := s.returned, table := s.table
      tables := s₄.tables.tail } (do
        if !((← get).out.scope scope).isEmpty then emit (.inlined scope span)
        return value) fun o' s' a => a.Sound o' s'.out.vars := by
    refine .get_bind ?_
    dsimp only
    split
    · have formed : Stmt.WellFormed s₄.out.vars (.inlined scope span) := trivial
      refine (keeps_emit sound₅ formed fun i hi j hj => ?_).bind fun _ o₆ s₆ reach₆ _ => ?_
      · obtain rfl := List.mem_singleton.1 hj
        exact ⟨hinner i hi, Nat.lt_of_lt_of_le hscope grows.scopes⟩
      · exact .pure reach₆.sound (Value.Sound.mono reach₆ hvalue)
    · exact .pure sound₅ hvalue
  obtain ⟨o₆, reach₆, hq⟩ := rest _ _ ended
  exact ⟨o₆, reach₅.trans reach₆, hq⟩

/-! ## Expressions -/

mutual

theorem keeps_expression (hrun : Runs c W run) : (e : Scoped.Expr) → e.Plain →
    Only W (writtenBy e.calls) → ∀ {o : Owners} {s : State}, s.Sound c.source o →
    Keeps c W o s (expression run e) fun o' s' a => a.Sound o' s'.out.vars
  | .literal value span, he, hw, o, s, h => by
    rw [expression]
    refine .get_bind (.pure h (Value.sound_known ?_ (Datum.sound_ofConstant h.table he)))
    exact Constant.Plain.isPositive_ty he
  | .var id span, _, _, o, s, h => by
    rw [expression]
    exact (keeps_readVar h id span).mono fun _ _ _ _ hv => hv.1
  | .collect [] span, _, _, o, s, h => by
    rw [expression]
    exact .refuse
  | .collect (e :: es) span, he, hw, o, s, h => by
    rw [expression]
    rw [Scoped.Expr.calls, Scoped.callsOf, writtenBy_append] at hw
    refine (keeps_expression hrun e he.1 hw.left h).bind fun first o₁ s₁ reach₁ hfirst => ?_
    refine (keeps_items hrun first es he.2 hw.right reach₁.sound).bind fun rest o₂ s₂ reach₂ hrest => ?_
    refine keeps_collected reach₂.sound (List.cons_ne_nil _ _) (fun v hv => ?_) fun v hv => ?_
    · rcases List.mem_cons.1 hv with rfl | hv
      · exact hfirst.mono reach₂
      · exact (hrest v hv).1
    · rcases List.mem_cons.1 hv with rfl | hv
      · rfl
      · exact (hrest v hv).2
  | .openBound span, _, _, o, s, h => by
    rw [expression]
    exact keeps_boundValue h _ _ _
  | .upperBound upper span, he, hw, o, s, h => by
    rw [expression]
    rw [Scoped.Expr.calls] at hw
    refine (keeps_expression hrun upper he hw h).bind fun u o₁ s₁ reach₁ hu => ?_
    refine (keeps_concreteTypeOf reach₁.sound hu).bind fun t o₂ s₂ reach₂ _ => ?_
    exact keeps_boundValue reach₂.sound _ _ _
  | .closedBound lower upper span, he, hw, o, s, h => by
    rw [expression]
    rw [Scoped.Expr.calls, writtenBy_append] at hw
    refine (keeps_expression hrun lower he.1 hw.left h).bind fun l o₁ s₁ reach₁ hl => ?_
    refine (keeps_concreteTypeOf reach₁.sound hl).bind fun t o₂ s₂ reach₂ _ => ?_
    refine (keeps_expression hrun upper he.2 hw.right reach₂.sound).bind fun u o₃ s₃ reach₃ hu => ?_
    refine (keeps_concreteTypeOf reach₃.sound hu).bind fun t' o₄ s₄ reach₄ _ => ?_
    exact keeps_boundValue reach₄.sound _ _ _
  | .arrayType dims base span, he, hw, o, s, h => by
    rw [expression]
    rw [Scoped.Expr.calls, writtenBy_append] at hw
    refine (keeps_lengthList hrun dims he.1 hw.left h).bind fun lengths o₁ s₁ reach₁ hlengths => ?_
    refine (keeps_expression hrun base he.2 hw.right reach₁.sound).bind fun b o₂ s₂ reach₂ hb => ?_
    refine (keeps_typeOf reach₂.sound hb).bind fun t o₃ s₃ reach₃ ht => ?_
    exact .pure reach₃.sound (Value.sound_known (Ty.isPositive_prim _) (ht.2.wrap hlengths))
  | .index base indexes span, he, hw, o, s, h => by
    rw [expression]
    rw [Scoped.Expr.calls, writtenBy_append] at hw
    refine (keeps_expression hrun base he.1 hw.left h).bind fun v o₁ s₁ reach₁ hv => ?_
    exact keeps_indexed hrun v span indexes he.2 hw.right reach₁.sound hv
  | .property base property span, he, hw, o, s, h => by
    rw [expression]
    rw [Scoped.Expr.calls] at hw
    refine (keeps_expression hrun base he hw h).bind fun v o₁ s₁ reach₁ hv => ?_
    exact keeps_propertyValue reach₁.sound hv
  | .unary op operand span, he, hw, o, s, h => by
    rw [expression]
    rw [Scoped.Expr.calls] at hw
    refine (keeps_expression hrun operand he hw h).bind fun v o₁ s₁ reach₁ hv => ?_
    exact keeps_unaryValue reach₁.sound hv
  | .binary op left right span, he, hw, o, s, h => by
    rw [expression]
    rw [Scoped.Expr.calls, writtenBy_append] at hw
    refine (keeps_expression hrun left he.1 hw.left h).bind fun l o₁ s₁ reach₁ hl => ?_
    refine (keeps_expression hrun right he.2 hw.right reach₁.sound).bind fun r o₂ s₂ reach₂ hr => ?_
    have hl := hl.mono reach₂
    split
    · exact keeps_asTypeValue reach₂.sound hl hr
    · exact keeps_isInValue reach₂.sound hr
    · exact keeps_binaryValue reach₂.sound hl hr
  | .call callee calleeSpan inputs outputs span, he, hw, o, s, h => by
    rw [expression]
    rw [Scoped.Expr.calls, writtenBy_cons, writtenBy_append] at hw
    refine (keeps_readVar h callee calleeSpan).bind fun m o₁ s₁ reach₁ hm => ?_
    obtain ⟨content, ty, mspan⟩ := m
    refine .check fun _ => ?_
    dsimp only
    split
    · exact .refuse
    · rename_i site context _
      have hcontext : TableOwned o₁ context := hm.1.content
      refine .read_bind ?_
      refine (keeps_values hrun inputs he.1 hw.right.left reach₁.sound).bind fun given o₂ s₂ reach₂ hgiven => ?_
      refine .check fun _ => .check fun _ => ?_
      refine (keeps_newScope reach₂.sound).bind fun scope o₃ s₃ reach₃ hscope => ?_
      have hcontext := hcontext.mono (reach₂.owners.trans reach₃.owners)
      refine keeps_inlineCall hrun reach₃.sound hcontext (fun p hp => ?_) (fun o' s' h' => ?_) hscope.1 hscope.2
      · exact (hgiven p.2 (List.of_mem_zip hp).2).mono reach₃
      · exact keeps_callOutputs hrun _ span _ outputs he.2 hw.left hw.right.right h'
          (Value.sound_known (Ty.isPositive_prim _) trivial)
    · exact .breakDown

theorem keeps_items (hrun : Runs c W run) (first : Value) : (es : List Scoped.Expr) → Scoped.AllPlain es →
    Only W (writtenBy (Scoped.callsOf es)) → ∀ {o : Owners} {s : State}, s.Sound c.source o →
    Keeps c W o s (items run first es) fun o' s' vs => ∀ v ∈ vs, v.Sound o' s'.out.vars ∧ v.ty = first.ty
  | [], _, _, o, s, h => by
    rw [items]
    exact .pure h fun v hv => by cases hv
  | e :: es, he, hw, o, s, h => by
    rw [items]
    rw [Scoped.callsOf, writtenBy_append] at hw
    refine (keeps_expression hrun e he.1 hw.left h).bind fun v o₁ s₁ reach₁ hv => ?_
    refine .check fun hty => ?_
    refine (keeps_items hrun first es he.2 hw.right reach₁.sound).bind fun vs o₂ s₂ reach₂ hvs => ?_
    refine .pure reach₂.sound fun w hw => ?_
    rcases List.mem_cons.1 hw with rfl | hw
    · exact ⟨hv.mono reach₂, Decidable.not_not.1 hty⟩
    · exact hvs w hw

theorem keeps_values (hrun : Runs c W run) : (es : List Scoped.Expr) → Scoped.AllPlain es →
    Only W (writtenBy (Scoped.callsOf es)) → ∀ {o : Owners} {s : State}, s.Sound c.source o →
    Keeps c W o s (values run es) fun o' s' vs => ∀ v ∈ vs, v.Sound o' s'.out.vars
  | [], _, _, o, s, h => by
    rw [values]
    exact .pure h fun v hv => by cases hv
  | e :: es, he, hw, o, s, h => by
    rw [values]
    rw [Scoped.callsOf, writtenBy_append] at hw
    refine (keeps_expression hrun e he.1 hw.left h).bind fun v o₁ s₁ reach₁ hv => ?_
    refine (keeps_values hrun es he.2 hw.right reach₁.sound).bind fun vs o₂ s₂ reach₂ hvs => ?_
    refine .pure reach₂.sound fun w hw => ?_
    rcases List.mem_cons.1 hw with rfl | hw
    · exact hv.mono reach₂
    · exact hvs w hw

theorem keeps_lengthList (hrun : Runs c W run) : (es : List Scoped.Expr) → Scoped.AllPlain es →
    Only W (writtenBy (Scoped.callsOf es)) → ∀ {o : Owners} {s : State}, s.Sound c.source o →
    Keeps c W o s (lengthList run es) fun _ _ ns => ∀ n ∈ ns, 0 < n
  | [], _, _, o, s, h => by
    rw [lengthList]
    exact .pure h fun n hn => by cases hn
  | e :: es, he, hw, o, s, h => by
    rw [lengthList]
    rw [Scoped.callsOf, writtenBy_append] at hw
    refine (keeps_expression hrun e he.1 hw.left h).bind fun v o₁ s₁ reach₁ _ => ?_
    refine (keeps_lengthOf reach₁.sound v).bind fun n o₂ s₂ reach₂ hn => ?_
    refine (keeps_lengthList hrun es he.2 hw.right reach₂.sound).bind fun ns o₃ s₃ reach₃ hns => ?_
    refine .pure reach₃.sound fun m hm => ?_
    rcases List.mem_cons.1 hm with rfl | hm
    · exact hn.2
    · exact hns m hm

theorem keeps_indexed (hrun : Runs c W run) (v : Value) (whole : Span) : (args : List Scoped.IndexArg) →
    Scoped.IndexesPlain args → Only W (writtenBy (Scoped.indexCalls args)) → ∀ {o : Owners} {s : State},
    s.Sound c.source o → v.Sound o s.out.vars →
    Keeps c W o s (indexed run v whole args) fun o' s' a => a.Sound o' s'.out.vars
  | [], _, _, o, s, h, hv => by
    rw [indexed]
    exact .pure h hv
  | .mk e optional :: rest, he, hw, o, s, h, hv => by
    rw [indexed]
    rw [Scoped.indexCalls, writtenBy_append] at hw
    refine (keeps_expression hrun e he.1 hw.left h).bind fun index o₁ s₁ reach₁ hindex => ?_
    split
    · rename_i length elem hty
      refine (keeps_checkIndex reach₁.sound index length whole).bind fun _ o₂ s₂ reach₂ hchecked => ?_
      obtain ⟨rfl, hint, hrange⟩ := hchecked
      refine (keeps_elementOf reach₂.sound ((hv.mono reach₁).mono reach₂) hty (hindex.mono reach₂) hint
        hrange).bind fun a o₃ s₃ reach₃ ha => ?_
      exact keeps_indexed hrun a whole rest he.2 hw.right reach₃.sound ha.1
    · split
      · exact keeps_indexed hrun v whole rest he.2 hw.right reach₁.sound (hv.mono reach₁)
      · exact .refuse

theorem keeps_callOutputs (hrun : Runs c W run) (result : Value) (span : Span) (vars : List VarId) :
    (outs : List Scoped.Output) → Scoped.OutputsPlain outs → Only W (outs.flatMap Scoped.Output.written) →
    Only W (writtenBy (Scoped.outputCalls outs)) → ∀ {o : Owners} {s : State},
    s.Sound c.source o → result.Sound o s.out.vars →
    Keeps c W o s (callOutputs run result span vars outs) fun o' s' a => a.Sound o' s'.out.vars
  | [], _, _, _, o, s, h, hr => by
    rw [callOutputs]
    exact .pure h hr
  | .inline _ :: rest, he, targets, hw, o, s, h, hr => by
    rw [List.flatMap_cons] at targets
    rw [Scoped.outputCalls] at hw
    cases vars with
    | nil =>
      rw [callOutputs]
      exact .pure h hr
    | cons v vars =>
      rw [callOutputs]
      refine (keeps_readVar h v span).bind fun a o₁ s₁ reach₁ ha => ?_
      exact keeps_callOutputs hrun a span vars rest he targets.right hw reach₁.sound ha.1
  | .target target outSpan :: rest, he, targets, hw, o, s, h, hr => by
    rw [List.flatMap_cons] at targets
    rw [Scoped.outputCalls, writtenBy_append] at hw
    cases vars with
    | nil =>
      rw [callOutputs]
      exact .pure h hr
    | cons v vars =>
      rw [callOutputs]
      refine (keeps_place hrun target he.1 hw.left h).bind fun p o₁ s₁ reach₁ hp => ?_
      obtain ⟨hp, aims⟩ := hp
      refine (keeps_readVar reach₁.sound v outSpan).bind fun a o₂ s₂ reach₂ ha => ?_
      refine (keeps_assign reach₂.sound (hp.mono reach₂ (.inr ha.2)) (aims ▸ targets _ (.head _)) ha.1).bind
        fun _ o₃ s₃ reach₃ _ => ?_
      exact keeps_callOutputs hrun result span vars rest he.2 targets.right hw.right reach₃.sound
        (hr.mono ((reach₁.trans reach₂).trans reach₃))

theorem keeps_place (hrun : Runs c W run) : (t : Scoped.Target) → t.Plain → Only W (writtenBy t.calls) →
    ∀ {o : Owners} {s : State}, s.Sound c.source o →
    Keeps c W o s (place run t) fun o' s' p => p.Sound o' s' ∧ p.var = t.var
  | .mk var indexes span, he, hw, o, s, h => by
    rw [place]
    rw [Scoped.Target.calls] at hw
    refine (keeps_recordOf h var).bind fun p o₁ s₁ reach₁ hp => ?_
    obtain ⟨id, r⟩ := p
    obtain ⟨rfl, shows, howner⟩ := hp
    dsimp only at shows howner ⊢
    refine .get_bind ?_
    have start : Place.Sound o₁ s₁ ⟨var, id, [], none, r.bound.actual, span⟩ := by
      refine ⟨howner, fun ty hty => ⟨shows.sound.bound ty hty, r, ty, ?_, hty, rfl⟩, fun hty => ⟨rfl, rfl, ?_⟩⟩
      · exact shows.found (by rw [show r.bound.actual = some ty from hty]; rfl)
      · exact fun r' hr' => shows.unique r' hr' ▸ hty
    split
    · exact Keeps.bind (Q := fun _ _ _ => False) (keeps_crossStream var span) fun _ _ _ _ never => never.elim
    · exact keeps_placeUnder hrun _ indexes he hw reach₁.sound start

theorem keeps_placeUnder (hrun : Runs c W run) (p : Place) : (es : List Scoped.Expr) →
    Scoped.AllPlain es → Only W (writtenBy (Scoped.callsOf es)) → ∀ {o : Owners} {s : State},
    s.Sound c.source o → p.Sound o s →
    Keeps c W o s (placeUnder run p es) fun o' s' q => q.Sound o' s' ∧ q.var = p.var
  | [], _, _, o, s, h, hp => by
    rw [placeUnder]
    exact .pure h ⟨hp, rfl⟩
  | e :: rest, he, hw, o, s, h, hp => by
    rw [placeUnder]
    rw [Scoped.callsOf, writtenBy_append] at hw
    split
    · rename_i length elem hty
      refine (keeps_expression hrun e he.1 hw.left h).bind fun index o₁ s₁ reach₁ hindex => ?_
      refine (keeps_checkIndex reach₁.sound index length p.span).bind fun _ o₂ s₂ reach₂ hchecked => ?_
      obtain ⟨rfl, hint, hrange⟩ := hchecked
      have hp := hp.mono reach₁ (.inl (by rw [hty]; rfl))
      refine (keeps_record reach₂.sound p.record).bind fun r o₃ s₃ reach₃ hr => ?_
      obtain ⟨rfl, -⟩ := hr
      have hp := hp.mono (reach₂.trans reach₃) (.inr rfl)
      refine (keeps_addIndex reach₃.sound hp hty ((hindex.mono reach₂).mono reach₃) hint hrange).bind
        fun q o₄ s₄ reach₄ hq => ?_
      exact (keeps_placeUnder hrun q rest he.2 hw.right reach₄.sound hq.1).mono
        fun _ _ _ _ hr => ⟨hr.1, hr.2.trans hq.2.2⟩
    · exact .refuse
    · exact .get_bind .refuse

end

/-! ## Statements -/

section Statements

variable (hrun : Runs c W run) (h : s.Sound c.source o)

include hrun h

theorem keeps_creation (hp : c.source.Plain) {v : VarId} {type : Scoped.Expr} (he : type.Plain)
    (hw : Only W (writtenBy type.calls)) : Keeps c W o s (creation run v type) fun _ _ _ => True := by
  refine (keeps_expression hrun type he hw h).bind fun a o₁ s₁ reach₁ ha => ?_
  refine (keeps_typeOf reach₁.sound ha).bind fun b o₂ s₂ reach₂ hb => ?_
  refine .read_bind (.get_bind ?_)
  dsimp only
  have without : Record.Sound s₂.out.vars ⟨none, b, s₂.inStatic⟩ := ⟨hb.2, nofun⟩
  split
  · rename_i value hinit
    have plain : value.Plain := hp.initial_var hinit
    refine (keeps_create reach₂.sound without nofun).bind fun _ o₃ s₃ reach₃ _ => ?_
    refine .get_bind ?_
    exact keeps_track reach₃.sound (Datum.sound_ofConstant reach₃.sound.table plain)
  · split
    · rename_i ty hty
      split
      · refine Keeps.bind (Q := fun _ s₃ slot => Record.Sound s₃.out.vars ⟨slot, b, s₂.inStatic⟩ ∧
            s₃.records = s₂.records ∧ ∀ k, slot = some k → ∀ r ∈ s₂.records, r.slot ≠ some k)
          (.map ?_) fun slot o₃ s₃ reach₃ hslot => ?_
        · refine (keeps_newSlot reach₂.sound (hb.2 ty hty)).mono fun k _ s₃ _ hk => ⟨⟨hb.2, ?_⟩, hk.1, ?_⟩
          · intro k' hk'
            cases hk'
            exact ⟨_, hk.2.1, hty⟩
          · intro k' hk'
            cases hk'
            exact hk.2.2
        · refine keeps_create reach₃.sound hslot.1 fun k hk i r hr hslot' => ?_
          exact (hslot.2.2 k hk r (hslot.2.1 ▸ Array.mem_of_getElem? hr) hslot').elim
      · exact keeps_create reach₂.sound without nofun
    · exact keeps_create reach₂.sound without nofun

theorem keeps_assertion {condition : Scoped.Expr} {span : Span} (he : condition.Plain)
    (hw : Only W (writtenBy condition.calls)) : Keeps c W o s (assertion run condition span) fun _ _ _ => True := by
  refine (keeps_expression hrun condition he hw h).bind fun a o₁ s₁ reach₁ ha => ?_
  refine .check fun hty => ?_
  have hty : a.ty = .bool := Decidable.not_not.1 hty
  obtain ⟨content, ty, aspan⟩ := a
  dsimp only
  split
  · obtain ⟨⟨hwf, hety, -⟩, -⟩ := ha.content
    exact keeps_emit reach₁.sound ⟨hwf, hety.trans hty⟩ fun _ _ _ hj => by cases hj
  · exact .pure reach₁.sound trivial
  · exact .refuse
  · exact .breakDown

/-- A scope that may not run gets a scope of its own, made later than the current one. -/
theorem keeps_guarded {body : Scoped.ScopeId} :
    Keeps c W o s (guarded run body) fun _ s' scope =>
      scope < s'.out.scopes.size ∧ ∀ i, s'.current = some i → i < scope := by
  refine (keeps_newScope h).bind fun scope o₁ s₁ reach₁ hscope => ?_
  have inside : Keeps c W o₁ s₁ (withCurrent (some scope) (inBranch (run body))) fun _ _ _ => True :=
    keeps_withCurrent reach₁.sound hscope.1 fun h' =>
      keeps_inBranch h' fun s' hs' _ _ => hrun o₁ s' body hs'
  refine inside.bind fun _ o₂ s₂ reach₂ _ => .pure reach₂.sound ?_
  refine ⟨Nat.lt_of_lt_of_le hscope.1 reach₂.grows.scopes, fun i hi => ?_⟩
  exact hscope.2 i (reach₂.current ▸ hi)

omit h in
theorem keeps_clauses {otherwise : Option Scoped.ScopeId} {span : Span} {done : List Clause}
    {cs : List Scoped.Clause} (hcs : ∀ x ∈ cs, x.condition.Plain)
    (hw : ∀ x ∈ cs, Only W (writtenBy x.condition.calls)) {o : Owners} {s : State}
    (h : s.Sound c.source o) (hdone : ∀ x ∈ done, x.Kept s) :
    Keeps c W o s (clauses run otherwise span done cs) fun _ _ _ => True := by
  induction cs generalizing done o s with
  | nil =>
    unfold clauses
    split
    · exact .pure h trivial
    · exact hrun o s _ h
    · refine keeps_emit h (fun x hx => (hdone x hx).condition) fun i hi j hj => ?_
      obtain ⟨x, hx, rfl⟩ := List.mem_map.1 (by simpa [Stmt.scopes] using hj)
      exact ⟨(hdone x hx).inner i hi, (hdone x hx).made⟩
    · refine (keeps_guarded hrun h).bind fun scope o₁ s₁ reach₁ hscope => ?_
      have hdone x hx := (hdone x hx).mono reach₁
      refine keeps_emit reach₁.sound (fun x hx => (hdone x hx).condition) fun i hi j hj => ?_
      rcases List.mem_append.1 hj with hj | hj
      · obtain ⟨x, hx, rfl⟩ := List.mem_map.1 hj
        exact ⟨(hdone x hx).inner i hi, (hdone x hx).made⟩
      · obtain rfl := List.mem_singleton.1 hj
        exact ⟨hscope.2 i hi, hscope.1⟩
  | cons x rest ih =>
    have hrest := fun y hy => hcs y (List.mem_cons_of_mem x hy)
    unfold clauses
    have hwrest := fun y hy => hw y (List.mem_cons_of_mem x hy)
    refine (keeps_expression hrun x.condition (hcs x List.mem_cons_self) (hw x List.mem_cons_self) h).bind
      fun a o₁ s₁ reach₁ ha => ?_
    have hdone₁ := fun y hy => (hdone y hy).mono reach₁
    refine .check fun hty => ?_
    have hty : a.ty = .bool := Decidable.not_not.1 hty
    have keep : Keeps c W o₁ s₁ (do
        let e ← asExpr a
        let scope ← guarded run x.body
        clauses run otherwise span (done ++ [⟨e, scope⟩]) rest) fun _ _ _ => True := by
      refine (keeps_asExpr reach₁.sound ha).bind fun e o₂ s₂ reach₂ he => ?_
      refine (keeps_guarded hrun reach₂.sound).bind fun scope o₃ s₃ reach₃ hscope => ?_
      refine ih hrest hwrest reach₃.sound fun y hy => ?_
      rcases List.mem_append.1 hy with hy | hy
      · exact (hdone₁ y hy).mono (reach₂.trans reach₃)
      · obtain rfl := List.mem_singleton.1 hy
        exact ⟨⟨he.2.1.mono reach₃.grows.vars, he.2.2.1.trans hty⟩, hscope.1, hscope.2⟩
    dsimp only
    split
    · exact ih hrest hwrest reach₁.sound hdone₁
    · split
      · exact hrun o₁ s₁ _ reach₁.sound
      · exact keep
    · exact .breakDown
    · exact keep

theorem keeps_loopPass {body : Scoped.ScopeId} {into : Option ScopeId}
    (hinto : ∀ i, into = some i → i < s.out.scopes.size) :
    Keeps c W o s (loopPass run body into) fun _ _ _ => True := by
  refine .get_bind ?_
  intro u s' ended
  obtain ⟨_, s₀, set, ended⟩ := bind_ok.1 ended
  obtain rfl := set_ok.1 set
  have entered : State.Sound c.source o
      { s with current := into, discarding := s.discarding || into.isNone } :=
    { h with current := hinto }
  obtain ⟨_, s₁, pass, ended⟩ := bind_ok.1 ended
  have inside : Keeps c W o { s with current := into, discarding := s.discarding || into.isNone }
      (withTable s.table (inBranch (run body))) fun _ _ _ => True :=
    keeps_withTable entered h.table (fun h' => keeps_inBranch h' fun s' hs' _ _ => hrun o s' body hs')
      fun _ _ _ q => q
  obtain ⟨o₁, reach₁, -⟩ := inside _ _ pass
  obtain rfl := modify_ok.1 ended
  refine ⟨o₁, ⟨reach₁.owners, ⟨reach₁.grows.vars, reach₁.grows.scopes, reach₁.grows.settled⟩, rfl, ?_, reach₁.apart⟩,
    trivial⟩
  exact { reach₁.sound with
    current := fun i hi => Nat.lt_of_lt_of_le (h.current i hi) reach₁.grows.scopes }

theorem keeps_rounds {counter : VarId} {body : Scoped.ScopeId} (count : Nat) (i : Int) :
    Keeps c W o s (rounds run counter body count i) fun _ _ _ => True := by
  induction count generalizing o s i with
  | zero => exact .pure h trivial
  | succ count ih =>
    unfold rounds
    refine .get_bind ?_
    split
    · exact .pure h trivial
    · refine (keeps_withTable (Q := fun _ _ _ => True) h h.table (fun h' => ?_) fun _ _ _ q => q).bind
        fun _ o₁ s₁ reach₁ _ => ih reach₁.sound (i + 1)
      have record : Record.Sound s.out.vars ⟨none, .exactly .int, s.inStatic⟩ :=
        ⟨Bound.isPositive_exactly (Ty.isPositive_prim _), nofun⟩
      refine (keeps_create h' record nofun).bind fun _ o₁ s₁ reach₁ _ => ?_
      refine Keeps.bind (Q := fun _ _ _ => True) (keeps_track reach₁.sound ?_) fun _ o₂ s₂ reach₂ _ => ?_
      · trivial
      · exact hrun o₂ s₂ body reach₂.sound

theorem keeps_keptLoop {counter : VarId} {start stop : Value} {body : Scoped.ScopeId} {span : Span}
    (hstart : start.Sound o s.out.vars) (hstop : stop.Sound o s.out.vars) (hsty : start.ty = .int)
    (htty : stop.ty = .int) :
    Keeps c W o s (keptLoop run counter start stop body span) fun _ _ _ => True := by
  refine .read_bind ?_
  refine (keeps_newSlot h (Ty.isPositive_prim _)).bind fun slot o₁ s₁ reach₁ hslot => ?_
  obtain ⟨same, hvar, hfresh⟩ := hslot
  refine .get_bind ?_
  have record : Record.Sound s₁.out.vars ⟨some slot, .exactly .int, s₁.inStatic⟩ := by
    refine ⟨Bound.isPositive_exactly (Ty.isPositive_prim _), fun k hk => ?_⟩
    cases hk
    exact ⟨_, hvar, rfl⟩
  refine (keeps_create reach₁.sound record ?_).bind fun _ o₂ s₂ reach₂ _ => ?_
  · intro k hk i r' hr' hslot'
    cases hk
    exact (hfresh r' (same ▸ Array.mem_of_getElem? hr') hslot').elim
  · refine (keeps_loopPass hrun reach₂.sound fun _ hi => by cases hi).bind fun _ o₃ s₃ reach₃ _ => ?_
    refine (keeps_newScope reach₃.sound).bind fun scope o₄ s₄ reach₄ hscope => ?_
    refine (keeps_loopPass hrun reach₄.sound fun i hi => ?_).bind fun _ o₅ s₅ reach₅ _ => ?_
    · cases hi
      exact hscope.1
    · have reach₅' := (((reach₁.trans reach₂).trans reach₃).trans reach₄).trans reach₅
      refine (keeps_asExpr reach₅.sound (hstart.mono reach₅')).bind fun e o₆ s₆ reach₆ he => ?_
      obtain ⟨rfl, hewf, hety, -⟩ := he
      have hstop := (hstop.mono reach₅').mono reach₆
      refine (keeps_asExpr reach₆.sound hstop).bind fun f o₇ s₇ reach₇ hf => ?_
      obtain ⟨rfl, hfwf, hfty, -⟩ := hf
      refine keeps_emit reach₇.sound ?_ fun i hi j hj => ?_
      · refine ⟨?_, ⟨hewf, hety.trans hsty⟩, hfwf, hfty.trans htty⟩
        rw [((reach₂.trans reach₃).trans (reach₄.trans reach₅)).grows.vars _ _ hvar, Option.map_some]
      · obtain rfl := List.mem_singleton.1 hj
        exact ⟨hscope.2 i (reach₅.current ▸ hi), Nat.lt_of_lt_of_le hscope.1 reach₅.grows.scopes⟩

theorem keeps_loop {counter : VarId} {start stop : Scoped.Expr} {body : Scoped.ScopeId}
    {allowUnroll : Bool} {span : Span} (hstart : start.Plain) (hstop : stop.Plain)
    (hwstart : Only W (writtenBy start.calls)) (hwstop : Only W (writtenBy stop.calls)) :
    Keeps c W o s (loop run counter start stop body allowUnroll span) fun _ _ _ => True := by
  refine (keeps_expression hrun start hstart hwstart h).bind fun lower o₁ s₁ reach₁ hlower => ?_
  refine (keeps_expression hrun stop hstop hwstop reach₁.sound).bind fun upper o₂ s₂ reach₂ hupper => ?_
  have hlower := hlower.mono reach₂
  refine .check fun hlty => .check fun huty => ?_
  have kept : Keeps c W o₂ s₂ (keptLoop run counter lower upper body span) fun _ _ _ => True :=
    keeps_keptLoop hrun reach₂.sound hlower hupper (Decidable.not_not.1 hlty) (Decidable.not_not.1 huty)
  dsimp only
  split
  · refine .read_bind ?_
    split
    · exact keeps_rounds hrun reach₂.sound _ _
    · exact kept
  · refine .read_bind ?_
    split
    · exact .breakDown
    · exact kept
  · exact kept

omit hrun in
theorem keeps_exported {exports : List VarId} {span : Span} :
    Keeps c W o s (exported exports span) fun o' s' rs => s' = s ∧
      ∀ p ∈ exports.zip rs, p.2.slot.isSome ∧ ∃ i : Nat, s.records[i]? = some p.2 ∧ o'[i]? = some p.1 := by
  unfold exported
  induction exports generalizing o s with
  | nil => exact .pure h ⟨rfl, fun p hp => by cases hp⟩
  | cons v rest ih =>
    rw [List.mapM_cons]
    refine Keeps.bind (Q := fun o₁ s₁ r => s₁ = s ∧ r.slot.isSome ∧
      ∃ i : Nat, s.records[i]? = some r ∧ o₁[i]? = some v) ?_ fun r o₁ s₁ reach₁ hr => ?_
    · refine (keeps_recordOf h v).bind fun p o₁ s₁ reach₁ hp => ?_
      obtain ⟨id, r⟩ := p
      obtain ⟨rfl, shows, howner⟩ := hp
      dsimp only at shows howner ⊢
      split
      · exact .read_bind (Keeps.bind (Q := fun _ _ _ => False) .refuse fun _ _ _ _ never => never.elim)
      · rename_i hslot
        obtain ⟨k, hk⟩ : ∃ k, r.slot = some k := by
          cases hs : r.slot with
          | none => exact (hslot (by rw [hs]; rfl)).elim
          | some k => exact ⟨k, rfl⟩
        obtain ⟨w, -, hw⟩ := shows.sound.slot k hk
        exact .pure reach₁.sound ⟨rfl, by rw [hk]; rfl, id, shows.found (by rw [hw]; rfl), howner⟩
    · obtain ⟨rfl, hslot, i, hi, howner⟩ := hr
      refine (ih reach₁.sound).bind fun rs o₂ s₂ reach₂ hrs => .pure reach₂.sound ⟨hrs.1, fun p hp => ?_⟩
      rw [List.zip_cons_cons] at hp
      rcases List.mem_cons.1 hp with rfl | hp
      · exact ⟨hslot, i, hi, reach₂.owners _ _ howner⟩
      · exact hrs.2 p hp

omit hrun in
/-- An export is made again where the block stands, as a static that shares the slot of its variable. -/
theorem keeps_export {v : VarId} {r : Record} (hio : v ∉ c.source.inputs ++ c.source.outputs) {i : Nat}
    (hr : s.records[i]? = some r) (hslot : r.slot.isSome) (howner : o[i]? = some v) :
    Keeps c W o s (do
      create v { r with isStatic := true }
      if !(← get).discarding then
        modify fun t => { t with out := { t.out with statics := t.out.statics ++ r.slot.toList } })
      fun _ _ _ => True := by
  have sound := h.records r (Array.mem_of_getElem? hr)
  obtain ⟨k, hk⟩ := Option.isSome_iff_exists.1 hslot
  obtain ⟨w, -, hw⟩ := sound.slot k hk
  have made : Record.Sound s.out.vars { r with isStatic := true } := ⟨sound.bound, sound.slot⟩
  refine (keeps_create h made fun k hk j r' hr' hk' => ?_).bind fun _ o₁ s₁ reach₁ _ => ?_
  · rw [← howner]
    exact h.shared j i r' r k hr' hr hk' hk
  · refine .get_bind ?_
    split
    · refine .modify ⟨.refl _, ⟨.refl _, Nat.le_refl _, fun _ _ hr _ => hr⟩, rfl, ?_, fun _ _ _ _ => rfl⟩ trivial
      have growing : Program.Growing { s₁.out with statics := s₁.out.statics ++ r.slot.toList } :=
        { reach₁.sound.out with }
      refine { reach₁.sound with out := growing, statics := fun k' hk' => ?_ }
      rcases List.mem_append.1 hk' with hk' | hk'
      · exact reach₁.sound.statics k' hk'
      · refine ⟨i, r, v, reach₁.grows.settled i r hr (by rw [hw]; rfl), ?_, reach₁.owners _ _ howner, hio⟩
        exact Option.mem_toList.1 hk'
    · exact .pure reach₁.sound trivial

theorem keeps_static {body : Scoped.ScopeId} {exports : List VarId} {span : Span}
    (hexports : ∀ v ∈ exports, v ∉ c.source.inputs ++ c.source.outputs) :
    Keeps c W o s (static run body exports span) fun _ _ _ => True := by
  refine .get_bind ?_
  intro u s' ended
  obtain ⟨_, s₀, set, ended⟩ := bind_ok.1 ended
  obtain rfl := set_ok.1 set
  have entered : State.Sound c.source o { s with
      current := if s.discarding then none else some s.out.staticInit, inStatic := true } := by
    refine { h with current := fun i hi => ?_ }
    dsimp only at hi
    split at hi
    · cases hi
    · cases hi
      exact h.out.staticInit
  obtain ⟨rs, s₁, pass, ended⟩ := bind_ok.1 ended
  have inside : Keeps c W o { s with
      current := if s.discarding then none else some s.out.staticInit, inStatic := true }
      (withTable s.table do run body; exported exports span) fun o' s' rs =>
        ∀ p ∈ exports.zip rs, p.2.slot.isSome ∧ ∃ i : Nat, s'.records[i]? = some p.2 ∧ o'[i]? = some p.1 :=
    keeps_withTable entered h.table (fun h' => (hrun o _ body h').bind fun _ o₁ s₁ reach₁ _ =>
      (keeps_exported reach₁.sound).mono fun rs _ _ _ hrs => hrs.1 ▸ hrs.2) fun _ _ _ q => q
  obtain ⟨o₁, reach₁, hrs⟩ := inside _ _ pass
  obtain ⟨_, s₂, back, ended⟩ := bind_ok.1 ended
  obtain rfl := modify_ok.1 back
  have reach₂ : Reaches c.source W o s o₁ { s₁ with current := s.current, inStatic := s.inStatic } :=
    ⟨reach₁.owners, ⟨reach₁.grows.vars, reach₁.grows.scopes, reach₁.grows.settled⟩, rfl,
      { reach₁.sound with
        current := fun i hi => Nat.lt_of_lt_of_le (h.current i hi) reach₁.grows.scopes }, reach₁.apart⟩
  obtain ⟨o₃, reach₃, -⟩ := keeps_forM (W := W) reach₂.sound (exports.zip rs) (fun p hp o₃ s₃ reach₃ => by
    obtain ⟨hslot, i, hr, howner⟩ := hrs p hp
    obtain ⟨k, hk⟩ := Option.isSome_iff_exists.1 hslot
    obtain ⟨w, -, hw⟩ := (reach₁.sound.records _ (Array.mem_of_getElem? hr)).slot k hk
    exact keeps_export reach₃.sound (hexports p.1 (List.of_mem_zip hp).1)
      (reach₃.grows.settled i _ hr (by rw [hw]; rfl)) hslot (reach₃.owners _ _ howner)) _ _ ended
  exact ⟨o₃, reach₂.trans reach₃, trivial⟩

theorem keeps_statement (hp : c.source.Plain) {st : Scoped.Stmt}
    (hst : st.Plain (c.source.inputs ++ c.source.outputs)) (hw : Only W st.written) :
    Keeps c W o s (statement run st) fun _ _ _ => True := by
  have calls : Only W (writtenBy st.calls) := hw.left
  cases st with
  | create v type _ => exact keeps_creation hrun h hp hst calls
  | assign target value span =>
    rw [Scoped.Stmt.calls, writtenBy_append] at calls
    refine (keeps_expression hrun value hst.2 calls.left h).bind fun v o₁ s₁ reach₁ hv => ?_
    refine (keeps_place hrun target hst.1 calls.right reach₁.sound).bind fun p o₂ s₂ reach₂ hpl => ?_
    exact keeps_assign reach₂.sound hpl.1 (hpl.2 ▸ hw.right target.var (.head _)) (hv.mono reach₂)
  | assert condition span => exact keeps_assertion hrun h hst calls
  | branch cs otherwise span =>
    exact keeps_clauses hrun hst (Scoped.Only.conditions calls) h fun x hx => by cases hx
  | loop counter start stop body allowUnroll span =>
    rw [Scoped.Stmt.calls, writtenBy_append] at calls
    exact keeps_loop hrun h hst.1 hst.2 calls.left calls.right
  | static body exports span => exact keeps_static hrun h hst
  | block body _ => exact hrun o s body h
  | ret span =>
    refine .get_bind ?_
    split
    · exact Keeps.bind (Q := fun _ _ _ => False) .refuse fun _ _ _ _ never => never.elim
    · exact .modify ⟨.refl _, ⟨.refl _, Nat.le_refl _, fun _ _ hr _ => hr⟩, rfl, { h with }, fun _ _ _ _ => rfl⟩ trivial
  | expr value span =>
    refine (keeps_expression hrun value hst calls h).bind fun v o₁ s₁ reach₁ _ => ?_
    unfold discarded
    split
    · exact .pure reach₁.sound trivial
    · exact .refuse

theorem keeps_statements (hp : c.source.Plain) {ss : List Scoped.Stmt}
    (hss : ∀ st ∈ ss, st.Plain (c.source.inputs ++ c.source.outputs)) (hw : ∀ st ∈ ss, Only W st.written) :
    Keeps c W o s (statements run ss) fun _ _ _ => True := by
  induction ss generalizing o s with
  | nil => exact .pure h trivial
  | cons st ss ih =>
    refine (keeps_statement hrun h hp (hss st List.mem_cons_self) (hw st List.mem_cons_self)).bind
      fun _ o₁ s₁ reach₁ _ => ?_
    refine .get_bind ?_
    split
    · exact .pure reach₁.sound trivial
    · exact ih reach₁.sound (fun st' hst' => hss st' (List.mem_cons_of_mem _ hst')) fun st' hst' =>
        hw st' (List.mem_cons_of_mem _ hst')

end Statements

/-- Scopes can be worked out to any depth. -/
theorem runs_block (hp : c.source.Plain) (all : ∀ v, W v) (depth : Nat) : Runs c W (block depth) := by
  induction depth with
  | zero => exact fun o s i _ => .fail
  | succ depth ih =>
    intro o s i h
    refine .read_bind (keeps_statements ih h hp (fun st hst => ?_) fun st _ v _ => all v)
    exact hp.stmts i st (Array.mem_toList_iff.1 hst)

/-! ## Programs -/

end Stage

/-- A slot belongs to a variable. -/
def State.Owns (o : Owners) (s : State) (v : VarId) (k : SlotId) : Prop :=
  ∃ (i : Nat) (r : Record), s.records[i]? = some r ∧ r.slot = some k ∧ o[i]? = some v

theorem State.Owns.mono {o o' : Owners} {s : State} (h : Extends o o') {v : VarId} {k : SlotId}
    (hv : s.Owns o v k) : s.Owns o' v k := by
  obtain ⟨i, r, hr, hk, hi⟩ := hv
  exact ⟨i, r, hr, hk, h i v hi⟩

theorem State.Sound.owner_unique {source : Scoped.Program} {o : Owners} {s : State}
    (h : s.Sound source o) {v w : VarId} {k : SlotId} (hv : s.Owns o v k) (hw : s.Owns o w k) : v = w := by
  obtain ⟨i, r, hr, hk, hi⟩ := hv
  obtain ⟨j, r', hr', hk', hj⟩ := hw
  have same := h.shared i j r r' k hr hr' hk hk'
  rw [hi, hj] at same
  exact Option.some.inj same

theorem State.Sound.slot_lt {source : Scoped.Program} {o : Owners} {s : State} (h : s.Sound source o)
    {v : VarId} {k : SlotId} (hv : s.Owns o v k) : k < s.out.vars.size := by
  obtain ⟨i, r, hr, hk, -⟩ := hv
  obtain ⟨w, hw, -⟩ := (h.records r (Array.mem_of_getElem? hr)).slot k hk
  exact (Array.getElem?_eq_some_iff.1 hw).1

namespace Stage

/-- The slots of an interface list belong to its variables, and to different ones if those are different. -/
theorem keeps_ioSlots (h : s.Sound c.source o) {problem : Span → String → Bound → Problem}
    {vars : List VarId} :
    Keeps c W o s (ioSlots problem vars) fun o' s' ks => s' = s ∧
      (∀ k ∈ ks, ∃ v ∈ vars, s.Owns o' v k) ∧ (vars.Nodup → ks.Nodup) := by
  unfold ioSlots
  induction vars generalizing o s with
  | nil =>
    rw [List.mapM_nil]
    exact .pure h ⟨rfl, nofun, fun _ => .nil⟩
  | cons v rest ih =>
    rw [List.mapM_cons]
    refine Keeps.bind (Q := fun o₁ s₁ k => s₁ = s ∧ s.Owns o₁ v k) ?_ fun k o₁ s₁ reach₁ hk => ?_
    · refine .recordId_bind ?_
      dsimp only
      split
      · rename_i id found
        refine (keeps_record h id).bind fun r o₁ s₁ reach₁ hr => ?_
        obtain ⟨rfl, shows⟩ := hr
        split
        · rename_i k hk
          obtain ⟨w, -, hw⟩ := shows.sound.slot k hk
          exact .pure reach₁.sound ⟨rfl, id, r, shows.found (by rw [hw]; rfl), hk,
            reach₁.owners _ _ (h.table.lookup found)⟩
        · exact .read_bind .refuse
      · exact .read_bind .refuse
    · obtain ⟨rfl, hk⟩ := hk
      refine (ih reach₁.sound).bind fun ks o₂ s₂ reach₂ hks => .pure reach₂.sound ?_
      obtain ⟨rfl, hks, hnodup⟩ := hks
      have hk := hk.mono reach₂.owners
      refine ⟨rfl, fun k' hk' => ?_, fun hvars => ?_⟩
      · rcases List.mem_cons.1 hk' with rfl | hk'
        · exact ⟨v, List.mem_cons_self, hk⟩
        · obtain ⟨w, hw, hown⟩ := hks k' hk'
          exact ⟨w, List.mem_cons_of_mem _ hw, hown⟩
      · rw [List.nodup_cons] at hvars ⊢
        refine ⟨fun hmem => ?_, hnodup hvars.2⟩
        obtain ⟨w, hw, hown⟩ := hks k hmem
        exact hvars.1 (reach₂.sound.owner_unique hk hown ▸ hw)

end Stage

theorem sound_start (source : Scoped.Program) :
    State.Sound source #[] { tracked := Array.replicate source.vars.size none } := by
  have empty (i : ScopeId) : (({} : Program).scope i) = #[] := by
    unfold Program.scope
    match i with
    | 0 => rfl
    | 1 => rfl
    | n + 2 => rfl
  have growing : Program.Growing {} := by
    refine ⟨fun v hv => ?_, fun i st hst => ?_, fun i st hst => ?_, Nat.zero_lt_two, Nat.one_lt_two⟩
    · simp at hv
    · simp [empty] at hst
    · simp [empty] at hst
  refine {
    out := growing
    current := fun i hi => by cases hi
    owners := rfl
    records := fun r hr => by simp at hr
    shared := fun i j r r' k hr => by simp at hr
    statics := fun k hk => by cases hk
    table := fun e he => by cases he
    tracked := fun d hd => ?_
    log := fun w hw => by simp at hw }
  exact nomatch (Array.mem_replicate.1 hd).2

/-- What the whole of staging makes is well formed. -/
theorem wellFormed_of_program {c : Context} {depth : Nat} {s s' : State} {o : Owners} {p : Program}
    (hp : c.source.Plain) (h : s.Sound c.source o) (run : Stage.program depth c s = .ok (p, s')) :
    p.WellFormed := by
  unfold Stage.program at run
  obtain ⟨_, _, first, run₁⟩ := bind_ok.1 run
  obtain ⟨rfl, rfl⟩ := read_ok.1 first
  obtain ⟨_, s₁, builtins, run₂⟩ := bind_ok.1 run₁
  obtain ⟨o₁, reach₁, -⟩ := Stage.runs_block (W := fun _ => True) hp (fun _ => trivial) depth o s _ h _ _ builtins
  obtain ⟨_, s₂, enter, run₃⟩ := bind_ok.1 run₂
  obtain rfl := modify_ok.1 enter
  have entered : State.Sound c.source o₁ { s₁ with current := some s₁.out.entry } :=
    { reach₁.sound with current := fun i hi => by cases hi; exact reach₁.sound.out.entry }
  obtain ⟨_, s₃, entry, run₄⟩ := bind_ok.1 run₃
  obtain ⟨o₃, reach₃, -⟩ := Stage.runs_block (W := fun _ => True) hp (fun _ => trivial) depth o₁ _ _ entered _ _ entry
  obtain ⟨inputs, s₄, hin, run₅⟩ := bind_ok.1 run₄
  obtain ⟨o₄, reach₄, rfl, inOwned, inNodup⟩ := Stage.keeps_ioSlots (W := fun _ => True) reach₃.sound _ _ hin
  obtain ⟨outputs, s₅, hout, run₆⟩ := bind_ok.1 run₅
  obtain ⟨o₅, reach₅, rfl, outOwned, outNodup⟩ := Stage.keeps_ioSlots (W := fun _ => True) reach₄.sound _ _ hout
  obtain ⟨_, _, last, run₇⟩ := bind_ok.1 run₆
  obtain ⟨rfl, rfl⟩ := get_ok.1 last
  obtain ⟨rfl, rfl⟩ := pure_ok.1 run₇
  have sound := reach₅.sound
  have inOwned (k : SlotId) (hk : k ∈ inputs) : ∃ v ∈ c.source.inputs, s₅.Owns o₅ v k := by
    obtain ⟨v, hv, hown⟩ := inOwned k hk
    exact ⟨v, hv, hown.mono reach₅.owners⟩
  have distinct := List.nodup_append.1 hp.nodup
  refine {
    positive := sound.out.positive
    stmts := sound.out.stmts
    nested := sound.out.nested
    staticInit := sound.out.staticInit
    entry := sound.out.entry
    interface := fun k hk => ?_
    nodup := ?_
    apart := fun k hk hio => ?_ }
  · rcases List.mem_append.1 hk with hk | hk
    · rcases List.mem_append.1 hk with hk | hk
      · obtain ⟨i, r, v, hr, hslot, hv, -⟩ := sound.statics k hk
        exact sound.slot_lt ⟨i, r, hr, hslot, hv⟩
      · obtain ⟨v, -, hown⟩ := inOwned k hk
        exact sound.slot_lt hown
    · obtain ⟨v, -, hown⟩ := outOwned k hk
      exact sound.slot_lt hown
  · refine List.nodup_append.2 ⟨inNodup distinct.1, outNodup distinct.2.1, fun k hk k' hk' same => ?_⟩
    obtain ⟨v, hv, hown⟩ := inOwned k hk
    obtain ⟨w, hw, hown'⟩ := outOwned k' hk'
    exact distinct.2.2 v hv w hw (sound.owner_unique hown (same ▸ hown'))
  · obtain ⟨i, r, v, hr, hslot, hv, hvio⟩ := sound.statics k hk
    have hown : s₅.Owns o₅ v k := ⟨i, r, hr, hslot, hv⟩
    rcases List.mem_append.1 hio with hk | hk
    · obtain ⟨w, hw, hown'⟩ := inOwned k hk
      exact hvio (List.mem_append_left _ (sound.owner_unique hown hown' ▸ hw))
    · obtain ⟨w, hw, hown'⟩ := outOwned k hk
      exact hvio (List.mem_append_right _ (sound.owner_unique hown hown' ▸ hw))

/-- A program that was worked out is well formed. -/
theorem wellFormed_of_resolve {source : Scoped.Program} {options : Options} {p : Program}
    (hp : source.Plain) (h : resolve source options = .ok p) : p.WellFormed := by
  obtain ⟨⟨q, s'⟩, run, rfl⟩ := Steps.except_map_ok.1 h
  have hp : (⟨source, options⟩ : Context).source.Plain := hp
  exact wellFormed_of_program hp (sound_start source) run

end SignalLang.Staged
