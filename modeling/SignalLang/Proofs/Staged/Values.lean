import SignalLang.Proofs.Staged.Invariant

/-!
# Staged values and places keep the invariant

A staged value is sound when its type has positive lengths and what stands for it is sound: a datum, or a well
formed expression of that type. A place is sound when its indexes lead from the settled type of its variable to
the type of what is stored; the place of an open variable has no indexes.

One lemma for each step on values says that it keeps the invariant and makes sound values.
-/

namespace SignalLang.Staged

open Scoped (VarId)
open Steps

/-- What stands for a value of a type is sound. -/
def Content.Sound (o : Owners) (vars : Array Variable) (ty : Ty) : Content → Prop
  | .known d => d.Sound o
  | .runtime e glimpse =>
    (e.WellFormed vars ∧ e.ty = ty ∧ e.isLiteral = false) ∧ ∀ g, glimpse = some g → g.seen.Sound o

/-- A value is sound. -/
structure Value.Sound (o : Owners) (vars : Array Variable) (v : Value) : Prop where
  positive : v.ty.IsPositive
  content : v.content.Sound o vars v.ty

theorem Value.Sound.mono {source : Scoped.Program} {W : VarId → Prop} {o o' : Owners} {s s' : State}
    (h : Reaches source W o s o' s') {v : Value} (hv : v.Sound o s.out.vars) : v.Sound o' s'.out.vars := by
  obtain ⟨content, ty, span⟩ := v
  refine ⟨hv.positive, ?_⟩
  cases content with
  | known d => exact Datum.Sound.mono h.owners hv.content
  | runtime e glimpse =>
    obtain ⟨⟨he, hty, hlit⟩, hg⟩ := hv.content
    exact ⟨⟨he.mono h.grows.vars, hty, hlit⟩, fun g hgl => (hg g hgl).mono h.owners⟩

theorem Value.sound_known {o : Owners} {vars : Array Variable} {d : Datum} {ty : Ty} {span : Span}
    (hty : ty.IsPositive) (hd : d.Sound o) : (Value.known d ty span).Sound o vars := ⟨hty, hd⟩

theorem Value.sound_runtime {o : Owners} {vars : Array Variable} {e : Expr} (hty : e.ty.IsPositive)
    (he : e.WellFormed vars) (hlit : e.isLiteral = false) : (Value.runtime e none).Sound o vars :=
  ⟨hty, ⟨he, rfl, hlit⟩, nofun⟩

/-- The indexes of a place. -/
def Place.indexes (p : Place) : List Expr := p.dynamic.getD (p.fixed.map fun k => Expr.ofIndex k p.span)

/-- A place leads from its variable to what is stored; an open variable has no parts. -/
structure Place.Sound (o : Owners) (s : State) (p : Place) : Prop where
  owner : o[p.record]? = some p.var
  settled : ∀ ty, p.ty = some ty → ty.IsPositive ∧ ∃ r t, s.records[p.record]? = some r ∧
    r.bound.actual = some t ∧ Expr.Selects s.out.vars p.indexes t ty
  unsettled : p.ty = none → p.fixed = [] ∧ p.dynamic = none ∧
    ∀ r, s.records[p.record]? = some r → r.bound.actual = none

/-- The place of a settled variable stays sound. -/
theorem Place.Sound.mono {source : Scoped.Program} {W : VarId → Prop} {o o' : Owners} {s s' : State}
    (h : Reaches source W o s o' s') {p : Place} (hp : p.Sound o s) (hs : p.ty.isSome ∨ s'.records = s.records) :
    p.Sound o' s' := by
  refine ⟨h.owners _ _ hp.owner, ?_, ?_⟩
  · intro ty hty
    obtain ⟨hpos, r, t, hr, ht, hsel⟩ := hp.settled ty hty
    exact ⟨hpos, r, t, h.grows.settled _ r hr (by simp [ht]), ht, hsel.mono h.grows.vars⟩
  · intro hty
    rcases hs with hs | hs
    · simp [hty] at hs
    · rw [hs]
      exact hp.unsettled hty

theorem isPositive_unaryTy {op : UnaryOp} {t : Ty} (h : t.IsPositive) : (unaryTy op t).IsPositive := by
  unfold unaryTy
  split
  · exact Ty.isPositive_withBase.2 h
  · exact Ty.isPositive_withBase.2 h
  · exact h

theorem isPositive_binaryTy {op : BinaryOp} {t : Ty} (h : t.IsPositive) :
    (binaryTy op t).IsPositive := by
  unfold binaryTy
  split
  · exact Ty.isPositive_withBase.2 h
  · exact h

/-! ## Views -/

namespace Glimpse

variable {o : Owners}

theorem sound_refresh {g : Glimpse} {log : Array Write} (hg : g.seen.Sound o)
    (hlog : ∀ w ∈ log, w.value.Sound o) : (g.refresh log).seen.Sound o :=
  (Datum.leafwise_sound o).refresh hg fun w hw _ => hlog w hw

end Glimpse

/-! ## Indexes -/

namespace Expr

variable {vars : Array Variable}

theorem Selects.append {es fs : List Expr} {t u w : Ty} (h : Selects vars es t u)
    (h' : Selects vars fs u w) : Selects vars (es ++ fs) t w := by
  induction es generalizing t with
  | nil => cases h; exact h'
  | cons e es ih =>
    obtain ⟨n, elem, rfl, he, hint, hrange, hs⟩ := h
    exact ⟨n, elem, rfl, he, hint, hrange, ih hs⟩

theorem selects_one {e : Expr} {n : Int} {elem : Ty} (he : e.WellFormed vars) (hint : e.ty = .int)
    (hrange : e.InRange n) : Selects vars [e] (.array n elem) elem :=
  ⟨n, elem, rfl, he, hint, hrange, rfl⟩

theorem ty_indexExpr (base index : Expr) (ty : Ty) (span : Span) :
    (Stage.indexExpr base index ty span).ty = ty ∧
      (Stage.indexExpr base index ty span).isLiteral = false := by
  unfold Stage.indexExpr
  split <;> exact ⟨rfl, rfl⟩

theorem wellFormed_indexExpr {base index : Expr} {n : Int} {elem : Ty} {span : Span}
    (hbase : base.WellFormed vars) (hty : base.ty = .array n elem)
    (hindex : Selects vars [index] (.array n elem) elem) :
    (Stage.indexExpr base index elem span).WellFormed vars := by
  unfold Stage.indexExpr
  split
  · rename_i inner indexes ty _
    obtain rfl : ty = .array n elem := hty
    rw [WellFormed] at hbase ⊢
    exact ⟨hbase.1, hbase.2.append hindex⟩
  · rw [WellFormed]
    exact ⟨hbase, hty ▸ hindex⟩

end Expr

namespace Stage

variable {α β : Type} {c : Context} {W : VarId → Prop} {o : Owners} {s : State}

theorem keeps_crossStream {Q : Owners → State → α → Prop} (v : VarId) (span : Span) :
    Keeps c W o s (crossStream v span) Q :=
  .read_bind .refuse

section Values

variable (h : s.Sound c.source o)

include h

/-- A value becomes an expression of its type, a literal just when the value is known. -/
theorem keeps_asExpr {v : Value} (hv : v.Sound o s.out.vars) :
    Keeps c W o s (asExpr v) fun _ s' e => s' = s ∧ e.WellFormed s'.out.vars ∧ e.ty = v.ty ∧
      ((∃ d k, v.content = .known d ∧ d.toConstant? = some k ∧ e = .literal k v.ty v.span) ∨
        e.isLiteral = false) := by
  obtain ⟨content, ty, span⟩ := v
  cases content with
  | runtime e glimpse =>
    obtain ⟨⟨he, hty, hlit⟩, -⟩ := hv.content
    exact .pure h ⟨rfl, he, hty, .inr hlit⟩
  | known d =>
    unfold asExpr
    dsimp only
    split
    · rename_i k hk
      exact .pure h ⟨rfl, trivial, rfl, .inl ⟨d, k, rfl, hk, rfl⟩⟩
    · exact .refuse

theorem keeps_readVar (v : VarId) (span : Span) :
    Keeps c W o s (readVar v span) fun o' s' a => a.Sound o' s'.out.vars ∧ s'.records = s.records := by
  refine (keeps_recordOf h v).bind fun p o' s' reach hp => ?_
  obtain ⟨id, r⟩ := p
  obtain ⟨rfl, shows, -⟩ := hp
  dsimp only at shows ⊢
  cases hty : r.bound.actual with
  | none => exact .read_bind .refuse
  | some ty =>
    have positive : ty.IsPositive := shows.sound.bound ty hty
    refine .get_bind ?_
    split
    · exact keeps_crossStream v span
    · refine (keeps_tracked reach.sound v r).bind fun d o'' s'' reach' hd => ?_
      split
      · exact .pure reach'.sound ⟨Value.sound_known positive hd.1, hd.2⟩
      · split
        · exact keeps_crossStream v span
        · split
          · exact .read_bind .refuse
          · rename_i slot hslot
            obtain ⟨w, hw, hwty⟩ := shows.sound.slot slot hslot
            obtain rfl : ty = w.ty := by rw [hty] at hwty; exact Option.some.inj hwty
            have found := reach'.grows.vars slot w hw
            refine .get_bind (.pure reach'.sound ⟨⟨positive, ⟨?_, rfl, rfl⟩, ?_⟩, hd.2⟩)
            · show (s''.out.vars[slot]?).map (·.ty) = some w.ty
              rw [found, Option.map_some]
            · intro g hg
              cases hg
              exact hd.1

/-- An index that passed is an integer, and in range when it is known. -/
theorem keeps_checkIndex (index : Value) (length : Int) (whole : Span) :
    Keeps c W o s (checkIndex index length whole) fun _ s' _ => s' = s ∧ index.ty = .int ∧
      ∀ d, index.content = .known d → ∃ n, d = .int n ∧ 0 ≤ n ∧ n < length := by
  refine .check fun hint => ?_
  have hint : index.ty = .int := Decidable.not_not.1 hint
  dsimp only
  split
  · rename_i e g hc
    exact .pure h ⟨rfl, hint, fun d hd => by rw [hc] at hd; cases hd⟩
  · rename_i n hc
    refine .check fun hneg => ?_
    split
    · exact .refuse
    · refine .pure h ⟨rfl, hint, fun d hd => ⟨n, ?_, by omega, by omega⟩⟩
      rw [hc] at hd
      exact (Content.known.inj hd).symm
  · exact .breakDown

/-- A checked index as an expression selects an element. -/
theorem keeps_asIndex {index : Value} (hv : index.Sound o s.out.vars) {length : Int}
    (hint : index.ty = .int)
    (hrange : ∀ d, index.content = .known d → ∃ n, d = .int n ∧ 0 ≤ n ∧ n < length) :
    Keeps c W o s (asExpr index) fun _ s' e => s' = s ∧
      ∀ elem, Expr.Selects s'.out.vars [e] (.array length elem) elem := by
  refine (keeps_asExpr h hv).mono fun e o' s' _ he => ⟨he.1, fun elem => ?_⟩
  obtain ⟨-, hwf, hty, hcase⟩ := he
  refine Expr.selects_one hwf (hty.trans hint) ?_
  rcases hcase with ⟨d, k, hd, hk, rfl⟩ | hlit
  · obtain ⟨n, rfl, hn⟩ := hrange d hd
    cases hk
    exact ⟨n, rfl, hn⟩
  · cases e with
    | literal _ _ _ => cases hlit
    | _ => trivial

theorem keeps_glimpseAt {g : Glimpse} (hg : g.seen.Sound o) (i : Int) :
    Keeps c W o s (glimpseAt g i) fun o' s' a => s' = s ∧ ∀ g', a = some g' → g'.seen.Sound o' := by
  refine .get_bind ?_
  have seen := Glimpse.sound_refresh hg h.log
  dsimp only
  split
  · refine (Keeps.orBadShape (Q := fun o t e => t = s ∧ e.Sound o) h fun e he =>
      ⟨rfl, seen.element? he⟩).bind fun e o' s' reach he => .pure reach.sound ⟨he.1, fun g' hg' => ?_⟩
    cases hg'
    exact he.2
  · refine .pure h ⟨rfl, fun g' hg' => ?_⟩
    cases hg'

theorem keeps_runtimeElement {v index : Value} {base : Expr} {length : Int} {elem : Ty}
    {glimpse : Option Glimpse} (hbase : base.WellFormed s.out.vars) (hty : base.ty = .array length elem)
    (hpos : elem.IsPositive) (hindex : index.Sound o s.out.vars) (hint : index.ty = .int)
    (hrange : ∀ d, index.content = .known d → ∃ n, d = .int n ∧ 0 ≤ n ∧ n < length)
    (hg : ∀ g, glimpse = some g → g.seen.Sound o) :
    Keeps c W o s (runtimeElement v base index elem glimpse) fun o' s' a =>
      a.Sound o' s'.out.vars ∧ a.ty = elem := by
  refine (keeps_asIndex h hindex hint hrange).bind fun e o' s' reach he => ?_
  obtain ⟨rfl, hsel⟩ := he
  have shape := Expr.ty_indexExpr base e elem (v.span.union index.span)
  refine .pure reach.sound ⟨⟨hpos, ⟨?_, shape⟩, fun g hgl => (hg g hgl).mono reach.owners⟩, rfl⟩
  exact Expr.wellFormed_indexExpr hbase hty (hsel elem)

theorem keeps_elementOf {v index : Value} {length : Int} {elem : Ty} {whole : Span}
    (hv : v.Sound o s.out.vars) (hty : v.ty = .array length elem) (hindex : index.Sound o s.out.vars)
    (hint : index.ty = .int)
    (hrange : ∀ d, index.content = .known d → ∃ n, d = .int n ∧ 0 ≤ n ∧ n < length) :
    Keeps c W o s (elementOf v index elem whole) fun o' s' a => a.Sound o' s'.out.vars ∧ a.ty = elem := by
  have hpos : elem.IsPositive := (Ty.isPositive_array.1 (hty ▸ hv.positive)).2
  obtain ⟨content, ty, span⟩ := v
  obtain rfl : ty = .array length elem := hty
  unfold elementOf
  dsimp only
  split
  · rename_i d i hc
    refine (Keeps.orBadShape (Q := fun o _ e => e.Sound o) h fun e he =>
      Datum.Sound.element? hv.content he).bind fun e o' s' reach he => ?_
    exact .pure reach.sound ⟨Value.sound_known hpos he, rfl⟩
  · split
    · exact .refuse
    · exact keeps_runtimeElement h trivial rfl hpos hindex hint hrange nofun
  · rename_i base g i hc
    obtain ⟨⟨hbase, hbty, -⟩, hg⟩ := hv.content
    refine (keeps_glimpseAt h (hg g rfl) i).bind fun part o' s' reach hpart => ?_
    obtain ⟨rfl, hpart⟩ := hpart
    have hindex' := hindex.mono reach
    split
    · rename_i p
      split
      · exact .pure reach.sound ⟨Value.sound_known hpos (hpart p rfl), rfl⟩
      · refine keeps_runtimeElement reach.sound hbase hbty hpos hindex' hint hrange ?_
        exact hpart
    · exact keeps_runtimeElement reach.sound hbase hbty hpos hindex' hint hrange nofun
  · obtain ⟨⟨hbase, hbty, -⟩, -⟩ := hv.content
    exact keeps_runtimeElement h hbase hbty hpos hindex hint hrange nofun
  · exact .breakDown

/-! ## Operators -/

theorem keeps_folded {span : Span} {result : Except FoldError Datum}
    (hd : ∀ d, result = .ok d → d.Sound o) :
    Keeps c W o s (folded span result) fun o' s' d => s' = s ∧ d.Sound o' := by
  unfold folded
  split
  · exact .pure h ⟨rfl, hd _ rfl⟩
  · exact .refuse
  · exact .refuse
  · exact .breakDown
  · exact .breakDown

theorem keeps_unaryValue {op : UnaryOp} {v : Value} {span : Span} (hv : v.Sound o s.out.vars) :
    Keeps c W o s (unaryValue op v span) fun o' s' a => a.Sound o' s'.out.vars := by
  refine .check fun haccept => ?_
  have haccept : unaryAccepts op v.ty.base = true := by simpa using haccept
  have hpos : (unaryTy op v.ty).IsPositive := isPositive_unaryTy hv.positive
  obtain ⟨content, ty, vspan⟩ := v
  cases content with
  | known d =>
    refine (keeps_folded h fun _ => Datum.sound_of_foldUnary).bind fun d o' s' reach hd => ?_
    exact .pure reach.sound (Value.sound_known hpos hd.2)
  | runtime e glimpse =>
    obtain ⟨⟨he, rfl, -⟩, -⟩ := hv.content
    exact .pure h (Value.sound_runtime hpos ⟨he, haccept, rfl⟩ rfl)

theorem keeps_rightType {op : BinaryOp} {v : Value} (hv : v.Sound o s.out.vars) :
    Keeps c W o s (rightType op v) fun _ s' b => s' = s ∧ b.IsPositive := by
  refine .check fun _ => ?_
  obtain ⟨content, ty, span⟩ := v
  dsimp only
  split
  · exact .refuse
  · exact .pure h ⟨rfl, hv.content⟩
  · exact .breakDown

theorem keeps_isInValue {l r : Value} {span : Span} (hr : r.Sound o s.out.vars) :
    Keeps c W o s (isInValue l r span) fun o' s' a => a.Sound o' s'.out.vars := by
  refine (keeps_rightType h hr).bind fun b o' s' reach _ => ?_
  exact .pure reach.sound (Value.sound_known (Ty.isPositive_prim _) trivial)

theorem keeps_asTypeValue {l r : Value} {span : Span} (hl : l.Sound o s.out.vars)
    (hr : r.Sound o s.out.vars) :
    Keeps c W o s (asTypeValue l r span) fun o' s' a => a.Sound o' s'.out.vars := by
  refine (keeps_rightType h hr).bind fun b o' s' reach hb => ?_
  obtain ⟨rfl, hb⟩ := hb
  have hl := hl.mono reach
  split
  · rename_i target
    have hpos : target.IsPositive := hb target rfl
    refine .check fun hprom => ?_
    have hprom : l.ty.promotesTo target = true := by simpa using hprom
    obtain ⟨content, ty, lspan⟩ := l
    cases content with
    | known d =>
      refine (Keeps.orBadShape (Q := fun o _ e => e.Sound o) reach.sound fun e he =>
        Datum.Sound.stretch? hl.content he).bind fun e o'' s'' reach' he => ?_
      exact .pure reach'.sound (Value.sound_known hpos he)
    | runtime e glimpse =>
      dsimp only
      split
      · exact .pure reach.sound hl
      · obtain ⟨⟨he, hty, -⟩, -⟩ := hl.content
        refine (keeps_newSlot reach.sound hpos).bind fun slot o₁ s₁ reach₁ hslot => ?_
        refine (keeps_emit reach₁.sound ?_ ?_).bind fun _ o₂ s₂ reach₂ _ => ?_
        · refine ⟨he.mono reach₁.grows.vars, ?_, _, hslot.2.1, rfl⟩
          rw [hty]
          exact hprom
        · exact fun _ _ _ hj => by cases hj
        · refine .pure reach₂.sound (Value.sound_runtime hpos ?_ rfl)
          show (s₂.out.vars[slot]?).map (·.ty) = some target
          rw [reach₂.grows.vars _ _ hslot.2.1, Option.map_some]
  · exact .refuse

theorem keeps_binaryValue {op : BinaryOp} {l r : Value} {span : Span} (hl : l.Sound o s.out.vars)
    (hr : r.Sound o s.out.vars) :
    Keeps c W o s (binaryValue op l r span) fun o' s' a => a.Sound o' s'.out.vars := by
  unfold binaryValue
  split
  · exact .refuse
  · rename_i common hcommon
    refine .check fun haccept => ?_
    have haccept : binaryAccepts op common.base = true := by simpa using haccept
    have hpos : (binaryTy op common).IsPositive :=
      isPositive_binaryTy ((Ty.isCommon_of_biggest? hcommon).positive hl.positive hr.positive)
    dsimp only
    split
    · refine (keeps_folded h fun _ => Datum.sound_of_foldBinary).bind fun d o' s' reach hd => ?_
      exact .pure reach.sound (Value.sound_known hpos hd.2)
    · refine (keeps_asExpr h hl).bind fun left o₁ s₁ reach₁ hleft => ?_
      obtain ⟨rfl, hlwf, hlty, -⟩ := hleft
      refine (keeps_asExpr reach₁.sound (hr.mono reach₁)).bind fun right o₂ s₂ reach₂ hright => ?_
      obtain ⟨rfl, hrwf, hrty, -⟩ := hright
      refine .pure reach₂.sound (Value.sound_runtime hpos ⟨hlwf, hrwf, common, ?_, haccept, rfl⟩ rfl)
      rw [hlty, hrty]
      exact hcommon

/-! ## Types and arrays -/

theorem keeps_typeOf {kind : Problem.Kind} {v : Value} (hv : v.Sound o s.out.vars) :
    Keeps c W o s (typeOf kind v) fun _ s' b => s' = s ∧ b.IsPositive := by
  refine .check fun _ => ?_
  obtain ⟨content, ty, span⟩ := v
  dsimp only
  split
  · exact .refuse
  · exact .pure h ⟨rfl, hv.content⟩
  · exact .breakDown

theorem keeps_concreteTypeOf {span : Span} {v : Value} (hv : v.Sound o s.out.vars) :
    Keeps c W o s (concreteTypeOf span v) fun _ s' t => s' = s ∧ t.IsPositive := by
  refine (keeps_typeOf h hv).bind fun b o' s' reach hb => ?_
  split
  · exact .pure reach.sound ⟨hb.1, hb.2 _ rfl⟩
  · exact .refuse

theorem keeps_boundValue (lower upper : Option Ty) (span : Span) :
    Keeps c W o s (boundValue lower upper span) fun o' s' a => a.Sound o' s'.out.vars := by
  have open_ : (Value.known (.type ⟨none, lower, upper⟩) .dataType span).Sound o s.out.vars :=
    Value.sound_known (Ty.isPositive_prim _) nofun
  unfold boundValue
  dsimp only
  split
  · split
    · exact Keeps.bind (Q := fun _ _ _ => False) .refuse fun _ _ _ _ never => never.elim
    · exact .pure h open_
  · exact .pure h open_

theorem keeps_lengthOf (v : Value) : Keeps c W o s (lengthOf v) fun _ s' n => s' = s ∧ 0 < n := by
  unfold lengthOf
  split
  · exact .refuse
  · split
    · exact .refuse
    · exact .pure h ⟨rfl, by omega⟩
  · exact .refuse

/-- The lengths of a value, as a value. -/
theorem keeps_lengths (dims : List Int) (span : Span) : Keeps c W o s (match dims with
    | [] => return .known (.int 1) .int span
    | dims => return .known (.array (dims.map .int)) (.array dims.length .int) span)
    fun o' s' a => Value.Sound o' s'.out.vars a := by
  cases dims with
  | nil => exact .pure h (Value.sound_known (Ty.isPositive_prim _) trivial)
  | cons d ds =>
    refine .pure h (Value.sound_known (Ty.isPositive_array.2 ⟨?_, Ty.isPositive_prim _⟩) ?_)
    · rw [List.length_cons]
      omega
    · rw [Datum.sound_array]
      intro d hd
      obtain ⟨n, -, rfl⟩ := List.mem_map.1 hd
      trivial

theorem keeps_propertyValue {v : Value} {property : Scoped.Property} {span : Span}
    (hv : v.Sound o s.out.vars) :
    Keeps c W o s (propertyValue v property span) fun o' s' a => a.Sound o' s'.out.vars := by
  cases property with
  | type => exact .pure h (Value.sound_known (Ty.isPositive_prim _) (Bound.isPositive_exactly hv.positive))
  | dims =>
    have lengths (ty : Ty) := keeps_lengths (W := W) h ty.dims span
    unfold propertyValue
    dsimp only
    split
    · split
      · exact lengths _
      · exact Keeps.bind (Q := fun _ _ _ => False) .refuse fun _ _ _ _ never => never.elim
    · exact lengths _

theorem keeps_asExprs {first : Ty} {items : List Value} (hitems : ∀ v ∈ items, v.Sound o s.out.vars)
    (hty : ∀ v ∈ items, v.ty = first) :
    Keeps c W o s (items.mapM asExpr) fun _ s' es => s' = s ∧ es.length = items.length ∧
      Expr.AllOf s'.out.vars first es := by
  induction items generalizing o s with
  | nil => exact .pure h ⟨rfl, rfl, trivial⟩
  | cons v vs ih =>
    rw [List.mapM_cons]
    refine (keeps_asExpr h (hitems v List.mem_cons_self)).bind fun e o₁ s₁ reach₁ he => ?_
    obtain ⟨rfl, hwf, hety, -⟩ := he
    refine (ih reach₁.sound (fun w hw => (hitems w (List.mem_cons_of_mem _ hw)).mono reach₁)
      fun w hw => hty w (List.mem_cons_of_mem _ hw)).bind fun es o₂ s₂ reach₂ hes => ?_
    obtain ⟨rfl, hlen, hall⟩ := hes
    refine .pure reach₂.sound ⟨rfl, by simp [hlen], hwf, ?_, hall⟩
    exact hety.trans (hty v List.mem_cons_self)

theorem keeps_collected {items : List Value} {first : Ty} {span : Span} (hne : items ≠ [])
    (hitems : ∀ v ∈ items, v.Sound o s.out.vars) (hty : ∀ v ∈ items, v.ty = first) :
    Keeps c W o s (collected items first span) fun o' s' a => a.Sound o' s'.out.vars := by
  have hpos : (Ty.array items.length first).IsPositive := by
    obtain ⟨v, vs, rfl⟩ := List.exists_cons_of_ne_nil hne
    refine Ty.isPositive_array.2 ⟨by rw [List.length_cons]; omega, ?_⟩
    exact hty v List.mem_cons_self ▸ (hitems v List.mem_cons_self).positive
  unfold collected
  dsimp only
  split
  · rename_i data hdata
    refine .pure h (Value.sound_known hpos (Datum.sound_of_mapM hdata fun v hv d hd => ?_))
    obtain ⟨content, ty, vspan⟩ := v
    cases content with
    | known d' => cases hd; exact (hitems _ hv).content
    | runtime e g => cases hd
  · refine (keeps_asExprs h hitems hty).bind fun es o' s' reach hes => ?_
    obtain ⟨rfl, hlen, hall⟩ := hes
    refine .pure reach.sound (Value.sound_runtime hpos ⟨?_, first, by rw [hlen], hall⟩ rfl)
    rintro rfl
    exact hne (List.length_eq_zero_iff.1 hlen.symm)

/-! ## Places -/

theorem keeps_addIndex {p : Place} {slot : Option SlotId} {index : Value} {length : Int} {elem : Ty}
    (hp : p.Sound o s) (hty : p.ty = some (.array length elem)) (hindex : index.Sound o s.out.vars)
    (hint : index.ty = .int)
    (hrange : ∀ d, index.content = .known d → ∃ n, d = .int n ∧ 0 ≤ n ∧ n < length) :
    Keeps c W o s (addIndex p slot index elem) fun o' s' q => q.Sound o' s' ∧ q.ty.isSome ∧ q.var = p.var := by
  obtain ⟨hpos, r, t, hr, ht, hsel⟩ := hp.settled _ hty
  have hpos := (Ty.isPositive_array.1 hpos).2
  unfold addIndex
  split
  · rename_i n hn hdyn
    obtain ⟨m, hm, hrange⟩ := hrange _ hn
    cases hm
    refine .pure h ⟨⟨hp.owner, fun ty hty => ?_, nofun⟩, rfl, rfl⟩
    cases hty
    refine ⟨hpos, r, t, hr, ht, ?_⟩
    have one : Expr.Selects s.out.vars [Expr.ofIndex n p.span] (.array length elem) elem :=
      Expr.selects_one trivial rfl ⟨n, rfl, hrange⟩
    simpa [Place.indexes, hdyn] using hsel.append one
  · rename_i indexes _ hdyn
    refine (keeps_asIndex h hindex hint hrange).bind fun e o' s' reach he => ?_
    obtain ⟨rfl, he⟩ := he
    refine .pure reach.sound ⟨⟨reach.owners _ _ hp.owner, fun ty hty => ?_, nofun⟩, rfl, rfl⟩
    cases hty
    refine ⟨hpos, r, t, hr, ht, ?_⟩
    simpa [Place.indexes, hdyn] using hsel.append (he elem)
  · rename_i hdyn _
    have dynamic : Keeps c W o s (do
        let leading := p.fixed.map fun k => Expr.ofIndex k p.span
        return { p with dynamic := some (leading ++ [← asExpr index]), ty := some elem })
        fun o' s' q => q.Sound o' s' ∧ q.ty.isSome ∧ q.var = p.var := by
      refine (keeps_asIndex h hindex hint hrange).bind fun e o' s' reach he => ?_
      obtain ⟨rfl, he⟩ := he
      refine .pure reach.sound ⟨⟨reach.owners _ _ hp.owner, fun ty hty => ?_, nofun⟩, rfl, rfl⟩
      cases hty
      refine ⟨hpos, r, t, hr, ht, ?_⟩
      simpa [Place.indexes, hdyn] using hsel.append (he elem)
    split
    · exact .read_bind (Keeps.bind (Q := fun _ _ _ => False) .refuse fun _ _ _ _ never => never.elim)
    · exact dynamic

/-- A record that was open takes a type, and a new slot if the type has one. -/
theorem reaches_settled {id : Nat} {v : VarId} {r : Record} {ty : Ty} {slot : Option SlotId} (hpos : ty.IsPositive)
    (howner : o[id]? = some v) (hw : W v)
    (hopen : ∀ r', s.records[id]? = some r' → r'.bound.actual = none)
    (hslot : ∀ k, slot = some k → (∃ v, s.out.vars[k]? = some v ∧ v.ty = ty) ∧
      ∀ r' ∈ s.records, r'.slot ≠ some k) :
    Reaches c.source W o s o { s with
      records := s.records.setIfInBounds id
        { r with bound := { r.bound with actual := some ty }, slot := slot } } := by
  have kept {i : Nat} {r' : Record} (hr' : s.records[i]? = some r') (hs : r'.bound.actual.isSome) :
      i ≠ id := by
    rintro rfl
    rw [hopen r' hr'] at hs
    cases hs
  -- A record of the new state that has a slot is an old one elsewhere, or the new one with its new slot.
  have source {i : Nat} {r' : Record} {k : SlotId}
      (found : (s.records.setIfInBounds id
        { r with bound := { r.bound with actual := some ty }, slot := slot })[i]? = some r')
      (hk : r'.slot = some k) : s.records[i]? = some r' ∨ (i = id ∧ slot = some k) := by
    rw [Array.getElem?_setIfInBounds] at found
    split at found
    · split at found
      · cases found
        exact .inr ⟨Eq.symm ‹_›, hk⟩
      · cases found
    · exact .inl found
  refine ⟨.refl _, ⟨.refl _, Nat.le_refl _, fun i r' hr' hs => ?_⟩, rfl, ?_, fun i v' hv' apart => ?_⟩
  · rw [Array.getElem?_setIfInBounds, if_neg (kept hr' hs).symm]
    exact hr'
  · refine { h with
      owners := by simp [h.owners]
      records := fun r' hr' => ?_
      shared := fun i j r₁ r₂ k h₁ h₂ hk₁ hk₂ => ?_
      statics := fun k hk => ?_ }
    · rcases Array.mem_or_eq_of_mem_setIfInBounds hr' with hr' | rfl
      · exact h.records r' hr'
      · refine ⟨fun t ht => by cases ht; exact hpos, fun k hk => ?_⟩
        obtain ⟨⟨v, hv, rfl⟩, -⟩ := hslot k hk
        exact ⟨v, hv, rfl⟩
    · rcases source h₁ hk₁ with old₁ | ⟨rfl, new₁⟩ <;> rcases source h₂ hk₂ with old₂ | ⟨rfl, new₂⟩
      · exact h.shared i j r₁ r₂ k old₁ old₂ hk₁ hk₂
      · exact ((hslot k new₂).2 r₁ (Array.mem_of_getElem? old₁) hk₁).elim
      · exact ((hslot k new₁).2 r₂ (Array.mem_of_getElem? old₂) hk₂).elim
      · rfl
    · obtain ⟨i, r', v, hr', hslot', hv, hio⟩ := h.statics k hk
      obtain ⟨w, -, hw⟩ := (h.records r' (Array.mem_of_getElem? hr')).slot k hslot'
      refine ⟨i, r', v, ?_, hslot', hv, hio⟩
      rw [Array.getElem?_setIfInBounds, if_neg (kept hr' (by simp [hw])).symm]
      exact hr'
  · refine Array.getElem?_setIfInBounds_ne fun same => apart ?_
    rw [← same, howner] at hv'
    exact Option.some.inj hv' ▸ hw

theorem keeps_settle {p : Place} {v : Value} (hp : p.Sound o s) (hw : W p.var) (hty : p.ty = none)
    (hv : v.Sound o s.out.vars) :
    Keeps c W o s (settle p v) fun _ s' _ =>
      ∀ r, s'.records[p.record]? = some r → r.bound.actual = some v.ty := by
  obtain ⟨-, -, hopen⟩ := hp.unsettled hty
  have result {r : Record} {s' : State} {slot : Option SlotId} :
      ∀ r', (s'.records.setIfInBounds p.record
        { r with bound := { r.bound with actual := some v.ty }, slot := slot })[p.record]? = some r' →
      r'.bound.actual = some v.ty := by
    intro r' hr'
    rw [Array.getElem?_setIfInBounds, if_pos rfl] at hr'
    split at hr'
    · cases hr'; rfl
    · cases hr'
  refine (keeps_record h _).bind fun r o' s' reach hr => ?_
  obtain ⟨rfl, shows⟩ := hr
  refine .read_bind ?_
  dsimp only
  split
  · exact .refuse
  · exact .refuse
  · split
    · refine Keeps.bind (Q := fun _ s₁ slot => s₁.records = s'.records ∧ ∀ k, slot = some k →
          (∃ w, s₁.out.vars[k]? = some w ∧ w.ty = v.ty) ∧ ∀ r' ∈ s'.records, r'.slot ≠ some k)
        (.map ?_) fun slot o₁ s₁ reach₁ hslot => ?_
      · refine (keeps_newSlot reach.sound hv.positive).mono fun k _ _ _ hk => ⟨hk.1, fun k' hk' => ?_⟩
        cases hk'
        exact ⟨⟨_, hk.2.1, rfl⟩, hk.2.2⟩
      · refine .modify (reaches_settled reach₁.sound hv.positive
          (reach₁.owners _ _ (reach.owners _ _ hp.owner)) hw ?_ ?_) result
        · exact hslot.1 ▸ hopen
        · exact hslot.1 ▸ hslot.2
    · have owned := reach.owners _ _ hp.owner
      refine .modify (reaches_settled reach.sound hv.positive owned hw hopen fun k hk => ?_) result
      obtain ⟨w, -, hw⟩ := shows.sound.slot k hk
      have := shows.found (by simp [hw])
      rw [hopen r this] at hw
      cases hw

theorem keeps_forM (xs : List α) {f : α → Stage PUnit}
    (hf : ∀ x ∈ xs, ∀ o' s', Reaches c.source W o s o' s' → Keeps c W o' s' (f x) fun _ _ _ => True) :
    Keeps c W o s (xs.forM f) fun _ _ _ => True := by
  induction xs generalizing o s with
  | nil => exact .pure h trivial
  | cons x xs ih =>
    refine (hf x List.mem_cons_self o s (.refl h)).bind fun _ o₁ s₁ reach₁ _ => ?_
    exact ih reach₁.sound fun y hy o₂ s₂ reach₂ =>
      hf y (List.mem_cons_of_mem _ hy) o₂ s₂ (reach₁.trans reach₂)

theorem keeps_trackKnown {p : Place} {r : Record} {ty : Ty} {d : Datum} {valueTy : Ty} (hd : d.Sound o) :
    Keeps c W o s (trackKnown p r ty d valueTy) fun _ _ _ => True := by
  unfold trackKnown
  split
  · exact keeps_trackAt h hd
  · refine keeps_forM h _ fun coord _ o₁ s₁ reach₁ => ?_
    have hd₁ := hd.mono reach₁.owners
    refine (Keeps.orBadShape (Q := fun o _ e => e.Sound o) reach₁.sound fun e he =>
      hd₁.item? he).bind fun e o₂ s₂ reach₂ he => ?_
    exact keeps_trackAt reach₂.sound he

end Values

/-- What an assignment does once the type of its target is known. -/
def assignAs (p : Place) (v : Value) (span : Span) (ty : Ty) : Stage Unit := do
  let r ← record p.record
  match v.content, p.dynamic with
  | .known d, none => trackKnown p r ty d v.ty
  | _, _ =>
    if r.slot.isNone then refuse (.cannotHold v.span (← sourceVar p.var).name)
    trackAt p.var r p.fixed (.unknownOf ((r.bound.actual.elim [] Ty.dims).drop p.fixed.length))
  match r.slot with
  | none => return
  | some slot =>
    let value ← asExpr v
    emit (.assign ⟨slot, p.indexes, ty, p.span⟩ value span)

theorem assign_eq (p : Place) (v : Value) (span : Span) :
    assign p v span = (match p.ty with
      | none => do settle p v; assignAs p v span v.ty
      | some ty => do
        if !v.ty.promotesTo ty then refuse (.mismatch span v.ty ty p.span v.span)
        assignAs p v span ty) := rfl

theorem keeps_assignAs (h : s.Sound c.source o) {p : Place} {v : Value} {span : Span} {ty : Ty}
    (hv : v.Sound o s.out.vars) (hprom : v.ty.promotesTo ty = true)
    (hp : ∀ r, s.records[p.record]? = some r →
      ∃ t, r.bound.actual = some t ∧ Expr.Selects s.out.vars p.indexes t ty) :
    Keeps c W o s (assignAs p v span ty) fun _ _ _ => True := by
  refine (keeps_record h _).bind fun r o₁ s₁ reach₁ hr => ?_
  obtain ⟨rfl, shows⟩ := hr
  have hv₁ := hv.mono reach₁
  have store {o₂ : Owners} {s₂ : State} (reach₂ : Reaches c.source W o₁ s₁ o₂ s₂) :
      Keeps c W o₂ s₂ (match r.slot with
        | none => return
        | some slot => do
          let value ← asExpr v
          emit (.assign ⟨slot, p.indexes, ty, p.span⟩ value span)) fun _ _ _ => True := by
    split
    · exact .pure reach₂.sound trivial
    · rename_i slot hslot
      refine (keeps_asExpr reach₂.sound (hv₁.mono reach₂)).bind fun e o₃ s₃ reach₃ he => ?_
      obtain ⟨rfl, hwf, hty, -⟩ := he
      refine keeps_emit reach₃.sound ⟨hwf, hty ▸ hprom, ?_⟩ fun _ _ _ hj => by cases hj
      obtain ⟨w, hw, hwty⟩ := shows.sound.slot slot hslot
      obtain ⟨t, ht, hsel⟩ := hp r (shows.found (by simp [hwty]))
      obtain rfl : t = w.ty := by rw [ht] at hwty; exact Option.some.inj hwty
      exact ⟨w, reach₂.grows.vars slot w hw, hsel.mono reach₂.grows.vars⟩
  have unknown {o₂ : Owners} {s₂ : State} (reach₂ : Reaches c.source W o₁ s₁ o₂ s₂) :
      Keeps c W o₂ s₂
        (trackAt p.var r p.fixed (.unknownOf ((r.bound.actual.elim [] Ty.dims).drop p.fixed.length)))
        fun _ _ _ => True :=
    keeps_trackAt reach₂.sound (Datum.sound_unknownOf _)
  dsimp only
  split
  · rename_i d hc _
    have hd : d.Sound o₁ := by
      have := hv₁.content
      rw [hc] at this
      exact this
    exact (keeps_trackKnown reach₁.sound hd).bind fun _ _ _ reach₂ _ => store reach₂
  · split
    · exact .read_bind (Keeps.bind (Q := fun _ _ _ => False) .refuse fun _ _ _ _ never => never.elim)
    · exact (unknown (.refl reach₁.sound)).bind fun _ _ _ reach₂ _ => store reach₂

theorem keeps_assign (h : s.Sound c.source o) {p : Place} {v : Value} {span : Span} (hp : p.Sound o s)
    (hw : W p.var) (hv : v.Sound o s.out.vars) : Keeps c W o s (assign p v span) fun _ _ _ => True := by
  rw [assign_eq]
  cases hty : p.ty with
  | none =>
    obtain ⟨hfixed, hdyn, -⟩ := hp.unsettled hty
    refine (keeps_settle h hp hw hty hv).bind fun _ o₁ s₁ reach₁ hr => ?_
    refine keeps_assignAs reach₁.sound (hv.mono reach₁) (Ty.promotesTo_refl _) fun r hfound => ?_
    refine ⟨v.ty, hr r hfound, ?_⟩
    rw [Place.indexes, hdyn, hfixed]
    rfl
  | some ty =>
    refine .check fun hprom => ?_
    refine keeps_assignAs h hv (by simpa using hprom) fun r hfound => ?_
    obtain ⟨-, r', t, hr', ht, hsel⟩ := hp.settled ty hty
    rw [hfound] at hr'
    cases hr'
    exact ⟨t, ht, hsel⟩

end Stage

end SignalLang.Staged
