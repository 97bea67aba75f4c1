import SignalLang.Proofs.Staged.Sight
import SignalLang.Proofs.Staged.Values

/-!
# Steps that cannot break down

`Safe c L Γ M s m Q` is how a step is specified that works under one table: it never stops with a fault, what is in
sight stands again when it ends, and `Q` holds of its result. The steps of the state, of values and of places are safe
on values of the types they come with (`Value.Proper`).
-/

namespace SignalLang.Staged

open Scoped (VarId Layout)
open Datum (IsA May)

variable {p : Scoped.Program} {L : Layout} {Γ Γ' M : VarId → Prop} {s s' s'' : State} {v : VarId} {d : Datum}

/-! ## Single changes -/

namespace Passes

theorem put (hv : Γ v ∨ M v) (table : s'.table = s.table) (records : s'.records = s.records)
    (written : s'.written = s.written) (log : s'.log = s.log)
    (tracked : s'.tracked = s.tracked.setIfInBounds v (some d)) : Passes Γ Γ M s s' := by
  refine ⟨fun _ hw => hw, fun _ hw => .inl hw, fun _ _ => by rw [table], fun w hw hm => ?_, fun w hw => ?_, ?_,
    fun id r hr => .inl (records ▸ hr), log ▸ List.prefix_rfl, fun g t hg => ?_⟩
  · rw [tracked, Array.getElem?_setIfInBounds, if_neg]
    rintro rfl
    exact hv.elim hw hm
  · rw [written] at hw
    exact .inl hw
  · rw [records]
  · exact hg.keep log fun w hw => ⟨hw, by rw [table], fun id r _ hr _ => records ▸ hr⟩

theorem write {w : Write} (hv : Γ w.var ∨ M w.var) (table : s'.table = s.table) (records : s'.records = s.records)
    (written : ∀ u ∈ s'.written, u ∈ s.written ∨ u = w.var) (log : s'.log = s.log.push w)
    (tracked : s'.tracked = s.tracked.setIfInBounds w.var (some d))
    (hw : w.coord = [] ∨ (Γ w.var ∧ ∀ id r whole, s.table.lookup w.var = some id → s.records[id]? = some r →
      r.bound.actual = some whole → w.Keeps whole)) : Passes Γ Γ M s s' := by
  refine ⟨fun _ hu => hu, fun _ hu => .inl hu, fun _ _ => by rw [table], fun u hu hm => ?_, fun u hu => ?_, ?_,
    fun id r hr => .inl (records ▸ hr), ?_, fun g t hg => ?_⟩
  · rw [tracked, Array.getElem?_setIfInBounds, if_neg]
    rintro rfl
    exact hv.elim hu hm
  · rcases written u hu with hu | rfl
    · exact .inl hu
    · exact .inr hv.symm
  · rw [records]
  · rw [log, Array.toList_push]
    exact List.prefix_append _ _
  · exact hg.push log hw fun u hu => .inr ⟨hu, by rw [table], fun id r _ hr _ => records ▸ hr⟩

theorem make {r : Record} (hv : ¬Γ v) (hm : M v) (table : s'.table = (v, s.records.size) :: s.table)
    (records : s'.records = s.records.push r) (written : ∀ u ∈ s'.written, u ∈ s.written ∨ u = v)
    (log : s'.log = s.log.push ⟨v, [], d⟩) (tracked : s'.tracked = s.tracked.setIfInBounds v (some d)) :
    Passes Γ (fun u => Γ u ∨ u = v) M s s' := by
  have other {w : VarId} (hw : Γ w) : s'.table.lookup w = s.table.lookup w := by
    have hne : (w == v) = false := beq_eq_false_iff_ne.2 fun same => hv (same ▸ hw)
    rw [table, List.lookup_cons, hne]
  have kept {id : Nat} {r' : Record} (hr : s.records[id]? = some r') : s'.records[id]? = some r' := by
    rw [records, Array.getElem?_push, if_neg (Nat.ne_of_lt (Array.getElem?_eq_some_iff.1 hr).1), hr]
  refine ⟨fun _ hu => .inl hu, ?_, fun _ hu => other hu, fun u hu hm' => ?_, fun u hu => ?_, ?_,
    fun id r hr => .inl (kept hr), ?_, fun g t hg => ?_⟩
  · rintro u (hu | rfl)
    · exact .inl hu
    · refine .inr ⟨hm, fun id hid => ?_⟩
      rw [table, List.lookup_cons, beq_self_eq_true] at hid
      cases hid
      exact Nat.le_refl _
  · rw [tracked, Array.getElem?_setIfInBounds, if_neg]
    rintro rfl
    exact hm' hm
  · rcases written u hu with hu | rfl
    · exact .inl hu
    · exact .inr (.inl hm)
  · rw [records, Array.size_push]
    exact Nat.le_succ _
  · rw [log, Array.toList_push]
    exact List.prefix_append _ _
  · refine hg.push log (.inl rfl) ?_
    rintro u (hu | rfl)
    · exact .inr ⟨hu, other hu, fun id r _ hr _ => kept hr⟩
    · exact .inl ⟨rfl, rfl⟩

theorem settle {id : Nat} {r settled : Record} (hv : Γ v) (lookup : s.table.lookup v = some id)
    (record : s.records[id]? = some r) (opened : r.bound.actual = none) (table : s'.table = s.table)
    (records : s'.records = s.records.setIfInBounds id settled) (tracked : s'.tracked = s.tracked)
    (written : s'.written = s.written) (log : s'.log = s.log) : Passes Γ Γ M s s' := by
  have kept {id' : Nat} {r' : Record} (hr : s.records[id']? = some r') :
      s'.records[id']? = some r' ∨ (id' = id ∧ r' = r) := by
    rw [records, Array.getElem?_setIfInBounds]
    split
    · rename_i same
      subst same
      rw [record] at hr
      exact .inr ⟨rfl, (Option.some.inj hr).symm⟩
    · exact .inl hr
  refine ⟨fun _ hw => hw, fun _ hw => .inl hw, fun _ _ => by rw [table], fun _ _ _ => by rw [tracked], fun w hw => ?_,
    ?_, fun id' r' hr => ?_, log ▸ List.prefix_rfl, fun g t hg => ?_⟩
  · rw [written] at hw
    exact .inl hw
  · rw [records, Array.size_setIfInBounds]
  · rcases kept hr with hr | ⟨rfl, rfl⟩
    · exact .inl hr
    · exact .inr ⟨opened, v, hv, lookup⟩
  · refine hg.keep log fun w hw => ⟨hw, by rw [table], fun id' r' _ hr some => ?_⟩
    rcases kept hr with hr | ⟨-, rfl⟩
    · exact hr
    · rw [opened] at some
      cases some

end Passes

/-- A step that works under one table leads from a state to another. -/
structure Goes (p : Scoped.Program) (L : Layout) (Γ M : VarId → Prop) (s s' : State) : Prop where
  sees : s'.Sees p L Γ
  passes : Passes Γ Γ M s s'
  table : s'.table = s.table
  inStatic : s'.inStatic = s.inStatic
  conditional : s'.conditional = s.conditional
  returned : s'.returned = s.returned

namespace Goes

theorem refl (h : s.Sees p L Γ) : Goes p L Γ M s s := ⟨h, .refl _ _ _, rfl, rfl, rfl, rfl⟩

theorem trans (h : Goes p L Γ M s s') (h' : Goes p L Γ M s' s'') : Goes p L Γ M s s'' :=
  ⟨h'.sees, h.passes.trans h'.passes, h'.table.trans h.table, h'.inStatic.trans h.inStatic,
    h'.conditional.trans h.conditional, h'.returned.trans h.returned⟩

/-- A record whose type is settled stays as it is. -/
theorem stands (g : Goes p L Γ M s s') (hv : Γ v) {id : Nat} {r : Record} (hr : s.Stands p v id r)
    (settled : r.bound.actual.isSome) : s'.Stands p v id r := by
  obtain ⟨id', r', stands⟩ := g.sees.stands v hv
  have lookup := stands.lookup
  rw [g.table, hr.lookup] at lookup
  cases lookup
  rcases g.passes.records id r hr.record with same | ⟨opened, -⟩
  · have record := stands.record
    rw [same] at record
    cases record
    exact stands
  · rw [opened] at settled
    cases settled

/-- What is emitted may change. -/
theorem out (h : s.Sees p L Γ) {out : Program} (fits : out.Fits) : Goes p L Γ M s { s with out := out } :=
  ⟨h.view ⟨rfl, rfl, rfl⟩ fits h.closed fun _ hv => ⟨hv, rfl⟩,
    (Passes.refl _ _ _).alike ⟨rfl, rfl, rfl⟩ (fun _ _ => rfl) fun _ => .inl, rfl, rfl, rfl, rfl⟩

end Goes

/-! ## Programs in the making -/

namespace Program

theorem Fits.addVariable {out : Program} (h : out.Fits) {x : Variable} (hx : x.ty.isRuntime = true) :
    (out.addVariable x).Fits := by
  refine ⟨fun y hy => ?_, h.2⟩
  rcases Array.mem_push.1 hy with hy | rfl
  · exact h.1 y hy
  · exact hx

theorem Fits.addScope {out : Program} (h : out.Fits) : out.addScope.Fits := by
  refine ⟨h.1, fun body hbody => ?_⟩
  rw [Program.addScope, Array.toList_push] at hbody
  rcases List.mem_append.1 hbody with hbody | hbody
  · exact h.2 body hbody
  · obtain rfl := List.mem_singleton.1 hbody
    intro st hst
    cases hst

theorem Fits.addStmt {out : Program} (h : out.Fits) (i : ScopeId) {st : Stmt} (hst : Expr.AllFit st.exprs) :
    (out.addStmt i st).Fits := by
  refine ⟨h.1, fun body hbody st' hst' => ?_⟩
  obtain ⟨j, hj, rfl⟩ := List.mem_iff_getElem.1 hbody
  simp only [Program.addStmt, Array.getElem_toList, Array.getElem_modify] at hst'
  have old (k : Nat) (hk : k < out.scopes.size) : out.scopes[k] ∈ out.scopes.toList :=
    Array.mem_toList_iff.2 (Array.getElem_mem hk)
  split at hst'
  · rcases Array.mem_push.1 (Array.mem_toList_iff.1 hst') with hst' | rfl
    · exact h.2 _ (old j _) st' (Array.mem_toList_iff.2 hst')
    · exact hst
  · exact h.2 _ (old j _) st' hst'

end Program

/-! ## Values and places -/

theorem Expr.allFit_iff {es : List Expr} : AllFit es ↔ ∀ e ∈ es, e.LiteralsFit := by
  induction es with
  | nil => simp [AllFit]
  | cons e es ih => simp [AllFit, ih]

/-- A known value is of its type; what is left to run time can be held, and its view is right. -/
def Content.Proper (Γ : VarId → Prop) (s : State) (ty : Ty) : Content → Prop
  | .known d => d.Has (IsA ty.base) ty.dims
  | .runtime e glimpse => ty.isRuntime = true ∧ e.LiteralsFit ∧ ∀ g, glimpse = some g → Live Γ s g ty

/-- A value is of its type. -/
structure Value.Proper (Γ : VarId → Prop) (s : State) (v : Value) : Prop where
  positive : v.ty.IsPositive
  content : v.content.Proper Γ s v.ty

namespace Value

/-- What is known of an integer is an integer. -/
theorem Proper.known_int {a : Value} (h : a.Proper Γ s) (isInt : a.ty = .int) {d : Datum}
    (known : a.content = .known d) :
    ∃ n, d = .int n := by
  obtain ⟨content, ty, span⟩ := a
  obtain rfl : ty = .int := isInt
  obtain rfl : content = .known d := known
  exact Datum.IsA.int h.content

theorem Proper.mono {a : Value} (h : a.Proper Γ s) (live : ∀ g t, Live Γ s g t → Live Γ' s' g t) : a.Proper Γ' s' := by
  refine ⟨h.positive, ?_⟩
  obtain ⟨content, ty, span⟩ := a
  cases content with
  | known d => exact h.content
  | runtime e glimpse =>
    obtain ⟨runtime, fits, views⟩ := h.content
    exact ⟨runtime, fits, fun x hx => live x ty (views x hx)⟩

theorem Proper.goes {a : Value} (h : a.Proper Γ s) (g : Goes p L Γ M s s') : a.Proper Γ s' := h.mono g.passes.live

theorem Proper.known {a : Value} (h : a.Proper Γ s) (hd : a.content = .known d) :
    d.Has (IsA a.ty.base) a.ty.dims := by
  have content := h.content
  rw [hd] at content
  exact content

/-- A known value of a primitive type. -/
theorem proper_prim {q : Prim} {span : Span} (h : d.IsA q) : (Value.known d (.prim q) span).Proper Γ s :=
  ⟨Ty.isPositive_prim q, h⟩

end Value

/-- A part of a variable of type `whole` that is of type `ty`: the known indexes are in range, and lead to it unless
other indexes follow. -/
structure Place.Aims (q : Place) (whole ty : Ty) : Prop where
  base : whole.base = ty.base
  length : q.fixed.length ≤ whole.dims.length
  inBounds : InBounds q.fixed (whole.dims.take q.fixed.length)
  part : q.dynamic = none → whole.dims.drop q.fixed.length = ty.dims

/-- A place of a variable that is in sight and may be assigned. -/
structure Place.Proper (p : Scoped.Program) (Γ : VarId → Prop) (s : State) (q : Place) : Prop where
  sight : Γ q.var
  initial : (p.var q.var).initial = none
  stands : ∃ r, s.Stands p q.var q.record r ∧
    (q.ty = none → r.bound.actual = none ∧ q.fixed = [] ∧ q.dynamic = none) ∧
    ∀ ty, q.ty = some ty → ∃ whole, r.bound.actual = some whole ∧ q.Aims whole ty
  fits : Expr.AllFit q.indexes

/-- A step may stop for its depth, but not with a fault. -/
def Stops.faultless : Stops := ⟨fun _ => False, True⟩

namespace Stage

variable {α β : Type} {c : Context}

/-- The step never stops with a fault; when it ends, what is in sight stands and its result is as `Q` says. -/
def Safe (c : Context) (L : Layout) (Γ M : VarId → Prop) (s : State) (m : Stage α) (Q : State → α → Prop) : Prop :=
  Ends .faultless c s m fun s' a => Goes c.source L Γ M s s' ∧ Q s' a

namespace Safe

variable {m : Stage α} {f : α → Stage β} {Q Q' : State → α → Prop} {R : State → β → Prop} {q : α → Prop}

theorem pure {a : α} (h : s.Sees c.source L Γ) (hq : Q s a) : Safe c L Γ M s (Pure.pure a) Q :=
  Ends.pure ⟨.refl h, hq⟩

theorem bind (hm : Safe c L Γ M s m Q) (hf : ∀ a s', Goes c.source L Γ M s s' → Q s' a → Safe c L Γ M s' (f a) R) :
    Safe c L Γ M s (m >>= f) R :=
  Ends.bind hm fun a s' h => (hf a s' h.1 h.2).mono fun _ _ h' => ⟨h.1.trans h'.1, h'.2⟩

/-- A step that leaves the state as it is. -/
theorem still (hm : Ends .faultless c s m fun s' a => s' = s ∧ q a) (hf : ∀ a, q a → Safe c L Γ M s (f a) R) :
    Safe c L Γ M s (m >>= f) R :=
  Ends.bind hm fun a s' h => by
    obtain ⟨rfl, hq⟩ := h
    exact hf a hq

theorem mono (hm : Safe c L Γ M s m Q) (h : ∀ a s', Goes c.source L Γ M s s' → Q s' a → Q' s' a) :
    Safe c L Γ M s m Q' :=
  Ends.mono hm fun a s' ha => ⟨ha.1, h a s' ha.1 ha.2⟩

theorem refuse {problem : Problem} : Safe c L Γ M s (Stage.refuse problem) Q := Ends.refuse

theorem check {b : Prop} [Decidable b] {problem : Problem} {f : β → Stage α} (h : ¬b → Safe c L Γ M s m Q) :
    Safe c L Γ M s (if b then Stage.refuse problem >>= f else m) Q := Ends.check h

theorem get_bind {f : State → Stage β} (h : Safe c L Γ M s (f s) R) : Safe c L Γ M s (get >>= f) R := h

theorem read_bind {f : Context → Stage β} (h : Safe c L Γ M s (f c) R) : Safe c L Γ M s (read >>= f) R := h

/-- Something that has the right shape. -/
theorem orBadShape {a? : Option α} {a : α} (ha : a? = some a) (hf : Safe c L Γ M s (f a) R) :
    Safe c L Γ M s (Stage.orBadShape a? >>= f) R := by
  subst ha
  exact hf

/-- A step for each entry of a list. -/
theorem forM {xs : List α} {f : α → Stage PUnit} (h : s.Sees c.source L Γ)
    (hf : ∀ x ∈ xs, ∀ s', Goes c.source L Γ M s s' → Safe c L Γ M s' (f x) fun _ _ => True) :
    Safe c L Γ M s (xs.forM f) fun _ _ => True := by
  induction xs generalizing s with
  | nil => exact .pure h trivial
  | cons x xs ih =>
    refine (hf x List.mem_cons_self s (.refl h)).bind fun _ s₁ g₁ _ => ?_
    exact ih g₁.sees fun y hy s₂ g₂ => hf y (List.mem_cons_of_mem _ hy) s₂ (g₁.trans g₂)

/-- A step that changes the state once. -/
theorem modify {g : State → State} {R : State → PUnit → Prop} (h : Goes c.source L Γ M s (g s)) (hq : R (g s) ⟨⟩) :
    Safe c L Γ M s (modify g) R := Ends.modify ⟨h, hq⟩

end Safe

/-! ## Steps of the state -/

section Steps

variable (h : s.Sees c.source L Γ)

include h

theorem safe_emit {st : Stmt} (hst : Expr.AllFit st.exprs) :
    Safe c L Γ M s (emit st) fun s' _ => s'.records = s.records := by
  refine .modify ?_ ?_
  · split
    · exact .out h (h.out.addStmt _ hst)
    · exact .refl h
  · split <;> rfl

theorem safe_newScope : Safe c L Γ M s newScope fun s' _ => s'.records = s.records :=
  .get_bind (Ends.modify_bind (Ends.pure ⟨.out h h.out.addScope, rfl⟩))

theorem safe_newSlot {ty : Ty} {definition : Span} (hty : ty.isRuntime = true) :
    Safe c L Γ M s (newSlot ty definition) fun s' _ => s'.records = s.records ∧ s'.tracked = s.tracked :=
  .get_bind (Ends.modify_bind (Ends.pure ⟨.out h (h.out.addVariable hty), rfl, rfl⟩))

omit h in
theorem safe_recordOf {id : Nat} {r : Record} (hr : s.Stands c.source v id r) :
    Ends .faultless c s (recordOf v) fun s' a => s' = s ∧ a = (id, r) := by
  refine .get_bind ?_
  rw [hr.lookup]
  refine .get_bind (.pure ⟨rfl, ?_⟩)
  show (id, s.records.getD id default) = _
  rw [Array.getD_eq_getD_getElem?, hr.record, Option.getD_some]

omit h in
theorem safe_record {id : Nat} {r : Record} (hr : s.records[id]? = some r) :
    Ends .faultless c s (record id) fun s' a => s' = s ∧ a = r := by
  refine .get_bind (.pure ⟨rfl, ?_⟩)
  rw [Array.getD_eq_getD_getElem?, hr, Option.getD_some]

theorem safe_track {d : Datum} (hv : Γ v ∨ M v)
    (fits : Γ v → ∀ id r, s.Stands c.source v id r →
      d = .unknown ∨ ∃ t, r.bound.actual = some t ∧ d.Has (May t.base) t.dims)
    (macros : Γ v → ∀ site site' context, (c.source.var v).initial = some (.macroRef site) →
      d = .macroRef site' context → site' = site ∧ Armed c.source L v site s.table context) :
    Safe c L Γ M s (track v d) fun s' _ => s'.records = s.records := by
  refine Ends.modify_bind (Ends.modify ⟨⟨?_, ?_, rfl, rfl, rfl, rfl⟩, rfl⟩)
  · exact h.put h.out rfl rfl rfl fits macros
  · refine .write (w := ⟨v, [], d⟩) hv rfl rfl (fun u hu => ?_) rfl rfl (.inl rfl)
    dsimp only at hu
    split at hu
    · exact .inl hu
    · exact (List.mem_cons.1 hu).symm

/-- The tracked value of a variable in sight, in the shape of its type. -/
theorem safe_tracked {id : Nat} {r : Record} {t : Ty} (hv : Γ v) (hr : s.Stands c.source v id r)
    (ht : r.bound.actual = some t) : Safe c L Γ M s (tracked v r) fun s' d => s'.records = s.records ∧
      d.Has (May t.base) t.dims ∧ (d = .unknownOf t.dims ∨ s'.tracked[v]? = some (some d)) := by
  have unknown (d : Datum) (hd : d = .unknownOf t.dims) : d.Has (May t.base) t.dims := hd ▸ Datum.has_unknownOf _ _
  have fresh : Safe c L Γ M s (do let d := Datum.unknownOf t.dims; putTracked v d; return d)
      fun s' d => s'.records = s.records ∧ d.Has (May t.base) t.dims ∧
        (d = .unknownOf t.dims ∨ s'.tracked[v]? = some (some d)) := by
    refine Ends.modify_bind (Ends.pure ⟨⟨?_, ?_, rfl, rfl, rfl, rfl⟩, rfl, unknown _ rfl, .inl rfl⟩)
    · refine h.put h.out rfl rfl rfl (fun _ id' r' stands => ?_) fun _ _ _ _ _ same =>
        absurd same (Datum.unknownOf_ne_macroRef _ _ _)
      obtain ⟨-, rfl⟩ := hr.unique stands.lookup stands.record
      exact .inr ⟨t, ht, unknown _ rfl⟩
    · exact .put (.inl hv) rfl rfl rfl rfl rfl
  refine .get_bind ?_
  rw [ht]
  dsimp only
  split
  · rename_i none
    cases none
  · rename_i t' _ some
    cases some
    exact fresh
  · rename_i t' _ some
    cases some
    exact fresh
  · rename_i d found known
    rw [Array.getD_eq_getD_getElem?] at found
    have tracked : s.tracked[v]? = some (some d) := by
      cases hv : s.tracked[v]? with
      | none => simp [hv] at found
      | some e => simpa [hv] using found
    refine .pure h ⟨rfl, ?_, .inr tracked⟩
    rcases hr.agrees d tracked with rfl | ⟨t', ht', has⟩
    · exact (known t rfl rfl).elim
    · rw [ht] at ht'
      cases ht'
      exact has

/-- A part of the tracked value of a variable in sight is replaced. -/
theorem safe_trackAt {id : Nat} {r : Record} {t : Ty} {coord : List Int} {d : Datum} (hv : Γ v)
    (initial : (c.source.var v).initial = none) (hr : s.Stands c.source v id r) (ht : r.bound.actual = some t)
    (length : coord.length ≤ t.dims.length) (hc : InBounds coord (t.dims.take coord.length))
    (hd : d.Has (May t.base) (t.dims.drop coord.length)) :
    Safe c L Γ M s (trackAt v r coord d) fun s' _ => s'.records = s.records := by
  have noMacro {site : MacroSite} (some : (c.source.var v).initial = some (.macroRef site)) : False := by
    rw [initial] at some
    cases some
  refine (safe_tracked h hv hr ht).bind fun whole s₁ g₁ hwhole => ?_
  obtain ⟨records, has, -⟩ := hwhole
  have stands {id' : Nat} {r' : Record} (stands : s₁.Stands c.source v id' r') : r' = r := by
    have lookup := stands.lookup
    rw [g₁.table] at lookup
    have record := stands.record
    rw [records] at record
    exact (hr.unique lookup record).2
  split
  · rename_i empty
    obtain rfl := List.isEmpty_iff.1 empty
    refine (safe_track g₁.sees (.inl hv) (fun _ id' r' hr' => .inr ⟨t, ?_, hd⟩) fun _ _ _ _ some => (noMacro some).elim).mono
      fun _ _ _ same => same.trans records
    rw [stands hr']
    exact ht
  · obtain ⟨e, he⟩ := has.shaped.exists_set hc d
    refine .orBadShape he (Ends.modify_bind (Ends.modify ⟨⟨?_, ?_, rfl, rfl, rfl, rfl⟩, records⟩))
    · refine g₁.sees.put g₁.sees.out rfl rfl rfl (fun _ id' r' hr' => .inr ⟨t, ?_, has.set? length hd he⟩)
        fun _ _ _ _ some => (noMacro some).elim
      rw [stands hr']
      exact ht
    · refine .write (w := ⟨v, coord, d⟩) (.inl hv) rfl rfl (fun u hu => ?_) rfl rfl
        (.inr ⟨hv, fun id' r' whole hid hr' actual => ?_⟩)
      · dsimp only at hu
        split at hu
        · exact .inl hu
        · exact (List.mem_cons.1 hu).symm
      · rw [g₁.table] at hid
        rw [records] at hr'
        obtain ⟨-, rfl⟩ := hr.unique hid hr'
        rw [ht] at actual
        cases actual
        exact ⟨length, hd⟩

end Steps

/-! ## Values -/

section Values

/-- A value as an expression, which can be held. -/
theorem safe_asExpr {a : Value} (ha : a.Proper Γ s) : Ends .faultless c s (asExpr a) fun s' e =>
    s' = s ∧ e.LiteralsFit ∧ a.ty.isRuntime = true := by
  obtain ⟨content, ty, span⟩ := a
  cases content with
  | runtime e glimpse => exact .pure ⟨rfl, ha.content.2.1, ha.content.1⟩
  | known d =>
    unfold asExpr
    dsimp only
    split
    · rename_i k hk
      have typed := Datum.Has.toConstant? ha.positive ha.content hk
      exact .pure ⟨rfl, typed, typed.storable.runtime⟩
    · exact .refuse

theorem safe_crossStream {Q : State → α → Prop} (v : VarId) (span : Span) :
    Safe c L Γ M s (crossStream v span) Q :=
  .read_bind .refuse

/-- A variable in sight can be read. -/
theorem safe_readVar (h : s.Sees c.source L Γ) (hv : Γ v) (span : Span) :
    Safe c L Γ M s (readVar v span) fun s' a => s'.records = s.records ∧ a.Proper Γ s' ∧
      ∀ site context, a.content = .known (.macroRef site context) →
        s'.tracked[v]? = some (some (.macroRef site context)) := by
  obtain ⟨id, r, hr⟩ := h.stands v hv
  refine .still (safe_recordOf hr) fun x hx => ?_
  subst hx
  dsimp only
  split
  · exact .read_bind .refuse
  · rename_i ty hty
    have positive : ty.IsPositive := (hr.fine h).positive ty hty
    refine .get_bind ?_
    split
    · exact safe_crossStream v span
    · refine (safe_tracked h hv hr hty).bind fun d s₁ g₁ hd => ?_
      obtain ⟨records, has, same⟩ := hd
      split
      · rename_i known
        refine .pure g₁.sees ⟨records, ⟨positive, has.known known⟩, fun site context found => ?_⟩
        cases found
        rcases same with same | same
        · exact absurd same.symm (Datum.unknownOf_ne_macroRef _ _ _)
        · exact same
      · split
        · exact safe_crossStream v span
        · split
          · exact .read_bind .refuse
          · rename_i slot hslot
            obtain ⟨t, ht, runtime⟩ := (hr.fine h).slot (by rw [hslot]; rfl)
            rw [hty] at ht
            cases ht
            refine .get_bind (.pure g₁.sees ⟨records, ⟨positive, runtime, trivial, fun g hg => ?_⟩, nofun⟩)
            cases hg
            refine ⟨Nat.le_refl _, ?_, fun _ _ => ⟨id, r, ty, ?_, ?_, hty, rfl, rfl⟩⟩
            · rw [Glimpse.after_of_since rfl]
              exact has
            · rw [g₁.table]
              exact hr.lookup
            · rw [records]
              exact hr.record

/-- An index that was checked is an integer, and in range if it is known. -/
structure Checked (index : Value) (length : Int) : Prop where
  ty : index.ty = .int
  inRange : ∀ d, index.content = .known d → ∃ n, d = .int n ∧ 0 ≤ n ∧ n < length

theorem safe_checkIndex {index : Value} (hi : index.Proper Γ s) (length : Int) (whole : Span) :
    Ends .faultless c s (checkIndex index length whole) fun s' _ => s' = s ∧ Checked index length := by
  obtain ⟨content, ty, span⟩ := index
  refine .check fun hty => ?_
  obtain rfl : ty = .int := not_not.1 hty
  dsimp only
  split
  · exact .pure ⟨rfl, rfl, nofun⟩
  · refine .check fun low => ?_
    split
    · exact .refuse
    · refine .pure ⟨rfl, rfl, fun d hd => ?_⟩
      cases hd
      exact ⟨_, rfl, by omega, by omega⟩
  · rename_i d hne
    obtain ⟨n, rfl⟩ := Datum.IsA.int hi.content
    exact (hne n rfl).elim

theorem allFit_singleton {e : Expr} (h : e.LiteralsFit) : Expr.AllFit [e] := ⟨h, trivial⟩

theorem literalsFit_indexExpr {base index : Expr} {ty : Ty} {span : Span} (hb : base.LiteralsFit)
    (hi : index.LiteralsFit) : (indexExpr base index ty span).LiteralsFit := by
  unfold indexExpr
  split
  · exact ⟨hb.1, Expr.allFit_append.2 ⟨hb.2, allFit_singleton hi⟩⟩
  · exact ⟨hb, allFit_singleton hi⟩

theorem safe_runtimeElement (h : s.Sees c.source L Γ) {a index : Value} {base : Expr} {ty : Ty}
    {glimpse : Option Glimpse} (positive : ty.IsPositive) (runtime : ty.isRuntime = true) (hb : base.LiteralsFit)
    (hi : index.Proper Γ s) (live : ∀ g, glimpse = some g → Live Γ s g ty) :
    Safe c L Γ M s (runtimeElement a base index ty glimpse) fun s' x => x.Proper Γ s' ∧ x.ty = ty := by
  refine .still (safe_asExpr hi) fun e he => ?_
  exact .pure h ⟨⟨positive, runtime, literalsFit_indexExpr hb he.1, live⟩, rfl⟩

/-- The part of a right view of an array that an index in range selects. -/
theorem safe_glimpseAt {g : Glimpse} {n i : Int} {elem : Ty} (live : Live Γ s g (.array n elem)) (hi : 0 ≤ i)
    (hlt : i < n) : Ends .faultless c s (glimpseAt g i) fun s' part =>
      s' = s ∧ ∀ g', part = some g' → Live Γ s g' elem ∧ g'.seen.Has (May elem.base) elem.dims := by
  refine .get_bind ?_
  dsimp only
  rw [Glimpse.refresh_eq]
  split
  · obtain ⟨e, he⟩ := live.seen.shaped.exists_element hi hlt
    refine Ends.bind (Q := fun t x => t = s ∧ x = e) (.orBadShape (fun none => ?_) fun x hx => ?_) fun x t hx => ?_
    · rw [he] at none
      cases none
    · exact ⟨rfl, Option.some.inj (hx.symm.trans he)⟩
    · obtain ⟨rfl, rfl⟩ := hx
      refine .pure ⟨rfl, fun g' hg' => ?_⟩
      cases hg'
      refine ⟨⟨Nat.le_refl _, ?_, fun attached hv => ?_⟩, live.seen.element? he⟩
      · rw [Glimpse.after_of_since rfl]
        exact live.seen.element? he
      · rw [Glimpse.after_of_since rfl] at attached
        have var : (g.after t.log).var = g.var := Glimpse.var_foldl _ _
        have path : (g.after t.log).path = g.path := Glimpse.path_foldl _ _
        have hv : Γ g.var := var ▸ hv
        obtain ⟨id, r, whole, lookup, record, actual, base, part⟩ := live.follows attached hv
        refine ⟨id, r, whole, ?_, record, actual, base, ?_⟩
        · show List.lookup (g.after t.log).var _ = _
          rw [var]
          exact lookup
        · show whole.dims.drop ((g.after t.log).path ++ [i]).length = _
          rw [path, List.length_append, List.length_singleton, ← List.drop_drop, part]
          rfl
  · refine .pure ⟨rfl, fun g' hg' => ?_⟩
    cases hg'

/-- An element of an array at an index that was checked. -/
theorem safe_elementOf (h : s.Sees c.source L Γ) {a index : Value} {n : Int} {elem : Ty} {whole : Span}
    (ha : a.Proper Γ s) (hty : a.ty = .array n elem) (hi : index.Proper Γ s) (checked : Checked index n) :
    Safe c L Γ M s (elementOf a index elem whole) fun s' x => x.Proper Γ s' ∧ x.ty = elem := by
  obtain ⟨content, ty, span⟩ := a
  obtain rfl : ty = .array n elem := hty
  have positive : elem.IsPositive := (Ty.isPositive_array.1 ha.positive).2
  have known {d : Datum} (hd : d.Has (IsA elem.base) elem.dims) {span : Span} :
      Safe c L Γ M s (return Value.known d elem span) fun s' x => x.Proper Γ s' ∧ x.ty = elem :=
    .pure h ⟨⟨positive, hd⟩, rfl⟩
  unfold elementOf
  dsimp only
  split
  · rename_i d i hd
    obtain ⟨j, same, hlow, hlt⟩ := checked.inRange _ hd
    cases same
    have has : d.Has (IsA elem.base) (n :: elem.dims) := ha.content
    obtain ⟨e, he⟩ := has.shaped.exists_element hlow hlt
    exact .orBadShape he (known (has.element? he))
  · rename_i d
    split
    · exact .refuse
    · rename_i k hk
      have typed := Datum.Has.toConstant? ha.positive ha.content hk
      exact safe_runtimeElement h positive typed.storable.runtime typed hi nofun
  · rename_i base g i hd
    obtain ⟨runtime, fits, live⟩ := ha.content
    obtain ⟨j, same, hlow, hlt⟩ := checked.inRange _ hd
    cases same
    refine .still (safe_glimpseAt (live g rfl) hlow hlt) fun part hpart => ?_
    split
    · rename_i g'
      split
      · rename_i full
        exact known ((hpart g' rfl).2.known full)
      · exact safe_runtimeElement h positive runtime fits hi fun g' hg' => (hpart g' hg').1
    · exact safe_runtimeElement h positive runtime fits hi nofun
  · rename_i base glimpse _ _
    obtain ⟨runtime, fits, -⟩ := ha.content
    exact safe_runtimeElement h positive runtime fits hi nofun
  · rename_i d d' hne hd
    obtain ⟨j, same, -⟩ := checked.inRange _ hd
    exact (hne j same).elim

/-- What was computed in advance is a result, or a problem. -/
theorem safe_folded {span : Span} {result : Except FoldError Datum} {Q : Datum → Prop} (folds : Folds result Q) :
    Ends .faultless c s (folded span result) fun s' d => s' = s ∧ Q d := by
  unfold folded
  split
  · exact .pure ⟨rfl, folds⟩
  · exact .refuse
  · exact .refuse
  · exact folds.elim
  · exact folds.elim

theorem isRuntime_unaryTy {op : UnaryOp} {t : Ty} (h : t.isRuntime = true) : (unaryTy op t).isRuntime = true := by
  unfold unaryTy
  split
  · rw [← Ty.isRuntime_base, Ty.base_withBase]
    rfl
  · rw [← Ty.isRuntime_base, Ty.base_withBase]
    rfl
  · exact h

theorem isRuntime_binaryTy {op : BinaryOp} {t : Ty} (h : t.isRuntime = true) : (binaryTy op t).isRuntime = true := by
  unfold binaryTy
  split
  · rw [← Ty.isRuntime_base, Ty.base_withBase]
    rfl
  · exact h

theorem safe_unaryValue (h : s.Sees c.source L Γ) {op : UnaryOp} {a : Value} {span : Span} (ha : a.Proper Γ s) :
    Safe c L Γ M s (unaryValue op a span) fun s' x => x.Proper Γ s' := by
  obtain ⟨content, ty, aspan⟩ := a
  refine .check fun refused => ?_
  have takes : unaryAccepts op ty.base = true := by simpa using refused
  have positive : (unaryTy op ty).IsPositive := isPositive_unaryTy ha.positive
  cases content with
  | known d =>
    refine .still (safe_folded (Datum.folds_unary takes ha.content)) fun e he => .pure h ⟨positive, ?_⟩
    show e.Has (IsA (unaryTy op ty).base) (unaryTy op ty).dims
    rw [dims_unaryTy]
    exact he
  | runtime e glimpse =>
    obtain ⟨runtime, fits, -⟩ := ha.content
    exact .pure h ⟨positive, isRuntime_unaryTy runtime, fits, nofun⟩

theorem safe_rightType {op : BinaryOp} {a : Value} (ha : a.Proper Γ s) :
    Ends .faultless c s (rightType op a) fun s' b => s' = s ∧ b.IsPositive := by
  obtain ⟨content, ty, span⟩ := a
  refine .check fun hty => ?_
  obtain rfl : ty = .dataType := not_not.1 hty
  dsimp only
  split
  · exact .refuse
  · obtain ⟨b, same, positive⟩ := Datum.IsA.type ha.content
    cases same
    exact .pure ⟨rfl, positive⟩
  · rename_i d hne
    obtain ⟨b, rfl, -⟩ := Datum.IsA.type ha.content
    exact (hne b rfl).elim

theorem safe_isInValue (h : s.Sees c.source L Γ) {l r : Value} {span : Span} (hr : r.Proper Γ s) :
    Safe c L Γ M s (isInValue l r span) fun s' x => x.Proper Γ s' :=
  .still (safe_rightType hr) fun _ _ => .pure h (Value.proper_prim (Datum.isA_bool _))

theorem safe_asTypeValue (h : s.Sees c.source L Γ) {l r : Value} {span : Span} (hl : l.Proper Γ s)
    (hr : r.Proper Γ s) : Safe c L Γ M s (asTypeValue l r span) fun s' x => x.Proper Γ s' := by
  obtain ⟨content, ty, lspan⟩ := l
  refine .still (safe_rightType hr) fun b hb => ?_
  split
  · rename_i target
    refine .check fun promotes => ?_
    have common := Ty.isCommon_of_promotesTo (by simpa using promotes : ty.promotesTo target = true)
    have positive : target.IsPositive := hb target rfl
    cases content with
    | known d =>
      have has : d.Has (IsA ty.base) ty.dims := hl.content
      rw [← common.left] at has
      obtain ⟨e, he, has⟩ := has.stretch? common.leftStretches
      exact .orBadShape he (.pure h ⟨positive, has⟩)
    | runtime e glimpse =>
      dsimp only
      split
      · exact .pure h hl
      · obtain ⟨runtime, fits, -⟩ := hl.content
        have runtime : target.isRuntime = true := by rw [← Ty.isRuntime_base, common.left, Ty.isRuntime_base, runtime]
        refine (safe_newSlot h runtime).bind fun slot s₁ g₁ _ => ?_
        have fits : Expr.AllFit (Stmt.assign ⟨slot, [], target, span⟩ e span).exprs := allFit_singleton fits
        refine (safe_emit g₁.sees fits).bind fun _ s₂ g₂ _ => ?_
        exact .pure g₂.sees ⟨positive, runtime, trivial, nofun⟩
  · exact .refuse

theorem safe_binaryValue (h : s.Sees c.source L Γ) {op : BinaryOp} {l r : Value} {span : Span} (hl : l.Proper Γ s)
    (hr : r.Proper Γ s) : Safe c L Γ M s (binaryValue op l r span) fun s' x => x.Proper Γ s' := by
  unfold binaryValue
  split
  · exact .refuse
  · rename_i common biggest
    have common' := Ty.isCommon_of_biggest? biggest
    refine .check fun refused => ?_
    have takes : binaryAccepts op common.base = true := by simpa using refused
    have positive : (binaryTy op common).IsPositive := isPositive_binaryTy (common'.positive hl.positive hr.positive)
    dsimp only
    split
    · rename_i a b ha hb
      refine .still (safe_folded (Datum.folds_binary common' takes (hl.known ha) (hr.known hb))) fun e he => ?_
      exact .pure h ⟨positive, he⟩
    · refine .still (safe_asExpr hl) fun left hleft => .still (safe_asExpr hr) fun right hright => ?_
      have runtime : common.isRuntime = true := by
        rw [← Ty.isRuntime_base, common'.left, Ty.isRuntime_base, hleft.2]
      exact .pure h ⟨positive, isRuntime_binaryTy runtime, ⟨hleft.1, hright.1⟩, nofun⟩

theorem safe_typeOf {kind : Problem.Kind} {a : Value} (ha : a.Proper Γ s) :
    Ends .faultless c s (typeOf kind a) fun s' b => s' = s ∧ b.IsPositive ∧ a.content = .known (.type b) := by
  obtain ⟨content, ty, span⟩ := a
  refine .check fun hty => ?_
  obtain rfl : ty = .dataType := not_not.1 hty
  dsimp only
  split
  · exact .refuse
  · obtain ⟨b, same, positive⟩ := Datum.IsA.type ha.content
    cases same
    exact .pure ⟨rfl, positive, rfl⟩
  · rename_i d hne
    obtain ⟨b, rfl, -⟩ := Datum.IsA.type ha.content
    exact (hne b rfl).elim

theorem safe_concreteTypeOf {span : Span} {a : Value} (ha : a.Proper Γ s) :
    Ends .faultless c s (concreteTypeOf span a) fun s' _ => s' = s ∧ True := by
  refine (safe_typeOf ha).bind fun b s₁ hb => ?_
  obtain ⟨rfl, -⟩ := hb
  split
  · exact .pure ⟨rfl, trivial⟩
  · exact .refuse

theorem safe_boundValue (h : s.Sees c.source L Γ) (lower upper : Option Ty) (span : Span) :
    Safe c L Γ M s (boundValue lower upper span) fun s' x => x.Proper Γ s' := by
  have bound : (Value.known (.type ⟨none, lower, upper⟩) .dataType span).Proper Γ s :=
    Value.proper_prim (Datum.isA_type fun t ht => by cases ht)
  unfold boundValue
  dsimp only
  split
  · exact .check fun _ => .pure h bound
  · exact .pure h bound

theorem safe_lengthOf (a : Value) : Ends .faultless c s (lengthOf a) fun s' n => s' = s ∧ 0 < n := by
  unfold lengthOf
  split
  · exact .refuse
  · split
    · exact .refuse
    · exact .pure ⟨rfl, by omega⟩
  · exact .refuse

/-- The lengths of a value, as a value. -/
theorem safe_lengths (h : s.Sees c.source L Γ) (dims : List Int) (span : Span) : Safe c L Γ M s (match dims with
    | [] => return .known (.int 1) .int span
    | dims => return .known (.array (dims.map .int)) (.array dims.length .int) span)
    fun s' x => Value.Proper Γ s' x := by
  cases dims with
  | nil => exact .pure h (Value.proper_prim (Datum.isA_int 1))
  | cons n ns =>
    refine .pure h ⟨Ty.isPositive_array.2 ⟨by simp, Ty.isPositive_prim _⟩, _, rfl, by simp, fun e he => ?_⟩
    obtain ⟨k, -, rfl⟩ := List.mem_map.1 he
    exact Datum.isA_int k

theorem safe_propertyValue (h : s.Sees c.source L Γ) {a : Value} {property : Scoped.Property} {span : Span}
    (ha : a.Proper Γ s) : Safe c L Γ M s (propertyValue a property span) fun s' x => x.Proper Γ s' := by
  have lengths (ty : Ty) := safe_lengths (M := M) h ty.dims span
  unfold propertyValue
  dsimp only
  split
  · exact .pure h (Value.proper_prim (Datum.isA_type (Bound.isPositive_exactly ha.positive)))
  · split
    · split
      · exact lengths _
      · exact .refuse_bind
    · exact lengths _

theorem safe_asExprs {vs : List Value} (hvs : ∀ a ∈ vs, a.Proper Γ s) :
    Ends .faultless c s (vs.mapM asExpr) fun s' es => s' = s ∧ Expr.AllFit es ∧ ∀ a ∈ vs, a.ty.isRuntime = true := by
  induction vs with
  | nil => exact .pure ⟨rfl, trivial, fun _ mem => (List.not_mem_nil mem).elim⟩
  | cons a vs ih =>
    rw [List.mapM_cons]
    refine (safe_asExpr (hvs a List.mem_cons_self)).bind fun e s₁ he => ?_
    obtain ⟨rfl, fits, runtime⟩ := he
    refine (ih fun x hx => hvs x (List.mem_cons_of_mem _ hx)).bind fun es s₂ hes => ?_
    obtain ⟨rfl, rest, all⟩ := hes
    refine .pure ⟨rfl, ⟨fits, rest⟩, fun x hx => ?_⟩
    rcases List.mem_cons.1 hx with rfl | hx
    · exact runtime
    · exact all x hx

theorem safe_collected (h : s.Sees c.source L Γ) {a : Value} {vs : List Value} {span : Span}
    (hvs : ∀ x ∈ a :: vs, x.Proper Γ s ∧ x.ty = a.ty) :
    Safe c L Γ M s (collected (a :: vs) a.ty span) fun s' x => x.Proper Γ s' := by
  have positive : (Ty.array (a :: vs).length a.ty).IsPositive :=
    Ty.isPositive_array.2 ⟨by simp, (hvs a List.mem_cons_self).1.positive⟩
  unfold collected
  dsimp only
  split
  · rename_i data hdata
    have all : data.length = (a :: vs).length ∧ ∀ d ∈ data, d.Has (IsA a.ty.base) a.ty.dims := by
      generalize a :: vs = all at hdata hvs
      induction all generalizing data with
      | nil =>
        cases hdata
        exact ⟨rfl, nofun⟩
      | cons x xs ih =>
        rw [List.mapM_cons] at hdata
        obtain ⟨d, hd, hdata⟩ := Option.bind_eq_some_iff.1 hdata
        obtain ⟨ds, hds, hdata⟩ := Option.bind_eq_some_iff.1 hdata
        cases hdata
        obtain ⟨len, rest⟩ := ih ds hds fun y hy => hvs y (List.mem_cons_of_mem _ hy)
        refine ⟨congrArg (· + 1) len, fun e he => ?_⟩
        rcases List.mem_cons.1 he with rfl | he
        · obtain ⟨proper, hty⟩ := hvs x List.mem_cons_self
          rw [← hty]
          obtain ⟨content, ty, xspan⟩ := x
          cases content with
          | known d =>
            cases hd
            exact proper.content
          | runtime e g => cases hd
        · exact rest e he
    exact .pure h ⟨positive, data, rfl, by simp [all.1], all.2⟩
  · refine .still (safe_asExprs fun x hx => (hvs x hx).1) fun es hes => .pure h ⟨positive, ?_, hes.1, nofun⟩
    exact hes.2 a List.mem_cons_self

/-! ## Places -/

theorem allFit_ofIndex (ks : List Int) (span : Span) : Expr.AllFit (ks.map fun k => Expr.ofIndex k span) := by
  induction ks with
  | nil => trivial
  | cons k ks ih => exact ⟨rfl, ih⟩

/-- A place with one more index, which was checked. -/
theorem safe_addIndex {q : Place} {slot : Option SlotId} {index : Value} {n : Int} {elem : Ty}
    (hq : q.Proper c.source Γ s) (hty : q.ty = some (.array n elem)) (hi : index.Proper Γ s)
    (checked : Checked index n) : Ends .faultless c s (addIndex q slot index elem) fun s' q' =>
      s' = s ∧ q'.Proper c.source Γ s := by
  obtain ⟨r, hr, -, settled⟩ := hq.stands
  obtain ⟨whole, actual, aims⟩ := settled _ hty
  have longer {q' : Place} (var : q'.var = q.var) (record : q'.record = q.record) (hty' : q'.ty = some elem)
      (aims' : q'.Aims whole elem) (fits : Expr.AllFit q'.indexes) : q'.Proper c.source Γ s := by
    refine ⟨var ▸ hq.sight, var ▸ hq.initial, ⟨r, by rw [var, record]; exact hr, fun none => ?_, fun ty some => ?_⟩, fits⟩
    · rw [hty'] at none
      cases none
    · rw [hty'] at some
      cases some
      exact ⟨whole, actual, aims'⟩
  unfold addIndex
  split
  · rename_i k hk dynamic
    obtain ⟨k', same, hlow, hlt⟩ := checked.inRange _ hk
    cases same
    have part : whole.dims.drop q.fixed.length = n :: elem.dims := aims.part dynamic
    have split : whole.dims.take (q.fixed.length + 1) = whole.dims.take q.fixed.length ++ [n] := by
      rw [List.take_add, part]
      rfl
    have length : q.fixed.length + 1 ≤ whole.dims.length := by
      have := congrArg List.length part
      rw [List.length_drop, List.length_cons] at this
      omega
    refine .pure ⟨rfl, longer rfl rfl rfl ⟨aims.base, by simpa using length, ?_, fun _ => ?_⟩ ?_⟩
    · rw [List.length_append, List.length_singleton, split]
      exact aims.inBounds.append ⟨⟨hlow, hlt⟩, trivial⟩
    · rw [List.length_append, List.length_singleton, ← List.drop_drop, part]
      rfl
    · rw [Place.indexes, dynamic]
      exact allFit_ofIndex _ _
  · rename_i indexes _ dynamic
    have fits := hq.fits
    rw [Place.indexes, dynamic] at fits
    refine (safe_asExpr hi).bind fun e s₁ he => ?_
    obtain ⟨rfl, he, -⟩ := he
    refine .pure ⟨rfl, longer rfl rfl rfl ⟨aims.base, aims.length, aims.inBounds, fun none => ?_⟩ ?_⟩
    · cases none
    · exact Expr.allFit_append.2 ⟨fits, allFit_singleton he⟩
  · rename_i dynamic _
    split
    · exact .read_bind .refuse_bind
    · refine (safe_asExpr hi).bind fun e s₁ he => ?_
      obtain ⟨rfl, he, -⟩ := he
      refine .pure ⟨rfl, longer rfl rfl rfl ⟨aims.base, aims.length, aims.inBounds, fun none => ?_⟩ ?_⟩
      · cases none
      · exact Expr.allFit_append.2 ⟨allFit_ofIndex _ _, allFit_singleton he⟩

/-- The type of an open variable is settled by the value it is given. -/
theorem safe_settle (h : s.Sees c.source L Γ) {q : Place} {a : Value} (hq : q.Proper c.source Γ s) (hty : q.ty = none)
    (ha : a.Proper Γ s) : Safe c L Γ M s (settle q a) fun s' _ =>
      ∃ r, s'.Stands c.source q.var q.record r ∧ r.bound.actual = some a.ty := by
  obtain ⟨r, hr, unsettled, -⟩ := hq.stands
  obtain ⟨opened, -⟩ := unsettled hty
  refine .still (safe_record hr.record) fun r' same => .read_bind ?_
  subst same
  -- The record of an open variable has no slot.
  have noSlot : r'.slot = none := by
    cases slot : r'.slot with
    | none => rfl
    | some k =>
      obtain ⟨t, ht, -⟩ := (hr.fine h).slot (by rw [slot]; rfl)
      rw [opened] at ht
      cases ht
  let settled (slot : Option SlotId) : Record :=
    { r' with bound := { r'.bound with actual := some a.ty }, slot := slot }
  have store (slot : Option SlotId) (runtime : slot.isSome → a.ty.isRuntime = true) {s₁ : State}
      (g₁ : Goes c.source L Γ M s s₁) (records : s₁.records = s.records) :
      Safe c L Γ M s₁ (modify fun s => { s with records := s.records.setIfInBounds q.record (settled slot) }) fun s' _ =>
        ∃ r, s'.Stands c.source q.var q.record r ∧ r.bound.actual = some a.ty := by
    have lookup : s₁.table.lookup q.var = some q.record := by
      rw [g₁.table]
      exact hr.lookup
    have record : s₁.records[q.record]? = some r' := by
      rw [records]
      exact hr.record
    have fine : (settled slot).Fine := by
      refine ⟨fun t ht => ?_, fun some => ⟨a.ty, rfl, runtime some⟩⟩
      cases ht
      exact ha.positive
    let s₂ : State := { s₁ with records := s₁.records.setIfInBounds q.record (settled slot) }
    have sees : s₂.Sees c.source L Γ :=
      g₁.sees.settle hq.sight lookup record opened fine hq.initial g₁.sees.out rfl rfl rfl
    refine .modify ⟨sees, .settle hq.sight lookup record opened rfl rfl rfl rfl rfl, rfl, rfl, rfl, rfl⟩ ?_
    obtain ⟨id, r₂, stands⟩ := sees.stands q.var hq.sight
    have found : s₂.records[q.record]? = some (settled slot) := by
      show (s₁.records.setIfInBounds _ _)[q.record]? = _
      rw [Array.getElem?_setIfInBounds, if_pos rfl, if_pos (Array.getElem?_eq_some_iff.1 record).1]
    obtain ⟨rfl, rfl⟩ := stands.unique lookup found
    exact ⟨_, stands, rfl⟩
  dsimp only
  split
  · exact .refuse
  · exact .refuse
  · split
    · rename_i runtime
      refine Safe.bind (Q := fun s₁ _ => s₁.records = s.records)
        (Ends.map ((safe_newSlot h runtime).mono fun _ _ _ h₁ => h₁.1)) fun slot s₁ g₁ records => ?_
      exact store slot (fun _ => runtime) g₁ records
    · refine store r'.slot (fun some => ?_) (.refl h) rfl
      rw [noSlot] at some
      cases some

/-- A known value is tracked at a place, stretched to its type. -/
theorem safe_trackKnown (h : s.Sees c.source L Γ) {q : Place} {r : Record} {whole ty valueTy : Ty} {d : Datum}
    (hv : Γ q.var) (initial : (c.source.var q.var).initial = none) (hr : s.Stands c.source q.var q.record r)
    (actual : r.bound.actual = some whole) (aims : q.Aims whole ty) (dynamic : q.dynamic = none)
    (promotes : valueTy.promotesTo ty = true) (hd : d.Has (IsA valueTy.base) valueTy.dims) :
    Safe c L Γ M s (trackKnown q r ty d valueTy) fun _ _ => True := by
  have common := Ty.isCommon_of_promotesTo promotes
  have part := aims.part dynamic
  have may {e : Datum} {dims : List Int} (he : e.Has (IsA valueTy.base) dims) : e.Has (May whole.base) dims := by
    rw [aims.base, common.left]
    exact he.mono fun _ => .inr
  unfold trackKnown
  split
  · rename_i same
    subst same
    refine (safe_trackAt h hv initial hr actual aims.length aims.inBounds ?_).mono fun _ _ _ _ => trivial
    rw [part]
    exact may hd
  · refine .forM h fun coord hcoord s₁ g₁ => ?_
    have inside : InBounds coord ty.dims := mem_coordinates.1 hcoord
    have read := inside.broadcast common.leftStretches
    obtain ⟨e, he⟩ := hd.shaped.exists_item read
    have leaf := hd.item? (Nat.le_of_eq read.length_eq) he
    rw [read.length_eq, List.drop_length] at leaf
    have length : (q.fixed ++ coord).length = whole.dims.length := by
      have := congrArg List.length part
      rw [List.length_drop] at this
      have := aims.length
      have := inside.length_eq
      rw [List.length_append]
      omega
    refine .orBadShape he ((safe_trackAt g₁.sees hv initial (g₁.stands hv hr (by rw [actual]; rfl)) actual ?_ ?_ ?_).mono
      fun _ _ _ _ => trivial)
    · exact Nat.le_of_eq length
    · rw [length, List.take_length, ← List.take_append_drop q.fixed.length whole.dims, part]
      exact aims.inBounds.append inside
    · rw [length, List.drop_length]
      exact may leaf

/-- The assignment that a slot takes at run time. -/
theorem safe_store (h : s.Sees c.source L Γ) {q : Place} {a : Value} (slot : Option SlotId) (span : Span) (ty : Ty)
    (fits : Expr.AllFit q.indexes) (ha : a.Proper Γ s) : Safe c L Γ M s (match slot with
      | none => return
      | some slot => do
        let value ← asExpr a
        emit (.assign ⟨slot, q.indexes, ty, q.span⟩ value span)) fun _ _ => True := by
  split
  · exact .pure h trivial
  · rename_i slot
    refine .still (safe_asExpr ha) fun e he => ?_
    have fits : Expr.AllFit (Stmt.assign ⟨slot, q.indexes, ty, q.span⟩ e span).exprs :=
      Expr.allFit_append.2 ⟨fits, allFit_singleton he.1⟩
    exact (safe_emit h fits).mono fun _ _ _ _ => trivial

/-- An assignment to a place whose type is settled. -/
theorem safe_assignAs (h : s.Sees c.source L Γ) {q : Place} {a : Value} {span : Span} {r : Record} {whole ty : Ty}
    (hv : Γ q.var) (initial : (c.source.var q.var).initial = none) (hr : s.Stands c.source q.var q.record r)
    (actual : r.bound.actual = some whole) (aims : q.Aims whole ty) (promotes : a.ty.promotesTo ty = true)
    (fits : Expr.AllFit q.indexes) (ha : a.Proper Γ s) : Safe c L Γ M s (assignAs q a span ty) fun _ _ => True := by
  refine .still (safe_record hr.record) fun r' same => ?_
  subst same
  have store {s₁ : State} (g₁ : Goes c.source L Γ M s s₁) :=
    safe_store (M := M) g₁.sees r'.slot span ty fits (ha.goes g₁)
  dsimp only
  split
  · rename_i d hd dynamic
    refine (safe_trackKnown h hv initial hr actual aims dynamic promotes (ha.known hd)).bind fun _ s₁ g₁ _ => ?_
    exact store g₁
  · split
    · exact .read_bind .refuse_bind
    · rw [actual]
      refine (safe_trackAt h hv initial hr actual aims.length aims.inBounds ?_).bind fun _ s₁ g₁ _ => store g₁
      exact Datum.has_unknownOf _ _

/-- An assignment of a value to a place. -/
theorem safe_assign (h : s.Sees c.source L Γ) {q : Place} {a : Value} {span : Span} (hq : q.Proper c.source Γ s)
    (ha : a.Proper Γ s) : Safe c L Γ M s (assign q a span) fun _ _ => True := by
  rw [assign_eq]
  obtain ⟨r, hr, unsettled, settled⟩ := hq.stands
  cases hty : q.ty with
  | none =>
    obtain ⟨-, fixed, dynamic⟩ := unsettled hty
    refine (safe_settle h hq hty ha).bind fun _ s₁ g₁ hr₁ => ?_
    obtain ⟨r₁, hr₁, actual⟩ := hr₁
    have aims : q.Aims a.ty a.ty := by
      refine ⟨rfl, ?_, ?_, fun _ => ?_⟩
      · rw [fixed]
        exact Nat.zero_le _
      · rw [fixed]
        trivial
      · rw [fixed]
        rfl
    exact safe_assignAs g₁.sees hq.sight hq.initial hr₁ actual aims (Ty.promotesTo_refl _) hq.fits (ha.goes g₁)
  | some ty =>
    refine .check fun refused => ?_
    obtain ⟨whole, actual, aims⟩ := settled ty hty
    exact safe_assignAs h hq.sight hq.initial hr actual aims (by simpa using refused) hq.fits ha

end Values

end Stage

end SignalLang.Staged
