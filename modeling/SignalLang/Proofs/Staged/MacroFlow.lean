import SignalLang.Proofs.Scoped.Flow
import SignalLang.Proofs.Staged.Outcomes
import SignalLang.Proofs.Staged.Preservation

/-!
# Macros only flow where the program lets them

While a program is staged, every macro in the tracked value of a variable is one the variable may hold, and every
macro in a value is one its expression may give (`State.Flows`, `Value.Flows`). So a call enters only scopes that
its own scope leads to, and a step stops for its depth only if entering such a scope does (`Enters`).
-/

namespace SignalLang.Staged

open Scoped (VarId)

/-- What is tracked, now or in the log, has only macros that its variable may hold. -/
structure State.Flows (p : Scoped.Program) (s : State) : Prop where
  tracked : ∀ (v : VarId) (d : Datum), s.tracked[v]? = some (some d) → d.Refers (p.Holds v)
  log : ∀ w ∈ s.log, w.value.Refers (p.Holds w.var)

/-- Nothing is tracked at the start. -/
theorem State.flows_start (p : Scoped.Program) (n : Nat) : State.Flows p { tracked := Array.replicate n none } := by
  refine ⟨fun v d hd => ?_, fun w hw => ?_⟩
  · rw [Array.getElem?_replicate] at hd
    split at hd <;> cases hd
  · simp at hw

/-- A value has only macros among `S`, and so has everything its view can come to show. -/
def Value.Flows (p : Scoped.Program) (S : Nat → Prop) (v : Value) : Prop :=
  match v.content with
  | .known d => d.Refers S
  | .runtime _ glimpse => ∀ g, glimpse = some g → g.seen.Refers S ∧ ∀ b, p.Holds g.var b → S b

theorem Value.Flows.mono {p : Scoped.Program} {S T : Nat → Prop} {v : Value} (h : v.Flows p S)
    (hST : ∀ b, S b → T b) : v.Flows p T := by
  obtain ⟨content, ty, span⟩ := v
  cases content with
  | known d => exact Datum.Refers.mono h hST
  | runtime e glimpse => exact fun g hg => ⟨(h g hg).1.mono hST, fun b hb => hST b ((h g hg).2 b hb)⟩

theorem Value.flows_of_known {p : Scoped.Program} {S : Nat → Prop} {v : Value} (h : v.Flows p S) {d : Datum}
    (hd : v.content = .known d) : d.Refers S := by
  unfold Value.Flows at h
  rw [hd] at h
  exact h

theorem Glimpse.refers_refresh {p : Scoped.Program} {S : Nat → Prop} {g : Glimpse} {log : Array Write}
    (hseen : g.seen.Refers S) (hvar : ∀ b, p.Holds g.var b → S b)
    (hlog : ∀ w ∈ log, w.value.Refers (p.Holds w.var)) :
    (g.refresh log).seen.Refers S ∧ (g.refresh log).var = g.var :=
  ⟨(Datum.leafwise_refers S).refresh hseen fun w hw same => (hlog w hw).mono fun b hb => hvar b (same ▸ hb),
    g.var_refresh log⟩

/-- A step may stop with any fault, and for its depth if `deep` says so. -/
def Stops.faulty (deep : Prop) : Stops := ⟨fun _ => True, deep⟩

/-- A step may stop with any fault, but not for its depth. -/
abbrev Stops.finite : Stops := .faulty False

namespace Stage

variable {α : Type} {c : Context} {s : State} {S : Nat → Prop} {deep : Prop}

theorem refers_unknownFor (b : Bound) : (unknownFor b).Refers S := by
  unfold unknownFor
  cases b.actual with
  | none => exact nofun
  | some t => exact Datum.refers_unknownOf _

/-! ## Steps of the state -/

section Steps

variable (h : s.Flows c.source)

include h

theorem flows_emit {st : Stmt} : Ends (.faulty deep) c s (emit st) fun s' _ => s'.Flows c.source := by
  refine .modify ?_
  cases s.current with
  | none => exact h
  | some scope => exact ⟨h.tracked, h.log⟩

theorem flows_newScope : Ends (.faulty deep) c s newScope fun s' _ => s'.Flows c.source :=
  .get_bind (.modify_bind (.pure ⟨h.tracked, h.log⟩))

theorem flows_newSlot {ty : Ty} {definition : Span} :
    Ends (.faulty deep) c s (newSlot ty definition) fun s' _ => s'.Flows c.source :=
  .get_bind (.modify_bind (.pure ⟨h.tracked, h.log⟩))

omit h in
theorem flows_recordOf (v : VarId) : Ends (.faulty deep) c s (recordOf v) fun s' _ => s' = s := by
  refine .recordId_bind ?_
  split
  · exact .get_bind (.pure rfl)
  · exact .read_bind (.breakDown trivial)

theorem flows_putTracked {v : VarId} {d : Datum} (hd : d.Refers (c.source.Holds v)) :
    Ends (.faulty deep) c s (putTracked v d) fun s' _ => s'.Flows c.source := by
  refine .modify ⟨fun w e he => ?_, h.log⟩
  rw [Array.getElem?_setIfInBounds] at he
  split at he
  · rename_i same
    split at he
    · cases he
      exact same ▸ hd
    · cases he
  · exact h.tracked w e he

theorem flows_logged {w : Write} (hw : w.value.Refers (c.source.Holds w.var)) {s' : State}
    (ht : s'.tracked = s.tracked) (hl : s'.log = s.log.push w) : s'.Flows c.source := by
  refine ⟨ht ▸ h.tracked, fun x hx => ?_⟩
  rw [hl] at hx
  rcases Array.mem_push.1 hx with hx | rfl
  · exact h.log x hx
  · exact hw

theorem flows_track {v : VarId} {d : Datum} (hd : d.Refers (c.source.Holds v)) :
    Ends (.faulty deep) c s (track v d) fun s' _ => s'.Flows c.source :=
  (flows_putTracked h hd).bind fun _ _ h' => .modify (flows_logged h' (w := ⟨v, [], d⟩) hd rfl rfl)

theorem flows_tracked (v : VarId) (r : Record) : Ends (.faulty deep) c s (tracked v r) fun s' d =>
    s'.Flows c.source ∧ d.Refers (c.source.Holds v) := by
  refine .get_bind ?_
  have fresh (t : Ty) : Ends (.faulty deep) c s (do let d := Datum.unknownOf t.dims; putTracked v d; return d)
      fun s' d => s'.Flows c.source ∧ d.Refers (c.source.Holds v) :=
    (flows_putTracked h (Datum.refers_unknownOf _)).bind fun _ _ h' =>
      .pure ⟨h', Datum.refers_unknownOf _⟩
  dsimp only
  split
  · exact .pure ⟨h, nofun⟩
  · exact fresh _
  · exact fresh _
  · rename_i d found _
    refine .pure ⟨h, h.tracked v d ?_⟩
    rw [Array.getD_eq_getD_getElem?] at found
    cases hv : s.tracked[v]? with
    | none => simp [hv] at found
    | some e => simpa [hv] using found

theorem flows_trackAt {v : VarId} {r : Record} {coord : List Int} {d : Datum}
    (hd : d.Refers (c.source.Holds v)) :
    Ends (.faulty deep) c s (trackAt v r coord d) fun s' _ => s'.Flows c.source := by
  refine (flows_tracked h v r).bind fun whole s₁ h₁ => ?_
  split
  · exact flows_track h₁.1 hd
  · refine (Ends.orBadShape (Q := fun t e => t.Flows c.source ∧ e.Refers (c.source.Holds v))
      (fun _ => trivial) fun e he => ⟨h₁.1, h₁.2.set? hd he⟩).bind fun e s₂ h₂ => ?_
    refine (flows_putTracked h₂.1 h₂.2).bind fun _ s₃ h₃ => ?_
    exact .modify (flows_logged h₃ (w := ⟨v, coord, d⟩) hd rfl rfl)

theorem flows_create {v : VarId} {r : Record} :
    Ends (.faulty deep) c s (create v r) fun s' _ => s'.Flows c.source := by
  refine .modify_bind (flows_track ?_ (refers_unknownFor _))
  exact ⟨h.tracked, h.log⟩

theorem flows_forget (written : List VarId) :
    Ends (.faulty deep) c s (forget written) fun s' _ => s'.Flows c.source := by
  refine .forM h fun v _ t ht => .recordId_bind ?_
  split
  · exact .pure ht
  · refine .get_bind ?_
    split
    · refine (flows_putTracked ht (refers_unknownFor _)).bind fun _ s₁ h₁ => ?_
      exact .modify (flows_logged h₁ (w := ⟨v, [], _⟩) (refers_unknownFor _) rfl rfl)
    · exact .pure ht

theorem flows_withTable {table : Table} {act : Stage α} {Q : State → α → Prop}
    (hact : ∀ s', State.Flows c.source s' → Ends (.faulty deep) c s' act fun s'' a => s''.Flows c.source ∧ Q s'' a)
    (hq : ∀ s' a, Q s' a → Q { s' with table := s.table, tables := s'.tables.tail } a) :
    Ends (.faulty deep) c s (withTable table act) fun s' a => s'.Flows c.source ∧ Q s' a := by
  refine .get_bind (.modify_bind ((hact _ ?_).bind fun a s₁ h₁ => .modify_bind (.pure ?_)))
  · exact ⟨h.tracked, h.log⟩
  · exact ⟨⟨h₁.1.tracked, h₁.1.log⟩, hq _ _ h₁.2⟩

theorem flows_inBranch {act : Stage Unit}
    (hact : ∀ s', State.Flows c.source s' → Ends (.faulty deep) c s' act fun s'' _ => s''.Flows c.source) :
    Ends (.faulty deep) c s (inBranch act) fun s' _ => s'.Flows c.source := by
  refine .get_bind (.modify_bind ((hact _ ?_).bind fun _ s₁ h₁ => .get_bind ?_))
  · exact ⟨h.tracked, h.log⟩
  · exact (flows_forget h₁ _).bind fun _ s₂ h₂ => .modify ⟨h₂.tracked, h₂.log⟩

end Steps

/-! ## Values -/

/-- A known value without macros. -/
theorem flows_plain {p : Scoped.Program} {d : Datum} {ty : Ty} {span : Span} (h : d.macros = []) :
    (Value.known d ty span).Flows p S := by
  intro b hb
  rw [h] at hb
  cases hb

section Values

variable (h : s.Flows c.source)

theorem flows_asExpr (v : Value) : Ends (.faulty deep) c s (asExpr v) fun s' _ => s' = s := by
  unfold asExpr
  split
  · exact .pure rfl
  · split
    · exact .pure rfl
    · exact .refuse

theorem flows_crossStream {Q : State → α → Prop} (v : VarId) (span : Span) :
    Ends (.faulty deep) c s (crossStream v span) Q :=
  .read_bind .refuse

include h in
theorem flows_readVar (v : VarId) (span : Span) : Ends (.faulty deep) c s (readVar v span) fun s' a =>
    s'.Flows c.source ∧ a.Flows c.source (c.source.Holds v) := by
  refine (flows_recordOf v).bind fun r s₁ same => ?_
  subst same
  dsimp only
  split
  · exact .read_bind .refuse
  · refine .get_bind ?_
    split
    · exact flows_crossStream v span
    · refine (flows_tracked h v _).bind fun d s₂ h₂ => ?_
      split
      · exact .pure h₂
      · split
        · exact flows_crossStream v span
        · split
          · exact .read_bind .refuse
          · refine .get_bind (.pure ⟨h₂.1, fun g hg => ?_⟩)
            cases hg
            exact ⟨h₂.2, fun b hb => hb⟩

theorem flows_checkIndex (index : Value) (length : Int) (whole : Span) :
    Ends (.faulty deep) c s (checkIndex index length whole) fun s' _ => s' = s := by
  refine .check fun _ => ?_
  dsimp only
  split
  · exact .pure rfl
  · refine .check fun _ => ?_
    split
    · exact .refuse
    · exact .pure rfl
  · exact .breakDown trivial

theorem flows_runtimeElement {v index : Value} {base : Expr} {ty : Ty} {glimpse : Option Glimpse}
    (hg : ∀ g, glimpse = some g → g.seen.Refers S ∧ ∀ b, c.source.Holds g.var b → S b) :
    Ends (.faulty deep) c s (runtimeElement v base index ty glimpse) fun s' a => s' = s ∧ a.Flows c.source S :=
  (flows_asExpr index).bind fun _ _ same => .pure ⟨same, hg⟩

include h in
theorem flows_elementOf {v index : Value} {ty : Ty} {whole : Span} (hv : v.Flows c.source S) :
    Ends (.faulty deep) c s (elementOf v index ty whole) fun s' a => s'.Flows c.source ∧ a.Flows c.source S := by
  obtain ⟨content, vty, span⟩ := v
  have atRuntime {w : Value} {base : Expr} {glimpse : Option Glimpse}
      (hg : ∀ g, glimpse = some g → g.seen.Refers S ∧ ∀ b, c.source.Holds g.var b → S b) :
      Ends (.faulty deep) c s (runtimeElement w base index ty glimpse) fun s' a =>
        s'.Flows c.source ∧ a.Flows c.source S :=
    (flows_runtimeElement hg).mono fun _ _ ha => ⟨ha.1 ▸ h, ha.2⟩
  unfold elementOf
  dsimp only
  split
  · refine (Ends.orBadShape (Q := fun t e => t = s ∧ e.Refers S) (fun _ => trivial) fun e he =>
      ⟨rfl, Datum.Refers.element? hv he⟩).bind fun e s₁ h₁ => .pure ⟨h₁.1 ▸ h, h₁.2⟩
  · split
    · exact .refuse
    · exact atRuntime nofun
  · rename_i base g i _
    obtain ⟨seen, var⟩ := hv g rfl
    obtain ⟨seen, var'⟩ := Glimpse.refers_refresh seen var h.log
    refine Ends.bind (Q := fun t part => t = s ∧ ∀ g', part = some g' →
      g'.seen.Refers S ∧ ∀ b, c.source.Holds g'.var b → S b) ?_ fun part s₁ h₁ => ?_
    · refine .get_bind ?_
      dsimp only
      split
      · refine (Ends.orBadShape (Q := fun t e => t = s ∧ e.Refers S) (fun _ => trivial) fun e he =>
          ⟨rfl, seen.element? he⟩).bind fun e s₂ h₂ => .pure ⟨h₂.1, fun g' hg' => ?_⟩
        cases hg'
        refine ⟨h₂.2, ?_⟩
        show ∀ b, c.source.Holds (g.refresh s.log).var b → S b
        rw [var']
        exact var
      · exact .pure ⟨rfl, nofun⟩
    · obtain ⟨rfl, hpart⟩ := h₁
      split
      · split
        · exact .pure ⟨h, (hpart _ rfl).1⟩
        · exact atRuntime hpart
      · exact atRuntime nofun
  · exact atRuntime nofun
  · exact .breakDown trivial

theorem flows_folded {span : Span} {result : Except FoldError Datum}
    (hd : ∀ d, result = .ok d → d.Refers S) :
    Ends (.faulty deep) c s (folded span result) fun s' d => s' = s ∧ d.Refers S := by
  unfold folded
  split
  · exact .pure ⟨rfl, hd _ rfl⟩
  · exact .refuse
  · exact .refuse
  · exact .breakDown trivial
  · exact .breakDown trivial

include h

theorem flows_unaryValue {op : UnaryOp} {v : Value} {span : Span} :
    Ends (.faulty deep) c s (unaryValue op v span) fun s' a => s'.Flows c.source ∧ a.Flows c.source S := by
  refine .check fun _ => ?_
  split
  · refine (flows_folded (S := S) fun _ => Datum.refers_of_foldUnary).bind fun d s₁ h₁ => ?_
    exact .pure ⟨h₁.1 ▸ h, h₁.2⟩
  · exact .pure ⟨h, nofun⟩

omit h in
theorem flows_rightType {op : BinaryOp} {v : Value} :
    Ends (.faulty deep) c s (rightType op v) fun s' _ => s' = s := by
  refine .check fun _ => ?_
  split
  · exact .refuse
  · exact .pure rfl
  · exact .breakDown trivial

theorem flows_isInValue {l r : Value} {span : Span} :
    Ends (.faulty deep) c s (isInValue l r span) fun s' a => s'.Flows c.source ∧ a.Flows c.source S :=
  flows_rightType.bind fun _ _ same => .pure ⟨same ▸ h, flows_plain rfl⟩

theorem flows_asTypeValue {l r : Value} {span : Span} (hl : l.Flows c.source S) :
    Ends (.faulty deep) c s (asTypeValue l r span) fun s' a => s'.Flows c.source ∧ a.Flows c.source S := by
  refine flows_rightType.bind fun b s₁ same => ?_
  subst same
  split
  · refine .check fun _ => ?_
    obtain ⟨content, ty, lspan⟩ := l
    cases content with
    | known d =>
      refine (Ends.orBadShape (Q := fun t e => t = s₁ ∧ e.Refers S) (fun _ => trivial) fun e he =>
        ⟨rfl, Datum.Refers.stretch? hl he⟩).bind fun e s₂ h₂ => .pure ⟨h₂.1 ▸ h, h₂.2⟩
    | runtime e glimpse =>
      dsimp only
      split
      · exact .pure ⟨h, hl⟩
      · refine (flows_newSlot h).bind fun slot s₂ h₂ => (flows_emit h₂).bind fun _ s₃ h₃ => ?_
        exact .pure ⟨h₃, nofun⟩
  · exact .refuse

theorem flows_binaryValue {op : BinaryOp} {l r : Value} {span : Span} :
    Ends (.faulty deep) c s (binaryValue op l r span) fun s' a => s'.Flows c.source ∧ a.Flows c.source S := by
  unfold binaryValue
  split
  · exact .refuse
  · refine .check fun _ => ?_
    dsimp only
    split
    · refine (flows_folded (S := S) fun _ => Datum.refers_of_foldBinary).bind fun d s₁ h₁ => ?_
      exact .pure ⟨h₁.1 ▸ h, h₁.2⟩
    · refine (flows_asExpr l).bind fun _ s₁ same₁ => (flows_asExpr r).bind fun _ s₂ same₂ => ?_
      subst same₁ same₂
      exact .pure ⟨h, nofun⟩

omit h in
theorem flows_typeOf {kind : Problem.Kind} {v : Value} :
    Ends (.faulty deep) c s (typeOf kind v) fun s' _ => s' = s := by
  refine .check fun _ => ?_
  split
  · exact .refuse
  · exact .pure rfl
  · exact .breakDown trivial

omit h in
theorem flows_concreteTypeOf {span : Span} {v : Value} :
    Ends (.faulty deep) c s (concreteTypeOf span v) fun s' _ => s' = s := by
  refine flows_typeOf.bind fun b s₁ same => ?_
  split
  · exact .pure same
  · exact .refuse

theorem flows_boundValue (lower upper : Option Ty) (span : Span) :
    Ends (.faulty deep) c s (boundValue lower upper span) fun s' a => s'.Flows c.source ∧ a.Flows c.source S := by
  unfold boundValue
  dsimp only
  split
  · refine .check fun _ => .pure ⟨h, flows_plain rfl⟩
  · exact .pure ⟨h, flows_plain rfl⟩

omit h in
theorem flows_lengthOf (v : Value) : Ends (.faulty deep) c s (lengthOf v) fun s' _ => s' = s := by
  unfold lengthOf
  split
  · exact .refuse
  · split
    · exact .refuse
    · exact .pure rfl
  · exact .refuse

theorem flows_lengths (dims : List Int) (span : Span) : Ends (.faulty deep) c s (match dims with
    | [] => return .known (.int 1) .int span
    | dims => return .known (.array (dims.map .int)) (.array dims.length .int) span)
    fun s' a => s'.Flows c.source ∧ Value.Flows c.source S a := by
  cases dims with
  | nil => exact .pure ⟨h, flows_plain rfl⟩
  | cons d ds =>
    refine .pure ⟨h, Datum.refers_array.2 fun e he b hb => ?_⟩
    obtain ⟨n, -, rfl⟩ := List.mem_map.1 he
    exact absurd hb List.not_mem_nil

theorem flows_propertyValue {v : Value} {property : Scoped.Property} {span : Span} :
    Ends (.faulty deep) c s (propertyValue v property span) fun s' a =>
      s'.Flows c.source ∧ a.Flows c.source S := by
  unfold propertyValue
  dsimp only
  split
  · exact .pure ⟨h, flows_plain rfl⟩
  · split
    · split
      · exact flows_lengths h _ span
      · exact .refuse_bind
    · exact flows_lengths h _ span

omit h in
theorem flows_asExprs (vs : List Value) : Ends (.faulty deep) c s (vs.mapM asExpr) fun s' _ => s' = s := by
  induction vs generalizing s with
  | nil => exact .pure rfl
  | cons v vs ih =>
    rw [List.mapM_cons]
    refine (flows_asExpr v).bind fun _ s₁ same => ?_
    subst same
    exact ih.bind fun _ s₂ same => .pure same

theorem flows_collected {vs : List Value} {first : Ty} {span : Span}
    (hvs : ∀ v ∈ vs, v.Flows c.source S) :
    Ends (.faulty deep) c s (collected vs first span) fun s' a => s'.Flows c.source ∧ a.Flows c.source S := by
  unfold collected
  dsimp only
  split
  · rename_i data hdata
    refine .pure ⟨h, Datum.refers_of_mapM hdata fun v hv d hd => ?_⟩
    have := hvs v hv
    obtain ⟨content, ty, vspan⟩ := v
    cases content with
    | known d' =>
      cases hd
      exact this
    | runtime e g => cases hd
  · refine (flows_asExprs vs).bind fun _ s₁ same => ?_
    subst same
    exact .pure ⟨h, nofun⟩

/-! ## Places -/

omit h in
theorem flows_addIndex {q : Place} {slot : Option SlotId} {index : Value} {elem : Ty} :
    Ends (.faulty deep) c s (addIndex q slot index elem) fun s' r => s' = s ∧ r.var = q.var := by
  unfold addIndex
  split
  · exact .pure ⟨rfl, rfl⟩
  · exact (flows_asExpr index).bind fun _ _ same => .pure ⟨same, rfl⟩
  · split
    · exact .read_bind .refuse_bind
    · exact (flows_asExpr index).bind fun _ _ same => .pure ⟨same, rfl⟩

theorem flows_settle {q : Place} {v : Value} :
    Ends (.faulty deep) c s (settle q v) fun s' _ => s'.Flows c.source := by
  refine .get_bind (.read_bind ?_)
  dsimp only
  split
  · exact .refuse
  · exact .refuse
  · split
    · refine Ends.bind (Q := fun t _ => t.Flows c.source) (.map (flows_newSlot h)) fun _ s₁ h₁ => ?_
      exact .modify ⟨h₁.tracked, h₁.log⟩
    · exact .modify ⟨h.tracked, h.log⟩

theorem flows_trackKnown {q : Place} {r : Record} {ty : Ty} {d : Datum} {valueTy : Ty}
    (hd : d.Refers (c.source.Holds q.var)) :
    Ends (.faulty deep) c s (trackKnown q r ty d valueTy) fun s' _ => s'.Flows c.source := by
  unfold trackKnown
  split
  · exact flows_trackAt h hd
  · refine .forM h fun coord _ t ht => ?_
    refine (Ends.orBadShape (Q := fun u e => u = t ∧ e.Refers (c.source.Holds q.var)) (fun _ => trivial)
      fun e he => ⟨rfl, hd.item? he⟩).bind fun e s₁ h₁ => ?_
    obtain ⟨rfl, he⟩ := h₁
    exact flows_trackAt ht he

/-- A value is stored where a place has a slot. -/
theorem flows_store (q : Place) (v : Value) (span : Span) (ty : Ty) (slot : Option SlotId) :
    Ends (.faulty deep) c s (match slot with
      | none => return
      | some slot => do
        let value ← asExpr v
        emit (.assign ⟨slot, q.indexes, ty, q.span⟩ value span)) fun s' _ => s'.Flows c.source := by
  split
  · exact .pure h
  · refine (flows_asExpr v).bind fun _ t' same => ?_
    subst same
    exact flows_emit h

theorem flows_assignAs {q : Place} {v : Value} {span : Span} {ty : Ty}
    (hv : v.Flows c.source (c.source.Holds q.var)) :
    Ends (.faulty deep) c s (assignAs q v span ty) fun s' _ => s'.Flows c.source := by
  refine .get_bind ?_
  dsimp only
  split
  · rename_i d hd _
    exact (flows_trackKnown h (Value.flows_of_known hv hd)).bind fun _ s₁ h₁ => flows_store h₁ q v span ty _
  · split
    · exact .read_bind .refuse_bind
    · exact (flows_trackAt h (Datum.refers_unknownOf _)).bind fun _ s₁ h₁ => flows_store h₁ q v span ty _

theorem flows_assign {q : Place} {v : Value} {span : Span}
    (hv : v.Flows c.source (c.source.Holds q.var)) :
    Ends (.faulty deep) c s (assign q v span) fun s' _ => s'.Flows c.source := by
  rw [assign_eq]
  split
  · exact (flows_settle h).bind fun _ s₁ h₁ => flows_assignAs h₁ hv
  · exact .check fun _ => flows_assignAs h hv

theorem flows_bindInputs {given : List (VarId × Value)}
    (hg : ∀ e ∈ given, e.2.Flows c.source (c.source.Holds e.1)) :
    Ends (.faulty deep) c s (bindInputs given) fun s' _ => s'.Flows c.source := by
  induction given generalizing s with
  | nil => exact .pure h
  | cons e rest ih =>
    obtain ⟨v, ⟨content, ty, span⟩⟩ := e
    have others : ∀ e ∈ rest, e.2.Flows c.source (c.source.Holds e.1) :=
      fun e he => hg e (List.mem_cons_of_mem _ he)
    refine .get_bind ?_
    cases content with
    | known d =>
      refine (flows_create h).bind fun _ s₁ h₁ => ?_
      exact (flows_track h₁ (hg _ List.mem_cons_self)).bind fun _ s₂ h₂ => ih h₂ others
    | runtime e glimpse =>
      refine (flows_newSlot h).bind fun slot s₁ h₁ => (flows_create h₁).bind fun _ s₂ h₂ => ?_
      exact (flows_emit h₂).bind fun _ s₃ h₃ => ih h₃ others

end Values

/-! ## Expressions -/

/-- Every scope that the scope `i` leads to can be entered. -/
def Enters (deep : Prop) (c : Context) (i : Scoped.ScopeId) (run : Scoped.ScopeId → Stage Unit) : Prop :=
  ∀ j, c.source.Leads i j → ∀ s, State.Flows c.source s → Ends (.faulty deep) c s (run j) fun s' _ => s'.Flows c.source

variable {run : Scoped.ScopeId → Stage Unit} {i : Scoped.ScopeId}

theorem flows_inlineCall (h : s.Flows c.source) {site : MacroSite} {context : Table}
    {given : List (VarId × Value)} {outs : Stage Value} {span : Span} {scope : ScopeId}
    (hrun : ∀ s, State.Flows c.source s → Ends (.faulty deep) c s (run site.body) fun s' _ => s'.Flows c.source)
    (hg : ∀ e ∈ given, e.2.Flows c.source (c.source.Holds e.1))
    (houts : ∀ s, State.Flows c.source s →
      Ends (.faulty deep) c s outs fun s' a => s'.Flows c.source ∧ a.Flows c.source S) :
    Ends (.faulty deep) c s (inlineCall run site context given outs span scope) fun s' a =>
      s'.Flows c.source ∧ a.Flows c.source S := by
  refine .get_bind (.set_bind ?_)
  refine (flows_bindInputs ?_ hg).bind fun _ s₁ h₁ => (hrun s₁ h₁).bind fun _ s₂ h₂ => .modify_bind ?_
  · exact ⟨h.tracked, h.log⟩
  · refine (houts _ ?_).bind fun value s₃ h₃ => .modify_bind (.get_bind ?_)
    · exact ⟨h₂.tracked, h₂.log⟩
    · dsimp only
      split
      · refine (flows_emit ?_).bind fun _ s₄ h₄ => .pure ⟨h₄, h₃.2⟩
        exact ⟨h₃.1.tracked, h₃.1.log⟩
      · exact .pure ⟨⟨h₃.1.tracked, h₃.1.log⟩, h₃.2⟩

/-- All calls of a list stand in the scope `i`. -/
def CallsStand (c : Context) (i : Scoped.ScopeId) (calls : List Scoped.Call) : Prop :=
  ∀ call ∈ calls, c.source.CallIn i call

theorem CallsStand.left {xs ys : List Scoped.Call} (h : CallsStand c i (xs ++ ys)) : CallsStand c i xs :=
  fun x hx => h x (List.mem_append_left _ hx)

theorem CallsStand.right {xs ys : List Scoped.Call} (h : CallsStand c i (xs ++ ys)) : CallsStand c i ys :=
  fun y hy => h y (List.mem_append_right _ hy)

mutual

theorem flows_expression (hrun : Enters deep c i run) : (e : Scoped.Expr) → CallsStand c i e.calls →
    ∀ {s : State}, s.Flows c.source → Ends (.faulty deep) c s (expression run e) fun s' a =>
      s'.Flows c.source ∧ a.Flows c.source (c.source.Gives e)
  | .literal value span, _, s, h => by
    rw [expression]
    refine .get_bind (.pure ⟨h, fun b hb => ?_⟩)
    rw [Datum.macros_ofConstant] at hb
    exact .literal hb
  | .var id span, _, s, h => by
    rw [expression]
    exact (flows_readVar h id span).mono fun _ _ ha => ⟨ha.1, ha.2.mono fun _ => .var⟩
  | .collect [] span, _, s, h => by
    rw [expression]
    exact .refuse
  | .collect (e :: es) span, he, s, h => by
    rw [expression]
    rw [Scoped.Expr.calls, Scoped.callsOf] at he
    refine (flows_expression hrun e he.left h).bind fun first s₁ h₁ => ?_
    refine (flows_items hrun first es he.right h₁.1).bind fun rest s₂ h₂ => ?_
    refine flows_collected h₂.1 fun v hv => ?_
    rcases List.mem_cons.1 hv with rfl | hv
    · exact h₁.2.mono fun _ => .collect List.mem_cons_self
    · obtain ⟨e', he', hv'⟩ := h₂.2 v hv
      exact hv'.mono fun _ => .collect (List.mem_cons_of_mem _ he')
  | .openBound span, _, s, h => by
    rw [expression]
    exact flows_boundValue h _ _ _
  | .upperBound upper span, he, s, h => by
    rw [expression]
    rw [Scoped.Expr.calls] at he
    refine (flows_expression hrun upper he h).bind fun u s₁ h₁ => flows_concreteTypeOf.bind fun _ s₂ same => ?_
    subst same
    exact flows_boundValue h₁.1 _ _ _
  | .closedBound lower upper span, he, s, h => by
    rw [expression]
    rw [Scoped.Expr.calls] at he
    refine (flows_expression hrun lower he.left h).bind fun l s₁ h₁ =>
      flows_concreteTypeOf.bind fun _ s₂ same => ?_
    subst same
    refine (flows_expression hrun upper he.right h₁.1).bind fun u s₃ h₃ =>
      flows_concreteTypeOf.bind fun _ s₄ same => ?_
    subst same
    exact flows_boundValue h₃.1 _ _ _
  | .arrayType dims base span, he, s, h => by
    rw [expression]
    rw [Scoped.Expr.calls] at he
    refine (flows_lengthList hrun dims he.left h).bind fun lengths s₁ h₁ => ?_
    refine (flows_expression hrun base he.right h₁).bind fun b s₂ h₂ => flows_typeOf.bind fun _ s₃ same => ?_
    subst same
    exact .pure ⟨h₂.1, flows_plain rfl⟩
  | .index base indexes span, he, s, h => by
    rw [expression]
    rw [Scoped.Expr.calls] at he
    refine (flows_expression hrun base he.left h).bind fun v s₁ h₁ => ?_
    refine (flows_indexed hrun v span indexes he.right h₁.1 h₁.2).mono fun _ _ ha => ?_
    exact ⟨ha.1, ha.2.mono fun _ => .index⟩
  | .property base property span, he, s, h => by
    rw [expression]
    rw [Scoped.Expr.calls] at he
    exact (flows_expression hrun base he h).bind fun v s₁ h₁ => flows_propertyValue h₁.1
  | .unary op operand span, he, s, h => by
    rw [expression]
    rw [Scoped.Expr.calls] at he
    exact (flows_expression hrun operand he h).bind fun v s₁ h₁ => flows_unaryValue h₁.1
  | .binary op left right span, he, s, h => by
    rw [expression]
    rw [Scoped.Expr.calls] at he
    refine (flows_expression hrun left he.left h).bind fun l s₁ h₁ => ?_
    refine (flows_expression hrun right he.right h₁.1).bind fun r s₂ h₂ => ?_
    split
    · exact flows_asTypeValue h₂.1 (h₁.2.mono fun _ => .asType)
    · exact flows_isInValue h₂.1
    · exact flows_binaryValue h₂.1
  | .call callee calleeSpan inputs outputs span, he, s, h => by
    rw [expression]
    rw [Scoped.Expr.calls] at he
    have here : c.source.CallIn i ⟨callee, inputs, outputs⟩ := he _ List.mem_cons_self
    have he : CallsStand c i (Scoped.callsOf inputs ++ Scoped.outputCalls outputs) :=
      fun x hx => he x (List.mem_cons_of_mem _ hx)
    refine (flows_readVar h callee calleeSpan).bind fun m s₁ h₁ => .check fun _ => ?_
    split
    · exact .refuse
    · rename_i site context hm
      have held : c.source.Holds callee site.body :=
        Value.flows_of_known h₁.2 hm site.body List.mem_cons_self
      refine .read_bind ((flows_values hrun inputs he.left h₁.1).bind fun given s₂ h₂ => ?_)
      refine .check fun _ => .check fun _ => (flows_newScope h₂.1).bind fun scope s₃ h₃ => ?_
      refine flows_inlineCall h₃ (hrun _ (.call here held)) (fun x hx => ?_) fun s₄ h₄ => ?_
      · obtain ⟨n, hn⟩ := List.mem_iff_getElem?.1 hx
        obtain ⟨hv, hx⟩ := List.getElem?_zip_eq_some.1 hn
        obtain ⟨e, he, hx⟩ := h₂.2 n _ hx
        exact hx.mono fun b hb => .passed here held hv he hb
      · refine flows_callOutputs hrun _ span _ outputs he.right h₄ (flows_plain rfl) ?_ ?_
        · exact fun n w outSpan hw hout b hb => .inline held hw hout hb
        · exact fun n w v indexes targetSpan outSpan hw hout b hb => .returned here held hw hout hb
    · exact .breakDown trivial

theorem flows_items (hrun : Enters deep c i run) (first : Value) : (es : List Scoped.Expr) →
    CallsStand c i (Scoped.callsOf es) → ∀ {s : State}, s.Flows c.source →
    Ends (.faulty deep) c s (items run first es) fun s' vs =>
      s'.Flows c.source ∧ ∀ v ∈ vs, ∃ e ∈ es, v.Flows c.source (c.source.Gives e)
  | [], _, s, h => by
    rw [items]
    exact .pure ⟨h, fun _ mem => (List.not_mem_nil mem).elim⟩
  | e :: es, he, s, h => by
    rw [items]
    rw [Scoped.callsOf] at he
    refine (flows_expression hrun e he.left h).bind fun v s₁ h₁ => .check fun _ => ?_
    refine (flows_items hrun first es he.right h₁.1).bind fun vs s₂ h₂ => .pure ⟨h₂.1, fun w hw => ?_⟩
    rcases List.mem_cons.1 hw with rfl | hw
    · exact ⟨e, List.mem_cons_self, h₁.2⟩
    · obtain ⟨e', he', hw'⟩ := h₂.2 w hw
      exact ⟨e', List.mem_cons_of_mem _ he', hw'⟩

theorem flows_values (hrun : Enters deep c i run) : (es : List Scoped.Expr) →
    CallsStand c i (Scoped.callsOf es) → ∀ {s : State}, s.Flows c.source →
    Ends (.faulty deep) c s (values run es) fun s' vs => s'.Flows c.source ∧
      ∀ (n : Nat) (v : Value), vs[n]? = some v → ∃ e, es[n]? = some e ∧ v.Flows c.source (c.source.Gives e)
  | [], _, s, h => by
    rw [values]
    refine .pure ⟨h, fun n v found => ?_⟩
    rw [List.getElem?_nil] at found
    cases found
  | e :: es, he, s, h => by
    rw [values]
    rw [Scoped.callsOf] at he
    refine (flows_expression hrun e he.left h).bind fun v s₁ h₁ => ?_
    refine (flows_values hrun es he.right h₁.1).bind fun vs s₂ h₂ => .pure ⟨h₂.1, fun n w hw => ?_⟩
    cases n with
    | zero =>
      cases hw
      exact ⟨e, rfl, h₁.2⟩
    | succ n => exact h₂.2 n w hw

theorem flows_lengthList (hrun : Enters deep c i run) : (es : List Scoped.Expr) →
    CallsStand c i (Scoped.callsOf es) → ∀ {s : State}, s.Flows c.source →
    Ends (.faulty deep) c s (lengthList run es) fun s' _ => s'.Flows c.source
  | [], _, s, h => by
    rw [lengthList]
    exact .pure h
  | e :: es, he, s, h => by
    rw [lengthList]
    rw [Scoped.callsOf] at he
    refine (flows_expression hrun e he.left h).bind fun v s₁ h₁ => (flows_lengthOf v).bind fun _ s₂ same => ?_
    subst same
    exact (flows_lengthList hrun es he.right h₁.1).bind fun _ s₃ h₃ => .pure h₃

theorem flows_indexed (hrun : Enters deep c i run) (v : Value) (whole : Span) : (args : List Scoped.IndexArg) →
    CallsStand c i (Scoped.indexCalls args) → ∀ {S : Nat → Prop} {s : State}, s.Flows c.source →
    v.Flows c.source S →
    Ends (.faulty deep) c s (indexed run v whole args) fun s' a => s'.Flows c.source ∧ a.Flows c.source S
  | [], _, S, s, h, hv => by
    rw [indexed]
    exact .pure ⟨h, hv⟩
  | .mk e optional :: rest, he, S, s, h, hv => by
    rw [indexed]
    rw [Scoped.indexCalls] at he
    refine (flows_expression hrun e he.left h).bind fun index s₁ h₁ => ?_
    split
    · refine (flows_checkIndex index _ whole).bind fun _ s₂ same => ?_
      subst same
      refine (flows_elementOf h₁.1 hv).bind fun a s₃ h₃ => ?_
      exact flows_indexed hrun a whole rest he.right h₃.1 h₃.2
    · split
      · exact flows_indexed hrun v whole rest he.right h₁.1 hv
      · exact .refuse

theorem flows_callOutputs (hrun : Enters deep c i run) (result : Value) (span : Span) (vars : List VarId) :
    (outs : List Scoped.Output) → CallsStand c i (Scoped.outputCalls outs) → ∀ {S : Nat → Prop} {s : State},
    s.Flows c.source → result.Flows c.source S →
    (∀ (n : Nat) (w : VarId) (outSpan : Span), vars[n]? = some w → outs[n]? = some (.inline outSpan) →
      ∀ b, c.source.Holds w b → S b) →
    (∀ (n : Nat) (w v : VarId) (indexes : List Scoped.Expr) (targetSpan outSpan : Span), vars[n]? = some w →
      outs[n]? = some (.target (.mk v indexes targetSpan) outSpan) →
      ∀ b, c.source.Holds w b → c.source.Holds v b) →
    Ends (.faulty deep) c s (callOutputs run result span vars outs) fun s' a =>
      s'.Flows c.source ∧ a.Flows c.source S
  | [], _, S, s, h, hresult, _, _ => by
    rw [callOutputs]
    exact .pure ⟨h, hresult⟩
  | .inline outSpan :: rest, he, S, s, h, hresult, hin, hout => by
    rw [Scoped.outputCalls] at he
    cases vars with
    | nil =>
      rw [callOutputs]
      exact .pure ⟨h, hresult⟩
    | cons v vars =>
      rw [callOutputs]
      refine (flows_readVar h v span).bind fun a s₁ h₁ => ?_
      refine flows_callOutputs hrun a span vars rest he h₁.1 (h₁.2.mono (hin 0 v outSpan rfl rfl)) ?_ ?_
      · exact fun n => hin (n + 1)
      · exact fun n => hout (n + 1)
  | .target (.mk v indexes targetSpan) outSpan :: rest, he, S, s, h, hresult, hin, hout => by
    rw [Scoped.outputCalls] at he
    cases vars with
    | nil =>
      rw [callOutputs]
      exact .pure ⟨h, hresult⟩
    | cons w vars =>
      rw [callOutputs]
      refine (flows_place hrun (.mk v indexes targetSpan) he.left h).bind fun q s₁ h₁ => ?_
      refine (flows_readVar h₁.1 w outSpan).bind fun a s₂ h₂ => ?_
      have ha : a.Flows c.source (c.source.Holds q.var) :=
        h₂.2.mono (h₁.2 ▸ hout 0 w v indexes targetSpan outSpan rfl rfl)
      refine (flows_assign h₂.1 ha).bind fun _ s₃ h₃ => ?_
      refine flows_callOutputs hrun result span vars rest he.right h₃ hresult ?_ ?_
      · exact fun n => hin (n + 1)
      · exact fun n => hout (n + 1)

theorem flows_place (hrun : Enters deep c i run) : (t : Scoped.Target) → CallsStand c i t.calls →
    ∀ {s : State}, s.Flows c.source →
    Ends (.faulty deep) c s (place run t) fun s' q => s'.Flows c.source ∧ q.var = t.var
  | .mk v indexes span, he, s, h => by
    rw [place]
    rw [Scoped.Target.calls] at he
    refine (flows_recordOf v).bind fun r s₁ same => ?_
    subst same
    refine .get_bind ?_
    dsimp only
    split
    · exact (flows_crossStream v span (Q := fun _ _ => False)).bind fun _ _ never => never.elim
    · exact flows_placeUnder hrun _ indexes he h

theorem flows_placeUnder (hrun : Enters deep c i run) (q : Place) : (es : List Scoped.Expr) →
    CallsStand c i (Scoped.callsOf es) → ∀ {s : State}, s.Flows c.source →
    Ends (.faulty deep) c s (placeUnder run q es) fun s' r => s'.Flows c.source ∧ r.var = q.var
  | [], _, s, h => by
    rw [placeUnder]
    exact .pure ⟨h, rfl⟩
  | e :: rest, he, s, h => by
    rw [placeUnder]
    rw [Scoped.callsOf] at he
    split
    · refine (flows_expression hrun e he.left h).bind fun index s₁ h₁ => ?_
      refine (flows_checkIndex index _ _).bind fun _ s₂ same => ?_
      subst same
      refine .get_bind (flows_addIndex.bind fun r s₃ h₃ => ?_)
      obtain ⟨rfl, var⟩ := h₃
      exact (flows_placeUnder hrun r rest he.right h₁.1).mono fun _ _ hr => ⟨hr.1, hr.2.trans var⟩
    · exact .refuse
    · exact .get_bind .refuse

end

/-! ## Statements -/

section Statements

variable (hrun : Enters deep c i run) (h : s.Flows c.source)

include hrun h

theorem flows_creation {v : VarId} {type : Scoped.Expr} (he : CallsStand c i type.calls) :
    Ends (.faulty deep) c s (creation run v type) fun s' _ => s'.Flows c.source := by
  refine (flows_expression hrun type he h).bind fun t s₁ h₁ => flows_typeOf.bind fun b s₂ same => ?_
  subst same
  refine .read_bind (.get_bind ?_)
  dsimp only
  split
  · rename_i value initial
    refine (flows_create h₁.1).bind fun _ s₃ h₃ => .get_bind (flows_track h₃ fun b hb => ?_)
    rw [Datum.macros_ofConstant] at hb
    exact .initial initial hb
  · have made (slot : Option SlotId) {t : State} (ht : t.Flows c.source) :
        Ends (.faulty deep) c t (create v ⟨slot, b, s₂.inStatic⟩) fun s' _ => s'.Flows c.source := flows_create ht
    split
    · split
      · exact Ends.bind (Q := fun t _ => t.Flows c.source) (.map (flows_newSlot h₁.1)) fun slot _ ht =>
          made slot ht
      · exact made none h₁.1
    · exact made none h₁.1

theorem flows_assertion {condition : Scoped.Expr} {span : Span} (he : CallsStand c i condition.calls) :
    Ends (.faulty deep) c s (assertion run condition span) fun s' _ => s'.Flows c.source := by
  refine (flows_expression hrun condition he h).bind fun v s₁ h₁ => .check fun _ => ?_
  split
  · exact flows_emit h₁.1
  · exact .pure h₁.1
  · exact .refuse
  · exact .breakDown trivial

omit hrun in
theorem flows_guarded {body : Scoped.ScopeId}
    (hbody : ∀ s, State.Flows c.source s → Ends (.faulty deep) c s (run body) fun s' _ => s'.Flows c.source) :
    Ends (.faulty deep) c s (guarded run body) fun s' _ => s'.Flows c.source := by
  refine (flows_newScope h).bind fun scope s₁ h₁ => Ends.bind (Q := fun t _ => t.Flows c.source) ?_ fun _ _ ht =>
    .pure ht
  refine .get_bind (.modify_bind ((flows_inBranch ?_ hbody).bind fun _ s₂ h₂ => .modify_bind (.pure ?_)))
  · exact ⟨h₁.tracked, h₁.log⟩
  · exact ⟨h₂.tracked, h₂.log⟩

theorem flows_clauses {otherwise : Option Scoped.ScopeId} {span : Span} {done : List Clause}
    {cs : List Scoped.Clause} (hcs : ∀ x ∈ cs, CallsStand c i x.condition.calls ∧ c.source.Leads i x.body)
    (ho : ∀ body, otherwise = some body → c.source.Leads i body) :
    Ends (.faulty deep) c s (clauses run otherwise span done cs) fun s' _ => s'.Flows c.source := by
  induction cs generalizing done s with
  | nil =>
    unfold clauses
    split
    · exact .pure h
    · exact hrun _ (ho _ rfl) s h
    · exact flows_emit h
    · exact (flows_guarded h (hrun _ (ho _ rfl))).bind fun _ s₁ h₁ => flows_emit h₁
  | cons x rest ih =>
    obtain ⟨calls, leads⟩ := hcs x List.mem_cons_self
    have hrest : ∀ x ∈ rest, CallsStand c i x.condition.calls ∧ c.source.Leads i x.body :=
      fun y hy => hcs y (List.mem_cons_of_mem _ hy)
    unfold clauses
    refine (flows_expression hrun x.condition calls h).bind fun condition s₁ h₁ => .check fun _ => ?_
    have keep : Ends (.faulty deep) c s₁ (do
        let e ← asExpr condition
        let scope ← guarded run x.body
        clauses run otherwise span (done ++ [⟨e, scope⟩]) rest) fun s' _ => s'.Flows c.source := by
      refine (flows_asExpr condition).bind fun e s₂ same => ?_
      subst same
      exact (flows_guarded h₁.1 (hrun _ leads)).bind fun scope s₃ h₃ => ih h₃ hrest
    dsimp only
    split
    · exact ih h₁.1 hrest
    · split
      · exact hrun _ leads s₁ h₁.1
      · exact keep
    · exact .breakDown trivial
    · exact keep

omit hrun in
theorem flows_loopPass {body : Scoped.ScopeId} {into : Option ScopeId}
    (hbody : ∀ s, State.Flows c.source s → Ends (.faulty deep) c s (run body) fun s' _ => s'.Flows c.source) :
    Ends (.faulty deep) c s (loopPass run body into) fun s' _ => s'.Flows c.source := by
  refine .get_bind (.set_bind ((flows_withTable (Q := fun _ _ => True) ?_ (fun t ht => ?_) fun _ _ q => q).bind
    fun _ s₁ h₁ => .modify ?_))
  · exact ⟨h.tracked, h.log⟩
  · exact (flows_inBranch ht hbody).mono fun _ _ h₁ => ⟨h₁, trivial⟩
  · exact ⟨h₁.1.tracked, h₁.1.log⟩

omit hrun in
theorem flows_rounds {counter : VarId} {body : Scoped.ScopeId} {count : Nat} {n : Int}
    (hbody : ∀ s, State.Flows c.source s → Ends (.faulty deep) c s (run body) fun s' _ => s'.Flows c.source) :
    Ends (.faulty deep) c s (rounds run counter body count n) fun s' _ => s'.Flows c.source := by
  induction count generalizing s n with
  | zero => exact .pure h
  | succ count ih =>
    refine .get_bind ?_
    split
    · exact .pure h
    · refine (flows_withTable (Q := fun _ _ => True) h (fun t ht => ?_) fun _ _ q => q).bind fun _ s₁ h₁ =>
        ih h₁.1
      refine (flows_create ht).bind fun _ s₁ h₁ => (flows_track h₁ fun b hb => by cases hb).bind fun _ s₂ h₂ => ?_
      exact (hbody s₂ h₂).mono fun _ _ h₃ => ⟨h₃, trivial⟩

omit hrun in
theorem flows_keptLoop {counter : VarId} {start stop : Value} {body : Scoped.ScopeId} {span : Span}
    (hbody : ∀ s, State.Flows c.source s → Ends (.faulty deep) c s (run body) fun s' _ => s'.Flows c.source) :
    Ends (.faulty deep) c s (keptLoop run counter start stop body span) fun s' _ => s'.Flows c.source := by
  refine .read_bind ((flows_newSlot h).bind fun slot s₁ h₁ => .get_bind ?_)
  refine (flows_create h₁).bind fun _ s₂ h₂ => (flows_loopPass h₂ hbody).bind fun _ s₃ h₃ => ?_
  refine (flows_newScope h₃).bind fun scope s₄ h₄ => (flows_loopPass h₄ hbody).bind fun _ s₅ h₅ => ?_
  refine (flows_asExpr start).bind fun _ s₆ same₆ => (flows_asExpr stop).bind fun _ s₇ same₇ => ?_
  subst same₆ same₇
  exact flows_emit h₅

theorem flows_loop {counter : VarId} {start stop : Scoped.Expr} {body : Scoped.ScopeId} {allowUnroll : Bool}
    {span : Span} (he : CallsStand c i (start.calls ++ stop.calls)) (leads : c.source.Leads i body) :
    Ends (.faulty deep) c s (loop run counter start stop body allowUnroll span) fun s' _ => s'.Flows c.source := by
  refine (flows_expression hrun start he.left h).bind fun lower s₁ h₁ => ?_
  refine (flows_expression hrun stop he.right h₁.1).bind fun upper s₂ h₂ => .check fun _ => .check fun _ => ?_
  dsimp only
  split
  · refine .read_bind ?_
    split
    · exact flows_rounds h₂.1 (hrun _ leads)
    · exact flows_keptLoop h₂.1 (hrun _ leads)
  · refine .read_bind ?_
    split
    · exact .breakDown trivial
    · exact flows_keptLoop h₂.1 (hrun _ leads)
  · exact flows_keptLoop h₂.1 (hrun _ leads)

omit hrun h in
theorem flows_exported {exports : List VarId} {span : Span} :
    Ends (.faulty deep) c s (exported exports span) fun s' _ => s' = s := by
  unfold exported
  induction exports generalizing s with
  | nil => exact .pure rfl
  | cons v rest ih =>
    rw [List.mapM_cons]
    refine Ends.bind (Q := fun t _ => t = s) ?_ fun r s₁ same => ?_
    · refine (flows_recordOf v).bind fun r s₁ same => ?_
      dsimp only
      split
      · exact .read_bind .refuse_bind
      · exact .pure same
    · subst same
      exact ih.bind fun _ s₂ same => .pure same

omit hrun in
theorem flows_static {body : Scoped.ScopeId} {exports : List VarId} {span : Span}
    (hbody : ∀ s, State.Flows c.source s → Ends (.faulty deep) c s (run body) fun s' _ => s'.Flows c.source) :
    Ends (.faulty deep) c s (static run body exports span) fun s' _ => s'.Flows c.source := by
  refine .get_bind (.set_bind ((flows_withTable (Q := fun _ _ => True) ?_ (fun t ht => ?_) fun _ _ q => q).bind
    fun records s₁ h₁ => .modify_bind ?_))
  · exact ⟨h.tracked, h.log⟩
  · refine (hbody t ht).bind fun _ s₁ h₁ => flows_exported.mono fun _ _ same => ?_
    exact ⟨same ▸ h₁, trivial⟩
  · refine .forM ?_ fun x _ t ht => (flows_create ht).bind fun _ s₂ h₂ => .get_bind ?_
    · exact ⟨h₁.1.tracked, h₁.1.log⟩
    · split
      · exact .modify ⟨h₂.tracked, h₂.log⟩
      · exact .pure h₂

theorem flows_statement {st : Scoped.Stmt} (hst : st ∈ (c.source.scope i).body) :
    Ends (.faulty deep) c s (statement run st) fun s' _ => s'.Flows c.source := by
  have calls : CallsStand c i st.calls := fun call hcall => ⟨st, hst, hcall⟩
  have leads (j : Scoped.ScopeId) (hj : j ∈ st.scopes) : c.source.Leads i j := .nested hst hj
  cases st with
  | create v type span => exact flows_creation hrun h calls
  | assign target value span =>
    obtain ⟨v, indexes, targetSpan⟩ := target
    refine (flows_expression hrun value calls.left h).bind fun a s₁ h₁ => ?_
    refine (flows_place hrun (.mk v indexes targetSpan) calls.right h₁.1).bind fun q s₂ h₂ => ?_
    refine flows_assign h₂.1 (h₁.2.mono fun b hb => ?_)
    rw [h₂.2]
    exact .assigned hst hb
  | assert condition span => exact flows_assertion hrun h calls
  | branch cs otherwise span =>
    refine flows_clauses hrun h (fun x hx => ⟨fun call hcall => ?_, leads _ ?_⟩) fun body hbody => leads _ ?_
    · exact calls call (List.mem_flatMap.2 ⟨x, hx, hcall⟩)
    · exact List.mem_append_left _ (List.mem_map_of_mem hx)
    · exact List.mem_append_right _ (Option.mem_toList.2 hbody)
  | loop counter start stop body allowUnroll span =>
    exact flows_loop hrun h calls (leads body List.mem_cons_self)
  | static body exports span => exact flows_static h (hrun _ (leads body List.mem_cons_self))
  | block body span => exact hrun _ (leads body List.mem_cons_self) s h
  | ret span =>
    refine .get_bind ?_
    split
    · exact .refuse_bind
    · exact .modify ⟨h.tracked, h.log⟩
  | expr value span =>
    refine (flows_expression hrun value calls h).bind fun a s₁ h₁ => ?_
    unfold discarded
    split
    · exact .pure h₁.1
    · exact .refuse

theorem flows_statements {ss : List Scoped.Stmt} (hss : ∀ st ∈ ss, st ∈ (c.source.scope i).body) :
    Ends (.faulty deep) c s (statements run ss) fun s' _ => s'.Flows c.source := by
  induction ss generalizing s with
  | nil => exact .pure h
  | cons st ss ih =>
    refine (flows_statement hrun h (hss st List.mem_cons_self)).bind fun _ s₁ h₁ => .get_bind ?_
    split
    · exact .pure h₁
    · exact ih h₁ fun st' hst' => hss st' (List.mem_cons_of_mem _ hst')

end Statements

/-- A scope is worked out, to whatever depth. -/
theorem flows_toDepth (depth : Nat) (i : Scoped.ScopeId) (h : s.Flows c.source) :
    Ends (.faulty True) c s (block depth i) fun s' _ => s'.Flows c.source := by
  induction depth generalizing i s with
  | zero => exact trivial
  | succ depth ih =>
    refine .read_bind (flows_statements (i := i) (fun j _ s hs => ih j hs) h fun st hst => ?_)
    exact Array.mem_toList_iff.1 hst

end Stage

end SignalLang.Staged
