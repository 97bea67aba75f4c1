import SignalLang.Proofs.Flat.Invariant

/-!
# Flattening well-formed programs

Flattening an expression of a well-formed program gives an operand that views all of a value of its type,
and flattening a statement emits typed instructions. A step fails only at a slot that exists in the main stream
alone, and `lower_ok_iff` collects what this means for whole programs.
-/

namespace SignalLang.Flat

open Staged (SlotId ScopeId)
open Steps LowerState

variable {ctx : LowerContext} {owed : List LabelId} {s : LowerState}

/-! ## Copies -/

theorem LowerState.Grows.isWhole {s' : LowerState} (grows : s.Grows s') {o : Operand} {t : Ty}
    (h : o.IsWhole s.out.vars s.stream t) : o.IsWhole s'.out.vars s'.stream t := by
  rw [grows.stream]
  exact h.mono grows.vars

theorem LowerState.Grows.views {s' : LowerState} (grows : s.Grows s') {o : Operand} {t : Ty}
    (h : o.Views s.out.vars s.stream t) : o.Views s'.out.vars s'.stream t := by
  rw [grows.stream]
  exact h.mono grows.vars

theorem LowerState.Grows.holds {s' : LowerState} (grows : s.Grows s') {id : VarId} {t : Ty}
    (h : HoldsTy s.out.vars s.stream id t) : HoldsTy s'.out.vars s'.stream id t := by
  rw [grows.stream]
  exact h.mono grows.vars

theorem LowerState.IsTarget.writes_iff {i : Instr} {o : Operand} {w : Prop} (h : s.IsTarget o w)
    (hi : i.target? = some o) : i.Writes s.out.inputs ↔ w := by
  obtain ⟨id, hid, hw⟩ := h
  refine Iff.trans ⟨?_, fun hmem => ⟨o, hi, id, hmem, hid⟩⟩ hw
  rintro ⟨o', ho', id', hmem, hid'⟩
  obtain rfl : o = o' := Option.some.inj (hi.symm.trans ho')
  obtain rfl : id = id' := Option.some.inj (hid.symm.trans hid')
  exact hmem

/-- A target that is a single element is a place. -/
theorem LowerState.IsTarget.isPlace {o : Operand} {w : Prop} {p : Prim} (h : s.IsTarget o w)
    (ho : o.IsElement s.out.vars s.stream p) : o.IsPlace s.out.vars s.stream p := by
  obtain ⟨id, hid, -⟩ := h
  exact ⟨ho, by rw [hid]; rfl⟩

/-- Steps over a list that each write an input if `w` holds do so together, unless there are none. -/
theorem Lowers.forM_writing {α : Type} {xs : List α} {f : α → Lower Unit} {w : Prop} (some : w → xs ≠ [])
    (h : ∀ x ∈ xs, ∀ s', s.Grows s' → Lowers ctx owed owed (.writing w) (f x) s' fun _ _ => True) :
    Lowers ctx owed owed (.writing w) (xs.forM f) s fun _ _ => True := by
  have each : Lowers ctx owed owed (.writing (w ∧ xs ≠ [])) (xs.forM f) s fun _ _ => True := by
    clear some
    induction xs generalizing s with
    | nil => exact (Lowers.pure fun _ => trivial).congr (by simp [Effect.Same, Effect.none, Effect.writing])
    | cons x xs ih =>
      show Lowers ctx owed owed _ (f x >>= fun _ => xs.forM f) s _
      have both := (h x List.mem_cons_self s (.refl s)).bind fun _ s' _ grows _ =>
        ih fun y hy s'' grows' => h y (List.mem_cons_of_mem _ hy) s'' (grows.trans grows')
      refine both.congr ?_
      simp only [Effect.Same, Effect.seq, Effect.writing]
      grind
  have same : (Effect.writing (w ∧ xs ≠ [])).Same (.writing w) :=
    ⟨fun _ => Iff.rfl, And.left, fun hw => ⟨hw, some hw⟩⟩
  exact each.congr same

theorem lowers_stretch {o : Operand} {t : Ty} {ns : List Int} (ho : o.IsWhole s.out.vars s.stream t)
    (hs : Stretches t.dims ns) : Lowers ctx owed owed .none (Lower.stretch o ns) s fun o' s' =>
      o'.Views s'.out.vars s'.stream t ∧ o'.lengths = ns := by
  obtain ⟨o', run, hviews, hl⟩ := Operand.stretch_ok ho hs
  rw [Lower.stretch, run]
  exact .pure fun _ => ⟨hviews, hl⟩

/-- Copying writes an input if the target is one: a type that can be held has an element. -/
theorem lowers_copyInto {source target : Operand} {t u : Ty} {w : Prop}
    (hsource : source.IsWhole s.out.vars s.stream t) (htarget : target.IsWhole s.out.vars s.stream u)
    (hw : s.IsTarget target w) (hs : Stretches t.dims u.dims) (hb : t.base = u.base) :
    Lowers ctx owed owed (.writing w) (Lower.copyInto source target) s fun _ _ => True := by
  rw [Lower.copyInto, htarget.lengths_eq]
  refine .quiet (lowers_stretch hsource hs) ?_
  rintro o s₁ - grows₁ ⟨hviews, hl⟩
  have positive := htarget.hasTy.storable.positive
  refine .forM_writing (fun _ => coordinates_ne_nil positive) fun c hc s₂ grows₂ => ?_
  have hc := mem_coordinates.1 hc
  obtain ⟨a, runa, ha, -⟩ := Operand.at?_of_views (grows₂.views hviews) (by rw [hl]; exact hc)
  obtain ⟨b, runb, hb', hvar⟩ :=
    Operand.at?_of_leads ((grows₁.trans grows₂).isWhole htarget) (leads_of_inBounds hc)
  have place := (hw.mono (grows₁.trans grows₂)).of_var hvar
  refine .orBroken_bind runa (.orBroken_bind runb ?_)
  refine lowers_emit ⟨u.base, ?_, place.isPlace hb'⟩ (.refl _) (place.writes_iff rfl)
  rw [← hb]
  exact ha

/-! ## Indexes -/

/-- Indexes are told apart without an effect. Those that are all numbers lead to the element, and use no
slots. -/
theorem constantIndexes?_ok {es : List Staged.Expr} {t u : Ty}
    (h : Staged.Expr.Selects ctx.source.vars es t u) (s : LowerState) :
    ∃ r, Lower.constantIndexes? es ctx s = .ok (r, s) ∧
      ∀ coord, r = some coord → Leads coord t u ∧ Staged.Expr.slotsOf es = [] := by
  induction es generalizing t with
  | nil =>
    cases h
    exact ⟨some [], rfl, fun coord hc => by cases hc; exact ⟨rfl, rfl⟩⟩
  | cons e es ih =>
    rw [Staged.Expr.Selects] at h
    obtain ⟨n, elem, rfl, -, -, range, hs⟩ := h
    cases e with
    | literal c ty span =>
      obtain ⟨i, rfl, hi⟩ := range
      obtain ⟨r, run, hr⟩ := ih hs
      refine ⟨r.map (i :: ·), map_ok.2 ⟨r, s, run, rfl⟩, fun coord hc => ?_⟩
      obtain ⟨rest, rfl, rfl⟩ := Option.map_eq_some_iff.1 hc
      obtain ⟨leads, none⟩ := hr rest rfl
      exact ⟨⟨hi, leads⟩, none⟩
    | _ => exact ⟨none, rfl, fun coord hc => by cases hc⟩

/-- A variable that indexes computed at run time can select from. -/
theorem lowers_addressable {o : Operand} {t : Ty} (ho : o.IsWhole s.out.vars s.stream t) :
    Lowers ctx owed owed .none (Lower.addressable o) s fun r s' =>
      ∃ whole, HoldsTy s'.out.vars s'.stream r.1 whole ∧ Leads r.2 whole t := by
  have typed := ho.hasTy
  unfold Lower.addressable
  dsimp only
  split
  · refine .get_bind (.orBroken_bind ho.ty?_eq (.get_bind ?_))
    refine .quiet (lowers_newVariable typed.storable) ?_
    rintro id s₁ - grows ⟨holds, fresh, -⟩
    have whole : (Operand.ofVariable id (some t)).IsWhole s₁.out.vars s₁.stream t :=
      Operand.isWhole_ofVariable holds
    have target : s₁.IsTarget (.ofVariable id (some t)) False := ⟨id, rfl, iff_false_intro fresh⟩
    refine .quiet (lowers_copyInto (grows.isWhole ho) whole target (stretches_refl _) rfl) ?_
    rintro _ s₂ - grows₂ -
    exact .pure fun _ => ⟨t, grows₂.holds holds, rfl⟩
  · rename_i id coord view
    rw [view] at typed
    rw [ho.not_stretched, if_neg Bool.false_ne_true]
    exact .pure fun _ => typed

/-! ## Operators -/

theorem unaryTy_dims (op : SignalLang.UnaryOp) (t : Ty) : (Staged.unaryTy op t).dims = t.dims := by
  cases op <;> simp [Staged.unaryTy]

theorem unaryTy_base (op : SignalLang.UnaryOp) (t : Ty) :
    (Staged.unaryTy op t).base = (Staged.unaryTy op (.prim t.base)).base := by
  cases op <;> simp [Staged.unaryTy, Ty.base]

theorem unary_result {op : SignalLang.UnaryOp} {p : Prim} (h : Staged.Stage.unaryAccepts op p = true) :
    (UnaryOp.select op p).result? p = some (Staged.unaryTy op (.prim p)).base := by
  cases op <;> cases p <;> first | rfl | cases h

theorem binaryTy_dims (op : SignalLang.BinaryOp) (t : Ty) : (Staged.binaryTy op t).dims = t.dims := by
  unfold Staged.binaryTy
  split <;> simp

theorem binaryTy_base (op : SignalLang.BinaryOp) (t : Ty) :
    (Staged.binaryTy op t).base = (Staged.binaryTy op (.prim t.base)).base := by
  unfold Staged.binaryTy
  split <;> simp [Ty.base]

theorem binary_result {op : SignalLang.BinaryOp} {p : Prim} (h : Staged.Stage.binaryAccepts op p = true)
    (hp : p = .bool ∨ p = .int ∨ p = .float) : ∃ instr, BinaryOp.select? op p = some instr ∧
      instr.result? p = some (Staged.binaryTy op (.prim p)).base := by
  rcases hp with rfl | rfl | rfl <;> cases op <;> first | exact ⟨_, rfl, rfl⟩ | cases h

theorem UnaryOp.result?_runtime {op : UnaryOp} {p q : Prim} (h : op.result? p = some q) :
    q = .bool ∨ q = .int ∨ q = .float := by
  cases op <;> cases p <;> cases h <;> simp

theorem BinaryOp.result?_runtime {op : BinaryOp} {p q : Prim} (h : op.result? p = some q) :
    q = .bool ∨ q = .int ∨ q = .float := by
  cases op <;> cases p <;> cases h <;> simp

/-- The type of a result can be held when its element can. -/
theorem storable_of_result {t u : Ty} (ht : t.Storable) (hd : u.dims = t.dims)
    (hb : u.base = .bool ∨ u.base = .int ∨ u.base = .float) : u.Storable := by
  refine ⟨(Ty.isRuntime_base u).symm.trans (Ty.isRuntime_prim.2 hb), fun d hmem => ht.positive d ?_⟩
  rw [← hd]
  exact hmem

/-- An operator that takes the common type of its operands has an instruction for it. -/
theorem storable_common {op : SignalLang.BinaryOp} {l r common : Ty} (h : Ty.biggest? l r = some common)
    (accepts : Staged.Stage.binaryAccepts op common.base = true) (hl : l.Storable) (hr : r.Storable) :
    (∃ instr, BinaryOp.select? op common.base = some instr ∧
      instr.result? common.base = some (Staged.binaryTy op common).base) ∧
    (Staged.binaryTy op common).Storable := by
  have c := Ty.isCommon_of_biggest? h
  have storable : common.Storable := hl.of_base c.left (c.positive hl.positive hr.positive)
  have runtime := Ty.isRuntime_prim.1 ((Ty.isRuntime_base common).trans storable.runtime)
  obtain ⟨instr, select, result⟩ := binary_result accepts runtime
  rw [← binaryTy_base] at result
  exact ⟨⟨instr, select, result⟩,
    storable_of_result storable (binaryTy_dims op common) (BinaryOp.result?_runtime result)⟩

/-! ## Expressions -/

theorem Effect.none_reading : Effect.none.Same (.reading []) := by
  simp [Same, none, touching]

theorem Effect.writing_touching (w : Prop) : (Effect.writing w).Same (.touching [] w) := by
  simp [Same, writing, touching]

/-- A step that only reads before another one. -/
theorem Lowers.reads {α β : Type} {ks ks' : List SlotId} {w : Prop} {m : Lower α} {f : α → Lower β}
    {Q : α → LowerState → Prop} {R : β → LowerState → Prop} {owed₁ owed₂ : List LabelId}
    (h : Lowers ctx owed owed₁ (.reading ks) m s Q)
    (hf : ∀ a s', s'.Sound ctx.source owed₁ → s.Grows s' → Q a s' →
      Lowers ctx owed₁ owed₂ (.touching ks' w) (f a) s' R) :
    Lowers ctx owed owed₂ (.touching (ks ++ ks') w) (m >>= f) s R := by
  refine (h.bind hf).congr ⟨fun k => ?_, ?_⟩
  · exact List.mem_append.symm
  · exact or_iff_right not_false

/-- One instruction for each coordinate, none of which writes an input. -/
theorem lowers_elementwise {dims : List Int} {f : List Int → Lower Unit}
    (h : ∀ c, InBounds c dims → ∀ s', s.Grows s' → Lowers ctx owed owed .none (f c) s' fun _ _ => True) :
    Lowers ctx owed owed .none ((coordinates dims).forM f) s fun _ _ => True :=
  Lowers.forM_writing False.elim fun c hc s' grows => h c (mem_coordinates.1 hc) s' grows

/-- Every variable of a staged program can be held. -/
def Held (p : Staged.Program) : Prop := ∀ v ∈ p.vars, v.ty.Storable

mutual

/-- The type of an expression can be held. -/
theorem storable_of_wellFormed (held : Held ctx.source) : (e : Staged.Expr) → e.WellFormed ctx.source.vars → e.LiteralsFit →
    e.ty.Storable
  | .literal value ty _, _, fit => Constant.HasTy.storable fit
  | .var id ty _, wf, _ => by
    obtain ⟨v, hv, rfl⟩ := Option.map_eq_some_iff.1 wf
    exact held v (Array.mem_of_getElem? hv)
  | .index base indexes ty _, wf, fit => by
    rw [Staged.Expr.WellFormed] at wf
    exact (wf.2.storable (storable_of_wellFormed held base wf.1 fit.1)).1
  | .collect items ty _, wf, fit => by
    rw [Staged.Expr.WellFormed] at wf
    obtain ⟨hne, t, rfl, hall⟩ := wf
    have length : 0 < (items.length : Int) := Int.natCast_pos.2 (List.length_pos_iff.2 hne)
    exact Ty.storable_array.2 ⟨length, storable_of_allOf held items hne hall fit⟩
  | .unary op a ty _, wf, fit => by
    rw [Staged.Expr.WellFormed] at wf
    obtain ⟨wa, accepts, rfl⟩ := wf
    have result := unary_result accepts
    rw [← unaryTy_base] at result
    exact storable_of_result (storable_of_wellFormed held a wa fit) (unaryTy_dims op a.ty)
      (UnaryOp.result?_runtime result)
  | .binary op l r ty _, wf, fit => by
    rw [Staged.Expr.WellFormed] at wf
    obtain ⟨wl, wr, common, hcommon, accepts, rfl⟩ := wf
    exact (storable_common hcommon accepts (storable_of_wellFormed held l wl fit.1)
      (storable_of_wellFormed held r wr fit.2)).2
  | .missing, wf, _ => wf.elim

/-- The common type of expressions can be held. -/
theorem storable_of_allOf (held : Held ctx.source) : (es : List Staged.Expr) → {t : Ty} → es ≠ [] →
    Staged.Expr.AllOf ctx.source.vars t es → Staged.Expr.AllFit es → t.Storable
  | [], _, hne, _, _ => (hne rfl).elim
  | e :: _, _, _, hall, fit => by
    rw [Staged.Expr.AllOf] at hall
    obtain ⟨we, rfl, -⟩ := hall
    exact storable_of_wellFormed held e we fit.1

end

mutual

/-- An expression becomes an operand that views all of a value of its type. -/
theorem lowers_expr (held : Held ctx.source) : (e : Staged.Expr) → {owed : List LabelId} → {s : LowerState} →
    e.WellFormed ctx.source.vars → e.LiteralsFit →
    Lowers ctx owed owed (.reading e.slots) (Lower.expr e) s fun o s' => o.IsWhole s'.out.vars s'.stream e.ty
  | .literal value ty _, owed, s, _, fit => by
    rw [Lower.expr]
    exact (Lowers.pure fun _ => Operand.isWhole_ofConstant fit).congr Effect.none_reading
  | .var id ty _, owed, s, wf, _ => by
    obtain ⟨v, hv, rfl⟩ := Option.map_eq_some_iff.1 wf
    rw [Lower.expr]
    refine (lowers_ofSlot hv (held v (Array.mem_of_getElem? hv))).mono ?_
    rintro _ s' - - ⟨id, rfl, holds, -⟩
    exact Operand.isWhole_ofVariable holds
  | .index base indexes ty _, owed, s, wf, fit => by
    rw [Staged.Expr.WellFormed] at wf
    rw [Staged.Expr.LiteralsFit] at fit
    rw [Lower.expr]
    refine .reads (lowers_expr held base wf.1 fit.1) fun o s₁ _ _ hbase => ?_
    obtain ⟨r, run, hr⟩ := constantIndexes?_ok wf.2 s₁
    refine .result_bind run ?_
    match r, hr with
    | some coord, hr =>
      obtain ⟨leads, none⟩ := hr coord rfl
      obtain ⟨o', runo, ho', -⟩ := Operand.at?_of_leads hbase leads
      rw [none]
      dsimp only
      rw [runo]
      exact (Lowers.pure fun _ => ho').congr Effect.none_reading
    | none, _ =>
      refine .quiet (lowers_addressable hbase) ?_
      rintro ⟨id, coord⟩ s₂ - grows₂ ⟨whole, holds, leads⟩
      dsimp only at holds leads ⊢
      refine .ending (lowers_indexOperands held indexes wf.2 fit.2) ?_
      rintro ops s₃ - grows₃ ⟨hlen, hops⟩
      have holds := grows₃.holds holds
      obtain ⟨hty, hb, hcount⟩ := wf.2.storable hbase.hasTy.storable
      refine .get_bind (.quiet (lowers_temp hty) ?_)
      rintro x s₄ - grows₄ ⟨hx, target⟩
      refine .quiet (lowers_elementwise fun c hc s₅ grows₅ => ?_) fun _ s₅ _ grows₅ _ =>
        .pure fun _ => grows₅.isWhole hx
      obtain ⟨y, runy, hy, hvar⟩ := Operand.at?_of_leads (grows₅.isWhole hx) (leads_of_inBounds hc)
      have place := (target.mono grows₅).of_var hvar
      refine .orBroken_bind runy ?_
      refine lowers_emit ⟨ty.base, ?_, place.isPlace hy⟩ (.refl _) (place.writes_iff rfl)
      have grows := grows₄.trans grows₅
      refine ⟨id, whole, coord.map .ofInt ++ ops ++ c.map .ofInt, rfl, grows.holds holds, ?_, rfl, ?_, ?_⟩
      · rw [hb]; exact leads.base_eq.symm
      · have := leads.length_add
        have := hc.length_eq
        simp only [List.length_append, List.length_map]
        omega
      · intro o ho
        rcases List.mem_append.1 ho with ho | ho
        · rcases List.mem_append.1 ho with ho | ho
          · obtain ⟨i, -, rfl⟩ := List.mem_map.1 ho
            exact Operand.isElement_ofInt i
          · exact grows.isWhole (hops o ho)
        · obtain ⟨i, -, rfl⟩ := List.mem_map.1 ho
          exact Operand.isElement_ofInt i
  | .collect items ty _, owed, s, wf, fit => by
    rw [Staged.Expr.WellFormed] at wf
    rw [Staged.Expr.LiteralsFit] at fit
    obtain ⟨hne, t, rfl, hall⟩ := wf
    rw [Lower.expr]
    have length : 0 < (items.length : Int) := Int.natCast_pos.2 (List.length_pos_iff.2 hne)
    have storable := Ty.storable_array.2 ⟨length, storable_of_allOf held items hne hall fit⟩
    refine .quiet (lowers_temp storable) ?_
    rintro x s₁ - - ⟨hx, target⟩
    refine .ending (lowers_collect held items (Nat.zero_add _) hall fit hx target) fun _ s₂ _ grows _ => ?_
    exact .pure fun _ => grows.isWhole hx
  | .unary op a ty _, owed, s, wf, fit => by
    rw [Staged.Expr.WellFormed] at wf
    obtain ⟨wa, accepts, rfl⟩ := wf
    rw [Lower.expr]
    refine .ending (lowers_expr held a wa fit) fun o s₁ _ _ whole => ?_
    have result := unary_result accepts
    rw [← unaryTy_base] at result
    have storable := storable_of_result whole.hasTy.storable (unaryTy_dims op a.ty) (UnaryOp.result?_runtime result)
    refine .quiet (lowers_temp storable) ?_
    rintro x s₂ - grows₂ ⟨hx, target⟩
    refine .quiet (lowers_elementwise fun c hc s₃ grows₃ => ?_) fun _ s₃ _ grows₃ _ => .pure fun _ => grows₃.isWhole hx
    obtain ⟨d, rund, hd, -⟩ := Operand.at?_of_leads ((grows₂.trans grows₃).isWhole whole)
      (leads_of_inBounds (by rw [← unaryTy_dims op]; exact hc))
    obtain ⟨y, runy, hy, hvar⟩ := Operand.at?_of_leads (grows₃.isWhole hx) (leads_of_inBounds hc)
    have place := (target.mono grows₃).of_var hvar
    refine .orBroken_bind rund (.orBroken_bind runy ?_)
    exact lowers_emit ⟨_, _, result, hd, place.isPlace hy⟩ (.refl _) (place.writes_iff rfl)
  | .binary op l r ty _, owed, s, wf, fit => by
    rw [Staged.Expr.WellFormed] at wf
    rw [Staged.Expr.LiteralsFit] at fit
    obtain ⟨wl, wr, common, hcommon, accepts, rfl⟩ := wf
    have c := Ty.isCommon_of_biggest? hcommon
    rw [Lower.expr]
    refine .reads (lowers_expr held l wl fit.1) fun a s₁ _ _ ha => ?_
    refine .ending (lowers_expr held r wr fit.2) fun b s₂ _ grows₂ hb => ?_
    have ha := grows₂.isWhole ha
    obtain ⟨⟨instr, select, result⟩, hty⟩ :=
      storable_common hcommon accepts ha.hasTy.storable hb.hasTy.storable
    rw [← c.left, select]
    refine .quiet (lowers_stretch ha (by rw [binaryTy_dims]; exact c.leftStretches)) ?_
    rintro a' s₃ - grows₃ ⟨ha', hla⟩
    refine .quiet (lowers_stretch (grows₃.isWhole hb) (by rw [binaryTy_dims]; exact c.rightStretches)) ?_
    rintro b' s₄ - grows₄ ⟨hb', hlb⟩
    refine .quiet (lowers_temp hty) ?_
    rintro x s₅ - grows₅ ⟨hx, target⟩
    refine .quiet (lowers_elementwise fun k hk s₆ grows₆ => ?_) fun _ s₆ _ grows₆ _ =>
      .pure fun _ => grows₆.isWhole hx
    have grows := grows₅.trans grows₆
    obtain ⟨u, runu, hu, -⟩ := Operand.at?_of_views ((grows₄.trans grows).views ha') (by rw [hla]; exact hk)
    obtain ⟨v, runv, hv, -⟩ := Operand.at?_of_views (grows.views hb') (by rw [hlb]; exact hk)
    obtain ⟨y, runy, hy, hvar⟩ := Operand.at?_of_leads (grows₆.isWhole hx) (leads_of_inBounds hk)
    have place := (target.mono grows₆).of_var hvar
    rw [← c.left] at hu
    rw [← c.right] at hv
    refine .orBroken_bind runu (.orBroken_bind runv (.orBroken_bind runy ?_))
    exact lowers_emit ⟨_, _, result, hu, hv, place.isPlace hy⟩ (.refl _) (place.writes_iff rfl)
  | .missing, _, _, wf, _ => wf.elim

/-- Indexes computed at run time become integers. -/
theorem lowers_indexOperands (held : Held ctx.source) : (es : List Staged.Expr) → {t u : Ty} → {owed : List LabelId} →
    {s : LowerState} → Staged.Expr.Selects ctx.source.vars es t u → Staged.Expr.AllFit es →
    Lowers ctx owed owed (.reading (Staged.Expr.slotsOf es)) (Lower.indexOperands es) s fun os s' =>
      os.length = es.length ∧ ∀ o ∈ os, o.IsElement s'.out.vars s'.stream .int
  | [], _, _, _, _, _, _ => by
    rw [Lower.indexOperands]
    exact (Lowers.pure fun _ => ⟨rfl, fun o ho => by cases ho⟩).congr Effect.none_reading
  | e :: es, t, u, owed, s, hs, fit => by
    rw [Staged.Expr.Selects] at hs
    obtain ⟨n, elem, rfl, we, int, -, hs⟩ := hs
    rw [Lower.indexOperands]
    refine .reads (lowers_expr held e we fit.1) fun o s₁ _ _ whole => ?_
    rw [int] at whole
    have element : o.IsElement s₁.out.vars s₁.stream .int := whole
    rw [if_pos element.isScalar]
    refine .ending (lowers_indexOperands held es hs fit.2) ?_
    rintro os s₂ - grows ⟨hlen, hos⟩
    refine .pure fun _ => ⟨congrArg (· + 1) hlen, fun o' ho' => ?_⟩
    rcases List.mem_cons.1 ho' with rfl | ho'
    · exact grows.isWhole element
    · exact hos o' ho'

/-- Items fill the elements of an array from an index on. -/
theorem lowers_collect (held : Held ctx.source) : (es : List Staged.Expr) → {t : Ty} → {n i : Nat} → {x : Operand} →
    {owed : List LabelId} → {s : LowerState} → i + es.length = n → Staged.Expr.AllOf ctx.source.vars t es →
    Staged.Expr.AllFit es → x.IsWhole s.out.vars s.stream (.array n t) → s.IsTarget x False →
    Lowers ctx owed owed (.reading (Staged.Expr.slotsOf es)) (Lower.collect x i es) s fun _ _ => True
  | [], _, _, _, _, _, _, _, _, _, _, _ => by
    rw [Lower.collect]
    exact (Lowers.pure fun _ => trivial).congr Effect.none_reading
  | e :: es, t, n, i, x, owed, s, hn, hall, fit, hx, target => by
    rw [Staged.Expr.AllOf] at hall
    obtain ⟨we, rfl, hall⟩ := hall
    rw [List.length_cons] at hn
    rw [Lower.collect]
    refine .reads (lowers_expr held e we fit.1) fun o s₁ _ grows₁ whole => ?_
    obtain ⟨y, runy, hy, hvar⟩ := (grows₁.isWhole hx).index ⟨Int.natCast_nonneg i, by omega⟩
    have place := (target.mono grows₁).of_var hvar
    refine .orBroken_bind runy ?_
    refine .quiet (lowers_copyInto whole hy place (stretches_refl _) rfl) fun _ s₂ _ grows₂ _ => ?_
    have grows := grows₁.trans grows₂
    exact lowers_collect held es (by omega) hall fit.2 (grows.isWhole hx) (target.mono grows)

end

/-! ## Statements -/

/-- An assignment writes an input if its target is one. -/
theorem lowers_assign (held : Held ctx.source) {target : Staged.Target} {value : Staged.Expr} {span : Span}
    (wf : (Staged.Stmt.assign target value span).WellFormed ctx.source.vars)
    (fit : Staged.Expr.AllFit (target.indexes ++ [value])) :
    Lowers ctx owed owed
      (.touching ([target.var] ++ Staged.Expr.slotsOf (target.indexes ++ [value]))
        (target.var ∈ ctx.source.inputs))
      (Lower.assign target value) s fun _ _ => True := by
  obtain ⟨wvalue, promotes, v, hv, selects⟩ := wf
  have common := Ty.isCommon_of_promotesTo promotes
  have hvar := held v (Array.mem_of_getElem? hv)
  obtain ⟨fit, fitValue, -⟩ := Staged.Expr.allFit_append.1 fit
  rw [Staged.Expr.slotsOf_append, Lower.assign]
  refine .reads (lowers_ofSlot hv hvar) ?_
  rintro _ s₁ - - ⟨id, rfl, holds, input⟩
  have hwhole := Operand.isWhole_ofVariable holds
  have htarget : s₁.IsTarget (.ofVariable id (some v.ty)) (target.var ∈ ctx.source.inputs) := ⟨id, rfl, input⟩
  obtain ⟨r, run, hr⟩ := constantIndexes?_ok selects s₁
  refine .result_bind run ?_
  match r, hr with
  | some coord, hr =>
    obtain ⟨leads, none⟩ := hr coord rfl
    rw [none, List.nil_append]
    refine .reads (lowers_expr held value wvalue fitValue) fun o s₂ _ grows₂ whole => ?_
    obtain ⟨y, runy, hy, hvar⟩ := Operand.at?_of_leads (grows₂.isWhole hwhole) leads
    refine .orBroken_bind runy (Lowers.congr (Effect.writing_touching _) ?_)
    exact lowers_copyInto whole hy ((htarget.mono grows₂).of_var hvar) common.leftStretches common.left.symm
  | none, _ =>
    refine .reads (lowers_indexOperands held target.indexes selects fit) ?_
    rintro ops s₂ - grows₂ ⟨hlen, hops⟩
    refine .reads (lowers_expr held value wvalue fitValue) fun o s₃ _ grows₃ whole => ?_
    refine .quiet (lowers_stretch whole common.leftStretches) ?_
    rintro o' s₄ - grows₄ ⟨ho', hl⟩
    obtain ⟨hty, hb, hcount⟩ := selects.storable hvar
    refine Lowers.congr (Effect.writing_touching _)
      (.forM_writing (fun _ => coordinates_ne_nil hty.positive) fun c hc s₅ grows₅ => ?_)
    have hc := mem_coordinates.1 hc
    obtain ⟨y, runy, hy, -⟩ := Operand.at?_of_views (grows₅.views ho') (by rw [hl]; exact hc)
    have grows := (grows₂.trans grows₃).trans (grows₄.trans grows₅)
    refine .orBroken_bind runy ?_
    refine lowers_emit ⟨value.ty.base, hy, ?_⟩ (.refl _) ((htarget.mono grows).writes_iff rfl)
    refine ⟨id, v.ty, ops ++ c.map .ofInt, rfl, grows.holds holds, ?_, rfl, ?_, ?_⟩
    · rw [← hb, common.left]
    · have := hc.length_eq
      simp only [List.length_append, List.length_map]
      omega
    · intro x hx
      rcases List.mem_append.1 hx with hx | hx
      · exact (grows₃.trans (grows₄.trans grows₅)).isWhole (hops x hx)
      · obtain ⟨i, -, rfl⟩ := List.mem_map.1 hx
        exact Operand.isElement_ofInt i

/-- Emits an instruction that writes nothing; a label it places is owed no longer. -/
theorem lowers_emit_control {owed₁ : List LabelId} {i : Instr}
    (typed : i.Typed s.out.vars s.stream s.labels s.out.errors.size) (none : i.target? = none)
    (hp : owed.Perm (i.label?.toList ++ owed₁)) :
    Lowers ctx owed owed₁ .none (Lower.emit i) s fun _ _ => True := by
  refine lowers_emit typed hp (iff_false_intro ?_)
  rintro ⟨o, ho, -⟩
  rw [none] at ho
  cases ho

/-- An assertion has an entry of its own in the error table, and two labels. -/
theorem lowers_assertion (held : Held ctx.source) {condition : Staged.Expr} {span : Span}
    (wf : condition.WellFormed ctx.source.vars) (bool : condition.ty = .bool) (fit : condition.LiteralsFit) :
    Lowers ctx owed owed (.reading condition.slots) (Lower.assertion condition span) s fun _ _ => True := by
  rw [Lower.assertion]
  refine .ending (lowers_expr held condition wf fit) fun o s₁ _ _ whole => ?_
  rw [bool] at whole
  refine .quiet lowers_label ?_
  rintro abort s₂ - grows₂ ⟨rfl, habort⟩
  refine .quiet lowers_label ?_
  rintro skip s₃ - grows₃ ⟨rfl, hskip⟩
  have element : o.IsElement s₃.out.vars s₃.stream .bool := (grows₂.trans grows₃).isWhole whole
  have habort := Nat.lt_of_lt_of_le habort grows₃.labels
  refine .quiet (lowers_emit_control ⟨element, hskip, habort⟩ rfl (.refl _)) fun _ s₄ _ _ _ => ?_
  refine .quiet (lowers_emit_control trivial rfl (.swap _ _ _)) fun _ s₅ _ _ _ => ?_
  refine .get_bind (.read_bind (.quiet lowers_addError fun _ s₆ _ _ more => ?_))
  refine .quiet (lowers_emit_control ⟨Int.natCast_nonneg _, Int.ofNat_lt.2 more⟩ rfl (.refl _))
    fun _ s₇ _ _ _ => ?_
  exact lowers_emit_control trivial rfl (.refl _)

/-- What a scope does. -/
def Effect.ofScope (p : Staged.Program) (i : ScopeId) : Effect :=
  ⟨p.Mentions i, ∃ k ∈ p.inputs, p.Assigns i k⟩

/-- What any of several parts does. -/
def Effect.any {α : Type} (xs : List α) (f : α → Effect) : Effect :=
  ⟨fun k => ∃ x ∈ xs, (f x).uses k, ∃ x ∈ xs, (f x).writes⟩

/-- What a statement does: itself, and in the scopes it runs. -/
def Effect.ofStmt (p : Staged.Program) (st : Staged.Stmt) : Effect :=
  (touching st.slots (∃ k ∈ p.inputs, st.target? = some k)).seq (any st.scopes (ofScope p))

/-- Flattening of scopes does what the scopes do. -/
def LowersScopes (ctx : LowerContext) (scope : ScopeId → Lower Unit) (js : List ScopeId) : Prop :=
  ∀ j ∈ js, ∀ owed s, Lowers ctx owed owed (.ofScope ctx.source j) (scope j) s fun _ _ => True

/-- Clauses jump to a label that is owed by the branch. -/
theorem lowers_clauses (held : Held ctx.source) {scope : ScopeId → Lower Unit} {done : LabelId}
    {cs : List Staged.Clause} (hdone : done ∈ owed)
    (wf : ∀ c ∈ cs, c.condition.WellFormed ctx.source.vars ∧ c.condition.ty = .bool)
    (fit : Staged.Expr.AllFit (cs.map (·.condition))) (hscope : LowersScopes ctx scope (cs.map (·.body))) :
    Lowers ctx owed owed
      ((Effect.reading (Staged.Expr.slotsOf (cs.map (·.condition)))).seq
        (.any (cs.map (·.body)) (.ofScope ctx.source)))
      (Lower.clauses scope done cs) s fun _ _ => True := by
  induction cs generalizing s with
  | nil =>
    rw [Lower.clauses]
    exact (Lowers.pure fun _ => trivial).congr
      (by simp [Effect.Same, Effect.none, Effect.seq, Effect.touching, Effect.any, Staged.Expr.slotsOf])
  | cons c cs ih =>
    rw [Lower.clauses]
    obtain ⟨wc, bool⟩ := wf c List.mem_cons_self
    let rest := (Effect.reading (Staged.Expr.slotsOf (cs.map (·.condition)))).seq
      (.any (cs.map (·.body)) (.ofScope ctx.source))
    have same : ((Effect.reading c.condition.slots).seq ((Effect.ofScope ctx.source c.body).seq rest)).Same
        ((Effect.reading (Staged.Expr.slotsOf ((c :: cs).map (·.condition)))).seq
          (.any ((c :: cs).map (·.body)) (.ofScope ctx.source))) := by
      simp only [rest, Effect.Same, Effect.seq, Effect.touching, Effect.any, List.map_cons,
        Staged.Expr.slotsOf, List.mem_append, List.mem_cons, exists_eq_or_imp]
      grind
    refine Lowers.congr same (.bind (lowers_expr held c.condition wc fit.1) fun o s₁ _ _ whole => ?_)
    rw [bool] at whole
    refine .quiet lowers_label ?_
    rintro body s₂ - grows₂ ⟨rfl, hbody⟩
    refine .quiet lowers_label ?_
    rintro next s₃ - grows₃ ⟨rfl, hnext⟩
    have element : o.IsElement s₃.out.vars s₃.stream .bool := (grows₂.trans grows₃).isWhole whole
    have hbody := Nat.lt_of_lt_of_le hbody grows₃.labels
    refine .quiet (lowers_emit_control ⟨element, hbody, hnext⟩ rfl (.refl _)) fun _ s₄ _ _ _ => ?_
    refine .quiet (lowers_emit_control trivial rfl (.swap _ _ _)) fun _ s₅ _ _ _ => ?_
    refine .bind (hscope c.body List.mem_cons_self _ s₅) fun _ s₆ sound₆ _ _ => ?_
    have target : done < s₆.labels :=
      (sound₆.placed done).1 (List.mem_append_right _ (List.mem_cons_of_mem _ hdone))
    refine .quiet (lowers_emit_control target rfl (.refl _)) fun _ s₇ _ _ _ => ?_
    refine .quiet (lowers_emit_control trivial rfl (.refl _)) fun _ s₈ _ _ _ => ?_
    exact ih (fun d hd => wf d (List.mem_cons_of_mem _ hd)) fit.2
      fun j hj => hscope j (List.mem_cons_of_mem _ hj)

theorem lowers_branch (held : Held ctx.source) {scope : ScopeId → Lower Unit} {cs : List Staged.Clause}
    {otherwise : Option ScopeId}
    (wf : ∀ c ∈ cs, c.condition.WellFormed ctx.source.vars ∧ c.condition.ty = .bool)
    (fit : Staged.Expr.AllFit (cs.map (·.condition)))
    (hscope : LowersScopes ctx scope (cs.map (·.body) ++ otherwise.toList)) :
    Lowers ctx owed owed
      ((Effect.reading (Staged.Expr.slotsOf (cs.map (·.condition)))).seq
        (.any (cs.map (·.body) ++ otherwise.toList) (.ofScope ctx.source)))
      (Lower.branch scope cs otherwise) s fun _ _ => True := by
  rw [Lower.branch]
  refine .quiet lowers_label ?_
  rintro done s₁ - - ⟨rfl, -⟩
  have first := @lowers_clauses ctx (s.labels :: owed) s₁ held scope s.labels cs List.mem_cons_self wf fit
    fun j hj => hscope j (List.mem_append_left _ hj)
  have last (s₂ : LowerState) : Lowers ctx (s.labels :: owed) owed .none (Lower.emit (.label s.labels)) s₂
      fun _ _ => True := lowers_emit_control trivial rfl (.refl _)
  match otherwise, hscope with
  | none, _ =>
    rw [Option.toList_none, List.append_nil]
    exact .ending first fun _ s₂ _ _ _ => last s₂
  | some body, hscope =>
    have run := Lowers.bind first fun _ s₂ _ _ _ => Lowers.ending
      (hscope body (List.mem_append_right _ List.mem_cons_self) _ s₂) fun _ s₃ _ _ _ => last s₃
    refine run.congr ⟨fun k => ?_, ?_⟩
    · simp only [Effect.seq, Effect.any, List.mem_append, Option.mem_toList, Option.some.injEq]
      grind
    · simp only [Effect.seq, Effect.any, List.mem_append, Option.mem_toList, Option.some.injEq]
      grind

/-- A loop writes an input if its counter is one or its body does. -/
theorem lowers_loop (held : Held ctx.source) {scope : ScopeId → Lower Unit} {counter : SlotId}
    {start stop : Staged.Expr} {body : ScopeId} {span : Span}
    (wf : (Staged.Stmt.loop counter start stop body span).WellFormed ctx.source.vars)
    (fit : Staged.Expr.AllFit [start, stop]) (hscope : LowersScopes ctx scope [body]) :
    Lowers ctx owed owed
      ((Effect.touching ([counter] ++ (start.slots ++ (stop.slots ++ []))) (counter ∈ ctx.source.inputs)).seq
        (.ofScope ctx.source body))
      (Lower.loop scope counter start stop body) s fun _ _ => True := by
  obtain ⟨hcounter, ⟨wstart, intStart⟩, wstop, intStop⟩ := wf
  obtain ⟨v, hv, int⟩ := Option.map_eq_some_iff.1 hcounter
  let w := counter ∈ ctx.source.inputs
  have same : ((Effect.reading [counter]).seq ((Effect.reading start.slots).seq ((Effect.reading stop.slots).seq
      ((Effect.writing w).seq ((Effect.ofScope ctx.source body).seq (.writing w)))))).Same
      ((Effect.touching ([counter] ++ (start.slots ++ (stop.slots ++ []))) w).seq
        (.ofScope ctx.source body)) := by
    simp only [Effect.Same, Effect.seq, Effect.touching, Effect.writing, List.mem_append, List.mem_singleton,
      List.not_mem_nil]
    grind
  rw [Lower.loop]
  refine .quiet lowers_label ?_
  rintro again s₁ - grows₁ ⟨rfl, hagain⟩
  refine .quiet lowers_label ?_
  rintro done s₂ - grows₂ ⟨rfl, hdone⟩
  have hagain := Nat.lt_of_lt_of_le hagain grows₂.labels
  refine Lowers.congr same (.bind (lowers_ofSlot hv (held v (Array.mem_of_getElem? hv))) ?_)
  rintro x s₃ - grows₃ ⟨id, rfl, holds, input⟩
  have hx := Operand.isWhole_ofVariable holds
  have target : s₃.IsTarget (.ofVariable id (some v.ty)) w := ⟨id, rfl, input⟩
  rw [int] at hx target ⊢
  refine .bind (lowers_expr held start wstart fit.1) fun a s₄ _ grows₄ ha => ?_
  refine .bind (lowers_expr held stop wstop fit.2.1) fun b s₅ _ grows₅ hb => ?_
  rw [intStart] at ha
  rw [intStop] at hb
  have target := target.mono (grows₄.trans grows₅)
  have hx := (grows₄.trans grows₅).isWhole hx
  refine .bind (lowers_emit ⟨.int, grows₅.isWhole ha, target.isPlace hx⟩ (.refl _) (target.writes_iff rfl))
    fun _ s₆ _ grows₆ _ => ?_
  refine .quiet (lowers_temp (Ty.storable_prim.2 (.inl rfl))) ?_
  rintro y s₇ - grows₇ ⟨hy, temp⟩
  have grows := grows₆.trans grows₇
  have hlabels := Nat.le_trans (grows₃.trans grows₄).labels (Nat.le_trans grows₅.labels grows.labels)
  have hagain := Nat.lt_of_lt_of_le hagain hlabels
  have hdone := Nat.lt_of_lt_of_le hdone hlabels
  have hx := grows.isWhole hx
  have hb := grows.isWhole hb
  have target := target.mono grows
  -- The test stands twice, and means the same in every later state.
  have test {owed : List LabelId} {t : LowerState} (later : s₇.Grows t) : Lowers ctx owed owed .none (do
      Lower.emit (.binary (.compareI .lt) (.ofVariable id (some .int)) b y)
      Lower.emit (.branch y s.labels s₁.labels)) t fun _ _ => True := by
    have place := temp.mono later
    refine .quiet (lowers_emit ⟨.int, .bool, rfl, later.isWhole hx, later.isWhole hb,
      place.isPlace (later.isWhole hy)⟩ (.refl _) (place.writes_iff rfl)) fun _ t' _ later' _ => ?_
    have all := later.trans later'
    exact lowers_emit_control ⟨all.isWhole hy, Nat.lt_of_lt_of_le hagain all.labels,
      Nat.lt_of_lt_of_le hdone all.labels⟩ rfl (.refl _)
  refine .quiet (test (.refl _)) fun _ s₈ _ grows₈ _ => ?_
  refine .quiet (lowers_emit_control trivial rfl (.swap _ _ _)) fun _ s₉ _ grows₉ _ => ?_
  refine .bind (hscope body List.mem_cons_self _ s₉) fun _ s₁₀ _ grows₁₀ _ => ?_
  have later := (grows₈.trans grows₉).trans grows₁₀
  have place := target.mono later
  have hx' := later.isWhole hx
  refine .ending (lowers_emit ⟨.int, .int, rfl, hx', Operand.isElement_ofInt 1, place.isPlace hx'⟩ (.refl _)
    (place.writes_iff rfl)) fun _ s₁₁ _ grows₁₁ _ => ?_
  refine .quiet (test (later.trans grows₁₁)) fun _ s₁₂ _ _ _ => ?_
  exact lowers_emit_control trivial rfl (.refl _)

/-- A statement does what it says, itself and in its scopes. -/
theorem lowers_stmt (held : Held ctx.source) {scope : ScopeId → Lower Unit} {st : Staged.Stmt}
    (wf : st.WellFormed ctx.source.vars) (fit : Staged.Expr.AllFit st.exprs)
    (hscope : LowersScopes ctx scope st.scopes) :
    Lowers ctx owed owed (.ofStmt ctx.source st) (Lower.stmt scope st) s fun _ _ => True := by
  cases st with
  | assign target value span =>
    refine (lowers_assign held wf fit).congr ?_
    simp [Effect.Same, Effect.ofStmt, Effect.seq, Effect.touching, Effect.any, Staged.Stmt.slots,
      Staged.Stmt.target?, Staged.Stmt.scopes, Staged.Stmt.exprs]
  | assert condition span =>
    refine (lowers_assertion held wf.1 wf.2 fit.1).congr ?_
    simp [Effect.Same, Effect.ofStmt, Effect.seq, Effect.touching, Effect.any, Staged.Stmt.slots,
      Staged.Stmt.target?, Staged.Stmt.scopes, Staged.Stmt.exprs, Staged.Expr.slotsOf]
  | branch cs otherwise span =>
    refine (lowers_branch held wf fit hscope).congr ?_
    simp [Effect.Same, Effect.ofStmt, Effect.seq, Effect.touching, Effect.any, Staged.Stmt.slots,
      Staged.Stmt.target?, Staged.Stmt.scopes, Staged.Stmt.exprs]
  | loop counter start stop body span =>
    refine (lowers_loop held wf fit hscope).congr ?_
    simp [Effect.Same, Effect.ofStmt, Effect.seq, Effect.touching, Effect.any, Staged.Stmt.slots,
      Staged.Stmt.target?, Staged.Stmt.scopes, Staged.Stmt.exprs, Staged.Expr.slotsOf]
  | inlined body span =>
    refine (hscope body List.mem_cons_self _ s).congr ?_
    simp [Effect.Same, Effect.ofStmt, Effect.seq, Effect.touching, Effect.any, Staged.Stmt.slots,
      Staged.Stmt.target?, Staged.Stmt.scopes, Staged.Stmt.exprs, Staged.Expr.slotsOf]
  | missing => exact wf.elim

/-! ## Scopes -/

/-- Something holds of a statement that a scope runs if it holds of one that stands there, or of one that a
scope inside runs. -/
theorem within_exists_iff {p : Staged.Program} {i : ScopeId} {P : Staged.Stmt → Prop} :
    (∃ st, p.Within i st ∧ P st) ↔
      ∃ st ∈ p.scope i, P st ∨ ∃ j ∈ st.scopes, ∃ inner, p.Within j inner ∧ P inner := by
  constructor
  · rintro ⟨st, within, h⟩
    cases within with
    | here mem => exact ⟨st, mem, .inl h⟩
    | inner mem enters rest => exact ⟨_, mem, .inr ⟨_, enters, st, rest, h⟩⟩
  · rintro ⟨st, mem, h | ⟨j, enters, inner, rest, h⟩⟩
    · exact ⟨st, .here mem, h⟩
    · exact ⟨inner, .inner mem enters rest, h⟩

/-- A scope does what its statements do. -/
theorem Effect.any_ofStmt (p : Staged.Program) (i : ScopeId) :
    (any (p.scope i).toList (ofStmt p)).Same (ofScope p i) := by
  constructor
  · intro k
    refine Iff.trans ?_ within_exists_iff.symm
    simp only [any, ofStmt, seq, touching, ofScope, Array.mem_toList_iff]
    exact Iff.rfl
  · have writes (j : ScopeId) : (ofScope p j).writes ↔
        ∃ st, p.Within j st ∧ ∃ k ∈ p.inputs, st.target? = some k := by
      constructor
      · rintro ⟨k, hk, st, hst, h⟩
        exact ⟨st, hst, k, hk, h⟩
      · rintro ⟨st, hst, k, hk, h⟩
        exact ⟨k, hk, st, hst, h⟩
    refine Iff.trans ?_ (within_exists_iff.symm.trans (writes i).symm)
    simp only [any, ofStmt, seq, touching, Array.mem_toList_iff, writes]

theorem Lowers.forM_any {α : Type} {xs : List α} {f : α → Lower Unit} {effect : α → Effect}
    (h : ∀ x ∈ xs, ∀ s, Lowers ctx owed owed (effect x) (f x) s fun _ _ => True) :
    Lowers ctx owed owed (.any xs effect) (xs.forM f) s fun _ _ => True := by
  induction xs generalizing s with
  | nil => exact (Lowers.pure fun _ => trivial).congr (by simp [Effect.Same, Effect.none, Effect.any])
  | cons x xs ih =>
    show Lowers ctx owed owed _ (f x >>= fun _ => xs.forM f) s _
    have same : ((effect x).seq (.any xs effect)).Same (.any (x :: xs) effect) := by
      simp [Effect.Same, Effect.seq, Effect.any]
    exact (Lowers.bind (h x List.mem_cons_self s) fun _ s' _ _ _ =>
      ih fun y hy => h y (List.mem_cons_of_mem _ hy)).congr same

/-- A scope is flattened with what it runs. Inner scopes have greater numbers, so the fuel suffices. -/
theorem lowers_scope (held : Held ctx.source) (wf : ctx.source.WellFormed) {fuel : Nat} {i : ScopeId}
    (hi : i < ctx.source.scopes.size) (hfuel : ctx.source.scopes.size < fuel + i)
    (fit : ∀ st, ctx.source.Within i st → Staged.Expr.AllFit st.exprs) :
    Lowers ctx owed owed (.ofScope ctx.source i) (Lower.scope fuel i) s fun _ _ => True := by
  induction fuel generalizing i owed s with
  | zero =>
    rw [Nat.zero_add] at hfuel
    exact (Nat.lt_asymm hi hfuel).elim
  | succ fuel ih =>
    rw [Lower.scope]
    have found : ctx.source.scopes[i]? = some (ctx.source.scope i) := by
      rw [Staged.Program.scope, Array.getD_eq_getD_getElem?, Array.getElem?_eq_getElem hi]
      rfl
    refine .read_bind (.orBroken_bind found ?_)
    refine (Lowers.forM_any fun st hst s' => ?_).congr (Effect.any_ofStmt _ i)
    have mem : st ∈ ctx.source.scope i := Array.mem_toList_iff.1 hst
    refine lowers_stmt held (wf.stmts i st mem) (fit st (.here mem)) fun j hj owed s => ?_
    obtain ⟨later, exists'⟩ := wf.nested i st mem j hj
    have less : fuel + 1 + i ≤ fuel + j := by
      rw [Nat.add_assoc, Nat.add_comm 1]
      exact Nat.add_le_add_left later fuel
    exact ih exists' (Nat.lt_of_lt_of_le hfuel less) fun inner hinner => fit inner (.inner mem hj hinner)

end SignalLang.Flat
