import SignalLang.Proofs.Flat.Straight

/-!
# Expressions compute their values

The instructions that flattening emits for an expression write to temporaries only, and the operand they leave is the
value of the expression, element by element (`lower_expr_correct`). The induction is over the expression;
`passes_fill` is the loop that fills a temporary, and `runs_copyInto` the one that copies.
-/

namespace SignalLang.Flat

open Staged (SlotId)
open Steps LowerState
open Operand (Denotes)

variable {p : Program} {ops : Operators} {ctx : LowerContext} {owed owed' : List LabelId} {s s' s₁ s₂ u : LowerState}
  {σ σ' : Store p}

/-! ## Steps that ended -/

/-- What a specified step has done when it ended. -/
theorem Lowers.of_ok {α : Type} {e : Effect} {m : Lower α} {Q : α → LowerState → Prop} {a : α}
    (h : Lowers ctx owed owed' e m s Q) (sound : s.Sound ctx.source owed) (run : m ctx s = .ok (a, s')) :
    s'.Sound ctx.source owed' ∧ s.Grows s' ∧ Q a s' := by
  by_cases barred : ∃ k, e.uses k ∧ s.Bars k
  · obtain ⟨err, fails⟩ := (h sound).2 barred
    rw [fails] at run
    cases run
  · obtain ⟨b, t, run', sound', grows, -, q⟩ := (h sound).1 fun k hk hb => barred ⟨k, hk, hb⟩
    rw [run] at run'
    cases run'
    exact ⟨sound', grows, q⟩

theorem LowerState.Sound.made (sound : s.Sound ctx.source owed) {k : SlotId} {id : VarId} (h : s.var? k = some id) :
    id < s.out.vars.size := by
  obtain ⟨v, -, ⟨-, l, found, -⟩, -⟩ := sound.slots k id h
  exact (Array.getElem?_eq_some_iff.1 found).1

theorem HoldsTy.lt {vars : Array Variable} {st : Stream} {id : VarId} {t : Ty} (h : HoldsTy vars st id t) :
    id < vars.size := by
  obtain ⟨-, l, found, -⟩ := h
  exact (Array.getElem?_eq_some_iff.1 found).1

/-- The operand that is all of a slot views the variable of the slot. -/
theorem ofSlot_ok {k : SlotId} {v : Staged.Variable} {o : Operand} (hv : ctx.source.vars[k]? = some v)
    (held : v.ty.Storable) (sound : s.Sound ctx.source owed) (run : Lower.ofSlot k ctx s = .ok (o, s')) :
    ∃ id, o = .ofVariable id (some v.ty) ∧ HoldsTy s'.out.vars s'.stream id v.ty ∧ s'.var? k = some id ∧
      s'.code = s.code := by
  obtain ⟨-, -, id, rfl, holds, -⟩ := (lowers_ofSlot hv held).of_ok sound run
  obtain ⟨t, t', got, run⟩ := bind_ok.1 run
  obtain ⟨rfl, rfl⟩ := get_ok.1 got
  rcases ite_ok.1 run with ⟨-, run⟩ | ⟨-, run⟩
  · cases run
  obtain ⟨id', s₁, at', run⟩ := bind_ok.1 run
  obtain ⟨t, t', got, run⟩ := bind_ok.1 run
  obtain ⟨rfl, rfl⟩ := get_ok.1 got
  obtain ⟨same, rfl⟩ := pure_ok.1 run
  obtain rfl : id' = id := by
    have := congrArg Operand.viewed same
    cases this
    rfl
  refine ⟨id', rfl, holds, ?_⟩
  cases old : s.var? k with
  | some id =>
    rw [variableAt_old old] at at'
    cases at'
    exact ⟨old, rfl⟩
  | none =>
    rw [variableAt_new old hv] at at'
    cases at'
    have inside : k < s.slots.size := by
      rw [sound.size]
      exact (Array.getElem?_eq_some_iff.1 hv).1
    exact ⟨(var?_give inside _ k).trans (if_pos rfl), Program.stream_addVariable ..⟩

/-- A new variable is a temporary. -/
theorem newVariable_ok {ty : Ty} {l : Location} {id : VarId} (sound : s.Sound ctx.source owed)
    (run : Lower.newVariable ty l ctx s = .ok (id, s')) :
    id = s.out.vars.size ∧ s'.code = s.code ∧ s.Temporary s' id := by
  cases run
  refine ⟨rfl, Program.stream_addVariable .., Nat.le_refl _, ?_, fun k hk => ?_⟩
  · show _ < (s.out.vars.push _).size
    rw [Array.size_push]
    exact Nat.lt_succ_self _
  · exact Nat.lt_irrefl _ (sound.made hk)

theorem temp_ok {ty : Ty} {x : Operand} (sound : s.Sound ctx.source owed)
    (run : Lower.temp ty ctx s = .ok (x, s')) :
    ∃ id, x = .ofVariable id (some ty) ∧ id = s.out.vars.size ∧ s'.code = s.code ∧ s.Temporary s' id := by
  obtain ⟨t, t', got, run⟩ := bind_ok.1 run
  obtain ⟨rfl, rfl⟩ := get_ok.1 got
  obtain ⟨id, t, made, run⟩ := bind_ok.1 run
  obtain ⟨rfl, rfl⟩ := pure_ok.1 run
  exact ⟨id, rfl, newVariable_ok sound made⟩

/-! ## Loops over coordinates -/

/-- A loop that emits a write to every element of a new variable. -/
theorem passes_fill {ty : Ty} {id : VarId} {f : List Int → Lower Unit} {v : List Int → Scalar}
    (temporary : s.Temporary s₁ id) (code : s₁.code = s.code) (follows : s.Follows s₁)
    (holds : HoldsTy s₁.out.vars s₁.stream id ty)
    (each : ∀ c, InBounds c ty.dims → ∃ i, f c = Lower.emit i ∧ ∀ σ' : Store p, (∀ e, e.var ≠ id → σ' e = σ e) →
      ∀ e, p.element? id c = some e → i.outcome? ops σ' = some (.write e (v c)))
    (run : (coordinates ty.dims).forM f ctx s₁ = .ok ((), s₂)) (later : s₁.Follows s₂) (cont : p.Continues s₂) :
    ∃ σ', Passes p ops s s₂ σ σ' ∧ (Operand.ofVariable id (some ty)).Denotes σ' ty.dims v := by
  have here := cont.before later
  obtain ⟨ws, reaches, vars⟩ := runs_puts (p := p) ops id (fun c => c) (fun c _ => v c)
    (fun _ σ' => ∀ e, e.var ≠ id → σ' e = σ e) (σ := σ) (fun c rest suffix => by
      have hc := suffix.mem List.mem_cons_self
      obtain ⟨i, emits, effect⟩ := each c (mem_coordinates.1 hc)
      refine ⟨i, emits, fun σ' off => ⟨fun e he => ?_, ?_⟩⟩
      · rw [Store.put_of_ne _ fun h => (he h).elim]
        exact off e he
      · obtain ⟨e, found⟩ := here.exists_element holds (mem_coordinates.1 hc)
        obtain ⟨var, coord⟩ := Program.element?_eq_some.1 found
        exact ⟨e, effect σ' off e found, var, coord⟩) run cont fun _ _ => rfl
  obtain ⟨inside, -⟩ := foldl_put (p := p) id (fun c => c) (fun c _ => v c)
    ((coordinates_sorted ty.dims).imp fun {c c'} lt => ⟨fun same => by
      subst same
      exact List.lt_irrefl _ lt, fun _ => rfl⟩) σ
  have passes : Passes p ops s s₂ σ _ :=
    (Passes.still σ code).append reaches (fun w hw => vars w hw ▸ temporary.after later) follows later
  refine ⟨_, passes, fun c hc => ?_⟩
  obtain ⟨e, found⟩ := here.exists_element holds hc
  obtain ⟨var, coord⟩ := Program.element?_eq_some.1 found
  rw [Operand.ofVariable, Option.elim_some, Operand.at?_variable hc, Option.bind_some, Operand.read?_element,
    Store.get?, List.nil_append, found, Option.map_some, inside e var c (mem_coordinates.2 hc) coord]

/-! ## Copies -/

/-- The element of an operand at a coordinate. -/
def Operand.valueAt (σ : Store p) (o : Operand) (c : List Int) : Scalar := ((o.at? c).bind (·.read? σ)).getD default

theorem Operand.valueAt_eq {o y : Operand} {c : List Int} (found : o.at? c = some y) :
    o.valueAt σ c = (y.read? σ).getD default := by
  rw [valueAt, found, Option.bind_some]

/-- A stretched operand is seen at the elements that its coordinates read. -/
theorem Operand.exists_stretch {o : Operand} {t : Ty} {ns : List Int} (h : o.IsWhole s.out.vars s.stream t)
    (hs : Stretches t.dims ns) : ∃ o', o.stretch ns = .ok o' ∧ ∀ c, InBounds c ns → ∃ y, o'.at? c = some y ∧
      o.at? (broadcast c t.dims) = some y ∧ y.IsElement s.out.vars s.stream t.base := by
  obtain ⟨o', stretched, -⟩ := Operand.stretch_ok h hs
  refine ⟨o', stretched, fun c hc => ?_⟩
  obtain ⟨y, found, element, -⟩ := h.at?_element (hc.broadcast hs)
  obtain ⟨v, ds⟩ := o
  obtain rfl : ds = Operand.whole t := h.dims
  obtain ⟨ds, dims, rfl⟩ := Operand.stretch_eq_ok.1 stretched
  exact ⟨y, (Operand.at?_stretchDims v dims hc).trans found, found, element⟩

/-- Copying writes the elements of the target in turn. What an element gets is read when its turn comes. -/
theorem runs_copyInto (ops : Operators) {source : Operand} {t w whole : Ty} {id : VarId} {pre : List Int}
    (hsource : source.IsWhole s.out.vars s.stream t) (holds : HoldsTy s.out.vars s.stream id whole)
    (leads : Leads pre whole w) (hs : Stretches t.dims w.dims)
    (run : Lower.copyInto source ⟨.variable id pre, Operand.whole w⟩ ctx s = .ok ((), s')) (cont : p.Continues s') :
    ∃ ws, Reaches (p.between? ops s s') (.running s.code.size σ) ws (.running s'.code.size
      ((coordinates w.dims).foldl (fun σ c => σ.put id (pre ++ c) (source.valueAt σ (broadcast c t.dims))) σ)) ∧
      ∀ w ∈ ws, w.1.var = id := by
  have here := cont.before (adds_copyInto _ _ ctx s () s' run)
  have lengths : (⟨.variable id pre, Operand.whole w⟩ : Operand).lengths = w.dims := by
    rw [Operand.lengths, Operand.whole, List.map_map]
    exact List.map_id _
  rw [Lower.copyInto, lengths] at run
  obtain ⟨o', stretched, seen⟩ := Operand.exists_stretch hsource hs
  rw [Lower.stretch, stretched] at run
  refine runs_puts ops id (pre ++ ·) (fun c σ => source.valueAt σ (broadcast c t.dims)) (fun _ _ => True)
    (fun c rest suffix => ?_) run cont trivial
  have hc := mem_coordinates.1 (suffix.mem List.mem_cons_self)
  obtain ⟨y, at', found, element⟩ := seen c hc
  refine ⟨.move y ⟨.variable id (pre ++ c), []⟩, ?_, fun σ _ => ⟨trivial, ?_⟩⟩
  · rw [at', Operand.at?_variable hc]
    rfl
  · obtain ⟨x, read⟩ := element.exists_read here.vars σ
    obtain ⟨e, at'⟩ := here.exists_element holds (leads.inBounds hc)
    obtain ⟨var, coord⟩ := Program.element?_eq_some.1 at'
    refine ⟨e, ?_, var, coord⟩
    rw [Instr.outcome?, Operand.element?_element, at', Operand.valueAt_eq found, read]
    rfl

/-- A copy into the part of a variable behind `pre` from the part behind `place` overwrites an element that it reads
later for another one. The parts have lengths `ws` and `ts`, and the second is stretched to the first. -/
def Clobbers (pre place ts ws : List Int) : Prop :=
  ∃ c c', InBounds c ws ∧ InBounds c' ws ∧ c < c' ∧ pre ++ c = place ++ broadcast c' ts ∧
    broadcast c ts ≠ broadcast c' ts

/-- A copy that does not stretch clobbers nothing: the parts are the same or have no element in common. -/
theorem not_clobbers_self (pre place ts : List Int) : ¬Clobbers pre place ts ts := by
  rintro ⟨c, c', hc, hc', lt, same, -⟩
  rw [broadcast_self hc'] at same
  obtain ⟨-, rfl⟩ := List.append_inj' same (hc.length_eq.trans hc'.length_eq.symm)
  exact List.lt_irrefl _ lt

/-- Copying a single element clobbers nothing: it is the same for all. -/
theorem not_clobbers_element (pre place ws : List Int) : ¬Clobbers pre place [] ws := by
  rintro ⟨c, c', -, -, -, -, differ⟩
  exact differ rfl

/-- A copy that clobbers nothing stores the elements that its source had before. -/
theorem foldl_valueAt {source : Operand} {t w : Ty} {id : VarId} {pre : List Int}
    (hsource : source.IsWhole s.out.vars s.stream t) (hs : Stretches t.dims w.dims)
    (kept : ∀ place, source.viewed = .variable id place → ¬Clobbers pre place t.dims w.dims) (σ : Store p) :
    (∀ e : Element p, e.var = id → ∀ c ∈ coordinates w.dims, e.coord = pre ++ c →
      (coordinates w.dims).foldl (fun σ c => σ.put id (pre ++ c) (source.valueAt σ (broadcast c t.dims))) σ e =
        source.valueAt σ (broadcast c t.dims)) ∧
    ∀ e : Element p, (e.var = id → ∀ c ∈ coordinates w.dims, e.coord ≠ pre ++ c) →
      (coordinates w.dims).foldl (fun σ c => σ.put id (pre ++ c) (source.valueAt σ (broadcast c t.dims))) σ e = σ e :=
        by
  refine foldl_put id (pre ++ ·) (fun c σ => source.valueAt σ (broadcast c t.dims))
    ((coordinates_sorted w.dims).imp_of_mem fun {c c'} hc hc' lt => ⟨fun same => ?_, fun σ => ?_⟩) σ
  · obtain rfl := List.append_cancel_left same
    exact List.lt_irrefl _ lt
  have hc := mem_coordinates.1 hc
  have hc' := mem_coordinates.1 hc'
  obtain ⟨y, found, element, var⟩ := hsource.at?_element (hc'.broadcast hs)
  by_cases other : source.viewed.var? = some id
  · obtain ⟨v, ds⟩ := source
    obtain rfl : ds = Operand.whole t := hsource.dims
    match v with
    | .variable id place =>
      cases other
      have at' {c : List Int} (hc : InBounds c w.dims) :
          (⟨.variable id place, Operand.whole t⟩ : Operand).at? (broadcast c t.dims) =
            some ⟨.variable id (place ++ broadcast c t.dims), []⟩ := Operand.at?_variable (hc.broadcast hs)
      rw [Operand.valueAt_eq (at' hc), Operand.valueAt_eq (at' hc'), Operand.valueAt_eq (at' hc')]
      simp only [Operand.read?_element]
      by_cases same : pre ++ c = place ++ broadcast c' t.dims
      · -- The element that is overwritten is the one that it is overwritten with.
        have again : broadcast c t.dims = broadcast c' t.dims :=
          Decidable.byContradiction fun differ => kept place rfl ⟨c, c', hc, hc', lt, same, differ⟩
        rw [again, ← same, Store.put_get?]
      · exact congrArg (Option.getD · default) (Store.get?_congr_at fun e _ at' =>
          Store.put_of_ne _ fun _ at'' => same (at''.symm.trans at'))
  · rw [Operand.valueAt_eq found, Operand.valueAt_eq found]
    refine congrArg (Option.getD · default) (Operand.read?_congr fun e he => Store.put_of_ne _ fun same => ?_)
    exact (other (var.symm.trans (he.trans (congrArg some same)))).elim

/-- What a copy stores is the value of its source. -/
theorem stores_valueAt {source : Operand} {t w whole : Ty} {id : VarId} {pre : List Int} {x : List Int → Scalar}
    (hsource : source.IsWhole s.out.vars s.stream t)
    (kept : ∀ place, source.viewed = .variable id place → ¬Clobbers pre place t.dims w.dims)
    (exists_element : ∀ {c}, InBounds c whole.dims → ∃ e, p.element? id c = some e) (leads : Leads pre whole w)
    (hs : Stretches t.dims w.dims) (hx : source.Denotes σ t.dims x) :
    let σ' := (coordinates w.dims).foldl (fun σ c => σ.put id (pre ++ c) (source.valueAt σ (broadcast c t.dims))) σ
    (∀ c, InBounds c w.dims → σ'.get? id (pre ++ c) = some (x (broadcast c t.dims))) ∧
      ∀ e : Element p, (e.var = id → ∀ c, InBounds c w.dims → e.coord ≠ pre ++ c) → σ' e = σ e := by
  obtain ⟨inside, outside⟩ := foldl_valueAt hsource hs kept σ
  refine ⟨fun c hc => ?_, fun e he => outside e fun h c hc => he h c (mem_coordinates.1 hc)⟩
  obtain ⟨e, found⟩ := exists_element (leads.inBounds hc)
  obtain ⟨var, coord⟩ := Program.element?_eq_some.1 found
  rw [Store.get?, found, Option.map_some, inside e var c (mem_coordinates.2 hc) coord, Operand.valueAt,
    hx _ (hc.broadcast hs), Option.getD_some]

/-- Copying from another variable, or from a part that the copy does not clobber. -/
theorem runs_copyInto_kept (ops : Operators) {source : Operand} {t w whole : Ty} {id : VarId} {pre : List Int}
    {x : List Int → Scalar}
    (hsource : source.IsWhole s.out.vars s.stream t)
    (kept : ∀ place, source.viewed = .variable id place → ¬Clobbers pre place t.dims w.dims)
    (holds : HoldsTy s.out.vars s.stream id whole) (leads : Leads pre whole w) (hs : Stretches t.dims w.dims)
    (hx : source.Denotes σ t.dims x)
    (run : Lower.copyInto source ⟨.variable id pre, Operand.whole w⟩ ctx s = .ok ((), s')) (cont : p.Continues s') :
    ∃ ws σ', Reaches (p.between? ops s s') (.running s.code.size σ) ws (.running s'.code.size σ') ∧
      (∀ w ∈ ws, w.1.var = id) ∧
      (∀ c, InBounds c w.dims → σ'.get? id (pre ++ c) = some (x (broadcast c t.dims))) ∧
      ∀ e : Element p, (e.var = id → ∀ c, InBounds c w.dims → e.coord ≠ pre ++ c) → σ' e = σ e := by
  have here := cont.before (adds_copyInto _ _ ctx s () s' run)
  obtain ⟨ws, reaches, vars⟩ := runs_copyInto ops (σ := σ) hsource holds leads hs run cont
  exact ⟨ws, _, reaches, vars, stores_valueAt hsource kept (here.exists_element holds) leads hs hx⟩

/-- The value of an operand is put where indexes can select from it. -/
theorem passes_addressable (ops : Operators) (room : Ty) {o : Operand} {t : Ty} {x : List Int → Scalar}
    {r : VarId × List Int} (sound : s.Sound ctx.source owed) (whole : o.IsWhole s.out.vars s.stream t)
    (hx : o.Denotes σ t.dims x)
    (within : ∀ id coord, o.viewed = .variable id coord → p.dimsOf id = room.dims)
    (run : Lower.addressable o ctx s = .ok (r, s')) (cont : p.Continues s') :
    ∃ σ', Passes p ops s s' σ σ' ∧ (∀ c, InBounds c t.dims → σ'.get? r.1 (r.2 ++ c) = some (x c)) ∧
      (p.dimsOf r.1 = room.dims ∨ p.dimsOf r.1 = t.dims) := by
  obtain ⟨sound', grows, -⟩ := (lowers_addressable whole).of_ok sound run
  have inMemory (run : (do
      let ty ← Lower.orBroken (o.ty? (← get).out.vars)
      let id ← Lower.newVariable ty (← get).stream.location
      Lower.copyInto o (.ofVariable id (some ty))
      return (id, []) : Lower (VarId × List Int)) ctx s = .ok (r, s')) :
      ∃ σ', Passes p ops s s' σ σ' ∧ (∀ c, InBounds c t.dims → σ'.get? r.1 (r.2 ++ c) = some (x c)) ∧
        (p.dimsOf r.1 = room.dims ∨ p.dimsOf r.1 = t.dims) := by
    obtain ⟨g, g', got, run⟩ := bind_ok.1 run
    obtain ⟨rfl, rfl⟩ := get_ok.1 got
    rw [whole.ty?_eq] at run
    have run : (do
        let id ← Lower.newVariable t (← get).stream.location
        Lower.copyInto o (.ofVariable id (some t))
        return (id, []) : Lower (VarId × List Int)) ctx s = .ok (r, s') := run
    obtain ⟨g, g', got, run⟩ := bind_ok.1 run
    obtain ⟨rfl, rfl⟩ := get_ok.1 got
    obtain ⟨id, s₁, made, run⟩ := bind_ok.1 run
    obtain ⟨u, s₂, copied, run⟩ := bind_ok.1 run
    obtain ⟨rfl, rfl⟩ := pure_ok.1 run
    have follows := adds_newVariable _ _ ctx s _ s₁ made
    have later := adds_copyInto _ _ ctx s₁ u s₂ copied
    obtain ⟨-, grows₁, holds, -⟩ := (lowers_newVariable whole.hasTy.storable).of_ok sound made
    obtain ⟨rfl, code, temporary⟩ := newVariable_ok sound made
    obtain ⟨ws, σ', reaches, vars, inside, -⟩ := runs_copyInto_kept ops (σ := σ) (grows₁.isWhole whole)
      (fun place _ => not_clobbers_self _ place _) holds (show Leads [] t t from rfl) (stretches_refl _) hx copied cont
    have passes : Passes p ops s s₂ σ σ' :=
      (Passes.still σ code).append reaches (fun w hw => vars w hw ▸ temporary.after later) follows later
    refine ⟨σ', passes, fun c hc => ?_,
      .inr ((cont.before later).dimsOf holds)⟩
    rw [inside c hc, broadcast_self hc]
  obtain ⟨v, ds⟩ := o
  obtain rfl : ds = Operand.whole t := whole.dims
  match v with
  | .constant c => exact inMemory run
  | .variable id coord =>
    have direct : Lower.addressable ⟨.variable id coord, Operand.whole t⟩ = pure (id, coord) := by
      unfold Lower.addressable
      dsimp only
      rw [whole.not_stretched, if_neg Bool.false_ne_true]
    rw [direct] at run
    obtain ⟨rfl, rfl⟩ := pure_ok.1 run
    refine ⟨σ, .still σ rfl, fun c hc => ?_, .inl (within id coord rfl)⟩
    rw [← hx c hc, Operand.at?_variable hc, Option.bind_some, Operand.read?_element]

/-! ## Single expressions -/

/-- Indexes that are numbers lead to what they select. -/
theorem leads_of_numbers {vars : Array Staged.Variable} {es : List Staged.Expr} {t w : Ty} {coord : List Int}
    (h : Staged.Expr.Selects vars es t w) (numbers : Staged.Expr.numbers? es = some coord) : Leads coord t w := by
  induction es generalizing t coord with
  | nil =>
    cases numbers
    exact h
  | cons e es ih =>
    rw [Staged.Expr.Selects] at h
    obtain ⟨n, elem, rfl, -, -, range, rest⟩ := h
    rw [Staged.Expr.numbers?_cons] at numbers
    obtain ⟨i, number, numbers⟩ := Option.bind_eq_some_iff.1 numbers
    obtain ⟨is, others, rfl⟩ := Option.map_eq_some_iff.1 numbers
    cases e with
    | literal c ty span =>
      obtain ⟨j, rfl, inside⟩ := range
      cases number
      exact ⟨inside, ih rest others⟩
    | _ => cases number

/-- Indexes that are told apart are numbers, or they are not all numbers. -/
theorem constantIndexes?_eq {es : List Staged.Expr} {r : Option (List Int)}
    (run : Lower.constantIndexes? es ctx s = .ok (r, s')) : r = Staged.Expr.numbers? es ∧ s' = s := by
  fun_induction Lower.constantIndexes? es generalizing r with
  | case1 =>
    obtain ⟨rfl, rfl⟩ := pure_ok.1 run
    exact ⟨rfl, rfl⟩
  | case2 n _ _ rest ih =>
    obtain ⟨r', s₁, first, run⟩ := bind_ok.1 run
    obtain ⟨rfl, rfl⟩ := pure_ok.1 run
    obtain ⟨rfl, rfl⟩ := ih first
    exact ⟨by rw [Staged.Expr.numbers?_cons]; rfl, rfl⟩
  | case3 => cases run
  | case4 e es notInt notLiteral =>
    obtain ⟨rfl, rfl⟩ := pure_ok.1 run
    have none : e.number? = none := by
      cases e with
      | literal c ty span => exact (notLiteral c ty span rfl).elim
      | _ => rfl
    exact ⟨by rw [Staged.Expr.numbers?_cons, none]; rfl, rfl⟩

/-- The type of an expression is that of a part of its room. -/
theorem exists_leads_room {vars : Array Staged.Variable} : (e : Staged.Expr) → e.WellFormed vars →
    ∃ c, Leads c e.room e.ty
  | .index base indexes ty span, wf => by
    rw [Staged.Expr.WellFormed] at wf
    unfold Staged.Expr.room
    cases numbers : Staged.Expr.numbers? indexes with
    | none => exact ⟨[], rfl⟩
    | some coord =>
      obtain ⟨c, leads⟩ := exists_leads_room base wf.1
      exact ⟨c ++ coord, leads.append (leads_of_numbers wf.2 numbers)⟩
  | .literal .., _ | .var .., _ | .collect .., _ | .unary .., _ | .binary .., _ | .missing, _ => ⟨[], rfl⟩

/-- Code that was emitted for an expression leaves its value in an operand. What the operand views is the part of a slot
that the expression is, or a temporary, and a part of a variable of the type of the expression's room. -/
structure Computes (p : Program) (m : Meaning) (e : Staged.Expr) (s s' : LowerState) (o : Operand) : Prop where
  viewed : ∀ id coord, o.viewed = .variable id coord → HoldsTy s'.out.vars s'.stream id e.room ∧
    ((∃ k, e.place? = some (k, coord) ∧ s'.var? k = some id) ∨ s.Temporary s' id)
  value : ∀ (u : LowerState) (σ : Store p), s'.Follows u → p.Continues u → e.Indexed m (u.contents σ) →
    ∃ σ', Passes p m.operators s s' σ σ' ∧ o.Denotes σ' e.ty.dims (e.value m (u.contents σ))

/-- Flattening an expression emits code that computes it. -/
def Correct (ctx : LowerContext) (p : Program) (m : Meaning) (e : Staged.Expr) : Prop :=
  ∀ owed s s' o, e.WellFormed ctx.source.vars → e.LiteralsFit → s.Sound ctx.source owed →
    Lower.expr e ctx s = .ok (o, s') → Computes p m e s s' o

variable {m : Meaning}

theorem correct_literal (value : Constant) (ty : Ty) (span : Span) : Correct ctx p m (.literal value ty span) := by
  intro owed s s' o _ fit _ run
  rw [Lower.expr] at run
  obtain ⟨rfl, rfl⟩ := pure_ok.1 run
  refine ⟨fun id coord view => (nomatch view), fun u σ later cont _ => ⟨σ, .still σ rfl, fun c hc => ?_⟩⟩
  obtain ⟨k, item, typed, found⟩ := Operand.at?_ofConstant fit hc
  have element : (⟨.constant k, []⟩ : Operand).IsElement s.out.vars s.stream ty.base := ⟨typed, rfl⟩
  obtain ⟨x, read⟩ := element.exists_read (cont.before later).vars σ
  have scalar : Scalar.ofConstant? k = some x := read
  rw [found, Option.bind_some, read, Staged.Expr.value, item, Option.bind_some, scalar, Option.getD_some]

theorem correct_var (held : Held ctx.source) (k : SlotId) (ty : Ty) (span : Span) :
    Correct ctx p m (.var k ty span) := by
  intro owed s s' o wf _ sound run
  rw [Lower.expr] at run
  obtain ⟨v, hv, rfl⟩ := Option.map_eq_some_iff.1 wf
  obtain ⟨id, rfl, holds, slot, code⟩ := ofSlot_ok hv (held v (Array.mem_of_getElem? hv)) sound run
  refine ⟨fun id' coord view => ?_, fun u σ later cont _ => ⟨σ, .still σ code, fun c hc => ?_⟩⟩
  · cases view
    exact ⟨holds, .inl ⟨k, rfl, slot⟩⟩
  · have hc : InBounds c v.ty.dims := hc
    obtain ⟨e, found⟩ := (cont.before later).exists_element holds hc
    rw [Operand.at?_ofVariable hc, Option.bind_some, Operand.read?_element, Staged.Expr.value, LowerState.contents,
      later.kept k id slot, Option.bind_some, Store.get?,
      found]
    rfl

/-- A temporary that is filled for an operator. -/
theorem computes_elementwise {e : Staged.Expr} {ty : Ty} {f : Operand → List Int → Lower Unit} {o : Operand}
    (hty : e.ty = ty) (storable : ty.Storable) (room : e.room = ty) (sound : s₁.Sound ctx.source owed)
    (before : s.Follows s₁) (adds : ∀ x c, Adds (f x c))
    (run : (do
      let x ← Lower.temp ty
      (coordinates ty.dims).forM (f x)
      return x : Lower Operand) ctx s₁ = .ok (o, s'))
    (each : ∀ (u : LowerState) (σ : Store p), s₁.Follows u → p.Continues u → e.Indexed m (u.contents σ) →
      ∃ σ₁, Passes p m.operators s s₁ σ σ₁ ∧ ∀ c, InBounds c ty.dims →
        ∃ i, f (.ofVariable s₁.out.vars.size (some ty)) c = Lower.emit i ∧
          ∀ σ' : Store p, (∀ el, el.var ≠ s₁.out.vars.size → σ' el = σ₁ el) →
            ∀ el, p.element? s₁.out.vars.size c = some el →
              i.outcome? m.operators σ' = some (.write el (e.value m (u.contents σ) c))) :
    Computes p m e s s' o := by
  subst hty
  obtain ⟨x, s₂, made, run⟩ := bind_ok.1 run
  obtain ⟨⟨⟩, s₃, filled, run⟩ := bind_ok.1 run
  obtain ⟨rfl, rfl⟩ := pure_ok.1 run
  have follows := adds_temp _ ctx s₁ _ s₂ made
  have later := Adds.forM (adds x) _ ctx s₂ () s₃ filled
  obtain ⟨-, -, whole, -⟩ := (lowers_temp storable).of_ok sound made
  obtain ⟨id, rfl, rfl, code, temporary⟩ := temp_ok sound made
  obtain ⟨t, holds, rfl⟩ := whole.hasTy
  refine ⟨fun id coord view => ?_, fun u σ after cont indexed => ?_⟩
  · cases view
    rw [room]
    exact ⟨later.holds holds, .inr ((temporary.after later).before before)⟩
  · obtain ⟨σ₁, passes, each⟩ := each u σ ((follows.trans later).trans after) cont indexed
    obtain ⟨σ', filled, denotes⟩ :=
      passes_fill (σ := σ₁) temporary code follows holds each filled later (cont.before after)
    exact ⟨σ', passes.trans filled before (follows.trans later), denotes⟩

theorem correct_unary (held : Held ctx.source) {a : Staged.Expr} (h : Correct ctx p m a) (op : SignalLang.UnaryOp)
    (ty : Ty) (span : Span) : Correct ctx p m (.unary op a ty span) := by
  intro owed s s' o wf fit sound run
  have storable := storable_of_wellFormed held _ wf fit
  rw [Staged.Expr.WellFormed] at wf
  obtain ⟨wa, accepts, rfl⟩ := wf
  rw [Lower.expr] at run
  obtain ⟨y, s₁, first, run⟩ := bind_ok.1 run
  obtain ⟨sound₁, -, whole⟩ := (lowers_expr held a wa fit).of_ok sound first
  refine computes_elementwise rfl storable rfl sound₁ (adds_expr a ctx s y s₁ first)
    (fun x c => (Adds.orBroken _).bind fun _ => (Adds.orBroken _).bind fun _ => adds_emit _) run ?_
  intro u σ after cont indexed
  obtain ⟨σ₁, passes, denotes⟩ := (h owed s s₁ y wa fit sound first).value u σ after cont indexed
  refine ⟨σ₁, passes, fun c hc => ?_⟩
  have hca : InBounds c a.ty.dims := unaryTy_dims op a.ty ▸ hc
  obtain ⟨z, found, -⟩ := denotes.read whole hca
  refine ⟨.unary (.select op a.ty.base) z ⟨.variable s₁.out.vars.size c, []⟩, ?_, fun σ' off el hel => ?_⟩
  · rw [found, Operand.at?_ofVariable hc]
    rfl
  · have denotes' := denotes.later whole fun e he => off e (Nat.ne_of_lt he)
    obtain ⟨z', found', read⟩ := denotes'.read whole hca
    obtain rfl : z = z' := Option.some.inj (found.symm.trans found')
    rw [Instr.outcome?, read, Operand.element?_element, hel, Staged.Expr.value]
    simp only [Meaning.operators, UnaryOp.source_select accepts]
    rfl

theorem correct_binary (held : Held ctx.source) {l r : Staged.Expr} (hl : Correct ctx p m l) (hr : Correct ctx p m r)
    (op : SignalLang.BinaryOp) (ty : Ty) (span : Span) : Correct ctx p m (.binary op l r ty span) := by
  intro owed s s' o wf fit sound run
  have storable := storable_of_wellFormed held _ wf fit
  rw [Staged.Expr.WellFormed] at wf
  rw [Staged.Expr.LiteralsFit] at fit
  obtain ⟨wl, wr, common, hcommon, accepts, rfl⟩ := wf
  have isCommon := Ty.isCommon_of_biggest? hcommon
  rw [Lower.expr] at run
  obtain ⟨a, s₁, first, run⟩ := bind_ok.1 run
  obtain ⟨b, s₂, second, run⟩ := bind_ok.1 run
  obtain ⟨sound₁, -, wholeA₁⟩ := (lowers_expr held l wl fit.1).of_ok sound first
  obtain ⟨sound₂, grows₂, wholeB⟩ := (lowers_expr held r wr fit.2).of_ok sound₁ second
  have wholeA := grows₂.isWhole wholeA₁
  have follows₁ := adds_expr l ctx s a s₁ first
  have follows₂ := adds_expr r ctx s₁ b s₂ second
  have stretchA : Stretches l.ty.dims (Staged.binaryTy op common).dims :=
    binaryTy_dims op common ▸ isCommon.leftStretches
  have stretchB : Stretches r.ty.dims (Staged.binaryTy op common).dims :=
    binaryTy_dims op common ▸ isCommon.rightStretches
  obtain ⟨⟨instr, chosen, -⟩, -⟩ :=
    storable_common hcommon accepts wholeA.hasTy.storable wholeB.hasTy.storable
  rw [isCommon.left] at accepts chosen
  obtain ⟨a', stretchedA, -⟩ := Operand.stretch_ok wholeA stretchA
  obtain ⟨b', stretchedB, -⟩ := Operand.stretch_ok wholeB stretchB
  rw [chosen] at run
  obtain ⟨a'', t, got, run⟩ := bind_ok.1 run
  rw [Lower.stretch, stretchedA] at got
  obtain ⟨rfl, rfl⟩ := pure_ok.1 got
  obtain ⟨b'', t, got, run⟩ := bind_ok.1 run
  rw [Lower.stretch, stretchedB] at got
  obtain ⟨rfl, rfl⟩ := pure_ok.1 got
  refine computes_elementwise rfl storable rfl sound₂ (follows₁.trans follows₂)
    (fun x c => (Adds.orBroken _).bind fun _ => (Adds.orBroken _).bind fun _ => (Adds.orBroken _).bind fun _ =>
      adds_emit _) run ?_
  intro u σ after cont indexed
  obtain ⟨σ₁, passes₁, denotesA⟩ := (hl owed s s₁ a wl fit.1 sound first).value u σ
    (follows₂.trans after) cont indexed.1
  have contents := passes₁.contents (follows₂.trans after)
  obtain ⟨σ₂, passes₂, denotesB⟩ := (hr owed s₁ s₂ b wr fit.2 sound₁ second).value u σ₁ after cont
    (contents ▸ indexed.2)
  rw [contents] at denotesB
  have denotesA := denotesA.later wholeA₁ fun e he => passes₂.old he
  -- Both operands keep their elements while the temporary is filled.
  have reads (σ' : Store p) (off : ∀ e, e.var ≠ s₂.out.vars.size → σ' e = σ₂ e) :
      a'.Denotes σ' (Staged.binaryTy op common).dims (fun c => l.value m (u.contents σ) (broadcast c l.ty.dims)) ∧
      b'.Denotes σ' (Staged.binaryTy op common).dims fun c => r.value m (u.contents σ) (broadcast c r.ty.dims) :=
    ⟨(denotesA.later wholeA fun e he => off e (Nat.ne_of_lt he)).stretch wholeA.dims stretchA stretchedA,
      (denotesB.later wholeB fun e he => off e (Nat.ne_of_lt he)).stretch wholeB.dims stretchB stretchedB⟩
  refine ⟨σ₂, passes₁.trans passes₂ follows₁ follows₂, fun c hc => ?_⟩
  obtain ⟨readsA, readsB⟩ := reads σ₂ fun _ _ => rfl
  obtain ⟨y, foundA, -⟩ := Option.bind_eq_some_iff.1 (readsA c hc)
  obtain ⟨z, foundB, -⟩ := Option.bind_eq_some_iff.1 (readsB c hc)
  refine ⟨.binary instr y z ⟨.variable s₂.out.vars.size c, []⟩, ?_, fun σ' off el hel => ?_⟩
  · rw [foundA, foundB, Operand.at?_ofVariable hc]
    rfl
  · obtain ⟨readsA, readsB⟩ := reads σ' off
    have readA := readsA c hc
    have readB := readsB c hc
    rw [foundA, Option.bind_some] at readA
    rw [foundB, Option.bind_some] at readB
    rw [Instr.outcome?, readA, readB, Operand.element?_element, hel, Staged.Expr.value]
    simp only [Meaning.operators, BinaryOp.source_select accepts chosen]
    rfl

/-- Indexes that are computed become operands with their values. -/
theorem passes_indexOperands (held : Held ctx.source) {es : List Staged.Expr} (correct : ∀ e ∈ es, Correct ctx p m e)
    {t w : Ty} {os : List Operand} (selects : Staged.Expr.Selects ctx.source.vars es t w)
    (fit : Staged.Expr.AllFit es) (sound : s.Sound ctx.source owed)
    (run : Lower.indexOperands es ctx s = .ok (os, s')) (later : s'.Follows u) (cont : p.Continues u)
    (indexed : Staged.Expr.AllIndexed m (u.contents σ) es) :
    ∃ σ', Passes p m.operators s s' σ σ' ∧ ∀ coord, Staged.Expr.coord? m (u.contents σ) es = some coord →
      (∀ i ∈ coord, Word.inRange i = true) → Operand.Selects σ' os coord := by
  induction es generalizing s σ t os with
  | nil =>
    rw [Lower.indexOperands] at run
    obtain ⟨rfl, rfl⟩ := pure_ok.1 run
    refine ⟨σ, .still σ rfl, fun coord hcoord _ => ?_⟩
    cases hcoord
    exact .nil
  | cons e es ih =>
    rw [Staged.Expr.Selects] at selects
    obtain ⟨n, elem, rfl, we, int, -, selects⟩ := selects
    rw [Lower.indexOperands] at run
    obtain ⟨o, s₁, first, run⟩ := bind_ok.1 run
    obtain ⟨sound₁, -, whole⟩ := (lowers_expr held e we fit.1).of_ok sound first
    have element : o.IsElement s₁.out.vars s₁.stream .int := by
      rw [int] at whole
      exact whole
    rw [if_pos element.isScalar] at run
    obtain ⟨rest, s₂, second, run⟩ := bind_ok.1 run
    obtain ⟨rfl, rfl⟩ := pure_ok.1 run
    have follows₁ := adds_expr e ctx s o s₁ first
    have follows₂ := adds_indexOperands es ctx s₁ rest s₂ second
    obtain ⟨σ₁, passes₁, denotes⟩ :=
      (correct e List.mem_cons_self owed s s₁ o we fit.1 sound first).value u σ (follows₂.trans later) cont indexed.1
    have contents := passes₁.contents (follows₂.trans later)
    obtain ⟨σ₂, passes₂, values⟩ := ih (fun e' he => correct e' (List.mem_cons_of_mem _ he)) selects fit.2 sound₁ second
      (contents ▸ indexed.2)
    rw [contents] at values
    refine ⟨σ₂, passes₁.trans passes₂ follows₁ follows₂, fun coord hcoord words => ?_⟩
    obtain ⟨i, index, hcoord⟩ := Option.bind_eq_some_iff.1 (Staged.Expr.coord?.eq_2 .. ▸ hcoord)
    obtain ⟨is, indexes, hcoord⟩ := Option.bind_eq_some_iff.1 hcoord
    cases hcoord
    have read : o.read? σ₂ = some (e.value m (u.contents σ) []) :=
      denotes.later whole (fun e he => passes₂.old he) [] (int ▸ trivial)
    exact .cons ⟨_, read, Staged.Expr.index?_value m _ index (words i List.mem_cons_self)⟩
      (values is indexes fun j hj => words j (List.mem_cons_of_mem _ hj))

/-- Numbers select a part of what the operand of the base views. -/
theorem computes_index_numbers {base : Staged.Expr} {indexes : List Staged.Expr} {ty : Ty} {span : Span} {b o : Operand}
    {coord : List Int} (computes : Computes p m base s s' b) (whole : b.IsWhole s'.out.vars s'.stream base.ty)
    (numbers : Staged.Expr.numbers? indexes = some coord) (leads : Leads coord base.ty ty)
    (found : b.at? coord = some o) :
    Computes p m (.index base indexes ty span) s s' o := by
  obtain ⟨y, found', -, var⟩ := Operand.at?_of_leads whole leads
  obtain rfl : o = y := Option.some.inj (found.symm.trans found')
  refine ⟨fun id c view => ?_, fun u σ later cont indexed => ?_⟩
  · have room : (Staged.Expr.index base indexes ty span).room = base.room := by
      rw [Staged.Expr.room, numbers]
      rfl
    obtain ⟨v, ds⟩ := b
    obtain rfl : ds = Operand.whole base.ty := whole.dims
    match v with
    | .constant k =>
      rw [view] at var
      cases var
    | .variable id' c' =>
      rw [Operand.at?_variable_of_leads leads] at found
      cases found
      cases view
      obtain ⟨holds, origin⟩ := computes.viewed id c' rfl
      refine ⟨room ▸ holds, origin.imp_left ?_⟩
      rintro ⟨k, place, slot⟩
      refine ⟨k, ?_, slot⟩
      rw [Staged.Expr.place?, place, numbers]
      rfl
  · obtain ⟨σ', passes, denotes⟩ := computes.value u σ later cont indexed.1
    refine ⟨σ', passes, fun c hc => ?_⟩
    rw [denotes.at found leads c hc, Staged.Expr.value, Staged.Expr.coord?_of_numbers? m _ numbers, Option.getD_some]

/-- A load from the part of a variable behind a coordinate, where operands select a part of it, and an element there. -/
theorem outcome_load (ops : Operators) {source e : Element p} {coord is c : List Int} {os : List Operand}
    {target : Operand} {ty : Option Ty} (at' : source.coord = coord ++ (is ++ c))
    (words : ∀ d ∈ p.dimsOf source.var, d ≤ 2147483648) (selects : Operand.Selects σ os is)
    (place : target.element? p = some e) :
    (Instr.load (.ofVariable source.var ty) (.ofInt 0 :: coord.map .ofInt ++ os ++ c.map .ofInt) target).outcome? ops
      σ = some (.write e (σ source)) := by
  have word : ∀ i ∈ coord ++ (is ++ c), Word.inRange i = true := at' ▸ source.inBounds.inRange words
  have indexes : Operand.Selects σ (coord.map .ofInt ++ (os ++ c.map .ofInt)) source.coord := by
    rw [at']
    refine .append (Operand.selects_ofInt (fun i hi => word i (List.mem_append_left _ hi)) σ) (selects.append ?_)
    exact Operand.selects_ofInt (fun i hi => word i (List.mem_append_right _ (List.mem_append_right _ hi))) σ
  rw [Instr.outcome?, List.cons_append, List.cons_append, List.append_assoc, Operand.selected?_of_selects indexes,
    place]
  rfl

theorem correct_index (held : Held ctx.source) {base : Staged.Expr} {indexes : List Staged.Expr}
    (hbase : Correct ctx p m base) (hindexes : ∀ e ∈ indexes, Correct ctx p m e) (ty : Ty) (span : Span) :
    Correct ctx p m (.index base indexes ty span) := by
  intro owed s s' o wf fit sound run
  have storable := storable_of_wellFormed held _ wf fit
  rw [Staged.Expr.WellFormed] at wf
  rw [Staged.Expr.LiteralsFit] at fit
  rw [Lower.expr] at run
  obtain ⟨b, s₁, first, run⟩ := bind_ok.1 run
  obtain ⟨sound₁, -, whole⟩ := (lowers_expr held base wf.1 fit.1).of_ok sound first
  have computes := hbase owed s s₁ b wf.1 fit.1 sound first
  have follows₁ := adds_expr base ctx s b s₁ first
  obtain ⟨r, s₂, told, run⟩ := bind_ok.1 run
  obtain ⟨numbers, rfl⟩ := constantIndexes?_eq told
  cases r with
  | some coord =>
    have leads := leads_of_numbers wf.2 numbers.symm
    obtain ⟨y, found, -⟩ := Operand.at?_of_leads whole leads
    have run : Lower.orBroken (b.at? coord) ctx s₂ = .ok (o, s') := run
    rw [found] at run
    obtain ⟨rfl, rfl⟩ := pure_ok.1 run
    exact computes_index_numbers computes whole numbers.symm leads found
  | none =>
    obtain ⟨⟨id, coord⟩, s₃, placed, run⟩ := bind_ok.1 run
    obtain ⟨os, s₄, second, run⟩ := bind_ok.1 run
    obtain ⟨t, t', got, run⟩ := bind_ok.1 run
    obtain ⟨rfl, rfl⟩ := get_ok.1 got
    obtain ⟨sound₃, -, whole₃, holds, leads⟩ := (lowers_addressable whole).of_ok sound₁ placed
    obtain ⟨sound₄, -, -, elements⟩ := (lowers_indexOperands held indexes wf.2 fit.2).of_ok sound₃ second
    have follows₃ := adds_addressable b ctx s₂ _ s₃ placed
    have follows₄ := adds_indexOperands indexes ctx s₃ os s₄ second
    have before := (follows₁.trans follows₃).trans follows₄
    have room : (Staged.Expr.index base indexes ty span).room = ty := by
      rw [Staged.Expr.room, ← numbers]
      rfl
    refine computes_elementwise rfl storable room sound₄ before
      (fun x c => (Adds.orBroken _).bind fun _ => adds_emit _) run ?_
    intro u σ after cont indexed
    obtain ⟨indexedBase, indexedAll, ⟨is, selected, inside⟩, small⟩ := indexed
    have later₃ := follows₄.trans after
    have later₂ := follows₃.trans later₃
    have cont₃ := cont.before later₃
    obtain ⟨σ₁, passes₁, denotes⟩ := computes.value u σ later₂ cont indexedBase
    obtain ⟨σ₃, passes₃, values, dims⟩ := passes_addressable m.operators base.room sound₁ whole denotes
      (fun id c view => (cont.before later₂).dimsOf (computes.viewed id c view).1) placed cont₃
    have contents := (passes₃.contents later₃).trans (passes₁.contents later₂)
    obtain ⟨σ₄, passes₄, selects⟩ :=
      passes_indexOperands held hindexes wf.2 fit.2 sound₃ second after cont (contents ▸ indexedAll)
    rw [contents] at selects
    have words : ∀ d ∈ p.dimsOf id, d ≤ 2147483648 := by
      rcases dims with dims | dims <;> rw [dims]
      · exact small numbers.symm
      · obtain ⟨c, leads⟩ := exists_leads_room base wf.1
        exact fun d hd => small numbers.symm d (leads.mem_dims hd)
    refine ⟨σ₄, (passes₁.trans passes₃ follows₁ follows₃).trans passes₄ (follows₁.trans follows₃) follows₄,
      fun c hc => ?_⟩
    obtain ⟨source, hsource⟩ := cont₃.exists_element holds (leads.inBounds (inside.inBounds hc))
    obtain ⟨rfl, coordinate⟩ := Program.element?_eq_some.1 hsource
    refine ⟨.load _ _ ⟨.variable s₄.out.vars.size c, []⟩, by rw [Operand.at?_ofVariable hc]; rfl,
      fun σ' off el hel => ?_⟩
    have older (e : Element p) (he : e.var < s₄.out.vars.size) : σ' e = σ₄ e := off e (Nat.ne_of_lt he)
    have value : σ' source = base.value m (u.contents σ) (is ++ c) := by
      have made : source.var < s₃.out.vars.size := holds.lt
      rw [older source (Nat.lt_of_lt_of_le made follows₄.vars.size_le), passes₄.old made]
      have := values (is ++ c) (inside.inBounds hc)
      rw [Store.get?, hsource] at this
      exact Option.some.inj this
    have word : ∀ i ∈ coord ++ (is ++ c), Word.inRange i = true := coordinate ▸ source.inBounds.inRange words
    have selects : Operand.Selects σ' os is := by
      refine (selects is selected fun i hi => word i ?_).congr fun o ho => Operand.read?_congr fun e he =>
        older e ((elements o ho).lt he)
      exact List.mem_append_right _ (List.mem_append_left _ hi)
    have place : (⟨.variable s₄.out.vars.size c, []⟩ : Operand).element? p = some el := hel
    refine (outcome_load m.operators coordinate words selects place).trans ?_
    rw [Staged.Expr.value, selected, Option.getD_some, ← value]

/-- Items are computed and copied into a temporary in turn. -/
theorem passes_collect (held : Held ctx.source) {es : List Staged.Expr} (correct : ∀ e ∈ es, Correct ctx p m e)
    {t : Ty} {n i : Nat} {id : VarId} {s₀ : LowerState} {σ₀ : Store p} (hn : i + es.length = n)
    (all : Staged.Expr.AllOf ctx.source.vars t es) (fit : Staged.Expr.AllFit es) (sound : s.Sound ctx.source owed)
    (holds : HoldsTy s.out.vars s.stream id (.array n t)) (temporary : s₀.Temporary s id) (follows : s₀.Follows s)
    (run : Lower.collect (.ofVariable id (some (.array n t))) i es ctx s = .ok ((), s')) (later : s'.Follows u)
    (cont : p.Continues u) (passed : Passes p m.operators s₀ s σ₀ σ)
    (indexed : Staged.Expr.AllIndexed m (u.contents σ₀) es) :
    ∃ σ', Passes p m.operators s₀ s' σ₀ σ' ∧
      (∀ (j : Nat), j < es.length → ∀ c, InBounds c t.dims →
        σ'.get? id (((i + j : Nat) : Int) :: c) = some (Staged.Expr.itemValue m (u.contents σ₀) es j c)) ∧
      ∀ (k : Int) (c : List Int), k < i → σ'.get? id (k :: c) = σ.get? id (k :: c) := by
  induction es generalizing s σ i with
  | nil =>
    rw [Lower.collect] at run
    obtain ⟨-, rfl⟩ := pure_ok.1 run
    exact ⟨σ, passed, fun j hj => (Nat.not_lt_zero j hj).elim, fun _ _ _ => rfl⟩
  | cons e es ih =>
    rw [Staged.Expr.AllOf] at all
    obtain ⟨we, rfl, all⟩ := all
    rw [List.length_cons] at hn
    rw [Lower.collect] at run
    obtain ⟨o, s₁, first, run⟩ := bind_ok.1 run
    have part : (Operand.ofVariable id (some (.array n e.ty))).index? i =
        some ⟨.variable id [(i : Int)], Operand.whole e.ty⟩ := rfl
    rw [part] at run
    obtain ⟨y, t, got, run⟩ := bind_ok.1 run
    obtain ⟨rfl, rfl⟩ := pure_ok.1 got
    obtain ⟨⟨⟩, s₂, copied, run⟩ := bind_ok.1 run
    obtain ⟨sound₁, grows₁, whole⟩ := (lowers_expr held e we fit.1).of_ok sound first
    have computes := correct e List.mem_cons_self owed s s₁ o we fit.1 sound first
    have follows₁ := adds_expr e ctx s o s₁ first
    have follows₂ := adds_copyInto _ _ ctx s₁ () s₂ copied
    have follows₃ := adds_collect _ _ es ctx s₂ () s' run
    have later₂ := follows₃.trans later
    have later₁ := follows₂.trans later₂
    have later₀ := follows₁.trans later₁
    have contents := passed.contents later₀
    obtain ⟨σ₁, passes₁, denotes⟩ := computes.value u σ later₁ cont (contents ▸ indexed.1)
    rw [contents] at denotes
    have leads : Leads [(i : Int)] (.array n e.ty) e.ty := ⟨⟨Int.natCast_nonneg i, by omega⟩, rfl⟩
    have holds₁ := follows₁.holds holds
    have target : (⟨.variable id [(i : Int)], Operand.whole e.ty⟩ : Operand).IsWhole s₁.out.vars s₁.stream e.ty :=
      ⟨⟨_, holds₁, leads⟩, rfl⟩
    obtain ⟨sound₂, -⟩ := (lowers_copyInto whole target ⟨id, rfl, Iff.rfl⟩ (stretches_refl _) rfl).of_ok sound₁ copied
    obtain ⟨ws, σ₂, reaches, vars, inside, outside⟩ := runs_copyInto_kept m.operators whole
      (fun place _ => not_clobbers_self _ place _) holds₁ leads (stretches_refl _) denotes copied (cont.before later₂)
    have temporary₂ := (temporary.after follows₁).after follows₂
    have passed₂ := (passed.trans passes₁ follows follows₁).append reaches (fun w hw => vars w hw ▸ temporary₂)
      (follows.trans follows₁) follows₂
    obtain ⟨σ', passes, values, keeps⟩ := ih (fun e' he => correct e' (List.mem_cons_of_mem _ he)) (by omega) all fit.2
      sound₂ (follows₂.holds holds₁) temporary₂ ((follows.trans follows₁).trans follows₂) run passed₂ indexed.2
    refine ⟨σ', passes, fun j hj c hc => ?_, fun k c hk => ?_⟩
    · cases j with
      | zero =>
        rw [keeps _ c (by omega), Nat.add_zero, ← List.singleton_append, inside c hc, broadcast_self hc]
        rfl
      | succ j =>
        rw [List.length_cons] at hj
        rw [← Nat.add_assoc, Nat.add_right_comm, values j (by omega) c hc]
        rfl
    · rw [keeps k c (by omega)]
      refine Store.get?_congr_at fun el var at' => ?_
      rw [outside el fun _ c' _ same => ?_, passes₁.old (var ▸ holds.lt)]
      rw [at'] at same
      have := (List.cons.inj same).1
      omega

theorem correct_collect (held : Held ctx.source) {items : List Staged.Expr} (correct : ∀ e ∈ items, Correct ctx p m e)
    (ty : Ty) (span : Span) : Correct ctx p m (.collect items ty span) := by
  intro owed s s' o wf fit sound run
  have storable := storable_of_wellFormed held _ wf fit
  rw [Staged.Expr.WellFormed] at wf
  rw [Staged.Expr.LiteralsFit] at fit
  obtain ⟨-, t, rfl, all⟩ := wf
  rw [Lower.expr] at run
  obtain ⟨x, s₁, made, run⟩ := bind_ok.1 run
  obtain ⟨⟨⟩, s₂, filled, run⟩ := bind_ok.1 run
  obtain ⟨rfl, rfl⟩ := pure_ok.1 run
  have follows₁ := adds_temp _ ctx s _ s₁ made
  have follows₂ := adds_collect _ _ items ctx s₁ () s₂ filled
  obtain ⟨sound₁, -, whole, -⟩ := (lowers_temp storable).of_ok sound made
  obtain ⟨id, rfl, -, code, temporary⟩ := temp_ok sound made
  obtain ⟨w, holds, leads⟩ := whole.hasTy
  obtain rfl : w = .array items.length t := leads
  refine ⟨fun id' c view => ?_, fun u σ after cont indexed => ?_⟩
  · cases view
    exact ⟨follows₂.holds holds, .inr (temporary.after follows₂)⟩
  · obtain ⟨σ', passes, values, -⟩ := passes_collect held correct
      (Nat.zero_add _) all fit sound₁ holds temporary follows₁
      filled after cont (.still σ code) indexed
    refine ⟨σ', passes, fun c hc => ?_⟩
    have hc : InBounds c (Ty.array items.length t).dims := hc
    rw [Operand.at?_ofVariable hc, Option.bind_some, Operand.read?_element]
    cases c with
    | nil => exact hc.elim
    | cons i c =>
      obtain ⟨⟨low, high⟩, hc⟩ : (0 ≤ i ∧ i < items.length) ∧ InBounds c t.dims := hc
      have value := values i.toNat (by omega) c hc
      rw [Nat.zero_add, Int.toNat_of_nonneg low] at value
      rw [value, Staged.Expr.value]

mutual

theorem correct_expr (held : Held ctx.source) : (e : Staged.Expr) → Correct ctx p m e
  | .literal value ty span => correct_literal value ty span
  | .var k ty span => correct_var held k ty span
  | .index base indexes ty span => correct_index held (correct_expr held base) (correct_all held indexes) ty span
  | .collect items ty span => correct_collect held (correct_all held items) ty span
  | .unary op a ty span => correct_unary held (correct_expr held a) op ty span
  | .binary op l r ty span => correct_binary held (correct_expr held l) (correct_expr held r) op ty span
  | .missing => fun _ _ _ _ wf => wf.elim

theorem correct_all (held : Held ctx.source) : (es : List Staged.Expr) → ∀ e ∈ es, Correct ctx p m e
  | [] => fun _ he => (List.not_mem_nil he).elim
  | e :: es => List.forall_mem_cons.2 ⟨correct_expr held e, correct_all held es⟩

end

/-- The code that flattening emits for a well-formed expression computes it. It runs to its end from every store in
which the indexes of the expression are in range, for every meaning of the operators and in every program that goes on
from there. It writes to temporaries only, so all that existed before keeps its elements, and so do the variables of
slots; the operand that flattening returns then has the elements of the value of the expression in the store before. -/
theorem lower_expr_correct (held : Held ctx.source) (sound : s.Sound ctx.source owed) {e : Staged.Expr}
    (wf : e.WellFormed ctx.source.vars) (fit : e.LiteralsFit) (free : ∀ k ∈ e.slots, ¬s.Bars k) :
    ∃ o s', Lower.expr e ctx s = .ok (o, s') ∧ ∀ (m : Meaning) (p : Program) (σ : Store p), p.Continues s' →
      e.Indexed m (s'.contents σ) →
      ∃ ws σ', Reaches (p.step? s.stream m.operators) (.running s.code.size σ) ws (.running s'.code.size σ') ∧
        (∀ w ∈ ws, s.Temporary s' w.1.var) ∧
        (∀ el : Element p, (el.var < s.out.vars.size ∨ ∃ k, s'.var? k = some el.var) → σ' el = σ el) ∧
        ∀ c, InBounds c e.ty.dims → (o.at? c).bind (·.read? σ') = some (e.value m (s'.contents σ) c) := by
  obtain ⟨o, s', run, -⟩ := (lowers_expr held e wf fit sound).1 free
  refine ⟨o, s', run, fun m p σ cont indexed => ?_⟩
  obtain ⟨σ', passes, denotes⟩ :=
    (correct_expr held e owed s s' o wf fit sound run).value s' σ (.refl s') cont indexed
  obtain ⟨ws, reaches, temporary⟩ := passes
  refine ⟨ws, σ', Reaches.of_inside reaches, temporary, fun el kept => Passes.frame ⟨ws, reaches,
    temporary⟩ fun new => ?_, denotes⟩
  rcases kept with old | ⟨k, slot⟩
  · exact Nat.not_lt.2 new.new old
  · exact new.free k slot

/-- Nothing has been made for a program. -/
def LowerState.blank (source : Staged.Program) : LowerState := { slots := Array.replicate source.vars.size none }

theorem LowerState.var?_blank (source : Staged.Program) (k : SlotId) : (blank source).var? k = none := by
  simp only [var?, blank, Array.getD_eq_getD_getElem?, Array.getElem?_replicate]
  split <;> rfl

theorem LowerState.sound_blank {source : Staged.Program} (inputs : source.inputs = []) :
    (blank source).Sound source [] := by
  refine ⟨Array.size_replicate, fun k id hk => ?_, ?_, ?_, fun kind id => ?_, ?_, .nil, fun l => ?_⟩
  · rw [var?_blank] at hk
    cases hk
  · simp [inputs]
  · simp [blank]
  · cases kind <;> simp [blank, Program.interface]
  · simp [code, blank, Program.stream]
  · simp [code, labels, blank, Program.stream, Program.labelCount, Program.labelsOf]

theorem LowerState.apart_blank (source : Staged.Program) : (blank source).Apart := by
  constructor <;> simp [var?_blank]

/-- An array, and a number that may be an index of it. -/
def arrayAndIndex : Staged.Program := { vars := #[⟨.array 2 .int, default⟩, ⟨.int, default⟩] }

theorem held_arrayAndIndex : Held arrayAndIndex := by
  intro v hv
  simp only [arrayAndIndex, List.mem_toArray, List.mem_cons, List.not_mem_nil, or_false] at hv
  rcases hv with rfl | rfl <;> exact ⟨rfl, by simp [Ty.IsPositive, Ty.dims]⟩

/-- Operators that add integers; the others leave what they are given. -/
def addition : Meaning where
  unary _ _ x := x
  binary
    | .add, _, .int a, .int b => .int (Word.wrap (a + b))
    | _, _, x, _ => x

theorem lower_expr_correct_selected :
    let e : Staged.Expr := .binary .add (.var 0 (.array 2 .int) default)
      (.index (.var 0 (.array 2 .int) default) [.var 1 .int default] .int default) (.array 2 .int) default
    ∃ o s', Lower.expr e ⟨arrayAndIndex, fun _ => ""⟩ (.blank arrayAndIndex) = .ok (o, s') ∧
      ∃ (ws : Writes s'.out) (σ' : Store s'.out),
        Reaches (s'.out.step? .main addition.operators) (.running 0 fun _ => .int 1) ws (.running s'.code.size σ') ∧
        ∀ c, InBounds c [2] → (o.at? c).bind (·.read? σ') = some (.int 2) := by
  intro e
  have wf : e.WellFormed arrayAndIndex.vars :=
    ⟨rfl, ⟨rfl, 2, .int, rfl, rfl, rfl, trivial, rfl⟩, .array 2 .int, rfl, rfl, rfl⟩
  obtain ⟨o, s', run, computes⟩ := @lower_expr_correct ⟨arrayAndIndex, fun _ => ""⟩ [] _
    held_arrayAndIndex (LowerState.sound_blank rfl) e wf (by decide) fun k _ => Bool.false_ne_true
  refine ⟨o, s', run, ?_⟩
  cases run
  have inside (c : List Int) (hc : InBounds c [2]) : c = [0] ∨ c = [1] := by
    match c, hc with
    | [i], hc =>
      have range := hc.1
      have : i = 0 ∨ i = 1 := by omega
      exact this.imp (congrArg ([·])) (congrArg ([·]))
  obtain ⟨ws, σ', reaches, -, -, values⟩ := computes addition _ (fun _ => .int 1) ⟨.refl _, .refl _⟩
    ⟨trivial, trivial, ⟨trivial, trivial⟩, ⟨[1], rfl, by decide, rfl⟩, fun _ => by decide⟩
  refine ⟨ws, σ', reaches, fun c hc => (values c hc).trans ?_⟩
  rcases inside c hc with rfl | rfl <;> rfl

end SignalLang.Flat
