import SignalLang.Proofs.Flat.Expressions

/-!
# Assignments store values

The code of an assignment reads its value, and the indexes of its target, while it writes: what is a part of a slot is
read where it is, element by element. So an assignment stores the value that was there before, stretched to its target,
unless it overwrites what it reads later: an element of its value (`Target.Smears`) or an index of its target
(`Target.Shifts`). Only a value that is stretched can be smeared, and only a target of several elements can shift.
-/

namespace SignalLang

namespace Staged

open Flat (Meaning Scalar Leads Clobbers)

section Target

variable (m : Meaning) (contents : SlotId → List Int → Scalar)

/-- The indexes of a target are in range and select the part behind a coordinate. Indexes that are computed are words.
-/
structure Target.At (vars : Array Variable) (target : Target) (coord : List Int) : Prop where
  indexed : Expr.AllIndexed m contents target.indexes
  selected : Expr.coord? m contents target.indexes = some coord
  leads : ∃ v, vars[target.var]? = some v ∧ Leads coord v.ty target.ty ∧
    (Expr.numbers? target.indexes = none → ∀ d ∈ v.ty.dims, d ≤ 2147483648)

end Target

/-- The value is a part of the variable of the target, and an element of it is overwritten before it is read. -/
def Target.Smears (target : Target) (coord : List Int) (value : Expr) : Prop :=
  ∃ place, value.place? = some (target.var, place) ∧ Clobbers coord place value.ty.dims target.ty.dims

/-- An index is an element of the target, and it is overwritten before it is used for the last time. -/
def Target.Shifts (target : Target) (coord : List Int) : Prop :=
  ∃ e ∈ target.indexes, ∃ c c', InBounds c target.ty.dims ∧ InBounds c' target.ty.dims ∧ c < c' ∧
    e.place? = some (target.var, coord ++ c)

/-- A value that is not stretched is not smeared, nor is a single element. -/
theorem Target.not_smears {target : Target} {value : Expr} (coord : List Int)
    (h : value.ty.dims = target.ty.dims ∨ value.ty.dims = []) : ¬target.Smears coord value := by
  rintro ⟨place, -, clobbers⟩
  rcases h with same | element
  · exact Flat.not_clobbers_self _ _ _ (same ▸ clobbers)
  · exact Flat.not_clobbers_element _ _ _ (element ▸ clobbers)

/-- An assignment to a single element does not shift. -/
theorem Target.not_shifts {target : Target} (coord : List Int) (h : target.ty.dims = []) : ¬target.Shifts coord := by
  rintro ⟨e, -, c, c', hc, hc', lt, -⟩
  rw [h] at hc hc'
  match c, c', hc, hc' with
  | [], [], _, _ => exact List.lt_irrefl _ lt

end Staged

namespace Flat

open Staged (SlotId Target)
open Steps LowerState
open Operand (Denotes)

variable {p : Program} {m : Meaning} {ctx : LowerContext} {owed : List LabelId} {s s' u : LowerState} {σ : Store p}

/-- What index operands view: a part of a slot that an index is, or a temporary. -/
theorem viewed_indexOperands (held : Held ctx.source) {es : List Staged.Expr} {t w : Ty} {os : List Operand}
    (selects : Staged.Expr.Selects ctx.source.vars es t w) (fit : Staged.Expr.AllFit es)
    (sound : s.Sound ctx.source owed) (run : Lower.indexOperands es ctx s = .ok (os, s')) :
    ∀ o ∈ os, ∀ id coord, o.viewed = .variable id coord →
      (∃ e ∈ es, ∃ k, e.place? = some (k, coord) ∧ s'.var? k = some id) ∨ s.Temporary s' id := by
  induction es generalizing s t os with
  | nil =>
    rw [Lower.indexOperands] at run
    obtain ⟨rfl, rfl⟩ := pure_ok.1 run
    exact fun _ h => (List.not_mem_nil h).elim
  | cons e es ih =>
    rw [Staged.Expr.Selects] at selects
    obtain ⟨n, elem, rfl, we, int, -, selects⟩ := selects
    rw [Lower.indexOperands] at run
    obtain ⟨o, s₁, first, run⟩ := bind_ok.1 run
    obtain ⟨sound₁, -, whole⟩ := (lowers_expr held e we fit.1).of_ok sound first
    have element : o.IsElement s₁.out.vars s₁.stream .int := by
      rw [int] at whole
      exact whole
    rw [if_pos element.isScalar] at run
    obtain ⟨rest, s₂, second, run⟩ := bind_ok.1 run
    obtain ⟨rfl, rfl⟩ := pure_ok.1 run
    have follows₁ := adds_expr e ctx s o s₁ first
    have follows₂ := adds_indexOperands es ctx s₁ rest s₂ second
    intro x hx id coord view
    rcases List.mem_cons.1 hx with rfl | hx
    · have computes : Computes s₁.out addition e s s₁ x := correct_expr held e owed s s₁ x we fit.1 sound first
      rcases (computes.viewed id coord view).2 with ⟨k, place, slot⟩ | new
      · exact .inl ⟨e, List.mem_cons_self, k, place, follows₂.kept k id slot⟩
      · exact .inr (new.after follows₂)
    · rcases ih selects fit.2 sound₁ second x hx id coord view with ⟨e', he', place⟩ | new
      · exact .inl ⟨e', List.mem_cons_of_mem _ he', place⟩
      · exact .inr (new.before follows₁)

/-- Stores write the elements of the target in turn, where the indexes select. An index keeps its value until it is used
for the last time, unless it is an element that is written before. -/
theorem runs_stores {source o : Operand} {t w whole : Ty} {id : VarId} {os : List Operand} {pre : List Int}
    (hsource : source.IsWhole s.out.vars s.stream t) (holds : HoldsTy s.out.vars s.stream id whole)
    (leads : Leads pre whole w) (hs : Stretches t.dims w.dims) (stretched : source.stretch w.dims = .ok o)
    (words : ∀ d ∈ whole.dims, d ≤ 2147483648) (selects : Operand.Selects σ os pre)
    (elements : ∀ x ∈ os, x.IsElement s.out.vars s.stream .int)
    (kept : ∀ x ∈ os, ∀ place, x.viewed = .variable id place →
      ∀ c c', InBounds c w.dims → InBounds c' w.dims → c < c' → place ≠ pre ++ c)
    (run : ((coordinates w.dims).forM fun c => do
      let x ← Lower.orBroken (o.at? c)
      Lower.emit (.store x (.ofVariable id (some whole)) (Operand.ofInt 0 :: os ++ c.map Operand.ofInt))) ctx s =
        .ok ((), s')) (cont : p.Continues s') :
    ∃ ws, Reaches (p.between? m.operators s s') (.running s.code.size σ) ws (.running s'.code.size
      ((coordinates w.dims).foldl (fun σ c => σ.put id (pre ++ c) (source.valueAt σ (broadcast c t.dims))) σ)) ∧
      ∀ w ∈ ws, w.1.var = id := by
  have here := cont.before (Adds.forM (fun c => (Adds.orBroken _).bind fun _ => adds_emit _) _ ctx s () s' run)
  obtain ⟨o', stretched', seen⟩ := Operand.exists_stretch hsource hs
  obtain rfl : o = o' := Except.ok.inj (stretched.symm.trans stretched')
  -- Only elements behind coordinates that are done may have changed.
  refine runs_puts m.operators id (pre ++ ·) (fun c σ => source.valueAt σ (broadcast c t.dims))
    (fun rest σ' => ∀ e : Element p,
      (e.var = id → ∀ c, InBounds c w.dims → (∀ c' ∈ rest, c < c') → e.coord ≠ pre ++ c) → σ' e = σ e)
    (fun c rest suffix => ?_) run cont fun _ _ => rfl
  have hc := mem_coordinates.1 (suffix.mem List.mem_cons_self)
  have first : ∀ c' ∈ rest, c < c' :=
    (List.pairwise_cons.1 ((coordinates_sorted w.dims).sublist suffix.sublist)).1
  obtain ⟨y, at', found, element⟩ := seen c hc
  obtain ⟨e, target⟩ := here.exists_element holds (leads.inBounds hc)
  obtain ⟨rfl, coord⟩ := Program.element?_eq_some.1 target
  refine ⟨.store y (.ofVariable e.var (some whole)) (.ofInt 0 :: os ++ c.map .ofInt), by rw [at']; rfl,
    fun σ' same => ⟨fun e' he' => ?_, e, ?_, rfl, coord⟩⟩
  · rw [Store.put_of_ne _ fun h => he' h c hc first]
    exact same e' fun h c'' hc'' before => he' h c'' hc'' fun c' hc' => before c' (List.mem_cons_of_mem _ hc')
  · obtain ⟨x, read⟩ := element.exists_read here.vars σ'
    have unchanged : ∀ x ∈ os, x.read? σ' = x.read? σ := fun x hx => by
      obtain ⟨v, ds⟩ := x
      obtain rfl : ds = [] := (elements _ hx).dims
      match v with
      | .constant _ => rfl
      | .variable id' place =>
        refine Store.get?_congr_at fun e' var at' => same e' fun var' c' hc' before at'' => ?_
        refine kept _ hx place (by rw [← var, var']) c' c hc' hc (before c List.mem_cons_self) ?_
        rw [← at', at'']
    have inBounds := coord ▸ e.inBounds
    have dims := here.dimsOf holds
    have indexes : Operand.Selects σ' (os ++ c.map .ofInt) e.coord := by
      rw [coord]
      refine (selects.congr unchanged).append (Operand.selects_ofInt (fun i hi => ?_) σ')
      exact inBounds.inRange (dims ▸ words) i (List.mem_append_right _ hi)
    rw [Instr.outcome?, List.cons_append, Operand.selected?_of_selects indexes, Operand.valueAt_eq found, read]
    rfl

/-- Code that was emitted stores values in the part of a variable behind a coordinate, and writes to nothing else but
temporaries. -/
def Stores (p : Program) (ops : Operators) (s s' : LowerState) (σ : Store p) (id : VarId) (coord : List Int) (w : Ty)
    (x : List Int → Scalar) : Prop :=
  ∃ ws σ', Reaches (p.between? ops s s') (.running s.code.size σ) ws (.running s'.code.size σ') ∧
    (∀ c, InBounds c w.dims → σ'.get? id (coord ++ c) = some (x c)) ∧
    ∀ el : Element p, ¬s.Temporary s' el.var → (el.var = id → ∀ c, InBounds c w.dims → el.coord ≠ coord ++ c) →
      σ' el = σ el

/-- Code before writes to temporaries only. -/
theorem Stores.after {ops : Operators} {s₁ : LowerState} {σ₁ : Store p} {id : VarId} {coord : List Int} {w : Ty}
    {x : List Int → Scalar} (h : Stores p ops s₁ s' σ₁ id coord w x) (passes : Passes p ops s s₁ σ σ₁)
    (follows : s.Follows s₁) (later : s₁.Follows s') : Stores p ops s s' σ id coord w x := by
  obtain ⟨ws, σ', reaches, inside, outside⟩ := h
  have frame (el : Element p) := passes.frame (e := el)
  obtain ⟨ws₁, reaches₁, -⟩ := passes
  have both := (reaches_between reaches₁ (.refl s) later).trans (reaches_between reaches follows (.refl s'))
  refine ⟨ws₁ ++ ws, σ', both, inside, fun el kept off => ?_⟩
  exact (outside el (fun new => kept (new.before follows)) off).trans (frame el fun new => kept (new.after later))

section Assignment

variable {target : Target} {value : Staged.Expr} {v : Staged.Variable} {id : VarId} {coord : List Int}

/-- A variable that was made before and is viewed by the operand of an expression is that of the slot that the
expression is a part of. -/
theorem Computes.place {e : Staged.Expr} {o : Operand} (computes : Computes p m e s s' o) (apart : s'.Apart)
    {k : SlotId} (slot : s'.var? k = some id) (old : id < s.out.vars.size) {place : List Int}
    (view : o.viewed = .variable id place) : e.place? = some (k, place) := by
  rcases (computes.viewed id place view).2 with ⟨j, found, slot'⟩ | new
  · rw [found, apart.distinct j k id slot' slot]
  · exact (Nat.not_lt.2 new.new old).elim

/-- The target of an assignment is a part of a variable, and the value is computed and copied into it. -/
theorem stores_constant (held : Held ctx.source) (wvalue : value.WellFormed ctx.source.vars) (fit : value.LiteralsFit)
    (stretches : Stretches value.ty.dims target.ty.dims) (sound : s.Sound ctx.source owed) (apart : s.Apart)
    (slot : s.var? target.var = some id) (holds : HoldsTy s.out.vars s.stream id v.ty)
    (leads : Leads coord v.ty target.ty)
    (run : (do
      let o ← Lower.expr value
      let y ← Lower.orBroken ((Operand.ofVariable id (some v.ty)).at? coord)
      Lower.copyInto o y : Lower Unit) ctx s = .ok ((), s')) :
    s.Follows s' ∧ ∀ {m : Meaning} {p : Program} (σ : Store p), p.Continues s' → value.Indexed m (s'.contents σ) →
      ¬target.Smears coord value →
      Stores p m.operators s s' σ id coord target.ty fun c => value.value m (s'.contents σ)
        (broadcast c value.ty.dims) := by
  obtain ⟨o, s₁, first, run⟩ := bind_ok.1 run
  rw [Operand.ofVariable, Option.elim_some, Operand.at?_variable_of_leads leads, List.nil_append] at run
  have copied : Lower.copyInto o ⟨.variable id coord, Operand.whole target.ty⟩ ctx s₁ = .ok ((), s') := run
  obtain ⟨sound₁, -, whole⟩ := (lowers_expr held value wvalue fit).of_ok sound first
  have follows₁ := adds_expr value ctx s o s₁ first
  have follows₂ := adds_copyInto _ _ ctx s₁ () s' copied
  refine ⟨follows₁.trans follows₂, fun {m p} σ cont indexed smears => ?_⟩
  have computes : Computes p m value s s₁ o := correct_expr held value owed s s₁ o wvalue fit sound first
  obtain ⟨σ₁, passes, denotes⟩ := computes.value s' σ follows₂ cont indexed
  obtain ⟨ws, σ', reaches, -, inside, outside⟩ := runs_copyInto_kept m.operators whole
    (fun place view clobbers => smears ⟨place,
      computes.place (follows₁.apart apart) (follows₁.kept _ _ slot) holds.lt view, clobbers⟩)
    (follows₁.holds holds) leads stretches denotes copied cont
  exact Stores.after ⟨ws, σ', reaches, inside, fun el _ off => outside el off⟩ passes follows₁ follows₂

/-- Where the target is computed as the program runs, the elements of the value are stored where its indexes select. -/
theorem stores_computed (held : Held ctx.source)
    (selects : Staged.Expr.Selects ctx.source.vars target.indexes v.ty target.ty)
    (fits : Staged.Expr.AllFit target.indexes) (wvalue : value.WellFormed ctx.source.vars) (fit : value.LiteralsFit)
    (stretches : Stretches value.ty.dims target.ty.dims) (sound : s.Sound ctx.source owed) (apart : s.Apart)
    (slot : s.var? target.var = some id) (holds : HoldsTy s.out.vars s.stream id v.ty)
    (run : (do
      let os ← Lower.indexOperands target.indexes
      let o ← Lower.expr value
      let o ← Lower.stretch o target.ty.dims
      (coordinates target.ty.dims).forM fun c => do
        let x ← Lower.orBroken (o.at? c)
        Lower.emit (.store x (.ofVariable id (some v.ty)) (Operand.ofInt 0 :: os ++ c.map Operand.ofInt)) :
      Lower Unit) ctx s = .ok ((), s')) :
    s.Follows s' ∧ ∀ {m : Meaning} {p : Program} {coord : List Int} (σ : Store p), p.Continues s' →
      Staged.Expr.AllIndexed m (s'.contents σ) target.indexes → value.Indexed m (s'.contents σ) →
      Staged.Expr.coord? m (s'.contents σ) target.indexes = some coord → Leads coord v.ty target.ty →
      (∀ d ∈ v.ty.dims, d ≤ 2147483648) → ¬target.Smears coord value → ¬target.Shifts coord →
      Stores p m.operators s s' σ id coord target.ty fun c => value.value m (s'.contents σ)
        (broadcast c value.ty.dims) := by
  obtain ⟨os, s₁, first, run⟩ := bind_ok.1 run
  obtain ⟨o, s₂, second, run⟩ := bind_ok.1 run
  obtain ⟨o', t, got, run⟩ := bind_ok.1 run
  obtain ⟨sound₁, -, -, elements⟩ := (lowers_indexOperands held target.indexes selects fits).of_ok sound first
  obtain ⟨sound₂, grows₂, whole⟩ := (lowers_expr held value wvalue fit).of_ok sound₁ second
  obtain ⟨o'', stretched, -⟩ := Operand.exists_stretch whole stretches
  rw [Lower.stretch, stretched] at got
  obtain ⟨rfl, rfl⟩ := pure_ok.1 got
  have follows₁ := adds_indexOperands target.indexes ctx s os s₁ first
  have follows₂ := adds_expr value ctx s₁ o s₂ second
  have follows₃ := Adds.forM (fun c => (Adds.orBroken _).bind fun _ => adds_emit _) _ ctx s₂ () s' run
  have later₁ := follows₂.trans follows₃
  refine ⟨follows₁.trans later₁, fun {m p coord} σ cont indexedAll indexed selected leads words smears shifts => ?_⟩
  have computes : Computes p m value s₁ s₂ o := correct_expr held value owed s₁ s₂ o wvalue fit sound₁ second
  obtain ⟨σ₁, passes₁, values⟩ :=
    passes_indexOperands held (fun e _ => correct_expr held e) selects fits sound first later₁ cont indexedAll
  have contents := passes₁.contents later₁
  obtain ⟨σ₂, passes₂, denotes⟩ := computes.value s' σ₁ follows₃ cont (contents ▸ indexed)
  rw [contents] at denotes
  have selects₂ : Operand.Selects σ₂ os coord := (values coord selected (leads.inRange words)).congr fun x hx =>
    Operand.read?_congr fun e he => passes₂.old ((elements x hx).lt he)
  have slot₁ := follows₁.kept _ _ slot
  have holds₂ := follows₂.holds (follows₁.holds holds)
  obtain ⟨ws, reaches, -⟩ := runs_stores (m := m) whole holds₂ leads stretches stretched words selects₂
    (fun x hx => grows₂.isWhole (elements x hx)) (fun x hx place view c c' hc hc' lt same => by
      rcases viewed_indexOperands held selects fits sound first x hx id place view with ⟨e, he, k, found, slot'⟩ | new
      · obtain rfl := (follows₁.apart apart).distinct k target.var id slot' slot₁
        exact shifts ⟨e, he, c, c', hc, hc', lt, same ▸ found⟩
      · exact Nat.not_lt.2 new.new holds.lt) run cont
  obtain ⟨inside, outside⟩ := stores_valueAt (p := p) whole (fun place view clobbers => smears ⟨place,
    computes.place ((follows₁.trans follows₂).apart apart) (follows₂.kept _ _ slot₁) (follows₁.holds holds).lt view,
    clobbers⟩) ((cont.before follows₃).exists_element holds₂) leads stretches denotes
  exact Stores.after ⟨ws, _, reaches, inside, fun el _ off => outside el off⟩ (passes₁.trans passes₂ follows₁ follows₂)
    (follows₁.trans follows₂) follows₃

/-- The code that flattening emits for a well-formed assignment stores the value of the right side in the store before
the assignment, stretched to the target, and leaves all other elements of variables that existed before, and of slots,
as they were. The indexes are in range, and the assignment neither smears its value nor shifts its target. -/
theorem lower_assign_correct (held : Held ctx.source) (sound : s.Sound ctx.source owed) (apart : s.Apart) {span : Span}
    (wf : (Staged.Stmt.assign target value span).WellFormed ctx.source.vars)
    (fit : Staged.Expr.AllFit (target.indexes ++ [value]))
    (free : ∀ k ∈ (Staged.Stmt.assign target value span).slots, ¬s.Bars k) :
    ∃ s' id, Lower.assign target value ctx s = .ok ((), s') ∧ s'.var? target.var = some id ∧
      ∀ (m : Meaning) (p : Program) (σ : Store p) (coord : List Int), p.Continues s' →
        value.Indexed m (s'.contents σ) → target.At m (s'.contents σ) ctx.source.vars coord →
        ¬target.Smears coord value → ¬target.Shifts coord →
        ∃ ws σ', Reaches (p.step? s.stream m.operators) (.running s.code.size σ) ws (.running s'.code.size σ') ∧
          (∀ c, InBounds c target.ty.dims →
            σ'.get? id (coord ++ c) = some (value.value m (s'.contents σ) (broadcast c value.ty.dims))) ∧
          ∀ el : Element p, (el.var < s.out.vars.size ∨ ∃ k, s'.var? k = some el.var) →
            (el.var = id → ∀ c, InBounds c target.ty.dims → el.coord ≠ coord ++ c) → σ' el = σ el := by
  obtain ⟨⟨⟩, s', run, -⟩ := (lowers_assign held wf fit sound).1 free
  obtain ⟨wvalue, promotes, v, hv, selects⟩ := wf
  have stretches := (Ty.isCommon_of_promotesTo promotes).leftStretches
  obtain ⟨fits, fitValue, -⟩ := Staged.Expr.allFit_append.1 fit
  have whole := run
  rw [Lower.assign] at run
  obtain ⟨x, s₁, first, run⟩ := bind_ok.1 run
  have hvar := held v (Array.mem_of_getElem? hv)
  obtain ⟨sound₁, -⟩ := (lowers_ofSlot hv hvar).of_ok sound first
  obtain ⟨id, rfl, holds, slot, code⟩ := ofSlot_ok hv hvar sound first
  have follows₁ := adds_ofSlot target.var ctx s _ s₁ first
  obtain ⟨r, s₂, told, run⟩ := bind_ok.1 run
  obtain ⟨numbers, rfl⟩ := constantIndexes?_eq told
  have stored : s₂.Follows s' ∧ ∀ (m : Meaning) (p : Program) (σ : Store p) (coord : List Int), p.Continues s' →
      value.Indexed m (s'.contents σ) → target.At m (s'.contents σ) ctx.source.vars coord →
      ¬target.Smears coord value → ¬target.Shifts coord →
      Stores p m.operators s₂ s' σ id coord target.ty
        fun c => value.value m (s'.contents σ) (broadcast c value.ty.dims) := by
    cases r with
    | some coord =>
      obtain ⟨follows, stores⟩ := stores_constant held wvalue fitValue stretches sound₁ (follows₁.apart apart) slot
        holds (leads_of_numbers selects numbers.symm) run
      refine ⟨follows, fun m p σ coord' cont indexed at' smears _ => ?_⟩
      obtain rfl : coord = coord' := Option.some.inj
        ((Staged.Expr.coord?_of_numbers? m _ numbers.symm).symm.trans at'.selected)
      exact stores σ cont indexed smears
    | none =>
      obtain ⟨follows, stores⟩ := stores_computed held selects fits wvalue fitValue stretches sound₁
        (follows₁.apart apart) slot holds run
      refine ⟨follows, fun m p σ coord cont indexed at' smears shifts => ?_⟩
      obtain ⟨v', hv', leads, words⟩ := at'.leads
      obtain rfl : v = v' := Option.some.inj (hv.symm.trans hv')
      exact stores σ cont at'.indexed indexed at'.selected leads (words numbers.symm) smears shifts
  obtain ⟨later, stores⟩ := stored
  refine ⟨s', id, whole, later.kept _ _ slot, fun m p σ coord cont indexed at' smears shifts => ?_⟩
  obtain ⟨ws, σ', reaches, inside, outside⟩ :=
    (stores m p σ coord cont indexed at' smears shifts).after (.still σ code) follows₁ later
  refine ⟨ws, σ', Reaches.of_inside reaches, inside, fun el kept => outside el fun new => ?_⟩
  rcases kept with old | ⟨k, slot⟩
  · exact Nat.not_lt.2 new.new old
  · exact new.free k slot

end Assignment

/-- The one element is copied over the other one, which a variable selects. -/
theorem lower_assign_correct_copy :
    let target : Target := { var := 0, indexes := [.var 1 .int default], ty := .int, span := default }
    let value : Staged.Expr := .index (.var 0 (.array 2 .int) default) [.literal (.int 0) .int default] .int default
    ∃ s' id, Lower.assign target value ⟨arrayAndIndex, fun _ => ""⟩ (.blank arrayAndIndex) = .ok ((), s') ∧
      ∃ (ws : Writes s'.out) (σ' : Store s'.out),
        Reaches (s'.out.step? .main addition.operators) (.running 0 fun e => .int (if e.coord = [0] then 7 else 1)) ws
          (.running s'.code.size σ') ∧
        σ'.get? id [1] = some (.int 7) := by
  intro target value
  have wf : (Staged.Stmt.assign target value default).WellFormed arrayAndIndex.vars :=
    ⟨⟨rfl, 2, .int, rfl, trivial, rfl, ⟨0, rfl, by decide⟩, rfl⟩, rfl, ⟨.array 2 .int, default⟩, rfl, 2, .int, rfl,
      rfl, rfl, trivial, rfl⟩
  obtain ⟨s', id, run, -, correct⟩ := @lower_assign_correct ⟨arrayAndIndex, fun _ => ""⟩ _ _ _ _ held_arrayAndIndex
    (LowerState.sound_blank rfl) (LowerState.apart_blank _) default wf (by decide) fun k _ => Bool.false_ne_true
  refine ⟨s', id, run, ?_⟩
  cases run
  obtain ⟨ws, σ', reaches, inside, -⟩ := correct addition _ (fun e => .int (if e.coord = [0] then 7 else 1)) [1]
    ⟨.refl _, .refl _⟩ ⟨trivial, ⟨trivial, trivial⟩, ⟨[0], rfl, by decide, rfl⟩, fun h => nomatch h⟩
    ⟨⟨trivial, trivial⟩, rfl, _, rfl, ⟨by decide, rfl⟩, fun _ => by decide⟩ (Target.not_smears _ (.inr rfl))
    (Target.not_shifts _ rfl)
  exact ⟨ws, σ', reaches, inside [] trivial⟩

/-- A matrix. -/
def matrix : Staged.Program := { vars := #[⟨.array 2 (.array 2 .int), default⟩] }

/-- Numbers the elements of a matrix. -/
def numbered (p : Program) : Store p := fun e => match e.coord with
  | [i, j] => .int (2 * i + j)
  | _ => .int 0

theorem lower_assign_smears :
    let target : Target := { var := 0, indexes := [], ty := .array 2 (.array 2 .int), span := default }
    let value : Staged.Expr := .index (.var 0 target.ty default) [.literal (.int 0) .int default]
      (.array 2 .int) default
    ∃ s', Lower.assign target value ⟨matrix, fun _ => ""⟩ (.blank matrix) = .ok ((), s') ∧
      ∃ ws σ', Reaches (s'.out.step? .main addition.operators) (.running 0 (numbered s'.out)) ws
          (.running s'.code.size σ') ∧
        value.value addition (s'.contents (numbered s'.out)) (broadcast [1, 0] value.ty.dims) = .int 1 ∧
        σ'.get? 0 [1, 0] = some (.int 0) := by
  exact ⟨_, rfl, _, _, ⟨4, .succ rfl (.succ rfl (.succ rfl (.succ rfl (.zero _))))⟩, rfl, rfl⟩

end Flat

end SignalLang
