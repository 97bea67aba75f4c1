import SignalLang.Proofs.Flat.Invariant

/-!
# Relations along straight-line code

Flattening an expression appends instructions that fill an element, makes variables and gives slots variables. A
relation between states that each of these changes goes along with (`StraightLine`) therefore relates the states before
and after any such step that ended (`Along`). `along_expr` is by induction on the expression; every other step
that the code of an expression is made of has its lemma here too.
-/

namespace SignalLang.Flat

open Staged (SlotId ScopeId)
open Steps

/-- A relation between states that goes along with the changes of straight-line code. -/
structure StraightLine (R : LowerState → LowerState → Prop) : Prop where
  refl : ∀ s, R s s
  trans : ∀ {s s' s''}, R s s' → R s' s'' → R s s''
  emit : ∀ s (i : Instr) o, i.target? = some o → R s { s with out := s.out.emit s.stream i }
  addVariable : ∀ s v, R s { s with out := s.out.addVariable v }
  give : ∀ s k v, s.var? k = none → R s (LowerState.give { s with out := s.out.addVariable v } k s.out.vars.size)

/-- A step leads from a state to a related one, when it ends. -/
def Along {α : Type} (R : LowerState → LowerState → Prop) (m : Lower α) : Prop :=
  ∀ ctx s a s', m ctx s = .ok (a, s') → R s s'

section Relation

variable {R : LowerState → LowerState → Prop} (line : StraightLine R)

namespace Along

variable {α β : Type} {m : Lower α} {f : α → Lower β}

theorem stop (o : Obstacle) : Along R (Lower.stop o : Lower α) := fun _ _ _ _ run => by cases run

theorem modify {g : LowerState → LowerState} (h : ∀ s, R s (g s)) : Along R (modify g) := by
  intro ctx s u s' run
  obtain rfl := modify_ok.1 run
  exact h s

include line

theorem pure (a : α) : Along R (Pure.pure a) := by
  intro ctx s b s' run
  obtain ⟨-, rfl⟩ := pure_ok.1 run
  exact line.refl s

theorem get : Along R (get : Lower LowerState) := by
  intro ctx s t s' run
  obtain ⟨-, rfl⟩ := get_ok.1 run
  exact line.refl s

theorem read : Along R (read : Lower LowerContext) := by
  intro ctx s t s' run
  obtain ⟨-, rfl⟩ := read_ok.1 run
  exact line.refl s

theorem bind (hm : Along R m) (hf : ∀ a, Along R (f a)) : Along R (m >>= f) := by
  intro ctx s b s'' run
  obtain ⟨a, s', first, run⟩ := bind_ok.1 run
  exact line.trans (hm ctx s a s' first) (hf a ctx s' b s'' run)

theorem forM_of_mem {f : α → Lower Unit} {xs : List α} (h : ∀ a ∈ xs, Along R (f a)) : Along R (xs.forM f) := by
  induction xs with
  | nil => exact pure line ()
  | cons x xs ih =>
    exact bind line (h x List.mem_cons_self) fun _ => ih fun y hy => h y (List.mem_cons_of_mem _ hy)

theorem forM {f : α → Lower Unit} (h : ∀ a, Along R (f a)) (xs : List α) : Along R (xs.forM f) :=
  forM_of_mem line fun a _ => h a

theorem orBroken (o : Option α) : Along R (Lower.orBroken o) := by
  cases o with
  | none => exact stop .broken
  | some a => exact pure line a

end Along

include line

theorem along_emit {i : Instr} {o : Operand} (h : i.target? = some o) : Along R (Lower.emit i) :=
  .modify fun s => line.emit s i o h

theorem along_newVariable (ty : Ty) (location : Location) : Along R (Lower.newVariable ty location) :=
  .bind line (.get line) fun _ => .bind line (.modify fun s => line.addVariable s _) fun _ => .pure line _

theorem along_temp (ty : Ty) : Along R (Lower.temp ty) :=
  .bind line (.get line) fun _ => .bind line (along_newVariable line ty _) fun _ => .pure line _

theorem along_variableAt (k : SlotId) (location : Location) : Along R (Lower.variableAt k location) := by
  intro ctx s id s' run
  cases old : s.var? k with
  | some old' =>
    rw [variableAt_old old] at run
    cases run
    exact line.refl s
  | none =>
    cases found : ctx.source.vars[k]? with
    | none =>
      obtain ⟨t, t', got, run⟩ := bind_ok.1 run
      obtain ⟨rfl, rfl⟩ := get_ok.1 got
      have old : s.slots.getD k none = none := old
      rw [old] at run
      obtain ⟨c, t, got, run⟩ := bind_ok.1 run
      obtain ⟨rfl, rfl⟩ := read_ok.1 got
      obtain ⟨v, t, got, -⟩ := bind_ok.1 run
      rw [found] at got
      cases got
    | some v =>
      rw [variableAt_new old found] at run
      cases run
      exact line.give s k _ old

theorem along_ofSlot (k : SlotId) : Along R (Lower.ofSlot k) := by
  refine .bind line (.get line) fun s => ?_
  split
  · exact .stop _
  · exact .bind line (along_variableAt line k _) fun _ => .bind line (.get line) fun _ => .pure line _

theorem along_stretch (o : Operand) (target : List Int) : Along R (Lower.stretch o target) := by
  unfold Lower.stretch
  split
  · exact .pure line _
  · exact .stop _

theorem along_copyInto (source target : Operand) : Along R (Lower.copyInto source target) := by
  refine .bind line (along_stretch line _ _) fun _ => .forM line (fun c => ?_) _
  exact .bind line (.orBroken line _) fun _ => .bind line (.orBroken line _) fun _ => along_emit line rfl

theorem along_constantIndexes? (es : List Staged.Expr) : Along R (Lower.constantIndexes? es) := by
  fun_induction Lower.constantIndexes? es with
  | case1 => exact .pure line _
  | case2 n _ _ rest ih => exact .bind line ih fun _ => .pure line _
  | case3 => exact .stop _
  | case4 => exact .pure line _

theorem along_addressable (o : Operand) : Along R (Lower.addressable o) := by
  have inMemory : Along R (do
      let ty ← Lower.orBroken (o.ty? (← get).out.vars)
      let id ← Lower.newVariable ty (← get).stream.location
      Lower.copyInto o (.ofVariable id (some ty))
      return (id, []) : Lower (VarId × List Int)) :=
    .bind line (.get line) fun _ => .bind line (.orBroken line _) fun _ => .bind line (.get line) fun _ =>
      .bind line (along_newVariable line _ _) fun _ => .bind line (along_copyInto line _ _) fun _ => .pure line _
  unfold Lower.addressable
  dsimp only
  split
  · exact inMemory
  · split
    · exact inMemory
    · exact .pure line _

mutual

theorem along_expr : (e : Staged.Expr) → Along R (Lower.expr e)
  | .literal _ _ _ => by
    rw [Lower.expr]
    exact .pure line _
  | .var id _ _ => by
    rw [Lower.expr]
    exact along_ofSlot line id
  | .index base indexes ty _ => by
    rw [Lower.expr]
    refine .bind line (along_expr base) fun o => .bind line (along_constantIndexes? line indexes) fun r => ?_
    split
    · exact .orBroken line _
    · refine .bind line (along_addressable line o) fun _ => .bind line (along_indexOperands indexes) fun _ =>
        .bind line (.get line) fun _ => .bind line (along_temp line ty) fun _ =>
          .bind line (.forM line (fun c => ?_) _) fun _ => .pure line _
      exact .bind line (.orBroken line _) fun _ => along_emit line rfl
  | .collect items ty _ => by
    rw [Lower.expr]
    exact .bind line (along_temp line ty) fun x => .bind line (along_collect x 0 items) fun _ => .pure line _
  | .unary op a ty _ => by
    rw [Lower.expr]
    refine .bind line (along_expr a) fun _ => .bind line (along_temp line ty) fun _ =>
      .bind line (.forM line (fun c => ?_) _) fun _ => .pure line _
    exact .bind line (.orBroken line _) fun _ => .bind line (.orBroken line _) fun _ => along_emit line rfl
  | .binary op l r ty _ => by
    rw [Lower.expr]
    refine .bind line (along_expr l) fun _ => .bind line (along_expr r) fun _ => ?_
    split
    · exact .stop _
    · refine .bind line (along_stretch line _ _) fun _ => .bind line (along_stretch line _ _) fun _ =>
        .bind line (along_temp line ty) fun _ => .bind line (.forM line (fun c => ?_) _) fun _ => .pure line _
      exact .bind line (.orBroken line _) fun _ => .bind line (.orBroken line _) fun _ =>
        .bind line (.orBroken line _) fun _ => along_emit line rfl
  | .missing => by
    rw [Lower.expr]
    exact .stop _

theorem along_indexOperands : (es : List Staged.Expr) → Along R (Lower.indexOperands es)
  | [] => by
    rw [Lower.indexOperands]
    exact .pure line []
  | e :: es => by
    rw [Lower.indexOperands]
    refine .bind line (along_expr e) fun o => ?_
    split
    · exact .bind line (along_indexOperands es) fun _ => .pure line _
    · exact .stop _

theorem along_collect (x : Operand) (i : Nat) : (es : List Staged.Expr) → Along R (Lower.collect x i es)
  | [] => by
    rw [Lower.collect]
    exact .pure line ()
  | e :: es => by
    rw [Lower.collect]
    exact .bind line (along_expr e) fun _ => .bind line (.orBroken line _) fun _ =>
      .bind line (along_copyInto line _ _) fun _ => along_collect x (i + 1) es

end

theorem along_assign (target : Staged.Target) (value : Staged.Expr) : Along R (Lower.assign target value) := by
  refine .bind line (along_ofSlot line _) fun whole => .bind line (along_constantIndexes? line _) fun r => ?_
  split
  · exact .bind line (along_expr line value) fun _ => .bind line (.orBroken line _) fun _ =>
      along_copyInto line _ _
  · refine .bind line (along_indexOperands line _) fun _ => .bind line (along_expr line value) fun _ =>
      .bind line (along_stretch line _ _) fun _ => .forM line (fun c => ?_) _
    exact .bind line (.orBroken line _) fun _ => along_emit line rfl

/-- The variables of a list of the interface. -/
theorem along_interface (slots : List SlotId) (location : Location) : Along R (Lower.interface slots location) := by
  unfold Lower.interface
  induction slots with
  | nil => exact .pure line _
  | cons k slots ih =>
    rw [List.mapM_cons]
    exact .bind line (along_variableAt line k location) fun _ => .bind line ih fun _ => .pure line _

end Relation

end SignalLang.Flat
