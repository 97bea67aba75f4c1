import SignalLang.Proofs.Flat.Along

/-!
# What flattening adds

Steps of flattening append instructions, make variables and give slots variables. They take nothing back:
`LowerState.Follows` relates the states before and after a step that ended, whatever the step is about. A slot keeps
its variable, and one that gets a variable gets a new one, so that slots never share variables (`LowerState.Apart`).

A variable that was made in between and belongs to no slot is a temporary of the step (`LowerState.Temporary`).
-/

namespace SignalLang.Flat

open Staged (SlotId ScopeId)
open Steps

namespace LowerState

/-- Slots have different variables, which exist. -/
structure Apart (s : LowerState) : Prop where
  made : ∀ k id, s.var? k = some id → id < s.out.vars.size
  distinct : ∀ j k id, s.var? j = some id → s.var? k = some id → j = k

/-- A state comes later than another one in the same stream. -/
structure Follows (s s' : LowerState) : Prop where
  stream : s'.stream = s.stream
  vars : Extends s.out.vars s'.out.vars
  code : Extends s.code s'.code
  size : s'.slots.size = s.slots.size
  kept : ∀ k id, s.var? k = some id → s'.var? k = some id
  fresh : ∀ k id, s'.var? k = some id → s.var? k = some id ∨ s.out.vars.size ≤ id ∧ id < s'.out.vars.size
  apart : s.Apart → s'.Apart

/-- A variable was made between two states, and no slot of the second has it. -/
structure Temporary (s s' : LowerState) (id : VarId) : Prop where
  new : s.out.vars.size ≤ id
  made : id < s'.out.vars.size
  free : ∀ k, s'.var? k ≠ some id

variable {s s' s'' : LowerState}

theorem Follows.refl (s : LowerState) : s.Follows s :=
  ⟨rfl, .refl _, .refl _, rfl, fun _ _ h => h, fun _ _ h => .inl h, id⟩

theorem Follows.trans (h : s.Follows s') (h' : s'.Follows s'') : s.Follows s'' where
  stream := h'.stream.trans h.stream
  vars := h.vars.trans h'.vars
  code := h.code.trans h'.code
  size := h'.size.trans h.size
  kept k id hk := h'.kept k id (h.kept k id hk)
  fresh k id hk := by
    have before := h.vars.size_le
    have after := h'.vars.size_le
    rcases h'.fresh k id hk with hk | ⟨new, made⟩
    · exact (h.fresh k id hk).imp_right fun ⟨new, made⟩ => ⟨new, Nat.lt_of_lt_of_le made after⟩
    · exact .inr ⟨Nat.le_trans before new, made⟩
  apart := h'.apart ∘ h.apart

theorem Follows.holds (h : s.Follows s') {id : VarId} {t : Ty} (ht : HoldsTy s.out.vars s.stream id t) :
    HoldsTy s'.out.vars s'.stream id t := by
  rw [h.stream]
  exact ht.mono h.vars

theorem Temporary.before (h : s.Follows s') {id : VarId} (ht : s'.Temporary s'' id) : s.Temporary s'' id :=
  ⟨Nat.le_trans h.vars.size_le ht.new, ht.made, ht.free⟩

theorem Temporary.after (h : s'.Follows s'') {id : VarId} (ht : s.Temporary s' id) : s.Temporary s'' id := by
  refine ⟨ht.new, Nat.lt_of_lt_of_le ht.made h.vars.size_le, fun k hk => ?_⟩
  rcases h.fresh k id hk with hk | ⟨new, -⟩
  · exact ht.free k hk
  · exact Nat.not_lt.2 new ht.made

/-- A change that leaves slots alone and takes nothing back. -/
theorem Follows.still (stream : s'.stream = s.stream) (vars : Extends s.out.vars s'.out.vars)
    (code : Extends s.code s'.code) (slots : s'.slots = s.slots) : s.Follows s' := by
  have var? (k : SlotId) : s'.var? k = s.var? k := by rw [LowerState.var?, LowerState.var?, slots]
  refine ⟨stream, vars, code, congrArg _ slots, fun k id hk => (var? k).trans hk,
    fun k id hk => .inl ((var? k).symm.trans hk), fun h => ?_⟩
  refine ⟨fun k id hk => ?_, fun j k id hj hk => ?_⟩
  · exact Nat.lt_of_lt_of_le (h.made k id ((var? k).symm.trans hk)) vars.size_le
  · exact h.distinct j k id ((var? j).symm.trans hj) ((var? k).symm.trans hk)

end LowerState

open LowerState

theorem code_emit (s : LowerState) (i : Instr) :
    (⟨s.out.emit s.stream i, s.stream, s.slots, s.mainOnly⟩ : LowerState).code = s.code.push i :=
  (Program.stream_emit ..).trans (if_pos rfl)

theorem follows_emit (s : LowerState) (i : Instr) : s.Follows { s with out := s.out.emit s.stream i } := by
  refine .still rfl ?_ ?_ rfl
  · rw [Program.vars_emit]
    exact .refl _
  · rw [code_emit]
    exact .push _ _

theorem follows_addVariable (s : LowerState) (v : Variable) : s.Follows { s with out := s.out.addVariable v } := by
  refine .still rfl (.push _ _) ?_ rfl
  unfold code
  rw [Program.stream_addVariable]
  exact .refl _

theorem LowerState.var?_give_eq_some {s : LowerState} {j k : SlotId} {id i : VarId}
    (h : (s.give k id).var? j = some i) : k = j ∧ id = i ∨ s.var? j = some i := by
  simp only [var?, give, Array.getD_eq_getD_getElem?, Array.getElem?_setIfInBounds] at h ⊢
  split at h
  · split at h
    · exact .inl ⟨‹_›, Option.some.inj h⟩
    · cases h
  · exact .inr h

/-- A slot without a variable gets a new one. -/
theorem LowerState.Follows.give {s : LowerState} {k : SlotId} (h : s.var? k = none) (v : Variable) :
    s.Follows (LowerState.give { s with out := s.out.addVariable v } k s.out.vars.size) := by
  have add := follows_addVariable s v
  have size : (s.out.addVariable v).vars.size = s.out.vars.size + 1 := Array.size_push _
  have was {j : SlotId} {id : VarId}
      (hj : (LowerState.give { s with out := s.out.addVariable v } k s.out.vars.size).var? j = some id) :
      k = j ∧ s.out.vars.size = id ∨ s.var? j = some id := var?_give_eq_some hj
  refine ⟨rfl, add.vars, add.code, Array.size_setIfInBounds, fun j id hj => ?_, fun j id hj => ?_,
    fun apart => ⟨fun j id hj => ?_, ?_⟩⟩
  · have other : k ≠ j := fun same => by
      subst same
      rw [h] at hj
      cases hj
    simp only [var?, LowerState.give, Array.getD_eq_getD_getElem?, Array.getElem?_setIfInBounds, if_neg other]
    simpa only [var?, Array.getD_eq_getD_getElem?] using hj
  · rcases was hj with ⟨-, rfl⟩ | hj
    · exact .inr ⟨Nat.le_refl _, Nat.lt_of_lt_of_eq (Nat.lt_succ_self _) size.symm⟩
    · exact .inl hj
  · show id < (s.out.addVariable v).vars.size
    rw [size]
    rcases was hj with ⟨-, rfl⟩ | hj
    · exact Nat.lt_succ_self _
    · exact Nat.lt_succ_of_lt (apart.made j id hj)
  · intro i j id hi hj
    rcases was hi with ⟨rfl, rfl⟩ | hi <;> rcases was hj with ⟨rfl, same⟩ | hj
    · rfl
    · exact (Nat.lt_irrefl _ (apart.made j _ hj)).elim
    · exact (Nat.lt_irrefl _ (same ▸ apart.made i _ hi)).elim
    · exact apart.distinct i j id hi hj

/-- Straight-line code takes nothing back. -/
theorem straightLine_follows : StraightLine LowerState.Follows where
  refl := .refl
  trans := .trans
  emit s i _ _ := follows_emit s i
  addVariable := follows_addVariable
  give _ _ v h := .give h v

/-- A step only adds, when it ends. -/
def Adds {α : Type} (m : Lower α) : Prop := ∀ ctx s a s', m ctx s = .ok (a, s') → s.Follows s'

namespace Adds

variable {α β : Type} {m : Lower α} {f : α → Lower β}

theorem read : Adds (read : Lower LowerContext) := Along.read straightLine_follows

theorem bind (hm : Adds m) (hf : ∀ a, Adds (f a)) : Adds (m >>= f) := Along.bind straightLine_follows hm hf

theorem forM_of_mem {f : α → Lower Unit} {xs : List α} (h : ∀ a ∈ xs, Adds (f a)) : Adds (xs.forM f) :=
  Along.forM_of_mem straightLine_follows h

theorem forM {f : α → Lower Unit} (h : ∀ a, Adds (f a)) (xs : List α) : Adds (xs.forM f) :=
  Along.forM straightLine_follows h xs

theorem orBroken (o : Option α) : Adds (Lower.orBroken o) := Along.orBroken straightLine_follows o

end Adds

theorem adds_emit (i : Instr) : Adds (Lower.emit i) := Along.modify fun s => follows_emit s i

theorem adds_label : Adds Lower.label := by
  have line := straightLine_follows
  refine Along.bind line (.get line) fun s => .bind line (.modify fun s => .still rfl ?_ ?_ rfl) fun _ => .pure line _
  · rw [Program.vars_addLabel]
    exact .refl _
  · unfold code
    rw [Program.stream_addLabel]
    exact .refl _

theorem adds_newVariable (ty : Ty) (location : Location) : Adds (Lower.newVariable ty location) :=
  along_newVariable straightLine_follows ty location

theorem adds_temp (ty : Ty) : Adds (Lower.temp ty) := along_temp straightLine_follows ty

theorem adds_variableAt (k : SlotId) (location : Location) : Adds (Lower.variableAt k location) :=
  along_variableAt straightLine_follows k location

theorem adds_ofSlot (k : SlotId) : Adds (Lower.ofSlot k) := along_ofSlot straightLine_follows k

theorem adds_copyInto (source target : Operand) : Adds (Lower.copyInto source target) :=
  along_copyInto straightLine_follows source target

theorem adds_addressable (o : Operand) : Adds (Lower.addressable o) := along_addressable straightLine_follows o

theorem adds_expr (e : Staged.Expr) : Adds (Lower.expr e) := along_expr straightLine_follows e

theorem adds_indexOperands (es : List Staged.Expr) : Adds (Lower.indexOperands es) :=
  along_indexOperands straightLine_follows es

theorem adds_collect (x : Operand) (i : Nat) (es : List Staged.Expr) : Adds (Lower.collect x i es) :=
  along_collect straightLine_follows x i es

end SignalLang.Flat
