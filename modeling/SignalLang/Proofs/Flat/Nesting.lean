import Mathlib.Data.Finset.Card
import Mathlib.Logic.Relation
import SignalLang.Flat.Lower
import SignalLang.Proofs.Steps
import SignalLang.Proofs.Staged.Typing

/-!
# Nested scopes

Flattening follows scopes inside scopes to a bounded depth. In a program whose scopes do not stand inside themselves
the bound is never met: scopes have ranks that go down from a scope to those inside it and are no greater than the
number of scopes (`Staged.Program.Acyclic.exists_rank`), and every bound beyond the rank of a scope comes to the same
(`scope_alike`).
-/

namespace SignalLang

open Staged (SlotId ScopeId)

namespace Staged.Program

/-- A scope stands directly inside another one. -/
def Nests (p : Program) (i j : ScopeId) : Prop := ∃ st ∈ p.scope i, j ∈ st.scopes

/-- No scope stands inside itself. -/
def Acyclic (p : Program) : Prop := ∀ i, ¬Relation.TransGen p.Nests i i

variable {p : Program}

theorem Nests.lt_size {i j : ScopeId} (h : p.Nests i j) : i < p.scopes.size := by
  obtain ⟨st, mem, -⟩ := h
  refine Nat.lt_of_not_le fun missing => ?_
  rw [scope, Array.getD_eq_getD_getElem?, Array.getElem?_eq_none missing] at mem
  simp at mem

open Classical in
/-- The rank of a scope is the number of scopes inside it, counted from one. -/
theorem Acyclic.exists_rank (h : p.Acyclic) : ∃ rank : ScopeId → Nat,
    (∀ i j, p.Nests i j → rank j < rank i) ∧ ∀ i, rank i ≤ p.scopes.size := by
  let inside (i : ScopeId) : Finset ScopeId := {k ∈ Finset.range p.scopes.size | Relation.TransGen p.Nests i k}
  have proper {i : ScopeId} (hi : i < p.scopes.size) : inside i ⊂ Finset.range p.scopes.size :=
    Finset.filter_ssubset.2 ⟨i, Finset.mem_range.2 hi, h i⟩
  refine ⟨fun i => if i < p.scopes.size then (inside i).card + 1 else 0, fun i j nests => ?_, fun i => ?_⟩
  · dsimp only
    rw [if_pos nests.lt_size]
    split
    · refine Nat.succ_lt_succ (Finset.card_lt_card ?_)
      refine (Finset.ssubset_iff_of_subset fun k hk => ?_).2 ⟨j, ?_, fun hj => h j (Finset.mem_filter.1 hj).2⟩
      · obtain ⟨hk, path⟩ := Finset.mem_filter.1 hk
        exact Finset.mem_filter.2 ⟨hk, path.head nests⟩
      · exact Finset.mem_filter.2 ⟨Finset.mem_range.2 ‹_›, .single nests⟩
    · exact Nat.succ_pos _
  · dsimp only
    split
    · have := Finset.card_lt_card (proper ‹_›)
      rwa [Finset.card_range] at this
    · exact Nat.zero_le _

end Staged.Program

namespace Flat

open Steps

/-- Steps that do the same in a context. -/
def Alike {α : Type} (ctx : LowerContext) (m m' : Lower α) : Prop := ∀ s, m ctx s = m' ctx s

namespace Alike

variable {α β : Type} {ctx : LowerContext}

theorem refl (m : Lower α) : Alike ctx m m := fun _ => rfl

theorem bind {m m' : Lower α} {f f' : α → Lower β} (hm : Alike ctx m m') (hf : ∀ a, Alike ctx (f a) (f' a)) :
    Alike ctx (m >>= f) (m' >>= f') := by
  intro s
  rw [bind_run, bind_run, hm s]
  cases m' ctx s with
  | error e => rfl
  | ok r => exact hf r.1 r.2

theorem same_bind (m : Lower α) {f f' : α → Lower β} (hf : ∀ a, Alike ctx (f a) (f' a)) :
    Alike ctx (m >>= f) (m >>= f') := (refl m).bind hf

theorem forM {f f' : α → Lower Unit} {xs : List α} (h : ∀ x ∈ xs, Alike ctx (f x) (f' x)) :
    Alike ctx (xs.forM f) (xs.forM f') := by
  induction xs with
  | nil => exact refl _
  | cons x xs ih =>
    exact (h x List.mem_cons_self).bind fun _ => ih fun y hy => h y (List.mem_cons_of_mem _ hy)

end Alike

section Scopes

variable {ctx : LowerContext} {scope scope' : ScopeId → Lower Unit}

theorem alike_clauses {done : LabelId} {cs : List Staged.Clause}
    (h : ∀ j ∈ cs.map (·.body), Alike ctx (scope j) (scope' j)) :
    Alike ctx (Lower.clauses scope done cs) (Lower.clauses scope' done cs) := by
  induction cs with
  | nil => exact .refl _
  | cons c cs ih =>
    rw [Lower.clauses, Lower.clauses]
    refine .same_bind _ fun _ => .same_bind _ fun _ => .same_bind _ fun _ => .same_bind _ fun _ =>
      .same_bind _ fun _ => .bind (h c.body List.mem_cons_self) fun _ => .same_bind _ fun _ => .same_bind _ fun _ => ?_
    exact ih fun j hj => h j (List.mem_cons_of_mem _ hj)

/-- A statement depends on what is done with the scopes in it only. -/
theorem alike_stmt {st : Staged.Stmt} (h : ∀ j ∈ st.scopes, Alike ctx (scope j) (scope' j)) :
    Alike ctx (Lower.stmt scope st) (Lower.stmt scope' st) := by
  cases st with
  | assign | assert | missing => exact .refl _
  | branch cs otherwise span =>
    refine .same_bind _ fun _ => .bind (alike_clauses fun j hj => h j (List.mem_append_left _ hj)) fun _ => ?_
    cases otherwise with
    | none => exact .refl _
    | some j => exact .bind (h j (List.mem_append_right _ List.mem_cons_self)) fun _ => .refl _
  | loop counter start stop body span =>
    refine .same_bind _ fun _ => .same_bind _ fun _ => .same_bind _ fun _ => .same_bind _ fun _ => .same_bind _ fun _ =>
      .same_bind _ fun _ => .same_bind _ fun _ => ?_
    exact .same_bind _ fun _ => .same_bind _ fun _ => .bind (h body List.mem_cons_self) fun _ => .refl _
  | inlined body span => exact h body List.mem_cons_self

/-- Bounds beyond the rank of a scope come to the same. -/
theorem scope_alike {rank : ScopeId → Nat} (down : ∀ i j, ctx.source.Nests i j → rank j < rank i) {fuel fuel' : Nat}
    {i : ScopeId} (h : rank i < fuel) (h' : rank i < fuel') : Alike ctx (Lower.scope fuel i) (Lower.scope fuel' i) := by
  induction fuel generalizing fuel' i with
  | zero => exact absurd h (Nat.not_lt_zero _)
  | succ fuel ih =>
    cases fuel' with
    | zero => exact absurd h' (Nat.not_lt_zero _)
    | succ fuel' =>
      intro s
      have enter (n : Nat) : Lower.scope (n + 1) i ctx s = (Lower.orBroken ctx.source.scopes[i]? >>= fun body =>
        body.toList.forM (Lower.stmt (Lower.scope n))) ctx s := rfl
      rw [enter, enter]
      cases found : ctx.source.scopes[i]? with
      | none => rfl
      | some body =>
        refine Alike.forM (fun st hst => alike_stmt fun j hj => ?_) s
        have nests : ctx.source.Nests i j := by
          refine ⟨st, ?_, hj⟩
          rw [Staged.Program.scope, Array.getD_eq_getD_getElem?, found]
          exact Array.mem_toList_iff.1 hst
        have lower := down i j nests
        exact ih (by omega) (by omega)

end Scopes

/-- In an acyclic program the bound that flattening works with is as good as any greater one. -/
theorem scope_fuel {ctx : LowerContext} (acyclic : ctx.source.Acyclic) {fuel : Nat}
    (enough : ctx.source.scopes.size < fuel) (i : ScopeId) :
    Alike ctx (Lower.scope fuel i) (Lower.scope (ctx.source.scopes.size + 1) i) := by
  obtain ⟨rank, down, bounded⟩ := acyclic.exists_rank
  exact scope_alike down (Nat.lt_of_le_of_lt (bounded i) enough) (Nat.lt_succ_of_le (bounded i))

end Flat

end SignalLang
