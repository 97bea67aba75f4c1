import Mathlib.Order.Defs.Unbundled
import SignalLang.Proofs.Staged.Depth
import SignalLang.Proofs.Staged.MacroFlow
import SignalLang.Proofs.Staged.Preservation

/-!
# Laws of staging

Whatever staging does to its state, it does by few kinds of steps. `Stage.Law c W R` says that the relation `R` holds
across each of them, where only variables of `W` are written. Then it holds across every expression, if it does across
calls (`Stage.respects_expression`). With a few facts on macros that are entered (`Stage.Law.Entering`) and on scopes
that may not run (`Stage.Law.Branching`) it holds across every statement and every scope
(`Stage.respects_statement`, `Stage.respects_block`).

What a statement writes is read off it (`Scoped.Stmt.written`), without the scopes it enters. `Stage.confined` works
scopes out like `Stage.block`, but enters no scope that writes outside of `W`.
-/

namespace SignalLang.Staged

open Scoped (VarId Only writtenBy writtenBy_append writtenBy_cons)
open Steps

namespace Stage

variable {α β : Type}

/-- The relation holds between the states before and behind the step, when it ends. -/
def Respects (c : Context) (R : State → State → Prop) (m : Stage α) : Prop :=
  ∀ s a s', m c s = .ok (a, s') → R s s'

/-- The part of a static block that works its body out. -/
def staticBody (run : Scoped.ScopeId → Stage Unit) (body : Scoped.ScopeId) (exports : List VarId) (span : Span) :
    Stage (List Record) := do
  let s ← get
  let into := if s.discarding then none else some s.out.staticInit
  set { s with current := into, inStatic := true }
  let records ← withTable s.table do
    run body
    exported exports span
  modify fun t => { t with current := s.current, inStatic := s.inStatic }
  return records

/-- A relation that holds across the steps which expressions are worked out by, calls apart. -/
structure Law (c : Context) (W : VarId → Prop) (R : State → State → Prop) : Prop where
  newSlot : ∀ ty definition, Respects c R (newSlot ty definition)
  emit : ∀ st, st.scopes = [] → Respects c R (emit st)
  settled : ∀ id r, Respects c R (modify fun s => { s with records := s.records.setIfInBounds id r })
  tracked : ∀ v r, Respects c R (tracked v r)
  track : ∀ v, W v → ∀ d, Respects c R (track v d)
  trackAt : ∀ v, W v → ∀ r coord d, Respects c R (trackAt v r coord d)

variable {c : Context} {W : VarId → Prop} {R : State → State → Prop}

namespace Respects

variable {m n : Stage α} {f : α → Stage β}

theorem get_bind {f : State → Stage β} (h : ∀ s, Respects c R (f s)) : Respects c R (get >>= f) := by
  intro s b s' run
  obtain ⟨_, _, got, rest⟩ := bind_ok.1 run
  obtain ⟨rfl, rfl⟩ := get_ok.1 got
  exact h s s b s' rest

theorem read_bind {f : Context → Stage β} (h : Respects c R (f c)) : Respects c R (read >>= f) := by
  intro s b s' run
  obtain ⟨_, _, got, rest⟩ := bind_ok.1 run
  obtain ⟨rfl, rfl⟩ := read_ok.1 got
  exact h s b s' rest

theorem modify {g : State → State} (h : ∀ s, R s (g s)) : Respects c R (modify g) := by
  intro s b s' run
  obtain rfl := modify_ok.1 run
  exact h s

theorem fail (e : Failure) : Respects c R (throw e : Stage α) := fun _ _ _ run => (throw_ok.1 run).elim

theorem refuse (p : Problem) : Respects c R (Stage.refuse p : Stage α) := fail _

theorem breakDown (f : Fault) : Respects c R (Stage.breakDown f : Stage α) := fail _

theorem ite {p : Prop} [Decidable p] (hm : Respects c R m) (hn : Respects c R n) :
    Respects c R (if p then m else n) := by
  split
  · exact hm
  · exact hn

/-- A check that stops with a problem. -/
theorem check {p : Prop} [Decidable p] {problem : Problem} {f : β → Stage α} (h : Respects c R m) :
    Respects c R (if p then Stage.refuse problem >>= f else m) := by
  refine ite (fun s a s' run => ?_) h
  obtain ⟨_, _, stopped, -⟩ := bind_ok.1 run
  exact (throw_ok.1 stopped).elim

variable [IsPreorder State R]

theorem pure (a : α) : Respects c R (Pure.pure a) := by
  intro s b s' run
  obtain ⟨-, rfl⟩ := pure_ok.1 run
  exact refl_of R s

theorem bind (hm : Respects c R m) (hf : ∀ a, Respects c R (f a)) : Respects c R (m >>= f) := by
  intro s b u run
  obtain ⟨a, t, first, rest⟩ := bind_ok.1 run
  exact trans_of R (hm s a t first) (hf a t b u rest)

theorem map {g : α → β} (hm : Respects c R m) : Respects c R (g <$> m) := by
  rw [← bind_pure_comp g m]
  exact bind hm fun a => pure _

theorem orBadShape (a? : Option α) : Respects c R (Stage.orBadShape a?) := by
  cases a? with
  | none => exact breakDown _
  | some a => exact pure a

theorem forM (xs : List α) {f : α → Stage PUnit} (hf : ∀ x ∈ xs, Respects c R (f x)) : Respects c R (xs.forM f) := by
  induction xs with
  | nil => exact pure _
  | cons x xs ih =>
    exact bind (hf x List.mem_cons_self) fun _ => ih fun y hy => hf y (List.mem_cons_of_mem _ hy)

theorem mapM (xs : List α) {f : α → Stage β} (hf : ∀ x, Respects c R (f x)) : Respects c R (xs.mapM f) := by
  induction xs with
  | nil => exact pure _
  | cons x xs ih =>
    rw [List.mapM_cons]
    exact bind (hf x) fun _ => bind ih fun _ => pure _

end Respects

/-! ## What compound steps are made of -/

section Inversions

variable {run : Scoped.ScopeId → Stage Unit} {s s' : State}

theorem newScope_inv {scope : ScopeId} (h : newScope c s = .ok (scope, s')) :
    scope = s.out.scopes.size ∧ s' = { s with out := s.out.addScope } := by
  simp only [newScope, bind_ok, get_ok, modify_ok, pure_ok] at h
  obtain ⟨_, _, ⟨rfl, rfl⟩, _, _, rfl, rfl, rfl⟩ := h
  exact ⟨rfl, rfl⟩

theorem inBranch_inv {act : Stage Unit} (h : inBranch act c s = .ok ((), s')) :
    ∃ t u, act c { s with
        written := [], writtenBefore := s.written :: s.writtenBefore, conditional := s.conditional + 1 } = .ok ((), t) ∧
      forget t.written c t = .ok ((), u) ∧ s' = { u with
        written := t.written ++ s.written.filter (!t.written.contains ·), writtenBefore := u.writtenBefore.tail
        conditional := u.conditional - 1 } := by
  simp only [inBranch, bind_ok, get_ok, modify_ok] at h
  obtain ⟨_, _, ⟨rfl, rfl⟩, _, _, rfl, _, t, worked, _, _, ⟨rfl, rfl⟩, _, u, forgot, rfl⟩ := h
  exact ⟨t, u, worked, forgot, rfl⟩

theorem guarded_inv {body : Scoped.ScopeId} {scope : ScopeId} (h : guarded run body c s = .ok (scope, s')) :
    scope = s.out.scopes.size ∧ ∃ t,
      inBranch (run body) c { s with out := s.out.addScope, current := some scope } = .ok ((), t) ∧
      s' = { t with current := s.current } := by
  obtain ⟨_, _, made, h⟩ := bind_ok.1 h
  obtain ⟨rfl, rfl⟩ := newScope_inv made
  simp only [withCurrent, bind_ok, get_ok, modify_ok, pure_ok] at h
  obtain ⟨_, _, ⟨_, _, ⟨rfl, rfl⟩, _, _, rfl, _, t, worked, _, _, rfl, -, rfl⟩, rfl, rfl⟩ := h
  exact ⟨rfl, t, worked, rfl⟩

theorem loopPass_inv {body : Scoped.ScopeId} {into : Option ScopeId}
    (h : loopPass run body into c s = .ok ((), s')) :
    ∃ t, inBranch (run body) c { s with
        current := into, discarding := s.discarding || into.isNone, tables := s.table :: s.tables } = .ok ((), t) ∧
      s' = { t with
        table := s.table, tables := t.tables.tail, current := s.current, discarding := s.discarding } := by
  obtain ⟨_, _, got, h⟩ := bind_ok.1 h
  obtain ⟨rfl, rfl⟩ := get_ok.1 got
  obtain ⟨_, _, entered, h⟩ := bind_ok.1 h
  obtain rfl := set_ok.1 entered
  simp only [withTable, bind_ok, get_ok, modify_ok, pure_ok] at h
  obtain ⟨_, _, ⟨_, _, ⟨rfl, rfl⟩, _, _, rfl, _, t, worked, _, _, rfl, -, rfl⟩, rfl⟩ := h
  exact ⟨t, worked, rfl⟩

theorem withTable_inv {table : Table} {m : Stage α} {a : α} (h : withTable table m c s = .ok (a, s')) :
    ∃ t, m c { s with table := table, tables := s.table :: s.tables } = .ok (a, t) ∧
      s' = { t with table := s.table, tables := t.tables.tail } := by
  simp only [withTable, bind_ok, get_ok, modify_ok, pure_ok] at h
  obtain ⟨_, _, ⟨rfl, rfl⟩, _, _, rfl, _, t, worked, _, _, rfl, rfl, rfl⟩ := h
  exact ⟨t, worked, rfl⟩

/-- Where a static block sends the statements of its body. -/
def staticScope (s : State) : Option ScopeId := if s.discarding then none else some s.out.staticInit

theorem staticBody_inv {body : Scoped.ScopeId} {exports : List VarId} {span : Span} {records : List Record}
    (h : staticBody run body exports span c s = .ok (records, s')) :
    ∃ t u, run body c { s with
        current := staticScope s, inStatic := true, tables := s.table :: s.tables } = .ok ((), t) ∧
      exported exports span c t = .ok (records, u) ∧
      s' = { u with table := s.table, tables := u.tables.tail, current := s.current, inStatic := s.inStatic } := by
  obtain ⟨_, _, got, h⟩ := bind_ok.1 h
  obtain ⟨rfl, rfl⟩ := get_ok.1 got
  obtain ⟨_, _, entered, h⟩ := bind_ok.1 h
  obtain rfl := set_ok.1 entered
  obtain ⟨_, v, tabled, h⟩ := bind_ok.1 h
  obtain ⟨_, _, back, h⟩ := bind_ok.1 h
  obtain rfl := modify_ok.1 back
  obtain ⟨rfl, rfl⟩ := pure_ok.1 h
  obtain ⟨u, worked, rfl⟩ := withTable_inv tabled
  obtain ⟨_, t, entered, found⟩ := bind_ok.1 worked
  exact ⟨t, u, entered, found, rfl⟩

/-- How a clause is worked out: it is dropped, it runs in place, or it is kept in a scope of its own. -/
theorem clauses_cons_inv {otherwise : Option Scoped.ScopeId} {span : Span} {done : List Clause} {x : Scoped.Clause}
    {cs : List Scoped.Clause} (ended : clauses run otherwise span done (x :: cs) c s = .ok ((), s')) :
    ∃ v t, expression run x.condition c s = .ok (v, t) ∧
      ((v.content = .known (.bool false) ∧ clauses run otherwise span done cs c t = .ok ((), s')) ∨
        (v.content = .known (.bool true) ∧ done = [] ∧ run x.body c t = .ok ((), s')) ∨
        ∃ e scope u, (∀ d, v.content = .known d → d = .bool true) ∧ asExpr v c t = .ok (e, t) ∧
          guarded run x.body c t = .ok (scope, u) ∧
          clauses run otherwise span (done ++ [⟨e, scope⟩]) cs c u = .ok ((), s')) := by
  unfold clauses at ended
  obtain ⟨v, t, asked, ended⟩ := bind_ok.1 ended
  refine ⟨v, t, asked, ?_⟩
  rcases ite_ok.1 ended with ⟨-, ended⟩ | ⟨-, ended⟩
  · obtain ⟨_, _, refused, -⟩ := bind_ok.1 ended
    exact (throw_ok.1 refused).elim
  · have keep (known : ∀ d, v.content = .known d → d = .bool true) (kept : (do
          let e ← asExpr v
          let scope ← guarded run x.body
          clauses run otherwise span (done ++ [⟨e, scope⟩]) cs : Stage Unit) c t = .ok ((), s')) :
        ∃ e scope u, (∀ d, v.content = .known d → d = .bool true) ∧ asExpr v c t = .ok (e, t) ∧
          guarded run x.body c t = .ok (scope, u) ∧
          clauses run otherwise span (done ++ [⟨e, scope⟩]) cs c u = .ok ((), s') := by
      obtain ⟨e, t', asked, guards⟩ := bind_ok.1 kept
      obtain rfl : t' = t := Ends.ok (k := .finite) (flows_asExpr v) asked
      obtain ⟨scope, u, made, rest⟩ := bind_ok.1 guards
      exact ⟨e, scope, u, known, asked, made, rest⟩
    obtain ⟨content, ty, vspan⟩ := v
    cases content with
    | runtime e glimpse =>
      refine .inr (.inr (keep (fun d known => ?_) ended))
      cases known
    | known d =>
      cases d with
      | bool b =>
        cases b with
        | false => exact .inl ⟨rfl, ended⟩
        | true =>
          rcases ite_ok.1 ended with ⟨none, ended⟩ | ⟨-, ended⟩
          · exact .inr (.inl ⟨rfl, List.isEmpty_iff.1 none, ended⟩)
          · refine .inr (.inr (keep (fun d known => ?_) ended))
            cases known
            rfl
      | _ => exact (throw_ok.1 ended).elim

/-- A call leaves the state as its outputs leave it, but for what belongs to the caller, and emits what it inlined. -/
theorem inlineCall_inv {site : MacroSite} {context : Table} {given : List (VarId × Value)} {outs : Stage Value}
    {span : Span} {a : Value} (h : (newScope >>= inlineCall run site context given outs span) c s = .ok (a, s')) :
    ∃ t u,
      (bindInputs given >>= fun _ => run site.body) c { s with
        out := s.out.addScope, current := some s.out.scopes.size, conditional := 0, returned := false
        table := context, tables := s.table :: s.tables } = .ok ((), t) ∧
      outs c { t with returned := false, table := s.table ++ t.table } = .ok (a, u) ∧
      (if !(u.out.scope s.out.scopes.size).isEmpty then emit (.inlined s.out.scopes.size span) else pure ()) c { u with
        current := s.current, conditional := s.conditional, returned := s.returned, table := s.table
        tables := u.tables.tail } = .ok ((), s') := by
  obtain ⟨_, _, made, h⟩ := bind_ok.1 h
  obtain ⟨rfl, rfl⟩ := newScope_inv made
  obtain ⟨_, _, got, h⟩ := bind_ok.1 h
  obtain ⟨rfl, rfl⟩ := get_ok.1 got
  obtain ⟨_, _, entered, h⟩ := bind_ok.1 h
  obtain rfl := set_ok.1 entered
  obtain ⟨_, t₀, bound, h⟩ := bind_ok.1 h
  obtain ⟨_, t, worked, h⟩ := bind_ok.1 h
  obtain ⟨_, _, joined, h⟩ := bind_ok.1 h
  obtain rfl := modify_ok.1 joined
  obtain ⟨value, u, outputs, h⟩ := bind_ok.1 h
  obtain ⟨_, _, back, h⟩ := bind_ok.1 h
  obtain rfl := modify_ok.1 back
  obtain ⟨_, _, got, h⟩ := bind_ok.1 h
  obtain ⟨rfl, rfl⟩ := get_ok.1 got
  refine ⟨t, u, bind_ok.2 ⟨_, t₀, bound, worked⟩, ?_⟩
  dsimp only at h ⊢
  split at h
  · rename_i emits
    obtain ⟨_, w, emitted, h⟩ := bind_ok.1 h
    obtain ⟨rfl, rfl⟩ := pure_ok.1 h
    exact ⟨outputs, by rw [if_pos emits]; exact emitted⟩
  · rename_i silent
    obtain ⟨rfl, rfl⟩ := pure_ok.1 h
    exact ⟨outputs, by rw [if_neg silent]; rfl⟩

end Inversions

/-! ## Relations that do not look at what is known -/

section Quiet

variable [IsPreorder State R] (quiet : ∀ s records tracked written log, R s { s with
  records := records, tracked := tracked, written := written, log := log })

include quiet

omit [IsPreorder State R] in
theorem respects_putTracked (v : VarId) (d : Datum) : Respects c R (putTracked v d) :=
  .modify fun s => quiet s s.records _ s.written s.log

omit [IsPreorder State R] in
theorem respects_settled (id : Nat) (r : Record) :
    Respects c R (modify fun s => { s with records := s.records.setIfInBounds id r }) :=
  .modify fun s => quiet s _ s.tracked s.written s.log

theorem respects_track (v : VarId) (d : Datum) : Respects c R (track v d) :=
  .bind (respects_putTracked quiet v d) fun _ => .modify fun s => quiet s s.records s.tracked _ _

theorem respects_tracked (v : VarId) (r : Record) : Respects c R (tracked v r) := by
  refine .get_bind fun s => ?_
  dsimp only
  split
  · exact .pure _
  · exact .bind (respects_putTracked quiet v _) fun _ => .pure _
  · exact .bind (respects_putTracked quiet v _) fun _ => .pure _
  · exact .pure _

theorem respects_trackAt (v : VarId) (r : Record) (coord : List Int) (d : Datum) :
    Respects c R (trackAt v r coord d) := by
  refine .bind (respects_tracked quiet v r) fun whole => .ite (respects_track quiet v d) ?_
  refine .bind (.orBadShape _) fun e => .bind (respects_putTracked quiet v e) fun _ => ?_
  exact .modify fun s => quiet s s.records s.tracked _ _

theorem respects_forget (written : List VarId) : Respects c R (forget written) := by
  refine .forM _ fun v _ => .get_bind fun s => ?_
  split
  · exact .pure _
  · refine .get_bind fun s => .ite (.bind (respects_putTracked quiet v _) fun _ => ?_) (.pure _)
    exact .modify fun s => quiet s s.records s.tracked s.written _

theorem respects_create (listed : ∀ s entry, R s { s with table := entry :: s.table }) (v : VarId) (r : Record) :
    Respects c R (create v r) :=
  .bind (.modify fun s => trans_of R (quiet s (s.records.push r) s.tracked s.written s.log) (listed _ _)) fun _ =>
    respects_track quiet v _

end Quiet

/-! ## Values and places -/

variable [IsPreorder State R]

theorem respects_recordOf (v : VarId) : Respects c R (recordOf v) := by
  refine .get_bind fun s => ?_
  split
  · exact .get_bind fun _ => .pure _
  · exact .read_bind (.breakDown _)

theorem respects_asExpr (v : Value) : Respects c R (asExpr v) := by
  unfold asExpr
  split
  · exact .pure _
  · split
    · exact .pure _
    · exact .refuse _

omit [IsPreorder State R] in
theorem respects_crossStream (v : VarId) (span : Span) : Respects c R (crossStream v span : Stage α) :=
  .read_bind (.refuse _)

theorem respects_checkIndex (index : Value) (length : Int) (whole : Span) :
    Respects c R (checkIndex index length whole) := by
  refine .check ?_
  dsimp only
  split
  · exact .pure _
  · refine .check ?_
    exact .ite (.refuse _) (.pure _)
  · exact .breakDown _

theorem respects_runtimeElement (v : Value) (base : Expr) (index : Value) (ty : Ty) (glimpse : Option Glimpse) :
    Respects c R (runtimeElement v base index ty glimpse) :=
  .bind (respects_asExpr index) fun _ => .pure _

theorem respects_elementOf (v index : Value) (ty : Ty) (whole : Span) :
    Respects c R (elementOf v index ty whole) := by
  unfold elementOf
  dsimp only
  split
  · exact .bind (.orBadShape _) fun _ => .pure _
  · split
    · exact .refuse _
    · exact respects_runtimeElement _ _ _ _ _
  · refine .bind (.get_bind fun s => ?_) fun part => ?_
    · dsimp only
      split
      · exact .bind (.orBadShape _) fun _ => .pure _
      · exact .pure _
    · split
      · exact .ite (.pure _) (respects_runtimeElement _ _ _ _ _)
      · exact respects_runtimeElement _ _ _ _ _
  · exact respects_runtimeElement _ _ _ _ _
  · exact .breakDown _

theorem respects_folded (span : Span) (result : Except FoldError Datum) : Respects c R (folded span result) := by
  unfold folded
  split
  · exact .pure _
  · exact .refuse _
  · exact .refuse _
  · exact .breakDown _
  · exact .breakDown _

theorem respects_unaryValue (op : UnaryOp) (v : Value) (span : Span) : Respects c R (unaryValue op v span) := by
  refine .check ?_
  split
  · exact .bind (respects_folded _ _) fun _ => .pure _
  · exact .pure _

theorem respects_rightType (op : BinaryOp) (v : Value) : Respects c R (rightType op v) := by
  refine .check ?_
  split
  · exact .refuse _
  · exact .pure _
  · exact .breakDown _

theorem respects_binaryValue (op : BinaryOp) (l r : Value) (span : Span) :
    Respects c R (binaryValue op l r span) := by
  unfold binaryValue
  split
  · exact .refuse _
  · refine .check ?_
    dsimp only
    split
    · exact .bind (respects_folded _ _) fun _ => .pure _
    · exact .bind (respects_asExpr l) fun _ => .bind (respects_asExpr r) fun _ => .pure _

theorem respects_lengths (dims : List Int) (span : Span) : Respects c R (match dims with
    | [] => return .known (.int 1) .int span
    | dims => return .known (.array (dims.map .int)) (.array dims.length .int) span : Stage Value) := by
  split
  · exact .pure _
  · exact .pure _

theorem respects_propertyValue (v : Value) (property : Scoped.Property) (span : Span) :
    Respects c R (propertyValue v property span) := by
  unfold propertyValue
  split
  · exact .pure _
  · split
    · split
      · exact .bind (.pure _) fun _ => respects_lengths _ span
      · exact .bind (.refuse _) fun _ => respects_lengths _ span
    · exact .bind (.pure _) fun _ => respects_lengths _ span

theorem respects_typeOf (kind : Problem.Kind) (v : Value) : Respects c R (typeOf kind v) := by
  refine .check ?_
  split
  · exact .refuse _
  · exact .pure _
  · exact .breakDown _

theorem respects_concreteTypeOf (span : Span) (v : Value) : Respects c R (concreteTypeOf span v) := by
  refine .bind (respects_typeOf _ v) fun b => ?_
  split
  · exact .pure _
  · exact .refuse _

theorem respects_boundValue (lower upper : Option Ty) (span : Span) :
    Respects c R (boundValue lower upper span) := by
  unfold boundValue
  dsimp only
  split
  · exact .check (.pure _)
  · exact .bind (.pure _) fun _ => .pure _

theorem respects_lengthOf (v : Value) : Respects c R (lengthOf v) := by
  unfold lengthOf
  split
  · exact .refuse _
  · exact .ite (.refuse _) (.pure _)
  · exact .refuse _

theorem respects_collected (vs : List Value) (first : Ty) (span : Span) :
    Respects c R (collected vs first span) := by
  unfold collected
  dsimp only
  split
  · exact .pure _
  · exact .bind (.mapM vs (respects_asExpr)) fun _ => .pure _

theorem respects_addIndex (q : Place) (slot : Option SlotId) (index : Value) (elem : Ty) :
    Respects c R (addIndex q slot index elem) := by
  unfold addIndex
  split
  · exact .pure _
  · exact .bind (respects_asExpr index) fun _ => .pure _
  · refine .ite (.read_bind (.bind (.refuse _) fun _ => ?_)) ?_
    all_goals exact .bind (respects_asExpr index) fun _ => .pure _

theorem respects_isInValue (l r : Value) (span : Span) : Respects c R (isInValue l r span) :=
  .bind (respects_rightType _ _) fun _ => .pure _

theorem respects_reading (tracks : ∀ v r, Respects c R (tracked v r)) (v : VarId) (span : Span) :
    Respects c R (readVar v span) := by
  refine .bind (respects_recordOf v) fun r => ?_
  dsimp only
  split
  · exact .read_bind (.refuse _)
  · refine .get_bind fun s => .ite (respects_crossStream v span) ?_
    refine .bind (tracks v _) fun d => .ite (.pure _) (.ite (respects_crossStream v span) ?_)
    split
    · exact .read_bind (.refuse _)
    · exact .get_bind fun _ => .pure _

section Values

variable (law : Law c W R)

include law

theorem respects_readVar (v : VarId) (span : Span) : Respects c R (readVar v span) :=
  respects_reading law.tracked v span

theorem respects_asTypeValue (l r : Value) (span : Span) : Respects c R (asTypeValue l r span) := by
  refine .bind (respects_rightType .asType r) fun b => ?_
  split
  · refine .check ?_
    split
    · exact .bind (.orBadShape _) fun _ => .pure _
    · refine .ite (.pure _) (.bind (law.newSlot _ _) fun _ => ?_)
      exact .bind (law.emit _ rfl) fun _ => .pure _
  · exact .refuse _

theorem respects_settle (q : Place) (v : Value) : Respects c R (settle q v) := by
  refine .get_bind fun s => .read_bind ?_
  dsimp only
  split
  · exact .refuse _
  · exact .refuse _
  · split
    · exact .bind (.map (law.newSlot _ _)) fun slot => law.settled _ _
    · exact law.settled _ _

omit law in
theorem respects_store (emits : ∀ st, st.scopes = [] → Respects c R (emit st)) (q : Place) (a : Value) (span : Span)
    (ty : Ty) (slot : Option SlotId) : Respects c R (match slot with
    | none => return
    | some slot => do
      let value ← asExpr a
      emit (.assign ⟨slot, q.indexes, ty, q.span⟩ value span) : Stage Unit) := by
  split
  · exact .pure _
  · exact .bind (respects_asExpr a) fun _ => emits _ rfl

variable {q : Place}

omit law in
theorem respects_trackKnown (tracks : ∀ r coord d, Respects c R (trackAt q.var r coord d)) (r : Record) (ty : Ty)
    (d : Datum) (valueTy : Ty) : Respects c R (trackKnown q r ty d valueTy) := by
  refine .ite (tracks _ _ _) (.forM _ fun coord _ => ?_)
  exact .bind (.orBadShape _) fun _ => tracks _ _ _

omit law in
theorem respects_assignAs (emits : ∀ st, st.scopes = [] → Respects c R (emit st))
    (tracks : ∀ r coord d, Respects c R (trackAt q.var r coord d)) (a : Value) (span : Span) (ty : Ty) :
    Respects c R (assignAs q a span ty) := by
  refine .get_bind fun s => ?_
  dsimp only
  split
  · exact .bind (respects_trackKnown tracks _ _ _ _) fun _ => respects_store emits q a span ty _
  · refine .ite (.read_bind (.bind (.refuse _) fun _ => ?_)) ?_
    all_goals exact .bind (tracks _ _ _) fun _ => respects_store emits q a span ty _

theorem respects_assign (hv : W q.var) (a : Value) (span : Span) : Respects c R (assign q a span) := by
  have typed := respects_assignAs law.emit (law.trackAt q.var hv) a span
  rw [assign_eq]
  split
  · exact .bind (respects_settle law q a) fun _ => typed _
  · exact .check (typed _)

end Values

/-! ## Expressions -/

variable {run : Scoped.ScopeId → Stage Unit}

/-- The relation holds across calls, when it holds across what is done with their outputs. -/
def Inlines (c : Context) (R : State → State → Prop) (run : Scoped.ScopeId → Stage Unit) : Prop :=
  ∀ site context given outs span, Respects c R outs →
    Respects c R (newScope >>= inlineCall run site context ((c.source.scope site.body).inputs.zip given) outs span)

theorem var_of_placeUnder {es : List Scoped.Expr} {p q : Place} {s s' : State}
    (h : placeUnder run q es c s = .ok (p, s')) : p.var = q.var := by
  induction es generalizing q s with
  | nil =>
    rw [placeUnder] at h
    obtain ⟨rfl, -⟩ := pure_ok.1 h
    rfl
  | cons e rest ih =>
    obtain ⟨var, record, fixed, dynamic, ty, span⟩ := q
    rw [placeUnder] at h
    match ty with
    | some (.array length elem) =>
      obtain ⟨index, _, -, h⟩ := bind_ok.1 h
      obtain ⟨_, _, -, h⟩ := bind_ok.1 h
      obtain ⟨r, _, -, h⟩ := bind_ok.1 h
      obtain ⟨q', _, added, h⟩ := bind_ok.1 h
      exact (ih h).trans (Ends.ok (k := .finite) flows_addIndex added).2
    | some (.prim _) => exact (throw_ok.1 h).elim
    | none =>
      obtain ⟨_, _, -, h⟩ := bind_ok.1 h
      exact (throw_ok.1 h).elim

theorem var_of_place {t : Scoped.Target} {p : Place} {s s' : State} (h : place run t c s = .ok (p, s')) :
    p.var = t.var := by
  obtain ⟨var, indexes, span⟩ := t
  rw [place] at h
  obtain ⟨r, _, -, h⟩ := bind_ok.1 h
  obtain ⟨_, _, -, h⟩ := bind_ok.1 h
  rcases ite_ok.1 h with ⟨-, h⟩ | ⟨-, h⟩
  · obtain ⟨_, _, -, h⟩ := bind_ok.1 h
    exact var_of_placeUnder h
  · exact var_of_placeUnder h

/-- What is done with a place may use that it is one of the variable of its target. -/
theorem Respects.bind_place {t : Scoped.Target} {f : Place → Stage α}
    (placed : Respects c R (place run t)) (hf : ∀ p, p.var = t.var → Respects c R (f p)) :
    Respects c R (place run t >>= f) := by
  intro s b u ended
  obtain ⟨p, t', first, rest⟩ := bind_ok.1 ended
  exact trans_of R (placed s p t' first) (hf p (var_of_place first) t' b u rest)

mutual

theorem respects_expression (law : Law c W R) (inlines : Inlines c R run) : (e : Scoped.Expr) →
    Only W (writtenBy e.calls) → Respects c R (expression run e)
  | .literal value span, _ => by
    rw [expression]
    exact .get_bind fun _ => .pure _
  | .var id span, _ => by
    rw [expression]
    exact respects_readVar law id span
  | .collect [] span, _ => by
    rw [expression]
    exact .refuse _
  | .collect (e :: es) span, hw => by
    rw [expression]
    rw [Scoped.Expr.calls, Scoped.callsOf, writtenBy_append] at hw
    refine .bind (respects_expression law inlines e hw.left) fun first => ?_
    refine .bind (respects_items law inlines first es hw.right) fun rest => ?_
    exact respects_collected _ _ _
  | .openBound span, _ => by
    rw [expression]
    exact respects_boundValue _ _ _
  | .upperBound upper span, hw => by
    rw [expression]
    rw [Scoped.Expr.calls] at hw
    refine .bind (respects_expression law inlines upper hw) fun _ => ?_
    exact .bind (respects_concreteTypeOf _ _) fun _ => respects_boundValue _ _ _
  | .closedBound lower upper span, hw => by
    rw [expression]
    rw [Scoped.Expr.calls, writtenBy_append] at hw
    refine .bind (respects_expression law inlines lower hw.left) fun _ => ?_
    refine .bind (respects_concreteTypeOf _ _) fun _ => ?_
    refine .bind (respects_expression law inlines upper hw.right) fun _ => ?_
    exact .bind (respects_concreteTypeOf _ _) fun _ => respects_boundValue _ _ _
  | .arrayType dims base span, hw => by
    rw [expression]
    rw [Scoped.Expr.calls, writtenBy_append] at hw
    refine .bind (respects_lengthList law inlines dims hw.left) fun _ => ?_
    refine .bind (respects_expression law inlines base hw.right) fun _ => ?_
    exact .bind (respects_typeOf _ _) fun _ => .pure _
  | .index base indexes span, hw => by
    rw [expression]
    rw [Scoped.Expr.calls, writtenBy_append] at hw
    refine .bind (respects_expression law inlines base hw.left) fun v => ?_
    exact respects_indexed law inlines v span indexes hw.right
  | .property base property span, hw => by
    rw [expression]
    rw [Scoped.Expr.calls] at hw
    exact .bind (respects_expression law inlines base hw) fun _ => respects_propertyValue _ _ _
  | .unary op operand span, hw => by
    rw [expression]
    rw [Scoped.Expr.calls] at hw
    exact .bind (respects_expression law inlines operand hw) fun _ => respects_unaryValue _ _ _
  | .binary op left right span, hw => by
    rw [expression]
    rw [Scoped.Expr.calls, writtenBy_append] at hw
    refine .bind (respects_expression law inlines left hw.left) fun l => ?_
    refine .bind (respects_expression law inlines right hw.right) fun r => ?_
    split
    · exact respects_asTypeValue law _ _ _
    · exact respects_isInValue _ _ _
    · exact respects_binaryValue _ _ _ _
  | .call callee calleeSpan inputs outputs span, hw => by
    rw [expression]
    rw [Scoped.Expr.calls, writtenBy_cons, writtenBy_append] at hw
    refine .bind (respects_readVar law callee calleeSpan) fun m => .check ?_
    split
    · exact .refuse _
    · rename_i site context _
      refine .read_bind (.bind (respects_values law inlines inputs hw.right.left) fun given => ?_)
      refine .check (.check ?_)
      refine inlines site context given _ span ?_
      exact respects_callOutputs law inlines _ span _ outputs hw.left hw.right.right
    · exact .breakDown _

theorem respects_items (law : Law c W R) (inlines : Inlines c R run) (first : Value) : (es : List Scoped.Expr) →
    Only W (writtenBy (Scoped.callsOf es)) → Respects c R (items run first es)
  | [], _ => by
    rw [items]
    exact .pure _
  | e :: es, hw => by
    rw [items]
    rw [Scoped.callsOf, writtenBy_append] at hw
    refine .bind (respects_expression law inlines e hw.left) fun v => .check ?_
    exact .bind (respects_items law inlines first es hw.right) fun _ => .pure _

theorem respects_values (law : Law c W R) (inlines : Inlines c R run) : (es : List Scoped.Expr) →
    Only W (writtenBy (Scoped.callsOf es)) → Respects c R (values run es)
  | [], _ => by
    rw [values]
    exact .pure _
  | e :: es, hw => by
    rw [values]
    rw [Scoped.callsOf, writtenBy_append] at hw
    refine .bind (respects_expression law inlines e hw.left) fun _ => ?_
    exact .bind (respects_values law inlines es hw.right) fun _ => .pure _

theorem respects_lengthList (law : Law c W R) (inlines : Inlines c R run) : (es : List Scoped.Expr) →
    Only W (writtenBy (Scoped.callsOf es)) → Respects c R (lengthList run es)
  | [], _ => by
    rw [lengthList]
    exact .pure _
  | e :: es, hw => by
    rw [lengthList]
    rw [Scoped.callsOf, writtenBy_append] at hw
    refine .bind (respects_expression law inlines e hw.left) fun _ => ?_
    refine .bind (respects_lengthOf _) fun _ => ?_
    exact .bind (respects_lengthList law inlines es hw.right) fun _ => .pure _

theorem respects_indexed (law : Law c W R) (inlines : Inlines c R run) (v : Value) (whole : Span) :
    (args : List Scoped.IndexArg) → Only W (writtenBy (Scoped.indexCalls args)) →
    Respects c R (indexed run v whole args)
  | [], _ => by
    rw [indexed]
    exact .pure _
  | .mk e optional :: rest, hw => by
    rw [indexed]
    rw [Scoped.indexCalls, writtenBy_append] at hw
    refine .bind (respects_expression law inlines e hw.left) fun index => ?_
    split
    · refine .bind (respects_checkIndex _ _ _) fun _ => ?_
      refine .bind (respects_elementOf _ _ _ _) fun a => ?_
      exact respects_indexed law inlines a whole rest hw.right
    · exact .ite (respects_indexed law inlines v whole rest hw.right) (.refuse _)

theorem respects_callOutputs (law : Law c W R) (inlines : Inlines c R run) (result : Value) (span : Span)
    (vars : List VarId) : (outs : List Scoped.Output) → Only W (outs.flatMap Scoped.Output.written) →
    Only W (writtenBy (Scoped.outputCalls outs)) → Respects c R (callOutputs run result span vars outs)
  | [], _, _ => by
    rw [callOutputs]
    exact .pure _
  | .inline _ :: rest, targets, hw => by
    rw [List.flatMap_cons] at targets
    rw [Scoped.outputCalls] at hw
    cases vars with
    | nil =>
      rw [callOutputs]
      exact .pure _
    | cons v vars =>
      rw [callOutputs]
      refine .bind (respects_readVar law v span) fun a => ?_
      exact respects_callOutputs law inlines a span vars rest targets.right hw
  | .target target outSpan :: rest, targets, hw => by
    rw [List.flatMap_cons] at targets
    rw [Scoped.outputCalls, writtenBy_append] at hw
    cases vars with
    | nil =>
      rw [callOutputs]
      exact .pure _
    | cons v vars =>
      rw [callOutputs]
      refine .bind_place (respects_place law inlines target hw.left) fun p aims => ?_
      refine .bind (respects_readVar law v outSpan) fun a => ?_
      refine .bind (respects_assign law (aims ▸ targets _ (.head _)) a outSpan) fun _ => ?_
      exact respects_callOutputs law inlines result span vars rest targets.right hw.right

theorem respects_place (law : Law c W R) (inlines : Inlines c R run) : (t : Scoped.Target) →
    Only W (writtenBy t.calls) → Respects c R (place run t)
  | .mk var indexes span, hw => by
    rw [place]
    rw [Scoped.Target.calls] at hw
    refine .bind (respects_recordOf var) fun r => .get_bind fun s => ?_
    refine .ite (.bind (respects_crossStream var span) fun _ => ?_) ?_
    all_goals exact respects_placeUnder law inlines _ indexes hw

theorem respects_placeUnder (law : Law c W R) (inlines : Inlines c R run) (q : Place) : (es : List Scoped.Expr) →
    Only W (writtenBy (Scoped.callsOf es)) → Respects c R (placeUnder run q es)
  | [], _ => by
    rw [placeUnder]
    exact .pure _
  | e :: rest, hw => by
    rw [placeUnder]
    rw [Scoped.callsOf, writtenBy_append] at hw
    split
    · refine .bind (respects_expression law inlines e hw.left) fun index => ?_
      refine .bind (respects_checkIndex _ _ _) fun _ => .get_bind fun s => ?_
      refine .bind (respects_addIndex _ _ _ _) fun q' => ?_
      exact respects_placeUnder law inlines q' rest hw.right
    · exact .refuse _
    · exact .get_bind fun _ => .refuse _

end

/-! ## Entering scopes -/

/-- A law that also holds across what the body of a macro is entered by. -/
structure Law.Entering (c : Context) (W : VarId → Prop) (R : State → State → Prop) : Prop extends Law c W R where
  create : ∀ v, W v → ∀ r, Respects c R (create v r)
  inlined : ∀ (run : Scoped.ScopeId → Stage Unit) site context given outs span,
    Respects c R (bindInputs given >>= fun _ => run site.body) → Respects c R outs →
    Respects c R (newScope >>= inlineCall run site context given outs span)

/-- The relation holds across the scopes that are entered, also behind the inputs of a macro. -/
structure Opens (c : Context) (R : State → State → Prop) (run : Scoped.ScopeId → Stage Unit) : Prop where
  scope : ∀ i, Respects c R (run i)
  call : ∀ i given, Respects c R (bindInputs ((c.source.scope i).inputs.zip given) >>= fun _ => run i)

omit [IsPreorder State R] in
theorem Opens.inlines (opens : Opens c R run) (law : Law.Entering c W R) : Inlines c R run :=
  fun site context given outs span => law.inlined run site context _ outs span (opens.call site.body given)

theorem respects_bindInputs (law : Law.Entering c W R) {given : List (VarId × Value)} (hw : ∀ e ∈ given, W e.1) :
    Respects c R (bindInputs given) := by
  induction given with
  | nil => exact .pure _
  | cons e rest ih =>
    have others := ih fun e he => hw e (List.mem_cons_of_mem _ he)
    obtain ⟨v, value⟩ := e
    have hv : W v := hw (v, value) List.mem_cons_self
    refine .get_bind fun s => ?_
    dsimp only
    split
    · exact .bind (law.create v hv _) fun _ => .bind (law.track v hv _) fun _ => others
    · refine .bind (law.newSlot _ _) fun slot => .bind (law.create v hv _) fun _ => ?_
      exact .bind (law.emit _ rfl) fun _ => others

/-! ## Statements -/

theorem static_eq (run : Scoped.ScopeId → Stage Unit) (body : Scoped.ScopeId) (exports : List VarId) (span : Span) :
    static run body exports span = (do
      let records ← staticBody run body exports span
      (exports.zip records).forM fun (v, r) => do
        create v { r with isStatic := true }
        if !(← get).discarding then
          modify fun t => { t with out := { t.out with statics := t.out.statics ++ r.slot.toList } }) := by
  unfold static staticBody
  simp only [bind_assoc, pure_bind]

theorem respects_exported (exports : List VarId) (span : Span) :
    Respects c R (exported exports span) := by
  refine .mapM _ fun v => .bind (respects_recordOf v) fun r => ?_
  exact .ite (.read_bind (.bind (.refuse _) fun _ => .pure _)) (.pure _)

/-- A law that also holds across the steps which statements are worked out by. -/
structure Law.Extended (c : Context) (W : VarId → Prop) (R : State → State → Prop) : Prop extends
    Law.Entering c W R where
  returned : Respects c R (modify fun s => { s with returned := true })
  statics : ∀ (f : List SlotId → List SlotId),
    Respects c R (modify fun s => { s with out := { s.out with statics := f s.out.statics } })
  withTable : ∀ {α : Type} table (m : Stage α), Respects c R m → Respects c R (withTable table m)
  clauses : ∀ (run : Scoped.ScopeId → Stage Unit) otherwise span cs, (∀ i, Respects c R (run i)) →
    (∀ x ∈ cs, Respects c R (expression run x.condition)) → Respects c R (clauses run otherwise span [] cs)
  keptLoop : ∀ (run : Scoped.ScopeId → Stage Unit) counter start stop body span, W counter →
    Respects c R (run body) → Respects c R (keptLoop run counter start stop body span)
  static : ∀ (run : Scoped.ScopeId → Stage Unit) body exports span, Respects c R (run body) →
    Respects c R (staticBody run body exports span)

section Statements

variable (law : Law.Extended c W R) (opens : Opens c R run)

include law opens

theorem respects_creation {v : VarId} (hv : W v) {type : Scoped.Expr} (hw : Only W (writtenBy type.calls)) :
    Respects c R (creation run v type) := by
  refine .bind (respects_expression law.toLaw (opens.inlines law.toEntering) type hw) fun t => ?_
  refine .bind (respects_typeOf _ t) fun b => .read_bind (.get_bind fun s => ?_)
  dsimp only
  split
  · refine .bind (law.create v hv _) fun _ => .get_bind fun _ => law.track v hv _
  · split
    · split
      · exact .bind (.map (law.newSlot _ _)) fun _ => law.create v hv _
      · exact .bind (.pure _) fun _ => law.create v hv _
    · exact .bind (.pure _) fun _ => law.create v hv _

theorem respects_assertion {condition : Scoped.Expr} (hw : Only W (writtenBy condition.calls)) (span : Span) :
    Respects c R (assertion run condition span) := by
  refine .bind (respects_expression law.toLaw (opens.inlines law.toEntering) condition hw) fun v => .check ?_
  split
  · exact law.emit _ rfl
  · exact .pure _
  · exact .refuse _
  · exact .breakDown _

theorem respects_rounds {counter : VarId} (hv : W counter) (body : Scoped.ScopeId) (count : Nat) (i : Int) :
    Respects c R (rounds run counter body count i) := by
  induction count generalizing i with
  | zero => exact .pure _
  | succ count ih =>
    refine .get_bind fun s => .ite (.pure _) (.bind (law.withTable _ _ ?_) fun _ => ih (i + 1))
    refine .bind (law.create _ hv _) fun _ => .bind (law.track _ hv _) fun _ => ?_
    exact opens.scope body

theorem respects_loop {counter : VarId} (hv : W counter) {start stop : Scoped.Expr}
    (hstart : Only W (writtenBy start.calls)) (hstop : Only W (writtenBy stop.calls)) (body : Scoped.ScopeId)
    (allowUnroll : Bool) (span : Span) : Respects c R (loop run counter start stop body allowUnroll span) := by
  refine .bind (respects_expression law.toLaw (opens.inlines law.toEntering) start hstart) fun lower => ?_
  refine .bind (respects_expression law.toLaw (opens.inlines law.toEntering) stop hstop) fun upper => .check (.check ?_)
  have kept := law.keptLoop run counter lower upper body span hv (opens.scope body)
  split
  · exact .read_bind (.ite (respects_rounds law opens hv body _ _) kept)
  · exact .read_bind (.ite (.breakDown _) kept)
  · exact kept

theorem respects_static {exports : List VarId} (hv : Only W exports) (body : Scoped.ScopeId) (span : Span) :
    Respects c R (static run body exports span) := by
  rw [static_eq]
  refine .bind (law.static run body exports span (opens.scope body)) fun records => ?_
  refine .forM _ fun e he => ?_
  obtain ⟨v, r⟩ := e
  refine .bind (law.create v (hv v (List.of_mem_zip he).1) _) fun _ => .get_bind fun t => ?_
  exact .ite (law.statics (· ++ r.slot.toList)) (.pure _)

theorem respects_statement {st : Scoped.Stmt} (hw : Only W st.written) : Respects c R (statement run st) := by
  have calls : Only W (writtenBy st.calls) := hw.left
  cases st with
  | create v type span => exact respects_creation law opens (hw.right v (.head _)) calls
  | assign target value span =>
    rw [Scoped.Stmt.calls, writtenBy_append] at calls
    refine .bind (respects_expression law.toLaw (opens.inlines law.toEntering) value calls.left) fun v => ?_
    refine .bind_place (respects_place law.toLaw (opens.inlines law.toEntering) target calls.right) fun p aims => ?_
    exact respects_assign law.toLaw (aims ▸ hw.right target.var (.head _)) v span
  | assert condition span => exact respects_assertion law opens calls span
  | branch cs otherwise span =>
    refine law.clauses run otherwise span cs opens.scope fun x hx => ?_
    exact respects_expression law.toLaw (opens.inlines law.toEntering) x.condition (Scoped.Only.conditions calls x hx)
  | loop counter start stop body allowUnroll span =>
    rw [Scoped.Stmt.calls, writtenBy_append] at calls
    exact respects_loop law opens (hw.right counter (.head _)) calls.left calls.right body allowUnroll span
  | static body exports span => exact respects_static law opens hw.right body span
  | block body span => exact opens.scope body
  | ret span => exact .get_bind fun s => .check law.returned
  | expr value span =>
    refine .bind (respects_expression law.toLaw (opens.inlines law.toEntering) value calls) fun v => ?_
    unfold discarded
    split
    · exact .pure _
    · exact .refuse _

theorem respects_statements {ss : List Scoped.Stmt} (hw : ∀ st ∈ ss, Only W st.written) :
    Respects c R (statements run ss) := by
  induction ss with
  | nil => exact .pure _
  | cons st ss ih =>
    refine .bind (respects_statement law opens (hw st List.mem_cons_self)) fun _ => .get_bind fun s => ?_
    exact .ite (.pure _) (ih fun st' hst' => hw st' (List.mem_cons_of_mem _ hst'))

end Statements

/-! ## Scopes -/

theorem opens_of_all (law : Law.Entering c W R) (all : ∀ v, W v) (hrun : ∀ i, Respects c R (run i)) : Opens c R run :=
  ⟨hrun, fun i _ => .bind (respects_bindInputs law fun e _ => all e.1) fun _ => hrun i⟩

theorem respects_block (law : Law.Extended c W R) (all : ∀ v, W v) (depth : Nat) (i : Scoped.ScopeId) :
    Respects c R (block depth i) := by
  induction depth generalizing i with
  | zero => exact .fail _
  | succ depth ih =>
    exact .read_bind (respects_statements law (opens_of_all law.toEntering all ih) fun st _ v _ => all v)

/-- Works the statements of a scope out like `block`, but enters no scope that writes outside of `W`. -/
def confined (W : VarId → Prop) [DecidablePred W] : (depth : Nat) → Scoped.ScopeId → Stage Unit
  | 0, _ => throw .tooDeep
  | depth + 1, id => do
    let scope := (← read).source.scope id
    if Only W scope.written then statements (confined W depth) scope.body.toList else throw .tooDeep

/-- What is worked out without the scopes that write outside of `W` is worked out the same with them. -/
theorem within_confined (W : VarId → Prop) [DecidablePred W] (depth : Nat) (i : Scoped.ScopeId) :
    Within (confined W depth i) (block depth i) := by
  induction depth generalizing i with
  | zero => exact .refl _
  | succ depth ih =>
    refine .same_bind _ fun c => ?_
    dsimp only
    split
    · exact within_statements ih _
    · exact fun _ _ => .inl rfl

theorem opens_confined (law : Law.Extended c W R) [DecidablePred W] (depth : Nat) : Opens c R (confined W depth) := by
  induction depth with
  | zero =>
    refine ⟨fun i => .fail _, fun i given s a s' ended => ?_⟩
    obtain ⟨_, _, -, stopped⟩ := bind_ok.1 ended
    exact (throw_ok.1 stopped).elim
  | succ depth ih =>
    have body (i : Scoped.ScopeId) (hw : Only W (c.source.scope i).written) :
        Respects c R (confined W (depth + 1) i) := by
      refine .read_bind ?_
      rw [if_pos hw]
      refine respects_statements law ih fun st hst v hv => hw v ?_
      exact List.mem_append_right _ (List.mem_flatMap.2 ⟨st, hst, hv⟩)
    -- a scope that writes outside of `W` is not entered, so nothing comes out
    have stops (i : Scoped.ScopeId) (hw : ¬Only W (c.source.scope i).written) (s : State) (r : Unit × State) :
        confined W (depth + 1) i c s ≠ .ok r := by
      intro ended
      obtain ⟨_, _, got, ended⟩ := bind_ok.1 ended
      obtain ⟨rfl, rfl⟩ := read_ok.1 got
      rw [if_neg hw] at ended
      exact throw_ok.1 ended
    refine ⟨fun i => ?_, fun i given => ?_⟩
    · by_cases hw : Only W (c.source.scope i).written
      · exact body i hw
      · exact fun s a s' ended => (stops i hw s _ ended).elim
    · by_cases hw : Only W (c.source.scope i).written
      · refine .bind (respects_bindInputs law.toEntering fun e he => ?_) fun _ => body i hw
        exact hw.left e.1 (List.of_mem_zip he).1
      · intro s a s' ended
        obtain ⟨_, t, -, ended⟩ := bind_ok.1 ended
        exact (stops i hw t _ ended).elim

/-! ## Laws of scopes that may not run -/

/-- A law that holds across scopes which may not run, and across any statement that is emitted. -/
structure Law.Branching (c : Context) (W : VarId → Prop) (R : State → State → Prop) : Prop extends
    Law.Entering c W R where
  emitted : ∀ st, Respects c R (Stage.emit st)
  returned : Respects c R (modify fun s => { s with returned := true })
  statics : ∀ (f : List SlotId → List SlotId),
    Respects c R (modify fun s => { s with out := { s.out with statics := f s.out.statics } })
  withTable : ∀ {α : Type} table (m : Stage α), Respects c R m → Respects c R (Stage.withTable table m)
  guarded : ∀ (run : Scoped.ScopeId → Stage Unit) body, Respects c R (run body) →
    Respects c R (Stage.guarded run body)
  firstPass : ∀ (run : Scoped.ScopeId → Stage Unit) body, Respects c R (run body) →
    Respects c R (loopPass run body none)
  secondPass : ∀ (run : Scoped.ScopeId → Stage Unit) body, Respects c R (run body) →
    Respects c R (do
      let scope ← newScope
      loopPass run body (some scope)
      return scope)
  static : ∀ (run : Scoped.ScopeId → Stage Unit) body exports span, Respects c R (run body) →
    Respects c R (staticBody run body exports span)

theorem Law.Branching.respects_clauses (law : Law.Branching c W R) (hrun : ∀ i, Respects c R (run i))
    (otherwise : Option Scoped.ScopeId) (span : Span) (done : List Clause) (cs : List Scoped.Clause)
    (hcs : ∀ x ∈ cs, Respects c R (expression run x.condition)) :
    Respects c R (clauses run otherwise span done cs) := by
  induction cs generalizing done with
  | nil =>
    unfold clauses
    split
    · exact .pure _
    · exact hrun _
    · exact law.emitted _
    · exact .bind (law.guarded run _ (hrun _)) fun scope => law.emitted _
  | cons x rest ih =>
    have ih (done : List Clause) := ih done fun y hy => hcs y (List.mem_cons_of_mem _ hy)
    intro s _ s' ended
    obtain ⟨v, t, asked, how⟩ := clauses_cons_inv ended
    refine trans_of R (hcs x List.mem_cons_self _ _ _ asked) ?_
    rcases how with ⟨-, ended⟩ | ⟨-, -, entered⟩ | ⟨e, scope, u, -, -, made, ended⟩
    · exact ih done _ _ _ ended
    · exact hrun _ _ _ _ entered
    · exact trans_of R (law.guarded run _ (hrun _) _ _ _ made) (ih _ _ _ _ ended)

theorem Law.Branching.extended (law : Law.Branching c W R) : Law.Extended c W R where
  toEntering := law.toEntering
  returned := law.returned
  statics := law.statics
  withTable := law.withTable
  clauses run otherwise span cs hrun hcs := law.respects_clauses hrun otherwise span [] cs hcs
  keptLoop run counter start stop body span hv hrun := by
    refine .read_bind (.bind (law.newSlot _ _) fun slot => .get_bind fun s => ?_)
    refine .bind (law.create counter hv _) fun _ => ?_
    refine .bind (law.firstPass run body hrun) fun _ => ?_
    have rest (scope : ScopeId) : Respects c R (do
        let startExpr ← asExpr start
        let stopExpr ← asExpr stop
        Stage.emit (.loop slot startExpr stopExpr scope span)) :=
      .bind (respects_asExpr _) fun _ =>
        .bind (respects_asExpr _) fun _ => law.emitted _
    have both := Respects.bind (law.secondPass run body hrun) rest
    simp only [bind_assoc, pure_bind] at both
    exact both
  static := law.static

end Stage

end SignalLang.Staged
