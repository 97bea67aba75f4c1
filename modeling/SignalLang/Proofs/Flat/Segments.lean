import SignalLang.Proofs.Flat.Expressions
import SignalLang.Proofs.Flat.Safety

/-!
# Code of statements

The code that flattening emits for a statement keeps to itself (`LowerState.Segment`): it jumps only to labels that were
made for it, and writes only to the variables of slots that the statement assigns and to temporaries. A label that was
made in between is placed in between as well, so a step of the machine from such code leads to such code or to its end,
unless the run ends there (`Segment.step`).
-/

namespace SignalLang.Flat

open Staged (SlotId ScopeId)
open Steps

namespace LowerState

/-- A variable that code between two states may write: that of one of some slots, or a temporary. -/
def MayWrite (assigns : SlotId → Prop) (s s' : LowerState) (id : VarId) : Prop :=
  (∃ k, assigns k ∧ s'.var? k = some id) ∨ s.Temporary s' id

namespace MayWrite

variable {A B : SlotId → Prop} {s s' s'' : LowerState} {id : VarId}

theorem mono (h : MayWrite A s s' id) (le : ∀ k, A k → B k) : MayWrite B s s' id :=
  h.imp_left fun ⟨k, hk, slot⟩ => ⟨k, le k hk, slot⟩

theorem after (h : MayWrite A s s' id) (follows : s'.Follows s'') : MayWrite A s s'' id :=
  h.imp (fun ⟨k, hk, slot⟩ => ⟨k, hk, follows.kept k id slot⟩) fun temporary => temporary.after follows

theorem before (h : MayWrite A s' s'' id) (follows : s.Follows s') : MayWrite A s s'' id :=
  h.imp_right fun temporary => temporary.before follows

end MayWrite

/-- The code between two states jumps only to labels that were made in between, and writes only to variables of some
slots and to temporaries. -/
structure Segment (assigns : SlotId → Prop) (s s' : LowerState) : Prop where
  follows : s.Follows s'
  labels : s.labels ≤ s'.labels
  jumps : ∀ (n : Nat) i, s.code.size ≤ n → s'.code[n]? = some i → ∀ l ∈ i.jumps, s.labels ≤ l
  writes : ∀ (n : Nat) i, s.code.size ≤ n → s'.code[n]? = some i → ∀ o, i.target? = some o → ∀ id,
    o.viewed.var? = some id → MayWrite assigns s s' id

/-- No code was emitted between two states. -/
structure Quiet (s s' : LowerState) : Prop where
  follows : s.Follows s'
  labels : s.labels ≤ s'.labels
  code : s'.code = s.code

namespace Quiet

variable {s s' s'' : LowerState}

theorem refl (s : LowerState) : s.Quiet s := ⟨.refl s, Nat.le_refl _, rfl⟩

theorem trans (h : s.Quiet s') (h' : s'.Quiet s'') : s.Quiet s'' :=
  ⟨h.follows.trans h'.follows, Nat.le_trans h.labels h'.labels, h'.code.trans h.code⟩

end Quiet

namespace Segment

variable {A B : SlotId → Prop} {s s' s'' : LowerState} {ctx : LowerContext}

theorem refl (s : LowerState) : Segment A s s := by
  refine ⟨.refl s, Nat.le_refl _, fun n i le found => ?_, fun n i le found => ?_⟩ <;>
  exact (Nat.not_lt.2 le (Array.getElem?_eq_some_iff.1 found).1).elim

theorem mono (h : Segment A s s') (le : ∀ k, A k → B k) : Segment B s s' :=
  ⟨h.follows, h.labels, h.jumps, fun n i hn found o target id var => (h.writes n i hn found o target id var).mono le⟩

/-- More code that keeps to itself. -/
theorem trans (h : Segment A s s') (h' : Segment A s' s'') : Segment A s s'' := by
  have earlier {n : Nat} {i : Instr} (lt : n < s'.code.size) (found : s''.code[n]? = some i) :
      s'.code[n]? = some i := by
    obtain ⟨j, at'⟩ : ∃ j, s'.code[n]? = some j := ⟨_, Array.getElem?_eq_getElem lt⟩
    rw [at', ← h'.follows.code n j at', found]
  refine ⟨h.follows.trans h'.follows, Nat.le_trans h.labels h'.labels, fun n i le found l hl => ?_,
    fun n i le found o target id var => ?_⟩
  · rcases Nat.lt_or_ge n s'.code.size with lt | ge
    · exact h.jumps n i le (earlier lt found) l hl
    · exact Nat.le_trans h.labels (h'.jumps n i ge found l hl)
  · rcases Nat.lt_or_ge n s'.code.size with lt | ge
    · exact (h.writes n i le (earlier lt found) o target id var).after h'.follows
    · exact (h'.writes n i ge found o target id var).before h.follows

/-- Steps that emit nothing. -/
theorem quiet (h : Segment A s s') (h' : s'.Quiet s'') : Segment A s s'' := by
  refine ⟨h.follows.trans h'.follows, Nat.le_trans h.labels h'.labels, fun n i le found => ?_,
    fun n i le found o target id var => ?_⟩
  · exact h.jumps n i le (h'.code ▸ found)
  · exact (h.writes n i le (h'.code ▸ found) o target id var).after h'.follows

/-- An instruction that jumps and writes only where it may. -/
theorem emit (h : Segment A s s') {i : Instr} {u : Unit} (run : Lower.emit i ctx s' = .ok (u, s''))
    (jumps : ∀ l ∈ i.jumps, s.labels ≤ l)
    (writes : ∀ o, i.target? = some o → ∀ id, o.viewed.var? = some id → MayWrite A s s' id) : Segment A s s'' := by
  obtain ⟨follows, code, slots, vars⟩ := emit_ok run
  have labels : s''.labels = s'.labels := by
    obtain rfl := modify_ok.1 run
    exact Program.labelCount_emit ..
  have new {n : Nat} {j : Instr} (found : s''.code[n]? = some j) : s'.code[n]? = some j ∨ j = i := by
    rw [code, Array.getElem?_push] at found
    split at found
    · exact .inr (Option.some.inj found).symm
    · exact .inl found
  refine ⟨h.follows.trans follows, Nat.le_trans h.labels (Nat.le_of_eq labels.symm), fun n j le found l hl => ?_,
    fun n j le found o target id var => ?_⟩
  · rcases new found with found | rfl
    · exact h.jumps n j le found l hl
    · exact jumps l hl
  · rcases new found with found | rfl
    · exact (h.writes n j le found o target id var).after follows
    · exact (writes o target id var).after follows

/-- An instruction that does not jump, and writes one variable. -/
theorem write (h : Segment A s s') {i : Instr} {u : Unit} {id : VarId} (run : Lower.emit i ctx s' = .ok (u, s''))
    (jumps : i.jumps = []) (only : ∀ o, i.target? = some o → o.viewed.var? = some id) (owned : MayWrite A s s' id) :
    Segment A s s'' := by
  refine h.emit run (fun l hl => ?_) fun o target id' var => ?_
  · rw [jumps] at hl
    exact (List.not_mem_nil hl).elim
  · obtain rfl := Option.some.inj ((only o target).symm.trans var)
    exact owned

/-- An instruction that writes nothing. -/
theorem control (h : Segment A s s') {i : Instr} {u : Unit} (run : Lower.emit i ctx s' = .ok (u, s''))
    (jumps : ∀ l ∈ i.jumps, s.labels ≤ l) (none : i.target? = none) : Segment A s s'' :=
  h.emit run jumps fun o target => by
    rw [none] at target
    cases target

/-- An instruction that does not jump, and writes nothing. -/
theorem plain (h : Segment A s s') {i : Instr} {u : Unit} (run : Lower.emit i ctx s' = .ok (u, s''))
    (jumps : i.jumps = []) (none : i.target? = none) : Segment A s s'' := by
  refine h.control run (fun l hl => ?_) none
  rw [jumps] at hl
  exact (List.not_mem_nil hl).elim

theorem branch (h : Segment A s s') {x : Operand} {l l' : LabelId} {u : Unit}
    (run : Lower.emit (.branch x l l') ctx s' = .ok (u, s'')) (hl : s.labels ≤ l) (hl' : s.labels ≤ l') :
    Segment A s s'' := by
  refine h.control run (fun k hk => ?_) rfl
  rcases List.mem_cons.1 hk with rfl | hk
  · exact hl
  · exact List.mem_singleton.1 hk ▸ hl'

end Segment

end LowerState

open LowerState

variable {A : SlotId → Prop} {ctx : LowerContext} {s s' s'' : LowerState}

/-! ## Steps that emit nothing -/

theorem orBroken_ok {α : Type} {o : Option α} {a : α} (run : Lower.orBroken o ctx s = .ok (a, s')) :
    o = some a ∧ s = s' := by
  cases o with
  | none => cases run
  | some a =>
    obtain ⟨rfl, rfl⟩ := pure_ok.1 run
    exact ⟨rfl, rfl⟩

theorem stretch_ok {o x : Operand} {ns : List Int} (run : Lower.stretch o ns ctx s = .ok (x, s')) :
    o.stretch ns = .ok x ∧ s = s' := by
  unfold Lower.stretch at run
  cases stretched : o.stretch ns with
  | error e =>
    rw [stretched] at run
    cases run
  | ok y =>
    rw [stretched] at run
    obtain ⟨rfl, rfl⟩ := pure_ok.1 run
    exact ⟨rfl, rfl⟩

theorem label_ok {l : LabelId} (run : Lower.label ctx s = .ok (l, s')) :
    l = s.labels ∧ s'.labels = s.labels + 1 ∧ s.Quiet s' := by
  have follows := adds_label ctx s l s' run
  cases run
  have labels : (s.out.addLabel s.stream).labelCount s.stream = s.labels + 1 :=
    (Program.labelCount_addLabel ..).trans (if_pos rfl)
  exact ⟨rfl, labels, follows, Nat.le_of_lt (Nat.lt_of_lt_of_eq (Nat.lt_succ_self _) labels.symm),
    Program.stream_addLabel ..⟩

theorem newVariable_quiet {ty : Ty} {l : Location} {id : VarId} (apart : s.Apart)
    (run : Lower.newVariable ty l ctx s = .ok (id, s')) : s.Quiet s' ∧ s.Temporary s' id := by
  have follows := adds_newVariable ty l ctx s id s' run
  cases run
  refine ⟨⟨follows, Nat.le_of_eq (Program.labelCount_addVariable ..).symm, Program.stream_addVariable ..⟩,
    Nat.le_refl _, ?_, fun k hk => Nat.lt_irrefl _ (apart.made k _ hk)⟩
  exact Nat.lt_of_lt_of_eq (Nat.lt_succ_self _) (Array.size_push _).symm

/-- A slot that is there has a variable from then on. -/
theorem variableAt_ok {k : SlotId} {l : Location} {id : VarId} (size : s.slots.size = ctx.source.vars.size)
    (run : Lower.variableAt k l ctx s = .ok (id, s')) : s.Quiet s' ∧ s'.var? k = some id := by
  have follows := adds_variableAt k l ctx s id s' run
  cases old : s.var? k with
  | some old' =>
    rw [variableAt_old old] at run
    cases run
    exact ⟨.refl s, old⟩
  | none =>
    cases found : ctx.source.vars[k]? with
    | none =>
      have old : s.slots.getD k none = none := old
      obtain ⟨t, t', got, run⟩ := bind_ok.1 run
      obtain ⟨rfl, rfl⟩ := get_ok.1 got
      rw [old] at run
      obtain ⟨c, t, got, run⟩ := bind_ok.1 run
      obtain ⟨rfl, rfl⟩ := read_ok.1 got
      obtain ⟨v, t, got, -⟩ := bind_ok.1 run
      rw [found] at got
      cases got
    | some v =>
      rw [variableAt_new old found] at run
      cases run
      have inside : k < s.slots.size := size ▸ (Array.getElem?_eq_some_iff.1 found).1
      exact ⟨⟨follows, Nat.le_of_eq (Program.labelCount_addVariable ..).symm, Program.stream_addVariable ..⟩,
        (var?_give inside _ k).trans (if_pos rfl)⟩

theorem ofSlot_quiet {k : SlotId} {o : Operand} (size : s.slots.size = ctx.source.vars.size)
    (run : Lower.ofSlot k ctx s = .ok (o, s')) :
    s.Quiet s' ∧ ∃ id, o.viewed = .variable id [] ∧ s'.var? k = some id := by
  obtain ⟨t, t', got, run⟩ := bind_ok.1 run
  obtain ⟨rfl, rfl⟩ := get_ok.1 got
  rcases ite_ok.1 run with ⟨-, run⟩ | ⟨-, run⟩
  · cases run
  obtain ⟨id, s₁, at', run⟩ := bind_ok.1 run
  obtain ⟨t, t', got, run⟩ := bind_ok.1 run
  obtain ⟨rfl, rfl⟩ := get_ok.1 got
  obtain ⟨rfl, rfl⟩ := pure_ok.1 run
  obtain ⟨quiet, slot⟩ := variableAt_ok size at'
  exact ⟨quiet, id, rfl, slot⟩

theorem temp_quiet {ty : Ty} {x : Operand} (apart : s.Apart) (run : Lower.temp ty ctx s = .ok (x, s')) :
    s.Quiet s' ∧ ∃ id, x.viewed = .variable id [] ∧ s.Temporary s' id := by
  obtain ⟨t, t', got, run⟩ := bind_ok.1 run
  obtain ⟨rfl, rfl⟩ := get_ok.1 got
  obtain ⟨id, t, made, run⟩ := bind_ok.1 run
  obtain ⟨rfl, rfl⟩ := pure_ok.1 run
  obtain ⟨quiet, temporary⟩ := newVariable_quiet apart made
  exact ⟨quiet, id, rfl, temporary⟩

/-! ## Code that writes one variable -/

/-- An element of an operand is one of the same variable. -/
theorem Operand.var?_of_at? {o y : Operand} {c : List Int} (h : o.at? c = some y) : y.viewed.var? = o.viewed.var? := by
  have select {v v' : Viewed} {i : Int} (h : Operand.select? v i = some v') : v'.var? = v.var? := by
    match v with
    | .variable id coord =>
      cases h
      rfl
    | .constant k =>
      match k with
      | .array items =>
        rw [Operand.select?] at h
        split at h
        · cases h
        · obtain ⟨k, -, rfl⟩ := Option.map_eq_some_iff.1 h
          rfl
      | .void | .bool _ | .int _ | .float _ | .type _ | .macroRef _ => cases h
  induction c generalizing o with
  | nil =>
    cases h
    rfl
  | cons i c ih =>
    obtain ⟨o', first, rest⟩ := Option.bind_eq_some_iff.1 h
    refine (ih rest).trans ?_
    unfold Operand.index? at first
    split at first
    · cases first
    · split at first
      · cases first
        rfl
      · obtain ⟨v, found, rfl⟩ := Option.map_eq_some_iff.1 first
        exact select found
      · obtain ⟨v, found, rfl⟩ := Option.map_eq_some_iff.1 first
        exact select found

/-- Instructions that write one variable, one for each entry of a list. -/
theorem LowerState.Segment.forM {α : Type} {f : α → Lower Unit} {xs : List α} {id : VarId} {u : Unit}
    (h : Segment A s s')
    (each : ∀ x t t', f x ctx t = .ok ((), t') → ∃ i, Lower.emit i ctx t = .ok ((), t') ∧ i.jumps = [] ∧
      ∀ o, i.target? = some o → o.viewed.var? = some id)
    (owned : MayWrite A s s' id) (run : xs.forM f ctx s' = .ok (u, s'')) : Segment A s s'' := by
  induction xs generalizing s' with
  | nil =>
    obtain ⟨-, rfl⟩ := pure_ok.1 run
    exact h
  | cons x xs ih =>
    obtain ⟨⟨⟩, s₁, first, rest⟩ := bind_ok.1 (show (f x >>= fun _ => xs.forM f) ctx s' = _ from run)
    obtain ⟨i, emitted, jumps, only⟩ := each x s' s₁ first
    have follows := adds_emit i ctx s' () s₁ emitted
    exact ih (h.write emitted jumps only owned) (owned.after follows) rest

theorem LowerState.Segment.copyInto {source o : Operand} {id : VarId} {u : Unit} (h : Segment A s s')
    (view : o.viewed.var? = some id) (owned : MayWrite A s s' id)
    (run : Lower.copyInto source o ctx s' = .ok (u, s'')) : Segment A s s'' := by
  obtain ⟨x, s₁, stretched, run⟩ := bind_ok.1 run
  obtain ⟨-, rfl⟩ := stretch_ok stretched
  refine h.forM (fun c t t' run => ?_) owned run
  obtain ⟨y, t₁, got, run⟩ := bind_ok.1 run
  obtain ⟨-, rfl⟩ := orBroken_ok got
  obtain ⟨z, t₂, got, run⟩ := bind_ok.1 run
  obtain ⟨found, rfl⟩ := orBroken_ok got
  refine ⟨_, run, rfl, fun o ho => ?_⟩
  cases ho
  exact (Operand.var?_of_at? found).trans view

theorem segment_addressable {o : Operand} {r : VarId × List Int} (apart : s.Apart)
    (run : Lower.addressable o ctx s = .ok (r, s')) : Segment A s s' := by
  have inMemory (run : (do
      let ty ← Lower.orBroken (o.ty? (← get).out.vars)
      let id ← Lower.newVariable ty (← get).stream.location
      Lower.copyInto o (.ofVariable id (some ty))
      return (id, []) : Lower (VarId × List Int)) ctx s = .ok (r, s')) : Segment A s s' := by
    obtain ⟨t, t', got, run⟩ := bind_ok.1 run
    obtain ⟨rfl, rfl⟩ := get_ok.1 got
    obtain ⟨ty, t, got, run⟩ := bind_ok.1 run
    obtain ⟨-, rfl⟩ := orBroken_ok got
    obtain ⟨t', t'', got, run⟩ := bind_ok.1 run
    obtain ⟨rfl, rfl⟩ := get_ok.1 got
    obtain ⟨id, s₁, made, run⟩ := bind_ok.1 run
    obtain ⟨u, s₂, copied, run⟩ := bind_ok.1 run
    obtain ⟨rfl, rfl⟩ := pure_ok.1 run
    obtain ⟨quiet, temporary⟩ := newVariable_quiet apart made
    exact ((Segment.refl _).quiet quiet).copyInto rfl (.inr temporary) copied
  obtain ⟨v, ds⟩ := o
  match v with
  | .constant c => exact inMemory run
  | .variable id coord =>
    unfold Lower.addressable at run
    rcases ite_ok.1 run with ⟨-, run⟩ | ⟨-, run⟩
    · exact inMemory run
    · obtain ⟨-, rfl⟩ := pure_ok.1 run
      exact .refl s

/-- A new temporary is written. -/
theorem LowerState.Segment.fill {ty : Ty} {xs : List (List Int)} {f : Operand → List Int → Lower Unit} {o : Operand}
    (h : Segment A s s') (apart : s.Apart)
    (each : ∀ x c t t', f x c ctx t = .ok ((), t') → ∃ i, Lower.emit i ctx t = .ok ((), t') ∧ i.jumps = [] ∧
      ∀ y, i.target? = some y → y.viewed.var? = x.viewed.var?)
    (run : (do
      let x ← Lower.temp ty
      xs.forM (f x)
      return x : Lower Operand) ctx s' = .ok (o, s'')) : Segment A s s'' := by
  obtain ⟨x, s₁, made, run⟩ := bind_ok.1 run
  obtain ⟨u, s₂, filled, run⟩ := bind_ok.1 run
  obtain ⟨-, rfl⟩ := pure_ok.1 run
  obtain ⟨quiet, id, view, temporary⟩ := temp_quiet (h.follows.apart apart) made
  refine (h.quiet quiet).forM (fun c t t' run => ?_) (.inr (temporary.before h.follows)) filled
  obtain ⟨i, emitted, jumps, only⟩ := each x c t t' run
  exact ⟨i, emitted, jumps, fun y hy => (only y hy).trans (congrArg Viewed.var? view)⟩

/-! ## Expressions -/

mutual

/-- The code of an expression writes to temporaries only. -/
theorem segment_expr : (e : Staged.Expr) → {s s' : LowerState} → {o : Operand} → s.Apart →
    s.slots.size = ctx.source.vars.size → Lower.expr e ctx s = .ok (o, s') → Segment A s s'
  | .literal _ _ _, _, _, _, _, _, run => by
    rw [Lower.expr] at run
    obtain ⟨-, rfl⟩ := pure_ok.1 run
    exact .refl _
  | .var id _ _, _, _, _, _, size, run => by
    rw [Lower.expr] at run
    exact (Segment.refl _).quiet (ofSlot_quiet size run).1
  | .index base indexes ty _, _, _, _, apart, size, run => by
    rw [Lower.expr] at run
    obtain ⟨b, s₁, first, run⟩ := bind_ok.1 run
    have seg₁ := segment_expr base apart size first
    obtain ⟨r, s₂, told, run⟩ := bind_ok.1 run
    obtain ⟨-, rfl⟩ := constantIndexes?_eq told
    match r with
    | some coord =>
      obtain ⟨-, rfl⟩ := orBroken_ok run
      exact seg₁
    | none =>
      obtain ⟨⟨id, coord⟩, s₃, placed, run⟩ := bind_ok.1 run
      have seg₃ := seg₁.trans (segment_addressable (seg₁.follows.apart apart) placed)
      obtain ⟨os, s₄, second, run⟩ := bind_ok.1 run
      have seg₄ := seg₃.trans
        (segment_indexOperands indexes (seg₃.follows.apart apart) (seg₃.follows.size.trans size) second)
      obtain ⟨t, t', got, run⟩ := bind_ok.1 run
      obtain ⟨rfl, rfl⟩ := get_ok.1 got
      refine seg₄.fill apart (fun x c t t' run => ?_) run
      obtain ⟨y, t₁, got, run⟩ := bind_ok.1 run
      obtain ⟨found, rfl⟩ := orBroken_ok got
      exact ⟨_, run, rfl, fun _ ho => Option.some.inj ho ▸ Operand.var?_of_at? found⟩
  | .collect items ty _, _, _, _, apart, size, run => by
    rw [Lower.expr] at run
    obtain ⟨x, s₁, made, run⟩ := bind_ok.1 run
    obtain ⟨⟨⟩, s₂, filled, run⟩ := bind_ok.1 run
    obtain ⟨-, rfl⟩ := pure_ok.1 run
    obtain ⟨quiet, id, view, temporary⟩ := temp_quiet apart made
    exact segment_collect items ((Segment.refl _).quiet quiet) apart size (congrArg Viewed.var? view) temporary filled
  | .unary op a ty _, _, _, _, apart, size, run => by
    rw [Lower.expr] at run
    obtain ⟨y, s₁, first, run⟩ := bind_ok.1 run
    have seg₁ := segment_expr a apart size first
    refine seg₁.fill apart (fun x c t t' run => ?_) run
    obtain ⟨z, t₁, got, run⟩ := bind_ok.1 run
    obtain ⟨-, rfl⟩ := orBroken_ok got
    obtain ⟨w, t₂, got, run⟩ := bind_ok.1 run
    obtain ⟨found, rfl⟩ := orBroken_ok got
    exact ⟨_, run, rfl, fun _ ho => Option.some.inj ho ▸ Operand.var?_of_at? found⟩
  | .binary op l r ty _, _, _, _, apart, size, run => by
    rw [Lower.expr] at run
    obtain ⟨a, s₁, first, run⟩ := bind_ok.1 run
    have seg₁ := segment_expr l apart size first
    obtain ⟨b, s₂, second, run⟩ := bind_ok.1 run
    have seg₂ := seg₁.trans (segment_expr r (seg₁.follows.apart apart) (seg₁.follows.size.trans size) second)
    cases chosen : BinaryOp.select? op l.ty.base with
    | none =>
      rw [chosen] at run
      cases run
    | some instr =>
      rw [chosen] at run
      obtain ⟨a', t, got, run⟩ := bind_ok.1 run
      obtain ⟨-, rfl⟩ := stretch_ok got
      obtain ⟨b', t, got, run⟩ := bind_ok.1 run
      obtain ⟨-, rfl⟩ := stretch_ok got
      refine seg₂.fill apart (fun x c t t' run => ?_) run
      obtain ⟨y, t₁, got, run⟩ := bind_ok.1 run
      obtain ⟨-, rfl⟩ := orBroken_ok got
      obtain ⟨z, t₂, got, run⟩ := bind_ok.1 run
      obtain ⟨-, rfl⟩ := orBroken_ok got
      obtain ⟨w, t₃, got, run⟩ := bind_ok.1 run
      obtain ⟨found, rfl⟩ := orBroken_ok got
      exact ⟨_, run, rfl, fun _ ho => Option.some.inj ho ▸ Operand.var?_of_at? found⟩
  | .missing, _, _, _, _, _, run => by
    rw [Lower.expr] at run
    cases run

theorem segment_indexOperands : (es : List Staged.Expr) → {s s' : LowerState} → {os : List Operand} → s.Apart →
    s.slots.size = ctx.source.vars.size → Lower.indexOperands es ctx s = .ok (os, s') → Segment A s s'
  | [], _, _, _, _, _, run => by
    rw [Lower.indexOperands] at run
    obtain ⟨-, rfl⟩ := pure_ok.1 run
    exact .refl _
  | e :: es, _, _, _, apart, size, run => by
    rw [Lower.indexOperands] at run
    obtain ⟨o, s₁, first, run⟩ := bind_ok.1 run
    have seg₁ := segment_expr e apart size first
    rcases ite_ok.1 run with ⟨-, run⟩ | ⟨-, run⟩
    · obtain ⟨rest, s₂, second, run⟩ := bind_ok.1 run
      obtain ⟨-, rfl⟩ := pure_ok.1 run
      exact seg₁.trans (segment_indexOperands es (seg₁.follows.apart apart) (seg₁.follows.size.trans size) second)
    · cases run

/-- Items are collected in a temporary. -/
theorem segment_collect {x : Operand} {id : VarId} {i : Nat} : (es : List Staged.Expr) → {s s' s'' : LowerState} →
    Segment A s s' → s.Apart → s.slots.size = ctx.source.vars.size → x.viewed.var? = some id → s.Temporary s' id →
    Lower.collect x i es ctx s' = .ok ((), s'') → Segment A s s''
  | [], _, _, _, seg, _, _, _, _, run => by
    rw [Lower.collect] at run
    obtain ⟨-, rfl⟩ := pure_ok.1 run
    exact seg
  | e :: es, _, _, _, seg, apart, size, view, temporary, run => by
    rw [Lower.collect] at run
    obtain ⟨o, s₁, first, run⟩ := bind_ok.1 run
    have seg₁ := seg.trans (segment_expr e (seg.follows.apart apart) (seg.follows.size.trans size) first)
    have follows₁ := adds_expr e ctx _ o s₁ first
    obtain ⟨y, t, got, run⟩ := bind_ok.1 run
    obtain ⟨found, rfl⟩ := orBroken_ok got
    obtain ⟨⟨⟩, s₂, copied, run⟩ := bind_ok.1 run
    have view' : y.viewed.var? = some id := by
      have found : x.at? [(i : Int)] = some y := by rw [Operand.at?, found]; rfl
      exact (Operand.var?_of_at? found).trans view
    have follows₂ := adds_copyInto _ _ ctx s₁ () s₂ copied
    exact segment_collect es (seg₁.copyInto view' (.inr (temporary.after follows₁)) copied) apart size view
      ((temporary.after follows₁).after follows₂) run

end

/-! ## Statements -/

/-- The code of a step keeps to itself, and writes to variables of some slots only. -/
def KeepsTo {α : Type} (ctx : LowerContext) (assigns : SlotId → Prop) (m : Lower α) : Prop :=
  ∀ s a s', s.Apart → s.slots.size = ctx.source.vars.size → m ctx s = .ok (a, s') → Segment assigns s s'

/-- A step behind others. -/
theorem LowerState.Segment.step {α : Type} {m : Lower α} {a : α} (h : Segment A s s') (keeps : KeepsTo ctx A m)
    (apart : s.Apart) (size : s.slots.size = ctx.source.vars.size) (run : m ctx s' = .ok (a, s'')) : Segment A s s'' :=
  h.trans (keeps s' a s'' (h.follows.apart apart) (h.follows.size.trans size) run)

theorem keepsTo_forM {α : Type} {f : α → Lower Unit} {xs : List α} (each : ∀ x ∈ xs, KeepsTo ctx A (f x)) :
    KeepsTo ctx A (xs.forM f) := by
  intro s _ s' apart size run
  induction xs generalizing s with
  | nil =>
    obtain ⟨-, rfl⟩ := pure_ok.1 run
    exact .refl s
  | cons x xs ih =>
    obtain ⟨⟨⟩, s₁, first, rest⟩ := bind_ok.1 (show (f x >>= fun _ => xs.forM f) ctx s = _ from run)
    have seg₁ := each x List.mem_cons_self s () s₁ apart size first
    exact seg₁.trans (ih (fun y hy => each y (List.mem_cons_of_mem _ hy)) s₁ (seg₁.follows.apart apart)
      (seg₁.follows.size.trans size) rest)

theorem keepsTo_expr (e : Staged.Expr) : KeepsTo ctx A (Lower.expr e) := fun _ _ _ apart size run =>
  segment_expr e apart size run

theorem keepsTo_assign (target : Staged.Target) (value : Staged.Expr) :
    KeepsTo ctx (· = target.var) (Lower.assign target value) := by
  intro s _ s' apart size run
  rw [Lower.assign] at run
  obtain ⟨whole, s₁, first, run⟩ := bind_ok.1 run
  obtain ⟨quiet, id, view, slot⟩ := ofSlot_quiet size first
  have var : whole.viewed.var? = some id := congrArg Viewed.var? view
  have seg₁ : Segment (· = target.var) s s₁ := (Segment.refl s).quiet quiet
  obtain ⟨r, s₂, told, run⟩ := bind_ok.1 run
  obtain ⟨-, rfl⟩ := constantIndexes?_eq told
  cases r with
  | some coord =>
    obtain ⟨o, s₃, second, run⟩ := bind_ok.1 run
    obtain ⟨y, t, got, run⟩ := bind_ok.1 run
    obtain ⟨found, rfl⟩ := orBroken_ok got
    have slot₃ := (adds_expr value ctx _ o _ second).kept _ _ slot
    exact (seg₁.step (keepsTo_expr value) apart size second).copyInto ((Operand.var?_of_at? found).trans var)
      (.inl ⟨_, rfl, slot₃⟩) run
  | none =>
    obtain ⟨os, s₃, second, run⟩ := bind_ok.1 run
    obtain ⟨o, s₄, third, run⟩ := bind_ok.1 run
    obtain ⟨o', t, got, run⟩ := bind_ok.1 run
    obtain ⟨-, rfl⟩ := stretch_ok got
    have seg₃ := seg₁.trans
      (segment_indexOperands target.indexes (seg₁.follows.apart apart) (seg₁.follows.size.trans size) second)
    have slot₄ := (adds_expr value ctx _ o _ third).kept _ _ ((adds_indexOperands _ ctx _ os _ second).kept _ _ slot)
    refine (seg₃.step (keepsTo_expr value) apart size third).forM (fun c t t' run => ?_) (.inl ⟨_, rfl, slot₄⟩) run
    obtain ⟨y, t₁, got, run⟩ := bind_ok.1 run
    obtain ⟨-, rfl⟩ := orBroken_ok got
    exact ⟨_, run, rfl, fun _ ho => Option.some.inj ho ▸ var⟩

theorem addError_quiet {text : String} {u : Unit}
    (run : (modify fun s => { s with out := s.out.addError text } : Lower Unit) ctx s = .ok (u, s')) : s.Quiet s' := by
  obtain rfl := modify_ok.1 run
  have stream : (s.out.addError text).stream s.stream = s.out.stream s.stream := by cases s.stream <;> rfl
  have labels : (s.out.addError text).labelCount s.stream = s.out.labelCount s.stream := by cases s.stream <;> rfl
  exact ⟨.still rfl (.refl _) (fun i v hv => (congrArg (·[i]?) stream).trans hv) rfl, Nat.le_of_eq labels.symm, stream⟩

/-- The steps of flattening an assertion, with the states between them. -/
structure AssertionParts (ctx : LowerContext) (condition : Staged.Expr) (span : Span) (s s' : LowerState) where
  (o : Operand)
  (abort skip : LabelId)
  (s₁ s₂ s₃ s₄ s₅ s₆ s₇ : LowerState)
  test : Lower.expr condition ctx s = .ok (o, s₁)
  makeAbort : Lower.label ctx s₁ = .ok (abort, s₂)
  makeSkip : Lower.label ctx s₂ = .ok (skip, s₃)
  branch : Lower.emit (.branch o skip abort) ctx s₃ = .ok ((), s₄)
  failing : Lower.emit (.label abort) ctx s₄ = .ok ((), s₅)
  entry : (modify fun s => { s with out := s.out.addError ("assertion failed at " ++ ctx.describe span) } : Lower Unit)
    ctx s₅ = .ok ((), s₆)
  fail : Lower.emit (.abort s₅.out.errors.size) ctx s₆ = .ok ((), s₇)
  passing : Lower.emit (.label skip) ctx s₇ = .ok ((), s')

theorem assertion_parts {condition : Staged.Expr} {span : Span} {u : Unit}
    (run : Lower.assertion condition span ctx s = .ok (u, s')) : Nonempty (AssertionParts ctx condition span s s') := by
  rw [Lower.assertion] at run
  obtain ⟨o, s₁, test, run⟩ := bind_ok.1 run
  obtain ⟨abort, s₂, makeAbort, run⟩ := bind_ok.1 run
  obtain ⟨skip, s₃, makeSkip, run⟩ := bind_ok.1 run
  obtain ⟨⟨⟩, s₄, branch, run⟩ := bind_ok.1 run
  obtain ⟨⟨⟩, s₅, failing, run⟩ := bind_ok.1 run
  obtain ⟨t, t', got, run⟩ := bind_ok.1 run
  obtain ⟨rfl, rfl⟩ := get_ok.1 got
  obtain ⟨c, t, got, run⟩ := bind_ok.1 run
  obtain ⟨rfl, rfl⟩ := read_ok.1 got
  obtain ⟨⟨⟩, s₆, added, run⟩ := bind_ok.1 run
  obtain ⟨⟨⟩, s₇, fail, passing⟩ := bind_ok.1 run
  exact ⟨o, abort, skip, s₁, s₂, s₃, s₄, _, s₆, s₇, test, makeAbort, makeSkip, branch, failing, added, fail, passing⟩

/-- An assertion jumps over its abort. -/
theorem keepsTo_assertion (condition : Staged.Expr) (span : Span) : KeepsTo ctx A (Lower.assertion condition span) := by
  intro s _ s' apart size run
  obtain ⟨parts⟩ := assertion_parts run
  obtain ⟨habort, -, quiet₂⟩ := label_ok parts.makeAbort
  obtain ⟨hskip, -, quiet₃⟩ := label_ok parts.makeSkip
  have seg₁ : Segment A s parts.s₁ := segment_expr condition apart size parts.test
  have seg₃ := (seg₁.quiet quiet₂).quiet quiet₃
  have seg₄ := seg₃.branch parts.branch (hskip ▸ (seg₁.quiet quiet₂).labels) (habort ▸ seg₁.labels)
  have seg₆ := (seg₄.plain parts.failing rfl rfl).quiet (addError_quiet parts.entry)
  exact (seg₆.plain parts.fail rfl rfl).plain parts.passing rfl rfl

section Scopes

variable {scope : ScopeId → Lower Unit}

/-- The steps of flattening a clause, with the states between them. -/
structure ClauseParts (ctx : LowerContext) (scope : ScopeId → Lower Unit) (done : LabelId) (c : Staged.Clause)
    (s s' : LowerState) where
  (o : Operand)
  (body next : LabelId)
  (s₁ s₂ s₃ s₄ top bottom s₅ : LowerState)
  test : Lower.expr c.condition ctx s = .ok (o, s₁)
  makeBody : Lower.label ctx s₁ = .ok (body, s₂)
  makeNext : Lower.label ctx s₂ = .ok (next, s₃)
  branch : Lower.emit (.branch o body next) ctx s₃ = .ok ((), s₄)
  begin : Lower.emit (.label body) ctx s₄ = .ok ((), top)
  inner : scope c.body ctx top = .ok ((), bottom)
  jump : Lower.emit (.jump done) ctx bottom = .ok ((), s₅)
  leave : Lower.emit (.label next) ctx s₅ = .ok ((), s')

theorem clause_parts {done : LabelId} {c : Staged.Clause} {cs : List Staged.Clause} {u : Unit}
    (run : Lower.clauses scope done (c :: cs) ctx s = .ok (u, s')) :
    ∃ t, Nonempty (ClauseParts ctx scope done c s t) ∧ Lower.clauses scope done cs ctx t = .ok (u, s') := by
  rw [Lower.clauses] at run
  obtain ⟨o, s₁, test, run⟩ := bind_ok.1 run
  obtain ⟨body, s₂, makeBody, run⟩ := bind_ok.1 run
  obtain ⟨next, s₃, makeNext, run⟩ := bind_ok.1 run
  obtain ⟨⟨⟩, s₄, branch, run⟩ := bind_ok.1 run
  obtain ⟨⟨⟩, top, begin, run⟩ := bind_ok.1 run
  obtain ⟨⟨⟩, bottom, inner, run⟩ := bind_ok.1 run
  obtain ⟨⟨⟩, s₅, jump, run⟩ := bind_ok.1 run
  obtain ⟨⟨⟩, s₆, leave, run⟩ := bind_ok.1 run
  exact ⟨s₆, ⟨o, body, next, s₁, s₂, s₃, s₄, top, bottom, s₅, test, makeBody, makeNext, branch, begin, inner, jump,
    leave⟩, run⟩

namespace ClauseParts

variable {done : LabelId} {c : Staged.Clause} (parts : ClauseParts ctx scope done c s s')

include parts

theorem follows_test : s.Follows parts.s₁ := adds_expr c.condition ctx _ _ _ parts.test

/-- The states from the condition to the body. -/
theorem follows_top : parts.s₁.Follows parts.top :=
  ((adds_label ctx _ _ _ parts.makeBody).trans (adds_label ctx _ _ _ parts.makeNext)).trans
    ((adds_emit _ ctx _ _ _ parts.branch).trans (adds_emit _ ctx _ _ _ parts.begin))

/-- The states behind the body. -/
theorem follows_bottom : parts.bottom.Follows s' :=
  (adds_emit _ ctx _ _ _ parts.jump).trans (adds_emit _ ctx _ _ _ parts.leave)

end ClauseParts

/-- The steps of flattening a branch: a label, the clauses, the last body if there is one, and the end. -/
structure BranchParts (ctx : LowerContext) (scope : ScopeId → Lower Unit) (cs : List Staged.Clause)
    (otherwise : Option ScopeId) (s s' : LowerState) where
  (done : LabelId)
  (s₁ s₂ s₃ : LowerState)
  makeDone : Lower.label ctx s = .ok (done, s₁)
  clauses : Lower.clauses scope done cs ctx s₁ = .ok ((), s₂)
  last : (∃ j, otherwise = some j ∧ scope j ctx s₂ = .ok ((), s₃)) ∨ otherwise = none ∧ s₃ = s₂
  behind : Lower.emit (.label done) ctx s₃ = .ok ((), s')

theorem branch_parts {cs : List Staged.Clause} {otherwise : Option ScopeId} {u : Unit}
    (run : Lower.branch scope cs otherwise ctx s = .ok (u, s')) : Nonempty (BranchParts ctx scope cs otherwise s s') := by
  rw [Lower.branch] at run
  obtain ⟨done, s₁, makeDone, run⟩ := bind_ok.1 run
  obtain ⟨⟨⟩, s₂, clauses, run⟩ := bind_ok.1 run
  cases otherwise with
  | none => exact ⟨⟨done, s₁, s₂, s₂, makeDone, clauses, .inr ⟨rfl, rfl⟩, run⟩⟩
  | some j =>
    obtain ⟨⟨⟩, s₃, inner, run⟩ := bind_ok.1 run
    exact ⟨⟨done, s₁, s₂, s₃, makeDone, clauses, .inl ⟨j, rfl, inner⟩, run⟩⟩

/-- The clauses of a branch jump to its end, a label that was made before them. -/
theorem segment_clauses {done : LabelId} {cs : List Staged.Clause} (keeps : ∀ j ∈ cs.map (·.body),
    KeepsTo ctx A (scope j))
    (apart : s.Apart) (size : s.slots.size = ctx.source.vars.size) (hdone : s.labels ≤ done) (seg : Segment A s s')
    (run : Lower.clauses scope done cs ctx s' = .ok ((), s'')) : Segment A s s'' := by
  induction cs generalizing s' with
  | nil =>
    rw [Lower.clauses] at run
    obtain ⟨-, rfl⟩ := pure_ok.1 run
    exact seg
  | cons c cs ih =>
    obtain ⟨t, ⟨parts⟩, run⟩ := clause_parts run
    obtain ⟨hbody, -, quiet₂⟩ := label_ok parts.makeBody
    obtain ⟨hnext, -, quiet₃⟩ := label_ok parts.makeNext
    have seg₁ := seg.step (keepsTo_expr c.condition) apart size parts.test
    have seg₃ := (seg₁.quiet quiet₂).quiet quiet₃
    have seg₄ := seg₃.branch parts.branch (hbody ▸ seg₁.labels) (hnext ▸ (seg₁.quiet quiet₂).labels)
    have seg₅ := (seg₄.plain parts.begin rfl rfl).step (keeps c.body List.mem_cons_self) apart size parts.inner
    have seg₆ := seg₅.control parts.jump (fun l hl => List.mem_singleton.1 hl ▸ hdone) rfl
    exact ih (fun j hj => keeps j (List.mem_cons_of_mem _ hj)) (seg₆.plain parts.leave rfl rfl) run

theorem keepsTo_branch {cs : List Staged.Clause} {otherwise : Option ScopeId}
    (keeps : ∀ j ∈ cs.map (·.body) ++ otherwise.toList, KeepsTo ctx A (scope j)) :
    KeepsTo ctx A (Lower.branch scope cs otherwise) := by
  intro s _ s' apart size run
  obtain ⟨parts⟩ := branch_parts run
  obtain ⟨hdone, -, quiet⟩ := label_ok parts.makeDone
  have seg₂ := segment_clauses (fun j hj => keeps j (List.mem_append_left _ hj)) apart size (Nat.le_of_eq hdone.symm)
    ((Segment.refl s).quiet quiet) parts.clauses
  rcases parts.last with ⟨j, rfl, inner⟩ | ⟨-, same⟩
  · exact (seg₂.step (keeps j (List.mem_append_right _ List.mem_cons_self)) apart size inner).plain parts.behind rfl rfl
  · exact (same ▸ seg₂).plain parts.behind rfl rfl

/-- The test of a loop, which stands before its first round and after each one. -/
def Lower.test (counter stop condition : Operand) (again done : LabelId) : Lower Unit := do
  Lower.emit (.binary (.compareI .lt) counter stop condition)
  Lower.emit (.branch condition again done)

theorem adds_test (x b y : Operand) (again done : LabelId) : Adds (Lower.test x b y again done) :=
  (adds_emit _).bind fun _ => adds_emit _

/-- The steps of flattening a loop, with the states between them. -/
structure LoopParts (ctx : LowerContext) (scope : ScopeId → Lower Unit) (counter : SlotId) (start stop : Staged.Expr)
    (body : ScopeId) (s s' : LowerState) where
  (again done : LabelId)
  (x a b y : Operand)
  (s₁ s₂ s₃ s₄ s₅ s₆ s₇ s₈ s₉ s₁₀ s₁₁ s₁₂ : LowerState)
  makeAgain : Lower.label ctx s = .ok (again, s₁)
  makeDone : Lower.label ctx s₁ = .ok (done, s₂)
  slot : Lower.ofSlot counter ctx s₂ = .ok (x, s₃)
  low : Lower.expr start ctx s₃ = .ok (a, s₄)
  high : Lower.expr stop ctx s₄ = .ok (b, s₅)
  set : Lower.emit (.move a x) ctx s₅ = .ok ((), s₆)
  condition : Lower.temp .bool ctx s₆ = .ok (y, s₇)
  test : Lower.test x b y again done ctx s₇ = .ok ((), s₈)
  top : Lower.emit (.label again) ctx s₈ = .ok ((), s₉)
  inner : scope body ctx s₉ = .ok ((), s₁₀)
  count : Lower.emit (.binary .addI x (.ofInt 1) x) ctx s₁₀ = .ok ((), s₁₁)
  retest : Lower.test x b y again done ctx s₁₁ = .ok ((), s₁₂)
  bottom : Lower.emit (.label done) ctx s₁₂ = .ok ((), s')

theorem loop_parts {counter : SlotId} {start stop : Staged.Expr} {body : ScopeId} {u : Unit}
    (run : Lower.loop scope counter start stop body ctx s = .ok (u, s')) :
    Nonempty (LoopParts ctx scope counter start stop body s s') := by
  have split : Lower.loop scope counter start stop body = (do
      let again ← Lower.label
      let done ← Lower.label
      let x ← Lower.ofSlot counter
      let a ← Lower.expr start
      let b ← Lower.expr stop
      Lower.emit (.move a x)
      let y ← Lower.temp .bool
      Lower.test x b y again done
      Lower.emit (.label again)
      scope body
      Lower.emit (.binary .addI x (.ofInt 1) x)
      Lower.test x b y again done
      Lower.emit (.label done)) := by
    simp only [Lower.loop, Lower.test, bind_assoc]
  rw [split] at run
  obtain ⟨again, s₁, makeAgain, run⟩ := bind_ok.1 run
  obtain ⟨done, s₂, makeDone, run⟩ := bind_ok.1 run
  obtain ⟨x, s₃, slot, run⟩ := bind_ok.1 run
  obtain ⟨a, s₄, low, run⟩ := bind_ok.1 run
  obtain ⟨b, s₅, high, run⟩ := bind_ok.1 run
  obtain ⟨⟨⟩, s₆, set, run⟩ := bind_ok.1 run
  obtain ⟨y, s₇, condition, run⟩ := bind_ok.1 run
  obtain ⟨⟨⟩, s₈, test, run⟩ := bind_ok.1 run
  obtain ⟨⟨⟩, s₉, top, run⟩ := bind_ok.1 run
  obtain ⟨⟨⟩, s₁₀, inner, run⟩ := bind_ok.1 run
  obtain ⟨⟨⟩, s₁₁, count, run⟩ := bind_ok.1 run
  obtain ⟨⟨⟩, s₁₂, retest, bottom⟩ := bind_ok.1 run
  exact ⟨again, done, x, a, b, y, s₁, s₂, s₃, s₄, s₅, s₆, s₇, s₈, s₉, s₁₀, s₁₁, s₁₂, makeAgain, makeDone, slot, low,
    high, set, condition, test, top, inner, count, retest, bottom⟩

namespace LoopParts

variable {counter : SlotId} {start stop : Staged.Expr} {body : ScopeId}
  (parts : LoopParts ctx scope counter start stop body s s')

include parts

/-- The states that compute the bounds. -/
theorem follows_bounds : parts.s₃.Follows parts.s₅ :=
  (adds_expr start ctx _ _ _ parts.low).trans (adds_expr stop ctx _ _ _ parts.high)

/-- The states from the condition to the body. -/
theorem follows_test : parts.s₇.Follows parts.s₉ :=
  (adds_test _ _ _ _ _ ctx _ _ _ parts.test).trans (adds_emit _ ctx _ _ _ parts.top)

/-- The states from the bounds to the body. -/
theorem follows_top : parts.s₅.Follows parts.s₉ :=
  ((adds_emit _ ctx _ _ _ parts.set).trans (adds_temp _ ctx _ _ _ parts.condition)).trans parts.follows_test

/-- The states behind the body. -/
theorem follows_bottom : parts.s₁₀.Follows s' :=
  ((adds_emit _ ctx _ _ _ parts.count).trans (adds_test _ _ _ _ _ ctx _ _ _ parts.retest)).trans
    (adds_emit _ ctx _ _ _ parts.bottom)

end LoopParts

theorem LowerState.Segment.test {x b y : Operand} {again done : LabelId} {id : VarId} {u : Unit} (h : Segment A s s')
    (hagain : s.labels ≤ again) (hdone : s.labels ≤ done) (view : y.viewed.var? = some id)
    (temporary : s.Temporary s' id)
    (run : Lower.test x b y again done ctx s' = .ok (u, s'')) : Segment A s s'' := by
  obtain ⟨_, s₁, emitted, run⟩ := bind_ok.1 run
  exact (h.write emitted rfl (fun _ ho => Option.some.inj ho ▸ view) (.inr temporary)).branch run hagain hdone

theorem keepsTo_loop {counter : SlotId} {start stop : Staged.Expr} {body : ScopeId} (assigns : A counter)
    (keeps : KeepsTo ctx A (scope body)) : KeepsTo ctx A (Lower.loop scope counter start stop body) := by
  intro s _ s' apart size run
  obtain ⟨parts⟩ := loop_parts run
  obtain ⟨hagain, -, quiet₁⟩ := label_ok parts.makeAgain
  obtain ⟨hdone, -, quiet₂⟩ := label_ok parts.makeDone
  have quiet₂ := quiet₁.trans quiet₂
  obtain ⟨quiet₃, id, view, slot⟩ := ofSlot_quiet (quiet₂.follows.size.trans size) parts.slot
  have var : parts.x.viewed.var? = some id := congrArg Viewed.var? view
  have seg₃ : Segment A s parts.s₃ := (Segment.refl s).quiet (quiet₂.trans quiet₃)
  have seg₅ := (seg₃.step (keepsTo_expr start) apart size parts.low).step (keepsTo_expr stop) apart size parts.high
  have slot₅ := parts.follows_bounds.kept _ _ slot
  have seg₆ := seg₅.write parts.set rfl (fun _ ho => Option.some.inj ho ▸ var) (.inl ⟨counter, assigns, slot₅⟩)
  obtain ⟨quiet₇, t, view', temporary⟩ := temp_quiet (seg₆.follows.apart apart) parts.condition
  have temporary := temporary.before seg₆.follows
  have again : s.labels ≤ parts.again := Nat.le_of_eq hagain.symm
  have done : s.labels ≤ parts.done := hdone ▸ quiet₁.labels
  have seg₈ := (seg₆.quiet quiet₇).test again done (congrArg Viewed.var? view') temporary parts.test
  have seg₉ := seg₈.plain parts.top rfl rfl
  have inner := keeps parts.s₉ () parts.s₁₀ (seg₉.follows.apart apart) (seg₉.follows.size.trans size) parts.inner
  have slot₁₀ := (parts.follows_top.trans inner.follows).kept _ _ slot₅
  have seg₁₁ := (seg₉.trans inner).write parts.count rfl (fun _ ho => Option.some.inj ho ▸ var)
    (.inl ⟨counter, assigns, slot₁₀⟩)
  have temporary₁₁ := (temporary.after (parts.follows_test.trans inner.follows)).after
    (adds_emit _ ctx _ _ _ parts.count)
  have seg₁₂ := seg₁₁.test again done (congrArg Viewed.var? view') temporary₁₁ parts.retest
  exact seg₁₂.plain parts.bottom rfl rfl

/-- The code of a statement writes to what the statement assigns, itself or in its scopes. -/
theorem keepsTo_stmt {st : Staged.Stmt} (target : ∀ k, st.target? = some k → A k)
    (keeps : ∀ j ∈ st.scopes, KeepsTo ctx A (scope j)) : KeepsTo ctx A (Lower.stmt scope st) := by
  cases st with
  | assign t value span =>
    intro s a s' apart size run
    exact (keepsTo_assign t value s a s' apart size run).mono fun k hk => target k (congrArg some hk.symm)
  | assert condition span => exact keepsTo_assertion condition span
  | branch cs otherwise span => exact keepsTo_branch keeps
  | loop counter start stop body span => exact keepsTo_loop (target counter rfl) (keeps body List.mem_cons_self)
  | inlined body span => exact keeps body List.mem_cons_self
  | missing => exact fun _ _ _ _ _ run => by cases run

end Scopes

/-- The code of a scope writes to what the scope assigns. -/
theorem keepsTo_scope (fuel : Nat) (i : ScopeId) : KeepsTo ctx (ctx.source.Assigns i) (Lower.scope fuel i) := by
  induction fuel generalizing i with
  | zero =>
    intro s _ s' _ _ run
    cases run
  | succ fuel ih =>
    intro s _ s' apart size run
    rw [Lower.scope] at run
    obtain ⟨c, t, got, run⟩ := bind_ok.1 run
    obtain ⟨rfl, rfl⟩ := read_ok.1 got
    obtain ⟨stmts, t, got, run⟩ := bind_ok.1 run
    obtain ⟨found, rfl⟩ := orBroken_ok got
    refine keepsTo_forM (fun st hst => ?_) _ _ _ apart size run
    have mem : st ∈ ctx.source.scope i := by
      rw [Staged.Program.scope, Array.getD_eq_getD_getElem?, found]
      exact Array.mem_toList_iff.1 hst
    refine keepsTo_stmt (fun k hk => ⟨st, .here mem, hk⟩) fun j hj s a s' apart size run => ?_
    refine (ih j s a s' apart size run).mono ?_
    rintro k ⟨inner, within, hk⟩
    exact ⟨inner, .inner mem hj within, hk⟩

end SignalLang.Flat
