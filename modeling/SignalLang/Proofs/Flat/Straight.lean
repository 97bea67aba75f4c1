import Mathlib.Data.List.Forall2
import SignalLang.Proofs.Broadcast
import SignalLang.Proofs.Flat.Following
import SignalLang.Proofs.Flat.Lowering
import SignalLang.Proofs.Flat.Values

/-!
# Straight code

The instructions that a step of flattening emits stand in every program that goes on from there
(`Program.Continues`). A loop over coordinates that emits an instruction for each of them becomes a row of writes
(`runs_puts`); when no write changes what a later one writes, the row writes at once (`foldl_put`).

`Passes` says of two states of flattening that the code between them leads from one store to another and
writes to temporaries only, and `Denotes` what the elements of an operand are.
-/

namespace SignalLang

/-- Indexes below lengths that are words are words. -/
theorem InBounds.inRange : {c ds : List Int} → InBounds c ds → (∀ d ∈ ds, d ≤ 2147483648) → ∀ i ∈ c,
    Word.inRange i = true
  | [], _, _, _, _, hi => (List.not_mem_nil hi).elim
  | j :: c, d :: ds, h, small, i, hi => by
    rcases List.mem_cons.1 hi with rfl | hi
    · have := small d List.mem_cons_self
      have := h.1
      exact Word.inRange_iff.2 (by omega)
    · exact h.2.inRange (fun d hd => small d (List.mem_cons_of_mem _ hd)) i hi

namespace Flat

open Staged (SlotId)
open Steps LowerState

variable {p : Program} {ops : Operators} {ctx : LowerContext} {owed owed' : List LabelId} {s s' s'' u : LowerState}
  {σ σ' σ'' : Store p}

/-! ## Stores -/

namespace Store

/-- The element of a variable at a coordinate. -/
def get? (σ : Store p) (id : VarId) (coord : List Int) : Option Scalar := (p.element? id coord).map σ

/-- Replaces the element of a variable at a coordinate, if there is one. -/
def put (σ : Store p) (id : VarId) (coord : List Int) (x : Scalar) : Store p :=
  fun e => if e.var = id ∧ e.coord = coord then x else σ e

theorem write_eq_put (σ : Store p) (e : Element p) (x : Scalar) : σ.write e x = σ.put e.var e.coord x := by
  funext e'
  obtain ⟨var, coord, declared, inBounds⟩ := e
  obtain ⟨var', coord', declared', inBounds'⟩ := e'
  simp [write, put]

theorem put_of_ne {e : Element p} {id : VarId} {coord : List Int} (x : Scalar) (h : e.var = id → e.coord ≠ coord) :
    σ.put id coord x e = σ e := if_neg fun both => h both.1 both.2

theorem get?_eq {σ : Store p} {id : VarId} {coord : List Int} {e : Element p} (h : p.element? id coord = some e) :
    σ.get? id coord = some (σ e) := by
  rw [get?, h, Option.map_some]

/-- Putting back what is there changes nothing. -/
theorem put_get? (σ : Store p) (id : VarId) (coord : List Int) :
    σ.put id coord ((σ.get? id coord).getD default) = σ := by
  funext e
  unfold put
  split
  · obtain ⟨rfl, rfl⟩ := ‹_ ∧ _›
    rw [get?_eq (Program.element?_eq_some.2 ⟨rfl, rfl⟩), Option.getD_some]
  · rfl

/-- The elements of a part of a variable are the same when all its elements are. -/
theorem get?_congr_at {id : VarId} {coord : List Int}
    (h : ∀ e : Element p, e.var = id → e.coord = coord → σ' e = σ e) : σ'.get? id coord = σ.get? id coord := by
  unfold get?
  cases found : p.element? id coord with
  | none => rfl
  | some e =>
    obtain ⟨var, at'⟩ := Program.element?_eq_some.1 found
    exact congrArg some (h e var at')

theorem get?_congr {id : VarId} (h : ∀ e : Element p, e.var = id → σ' e = σ e) (coord : List Int) :
    σ'.get? id coord = σ.get? id coord := get?_congr_at fun e var _ => h e var

end Store

/-- There is an element of a variable at every coordinate of its type. -/
theorem Program.exists_element {id : VarId} {coord : List Int} {v : Variable} (hv : p.vars[id]? = some v)
    (hc : InBounds coord (v.ty.elim [] Ty.dims)) : ∃ e, p.element? id coord = some e := by
  have dims : p.dimsOf id = v.ty.elim [] Ty.dims := by rw [dimsOf, hv, Option.bind_some]
  exact ⟨_, dif_pos ⟨(Array.getElem?_eq_some_iff.1 hv).1, dims ▸ hc⟩⟩

/-- The elements of the variables of slots. -/
def LowerState.contents (u : LowerState) (σ : Store p) (k : SlotId) (coord : List Int) : Scalar :=
  ((u.var? k).bind (σ.get? · coord)).getD default

/-- A row of writes to one variable writes at once when it writes to different coordinates and no write changes what a
later one writes. -/
theorem foldl_put {α : Type} (id : VarId) (coord : α → List Int) (val : α → Store p → Scalar) {xs : List α}
    (apart : xs.Pairwise fun x y =>
      coord x ≠ coord y ∧ ∀ σ : Store p, val y (σ.put id (coord x) (val x σ)) = val y σ) (σ : Store p) :
    (∀ e : Element p, e.var = id → ∀ x ∈ xs, e.coord = coord x →
      xs.foldl (fun σ x => σ.put id (coord x) (val x σ)) σ e = val x σ) ∧
    ∀ e : Element p, (e.var = id → ∀ x ∈ xs, e.coord ≠ coord x) →
      xs.foldl (fun σ x => σ.put id (coord x) (val x σ)) σ e = σ e := by
  induction xs generalizing σ with
  | nil => exact ⟨fun _ _ _ hx => (List.not_mem_nil hx).elim, fun _ _ => rfl⟩
  | cons x xs ih =>
    obtain ⟨first, rest⟩ := List.pairwise_cons.1 apart
    obtain ⟨inside, outside⟩ := ih rest (σ.put id (coord x) (val x σ))
    refine ⟨fun e he y hy same => ?_, fun e he => ?_⟩
    · rw [List.foldl_cons]
      rcases List.mem_cons.1 hy with rfl | hy
      · rw [outside e fun _ z hz => same ▸ (first z hz).1]
        exact if_pos ⟨he, same⟩
      · rw [inside e he y hy same, (first y hy).2]
    · rw [List.foldl_cons, outside e fun h y hy => he h y (List.mem_cons_of_mem _ hy)]
      exact Store.put_of_ne _ fun h => he h x List.mem_cons_self

/-! ## Reading operands -/

/-- A coordinate of an element is one behind the indexes that lead to it. -/
theorem Leads.inBounds : {c c' : List Int} → {t u : Ty} → Leads c t u → InBounds c' u.dims → InBounds (c ++ c') t.dims
  | [], _, _, _, h, h' => h ▸ h'
  | _ :: _, _, .array _ _, _, h, h' => ⟨h.1, h.2.inBounds h'⟩

theorem Leads.mem_dims : {c : List Int} → {t u : Ty} → Leads c t u → {d : Int} → d ∈ u.dims → d ∈ t.dims
  | [], _, _, h, _, hd => h ▸ hd
  | _ :: _, .array _ _, _, h, _, hd => List.mem_cons_of_mem _ (h.2.mem_dims hd)

/-- Indexes that lead into lengths that are words are words. -/
theorem Leads.inRange : {c : List Int} → {t u : Ty} → Leads c t u → (∀ d ∈ t.dims, d ≤ 2147483648) →
    ∀ i ∈ c, Word.inRange i = true
  | [], _, _, _, _, _, hi => (List.not_mem_nil hi).elim
  | _ :: _, .array _ _, _, h, small, i, hi => by
    rcases List.mem_cons.1 hi with rfl | hi
    · have := small _ List.mem_cons_self
      have := h.1
      exact Word.inRange_iff.2 (by omega)
    · exact h.2.inRange (fun d hd => small d (List.mem_cons_of_mem _ hd)) i hi

namespace Operand

@[simp] theorem read?_element (σ : Store p) (id : VarId) (coord : List Int) :
    (⟨.variable id coord, []⟩ : Operand).read? σ = σ.get? id coord := rfl

theorem element?_element (p : Program) (id : VarId) (coord : List Int) :
    (⟨.variable id coord, []⟩ : Operand).element? p = p.element? id coord := rfl

/-- What an operand reads depends on its variable only. -/
theorem read?_congr {o : Operand} (h : ∀ e : Element p, o.viewed.var? = some e.var → σ' e = σ e) :
    o.read? σ' = o.read? σ := by
  obtain ⟨viewed, dims⟩ := o
  match viewed with
  | .constant c => rfl
  | .variable id coord =>
    simp only [read?, element?]
    split
    · exact Store.get?_congr (fun e he => h e (by rw [he]; rfl)) coord
    · rfl

theorem at?_append (o : Operand) (a b : List Int) : o.at? (a ++ b) = (o.at? a).bind (·.at? b) := by
  induction a generalizing o with
  | nil => rfl
  | cons i a ih =>
    rw [List.cons_append, at?, at?, Option.bind_assoc]
    exact Option.bind_congr fun o' _ => ih o'

/-- A typed element has a value in every store. -/
theorem IsElement.exists_read {o : Operand} {b : Prim} (h : o.IsElement s.out.vars s.stream b)
    (vars : Extends s.out.vars p.vars) (σ : Store p) : ∃ x, o.read? σ = some x := by
  obtain ⟨viewed, dims⟩ := o
  obtain rfl : dims = [] := h.dims
  match viewed, h.hasTy with
  | .constant (.bool x), _ | .constant (.int n), _ | .constant (.float x), _ => exact ⟨_, rfl⟩
  | .constant (.array items), typed =>
    have typed : (Constant.array items).HasTy (.prim b) := typed
    obtain ⟨n, u, eq, -⟩ := Constant.hasTy_array.1 typed
    cases eq
  | .variable id coord, typed =>
    obtain ⟨whole, ⟨-, l, found, -⟩, leads⟩ := typed
    have inside := leads.inBounds (show InBounds [] (Ty.prim b).dims from trivial)
    rw [List.append_nil] at inside
    obtain ⟨e, he⟩ := Program.exists_element (vars _ _ found) inside
    exact ⟨σ e, by rw [read?_element, Store.get?, he]; rfl⟩

/-- The items of a constant are the elements of the operand that is all of it. -/
theorem at?_ofConstant {c : Constant} {t : Ty} {coord : List Int} (h : c.HasTy t) (hc : InBounds coord t.dims) :
    ∃ k, c.item? coord = some k ∧ k.HasTy (.prim t.base) ∧ (ofConstant c).at? coord = some ⟨.constant k, []⟩ := by
  induction t generalizing c coord with
  | prim b =>
    cases coord with
    | nil => exact ⟨c, by simp [Constant.item?], h, by rw [ofConstant, h.ty_eq]; rfl⟩
    | cons => exact hc.elim
  | array n t ih =>
    cases coord with
    | nil => exact hc.elim
    | cons i coord =>
      cases c with
      | array items =>
        obtain ⟨⟨low, high⟩, hc⟩ : (0 ≤ i ∧ i < n) ∧ InBounds coord t.dims := hc
        obtain ⟨m, u, eq, -, length, all⟩ := Constant.hasTy_array.1 h
        cases eq
        have lt : i.toNat < items.length := by omega
        obtain ⟨k, item, typed, found⟩ := ih (all _ (List.getElem_mem lt)) hc
        refine ⟨k, ?_, typed, ?_⟩
        · rw [Constant.item?, if_neg (by omega), List.getElem?_eq_getElem lt, Option.bind_some, item]
        · rw [ofConstant, (all _ (List.getElem_mem lt)).ty_eq] at found
          have index : (ofConstant (.array items)).index? i = some ⟨.constant items[i.toNat], whole t⟩ := by
            rw [ofConstant, h.ty_eq, index?]
            simp [whole, Ty.dims, select?, List.getElem?_eq_getElem lt, Int.not_lt.2 low]
          rw [at?, index, Option.bind_some, found]
      | bool | int | float => cases h
      | void | type | macroRef => exact h.elim

/-- The elements of an operand have given values. -/
def Denotes (σ : Store p) (o : Operand) (dims : List Int) (x : List Int → Scalar) : Prop :=
  ∀ c, InBounds c dims → (o.at? c).bind (·.read? σ) = some (x c)

/-- An operand that is seen at all of its coordinates, each of which is an element of one variable or of none. -/
theorem IsWhole.at?_element {o : Operand} {t : Ty} {c : List Int} (h : o.IsWhole s.out.vars s.stream t)
    (hc : InBounds c t.dims) : ∃ y, o.at? c = some y ∧ y.IsElement s.out.vars s.stream t.base ∧
      y.viewed.var? = o.viewed.var? := at?_of_leads h (leads_of_inBounds hc)

variable {o o' : Operand} {t : Ty} {x : List Int → Scalar}

theorem Denotes.read {c : List Int} (h : o.Denotes σ t.dims x) (whole : o.IsWhole s.out.vars s.stream t)
    (hc : InBounds c t.dims) : ∃ y, o.at? c = some y ∧ y.read? σ = some (x c) := by
  obtain ⟨y, found, -⟩ := whole.at?_element hc
  exact ⟨y, found, by rw [← h c hc, found, Option.bind_some]⟩

theorem Denotes.congr (h : o.Denotes σ t.dims x) (whole : o.IsWhole s.out.vars s.stream t)
    (same : ∀ e : Element p, o.viewed.var? = some e.var → σ' e = σ e) : o.Denotes σ' t.dims x := by
  intro c hc
  obtain ⟨y, found, -, var⟩ := whole.at?_element hc
  rw [← h c hc, found, Option.bind_some, Option.bind_some]
  exact read?_congr fun e he => same e (var ▸ he)

theorem IsWhole.lt (h : o.IsWhole s.out.vars s.stream t) {id : VarId} (hid : o.viewed.var? = some id) :
    id < s.out.vars.size := by
  obtain ⟨w, -, l, found, -⟩ := h.holds hid
  exact (Array.getElem?_eq_some_iff.1 found).1

/-- An operand keeps its elements while older variables do. -/
theorem Denotes.later (h : o.Denotes σ t.dims x) (whole : o.IsWhole s.out.vars s.stream t)
    (old : ∀ e : Element p, e.var < s.out.vars.size → σ' e = σ e) : o.Denotes σ' t.dims x :=
  h.congr whole fun e he => old e (whole.lt he)

/-- A stretched operand has the elements that its coordinates read. -/
theorem Denotes.stretch {ns : List Int} (h : o.Denotes σ t.dims x) (dims : o.dims = Operand.whole t)
    (hs : Stretches t.dims ns) (run : o.stretch ns = .ok o') :
    o'.Denotes σ ns fun c => x (broadcast c t.dims) := by
  intro c hc
  obtain ⟨v, ds⟩ := o
  obtain rfl : ds = Operand.whole t := dims
  obtain ⟨ds, stretched, rfl⟩ := stretch_eq_ok.1 run
  rw [at?_stretchDims v stretched hc]
  exact h _ (hc.broadcast hs)

/-- The elements of a part are those behind the indexes that lead to it. -/
theorem Denotes.at {c : List Int} {t u : Ty} (h : o.Denotes σ t.dims x) (found : o.at? c = some o')
    (leads : Leads c t u) : o'.Denotes σ u.dims fun c' => x (c ++ c') := by
  intro c' hc'
  rw [← h _ (leads.inBounds hc'), at?_append, found, Option.bind_some]

/-- Indexes of a whole variable lead to a part of it. -/
theorem at?_variable_of_leads {id : VarId} {coord c : List Int} {t w : Ty} (leads : Leads c t w) :
    (⟨.variable id coord, Operand.whole t⟩ : Operand).at? c = some ⟨.variable id (coord ++ c), Operand.whole w⟩ := by
  induction c generalizing t coord with
  | nil =>
    obtain rfl : t = w := leads
    rw [at?, List.append_nil]
  | cons i c ih =>
    cases t with
    | prim => exact leads.elim
    | array n t =>
      have step : (⟨.variable id coord, Operand.whole (.array n t)⟩ : Operand).index? i =
          some ⟨.variable id (coord ++ [i]), Operand.whole t⟩ := rfl
      rw [at?, step, Option.bind_some, ih leads.2, List.append_assoc, List.singleton_append]

/-- All elements of a variable are those of the operand that is all of it. -/
theorem at?_ofVariable {id : VarId} {t : Ty} {c : List Int} (hc : InBounds c t.dims) :
    (ofVariable id (some t)).at? c = some ⟨.variable id c, []⟩ := at?_variable hc

/-- Operands are indexes of given values. -/
def Selects (σ : Store p) (os : List Operand) (coord : List Int) : Prop :=
  List.Forall₂ (fun o i => ∃ x, o.read? σ = some x ∧ x.index? = some i) os coord

theorem Selects.append {os os' : List Operand} {c c' : List Int} (h : Selects σ os c) (h' : Selects σ os' c') :
    Selects σ (os ++ os') (c ++ c') := List.rel_append h h'

theorem Selects.congr {os : List Operand} {c : List Int} (h : Selects σ os c)
    (same : ∀ o ∈ os, o.read? σ' = o.read? σ) : Selects σ' os c := by
  induction h with
  | nil => exact .nil
  | cons first _ ih =>
    obtain ⟨x, read, index⟩ := first
    exact .cons ⟨x, (same _ List.mem_cons_self).trans read, index⟩ (ih fun o ho => same o (List.mem_cons_of_mem _ ho))

/-- Numbers that are words are indexes of their values. -/
theorem selects_ofInt {c : List Int} (h : ∀ i ∈ c, Word.inRange i = true) (σ : Store p) :
    Selects σ (c.map ofInt) c := by
  rw [Selects, List.forall₂_map_left_iff, List.forall₂_same]
  exact fun i hi => ⟨.int (Word.wrap i), rfl, congrArg some ((Word.wrap_wrap i).trans (Word.wrap_eq_self (h i hi)))⟩

/-- Indexes whose values are the coordinate of an element select it. -/
theorem selected?_of_selects {e : Element p} {ty : Option Ty} {os : List Operand} (h : Selects σ os e.coord) :
    (Operand.ofVariable e.var ty).selected? σ (.ofInt 0 :: os) = some (some e) := by
  have values {os : List Operand} {coord : List Int} (h : Selects σ os coord) :
      ∃ xs, os.mapM (read? σ) = some xs ∧ xs.mapM Scalar.index? = some coord := by
    induction h with
    | nil => exact ⟨[], rfl, rfl⟩
    | cons first _ ih =>
      obtain ⟨x, read, index⟩ := first
      obtain ⟨xs, reads, indexes⟩ := ih
      exact ⟨x :: xs, by rw [List.mapM_cons, read, reads]; rfl, by rw [List.mapM_cons, index, indexes]; rfl⟩
  obtain ⟨xs, reads, indexes⟩ := values h
  have rest : os.length = (p.dimsOf e.var).length := h.length_eq.trans e.inBounds.length_eq
  have origin : (Operand.ofInt 0).isOrigin = true := rfl
  simp only [selected?, ofVariable]
  rw [if_pos ⟨e.declared, origin, rest⟩, reads, Option.map_some, indexes]
  exact congrArg some (Program.element?_eq_some.2 ⟨rfl, rfl⟩)

end Operand

open Operand (Denotes)

/-! ## Running emitted code -/

/-- A program goes on from a state of flattening. -/
structure Program.Continues (p : Program) (s : LowerState) : Prop where
  vars : Extends s.out.vars p.vars
  code : Extends s.code (p.stream s.stream)

theorem Program.Continues.before (h : p.Continues s') (follows : s.Follows s') : p.Continues s :=
  ⟨follows.vars.trans h.vars, fun i v hv => follows.stream ▸ h.code i v (follows.code i v hv)⟩

theorem Program.Continues.dimsOf (h : p.Continues s) {id : VarId} {t : Ty} (holds : HoldsTy s.out.vars s.stream id t) :
    p.dimsOf id = t.dims := by
  obtain ⟨-, l, found, -⟩ := holds
  rw [Program.dimsOf, h.vars id _ found]
  rfl

theorem Program.Continues.exists_element (h : p.Continues s) {id : VarId} {t : Ty}
    (holds : HoldsTy s.out.vars s.stream id t) {c : List Int} (hc : InBounds c t.dims) :
    ∃ e, p.element? id c = some e := by
  obtain ⟨-, l, found, -⟩ := holds
  exact Program.exists_element (h.vars id _ found) hc

/-- Whether a state of the machine is before one of the instructions from one number to another. -/
def Config.between (first last : Nat) : Config p → Bool
  | .running i _ => first ≤ i && i < last
  | .aborted .. | .trapped _ => false

theorem Config.between_running {first last i : Nat} (h : first ≤ i) (h' : i < last) :
    (Config.running i σ).between first last = true := by
  simp [between, h, h']

/-- The machine on the code that was emitted between two states of flattening. It stops where it leaves that code. -/
def Program.between? (p : Program) (ops : Operators) (s s' : LowerState) : Machine (Config p) (Element p × Scalar) :=
  (p.step? s.stream ops).inside (Config.between s.code.size s'.code.size)

/-- Code stays what it is as part of more code. -/
theorem runs_between {s₁ s₂ : LowerState} {c c' : Config p} {ws : Writes p} {n : Nat}
    (h : Runs (p.between? ops s₁ s₂) n c ws c') (before : s.Follows s₁) (later : s₂.Follows s') :
    Runs (p.between? ops s s') n c ws c' := by
  unfold Program.between? at h ⊢
  rw [before.stream] at h
  refine h.widen fun c within => ?_
  have lower := before.code.size_le
  have upper := later.code.size_le
  cases c with
  | running i σ =>
    simp only [Config.between, Bool.and_eq_true, decide_eq_true_eq] at within ⊢
    omega
  | aborted | trapped => cases within

theorem reaches_between {s₁ s₂ : LowerState} {c c' : Config p} {ws : Writes p}
    (h : Reaches (p.between? ops s₁ s₂) c ws c') (before : s.Follows s₁) (later : s₂.Follows s') :
    Reaches (p.between? ops s s') c ws c' := h.imp fun _ run => runs_between run before later

theorem step?_running {st : Stream} {n : Nat} {i : Instr} (found : (p.stream st)[n]? = some i) :
    p.step? st ops (.running n σ) = (i.outcome? ops σ).bind (·.after? st n σ) := by
  rw [Program.step?, found, Option.bind_some]

/-- A run changes only the elements that it shows to be written. -/
theorem store_of_runs {st : Stream} {n : Nat} {c c' : Config p} {ws : Writes p}
    (run : Runs (p.step? st ops) n c ws c') {e : Element p} (h : ∀ w ∈ ws, w.1 ≠ e) : c'.store e = c.store e := by
  induction run with
  | zero => rfl
  | @succ n a b c l ls first rest ih =>
    have step : b.store e = a.store e := by
      cases a with
      | running i σ =>
        obtain ⟨instr, found, first⟩ := Option.bind_eq_some_iff.1 first
        obtain ⟨out, effect, after⟩ := Option.bind_eq_some_iff.1 first
        cases out with
        | write e' x =>
          cases after
          exact Store.write_of_ne x fun same => h (e', x) (List.mem_append_left _ List.mem_cons_self) same.symm
        | next | abort code | trap =>
          cases after
          rfl
        | goto l =>
          obtain ⟨n, -, eq⟩ := Option.map_eq_some_iff.1 after
          cases eq
          rfl
      | aborted code σ | trapped σ => cases first
    rw [ih fun w hw => h w (List.mem_append_right _ hw), step]

theorem emit_ok {i : Instr} {v : Unit} (run : Lower.emit i ctx s = .ok (v, s')) :
    s.Follows s' ∧ s'.code = s.code.push i ∧ s'.slots = s.slots ∧ s'.out.vars = s.out.vars := by
  refine ⟨adds_emit i ctx s v s' run, ?_⟩
  obtain rfl := modify_ok.1 run
  exact ⟨code_emit s i, rfl, Program.vars_emit ..⟩

/-- An emitted instruction stands where the code ended. -/
theorem Program.Continues.emitted {i : Instr} (h : p.Continues s') (stream : s'.stream = s.stream)
    (code : s'.code = s.code.push i) : (p.stream s.stream)[s.code.size]? = some i := by
  rw [← stream]
  exact h.code _ _ (code ▸ Array.getElem?_push_size)

/-- Emitted writes to one variable, one for each entry of a list. What holds of a store may depend on the writes that
are still to come. -/
theorem runs_puts {α : Type} (ops : Operators) (id : VarId) (coord : α → List Int) (val : α → Store p → Scalar)
    (P : List α → Store p → Prop) {f : α → Lower Unit} {xs : List α}
    (each : ∀ x rest, x :: rest <:+ xs → ∃ i, f x = Lower.emit i ∧ ∀ σ, P (x :: rest) σ →
      P rest (σ.put id (coord x) (val x σ)) ∧
      ∃ e, i.outcome? ops σ = some (.write e (val x σ)) ∧ e.var = id ∧ e.coord = coord x)
    (run : xs.forM f ctx s = .ok ((), s')) (cont : p.Continues s') (hσ : P xs σ) :
    ∃ ws, Reaches (p.between? ops s s') (.running s.code.size σ) ws
      (.running s'.code.size (xs.foldl (fun σ x => σ.put id (coord x) (val x σ)) σ)) ∧ ∀ w ∈ ws, w.1.var = id := by
  induction xs generalizing s σ with
  | nil =>
    obtain ⟨-, rfl⟩ := pure_ok.1 run
    exact ⟨[], ⟨0, .zero _⟩, fun _ h => (List.not_mem_nil h).elim⟩
  | cons x xs ih =>
    obtain ⟨u, s₁, first, rest⟩ := bind_ok.1 (show (f x >>= fun _ => xs.forM f) ctx s = _ from run)
    obtain ⟨i, emits, effect⟩ := each x xs (List.suffix_refl _)
    obtain ⟨hσ₁, e, outcome, var, at'⟩ := effect σ hσ
    rw [emits] at first
    obtain ⟨follows, code, -⟩ := emit_ok first
    have each' := fun y ys (suffix : y :: ys <:+ xs) => each y ys (suffix.trans (List.suffix_cons x xs))
    have later : s₁.Follows s' := by
      refine Adds.forM_of_mem (fun y hy => ?_) ctx s₁ () s' rest
      obtain ⟨before, after, split⟩ := List.append_of_mem hy
      obtain ⟨j, emits, -⟩ := each' y after ⟨before, split.symm⟩
      exact emits ▸ adds_emit j
    obtain ⟨ws, reaches, vars⟩ := ih each' rest hσ₁
    have step : p.between? ops s s₁ (.running s.code.size σ) =
        some ([(e, val x σ)], .running s₁.code.size (σ.put id (coord x) (val x σ))) := by
      have size : s₁.code.size = s.code.size + 1 := code ▸ Array.size_push i
      refine (Machine.inside_of (Config.between_running (Nat.le_refl _) (size ▸ Nat.lt_succ_self _))).trans ?_
      rw [step?_running ((cont.before later).emitted follows.stream code), outcome, Option.bind_some, size, ← var,
        ← at',
        ← Store.write_eq_put]
      rfl
    have first : Reaches (p.between? ops s s₁) _ _ _ := ⟨1, .single step⟩
    refine ⟨_, (reaches_between first (.refl s) later).trans (reaches_between reaches follows (.refl s')),
      fun w hw => ?_⟩
    rcases List.mem_append.1 hw with hw | hw
    · rw [List.mem_singleton.1 hw]
      exact var
    · exact vars w hw

/-- The code between two states runs from one store to another and writes to temporaries only. -/
def Passes (p : Program) (ops : Operators) (s s' : LowerState) (σ σ' : Store p) : Prop :=
  ∃ ws, Reaches (p.between? ops s s') (.running s.code.size σ) ws (.running s'.code.size σ') ∧
    ∀ w ∈ ws, s.Temporary s' w.1.var

namespace Passes

/-- There is no code. -/
theorem still (σ : Store p) (code : s'.code = s.code) : Passes p ops s s' σ σ :=
  ⟨[], ⟨0, code ▸ .zero _⟩, fun _ h => (List.not_mem_nil h).elim⟩

/-- More code follows, which writes to temporaries too. -/
theorem append {ws : Writes p} (h : Passes p ops s s' σ σ')
    (h' : Reaches (p.between? ops s' s'') (.running s'.code.size σ') ws (.running s''.code.size σ''))
    (temporary : ∀ w ∈ ws, s.Temporary s'' w.1.var) (follows : s.Follows s') (follows' : s'.Follows s'') :
    Passes p ops s s'' σ σ'' := by
  obtain ⟨ws', reaches, temporary'⟩ := h
  refine ⟨ws' ++ ws, (reaches_between reaches (.refl s) follows').trans (reaches_between h' follows (.refl s'')),
    fun w hw => ?_⟩
  rcases List.mem_append.1 hw with hw | hw
  · exact (temporary' w hw).after follows'
  · exact temporary w hw

theorem trans (h : Passes p ops s s' σ σ') (h' : Passes p ops s' s'' σ' σ'') (follows : s.Follows s')
    (follows' : s'.Follows s'') : Passes p ops s s'' σ σ'' := by
  obtain ⟨ws, reaches, temporary⟩ := h'
  exact h.append reaches (fun w hw => (temporary w hw).before follows) follows follows'

/-- What is no temporary keeps its elements. -/
theorem frame (h : Passes p ops s s' σ σ') {e : Element p} (he : ¬s.Temporary s' e.var) : σ' e = σ e := by
  obtain ⟨ws, ⟨n, run⟩, temporary⟩ := h
  exact store_of_runs run.of_inside fun w hw same => he (same ▸ temporary w hw)

/-- What was made before keeps its elements. -/
theorem old (h : Passes p ops s s' σ σ') {e : Element p} (he : e.var < s.out.vars.size) : σ' e = σ e :=
  h.frame fun temporary => Nat.not_lt.2 temporary.new he

/-- Slots keep their elements. -/
theorem contents (h : Passes p ops s s' σ σ') (later : s'.Follows u) : u.contents σ' = u.contents σ := by
  funext k coord
  unfold LowerState.contents
  cases found : u.var? k with
  | none => rfl
  | some id =>
    rw [Option.bind_some, Option.bind_some]
    refine congrArg (Option.getD · default) (Store.get?_congr (fun e he => h.frame fun temporary => ?_) coord)
    exact (temporary.after later).free k (found.trans (congrArg some he.symm))

end Passes

end Flat

end SignalLang
