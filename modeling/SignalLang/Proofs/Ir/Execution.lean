import SignalLang.Proofs.Flat.Safety
import SignalLang.Proofs.Ir.Blocks

/-!
# Generated code runs as its instructions

A function is run from where a builder was to where it is after a step: `Flows` says that the code in between
runs without writes and leaves the registers alone that there were before. The code for an operand computes its
value, the code for a base with indexes computes the address of the element they select or stops at an index that
selects none, and the code for an operator computes what the operator does. `carries_instr` puts this together
for an instruction: its code does what its effect says.
-/

namespace SignalLang.Ir

open Flat (Stream Interface LabelId VarId Operand Scalar Store Element)
open Steps

variable {A : Arithmetic} {blocks : List Block} {ctx : Context} {b b' b'' : Builder} {k : BlockName}
  {r r' r'' : Registers} {m : Memory} {v v' w : Value} {x y : Scalar} {h : Held} {limit : Nat}

/-! ## Single steps -/

/-- No two blocks have the same name. -/
def Named (blocks : List Block) : Prop := (blocks.map (·.name)).Nodup

theorem find?_of_mem (named : Named blocks) {block : Block} (mem : block ∈ blocks) :
    blocks.find? (·.name = block.name) = some block := by
  induction blocks with
  | nil => cases mem
  | cons first rest ih =>
    obtain ⟨fresh, named⟩ := List.nodup_cons.1 named
    rcases List.mem_cons.1 mem with rfl | mem
    · simp
    · have other : first.name ≠ block.name := fun e => fresh (List.mem_map.2 ⟨block, mem, e.symm⟩)
      rw [List.find?_cons_of_neg (by simpa using other)]
      exact ih named mem

/-- The step at an instruction that the builder has appended. -/
theorem step_instr (named : Named blocks) (fits : b.Fits blocks) (hk : b.current = some k) {n : Nat} {i : Instr}
    (found : b.body[n]? = some i) : step? A blocks (.running k n r m) = i.after? A k n r m := by
  obtain ⟨block, mem, rfl, body⟩ := fits.current k hk
  simp only [step?, find?_of_mem named mem, body n i found, Option.bind_eq_bind, Option.bind_some]

/-- The step at the end of a block. -/
theorem step_terminator (named : Named blocks) {body : Array Instr} {t : Terminator}
    (mem : ⟨k, body, t⟩ ∈ blocks) :
    step? A blocks (.running k body.size r m) = (t.after? r m).map fun s => ([], s) := by
  have found := find?_of_mem named mem
  dsimp only at found
  simp only [step?, found, Option.bind_eq_bind, Option.bind_some, Array.getElem?_size]
  cases t.after? r m <;> rfl

/-! ## Values -/

/-- A value uses no register from a number on. -/
def Value.Below (limit : Nat) : Value → Prop
  | .register n _ => n < limit
  | _ => True

theorem Value.Below.eval?_eq (below : v.Below limit) (kept : ∀ n < limit, r' n = r n) : v.eval? r' = v.eval? r := by
  cases v with
  | register n ty => exact kept n below
  | _ => rfl

/-- A value is something, and uses no register from a number on. -/
structure Value.Holds (v : Value) (limit : Nat) (r : Registers) (h : Held) : Prop where
  eval : v.eval? r = some h
  below : v.Below limit

theorem Value.Holds.scalar? (hv : v.Holds limit r (.scalar x)) : v.scalar? r = some x := by
  rw [Value.scalar?, hv.eval]

theorem Value.Holds.address? {a : Address} (hv : v.Holds limit r (.address a)) : v.address? r = some a := by
  rw [Value.address?, hv.eval]

theorem Value.holds_int {n : Int} (word : Word.inRange n = true) :
    (Value.int n).Holds limit r (.scalar (.int n)) where
  eval := by rw [Value.eval?, Word.wrap_eq_self word]
  below := trivial

@[simp] theorem Value.scalar?_zero : (Value.int 0).scalar? r = some (.int 0) := rfl

/-- All digits are set. -/
@[simp] theorem Value.scalar?_ones : (Value.int (-1)).scalar? r = some (.int (-1)) := rfl

@[simp] theorem Value.scalar?_bool (c : Bool) : (Value.bool c).scalar? r = some (.bool c) := rfl

/-- Constants are what they are in flat programs. -/
theorem Value.holds_of_constant {c : Constant} (hv : Value.ofConstant? c = some v)
    (hx : Scalar.ofConstant? c = some x) : v.Holds limit r (.scalar x) := by
  cases c with
  | bool _ | float _ =>
    cases hv
    cases hx
    exact ⟨rfl, trivial⟩
  | int n =>
    cases hv
    cases hx
    exact Value.holds_int (Word.inRange_wrap n)
  | _ => cases hx

/-! ## Code that runs -/

/-- The code between two states of a builder runs without writes and keeps the registers that there were. -/
structure Flows (A : Arithmetic) (blocks : List Block) (k : BlockName) (b b' : Builder) (r r' : Registers)
    (m : Memory) : Prop where
  run : ∃ n, Runs (step? A blocks) n (.running k b.body.size r m) [] (.running k b'.body.size r' m)
  kept : ∀ n < b.next, r' n = r n
  extended : b.Extended b'
  current : b'.current = some k

namespace Flows

theorem refl (hk : b.current = some k) : Flows A blocks k b b r r m :=
  ⟨⟨0, .zero _⟩, fun _ _ => rfl, .refl b, hk⟩

theorem trans (f : Flows A blocks k b b' r r' m) (g : Flows A blocks k b' b'' r' r'' m) :
    Flows A blocks k b b'' r r'' m := by
  obtain ⟨n, run⟩ := f.run
  obtain ⟨n', run'⟩ := g.run
  exact ⟨⟨n + n', run.append run'⟩,
    fun i hi => (g.kept i (Nat.lt_of_lt_of_le hi f.extended.next)).trans (f.kept i hi),
    f.extended.trans g.extended, g.current⟩

theorem holds (f : Flows A blocks k b b' r r' m) (hv : v.Holds b.next r h) : v.Holds b'.next r' h where
  eval := (hv.below.eval?_eq f.kept).trans hv.eval
  below := by
    have := f.extended.next
    cases v with
    | register n ty => exact Nat.lt_of_lt_of_le hv.below this
    | _ => trivial

end Flows

/-- An operation that gives something runs. -/
theorem flows_define (named : Named blocks) (hk : b.current = some k) {op : Op}
    (run : Generate.define op ctx b = .ok (v, b')) (fits : b'.Fits blocks)
    (result : op.eval? A m r b.next = some h) :
    ∃ r', Flows A blocks k b b' r r' m ∧ v.Holds b'.next r' h := by
  have extended := straight_define op _ _ _ _ run
  rw [define_eq, Builder.open_eq hk] at run
  cases run
  have found : (b.emit op).body[b.body.size]? = some (.define b.next op) := by simp [Builder.emit]
  have step := @step_instr A _ _ _ r m named fits hk _ _ found
  simp only [Instr.after?, result, Option.bind_eq_bind, Option.bind_some, Option.pure_def] at step
  have size : (b.emit op).body.size = b.body.size + 1 := by simp [Builder.emit]
  refine ⟨r.set b.next h, ⟨⟨1, ?_⟩, fun n hn => Registers.set_of_ne h (Nat.ne_of_lt hn), extended, hk⟩, ?_, ?_⟩
  · rw [size]
    exact .single step
  · exact Registers.set_self r b.next h
  · exact Nat.lt_succ_self b.next

/-- An operation that gives nothing stops. -/
theorem stops_define (named : Named blocks) (hk : b.current = some k) {op : Op}
    (run : Generate.define op ctx b = .ok (v, b')) (fits : b'.Fits blocks)
    (result : op.eval? A m r b.next = none) : step? A blocks (.running k b.body.size r m) = none := by
  rw [define_eq, Builder.open_eq hk] at run
  cases run
  have found : (b.emit op).body[b.body.size]? = some (.define b.next op) := by simp [Builder.emit]
  have step := @step_instr A _ _ _ r m named fits hk _ _ found
  simpa only [Instr.after?, result, Option.bind_eq_bind, Option.bind_none] using step

/-! ## Operators -/

theorem flows_intrinsic (named : Named blocks) (hk : b.current = some k) {f : Intrinsic} {args : List Value}
    {xs : List Scalar} (run : Generate.intrinsic f args ctx b = .ok (v, b')) (fits : b'.Fits blocks)
    (hargs : args.mapM (Value.scalar? r) = some xs) :
    ∃ r', Flows A blocks k b b' r r' m ∧ v.Holds b'.next r' (.scalar (A.call f xs)) := by
  have extended := straight_intrinsic f args _ _ _ _ run
  obtain ⟨_, b₁, noted, run⟩ := bind_ok.1 run
  have noted := modify_ok.1 noted
  have same : b₁.current = b.current ∧ b₁.body = b.body ∧ b₁.next = b.next := by
    rw [← noted]
    exact ⟨rfl, rfl, rfl⟩
  have result : (Op.call f args).eval? A m r b₁.next = some (.scalar (A.call f xs)) := by simp [Op.eval?, hargs]
  obtain ⟨r', flows, holds⟩ := flows_define named (same.1.trans hk) run fits result
  exact ⟨r', ⟨same.2.1 ▸ flows.run, same.2.2 ▸ flows.kept, extended, flows.current⟩, holds⟩

theorem flows_compareInts (named : Named blocks) (hk : b.current = some k) {c : Flat.Condition}
    (run : Generate.compareInts c v w ctx b = .ok (v', b')) (fits : b'.Fits blocks)
    (hv : v.Holds b.next r (.scalar x)) (hw : w.Holds b.next r (.scalar y)) :
    ∃ r', Flows A blocks k b b' r r' m ∧ v'.Holds b'.next r' (.scalar (A.icmp c x y)) := by
  have defined : Generate.define (.icmp c v w) ctx b = .ok (v', b') := by
    unfold Generate.compareInts at run
    generalize v.ty = t at run
    cases t with
    | i1 | i32 | pointer _ => exact run
    | float | array _ _ | struct _ => exact (throw_ok.1 run).elim
  exact flows_define named hk defined fits (by simp [Op.eval?, hv.scalar?, hw.scalar?])

theorem flows_compareFloats (named : Named blocks) (hk : b.current = some k) {c : Flat.Condition}
    (run : Generate.compareFloats c v w ctx b = .ok (v', b')) (fits : b'.Fits blocks)
    (hv : v.Holds b.next r (.scalar x)) (hw : w.Holds b.next r (.scalar y)) :
    ∃ r', Flows A blocks k b b' r r' m ∧ v'.Holds b'.next r' (.scalar (A.fcmp c x y)) := by
  have defined : Generate.define (.fcmp c v w) ctx b = .ok (v', b') := by
    unfold Generate.compareFloats at run
    generalize v.ty = t at run
    cases t with
    | float => exact run
    | _ => exact (throw_ok.1 run).elim
  exact flows_define named hk defined fits (by simp [Op.eval?, hv.scalar?, hw.scalar?])

/-- The code of a unary operator computes it. -/
theorem flows_unary (named : Named blocks) (hk : b.current = some k) {op : Flat.UnaryOp}
    (run : Generate.unary op v ctx b = .ok (w, b')) (fits : b'.Fits blocks) (hv : v.Holds b.next r (.scalar x)) :
    ∃ r', Flows A blocks k b b' r r' m ∧ w.Holds b'.next r' (.scalar (A.unary op x)) := by
  have call {f : Intrinsic} (run : Generate.intrinsic f [v] ctx b = .ok (w, b')) :
      ∃ r', Flows A blocks k b b' r r' m ∧ w.Holds b'.next r' (.scalar (A.call f [x])) :=
    flows_intrinsic named hk run fits (by simp [hv.scalar?])
  cases op with
  | sin | cos | sqrt | exp | exp2 | log | log10 | log2 | absF | floor | ceil | trunc => exact call run
  | negI | negF | not | bnot | ftoi | itof =>
    exact flows_define named hk run fits (by simp [Op.eval?, hv.scalar?, Arithmetic.unary])
  | absI =>
    obtain ⟨isNegative, b₁, run₁, run⟩ := bind_ok.1 run
    obtain ⟨negated, b₂, run₂, run₃⟩ := bind_ok.1 run
    have fits₂ := (straight_define _ _ _ _ _ run₃).fits fits
    have fits₁ := (straight_define _ _ _ _ _ run₂).fits fits₂
    have zero : (Value.int 0).Holds b.next r (.scalar (.int 0)) := Value.holds_int (by decide)
    obtain ⟨r₁, flows₁, h₁⟩ := flows_compareInts (A := A) (m := m) named hk run₁ fits₁ hv zero
    have hv₁ := flows₁.holds hv
    have minus : (Op.arith .sub (.int 0) v).eval? A m r₁ b₁.next = some (.scalar (A.arith .sub (.int 0) x)) := by
      simp [Op.eval?, hv₁.scalar?]
    obtain ⟨r₂, flows₂, h₂⟩ := flows_define named flows₁.current run₂ fits₂ minus
    have hv₂ := flows₂.holds hv₁
    have h₁₂ := flows₂.holds h₁
    have choice : (Op.select isNegative negated v).eval? A m r₂ b₂.next = some (.scalar (A.unary .absI x)) := by
      simp [Op.eval?, hv₂.scalar?, h₁₂.scalar?, h₂.scalar?, Arithmetic.unary]
    obtain ⟨r₃, flows₃, h₃⟩ := flows_define named flows₂.current run₃ fits choice
    exact ⟨r₃, (flows₁.trans flows₂).trans flows₃, h₃⟩

/-- The code of a binary operator computes it. -/
theorem flows_binary (named : Named blocks) (hk : b.current = some k) {op : Flat.BinaryOp}
    (run : Generate.binary op v w ctx b = .ok (v', b')) (fits : b'.Fits blocks)
    (hv : v.Holds b.next r (.scalar x)) (hw : w.Holds b.next r (.scalar y)) :
    ∃ r', Flows A blocks k b b' r r' m ∧ v'.Holds b'.next r' (.scalar (A.binary op x y)) := by
  cases op with
  | addI | subI | mulI | divI | modI | addF | subF | mulF | divF | modF | band | bor | bxor | shl | shr | and
  | or | xor =>
    exact flows_define named hk run fits (by simp [Op.eval?, hv.scalar?, hw.scalar?, Arithmetic.binary])
  | powF => exact flows_intrinsic named hk run fits (by simp [hv.scalar?, hw.scalar?])
  | compareI c => exact flows_compareInts named hk run fits hv hw
  | compareF c => exact flows_compareFloats named hk run fits hv hw
  | powI =>
    obtain ⟨p, b₁, run₁, run⟩ := bind_ok.1 run
    obtain ⟨q, b₂, run₂, run⟩ := bind_ok.1 run
    obtain ⟨power, b₃, run₃, run₄⟩ := bind_ok.1 run
    have fits₃ := (straight_define _ _ _ _ _ run₄).fits fits
    have fits₂ := (straight_intrinsic _ _ _ _ _ _ run₃).fits fits₃
    have fits₁ := (straight_define _ _ _ _ _ run₂).fits fits₂
    have base : (Op.intToFloat v).eval? A m r b.next = some (.scalar (A.intToFloat x)) := by
      simp [Op.eval?, hv.scalar?]
    obtain ⟨r₁, flows₁, h₁⟩ := flows_define named hk run₁ fits₁ base
    have hw₁ := flows₁.holds hw
    have exponent : (Op.intToFloat w).eval? A m r₁ b₁.next = some (.scalar (A.intToFloat y)) := by
      simp [Op.eval?, hw₁.scalar?]
    obtain ⟨r₂, flows₂, h₂⟩ := flows_define named flows₁.current run₂ fits₂ exponent
    have h₁₂ := flows₂.holds h₁
    have args : [p, q].mapM (Value.scalar? r₂) = some [A.intToFloat x, A.intToFloat y] := by
      simp [h₁₂.scalar?, h₂.scalar?]
    obtain ⟨r₃, flows₃, h₃⟩ := flows_intrinsic (A := A) (m := m) named flows₂.current run₃ fits₃ args
    have result : (Op.floatToInt power).eval? A m r₃ b₃.next = some (.scalar (A.binary .powI x y)) := by
      simp [Op.eval?, h₃.scalar?, Arithmetic.binary]
    obtain ⟨r₄, flows₄, h₄⟩ := flows_define named flows₃.current run₄ fits result
    exact ⟨r₄, ((flows₁.trans flows₂).trans flows₃).trans flows₄, h₄⟩

/-! ## Steps that only look things up -/

section Lookups

variable {α : Type} {a : α} {o : Operand}

theorem lift_ok {e : Except Obstacle α} (run : (liftM e : Generate α) ctx b = .ok (a, b')) : b = b' := by
  cases e with
  | error e => cases run
  | ok c =>
    have run : (Pure.pure c : Generate α) ctx b = .ok (a, b') := run
    exact (pure_ok.1 run).2

theorem orMistyped_ok {c : Option α} (run : Generate.orMistyped c ctx b = .ok (a, b')) : b = b' := by
  cases c with
  | none => exact (throw_ok.1 run).elim
  | some a => exact (pure_ok.1 run).2

theorem checkIndexes_ok {vs : List Value} {u : PUnit} (run : vs.forM Generate.checkIndex ctx b = .ok (u, b')) :
    b = b' := by
  induction vs generalizing b with
  | nil => exact (pure_ok.1 run).2
  | cons v vs ih =>
    obtain ⟨_, b₁, check, run⟩ := bind_ok.1 run
    have same : b = b₁ := by
      cases v with
      | float x => exact (throw_ok.1 check).elim
      | _ => exact (pure_ok.1 check).2
    exact same.trans (ih run)

theorem typeOf_ok {t : Ty} (run : Generate.typeOf o ctx b = .ok (t, b')) : b = b' := by
  obtain ⟨_, _, read, run⟩ := bind_ok.1 run
  obtain ⟨rfl, rfl⟩ := read_ok.1 read
  match view : o.viewed with
  | .constant c =>
    rw [view] at run
    exact lift_ok run
  | .variable id coord =>
    rw [view] at run
    obtain ⟨_, _, found, run⟩ := bind_ok.1 run
    exact (orMistyped_ok found).trans (lift_ok run)

theorem addressBelow_ok {id : VarId} {base : Value} {vs : List Value}
    (run : Generate.addressBelow id base vs ctx b = .ok (v, b')) :
    ∃ t g, Generate.define (.address t base vs g) ctx b = .ok (v, b') := by
  obtain ⟨_, _, read, run⟩ := bind_ok.1 run
  obtain ⟨rfl, rfl⟩ := read_ok.1 read
  obtain ⟨t, _, form, run⟩ := bind_ok.1 run
  obtain rfl := lift_ok form
  obtain ⟨_, _, checked, run⟩ := bind_ok.1 run
  obtain rfl := checkIndexes_ok checked
  obtain ⟨g, _, found, run⟩ := bind_ok.1 run
  obtain rfl := orMistyped_ok found
  exact ⟨t, g, run⟩

/-- The address of a variable, or of an element below it. -/
theorem address_ok {id : VarId} {coord : List Int} (view : o.viewed = .variable id coord)
    (run : Generate.address o ctx b = .ok (v, b')) :
    ∃ base, b.addresses.getD id none = some base ∧ (coord = [] ∧ v = base ∧ b = b' ∨ coord ≠ [] ∧
      ∃ t g, Generate.define (.address t base (.int 0 :: coord.map .int) g) ctx b = .ok (v, b')) := by
  unfold Generate.address at run
  rw [view] at run
  obtain ⟨_, _, read, run⟩ := bind_ok.1 run
  obtain ⟨rfl, rfl⟩ := get_ok.1 read
  cases found : b.addresses.getD id none with
  | none =>
    rw [found] at run
    obtain ⟨_, _, -, run⟩ := bind_ok.1 run
    exact (throw_ok.1 run).elim
  | some base =>
    rw [found] at run
    refine ⟨base, rfl, ?_⟩
    dsimp only at run
    split at run
    · rename_i empty
      obtain ⟨rfl, rfl⟩ := pure_ok.1 run
      exact .inl ⟨List.isEmpty_iff.1 empty, rfl, rfl⟩
    · rename_i nonempty
      exact .inr ⟨fun empty => nonempty (List.isEmpty_iff.2 empty), addressBelow_ok run⟩

theorem load_ok (run : Generate.load o ctx b = .ok (v, b')) : o.isScalar = true ∧
    ((∃ c, o.viewed = .constant c ∧ Value.ofConstant? c = some v ∧ b = b') ∨
      ∃ id coord source b₁ t, o.viewed = .variable id coord ∧ Generate.address o ctx b = .ok (source, b₁) ∧
        Generate.define (.load t source) ctx b₁ = .ok (v, b')) := by
  unfold Generate.load at run
  cases scalar : o.isScalar with
  | false =>
    simp only [scalar, Bool.not_false, if_true] at run
    obtain ⟨_, _, run, -⟩ := bind_ok.1 run
    exact (throw_ok.1 run).elim
  | true =>
    simp only [scalar, Bool.not_true, Bool.false_eq_true, if_false] at run
    refine ⟨rfl, ?_⟩
    match view : o.viewed with
    | .constant c =>
      rw [view] at run
      cases found : Value.ofConstant? c with
      | none =>
        simp only [found] at run
        exact (throw_ok.1 run).elim
      | some w =>
        simp only [found] at run
        obtain ⟨rfl, rfl⟩ := pure_ok.1 run
        exact .inl ⟨c, rfl, found, rfl⟩
    | .variable id coord =>
      rw [view] at run
      obtain ⟨source, b₁, address, run⟩ := bind_ok.1 run
      obtain ⟨t, _, form, run⟩ := bind_ok.1 run
      obtain rfl := typeOf_ok form
      exact .inr ⟨id, coord, source, b₁, t, rfl, address, run⟩

theorem store_ok {u : Unit} (run : Generate.store v o ctx b = .ok (u, b')) :
    o.isScalar = true ∧ ∃ target b₁, Generate.address o ctx b = .ok (target, b₁) ∧
      Generate.push (.store v target) ctx b₁ = .ok (u, b') := by
  unfold Generate.store at run
  cases scalar : o.isScalar with
  | false =>
    simp only [scalar, Bool.not_false, if_true] at run
    obtain ⟨_, _, run, -⟩ := bind_ok.1 run
    exact (throw_ok.1 run).elim
  | true =>
    simp only [scalar, Bool.not_true, Bool.false_eq_true, if_false] at run
    obtain ⟨target, b₁, address, run⟩ := bind_ok.1 run
    refine ⟨rfl, target, b₁, address, ?_⟩
    unfold Generate.storeAt at run
    split at run
    · exact run
    · exact (throw_ok.1 run).elim

/-- The values of the indexes are computed, then the address they lead to. -/
theorem indexed_ok {id : VarId} {indexes : List Operand} (view : o.viewed = .variable id [])
    (run : Generate.indexed o indexes ctx b = .ok (v, b')) :
    ∃ pointer vs b₁ t g, b.addresses.getD id none = some pointer ∧
      indexes.mapM Generate.load ctx b = .ok (vs, b₁) ∧
      Generate.define (.address t pointer vs g) ctx b₁ = .ok (v, b') := by
  obtain ⟨pointer, _, address, run⟩ := bind_ok.1 run
  obtain ⟨base, found, ⟨-, rfl, rfl⟩ | ⟨nonempty, -⟩⟩ := address_ok view address
  · rw [view] at run
    obtain ⟨_, _, read, run⟩ := bind_ok.1 run
    obtain ⟨rfl, rfl⟩ := read_ok.1 read
    obtain ⟨_, _, form, run⟩ := bind_ok.1 run
    obtain rfl := lift_ok form
    obtain ⟨vs, b₁, loads, run⟩ := bind_ok.1 run
    obtain ⟨t, g, run⟩ := addressBelow_ok run
    exact ⟨pointer, vs, b₁, t, g, found, loads, run⟩
  · exact (nonempty rfl).elim

end Lookups

/-! ## Operands -/

/-- The registers hold the address of every variable that has one, and the memory there holds the elements. -/
structure Ready (place : VarId → Address) (σ : Store ctx.program) (b : Builder) (r : Registers) (m : Memory) :
    Prop where
  addressed : ∀ id v, b.addresses.getD id none = some v → v.Holds b.next r (.address (place id))
  memory : ∀ id v, b.addresses.getD id none = some v → ∀ coord,
    m ((place id).below coord) = (ctx.program.element? id coord).map σ

variable {place : VarId → Address} {σ : Store ctx.program} {o : Operand}

theorem Ready.flows (ready : Ready place σ b r m) (f : Flows A blocks k b b' r r' m) : Ready place σ b' r' m where
  addressed id v hv := f.holds (ready.addressed id v (f.extended.addresses ▸ hv))
  memory id v hv := ready.memory id v (f.extended.addresses ▸ hv)

/-- The numbers that the code for an instruction has as constants: fixed indexes, and what an abort returns. -/
def constants : Flat.Instr → List Int
  | .abort code => [code + 1]
  | i => i.elements.flatMap (·.coord)

/-- The fixed indexes of an operand are words. -/
def Addressable (o : Operand) : Prop := ∀ c ∈ o.coord, Word.inRange c = true

theorem addressable_of_mem {i : Flat.Instr} (words : ∀ n ∈ constants i, Word.inRange n = true)
    (mem : o ∈ i.elements) : Addressable o := by
  intro c hc
  have indexes : c ∈ i.elements.flatMap (·.coord) := List.mem_flatMap.2 ⟨o, mem, hc⟩
  cases i with
  | abort code => cases mem
  | _ => exact words c indexes

@[simp] theorem Value.index?_int (n : Int) : (Value.int n).index? r = some (Word.wrap n) :=
  congrArg some (Word.wrap_wrap n)

theorem indexes_ints (r : Registers) (coord : List Int) :
    (coord.map Value.int).mapM (Value.index? r) = some (coord.map Word.wrap) := by
  induction coord with
  | nil => rfl
  | cons c coord ih =>
    simp [ih]

/-- The code for an operand computes the address of what it views. -/
theorem flows_address (named : Named blocks) (hk : b.current = some k) (ready : Ready place σ b r m)
    (words : Addressable o) {id : VarId} {coord : List Int} (view : o.viewed = .variable id coord)
    (run : Generate.address o ctx b = .ok (v, b')) (fits : b'.Fits blocks) :
    ∃ r', Flows A blocks k b b' r r' m ∧ v.Holds b'.next r' (.address ((place id).below coord)) := by
  obtain ⟨base, found, ⟨rfl, rfl, rfl⟩ | ⟨-, t, g, run⟩⟩ := address_ok view run
  · refine ⟨r, .refl hk, ?_⟩
    rw [Address.below_nil]
    exact ready.addressed id _ found
  · have hbase := ready.addressed id base found
    have result : (Op.address t base (.int 0 :: coord.map .int) g).eval? A m r b.next =
        some (.address ((place id).below coord)) := by
      have same : coord.map Word.wrap = coord := by
        rw [Addressable, Operand.coord, view] at words
        exact (List.map_congr_left fun c hc => Word.wrap_eq_self (words c hc)).trans (List.map_id' coord)
      have indexes := indexes_ints r (0 :: coord)
      rw [List.map_cons, List.map_cons, same, Word.wrap_zero] at indexes
      simp [Op.eval?, hbase.address?, indexes]
    exact flows_define named hk run fits result

/-- The code for an operand computes its value. -/
theorem flows_load (named : Named blocks) (hk : b.current = some k) (ready : Ready place σ b r m)
    (words : Addressable o) (run : Generate.load o ctx b = .ok (v, b')) (fits : b'.Fits blocks)
    (hx : o.read? σ = some x) :
    ∃ r', Flows A blocks k b b' r r' m ∧ v.Holds b'.next r' (.scalar x) := by
  obtain ⟨scalar, ⟨c, view, hv, rfl⟩ | ⟨id, coord, source, b₁, t, view, address, run⟩⟩ := load_ok run
  · simp only [Operand.read?, view, scalar, if_true] at hx
    exact ⟨r, .refl hk, Value.holds_of_constant hv hx⟩
  · have fits₁ := (straight_define _ _ _ _ _ run).fits fits
    obtain ⟨r₁, flows, hsource⟩ := flows_address (A := A) named hk ready words view address fits₁
    obtain ⟨base, found, -⟩ := address_ok view address
    have cell : m ((place id).below coord) = some x := by
      rw [ready.memory id base found coord]
      simpa only [Operand.read?, view, Operand.element?, scalar, if_true] using hx
    have result : (Op.load t source).eval? A m r₁ b₁.next = some (.scalar x) := by
      simp [Op.eval?, hsource.address?, cell]
    obtain ⟨r₂, flows', hv⟩ := flows_define named flows.current run fits result
    exact ⟨r₂, flows.trans flows', hv⟩

/-- Several values, each of them as `Value.Holds` says. -/
structure HoldAll (vs : List Value) (limit : Nat) (r : Registers) (xs : List Scalar) : Prop where
  eval : vs.mapM (Value.scalar? r) = some xs
  below : ∀ v ∈ vs, v.Below limit

theorem HoldAll.cons {vs : List Value} {xs : List Scalar} (hv : v.Holds limit r (.scalar x))
    (hvs : HoldAll vs limit r xs) : HoldAll (v :: vs) limit r (x :: xs) where
  eval := by simp [hv.scalar?, hvs.eval]
  below w hw := by
    rcases List.mem_cons.1 hw with rfl | hw
    · exact hv.below
    · exact hvs.below w hw

theorem flows_loads (named : Named blocks) (hk : b.current = some k) (ready : Ready place σ b r m)
    {os : List Operand} (words : ∀ o ∈ os, Addressable o) {vs : List Value} {xs : List Scalar}
    (run : os.mapM Generate.load ctx b = .ok (vs, b')) (fits : b'.Fits blocks) (hxs : os.mapM (Operand.read? σ) = some xs) :
    ∃ r', Flows A blocks k b b' r r' m ∧ HoldAll vs b'.next r' xs := by
  induction os generalizing b r vs xs with
  | nil =>
    obtain ⟨rfl, rfl⟩ := pure_ok.1 run
    cases hxs
    exact ⟨r, .refl hk, rfl, fun v hv => by cases hv⟩
  | cons o os ih =>
    rw [List.mapM_cons] at run hxs
    obtain ⟨v, b₁, run₁, run⟩ := bind_ok.1 run
    obtain ⟨vs, b₂, run₂, run⟩ := bind_ok.1 run
    obtain ⟨rfl, rfl⟩ := pure_ok.1 run
    obtain ⟨x, hx, rest⟩ := Option.bind_eq_some_iff.1 hxs
    obtain ⟨ys, hys, same⟩ := Option.bind_eq_some_iff.1 rest
    cases same
    have fits₁ := (Straight.mapM straight_load os _ _ _ _ run₂).fits fits
    obtain ⟨r₁, flows₁, hv⟩ := flows_load (A := A) named hk ready (words o List.mem_cons_self) run₁ fits₁ hx
    obtain ⟨r₂, flows₂, hvs⟩ := ih flows₁.current (ready.flows flows₁)
      (fun o' ho => words o' (List.mem_cons_of_mem _ ho)) run₂ hys
    exact ⟨r₂, flows₁.trans flows₂, .cons (flows₂.holds hv) hvs⟩

/-- Values serve as indexes as the scalars do that they are. -/
theorem HoldAll.indexes {vs : List Value} {xs : List Scalar} (hvs : HoldAll vs limit r xs) :
    vs.mapM (Value.index? r) = xs.mapM Scalar.index? := by
  have eval := hvs.eval
  clear hvs
  induction vs generalizing xs with
  | nil =>
    cases eval
    rfl
  | cons v vs ih =>
    rw [List.mapM_cons] at eval
    obtain ⟨x, hx, rest⟩ := Option.bind_eq_some_iff.1 eval
    obtain ⟨ys, hys, same⟩ := Option.bind_eq_some_iff.1 rest
    cases same
    rw [List.mapM_cons, List.mapM_cons, ih hys, Value.index?, hx]
    rfl

/-- A function runs without writes to a state where it stops, and does not return. -/
def Stops (A : Arithmetic) (blocks : List Block) (s : State) : Prop :=
  ∃ n k i r m, Runs (step? A blocks) n s [] (.running k i r m) ∧ step? A blocks (.running k i r m) = none

theorem Flows.stops (f : Flows A blocks k b b' r r' m)
    (stop : step? A blocks (.running k b'.body.size r' m) = none) :
    Stops A blocks (.running k b.body.size r m) := by
  obtain ⟨n, run⟩ := f.run
  exact ⟨n, _, _, _, _, run, stop⟩

/-- The code for a base with indexes computes the address they lead to, unless one of them is no index. -/
theorem flows_indexed (named : Named blocks) (hk : b.current = some k) (ready : Ready place σ b r m)
    {indexes : List Operand} (words : ∀ o ∈ indexes, Addressable o) {e : Option (Element ctx.program)}
    (selected : o.selected? σ indexes = some e)
    (run : Generate.indexed o indexes ctx b = .ok (v, b')) (fits : b'.Fits blocks) :
    (∃ id path r', e = ctx.program.element? id path ∧ (∃ pointer, b.addresses.getD id none = some pointer) ∧
      Flows A blocks k b b' r r' m ∧ v.Holds b'.next r' (.address ((place id).below path))) ∨
    e = none ∧ Stops A blocks (.running k b.body.size r m) := by
  obtain ⟨id, first, rest, xs, view, rfl, origin, hxs, rfl⟩ := Operand.selected?_eq_some selected
  obtain ⟨pointer, vs, b₁, t, g, found, loads, run⟩ := indexed_ok view run
  have fits₁ := (straight_define _ _ _ _ _ run).fits fits
  have reads : (first :: rest).mapM (Operand.read? σ) = some (.int 0 :: xs) := by
    rw [List.mapM_cons] at loads
    obtain ⟨_, _, load, -⟩ := bind_ok.1 loads
    rw [List.mapM_cons, Operand.read?_of_isOrigin σ origin (load_ok load).1, hxs]
    rfl
  obtain ⟨r₁, flows, hvs⟩ := flows_loads (A := A) named hk ready words loads fits₁ reads
  have hpointer := flows.holds (ready.addressed id pointer found)
  have indexes : vs.mapM (Value.index? r₁) = (xs.mapM Scalar.index?).map (0 :: ·) := by
    rw [hvs.indexes, List.mapM_cons]
    cases xs.mapM Scalar.index? <;> rfl
  cases hpath : xs.mapM Scalar.index? with
  | none =>
    have result : (Op.address t pointer vs g).eval? A m r₁ b₁.next = none := by
      simp [Op.eval?, hpointer.address?, indexes, hpath]
    exact .inr ⟨rfl, flows.stops (stops_define named flows.current run fits result)⟩
  | some path =>
    have result : (Op.address t pointer vs g).eval? A m r₁ b₁.next =
        some (.address ((place id).below path)) := by
      simp [Op.eval?, hpointer.address?, indexes, hpath]
    obtain ⟨r₂, flows', hv⟩ := flows_define named flows.current run fits result
    exact .inl ⟨id, path, r₂, rfl, ⟨pointer, found⟩, flows.trans flows', hv⟩

/-! ## Writes -/

/-- The place of an element. -/
def locate {p : Flat.Program} (place : VarId → Address) (e : Element p) : Address := (place e.var).below e.coord

theorem step_store (named : Named blocks) (hk : b.current = some k) {target : Value} {a : Address} {u : Unit}
    (run : Generate.push (.store v target) ctx b = .ok (u, b')) (fits : b'.Fits blocks)
    (hv : v.Holds b.next r (.scalar x)) (ht : target.Holds b.next r (.address a)) :
    b'.current = some k ∧ step? A blocks (.running k b.body.size r m) =
      (m a).map fun _ => ([(a, x)], .running k b'.body.size r (m.write a x)) := by
  rw [push_eq, Builder.open_eq hk] at run
  cases run
  refine ⟨hk, ?_⟩
  have found : (b.body.push (.store v target))[b.body.size]? = some (.store v target) := by simp
  have step := @step_instr A _ _ _ r m named fits hk _ _ found
  rw [step]
  simp only [Instr.after?, hv.scalar?, ht.address?, Option.bind_eq_bind, Option.bind_some, Array.size_push]
  cases m a <;> rfl

/-- What the code of an instruction does, by the effect of the instruction. -/
def Carries (A : Arithmetic) (blocks : List Block) (place : VarId → Address) (k : BlockName) (b b' : Builder)
    (r : Registers) (m : Memory) {p : Flat.Program} : Flat.Outcome p → Prop
  | .write e x => (∃ w, b.addresses.getD e.var none = some w) ∧ ∃ n r',
      Runs (step? A blocks) (n + 1) (.running k b.body.size r m) [(locate place e, x)]
        (.running k b'.body.size r' (m.write (locate place e) x)) ∧ b'.current = some k ∧ ∀ i < b.next, r' i = r i
  | .next => ∃ k', Runs (step? A blocks) 1 (.running k b.body.size r m) [] (.running k' b'.body.size r m) ∧
      b'.current = some k'
  | .goto l => ∃ n r', Runs (step? A blocks) (n + 1) (.running k b.body.size r m) [] (.running (.label l) 0 r' m) ∧
      ∀ i < b.next, r' i = r i
  | .abort code => ∃ n, Runs (step? A blocks) n (.running k b.body.size r m) [] (.returned (code + 1) m)
  | .trap => Stops A blocks (.running k b.body.size r m)

theorem Ready.cell (ready : Ready place σ b r m) {e : Element ctx.program} {w : Value}
    (found : b.addresses.getD e.var none = some w) : m (locate place e) = some (σ e) := by
  rw [locate, ready.memory e.var w found, Flat.Program.element?_eq_some.2 ⟨rfl, rfl⟩]
  rfl

/-- The code that stores a value at the place of an element writes it there. -/
theorem carries_push (named : Named blocks) (f : Flows A blocks k b b' r r' m) (ready : Ready place σ b' r' m)
    {target w : Value} {u : Unit} {e : Element ctx.program}
    (run : Generate.push (.store v target) ctx b' = .ok (u, b'')) (fits : b''.Fits blocks)
    (hv : v.Holds b'.next r' (.scalar x)) (ht : target.Holds b'.next r' (.address (locate place e)))
    (found : b'.addresses.getD e.var none = some w) : Carries A blocks place k b b'' r m (.write e x) := by
  obtain ⟨hk, step⟩ := step_store (A := A) (m := m) named f.current run fits hv ht
  rw [ready.cell found] at step
  obtain ⟨n, before⟩ := f.run
  exact ⟨⟨w, f.extended.addresses ▸ found⟩, n, r', before.append (.single step), hk, f.kept⟩

theorem carries_store (named : Named blocks) (f : Flows A blocks k b b' r r' m) (ready : Ready place σ b' r' m)
    (words : Addressable o) {u : Unit} {e : Element ctx.program}
    (run : Generate.store v o ctx b' = .ok (u, b'')) (fits : b''.Fits blocks) (hv : v.Holds b'.next r' (.scalar x)) (he : o.element? ctx.program = some e) :
    Carries A blocks place k b b'' r m (.write e x) := by
  obtain ⟨scalar, target, b₁, address, run⟩ := store_ok run
  have fits₁ := (straight_push _ _ _ _ _ run).fits fits
  unfold Operand.element? at he
  split at he
  · cases he
  · rename_i id coord view
    rw [if_pos scalar] at he
    obtain ⟨rfl, rfl⟩ := Flat.Program.element?_eq_some.1 he
    obtain ⟨r₁, flows, ht⟩ := flows_address (A := A) named f.current ready words view address fits₁
    obtain ⟨base, found, -⟩ := address_ok view address
    exact carries_push named (f.trans flows) (ready.flows flows) run fits (flows.holds hv) ht
      (flows.extended.addresses ▸ found)

/-! ## Instructions -/

theorem carries_load (named : Named blocks) (hk : b.current = some k) (ready : Ready place σ b r m) {base target : Operand}
    {indexes : List Operand} (words : ∀ o ∈ indexes, Addressable o) (htarget : Addressable target) {u : Unit}
    {source : Option (Element ctx.program)} {e : Element ctx.program}
    (run : Generate.instr (.load base indexes target) ctx b = .ok (u, b')) (fits : b'.Fits blocks)
    (selected : base.selected? σ indexes = some source) (he : target.element? ctx.program = some e) :
    Carries A blocks place k b b' r m (source.elim .trap fun s => .write e (σ s)) := by
  obtain ⟨v, b₁, run₁, run⟩ := bind_ok.1 run
  obtain ⟨t, _, form, run⟩ := bind_ok.1 run
  obtain rfl := typeOf_ok form
  obtain ⟨w, b₂, run₂, run₃⟩ := bind_ok.1 run
  have fits₂ := (straight_store _ _ _ _ _ _ run₃).fits fits
  have fits₁ := (straight_define _ _ _ _ _ run₂).fits fits₂
  rcases flows_indexed (A := A) named hk ready words selected run₁ fits₁ with
    ⟨id, path, r₁, rfl, ⟨pointer, found⟩, flows, hv⟩ | ⟨rfl, stops⟩
  · have cell := ready.memory id pointer found path
    cases here : ctx.program.element? id path with
    | none =>
      have result : (Op.load t v).eval? A m r₁ b₁.next = none := by
        simp [Op.eval?, hv.address?, cell, here]
      exact flows.stops (stops_define named flows.current run₂ fits₂ result)
    | some s =>
      have result : (Op.load t v).eval? A m r₁ b₁.next = some (.scalar (σ s)) := by
        simp [Op.eval?, hv.address?, cell, here]
      obtain ⟨r₂, flows', hw⟩ := flows_define named flows.current run₂ fits₂ result
      exact carries_store named (flows.trans flows') (ready.flows (flows.trans flows')) htarget run₃ fits hw he
  · exact stops

theorem carries_storeAt (named : Named blocks) (hk : b.current = some k) (ready : Ready place σ b r m)
    {source base : Operand} {indexes : List Operand} (hsource : Addressable source)
    (words : ∀ o ∈ indexes, Addressable o) {u : Unit} {target : Option (Element ctx.program)}
    (run : Generate.instr (.store source base indexes) ctx b = .ok (u, b')) (fits : b'.Fits blocks)
    (hx : source.read? σ = some x) (selected : base.selected? σ indexes = some target) :
    Carries A blocks place k b b' r m (target.elim .trap fun e => .write e x) := by
  obtain ⟨v, b₁, run₁, run⟩ := bind_ok.1 run
  obtain ⟨w, b₂, run₂, run₃⟩ := bind_ok.1 run
  have stored : Generate.push (.store v w) ctx b₂ = .ok (u, b') := by
    unfold Generate.storeAt at run₃
    split at run₃
    · exact run₃
    · exact (throw_ok.1 run₃).elim
  have fits₂ := (straight_push _ _ _ _ _ stored).fits fits
  have fits₁ := (straight_indexed _ _ _ _ _ _ run₂).fits fits₂
  obtain ⟨r₁, flows, hv⟩ := flows_load (A := A) named hk ready hsource run₁ fits₁ hx
  have ready₁ := ready.flows flows
  rcases flows_indexed (A := A) named flows.current ready₁ words selected run₂ fits₂ with
    ⟨id, path, r₂, rfl, ⟨pointer, found⟩, flows', hw⟩ | ⟨rfl, n, k', i, r', m', after, stop⟩
  · have cell := ready₁.memory id pointer found path
    have hv := flows'.holds hv
    cases here : ctx.program.element? id path with
    | none =>
      refine (flows.trans flows').stops ?_
      rw [(step_store (A := A) named flows'.current stored fits hv hw).2, cell, here]
      rfl
    | some e =>
      obtain ⟨rfl, rfl⟩ := Flat.Program.element?_eq_some.1 here
      exact carries_push named (flows.trans flows') (ready₁.flows flows') stored fits hv hw
        (flows'.extended.addresses ▸ found)
  · obtain ⟨n', before⟩ := flows.run
    exact ⟨n' + n, k', i, r', m', before.append after, stop⟩

theorem carries_move (named : Named blocks) (hk : b.current = some k) (ready : Ready place σ b r m)
    {source target : Operand} (hsource : Addressable source) (htarget : Addressable target) {u : Unit}
    {e : Element ctx.program} (run : Generate.instr (.move source target) ctx b = .ok (u, b')) (fits : b'.Fits blocks)
    (hx : source.read? σ = some x) (he : target.element? ctx.program = some e) :
    Carries A blocks place k b b' r m (.write e x) := by
  obtain ⟨v, b₁, run₁, run₂⟩ := bind_ok.1 run
  have fits₁ := (straight_store _ _ _ _ _ _ run₂).fits fits
  obtain ⟨r₁, flows, hv⟩ := flows_load (A := A) named hk ready hsource run₁ fits₁ hx
  exact carries_store named flows (ready.flows flows) htarget run₂ fits hv he

theorem carries_unary (named : Named blocks) (hk : b.current = some k) (ready : Ready place σ b r m)
    {op : Flat.UnaryOp} {a target : Operand} (words : Addressable a) (htarget : Addressable target) {u : Unit}
    {e : Element ctx.program} (run : Generate.instr (.unary op a target) ctx b = .ok (u, b')) (fits : b'.Fits blocks)
    (hx : a.read? σ = some x) (he : target.element? ctx.program = some e) :
    Carries A blocks place k b b' r m (.write e (A.unary op x)) := by
  obtain ⟨v, b₁, run₁, run⟩ := bind_ok.1 run
  obtain ⟨w, b₂, run₂, run₃⟩ := bind_ok.1 run
  have fits₂ := (straight_store _ _ _ _ _ _ run₃).fits fits
  have fits₁ := (straight_unary _ _ _ _ _ _ run₂).fits fits₂
  obtain ⟨r₁, flows₁, hv⟩ := flows_load (A := A) named hk ready words run₁ fits₁ hx
  obtain ⟨r₂, flows₂, hw⟩ := flows_unary (A := A) (m := m) named flows₁.current run₂ fits₂ hv
  have flows := flows₁.trans flows₂
  exact carries_store named flows (ready.flows flows) htarget run₃ fits hw he

theorem carries_binary (named : Named blocks) (hk : b.current = some k) (ready : Ready place σ b r m)
    {op : Flat.BinaryOp} {a c target : Operand} (hleft : Addressable a) (hright : Addressable c)
    (htarget : Addressable target) {u : Unit} {e : Element ctx.program}
    (run : Generate.instr (.binary op a c target) ctx b = .ok (u, b')) (fits : b'.Fits blocks)
    (hx : a.read? σ = some x) (hy : c.read? σ = some y) (he : target.element? ctx.program = some e) :
    Carries A blocks place k b b' r m (.write e (A.binary op x y)) := by
  obtain ⟨v, b₁, run₁, run⟩ := bind_ok.1 run
  obtain ⟨w, b₂, run₂, run⟩ := bind_ok.1 run
  obtain ⟨z, b₃, run₃, run₄⟩ := bind_ok.1 run
  have fits₃ := (straight_store _ _ _ _ _ _ run₄).fits fits
  have fits₂ := (straight_binary _ _ _ _ _ _ _ run₃).fits fits₃
  have fits₁ := (straight_load _ _ _ _ _ run₂).fits fits₂
  obtain ⟨r₁, flows₁, hv⟩ := flows_load (A := A) named hk ready hleft run₁ fits₁ hx
  obtain ⟨r₂, flows₂, hw⟩ :=
    flows_load (A := A) named flows₁.current (ready.flows flows₁) hright run₂ fits₂ hy
  obtain ⟨r₃, flows₃, hz⟩ := flows_binary (A := A) (m := m) named flows₂.current run₃ fits₃ (flows₂.holds hv) hw
  have flows := (flows₁.trans flows₂).trans flows₃
  exact carries_store named flows (ready.flows flows) htarget run₄ fits hz he

/-- The block that was open goes to the block of the label. -/
theorem carries_label (named : Named blocks) (hk : b.current = some k) (sound : b.Sound) {l : LabelId} {u : Unit}
    (run : Generate.instr (.label l) ctx b = .ok (u, b')) (fits : b'.Fits blocks) :
    Carries A blocks place k b b' r m (.next : Flat.Outcome ctx.program) := by
  obtain ⟨-, rfl⟩ := label_ok run
  have size : (b.place l).body.size = 0 := by rw [sound.body_place]; rfl
  have closed : (b.close (.jump (.label l))).Fits blocks := by
    refine ⟨fun block hb => fits.finished block ?_, fun _ none => by cases none⟩
    simpa [Builder.place, hk] using hb
  have step := step_terminator (A := A) (r := r) (m := m) named (Builder.Fits.of_close hk closed).2
  refine ⟨.label l, ?_, rfl⟩
  rw [size]
  exact .single step

theorem carries_jump (named : Named blocks) (hk : b.current = some k) {l : LabelId} {u : Unit}
    (run : Generate.instr (.jump l) ctx b = .ok (u, b')) (fits : b'.Fits blocks) :
    Carries A blocks place k b b' r m (.goto l : Flat.Outcome ctx.program) := by
  rw [jump_eq] at run
  cases run
  have opened : (b.mention [l]).open = b.mention [l] := Builder.open_eq hk
  rw [opened] at fits
  obtain ⟨-, block⟩ := Builder.Fits.of_close (b := b.mention [l]) hk fits
  have step := step_terminator (A := A) (r := r) (m := m) named block
  exact ⟨0, r, .single step, fun _ _ => rfl⟩

theorem carries_branch (named : Named blocks) (hk : b.current = some k) (ready : Ready place σ b r m)
    {condition : Operand} (words : Addressable condition) {l l' : LabelId} {u : Unit}
    (run : Generate.instr (.branch condition l l') ctx b = .ok (u, b')) (fits : b'.Fits blocks)
    (hx : condition.read? σ = some x) :
    Carries A blocks place k b b' r m (.goto (if x.isTrue then l else l') : Flat.Outcome ctx.program) := by
  obtain ⟨v, b₁, run₁, rfl⟩ := branch_ok run
  have hk₁ := (straight_load _ _ _ _ _ run₁).current_eq hk
  have opened : (b₁.mention [l', l]).open = b₁.mention [l', l] := Builder.open_eq hk₁
  rw [opened] at fits
  obtain ⟨fits₁, block⟩ := Builder.Fits.of_close (b := b₁.mention [l', l]) hk₁ fits
  obtain ⟨r₁, flows, hv⟩ := flows_load (A := A) named hk ready words run₁ ⟨fits₁.finished, fits₁.current⟩ hx
  have step := step_terminator (A := A) (r := r₁) (m := m) named block
  obtain ⟨n, before⟩ := flows.run
  refine ⟨n, r₁, before.append (.single ?_), flows.kept⟩
  refine step.trans ?_
  simp only [Terminator.after?, hv.scalar?, Option.bind_eq_bind, Option.bind_some, Option.pure_def, Option.map_some]
  cases x.isTrue <;> rfl

theorem carries_abort (named : Named blocks) (hk : b.current = some k) {code : Int}
    (word : Word.inRange (code + 1) = true) {u : Unit} (run : Generate.instr (.abort code) ctx b = .ok (u, b'))
    (fits : b'.Fits blocks) : Carries A blocks place k b b' r m (.abort code : Flat.Outcome ctx.program) := by
  rw [abort_ok run, Builder.open_eq hk] at fits
  have step := step_terminator (A := A) (r := r) (m := m) named (Builder.Fits.of_close hk fits).2
  rw [Terminator.after?, Word.wrap_eq_self word] at step
  exact ⟨1, .single step⟩

/-- The code of an instruction does what its effect says. -/
theorem carries_instr (named : Named blocks) (hk : b.current = some k) (sound : b.Sound) (ready : Ready place σ b r m)
    {i : Flat.Instr} (words : ∀ n ∈ constants i, Word.inRange n = true) {u : Unit} {f : Flat.Outcome ctx.program}
    (run : Generate.instr i ctx b = .ok (u, b')) (fits : b'.Fits blocks)
    (effect : i.outcome? A.operators σ = some f) :
    Carries A blocks place k b b' r m f := by
  have element {o : Operand} (mem : o ∈ i.elements) : Addressable o := addressable_of_mem words mem
  cases i with
  | move source target =>
    obtain ⟨x, hx, effect⟩ := Option.bind_eq_some_iff.1 effect
    obtain ⟨e, he, same⟩ := Option.bind_eq_some_iff.1 effect
    cases same
    exact carries_move named hk ready (element (.head _)) (element (.tail _ (.head _))) run fits hx he
  | load base indexes target =>
    obtain ⟨source, selected, effect⟩ := Option.bind_eq_some_iff.1 effect
    obtain ⟨e, he, same⟩ := Option.bind_eq_some_iff.1 effect
    cases same
    have indexes (o : Operand) (ho : o ∈ indexes) : Addressable o := element (List.mem_append_left _ ho)
    exact carries_load named hk ready indexes (element (List.mem_append_right _ (.head _))) run fits selected he
  | store source base indexes =>
    obtain ⟨x, hx, effect⟩ := Option.bind_eq_some_iff.1 effect
    obtain ⟨target, selected, same⟩ := Option.bind_eq_some_iff.1 effect
    cases same
    have indexes (o : Operand) (ho : o ∈ indexes) : Addressable o := element (.tail _ ho)
    exact carries_storeAt named hk ready (element (.head _)) indexes run fits hx selected
  | unary op a target =>
    obtain ⟨x, hx, effect⟩ := Option.bind_eq_some_iff.1 effect
    obtain ⟨e, he, same⟩ := Option.bind_eq_some_iff.1 effect
    cases same
    exact carries_unary named hk ready (element (.head _)) (element (.tail _ (.head _))) run fits hx he
  | binary op a c target =>
    obtain ⟨x, hx, effect⟩ := Option.bind_eq_some_iff.1 effect
    obtain ⟨y, hy, effect⟩ := Option.bind_eq_some_iff.1 effect
    obtain ⟨e, he, same⟩ := Option.bind_eq_some_iff.1 effect
    cases same
    exact carries_binary named hk ready (element (.head _)) (element (.tail _ (.head _)))
      (element (.tail _ (.tail _ (.head _)))) run fits hx hy he
  | label l =>
    cases effect
    exact carries_label named hk sound run fits
  | jump l =>
    cases effect
    exact carries_jump named hk run fits
  | branch condition l l' =>
    obtain ⟨x, hx, same⟩ := Option.bind_eq_some_iff.1 effect
    cases same
    exact carries_branch named hk ready (element (.head _)) run fits hx
  | abort code =>
    cases effect
    exact carries_abort named hk (words (code + 1) (.head _)) run fits
  | missing => cases effect

end SignalLang.Ir
