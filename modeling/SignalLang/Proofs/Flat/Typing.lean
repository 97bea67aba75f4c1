import SignalLang.Flat.Validate
import SignalLang.Proofs.Steps
import SignalLang.Proofs.Types

/-!
# Well-typed flat programs

`Viewed.HasTy` is the type of what an operand views: a constant is a value of the type, and the fixed indexes
of a variable lead from the type of the variable to it, every index in range. The variable has to be one that
the stream may touch. `Operand.Views` adds the dimensions: `Covers` says that each is an own one of the
type, or stretched.

`Instr.Typed` says that an instruction takes and gives single elements of types its operator has, and
`Program.WellTyped` that all instructions of a program do, that the labels of each stream are placed once,
and that the interface lists hold the variables that live there.
-/

namespace SignalLang.Flat

open Steps (Extends)

/-- Indexes lead from a type to the type of an element. -/
def Leads : (coord : List Int) → Ty → Ty → Prop
  | [], t, u => t = u
  | i :: coord, .array n t, u => (0 ≤ i ∧ i < n) ∧ Leads coord t u
  | _ :: _, .prim _, _ => False

/-- A variable of a type that can be held, at a location that a stream may touch. -/
def HoldsTy (vars : Array Variable) (s : Stream) (id : VarId) (t : Ty) : Prop :=
  t.Storable ∧ ∃ l, vars[id]? = some ⟨some t, l⟩ ∧ Program.mayTouch s l = true

/-- The variable that is viewed. -/
def Viewed.var? : Viewed → Option VarId
  | .constant _ => none
  | .variable id _ => some id

/-- What is viewed has a type. -/
def Viewed.HasTy (vars : Array Variable) (s : Stream) : Viewed → Ty → Prop
  | .constant c, t => c.HasTy t
  | .variable id coord, t => ∃ whole, HoldsTy vars s id whole ∧ Leads coord whole t

/-- Dimensions that a value of a type can be seen through. -/
inductive Covers : List Dim → Ty → Prop where
  | element (p : Prim) : Covers [] (.prim p)
  | keep {n : Int} {ds : List Dim} {t : Ty} (rest : Covers ds t) : Covers (⟨n, .keep⟩ :: ds) (.array n t)
  | collapse {n : Int} {ds : List Dim} {t : Ty} (rest : Covers ds t) :
      Covers (⟨n, .collapse⟩ :: ds) (.array 1 t)
  | discard {n : Int} {ds : List Dim} {p : Prim} (rest : Covers ds (.prim p)) :
      Covers (⟨n, .discard⟩ :: ds) (.prim p)

namespace Operand

/-- An operand views a value of a type. -/
structure Views (vars : Array Variable) (s : Stream) (o : Operand) (t : Ty) : Prop where
  hasTy : o.viewed.HasTy vars s t
  covers : Covers o.dims t

/-- An operand views all of a value of a type. -/
structure IsWhole (vars : Array Variable) (s : Stream) (o : Operand) (t : Ty) : Prop where
  hasTy : o.viewed.HasTy vars s t
  dims : o.dims = whole t

/-- An operand is a single element of a type. -/
def IsElement (vars : Array Variable) (s : Stream) (o : Operand) (p : Prim) : Prop :=
  o.IsWhole vars s (.prim p)

/-- An operand is a single element that can be written. -/
def IsPlace (vars : Array Variable) (s : Stream) (o : Operand) (p : Prim) : Prop :=
  o.IsElement vars s p ∧ o.viewed.var?.isSome = true

/-- A base with indexes selects an element: the base is all of a variable, and behind a zero there is an
integer for every dimension. -/
def IsIndexed (vars : Array Variable) (s : Stream) (base : Operand) (indexes : List Operand) (p : Prim) :
    Prop :=
  ∃ id t rest, base.viewed = .variable id [] ∧ HoldsTy vars s id t ∧ t.base = p ∧
    indexes = .ofInt 0 :: rest ∧ rest.length = t.dims.length ∧ ∀ o ∈ rest, o.IsElement vars s .int

end Operand

/-- The type of an instruction's result, from the type of its operand. -/
def UnaryOp.result? : UnaryOp → Prim → Option Prim
  | .negI, .int | .absI, .int | .bnot, .int => some .int
  | .not, .bool => some .bool
  | .itof, .int => some .float
  | .ftoi, .float => some .int
  | .negI, _ | .absI, _ | .bnot, _ | .not, _ | .itof, _ => none
  | _, .float => some .float
  | _, _ => none

/-- The type of an instruction's result, from the common type of its operands. -/
def BinaryOp.result? : BinaryOp → Prim → Option Prim
  | .compareI _, .int | .compareI _, .bool | .compareF _, .float => some .bool
  | .and, .bool | .or, .bool | .xor, .bool => some .bool
  | .compareI _, _ | .compareF _, _ | .and, _ | .or, _ | .xor, _ => none
  | .addF, .float | .subF, .float | .mulF, .float | .divF, .float | .modF, .float | .powF, .float =>
    some .float
  | .addF, _ | .subF, _ | .mulF, _ | .divF, _ | .modF, _ | .powF, _ => none
  | _, .int => some .int
  | _, _ => none

namespace Instr

/-- The operands of an instruction have types its operator takes; labels and abort codes exist. -/
def Typed (vars : Array Variable) (s : Stream) (labels errors : Nat) : Instr → Prop
  | .move source target => ∃ p, source.IsElement vars s p ∧ target.IsPlace vars s p
  | .load base indexes target => ∃ p, base.IsIndexed vars s indexes p ∧ target.IsPlace vars s p
  | .store source base indexes => ∃ p, source.IsElement vars s p ∧ base.IsIndexed vars s indexes p
  | .unary op a target => ∃ p q, op.result? p = some q ∧ a.IsElement vars s p ∧ target.IsPlace vars s q
  | .binary op a b target => ∃ p q, op.result? p = some q ∧ a.IsElement vars s p ∧ b.IsElement vars s p ∧
      target.IsPlace vars s q
  | .label _ => True
  | .jump l => l < labels
  | .branch condition ifTrue ifFalse => condition.IsElement vars s .bool ∧ ifTrue < labels ∧ ifFalse < labels
  | .abort code => 0 ≤ code ∧ code < errors
  | .missing => False

/-- The label an instruction places. -/
def label? : Instr → Option LabelId
  | .label l => some l
  | _ => none

/-- The operand an instruction writes to. -/
def target? : Instr → Option Operand
  | .move _ target | .load _ _ target | .unary _ _ target | .binary _ _ _ target => some target
  | .store _ base _ => some base
  | .label _ | .jump _ | .branch .. | .abort _ | .missing => none

/-- An instruction writes to one of some variables. -/
def Writes (ids : List VarId) (i : Instr) : Prop := ∃ o, i.target? = some o ∧ ∃ id ∈ ids, o.viewed.var? = some id

end Instr

namespace Program

/-- The labels that instructions place, in order. -/
def labelsOf (code : Array Instr) : List LabelId := code.toList.filterMap Instr.label?

/-- The instructions of a stream are typed and place every label once. -/
structure StreamTyped (p : Program) (s : Stream) : Prop where
  typed : ∀ i ∈ p.stream s, i.Typed p.vars s (p.labelCount s) p.errors.size
  nodup : (labelsOf (p.stream s)).Nodup
  labels : ∀ l, l ∈ labelsOf (p.stream s) ↔ l < p.labelCount s

/-- The variables of a program can be held, its streams are typed, and each interface list holds the
variables at its location. Inputs and outputs are listed once. -/
structure WellTyped (p : Program) : Prop where
  vars : ∀ v ∈ p.vars, ∃ t l, v = ⟨some t, l⟩ ∧ t.Storable ∧ l ≠ .unknown
  streams : ∀ s, p.StreamTyped s
  interface : ∀ (kind : Interface) (id : VarId),
    id ∈ p.interface kind ↔ ∃ v, p.vars[id]? = some v ∧ v.location = kind.location
  inputs : p.inputs.Nodup
  outputs : p.outputs.Nodup

end Program

/-! ## Written variables -/

section Written

variable {vars : Array Variable} {s : Stream} {o : Operand} {id : VarId}

theorem Operand.IsWhole.holds {t : Ty} (h : o.IsWhole vars s t) (hid : o.viewed.var? = some id) :
    ∃ whole, HoldsTy vars s id whole := by
  have typed := h.hasTy
  match view : o.viewed with
  | .constant c =>
    rw [view] at hid
    cases hid
  | .variable id' coord =>
    rw [view] at hid typed
    cases hid
    obtain ⟨whole, holds, -⟩ := typed
    exact ⟨whole, holds⟩

/-- A stream may touch what its instructions write. -/
theorem Instr.Typed.holds {labels errors : Nat} {i : Instr} (h : i.Typed vars s labels errors)
    (ho : i.target? = some o) (hid : o.viewed.var? = some id) : ∃ t, HoldsTy vars s id t := by
  cases i with
  | move _ _ | load _ _ _ =>
    cases ho
    obtain ⟨_, -, hx⟩ := h
    exact Operand.IsWhole.holds hx.1 hid
  | unary _ _ _ =>
    cases ho
    obtain ⟨_, _, -, -, hx⟩ := h
    exact Operand.IsWhole.holds hx.1 hid
  | binary _ _ _ _ =>
    cases ho
    obtain ⟨_, _, -, -, -, hx⟩ := h
    exact Operand.IsWhole.holds hx.1 hid
  | store _ _ _ =>
    cases ho
    obtain ⟨_, -, id', t, _, view, holds, -⟩ := h
    rw [view] at hid
    cases hid
    exact ⟨t, holds⟩
  | label _ | jump _ | branch _ _ _ | abort _ | missing => cases ho

end Written

/-! ## Growing programs -/

section Growth

variable {vars more : Array Variable} {s : Stream} {o : Operand} {labels labels' errors errors' : Nat}

theorem HoldsTy.mono (h : Extends vars more) {id : VarId} {t : Ty} (ht : HoldsTy vars s id t) :
    HoldsTy more s id t := by
  obtain ⟨hs, l, hl, touch⟩ := ht
  exact ⟨hs, l, h id _ hl, touch⟩

theorem Viewed.HasTy.mono (h : Extends vars more) {v : Viewed} {t : Ty} (hv : v.HasTy vars s t) :
    v.HasTy more s t := by
  match v, hv with
  | .constant c, hv => exact hv
  | .variable id coord, hv =>
    obtain ⟨whole, hw, hl⟩ := hv
    exact ⟨whole, hw.mono h, hl⟩

theorem Operand.Views.mono (h : Extends vars more) {t : Ty} (ho : o.Views vars s t) : o.Views more s t :=
  ⟨ho.hasTy.mono h, ho.covers⟩

theorem Operand.IsWhole.mono (h : Extends vars more) {t : Ty} (ho : o.IsWhole vars s t) :
    o.IsWhole more s t := ⟨ho.hasTy.mono h, ho.dims⟩

theorem Operand.IsElement.mono (h : Extends vars more) {p : Prim} (ho : o.IsElement vars s p) :
    o.IsElement more s p := IsWhole.mono h ho

theorem Operand.IsPlace.mono (h : Extends vars more) {p : Prim} (ho : o.IsPlace vars s p) :
    o.IsPlace more s p := ⟨ho.1.mono h, ho.2⟩

theorem Operand.IsIndexed.mono (h : Extends vars more) {indexes : List Operand} {p : Prim}
    (ho : o.IsIndexed vars s indexes p) : o.IsIndexed more s indexes p := by
  obtain ⟨id, t, rest, hv, ht, hb, hi, hl, hr⟩ := ho
  exact ⟨id, t, rest, hv, ht.mono h, hb, hi, hl, fun x hx => (hr x hx).mono h⟩

/-- An instruction stays typed when variables, labels and errors are added. -/
theorem Instr.Typed.mono (h : Extends vars more) (hl : labels ≤ labels') (he : errors ≤ errors') {i : Instr}
    (hi : i.Typed vars s labels errors) : i.Typed more s labels' errors' := by
  cases i with
  | move source target =>
    obtain ⟨p, hs, ht⟩ := hi
    exact ⟨p, hs.mono h, ht.mono h⟩
  | load base indexes target =>
    obtain ⟨p, hb, ht⟩ := hi
    exact ⟨p, hb.mono h, ht.mono h⟩
  | store source base indexes =>
    obtain ⟨p, hs, hb⟩ := hi
    exact ⟨p, hs.mono h, hb.mono h⟩
  | unary op a target =>
    obtain ⟨p, q, hop, ha, ht⟩ := hi
    exact ⟨p, q, hop, ha.mono h, ht.mono h⟩
  | binary op a b target =>
    obtain ⟨p, q, hop, ha, hb, ht⟩ := hi
    exact ⟨p, q, hop, ha.mono h, hb.mono h, ht.mono h⟩
  | label l => trivial
  | jump l => exact Nat.lt_of_lt_of_le hi hl
  | branch condition l l' =>
    obtain ⟨hc, ht, hf⟩ := hi
    exact ⟨hc.mono h, Nat.lt_of_lt_of_le ht hl, Nat.lt_of_lt_of_le hf hl⟩
  | abort code =>
    obtain ⟨hz, hlt⟩ := hi
    exact ⟨hz, Int.lt_of_lt_of_le hlt (Int.ofNat_le.2 he)⟩
  | missing => exact hi

end Growth

end SignalLang.Flat
