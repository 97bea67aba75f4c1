import SignalLang.Proofs.Flat.Typing
import SignalLang.Proofs.Transitions
import SignalLang.Real
import SignalLang.Word

/-!
# Running flat programs

A stream runs on a store that has a scalar for each element of each variable. What operators compute is a
parameter. `Instr.outcome?` is what one instruction does: it writes one element, goes on, goes to a label, ends
the run with an error, or traps because an index that was computed is out of range. It has no effect at all when
it is not well-formed: an operand is no single element, a constant index is out of range, an access has too few
indexes. `Program.step?` is the step of the machine, which shows what is written.
-/

namespace SignalLang

instance decidableInBounds : (coord dims : List Int) → Decidable (InBounds coord dims)
  | [], [] => .isTrue trivial
  | _ :: cs, _ :: ds => @instDecidableAnd _ _ _ (decidableInBounds cs ds)
  | [], _ :: _ => .isFalse fun h => h
  | _ :: _, [] => .isFalse fun h => h

namespace Flat

/-- The value of a single element. -/
inductive Scalar where
  | bool (b : Bool)
  | int (n : Int)
  | float (x : Float)

namespace Scalar

/-- The value of a constant. Integers are words, and numbers have single precision. -/
def ofConstant? : Constant → Option Scalar
  | .bool b => some (.bool b)
  | .int n => some (.int (Word.wrap n))
  | .float x => some (.float (Real.round x))
  | _ => none

/-- A value as an index. A truth value is a signed number of one digit, and an integer one of 32. -/
def index? : Scalar → Option Int
  | .bool b => some (if b then -1 else 0)
  | .int n => some (Word.wrap n)
  | .float _ => none

/-- Whether a branch on a value is taken. -/
def isTrue : Scalar → Bool
  | .bool b => b
  | _ => false

end Scalar

/-- What the operators compute. -/
structure Operators where
  unary : UnaryOp → Scalar → Scalar
  binary : BinaryOp → Scalar → Scalar → Scalar

/-- An element of a variable. -/
structure Element (p : Program) where
  var : VarId
  coord : List Int
  declared : var < p.vars.size
  inBounds : InBounds coord (p.dimsOf var)
deriving DecidableEq

/-- An array of the shape of its type for each variable. -/
abbrev Store (p : Program) := Element p → Scalar

variable {p : Program}

/-- Replaces one element. -/
def Store.write (σ : Store p) (e : Element p) (x : Scalar) : Store p := fun e' => if e' = e then x else σ e'

@[simp] theorem Store.write_self (σ : Store p) (e : Element p) (x : Scalar) : σ.write e x e = x := if_pos rfl

theorem Store.write_of_ne {σ : Store p} {e e' : Element p} (x : Scalar) (h : e' ≠ e) : σ.write e x e' = σ e' :=
  if_neg h

/-- Where the variable of an element lives. -/
def Element.location (e : Element p) : Location :=
  have := e.declared
  p.vars[e.var].location

/-- The element of a variable at a coordinate. -/
def Program.element? (p : Program) (id : VarId) (coord : List Int) : Option (Element p) :=
  if h : id < p.vars.size ∧ InBounds coord (p.dimsOf id) then some ⟨id, coord, h.1, h.2⟩ else none

theorem Program.element?_eq_some {id : VarId} {coord : List Int} {e : Element p} :
    p.element? id coord = some e ↔ e.var = id ∧ e.coord = coord := by
  unfold element?
  constructor
  · intro h
    split at h
    · cases h
      exact ⟨rfl, rfl⟩
    · cases h
  · rintro ⟨rfl, rfl⟩
    rw [dif_pos ⟨e.declared, e.inBounds⟩]

namespace Operand

/-- The element that an operand is. -/
def element? (p : Program) (o : Operand) : Option (Element p) :=
  match o.viewed with
  | .constant _ => none
  | .variable id coord => if o.isScalar then p.element? id coord else none

/-- The value of an operand that is a constant or an element. -/
def read? (σ : Store p) (o : Operand) : Option Scalar :=
  match o.viewed with
  | .constant c => if o.isScalar then Scalar.ofConstant? c else none
  | .variable .. => (o.element? p).map σ

/-- Whether an operand is the zero that stands for a variable itself. -/
def isOrigin (o : Operand) : Bool :=
  match o.viewed with
  | .constant c => match Scalar.ofConstant? c with
    | some (.int 0) => true
    | _ => false
  | .variable .. => false

/-- The element of a base that indexes select as the program runs, if they are in range. A base that is not all
of a variable and indexes that are no zero with a value for each dimension select nothing at all. -/
def selected? (σ : Store p) (base : Operand) (indexes : List Operand) : Option (Option (Element p)) :=
  match base.viewed, indexes with
  | .variable id [], first :: rest =>
    if id < p.vars.size ∧ first.isOrigin ∧ rest.length = (p.dimsOf id).length then
      (rest.mapM (read? σ)).map fun xs => (xs.mapM Scalar.index?).bind (p.element? id)
    else none
  | _, _ => none

theorem selected?_eq_some {σ : Store p} {base : Operand} {indexes : List Operand} {e : Option (Element p)}
    (h : base.selected? σ indexes = some e) :
    ∃ id first rest xs, base.viewed = .variable id [] ∧ indexes = first :: rest ∧ first.isOrigin = true ∧
      rest.mapM (read? σ) = some xs ∧ e = (xs.mapM Scalar.index?).bind (p.element? id) := by
  unfold selected? at h
  split at h
  · rename_i id first rest view
    split at h
    · rename_i given
      obtain ⟨xs, hxs, rfl⟩ := Option.map_eq_some_iff.1 h
      exact ⟨id, first, rest, xs, view, rfl, given.2.1, hxs, rfl⟩
    · cases h
  · cases h

/-- The zero that stands for a variable reads as zero. -/
theorem read?_of_isOrigin {o : Operand} (σ : Store p) (h : o.isOrigin = true) (scalar : o.isScalar = true) :
    o.read? σ = some (.int 0) := by
  unfold isOrigin at h
  split at h
  · rename_i c view
    split at h
    · rename_i zero
      simp only [read?, view, scalar, if_true, zero]
    · cases h
  · cases h

end Operand

/-- What an instruction does. -/
inductive Outcome (p : Program) where
  | write (e : Element p) (x : Scalar)
  | next
  | goto (l : LabelId)
  | abort (code : Int)
  /-- An index is out of range. -/
  | trap

/-- The effect of an instruction on a store, unless it is not well-formed. -/
def Instr.outcome? (ops : Operators) (σ : Store p) : Instr → Option (Outcome p)
  | .move source target => do
    let x ← source.read? σ
    return .write (← target.element? p) x
  | .load base indexes target => do
    let source ← base.selected? σ indexes
    let e ← target.element? p
    return source.elim .trap fun s => .write e (σ s)
  | .store source base indexes => do
    let x ← source.read? σ
    let target ← base.selected? σ indexes
    return target.elim .trap fun e => .write e x
  | .unary op a target => do
    let x ← a.read? σ
    return .write (← target.element? p) (ops.unary op x)
  | .binary op a b target => do
    let x ← a.read? σ
    let y ← b.read? σ
    return .write (← target.element? p) (ops.binary op x y)
  | .label _ => some .next
  | .jump l => some (.goto l)
  | .branch condition ifTrue ifFalse => do
    let x ← condition.read? σ
    return .goto (if x.isTrue then ifTrue else ifFalse)
  | .abort code => some (.abort code)
  | .missing => none

/-- A state of the machine: before an instruction, or ended by an abort or a trap. -/
inductive Config (p : Program) where
  | running (index : Nat) (store : Store p)
  | aborted (code : Int) (store : Store p)
  | trapped (store : Store p)

/-- The store of a state. -/
def Config.store : Config p → Store p
  | .running _ σ | .aborted _ σ | .trapped σ => σ

/-- The number of the instruction that places a label. -/
def Program.labelIndex? (p : Program) (s : Stream) (l : LabelId) : Option Nat :=
  (p.stream s).findIdx? fun i => i.label? == some l

/-- Changes of single elements. -/
abbrev Writes (p : Program) := List (Element p × Scalar)

/-- The state after an effect of the instruction at an index, with what is written. A jump goes behind its
label. -/
def Outcome.after? (s : Stream) (i : Nat) (σ : Store p) : Outcome p → Option (Writes p × Config p)
  | .write e x => some ([(e, x)], .running (i + 1) (σ.write e x))
  | .next => some ([], .running (i + 1) σ)
  | .goto l => (p.labelIndex? s l).map fun n => ([], .running (n + 1) σ)
  | .abort code => some ([], .aborted code σ)
  | .trap => some ([], .trapped σ)

/-- A step of the machine. A state behind the last instruction has none. -/
def Program.step? (p : Program) (s : Stream) (ops : Operators) : Machine (Config p) (Element p × Scalar)
  | .running i σ => ((p.stream s)[i]?).bind fun instr => (instr.outcome? ops σ).bind (·.after? s i σ)
  | .aborted .. | .trapped _ => none

end Flat

end SignalLang
