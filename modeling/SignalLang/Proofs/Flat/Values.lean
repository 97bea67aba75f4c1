import SignalLang.Flat.Lower
import SignalLang.Proofs.Flat.Machine
import SignalLang.Proofs.Staged.Typing

/-!
# Values of expressions

`Expr.value` is the value of a staged expression, element by element, when the elements of all slots are known. What
operators mean is a parameter: a `Meaning` gives an operator for floats and one for everything else, and
`Meaning.operators` are the instructions that have this meaning.

Indexes that are computed may be out of range. `Expr.Indexed` says that they are not, nowhere in an expression.
-/

namespace SignalLang

/-- The item of a constant at a coordinate. -/
def Constant.item? : Constant → List Int → Option Constant
  | c, [] => some c
  | .array items, i :: coord => if i < 0 then none else items[i.toNat]?.bind (·.item? coord)
  | _, _ :: _ => none

namespace Flat

instance : Inhabited Scalar := ⟨.bool false⟩

/-- What the operators of the source mean for single elements, which are floats or not. -/
structure Meaning where
  unary : SignalLang.UnaryOp → (float : Bool) → Scalar → Scalar
  binary : SignalLang.BinaryOp → (float : Bool) → Scalar → Scalar → Scalar

/-- The operator that an instruction is for, and whether it is for floats. -/
def UnaryOp.source : UnaryOp → SignalLang.UnaryOp × Bool
  | .negI => (.negate, false)
  | .negF => (.negate, true)
  | .absI => (.abs, false)
  | .absF => (.abs, true)
  | .not => (.not, false)
  | .bnot => (.bnot, false)
  | .sin => (.sin, true)
  | .cos => (.cos, true)
  | .sqrt => (.sqrt, true)
  | .exp => (.exp, true)
  | .exp2 => (.exp2, true)
  | .log => (.log, true)
  | .log10 => (.log10, true)
  | .log2 => (.log2, true)
  | .floor => (.floor, true)
  | .ceil => (.ceil, true)
  | .trunc => (.trunc, true)
  | .ftoi => (.ftoi, true)
  | .itof => (.itof, false)

/-- The comparison that a condition is for. -/
def Condition.source : Condition → SignalLang.BinaryOp
  | .lt => .lessThan
  | .gt => .greaterThan
  | .le => .lessOrEqual
  | .ge => .greaterOrEqual
  | .eq => .equal
  | .ne => .notEqual

/-- The operator that an instruction is for, and whether it is for floats. -/
def BinaryOp.source : BinaryOp → SignalLang.BinaryOp × Bool
  | .addI => (.add, false)
  | .addF => (.add, true)
  | .subI => (.subtract, false)
  | .subF => (.subtract, true)
  | .mulI => (.multiply, false)
  | .mulF => (.multiply, true)
  | .divI => (.divide, false)
  | .divF => (.divide, true)
  | .modI => (.modulo, false)
  | .modF => (.modulo, true)
  | .powI => (.power, false)
  | .powF => (.power, true)
  | .band => (.band, false)
  | .bor => (.bor, false)
  | .bxor => (.bxor, false)
  | .shl => (.leftShift, false)
  | .shr => (.rightShift, false)
  | .and => (.and, false)
  | .or => (.or, false)
  | .xor => (.xor, false)
  | .compareI c => (c.source, false)
  | .compareF c => (c.source, true)

/-- The instructions for operators that have a meaning. -/
def Meaning.operators (m : Meaning) : Operators where
  unary op := m.unary op.source.1 op.source.2
  binary op := m.binary op.source.1 op.source.2

/-- The instruction that is selected for an operator is for that operator. -/
theorem UnaryOp.source_select {op : SignalLang.UnaryOp} {p : Prim} (h : Staged.Stage.unaryAccepts op p = true) :
    (select op p).source = (op, decide (p = .float)) := by
  cases op <;> cases p <;> first | rfl | cases h

theorem BinaryOp.source_select {op : SignalLang.BinaryOp} {p : Prim} {instr : BinaryOp}
    (h : Staged.Stage.binaryAccepts op p = true) (chosen : select? op p = some instr) :
    instr.source = (op, decide (p = .float)) := by
  cases op <;> cases p <;> first | (cases chosen; rfl) | cases h

end Flat

namespace Staged.Expr

open Flat (Meaning Scalar Leads)

/-- The number that an expression is. -/
def number? : Expr → Option Int
  | .literal (.int n) _ _ => some n
  | _ => none

/-- The indexes as numbers, when all of them are. -/
def numbers? (indexes : List Expr) : Option (List Int) := indexes.mapM number?

@[simp] theorem numbers?_cons (e : Expr) (es : List Expr) :
    numbers? (e :: es) = e.number?.bind fun n => (numbers? es).map (n :: ·) := by
  rw [numbers?, List.mapM_cons]
  cases e.number? with
  | none => rfl
  | some n => cases h : es.mapM number? <;> simp [numbers?, h]

/-- The type of all that the value of an expression is seen as a part of: selecting with numbers makes no copy. -/
def room : Expr → Ty
  | .index base indexes ty _ => if (numbers? indexes).isSome then base.room else ty
  | e => e.ty

/-- The part of a slot that an expression is, when it is one that numbers select. -/
def place? : Expr → Option (SlotId × List Int)
  | .var id _ _ => some (id, [])
  | .index base indexes _ _ => do
    let (k, coord) ← base.place?
    return (k, coord ++ (← numbers? indexes))
  | _ => none

section Value

variable (m : Meaning) (contents : SlotId → List Int → Scalar)

mutual

/-- The element of the value of an expression at a coordinate. -/
def value : Expr → List Int → Scalar
  | .literal c _ _, coord => ((c.item? coord).bind Scalar.ofConstant?).getD default
  | .var id _ _, coord => contents id coord
  | .index base indexes _ _, coord => base.value ((coord? indexes).getD [] ++ coord)
  | .collect items _ _, i :: coord => itemValue items i.toNat coord
  | .unary op a _ _, coord => m.unary op (decide (a.ty.base = .float)) (a.value coord)
  | .binary op l r _ _, coord =>
    m.binary op (decide (l.ty.base = .float)) (l.value (broadcast coord l.ty.dims))
      (r.value (broadcast coord r.ty.dims))
  | .collect _ _ _, [] | .missing, _ => default

/-- The coordinate that indexes select. -/
def coord? : List Expr → Option (List Int)
  | [] => some []
  | e :: es => do
    let i ← e.number?.or (e.value []).index?
    return i :: (← coord? es)

/-- The element of one of several values. -/
def itemValue : List Expr → Nat → List Int → Scalar
  | [], _, _ => default
  | e :: _, 0, coord => e.value coord
  | _ :: es, i + 1, coord => itemValue es i coord

end

mutual

/-- Every index in an expression is in range. An index that is computed is a word, so there must be words for all
elements it could select. -/
def Indexed : Expr → Prop
  | .literal .. | .var .. | .missing => True
  | .index base indexes ty _ =>
    base.Indexed ∧ AllIndexed indexes ∧ (∃ coord, coord? m contents indexes = some coord ∧ Leads coord base.ty ty) ∧
      (numbers? indexes = none → ∀ d ∈ base.room.dims, d ≤ 2147483648)
  | .collect items _ _ => AllIndexed items
  | .unary _ a _ _ => a.Indexed
  | .binary _ l r _ _ => l.Indexed ∧ r.Indexed

/-- Every index in several expressions is in range. -/
def AllIndexed : List Expr → Prop
  | [] => True
  | e :: es => e.Indexed ∧ AllIndexed es

end

theorem coord?_of_numbers? {indexes : List Expr} {coord : List Int} (h : numbers? indexes = some coord) :
    coord? m contents indexes = some coord := by
  induction indexes generalizing coord with
  | nil => exact h
  | cons e es ih =>
    rw [numbers?_cons] at h
    obtain ⟨i, number, h⟩ := Option.bind_eq_some_iff.1 h
    obtain ⟨rest, numbers, rfl⟩ := Option.map_eq_some_iff.1 h
    rw [coord?, number, ih numbers]
    rfl

/-- A number that is a word is the index of its value. -/
theorem index?_value {e : Expr} {i : Int} (h : e.number?.or (e.value m contents []).index? = some i)
    (word : Word.inRange i = true) : (e.value m contents []).index? = some i := by
  cases number : e.number? with
  | none => rwa [number, Option.none_or] at h
  | some n =>
    rw [number, Option.some_or] at h
    cases h
    unfold number? at number
    split at number
    · cases number
      rw [value]
      exact congrArg some ((Word.wrap_wrap _).trans (Word.wrap_eq_self word))
    · cases number

end Value

end Staged.Expr

end SignalLang
